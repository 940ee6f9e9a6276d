import TraitResolution.Proofs.Overlap
import TraitResolution.Proofs.Safety
import TraitResolution.Proofs.Speculation

/-!
# Coherence checks and method calls do not go wrong

Coherence checks compare impls of one trait, and method calls borrow and dereference what they are
given. Both put together references and types of their own. These keep to the signature if the
builtin traits have one parameter and references take one argument.
-/

namespace TraitResolution

namespace Coherence

open Operation Engine Solver

variable {sig : Signature} {config : Config} {program : Program} {impl first second : Impl}
  {vars : List Ty} {env : Env}

theorem exists_boundObligations (himpl : impl.WellFormed sig)
    (hlen : vars.length = impl.params.length) (hvars : ∀ t ∈ vars, env.Admits sig t) :
    ∃ os, boundObligations impl vars = .ok os ∧ env.AdmitsAll sig os := by
  refine exists_mapM fun named hnamed => ?_
  have hbound : named.2 ∈ impl.params.flatten :=
    map_snd_namedBounds impl ▸ List.mem_map_of_mem hnamed
  obtain ⟨ref, hsubst, href⟩ := (hlen ▸ himpl.bounds _ hbound).exists_subst hvars
  refine ⟨.topLevel named.1 ref, ?_, href⟩
  simp [hsubst, bind, Except.bind, pure, Except.pure]

theorem safe_boundsCouldHold (hprogram : program.WellFormed sig) (himpl : impl.WellFormed sig)
    (henv : env.Typed sig) (hlen : vars.length = impl.params.length)
    (hvars : ∀ t ∈ vars, env.Admits sig t) :
    Safe (Endless config.maxDepth) (boundsCouldHold config program impl vars) env
      fun _ left => left.Typed sig := by
  obtain ⟨os, hos, hadmits⟩ := exists_boundObligations himpl hlen hvars
  refine (safe_ofSubst (Q := fun x mid => x = os ∧ mid = env) hos ⟨rfl, rfl⟩).bind ?_
  rintro x mid - ⟨rfl, rfl⟩
  refine (safe_resolve hprogram henv hadmits).bind fun r left _ hleft => ?_
  exact Safe.ite (fun _ => safe_pure hleft) fun _ => safe_report_bind (safe_pure hleft)

/-- Two impls of one trait can be compared. -/
theorem safe_overlap (hprogram : program.WellFormed sig) (hfirst : first.WellFormed sig)
    (hsecond : second.WellFormed sig) (hid : first.trait.id = second.trait.id)
    (henv : env.Typed sig) :
    Safe (Endless config.maxDepth) (overlap config program first second) env
      fun _ left => left.Typed sig := by
  refine (safe_instantiate henv hfirst).bind fun p mid _ hp => ?_
  refine (safe_instantiate hp.typed hsecond).bind fun q last hq hq' => ?_
  have hlast := hq.extends_env (grows_instantiate second)
  have hids : p.2.id = q.2.id := hp.id_eq.trans (hid.trans hq'.id_eq.symm)
  refine (safe_unifyReferences hq'.typed hids (hp.ref.of_extends hlast) hq'.ref).bind ?_
  intro same unified hunified htyped
  have hjoined := hunified.extends_env (grows_unifyReferences _ _)
  refine Safe.ite (fun _ => ?_) fun _ => safe_pure htyped
  refine (safe_boundsCouldHold hprogram hfirst htyped hp.length_vars fun t ht =>
    (hp.vars t ht).of_extends (hjoined.trans hlast)).bind fun holds left hleft htyped' => ?_
  have hresolved := hleft.extends_env grows_boundsCouldHold
  refine Safe.ite (fun _ => ?_) fun _ => safe_pure htyped'
  exact safe_boundsCouldHold hprogram hsecond htyped' hq'.length_vars fun t ht =>
    (hq'.vars t ht).of_extends (hresolved.trans hjoined)

theorem safe_check (hprogram : program.WellFormed sig) :
    Safe (Endless config.maxDepth) (check config program) env fun _ left => left = env := by
  refine (safe_select (P := fun _ => True) fun p hp => ?_).bind
    fun _ mid _ hmid => safe_pure hmid.1
  obtain ⟨hmem, hid⟩ := List.mem_filter.mp hp
  have hsublist := mem_pairs.mp hmem
  have hfirst := hprogram p.1 (hsublist.subset (by simp))
  have hsecond := hprogram p.2 (hsublist.subset (by simp))
  refine (safe_isolated (Q := fun _ left => left = env)
    (safe_overlap hprogram hfirst hsecond (by simpa using hid) Env.typed_empty)
    fun _ _ _ => rfl).bind fun clash mid _ hmid => ?_
  refine Safe.ite (fun _ => safe_report_bind (safe_pure ?_)) fun _ => safe_pure ?_
  · exact ⟨hmid, fun _ => trivial⟩
  · exact ⟨hmid, fun _ => trivial⟩

end Coherence

namespace Env

variable {env later : Env} {sig : Signature} {kind : DerefKind} {input place : Place} {target : Ty}
  {evidence : Resolution}

/-- A place whose types, from the receiver on, the engine may work on. -/
def AdmitsPlace (env : Env) (sig : Signature) (place : Place) : Prop :=
  ∀ p ∈ place.chain, env.Admits sig p.type

theorem AdmitsPlace.of_extends (h : env.AdmitsPlace sig place) (hextends : later.Extends env) :
    later.AdmitsPlace sig place :=
  fun p hp => (h p hp).of_extends hextends

theorem admitsPlace_receiver {t : Ty} : env.AdmitsPlace sig (.receiver t) ↔ env.Admits sig t := by
  simp [AdmitsPlace, Place.chain, Place.type]

theorem admitsPlace_deref : env.AdmitsPlace sig (.deref kind input target evidence) ↔
    env.Admits sig target ∧ env.AdmitsPlace sig input :=
  List.forall_mem_cons

theorem AdmitsPlace.type (h : env.AdmitsPlace sig place) : env.Admits sig place.type := by
  cases place with
  | receiver t => exact admitsPlace_receiver.mp h
  | deref kind input target evidence => exact (admitsPlace_deref.mp h).1

/-- The places a place was reached from are admitted with it. -/
theorem AdmitsPlace.chain (h : env.AdmitsPlace sig place) :
    ∀ p ∈ place.chain, env.AdmitsPlace sig p := by
  induction place with
  | receiver t => exact List.forall_mem_singleton.mpr h
  | deref kind input target evidence ih =>
      exact List.forall_mem_cons.mpr ⟨h, ih (admitsPlace_deref.mp h).2⟩

end Env

namespace MethodCall

open Operation Engine

variable {sig : Signature} {env : Env}

/-- A call to be resolved in a well-formed program, whose signature has references and dereferences
as the builtin traits do. -/
structure Lookup.WellFormed (sig : Signature) (cx : Lookup) : Prop where
  program : cx.program.WellFormed sig
  declarations : ∀ d ∈ cx.declarations, d.trait.WellFormed sig ∧ d.method ∈ d.trait.methods
  deref : ∀ kind : DerefKind, sig.params kind.trait.id = 1
  sharedRef : sig.arity "Ref" = 1
  mutRef : sig.arity "RefMut" = 1

namespace Lookup

variable {cx : Lookup} {place : Place} {d : Declaration}

theorem WellFormed.admits_sharedRef (hcx : cx.WellFormed sig) {t : Ty} (ht : env.Admits sig t) :
    env.Admits sig t.sharedRef :=
  Env.admits_con.mpr ⟨hcx.sharedRef.symm, List.forall_mem_singleton.mpr ht⟩

theorem WellFormed.admits_mutRef (hcx : cx.WellFormed sig) {t : Ty} (ht : env.Admits sig t) :
    env.Admits sig t.mutRef :=
  Env.admits_con.mpr ⟨hcx.mutRef.symm, List.forall_mem_singleton.mpr ht⟩

theorem WellFormed.admits_derefRef (hcx : cx.WellFormed sig) (kind : DerefKind) {target : Ty}
    (hplace : env.AdmitsPlace sig place) (ht : env.Admits sig target) :
    env.AdmitsRef sig (Place.derefRef kind place target) :=
  ⟨List.forall_mem_cons.mpr ⟨hplace.type, List.forall_mem_singleton.mpr ht⟩, (hcx.deref kind).symm⟩

theorem safe_resolveRef (hcx : cx.WellFormed sig) {id : Text} {ref : Reference}
    (henv : env.Typed sig) (href : env.AdmitsRef sig ref) :
    Safe (Solver.Endless cx.config.maxDepth) (cx.resolveRef id ref) env
      fun _ left => left.Typed sig :=
  Solver.safe_resolve hcx.program henv (List.forall_mem_singleton.mpr href)

theorem safe_resolveTrait (hcx : cx.WellFormed sig) {self : Ty} {t : Trait} (henv : env.Typed sig)
    (hself : env.Admits sig self) (ht : t.WellFormed sig) :
    Safe (Solver.Endless cx.config.maxDepth) (cx.resolveTrait self t) env fun p left =>
      left.Typed sig ∧ p.1.types.length = t.arity + 1 ∧ ∀ x ∈ p.1.types, left.Admits sig x := by
  have hfresh := (Env.returns_freshTypes (n := t.arity) henv.valid).mpr ⟨rfl, rfl⟩
  have hlen := env.length_nextVars t.arity
  refine (hfresh.safe (Q := fun params mid => params = env.nextVars t.arity ∧
    mid = env.grown t.arity) ⟨rfl, rfl⟩).bind ?_
  rintro params mid - ⟨rfl, rfl⟩
  have href : (env.grown t.arity).AdmitsRef sig ⟨t.id, self, env.nextVars t.arity⟩ :=
    ⟨List.forall_mem_cons.mpr ⟨hself.of_extends (env.extends_grown _),
      fun x hx => Env.admits_nextVars hx⟩, hlen.trans ht.arity_eq⟩
  refine (safe_resolveRef hcx (henv.grown _) href).bind fun r left hleft htyped => ?_
  have hextends := hleft.extends_env (cx.grows_resolveRef _ _)
  refine safe_pure ⟨htyped, by simp [Reference.types, hlen], fun x hx => ?_⟩
  exact (href.types x hx).of_extends hextends

/-- A trait that could apply was resolved without a missing impl. -/
theorem safe_couldApply (hcx : cx.WellFormed sig) (henv : env.Typed sig)
    (hplace : env.AdmitsPlace sig place) (hd : d.trait.WellFormed sig) :
    Safe (Solver.Endless cx.config.maxDepth) (cx.couldApply place d) env fun b left => left = env ∧
      (b = true → ∃ p gone, (cx.resolveTrait place.type d.trait).Returns env p gone ∧
        p.2.noImpl.isEmpty = true) := by
  refine safe_probe ((cx.grows_resolveTrait _ _).bind fun _ => grows_pure _)
    (P := fun b _ => b = true → ∃ p gone, (cx.resolveTrait place.type d.trait).Returns env p gone ∧
      p.2.noImpl.isEmpty = true) ?_ fun _ _ _ h => ⟨rfl, h⟩
  refine (safe_resolveTrait hcx henv hplace.type hd).bind fun p gone hp _ => ?_
  exact safe_pure fun hempty => ⟨p, gone, hp, hempty⟩

theorem safe_makeMutable (hcx : cx.WellFormed sig) (henv : env.Typed sig)
    (hplace : env.AdmitsPlace sig place) :
    Safe (Solver.Endless cx.config.maxDepth) (cx.makeMutable place) env fun made left =>
      left.Typed sig ∧ ∀ p, made = some p → left.AdmitsPlace sig p := by
  induction place with
  | receiver t => exact safe_pure ⟨henv, fun p hp => Option.some.inj hp ▸ hplace⟩
  | deref kind input target evidence ih =>
      obtain ⟨htarget, hinput⟩ := Env.admitsPlace_deref.mp hplace
      cases kind with
      | mutable => exact safe_pure ⟨henv, fun p hp => Option.some.inj hp ▸ hplace⟩
      | shared =>
          refine (ih hinput).bind fun made mid hmade ⟨hmid, hadmits⟩ => ?_
          cases made with
          | none => exact safe_pure ⟨hmid, by simp⟩
          | some input' =>
              have hinput' := hadmits input' rfl
              have htarget' := htarget.of_extends (hmade.extends_env (cx.grows_makeMutable input))
              refine (safe_resolveRef hcx hmid (hcx.admits_derefRef .mutable hinput' htarget')).bind
                fun r left hleft htyped => ?_
              have hextends := hleft.extends_env (cx.grows_resolveRef _ _)
              refine Safe.ite (fun _ => safe_pure ⟨htyped, fun p hp => ?_⟩) fun _ =>
                safe_report_bind (safe_pure ⟨htyped, by simp⟩)
              obtain rfl := Option.some.inj hp
              exact Env.admitsPlace_deref.mpr
                ⟨htarget'.of_extends hextends, hinput'.of_extends hextends⟩

theorem safe_reconcile (hcx : cx.WellFormed sig) {m : Method} {ref : Reference}
    {evidence : Resolution} {selfType : Ty} {places : List Place} (henv : env.Typed sig)
    (hself : env.Admits sig selfType) (hplaces : ∀ p ∈ places, env.AdmitsPlace sig p) :
    Safe (Solver.Endless cx.config.maxDepth) (cx.reconcile m ref evidence selfType places) env
      fun _ left => left.Typed sig := by
  induction places generalizing env with
  | nil => exact safe_pure henv
  | cons place rest ih =>
      obtain ⟨hplace, -⟩ := List.forall_mem_cons.mp hplaces
      have hattempt : ∀ {env t}, env.Typed sig → env.Admits sig selfType → env.Admits sig t →
          Safe (Solver.Endless cx.config.maxDepth) (attempt (unify selfType t)) env
            fun _ left => left.Typed sig :=
        fun henv hself ht => safe_attempt (grows_unify _ _) (safe_unify henv hself ht) henv
      have hgrows : ∀ t, (attempt (unify selfType t)).Grows :=
        fun t => grows_attempt (grows_unify _ _)
      -- the place itself is tried first, then a shared and at last a mutable reference to it
      refine (hattempt henv hself hplace.type).bind fun byValue mid hmid htyped => ?_
      have hextends := hmid.extends_env (hgrows _)
      refine Safe.ite (fun _ => safe_pure htyped) fun _ => ?_
      refine (hattempt htyped (hself.of_extends hextends) (hcx.admits_sharedRef
        (hplace.of_extends hextends).type)).bind fun shared before hbefore htyped => ?_
      have hextends := (hbefore.extends_env (hgrows _)).trans hextends
      have hself := hself.of_extends hextends
      have hplace := hplace.of_extends hextends
      refine Safe.ite (fun _ => safe_pure htyped) fun _ => safe_present_bind ?_
      refine (safe_unify htyped hself (hcx.admits_mutRef hplace.type)).bind
        fun mutable unified hunified htyped' => ?_
      have hextends' := hunified.extends_env (grows_unify _ _)
      refine Safe.ite (fun _ => ?_) fun _ => safe_report_bind ?_
      · refine (safe_makeMutable hcx htyped' (hplace.of_extends hextends')).bind
          fun made left hmade ⟨hleft, _⟩ => ?_
        cases made with
        | some place' => exact safe_pure hleft
        | none =>
            have hsince := (hmade.extends_env (cx.grows_makeMutable place)).trans hextends'
            exact (safe_rollback hsince htyped).bind fun _ _ _ hback => safe_pure hback
      · exact ih htyped' (hself.of_extends hextends') fun p hp =>
          (hplaces p (List.mem_cons_of_mem _ hp)).of_extends (hextends'.trans hextends)

/-- The trait that is called was found to apply in the same environment, so it does again. -/
theorem safe_call (hcx : cx.WellFormed sig) (henv : env.Typed sig)
    (hplace : env.AdmitsPlace sig place) (hd : d ∈ cx.declarations)
    {p : Reference × Resolution} {gone : Env}
    (hfound : (cx.resolveTrait place.type d.trait).Returns env p gone)
    (hempty : p.2.noImpl.isEmpty = true) :
    Safe (Solver.Endless cx.config.maxDepth) (cx.call place d) env
      fun _ left => left.Typed sig := by
  obtain ⟨htrait, hmethod⟩ := hcx.declarations d hd
  refine (safe_resolveTrait hcx henv hplace.type htrait).bind
    fun q left hq ⟨hleft, hlen, htypes⟩ => ?_
  obtain ⟨rfl, rfl⟩ := hq.unique hfound
  refine Safe.ite (fun _ => ?_) fun hne => absurd hempty hne
  obtain ⟨selfType, hsubst, hself⟩ := (hlen ▸ htrait.methods _ hmethod).exists_subst htypes
  have hextends := hq.extends_env (cx.grows_resolveTrait _ _)
  refine (safe_ofSubst (Q := fun t mid => t = selfType ∧ mid = left) hsubst ⟨rfl, rfl⟩).bind ?_
  rintro t mid - ⟨rfl, rfl⟩
  exact safe_reconcile hcx hleft hself fun p hp => (hplace.of_extends hextends).chain p hp

theorem safe_choose (hcx : cx.WellFormed sig) (henv : env.Typed sig)
    (hplace : env.AdmitsPlace sig place) {otherwise : Engine MethodResult}
    (hotherwise : Safe (Solver.Endless cx.config.maxDepth) otherwise env
      fun _ left => left.Typed sig) :
    Safe (Solver.Endless cx.config.maxDepth) (cx.choose place otherwise) env
      fun _ left => left.Typed sig := by
  refine (safe_select fun d hd => safe_couldApply hcx henv hplace (hcx.declarations d hd).1).bind ?_
  rintro found mid - ⟨rfl, hfound⟩
  rcases found with _ | ⟨d, _ | ⟨other, found⟩⟩
  · exact hotherwise
  · obtain ⟨hd, p, gone, hp, hempty⟩ := hfound d (by simp)
    exact safe_call hcx henv hplace hd hp hempty
  · exact safe_report_bind (safe_pure henv)

theorem safe_deref (hcx : cx.WellFormed sig) (henv : env.Typed sig)
    (hplace : env.AdmitsPlace sig place) {next : Place → Engine MethodResult}
    (hnext : ∀ env place, env.Typed sig → env.AdmitsPlace sig place →
      Safe (Solver.Endless cx.config.maxDepth) (next place) env fun _ left => left.Typed sig) :
    Safe (Solver.Endless cx.config.maxDepth) (cx.deref place next) env
      fun _ left => left.Typed sig := by
  have hfresh : fresh.Returns env ⟨env.count, 0⟩ env.created :=
    returns_fresh.mpr ⟨henv.valid.nextVar_eq.symm, rfl⟩
  refine (hfresh.safe (Q := fun v mid => v = ⟨env.count, 0⟩ ∧ mid = env.created) ⟨rfl, rfl⟩).bind ?_
  rintro v mid - ⟨rfl, rfl⟩
  have hplace := hplace.of_extends env.extends_created
  have hvar : env.created.Admits sig (.var ⟨env.count, 0⟩) :=
    Env.admits_var.mpr ⟨Nat.lt_succ_self _, rfl⟩
  refine (safe_resolveRef hcx ⟨henv.valid.created, henv.fits⟩
    (hcx.admits_derefRef .shared hplace hvar)).bind fun r left hleft htyped => ?_
  have hextends := hleft.extends_env (cx.grows_resolveRef _ _)
  refine Safe.ite (fun _ => safe_report_bind ?_) fun _ => safe_report_bind (safe_pure htyped)
  exact hnext left _ htyped (Env.admitsPlace_deref.mpr
    ⟨hvar.of_extends hextends, hplace.of_extends hextends⟩)

theorem safe_search (hcx : cx.WellFormed sig) (n : Nat) (henv : env.Typed sig)
    (hplace : env.AdmitsPlace sig place) :
    Safe (Solver.Endless cx.config.maxDepth) (cx.search n place) env
      fun _ left => left.Typed sig := by
  induction n generalizing env place with
  | zero => exact safe_choose hcx henv hplace (safe_report_bind (safe_pure henv))
  | succ n ih =>
      exact safe_choose hcx henv hplace
        (safe_deref hcx henv hplace fun env place henv hplace => ih henv hplace)

end Lookup

end MethodCall

end TraitResolution
