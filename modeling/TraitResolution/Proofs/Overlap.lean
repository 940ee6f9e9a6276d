import Mathlib.Data.List.Basic
import TraitResolution.Coherence
import TraitResolution.Proofs.Completeness

/-!
# Overlapping impls

Two impls of one trait overlap in earnest when both apply to some ground reference. The coherence
check reports every such pair, so without a conflict at most one impl applies to any reference.

## Implementation notes

The check joins two impls in an environment of their own and resolves their bounds there, first
those of one and then those of the other. A common ground reference is a solution of that
environment. Resolution loses no solution, so it is still there when the bounds of the second impl
are looked at.
-/

namespace TraitResolution

namespace Coherence

open Operation Engine

section Pairs

variable {α : Type} {l : List α} {a b : α}

/-- The pairs of a list are its sublists of two elements. -/
theorem mem_pairs : (a, b) ∈ pairs l ↔ [a, b].Sublist l := by
  induction l with
  | nil => simp [pairs]
  | cons x l ih =>
      rw [pairs, List.mem_append, ih, List.sublist_cons_iff, or_comm]
      apply or_congr_right
      constructor
      · intro h
        obtain ⟨y, hy, heq⟩ := List.mem_map.mp h
        obtain ⟨rfl, rfl⟩ := Prod.mk.inj heq
        exact ⟨[y], rfl, List.singleton_sublist.mpr hy⟩
      · rintro ⟨rest, heq, hrest⟩
        obtain ⟨rfl, rfl⟩ := List.cons.inj heq
        exact List.mem_map.mpr ⟨b, List.singleton_sublist.mp hrest, rfl⟩

theorem mem_pairs_of_lt {i j : Nat} (hij : i < j) (ha : l[i]? = some a) (hb : l[j]? = some b) :
    (a, b) ∈ pairs l := by
  have htake : a ∈ l.take (i + 1) :=
    List.mem_of_getElem? (i := i) (by rw [List.getElem?_take_of_lt (by omega), ha])
  have hdrop : b ∈ l.drop (i + 1) := by
    apply List.mem_of_getElem? (i := j - (i + 1))
    rw [List.getElem?_drop, ← hb]
    congr 1
    omega
  have happend := (List.singleton_sublist.mpr htake).append (List.singleton_sublist.mpr hdrop)
  rw [List.take_append_drop] at happend
  exact mem_pairs.mpr happend

end Pairs

variable {config : Config} {program : Program} {first second impl : Impl} {vars : List Ty}
  {env mid left : Env} {os : List Obligation} {r : Resolution} {σ : Assignment}

theorem map_snd_namedBounds (impl : Impl) :
    (namedBounds impl).map Prod.snd = impl.params.flatten := by
  rw [namedBounds, List.map_flatten]
  congr 1
  apply List.ext_getElem (by simp)
  intro p hp hp'
  apply List.ext_getElem (by simp)
  intro b hb hb'
  simp

/-- The bounds of an impl become obligations of depth 0, in order. -/
theorem boundObligations_eq_ok (h : boundObligations impl vars = .ok os) :
    impl.boundsWith vars = .ok (os.map (·.trait)) ∧ ∀ o ∈ os, o.depth = 0 := by
  rw [Impl.boundsWith, ← map_snd_namedBounds]
  rw [boundObligations] at h
  generalize namedBounds impl = bounds at h ⊢
  induction bounds generalizing os with
  | nil =>
      obtain rfl : os = [] := (Except.ok.inj h).symm
      exact ⟨rfl, by simp⟩
  | cons named rest ih =>
      obtain ⟨o, os, ho, hos, rfl⟩ := mapM_cons_eq_ok.mp h
      obtain ⟨hrest, hdepth⟩ := ih hos
      cases hsubst : named.2.subst vars with
      | error e => simp [hsubst, bind, Except.bind] at ho
      | ok ref =>
          obtain rfl : Obligation.topLevel named.1 ref = o := by
            simpa [hsubst, bind, Except.bind, pure, Except.pure] using ho
          refine ⟨mapM_cons_eq_ok.mpr ⟨ref, _, hsubst, hrest, rfl⟩, ?_⟩
          exact List.forall_mem_cons.mpr ⟨rfl, hdepth⟩

/-- The bounds of an impl, with types for its parameters, are resolved. -/
def ResolvesBounds (config : Config) (program : Program) (impl : Impl) (vars : List Ty) (env : Env)
    (r : Resolution) (left : Env) : Prop :=
  ∃ os, boundObligations impl vars = .ok os ∧ (Solver.resolve config program os).Returns env r left

theorem returns_boundsCouldHold {b : Bool} :
    (boundsCouldHold config program impl vars).Returns env b left ↔
      ∃ r, ResolvesBounds config program impl vars env r left ∧ b = r.noImpl.isEmpty := by
  simp only [boundsCouldHold, returns_bind, returns_ofSubst]
  constructor
  · rintro ⟨os, _, ⟨hos, rfl⟩, r, mid, hresolve, h⟩
    refine ⟨r, ?_⟩
    rcases returns_ite.mp h with ⟨hempty, h⟩ | ⟨hempty, h⟩
    · obtain ⟨rfl, rfl⟩ := returns_pure.mp h
      exact ⟨⟨os, hos, hresolve⟩, hempty.symm⟩
    · rw [returns_report_bind, returns_pure] at h
      obtain ⟨rfl, rfl⟩ := h
      exact ⟨⟨os, hos, hresolve⟩, (Bool.eq_false_iff.mpr hempty).symm⟩
  · rintro ⟨r, ⟨os, hos, hresolve⟩, rfl⟩
    refine ⟨os, env, ⟨hos, rfl⟩, r, left, hresolve, ?_⟩
    rw [returns_ite, returns_report_bind, returns_pure, returns_pure]
    cases r.noImpl.isEmpty with
    | true => exact Or.inl ⟨rfl, rfl, rfl⟩
    | false => exact Or.inr ⟨Bool.false_ne_true, rfl, rfl⟩

/-- Types over the variables of an environment, without parameters. -/
def Usable (env : Env) (vars : List Ty) : Prop :=
  ∀ t ∈ vars, env.Covers t ∧ t.hasParams = false

theorem Usable.of_extends (h : Usable env vars) (hextends : left.Extends env) : Usable left vars :=
  fun t ht => ⟨hextends.covers (h t ht).1, (h t ht).2⟩

theorem Usable.boundsWith_type (h : Usable env vars) (himpl : impl.VarFree)
    {bounds : List Reference} (hbounds : impl.boundsWith vars = .ok bounds) (σ : Assignment) :
    impl.boundsWith (vars.map σ.type) = .ok (bounds.map σ.ref) :=
  Impl.boundsWith_map himpl (fun t ht => (σ.ground_type (h t ht).2).notParam) hbounds

theorem Usable.coversAll (h : Usable env vars) (himpl : impl.VarFree)
    (hos : boundObligations impl vars = .ok os) : env.CoversAll os := by
  intro o ho
  obtain ⟨hbounds, -⟩ := boundObligations_eq_ok hos
  obtain ⟨source, hsource, hsubst⟩ := exists_of_mem_mapM hbounds (List.mem_map_of_mem ho)
  exact Solver.covers_subst (himpl.2 source hsource) (fun t ht => (h t ht).1) hsubst

namespace ResolvesBounds

theorem progress (h : ResolvesBounds config program impl vars env r left)
    (hprogram : program.VarFree) (himpl : impl.VarFree) (henv : env.Valid)
    (hvars : Usable env vars) : Solver.Progress env [] left := by
  obtain ⟨os, hos, hresolve⟩ := h
  exact Solver.resolveWithin_progress hprogram henv (hvars.coversAll himpl hos) hresolve

/-- Resolving bounds keeps the assignments under which they are derivable. -/
theorem lossless (h : ResolvesBounds config program impl vars env r left)
    (hprogram : program.VarFree) (himpl : impl.VarFree) (henv : env.Valid)
    (hvars : Usable env vars) (hσ : σ.Solves env) {instances : List Reference}
    (hinstances : impl.boundsWith (vars.map σ.type) = .ok instances)
    (hderivable : ∀ b ∈ instances, program.Derivable b) :
    r.noImpl = [] ∧ ∃ τ : Assignment, σ.AgreesOn τ env ∧ τ.Solves left := by
  obtain ⟨os, hos, hresolve⟩ := h
  obtain ⟨hbounds, -⟩ := boundObligations_eq_ok hos
  have hmap := hvars.boundsWith_type himpl hbounds σ
  obtain rfl : instances = (os.map (·.trait)).map σ.ref :=
    Except.ok.inj (hinstances.symm.trans hmap)
  have hsatisfies : σ.Satisfies program os :=
    fun o ho => hderivable _ (List.mem_map_of_mem (List.mem_map_of_mem ho))
  obtain ⟨hnoImpl, τ, hagrees, hτ, -⟩ := Solver.resolveWithin_lossless hprogram henv
    (hvars.coversAll himpl hos) hresolve σ hσ hsatisfies
  exact ⟨hnoImpl, τ, hagrees, hτ⟩

end ResolvesBounds

/-- An environment whose solutions are the common ground references of two impls. -/
structure Joined (first second : Impl) (firstVars secondVars : List Ty) (env : Env) : Prop where
  valid : env.Valid
  usableFirst : Usable env firstVars
  usableSecond : Usable env secondVars
  implements : ∀ {σ : Assignment}, σ.Solves env → ∃ ref,
    first.Implements (firstVars.map σ.type) ref ∧ second.Implements (secondVars.map σ.type) ref
  exists_solves : ∀ {rs rs' : List Ty} {ref : Reference}, first.Implements rs ref →
    second.Implements rs' ref → ∃ σ : Assignment, σ.Solves env ∧
      firstVars.map σ.type = rs ∧ secondVars.map σ.type = rs'

section Joining

variable {firstRef secondRef : Reference}

/-- An environment with variables for the parameters of two impls, one after the other. -/
def sideBySide (first second : Impl) : Env :=
  (Env.empty.grown first.params.length).grown second.params.length

/-- The variables for the parameters of the first impl. -/
def leftVars (first : Impl) : List Ty :=
  Env.empty.nextVars first.params.length

/-- The variables for the parameters of the second impl. -/
def rightVars (first second : Impl) : List Ty :=
  (Env.empty.grown first.params.length).nextVars second.params.length

theorem valid_sideBySide (first second : Impl) : (sideBySide first second).Valid :=
  (Env.valid_empty.grown _).grown _

theorem usable_leftVars : Usable (sideBySide first second) (leftVars first) :=
  fun _ ht => ⟨(Env.extends_grown _ _).covers (Env.covers_nextVars ht), Env.hasParams_nextVars ht⟩

theorem usable_rightVars : Usable (sideBySide first second) (rightVars first second) :=
  fun _ ht => ⟨Env.covers_nextVars ht, Env.hasParams_nextVars ht⟩

/-- Any ground types for the parameters of two impls are given by an assignment. -/
theorem exists_assignment {rs rs' : List Ty} {ref ref' : Reference} (hrs : first.Implements rs ref)
    (hrs' : second.Implements rs' ref') : ∃ σ : Assignment,
      (leftVars first).map σ.type = rs ∧ (rightVars first second).map σ.type = rs' := by
  let base : Assignment := ⟨fun _ => .con "" [], fun _ => by decide⟩
  obtain ⟨σ, -, hσ⟩ := base.exists_extension .empty hrs.ground
  obtain ⟨τ, hagrees, hτ⟩ := σ.exists_extension (Env.empty.grown first.params.length) hrs'.ground
  rw [hrs.length_eq] at hσ
  rw [hrs'.length_eq] at hτ
  refine ⟨τ, ?_, hτ⟩
  rw [← hσ]
  exact List.map_congr_left fun t ht => hagrees.type_eq (Env.covers_nextVars ht)

variable (hfirst : first.VarFree) (hsecond : second.VarFree)
  (hfirstRef : first.trait.subst (leftVars first) = .ok firstRef)
  (hsecondRef : second.trait.subst (rightVars first second) = .ok secondRef)

include hfirst hsecond hfirstRef hsecondRef

theorem covers_sideBySide : (sideBySide first second).CoversRef firstRef ∧
    (sideBySide first second).CoversRef secondRef :=
  ⟨Solver.covers_subst hfirst.1 (fun t ht => (usable_leftVars t ht).1) hfirstRef,
    Solver.covers_instance hsecond hsecondRef⟩

theorem implements_sideBySide (σ : Assignment) :
    first.Implements ((leftVars first).map σ.type) (σ.ref firstRef) ∧
      second.Implements ((rightVars first second).map σ.type) (σ.ref secondRef) := by
  constructor
  · exact ⟨by simp [leftVars, Env.length_nextVars],
      List.forall_mem_map.mpr (Solver.ground_nextVars σ), Solver.instance_type hfirst hfirstRef σ⟩
  · exact ⟨by simp [rightVars, Env.length_nextVars],
      List.forall_mem_map.mpr (Solver.ground_nextVars σ), Solver.instance_type hsecond hsecondRef σ⟩

theorem joined_of_unifyReferences (hid : first.trait.id = second.trait.id)
    (h : (unifyReferences firstRef secondRef).Returns (sideBySide first second) true mid) :
    Joined first second (leftVars first) (rightVars first second) mid := by
  obtain ⟨hleft, hright⟩ := covers_sideBySide hfirst hsecond hfirstRef hsecondRef
  have hrefId : firstRef.id = secondRef.id := by
    rw [(Reference.subst_eq_ok.mp hfirstRef).1, (Reference.subst_eq_ok.mp hsecondRef).1, hid]
  have hvalid := valid_sideBySide first second
  obtain ⟨-, hunified⟩ := unifyReferences_unified hvalid hleft hright h
  have hsolved : ∀ σ : Assignment, σ.Solves mid ↔ σ.ref firstRef = σ.ref secondRef := by
    intro σ
    have hempty : (sideBySide first second).SolvedBy σ.value := fun b hb => nomatch hb
    have hiff := solvedBy_of_unifyReferences (f := σ.value) hvalid hleft hright hrefId h
    exact hiff.trans ⟨fun h => h.2, fun h => ⟨hempty, h⟩⟩
  refine ⟨hunified.valid, usable_leftVars.of_extends hunified.extends_env,
    usable_rightVars.of_extends hunified.extends_env, fun {σ} hσ => ?_,
    fun {rs rs' ref} hrs hrs' => ?_⟩
  · obtain ⟨himplements, himplements'⟩ :=
      implements_sideBySide hfirst hsecond hfirstRef hsecondRef σ
    refine ⟨σ.ref firstRef, himplements, ?_⟩
    rw [(hsolved σ).mp hσ]
    exact himplements'
  · obtain ⟨σ, hσ, hσ'⟩ := exists_assignment hrs hrs'
    obtain ⟨himplements, himplements'⟩ :=
      implements_sideBySide hfirst hsecond hfirstRef hsecondRef σ
    refine ⟨σ, (hsolved σ).mpr ?_, hσ, hσ'⟩
    rw [hσ] at himplements
    rw [hσ'] at himplements'
    calc
      σ.ref firstRef = ref := himplements.unique hrs
      _ = σ.ref secondRef := (himplements'.unique hrs').symm

theorem disjoint_of_unifyReferences {rs rs' : List Ty} {ref : Reference}
    (h : (unifyReferences firstRef secondRef).Returns (sideBySide first second) false mid)
    (hrs : first.Implements rs ref) : ¬second.Implements rs' ref := by
  intro hrs'
  obtain ⟨σ, hσ, hσ'⟩ := exists_assignment hrs hrs'
  obtain ⟨himplements, himplements'⟩ := implements_sideBySide hfirst hsecond hfirstRef hsecondRef σ
  rw [hσ] at himplements
  rw [hσ'] at himplements'
  obtain ⟨hleft, hright⟩ := covers_sideBySide hfirst hsecond hfirstRef hsecondRef
  refine replaceVars_ne_of_unifyReferences (f := σ.value) (valid_sideBySide first second) hleft
    hright (fun b hb => nomatch hb) h ?_
  calc
    σ.ref firstRef = ref := himplements.unique hrs
    _ = σ.ref secondRef := (himplements'.unique hrs').symm

end Joining

/-- The references of two impls are made equal, which leaves `mid`. -/
def Joins (first second : Impl) (mid : Env) : Prop :=
  ∃ firstRef secondRef, first.trait.subst (leftVars first) = .ok firstRef ∧
    second.trait.subst (rightVars first second) = .ok secondRef ∧
    (unifyReferences firstRef secondRef).Returns (sideBySide first second) true mid

theorem Joins.joined (h : Joins first second mid) (hfirst : first.VarFree)
    (hsecond : second.VarFree) (hid : first.trait.id = second.trait.id) :
    Joined first second (leftVars first) (rightVars first second) mid := by
  obtain ⟨firstRef, secondRef, hfirstRef, hsecondRef, hunify⟩ := h
  exact joined_of_unifyReferences hfirst hsecond hfirstRef hsecondRef hid hunify

/-- How the comparison of two impls comes to its answer. -/
inductive Compared (config : Config) (program : Program) (first second : Impl) : Bool → Prop
  | disjoint (h : ∀ {rs rs' ref}, first.Implements rs ref → ¬second.Implements rs' ref) :
      Compared config program first second false
  | refuted {r : Resolution} {mid next : Env} (hjoins : Joins first second mid)
      (hresolves : ResolvesBounds config program first (leftVars first) mid r next)
      (hnoImpl : r.noImpl ≠ []) : Compared config program first second false
  | resolved {r r' : Resolution} {mid next left : Env} (hjoins : Joins first second mid)
      (hresolves : ResolvesBounds config program first (leftVars first) mid r next)
      (hnoImpl : r.noImpl = [])
      (hresolves' : ResolvesBounds config program second (rightVars first second) next r' left) :
      Compared config program first second r'.noImpl.isEmpty

/-- The comparison of two impls, taken apart. -/
theorem compared_of_returns (hfirst : first.VarFree) (hsecond : second.VarFree) {b : Bool}
    (h : (overlap config program first second).Returns .empty b left) :
    Compared config program first second b := by
  rw [overlap, returns_bind] at h
  obtain ⟨⟨firstVars, firstRef⟩, _, hinstance, h⟩ := h
  obtain ⟨rfl, hfirstRef, rfl⟩ := (Solver.returns_instantiate Env.valid_empty).mp hinstance
  rw [returns_bind] at h
  obtain ⟨⟨secondVars, secondRef⟩, _, hinstance, h⟩ := h
  obtain ⟨rfl, hsecondRef, rfl⟩ :=
    (Solver.returns_instantiate (Env.valid_empty.grown _)).mp hinstance
  rw [returns_bind] at h
  obtain ⟨unified, mid, hunify, h⟩ := h
  cases unified with
  | false =>
      obtain ⟨rfl, -⟩ := returns_pure.mp h
      exact .disjoint (disjoint_of_unifyReferences hfirst hsecond hfirstRef hsecondRef hunify)
  | true =>
      have hjoins : Joins first second mid := ⟨firstRef, secondRef, hfirstRef, hsecondRef, hunify⟩
      obtain ⟨c, next, hbounds, h⟩ := returns_bind.mp h
      obtain ⟨r, hresolves, rfl⟩ := returns_boundsCouldHold.mp hbounds
      by_cases hnoImpl : r.noImpl = []
      · have hempty : r.noImpl.isEmpty = true := by rw [hnoImpl]; rfl
        rw [if_pos hempty] at h
        obtain ⟨r', hresolves', rfl⟩ := returns_boundsCouldHold.mp h
        exact .resolved hjoins hresolves hnoImpl hresolves'
      · have hempty : r.noImpl.isEmpty ≠ true := fun h => hnoImpl (List.isEmpty_iff.mp h)
        rw [if_neg hempty] at h
        obtain ⟨rfl, -⟩ := returns_pure.mp h
        exact .refuted hjoins hresolves hnoImpl

/-- Two impls that apply to one ground reference are found to overlap. -/
theorem Compared.eq_true_of_appliesTo {b : Bool} {ref : Reference}
    (h : Compared config program first second b) (hprogram : program.VarFree)
    (hfirst : first.VarFree) (hsecond : second.VarFree) (happlies : first.AppliesTo program ref)
    (happlies' : second.AppliesTo program ref) : b = true := by
  have hid : first.trait.id = second.trait.id := happlies.id_eq.symm.trans happlies'.id_eq
  obtain ⟨rs, instances, hrs, hinstances, hderivable⟩ := happlies
  obtain ⟨rs', instances', hrs', hinstances', hderivable'⟩ := happlies'
  -- the bounds of the first impl keep the solution at which both impls apply
  have hkept : ∀ {r mid next}, Joins first second mid →
      ResolvesBounds config program first (leftVars first) mid r next → r.noImpl = [] ∧
        ∃ τ : Assignment, τ.Solves next ∧ (rightVars first second).map τ.type = rs' := by
    intro r mid next hjoins hresolves
    have hjoined := hjoins.joined hfirst hsecond hid
    obtain ⟨σ, hσ, hrs, hrs'⟩ := hjoined.exists_solves hrs hrs'
    rw [← hrs] at hinstances
    obtain ⟨hnoImpl, τ, hagrees, hτ⟩ := hresolves.lossless hprogram hfirst hjoined.valid
      hjoined.usableFirst hσ hinstances hderivable
    refine ⟨hnoImpl, τ, hτ, ?_⟩
    rw [← hrs']
    exact List.map_congr_left fun t ht => hagrees.type_eq (hjoined.usableSecond t ht).1
  cases h with
  | disjoint hdisjoint => exact absurd hrs' (hdisjoint hrs)
  | refuted hjoins hresolves hnoImpl => exact absurd (hkept hjoins hresolves).1 hnoImpl
  | resolved hjoins hresolves hnoImpl hresolves' =>
      have hjoined := hjoins.joined hfirst hsecond hid
      have hprogress := hresolves.progress hprogram hfirst hjoined.valid hjoined.usableFirst
      obtain ⟨-, τ, hτ, hrs'⟩ := hkept hjoins hresolves
      rw [← hrs'] at hinstances'
      obtain ⟨hnoImpl', -⟩ := hresolves'.lossless hprogram hsecond hprogress.valid
        (hjoined.usableSecond.of_extends hprogress.extends_env) hτ hinstances' hderivable'
      rw [hnoImpl']
      rfl

/-- Two impls are found to overlap when they are compared in this order. -/
def Overlaps (config : Config) (program : Program) (first second : Impl) : Prop :=
  ∃ own, (overlap config program first second).Returns .empty true own

section Check

variable {cs : List Conflict}

theorem returns_conflicting {p : Impl × Impl} {b : Bool} :
    (conflicting config program p).Returns env b left ↔
      (∃ own, (overlap config program p.1 p.2).Returns .empty b own) ∧ left = env := by
  rw [conflicting, returns_bind]
  simp only [returns_isolated, returns_ite, returns_report_bind, returns_pure]
  constructor
  · rintro ⟨clash, mid, ⟨hoverlap, rfl⟩, ⟨rfl, rfl, rfl⟩ | ⟨hclash, rfl, rfl⟩⟩
    · exact ⟨hoverlap, rfl⟩
    · exact ⟨Bool.eq_false_iff.mpr hclash ▸ hoverlap, rfl⟩
  · rintro ⟨hoverlap, rfl⟩
    refine ⟨b, left, ⟨hoverlap, rfl⟩, ?_⟩
    cases b with
    | true => exact Or.inl ⟨rfl, rfl, rfl⟩
    | false => exact Or.inr ⟨Bool.false_ne_true, rfl, rfl⟩

/-- All pairs of impls of one trait were compared, and the conflicts are those that overlap. -/
theorem returns_check (h : (check config program).Returns env cs left) :
    (∀ {a b : Impl}, [a, b].Sublist program.impls → a.trait.id = b.trait.id →
      ∃ clash own, (overlap config program a b).Returns .empty clash own) ∧
    ∀ {c : Conflict}, c ∈ cs ↔ ∃ a b : Impl, [a, b].Sublist program.impls ∧
      a.trait.id = b.trait.id ∧ Overlaps config program a b ∧ c = ⟨a.id, b.id⟩ := by
  rw [check, returns_bind] at h
  obtain ⟨overlapping, mid, hselect, hpure⟩ := h
  obtain ⟨rfl, -⟩ := returns_pure.mp hpure
  obtain ⟨⟨htests, rfl⟩, -⟩ :=
    (returns_select fun p _ b mid h => (returns_conflicting.mp h).2).mp hselect
  have hcomparable : ∀ {a b : Impl}, (a, b) ∈ (pairs program.impls).filter (fun p =>
      p.1.trait.id == p.2.trait.id) ↔ [a, b].Sublist program.impls ∧ a.trait.id = b.trait.id := by
    intro a b
    rw [List.mem_filter, mem_pairs]
    simp
  constructor
  · intro a b hab hid
    obtain ⟨clash, hclash⟩ := htests (a, b) (hcomparable.mpr ⟨hab, hid⟩)
    obtain ⟨⟨own, hown⟩, -⟩ := returns_conflicting.mp hclash
    exact ⟨clash, own, hown⟩
  · intro c
    simp only [List.mem_map, List.mem_filter (p := fun p => verdict _ _), Prod.exists, hcomparable,
      verdict_eq_true_iff, returns_conflicting, exists_and_left, exists_eq, and_true]
    constructor
    · rintro ⟨a, b, ⟨⟨hab, hid⟩, hoverlap⟩, rfl⟩
      exact ⟨a, b, hab, hid, hoverlap, rfl⟩
    · rintro ⟨a, b, hab, hid, hoverlap, rfl⟩
      exact ⟨a, b, ⟨⟨hab, hid⟩, hoverlap⟩, rfl⟩

/-- The coherence check misses no overlap. Two impls that apply to one ground reference are reported
in declaration order, so if nothing is reported then at most one impl applies to any reference. -/
theorem check_misses_no_overlap (hprogram : program.VarFree)
    (h : (check config program).Returns env cs left) :
    (∀ (i j : Nat) (a b : Impl) (ref : Reference), i < j → program.impls[i]? = some a →
      program.impls[j]? = some b → a.AppliesTo program ref → b.AppliesTo program ref →
      ⟨a.id, b.id⟩ ∈ cs) ∧
    (cs = [] → ∀ (i j : Nat) (a b : Impl) (ref : Reference), program.impls[i]? = some a →
      program.impls[j]? = some b → a.AppliesTo program ref → b.AppliesTo program ref → i = j) := by
  obtain ⟨hcompared, hmem⟩ := returns_check h
  have hreported : ∀ (i j : Nat) (a b : Impl) (ref : Reference), i < j →
      program.impls[i]? = some a → program.impls[j]? = some b → a.AppliesTo program ref →
      b.AppliesTo program ref → ⟨a.id, b.id⟩ ∈ cs := by
    intro i j a b ref hij ha hb happlies happlies'
    have hid : a.trait.id = b.trait.id := happlies.id_eq.symm.trans happlies'.id_eq
    have hpair := mem_pairs.mp (mem_pairs_of_lt hij ha hb)
    have hfirst := hprogram a (List.mem_of_getElem? ha)
    have hsecond := hprogram b (List.mem_of_getElem? hb)
    obtain ⟨clash, own, hoverlap⟩ := hcompared hpair hid
    have hcompared := compared_of_returns hfirst hsecond hoverlap
    obtain rfl := hcompared.eq_true_of_appliesTo hprogram hfirst hsecond happlies happlies'
    exact hmem.mpr ⟨a, b, hpair, hid, ⟨own, hoverlap⟩, rfl⟩
  refine ⟨hreported, ?_⟩
  rintro rfl i j a b ref ha hb happlies happlies'
  rcases Nat.lt_trichotomy i j with hij | hij | hij
  · exact absurd (hreported i j a b ref hij ha hb happlies happlies') List.not_mem_nil
  · exact hij
  · exact absurd (hreported j i b a ref hij hb ha happlies' happlies) List.not_mem_nil

/-- Whatever is shown is printed. -/
def printAny : Impl :=
  ⟨"Any", [[⟨"Show", .param 0, []⟩]], ⟨"Print", .param 0, []⟩⟩

/-- A list is shown when its elements are. -/
def showList : Impl :=
  ⟨"ShowList", [[⟨"Show", .param 0, []⟩]], ⟨"Show", .con "List" [.param 0], []⟩⟩

/-- A program in which lists of what is shown are printed in two ways. -/
def printingTwice : Program :=
  ⟨[], [printAny, showInt, printList, showList]⟩

theorem check_misses_no_overlap_printingTwice :
    ∃ cs, (check .default printingTwice).Returns .empty cs .empty ∧ ⟨"Any", "List"⟩ ∈ cs := by
  have hshowInt : printingTwice.Derivable ⟨"Show", .con "Int" [], []⟩ := by
    have himplements : showInt.Implements [] ⟨"Show", .con "Int" [], []⟩ := ⟨rfl, by decide, rfl⟩
    exact .intro (by decide) himplements rfl (by simp)
  have hshowList : printingTwice.Derivable ⟨"Show", .con "List" [.con "Int" []], []⟩ := by
    have himplements : showList.Implements [.con "Int" []]
      ⟨"Show", .con "List" [.con "Int" []], []⟩ := ⟨rfl, by decide, rfl⟩
    exact .intro (by decide) himplements rfl (List.forall_mem_singleton.mpr hshowInt)
  have hany : printAny.AppliesTo printingTwice ⟨"Print", .con "List" [.con "Int" []], []⟩ :=
    ⟨[.con "List" [.con "Int" []]], _, ⟨rfl, by decide, rfl⟩, rfl,
      List.forall_mem_singleton.mpr hshowList⟩
  have hlist : printList.AppliesTo printingTwice ⟨"Print", .con "List" [.con "Int" []], []⟩ :=
    ⟨[.con "Int" []], _, ⟨rfl, by decide, rfl⟩, rfl, List.forall_mem_singleton.mpr hshowInt⟩
  have hrun : ∃ cs, (check .default printingTwice).Returns .empty cs .empty :=
    ⟨[⟨"Any", "List"⟩], by decide +kernel⟩
  obtain ⟨cs, hrun⟩ := hrun
  have hreported := (check_misses_no_overlap (by decide) hrun).1
  exact ⟨cs, hrun, hreported 0 2 printAny printList _ (by decide) rfl rfl hany hlist⟩

end Check

end Coherence

end TraitResolution
