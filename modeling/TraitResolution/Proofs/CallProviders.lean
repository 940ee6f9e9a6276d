import TraitResolution.Proofs.CallSearch
import TraitResolution.Proofs.CallTyping
import TraitResolution.Proofs.Completeness

/-!
# A call passes over no provider

A method call goes on to dereference a place only if every trait in scope that declares the method
was ruled out there. A trait is ruled out by a resolution that finds something without an impl, and
a resolution loses no solution, so no ground instance of the place's type implements the trait. This
holds at every point on the way, the last one included if the call gives up there.
-/

namespace TraitResolution

namespace Solver

open Operation Engine

variable {program : Program} {impl : Impl} {o : Obligation} {env left : Env} {maxDepth : Int}
  {n : Nat} {r : Resolution}

/-- An impl is only ever tried on obligations with as many parameters. -/
theorem length_params_of_apply {vars? : Option (List Ty)}
    (h : (apply impl o).Returns env vars? left) :
    impl.trait.params.length = o.trait.params.length := by
  simp only [apply, instantiate, returns_bind, returns_pure, returns_ofSubst, Prod.exists] at h
  obtain ⟨_, ref, _, ⟨_, _, -, _, _, ⟨hsubst, -⟩, ⟨-, rfl⟩, -⟩, _, _, hunify, -⟩ := h
  calc
    impl.trait.params.length = ref.params.length :=
      (length_of_mapM (Reference.subst_eq_ok.mp hsubst).2.2).symm
    _ = o.trait.params.length := (returns_unifyReferences.mp hunify).1

/-- A resolution of one obligation that finds something without an impl has tried all impls of the
trait. -/
theorem length_params_of_noImpl (h : (resolveWithin maxDepth program n [o]).Returns env r left)
    (hr : r.noImpl ≠ []) (himpl : impl ∈ program.impls) (hid : impl.trait.id = o.trait.id) :
    impl.trait.params.length = o.trait.params.length := by
  cases n with
  | zero =>
      obtain ⟨-, rfl, -⟩ := returns_resolveWithin_zero.mp h
      exact absurd rfl hr
  | succ n =>
      have hs := grows_resolveWithin maxDepth program n
      obtain ⟨first, nested, mid, rest, hall, hrest, rfl⟩ := returns_resolveWithin_succ.mp h
      obtain ⟨one, arising, last, rs, nothing, hone, hnil, heq⟩ := returns_settleAll_cons.mp hall
      obtain ⟨hempty, -⟩ := returns_settleAll_nil.mp hnil
      cases (returns_settle hs).mp hone with
      | overflow _ =>
          cases hempty
          cases heq
          have hrest : rest = .empty := by
            cases n <;> exact (returns_pure.mp hrest).1
          rw [hrest] at hr
          exact absurd rfl hr
      | decided _ hcandidates _ =>
          obtain ⟨⟨htests, -, -⟩, -⟩ := (returns_candidates hs).mp hcandidates
          obtain ⟨b, hb⟩ := htests impl (Program.mem_implsOf.mpr ⟨himpl, hid⟩)
          obtain ⟨⟨vars?, gone, happly, -⟩, -⟩ := returns_unifies.mp hb
          exact length_params_of_apply happly

end Solver

namespace MethodCall

open Operation Engine Relation

/-- A trait in scope that declares a method is implemented for an instance of a type, under some
solution of the environment. -/
def Provides (program : Program) (traits : List Trait) (name : Text) (env : Env) (t : Ty) : Prop :=
  ∃ trait ∈ traits, (trait.method? name).isSome = true ∧
    ∃ (σ : Assignment) (ref : Reference), σ.Solves env ∧ ref.id = trait.id ∧
      ref.self = σ.type t ∧ (∀ u ∈ ref.types, u.Ground) ∧ program.Derivable ref

/-- A point whose environment is valid and has the variables of the place's type. -/
structure Point.Valid (p : Point) : Prop where
  env : p.env.Valid
  covers : p.env.Covers p.place.type

namespace Lookup

variable {cx : Lookup} {p q m : Point} {env left : Env} {d : Declaration}

/-- Where a trait is ruled out, no instance of the place's type implements it. -/
theorem not_derivable_of_couldApply (hprogram : cx.program.VarFree) (hp : p.Valid)
    (hfalse : (cx.couldApply p.place d).Returns p.env false left) {σ : Assignment}
    (hσ : σ.Solves p.env) {ref : Reference} (hid : ref.id = d.trait.id)
    (hself : ref.self = σ.type p.place.type) (hground : ∀ t ∈ ref.params, t.Ground) :
    ¬cx.program.Derivable ref := by
  intro hderivable
  obtain ⟨⟨⟨demand, r⟩, gone, hresolve, hempty⟩, -⟩ := returns_couldApply.mp hfalse
  obtain ⟨params, mid, hparams, rfl, hresolve⟩ := returns_resolveTrait.mp hresolve
  obtain ⟨rfl, rfl⟩ := (Env.returns_freshTypes hp.env).mp hparams
  have hnoImpl : r.noImpl ≠ [] := by
    intro hnil
    simp [hnil] at hempty
  -- the resolution has tried the impl that ends the derivation, so the numbers of parameters agree
  have hlen : ref.params.length = d.trait.arity := by
    obtain ⟨impl, himpl, rs, bounds, hrs, -, -⟩ := Program.derivable_iff.mp hderivable
    calc
      ref.params.length = impl.trait.params.length :=
        length_of_mapM (Reference.subst_eq_ok.mp hrs.head).2.2
      _ = (p.env.nextVars d.trait.arity).length :=
        Solver.length_params_of_noImpl hresolve hnoImpl himpl (hrs.id_eq.symm.trans hid)
      _ = d.trait.arity := Env.length_nextVars _ _
  obtain ⟨τ, hagrees, hτ⟩ := σ.exists_extension p.env hground
  rw [hlen] at hτ
  have hdemand : τ.ref ⟨d.trait.id, p.place.type, p.env.nextVars d.trait.arity⟩ = ref := by
    obtain ⟨id, self, params⟩ := ref
    simp only [Assignment.ref, Reference.replaceVars, Reference.mk.injEq]
    exact ⟨hid.symm, (hagrees.type_eq hp.covers).trans hself.symm, hτ⟩
  have hcovers : (p.env.grown d.trait.arity).CoversAll
      [.topLevel "method" ⟨d.trait.id, p.place.type, p.env.nextVars d.trait.arity⟩] := by
    refine List.forall_mem_singleton.mpr (List.forall_mem_cons.mpr ⟨?_, ?_⟩)
    · exact (p.env.extends_grown _).covers hp.covers
    · exact fun t ht => Env.covers_nextVars ht
  refine hnoImpl (Solver.resolveWithin_lossless hprogram (hp.env.grown _) hcovers hresolve τ
    (hagrees.solves hp.env hσ) (List.forall_mem_singleton.mpr ?_)).1
  exact hdemand ▸ hderivable

theorem Goes.passed (h : cx.Goes p q) : cx.Offers p [] := by
  cases h with
  | deref hpassed _ _ => exact hpassed

/-- Dereferencing keeps points valid. -/
theorem Goes.valid (h : cx.Goes p q) (hprogram : cx.program.VarFree) (hp : p.Valid) : q.Valid := by
  cases h with
  | @deref env left place n r _ hderef _ =>
      have henv : env.Valid := hp.env
      have hvar : env.created.Covers (.var env.nextVar) := by
        intro v hv
        obtain rfl : v = env.nextVar := by simpa using hv
        rw [henv.nextVar_eq]
        exact ⟨Nat.lt_succ_self _, rfl⟩
      have hcovers : env.created.CoversAll
          [.topLevel "deref" (Place.derefRef .shared place (.var env.nextVar))] := by
        refine List.forall_mem_singleton.mpr (List.forall_mem_cons.mpr ⟨?_, ?_⟩)
        · exact env.extends_created.covers hp.covers
        · exact List.forall_mem_singleton.mpr hvar
      have hprogress := Solver.resolveWithin_progress hprogram henv.created hcovers hderef
      exact ⟨hprogress.valid, hprogress.extends_env.covers hvar⟩

theorem way_valid (h : ReflTransGen cx.Goes p q) (hprogram : cx.program.VarFree) (hp : p.Valid) :
    q.Valid := by
  induction h with
  | refl => exact hp
  | tail _ hgoes ih => exact hgoes.valid hprogram ih

/-- Every place that a place was reached from is one on the way to it. -/
theorem exists_on_way (h : ReflTransGen cx.Goes p q) (hp : p.place.chain = [p.place]) :
    ∀ place ∈ q.place.chain, ∃ m, ReflTransGen cx.Goes p m ∧ ReflTransGen cx.Goes m q ∧
      m.place = place := by
  induction h with
  | refl =>
      intro place hplace
      rw [hp] at hplace
      exact ⟨p, .refl, .refl, (List.mem_singleton.mp hplace).symm⟩
  | @tail mid q hway hgoes ih =>
      intro place hplace
      have hchain : place = q.place ∨ place ∈ mid.place.chain := by
        cases hgoes with
        | deref _ _ _ => exact List.mem_cons.mp hplace
      rcases hchain with rfl | hplace
      · exact ⟨q, hway.tail hgoes, .refl, rfl⟩
      · obtain ⟨m, hm, hmid, rfl⟩ := ih place hplace
        exact ⟨m, hm, hmid.tail hgoes, rfl⟩

theorem way_passed (h : ReflTransGen cx.Goes p q) (hq : cx.Offers q []) : cx.Offers p [] := by
  rcases h.cases_head with rfl | ⟨next, hgoes, -⟩
  · exact hq
  · exact hgoes.passed

/-- A search that cannot dereference ends at a point where every trait is ruled out. -/
theorem Ends.passed {u : Ty} (h : cx.Ends p (.cannotDeref u) left) :
    p.place.type = u ∧ cx.Offers p [] := by
  cases h with
  | exhausted hpassed _ => exact ⟨rfl, hpassed⟩
  | stuck hpassed _ _ _ => exact ⟨rfl, hpassed⟩
  | called _ hcall =>
      obtain ⟨_, _, _, _, _, -, -, hreconciled⟩ := returns_call hcall
      obtain ⟨-, hresult | ⟨_, _, hresult⟩⟩ := hreconciled.unmatched (by simp)
      · cases hresult
      · cases hresult

end Lookup

/-- Where a call goes on, no trait in scope provides the method. -/
theorem not_provides_of_passed {config : Config} {program : Program} {traits : List Trait}
    {name : Text} {p : Point} (hprogram : program.VarFree) (hp : p.Valid)
    (hpassed : (⟨config, program, declaring traits name, name⟩ : Lookup).Offers p []) :
    ¬Provides program traits name p.env p.place.type := by
  rintro ⟨t, ht, hmethod, σ, ref, hσ, hid, hself, hground, hderivable⟩
  obtain ⟨d, hd, hdt⟩ := exists_mem_declaring ht hmethod
  have hfalse := Lookup.returns_select_nil_iff.mp hpassed d hd
  exact Lookup.not_derivable_of_couldApply hprogram hp hfalse hσ (hid.trans hdt.symm) hself
    (fun u hu => hground u (List.mem_cons_of_mem _ hu)) hderivable

/-- A call steps over no type that provides the method. From every point on its way it has the same
outcome, and a place is dereferenced only if no trait in scope that declares the method is
implemented for an instance of its type, under any solution of the bindings made by then. If the
call gives up at a type, this holds there too, and for each type that it was reached from. -/
theorem resolve_passes_no_provider {config : Config} {program : Program} {receiver : Ty}
    {traits : List Trait} {name : Text} {env left : Env} {result : MethodResult}
    (hprogram : program.VarFree) (henv : env.Reachable) (hreceiver : env.Covers receiver)
    (h : (resolve config program receiver traits name).Returns env result left) :
    let cx : Lookup := ⟨config, program, declaring traits name, name⟩
    let start : Point := ⟨env, .receiver receiver, config.maxAutoderef.toNat⟩
    (∀ p, ReflTransGen cx.Goes start p → (cx.search p.limit p.place).Returns p.env result left) ∧
    (∀ p q, ReflTransGen cx.Goes start p → cx.Goes p q →
      ¬Provides program traits name p.env p.place.type) ∧
    ∀ u, result = .cannotDeref u → ∃ p, ReflTransGen cx.Goes start p ∧ p.place.type = u ∧
      ∀ place ∈ p.place.chain, ∃ m, ReflTransGen cx.Goes start m ∧ ReflTransGen cx.Goes m p ∧
        m.place = place ∧ ¬Provides program traits name m.env place.type := by
  intro cx start
  have hstart : start.Valid := ⟨henv.valid, hreceiver⟩
  have hvalid : ∀ p, ReflTransGen cx.Goes start p → p.Valid :=
    fun p hway => Lookup.way_valid hway hprogram hstart
  refine ⟨?_, ?_, ?_⟩
  · intro p hway
    exact (Lookup.search_iff_of_way hway).mp h
  · intro p q hway hgoes
    exact not_provides_of_passed hprogram (hvalid p hway) hgoes.passed
  · rintro u rfl
    obtain ⟨p, hway, hends⟩ := Lookup.exists_way_of_search (p := start) h
    obtain ⟨hu, hpassed⟩ := hends.passed
    refine ⟨p, hway, hu, fun place hplace => ?_⟩
    obtain ⟨m, hm, hmp, rfl⟩ := Lookup.exists_on_way hway rfl place hplace
    refine ⟨m, hm, hmp, rfl, ?_⟩
    exact not_provides_of_passed hprogram (hvalid m hm) (Lookup.way_passed hmp hpassed)

/-- Vectors can be pushed onto, and a number in a box cannot: neither the box nor the number
provides that. -/
theorem resolve_passes_no_provider_boxing :
    Provides boxing [pushing] "push" .empty (.con "Vec" []) ∧
    ∃ left, (resolve .default boxing (.con "Box" [.con "Int" []]) [pushing] "push").Returns .empty
        (.cannotDeref (.var ⟨0, 0⟩)) left ∧
      ∃ p : Point, p.place.type = .var ⟨0, 0⟩ ∧ ∀ place ∈ p.place.chain, ∃ m : Point,
        m.place = place ∧ ¬Provides boxing [pushing] "push" m.env place.type := by
  constructor
  · have hpush : (⟨"PushVec", [], ⟨"Push", .con "Vec" [], []⟩⟩ : Impl).Implements []
        ⟨"Push", .con "Vec" [], []⟩ := ⟨rfl, by simp, rfl⟩
    have hvec : boxing.Derivable ⟨"Push", .con "Vec" [], []⟩ :=
      .intro (by decide) hpush rfl (by simp)
    refine ⟨pushing, by simp, by decide, ⟨fun _ => .con "Vec" [], fun _ => by decide⟩, _, ?_, rfl,
      rfl, by decide, hvec⟩
    exact fun _ hb => absurd hb List.not_mem_nil
  · have hrun : ∃ left, (resolve .default boxing (.con "Box" [.con "Int" []]) [pushing]
        "push").Returns .empty (.cannotDeref (.var ⟨0, 0⟩)) left := ⟨_, rfl, rfl⟩
    obtain ⟨left, hrun⟩ := hrun
    obtain ⟨-, -, hstuck⟩ :=
      resolve_passes_no_provider (by decide) ⟨[], .empty⟩ (by decide) hrun
    obtain ⟨p, -, htype, hchain⟩ := hstuck _ rfl
    refine ⟨left, hrun, p, htype, fun place hplace => ?_⟩
    obtain ⟨m, -, -, hm, hnot⟩ := hchain place hplace
    exact ⟨m, hm, hnot⟩

end MethodCall

end TraitResolution
