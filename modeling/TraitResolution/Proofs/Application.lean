import TraitResolution.Proofs.Derivation

/-!
# Applying an impl to an obligation

To apply an impl, its parameters are replaced by new variables and its reference is unified with
that of the obligation. The solutions that remain are those under which the impl implements what
the obligation demands, and the impl is refused only if there are none.
-/

namespace TraitResolution

namespace Solver

open Operation Engine

variable {impl : Impl} {o : Obligation} {env left : Env} {vars : List Ty} {σ : Assignment} {n : Nat}

/-- `left` is `env` after an impl was applied to an obligation: the impl's parameters stand for new
variables, and its reference was made equal to that of the obligation. -/
structure Applied (env : Env) (impl : Impl) (o : Obligation) (vars : List Ty) (left : Env) :
    Prop where
  extends_env : left.Extends env
  valid : left.Valid
  count_eq : left.count = env.count + impl.params.length
  vars_eq : vars = env.nextVars impl.params.length
  head : ∃ ref, impl.trait.subst vars = .ok ref ∧ ∀ f, left.SolvedBy f ↔
    env.SolvedBy f ∧ ref.replaceVars f = o.trait.replaceVars f

theorem ground_nextVars (σ : Assignment) : ∀ t ∈ env.nextVars n, (σ.type t).Ground := by
  intro t ht
  obtain ⟨i, -, rfl⟩ := List.mem_map.mp ht
  exact σ.ground_type (by simp)

/-- With new variables for its parameters, an impl stands for its instances. -/
theorem instance_type (himpl : impl.VarFree) {ref : Reference}
    (h : impl.trait.subst (env.nextVars n) = .ok ref) (σ : Assignment) :
    impl.trait.subst ((env.nextVars n).map σ.type) = .ok (σ.ref ref) :=
  Reference.subst_map_replaceVars (fun t ht => (ground_nextVars σ t ht).notParam) himpl.1 h

theorem covers_subst {r ref : Reference} (hr : r.VarFree) (hvars : ∀ t ∈ vars, env.Covers t)
    (h : r.subst vars = .ok ref) : env.CoversRef ref := by
  intro t ht v hv
  rcases Reference.mem_vars_subst h ⟨t, ht, hv⟩ with ⟨s, hs, hv⟩ | ⟨s, hs, hv⟩
  · simp [hr s hs] at hv
  · exact hvars s hs v hv

theorem covers_instance (himpl : impl.VarFree) {ref : Reference}
    (h : impl.trait.subst (env.nextVars n) = .ok ref) : (env.grown n).CoversRef ref :=
  covers_subst himpl.1 (fun _ => Env.covers_nextVars) h

theorem returns_instantiate (henv : env.Valid) {ref : Reference} :
    (instantiate impl).Returns env (vars, ref) left ↔ vars = env.nextVars impl.params.length ∧
      impl.trait.subst vars = .ok ref ∧ left = env.grown impl.params.length := by
  simp only [instantiate, returns_bind, returns_pure, returns_ofSubst, Prod.mk.injEq]
  constructor
  · rintro ⟨vars', mid, hvars, ref', _, ⟨hsubst, rfl⟩, ⟨rfl, rfl⟩, rfl⟩
    obtain ⟨rfl, rfl⟩ := (Env.returns_freshTypes henv).mp hvars
    exact ⟨rfl, hsubst, rfl⟩
  · rintro ⟨rfl, hsubst, rfl⟩
    exact ⟨_, _, (Env.returns_freshTypes henv).mpr ⟨rfl, rfl⟩, ref, _, ⟨hsubst, rfl⟩,
      ⟨rfl, rfl⟩, rfl⟩

/-- Applying an impl creates variables for its parameters and then unifies two references. -/
theorem returns_apply (henv : env.Valid) {vars? : Option (List Ty)}
    (h : (apply impl o).Returns env vars? left) :
    ∃ ref, impl.trait.subst (env.nextVars impl.params.length) = .ok ref ∧
      (unifyReferences ref o.trait).Returns (env.grown impl.params.length) vars?.isSome left ∧
      ∀ vars, vars? = some vars → vars = env.nextVars impl.params.length := by
  simp only [apply, returns_bind, Prod.exists, returns_instantiate henv] at h
  obtain ⟨vars, ref, mid, ⟨rfl, hsubst, rfl⟩, b, last, hunify, h⟩ := h
  refine ⟨ref, hsubst, ?_⟩
  rcases returns_ite.mp h with ⟨hb, h⟩ | ⟨hb, h⟩
  · obtain ⟨rfl, rfl⟩ := returns_pure.mp h
    obtain rfl : b = true := hb
    exact ⟨hunify, fun vars hvars => (Option.some.inj hvars).symm⟩
  · obtain ⟨rfl, rfl⟩ := returns_pure.mp h
    obtain rfl : b = false := Bool.eq_false_iff.mpr hb
    exact ⟨hunify, fun vars hvars => nomatch hvars⟩

theorem apply_of_unifyReferences (henv : env.Valid) {ref : Reference} {x : Bool}
    (hsubst : impl.trait.subst (env.nextVars impl.params.length) = .ok ref)
    (hunify : (unifyReferences ref o.trait).Returns (env.grown impl.params.length) x left) :
    (apply impl o).Returns env (if x then some (env.nextVars impl.params.length) else none)
      left := by
  simp only [apply, returns_bind, Prod.exists, returns_instantiate henv]
  refine ⟨_, ref, _, ⟨rfl, hsubst, rfl⟩, x, left, hunify, ?_⟩
  cases x with
  | true => exact returns_pure.mpr ⟨rfl, rfl⟩
  | false => exact returns_pure.mpr ⟨rfl, rfl⟩

theorem applied_of_returns (henv : env.Valid) (himpl : impl.VarFree)
    (hid : impl.trait.id = o.trait.id) (ho : env.CoversRef o.trait)
    (h : (apply impl o).Returns env (some vars) left) : Applied env impl o vars left := by
  obtain ⟨ref, hsubst, hunify, hvars⟩ := returns_apply henv h
  obtain rfl := hvars vars rfl
  have hgrown := env.extends_grown impl.params.length
  have href := covers_instance himpl hsubst
  have hdemand : (env.grown impl.params.length).CoversRef o.trait :=
    fun t ht => hgrown.covers (ho t ht)
  have hrefId : ref.id = o.trait.id := (Reference.subst_eq_ok.mp hsubst).1.trans hid
  obtain ⟨-, hunified⟩ := unifyReferences_unified (henv.grown _) href hdemand hunify
  have hsolved := fun f =>
    solvedBy_of_unifyReferences (f := f) (henv.grown _) href hdemand hrefId hunify
  exact ⟨hunified.extends_env.trans hgrown, hunified.valid, hunified.count_eq, rfl, ref, hsubst,
    hsolved⟩

/-- An impl is refused only if no solution lets it implement the obligation. -/
theorem not_implements_of_returns (henv : env.Valid) (himpl : impl.VarFree)
    (ho : env.CoversRef o.trait) (h : (apply impl o).Returns env none left)
    (hσ : σ.Solves env) (rs : List Ty) : ¬impl.Implements rs (σ.ref o.trait) := by
  intro hrs
  obtain ⟨ref, hsubst, hunify, -⟩ := returns_apply henv h
  have hgrown := env.extends_grown impl.params.length
  obtain ⟨τ, hagrees, hτ⟩ := σ.exists_extension env hrs.ground
  rw [hrs.length_eq] at hτ
  have hinstance := instance_type himpl hsubst τ
  rw [hτ, hrs.head] at hinstance
  refine replaceVars_ne_of_unifyReferences (henv.grown _) (covers_instance himpl hsubst)
    (fun t ht => hgrown.covers (ho t ht)) (hagrees.solves henv hσ) hunify ?_
  calc
    τ.ref ref = σ.ref o.trait := (Except.ok.inj hinstance).symm
    _ = τ.ref o.trait := (hagrees.ref_eq ho).symm

namespace Applied

theorem covers_vars (h : Applied env impl o vars left) : ∀ t ∈ vars, left.Covers t := by
  intro t ht v hv
  obtain ⟨hlt, hgen⟩ := Env.covers_nextVars (h.vars_eq ▸ ht) v hv
  exact ⟨h.count_eq ▸ hlt, hgen⟩

theorem ground_vars (h : Applied env impl o vars left) (σ : Assignment) :
    ∀ t ∈ vars, (σ.type t).Ground :=
  fun t ht => ground_nextVars σ t (h.vars_eq ▸ ht)

/-- The solutions left are those under which the impl implements the obligation. -/
theorem solves_iff (h : Applied env impl o vars left) (himpl : impl.VarFree) :
    σ.Solves left ↔ σ.Solves env ∧ impl.Implements (vars.map σ.type) (σ.ref o.trait) := by
  obtain ⟨ref, hsubst, hsolved⟩ := h.head
  obtain rfl := h.vars_eq
  have hinstance := instance_type himpl hsubst σ
  refine (hsolved σ.value).trans (and_congr_right fun _ => ?_)
  constructor
  · intro heq
    refine ⟨by simp [Env.nextVars], List.forall_mem_map.mpr (ground_nextVars σ), ?_⟩
    rw [hinstance]
    exact congrArg _ heq
  · intro himplements
    exact Except.ok.inj (hinstance.symm.trans himplements.head)

/-- The bounds of an applied impl stand for its bounds at the types its parameters stand for. -/
theorem boundsWith_type (h : Applied env impl o vars left) (himpl : impl.VarFree)
    {bounds : List Reference} (hbounds : impl.boundsWith vars = .ok bounds) (σ : Assignment) :
    impl.boundsWith (vars.map σ.type) = .ok (bounds.map σ.ref) :=
  Impl.boundsWith_map himpl (fun t ht => (h.ground_vars σ t ht).notParam) hbounds

theorem covers_bounds (h : Applied env impl o vars left) (himpl : impl.VarFree)
    {bounds : List Reference} (hbounds : impl.boundsWith vars = .ok bounds) :
    ∀ b ∈ bounds, left.CoversRef b := by
  intro b hb
  obtain ⟨source, hsource, hsubst⟩ := exists_of_mem_mapM hbounds hb
  exact covers_subst (himpl.2 source hsource) h.covers_vars hsubst

/-- An assignment under which the impl implements the obligation can be extended to the new
variables. -/
theorem exists_solves (h : Applied env impl o vars left) (himpl : impl.VarFree) (henv : env.Valid)
    (ho : env.CoversRef o.trait) (hσ : σ.Solves env) {rs : List Ty}
    (hrs : impl.Implements rs (σ.ref o.trait)) :
    ∃ τ : Assignment, σ.AgreesOn τ env ∧ τ.Solves left ∧ vars.map τ.type = rs := by
  obtain ⟨τ, hagrees, hτ⟩ := σ.exists_extension env hrs.ground
  rw [hrs.length_eq, ← h.vars_eq] at hτ
  refine ⟨τ, hagrees, (h.solves_iff himpl).mpr ⟨hagrees.solves henv hσ, ?_⟩, hτ⟩
  rw [hτ, hagrees.ref_eq ho]
  exact hrs

end Applied

end Solver

end TraitResolution
