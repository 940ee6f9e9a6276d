import TraitResolution.Proofs.Reachability

/-!
# Ground references and their derivations

What obligations mean, said without the solver. A ground reference is derivable when an impl of the
program implements it for some ground types, and every bound of the impl is derivable for the same
types. An assignment gives a ground type to every variable, and turns an obligation into such a
reference.
-/

namespace TraitResolution

/-- A ground type for every variable. -/
structure Assignment where
  value : Var → Ty
  ground : ∀ v, (value v).Ground

namespace Assignment

variable {σ τ : Assignment} {env later : Env} {t : Ty}

/-- What a type stands for. -/
def type (σ : Assignment) (t : Ty) : Ty :=
  t.replaceVars σ.value

/-- What a reference stands for. -/
def ref (σ : Assignment) (r : Reference) : Reference :=
  r.replaceVars σ.value

/-- An assignment that satisfies every binding of an environment. -/
def Solves (σ : Assignment) (env : Env) : Prop :=
  env.SolvedBy σ.value

theorem Solves.of_extends (h : σ.Solves later) (hextends : later.Extends env) : σ.Solves env :=
  Env.SolvedBy.of_extends h hextends

/-- Two assignments that do not differ on the variables of an environment. -/
def AgreesOn (σ τ : Assignment) (env : Env) : Prop :=
  ∀ v, env.Live v → τ.value v = σ.value v

theorem agreesOn_refl (σ : Assignment) (env : Env) : σ.AgreesOn σ env :=
  fun _ _ => rfl

theorem AgreesOn.trans {ρ : Assignment} (h : σ.AgreesOn τ env) (h' : τ.AgreesOn ρ later)
    (hextends : later.Extends env) : σ.AgreesOn ρ env :=
  fun v hv => (h' v (hextends.live hv)).trans (h v hv)

theorem AgreesOn.type_eq (h : σ.AgreesOn τ env) (ht : env.Covers t) : τ.type t = σ.type t :=
  Ty.replaceVars_congr fun v hv => h v (ht v hv)

theorem AgreesOn.ref_eq (h : σ.AgreesOn τ env) {r : Reference} (hr : env.CoversRef r) :
    τ.ref r = σ.ref r := by
  refine Reference.replaceVars_eq_iff.mpr ⟨rfl, ?_⟩
  exact List.map_congr_left fun t ht => h.type_eq (hr t ht)

theorem AgreesOn.solves (h : σ.AgreesOn τ env) (henv : env.Valid) (hσ : σ.Solves env) :
    τ.Solves env := by
  intro b hb
  obtain ⟨hlive, hcovers⟩ := henv.live b hb
  rw [h b.var hlive, hσ b hb]
  exact (h.type_eq hcovers).symm

theorem ground_type (σ : Assignment) (ht : t.hasParams = false) : (σ.type t).Ground :=
  Ty.ground_replaceVars σ.ground ht

/-- The solution in which the unbound variables stand for what `σ` gives them. -/
def completing (σ : Assignment) (henv : env.Valid) : Assignment where
  value v := σ.type (env.answer v)
  ground v := σ.ground_type (henv.hasParams_answer v)

theorem solves_completing (σ : Assignment) (henv : env.Valid) : (σ.completing henv).Solves env := by
  intro b hb
  calc
    σ.type (env.answer b.var) = σ.type (b.value.replaceVars env.answer) := by
      rw [henv.solvedBy_answer b hb]
    _ = (σ.completing henv).type b.value := Ty.replaceVars_replaceVars _ _ _

/-- The ground instances of a resolved reference are what solutions make of the reference. -/
theorem ref_resolveRef (σ : Assignment) (henv : env.Valid) (r : Reference) :
    σ.ref (env.resolveRef r) = (σ.completing henv).ref r := by
  rw [Env.resolveRef_eq_replaceVars]
  exact Reference.replaceVars_replaceVars _ _ r

end Assignment

theorem Env.Valid.exists_solves {env : Env} (h : env.Valid) : ∃ σ : Assignment, σ.Solves env := by
  let base : Assignment := ⟨fun _ => .con "" [], fun _ => by decide⟩
  exact ⟨base.completing h, base.solves_completing h⟩

namespace Impl

/-- The types that an impl mentions. -/
def types (impl : Impl) : List Ty :=
  impl.trait.types ++ impl.params.flatten.flatMap Reference.types

theorem mem_types {impl : Impl} {t : Ty} :
    t ∈ impl.types ↔ ∃ r ∈ impl.trait :: impl.params.flatten, t ∈ r.types := by
  rw [types, ← List.flatMap_cons, List.mem_flatMap]

/-- An impl without inference variables. -/
def VarFree (impl : Impl) : Prop :=
  impl.trait.VarFree ∧ ∀ b ∈ impl.params.flatten, b.VarFree

instance (impl : Impl) : Decidable impl.VarFree :=
  inferInstanceAs (Decidable (_ ∧ ∀ b ∈ impl.params.flatten, b.VarFree))

theorem VarFree.vars_eq {impl : Impl} (h : impl.VarFree) {t : Ty} (ht : t ∈ impl.types) :
    t.vars = [] := by
  obtain ⟨r, hr, ht⟩ := mem_types.mp ht
  exact List.forall_mem_cons.mpr h r hr t ht

/-- With the ground types `rs` for its parameters, the impl is one of the ground reference `ref`. -/
structure Implements (impl : Impl) (rs : List Ty) (ref : Reference) : Prop where
  length_eq : rs.length = impl.params.length
  ground : ∀ r ∈ rs, r.Ground
  head : impl.trait.subst rs = .ok ref

theorem Implements.id_eq {impl : Impl} {rs : List Ty} {ref : Reference}
    (h : impl.Implements rs ref) : ref.id = impl.trait.id :=
  (Reference.subst_eq_ok.mp h.head).1

theorem Implements.unique {impl : Impl} {rs : List Ty} {ref ref' : Reference}
    (h : impl.Implements rs ref) (h' : impl.Implements rs ref') : ref = ref' := by
  have hboth : Except.ok ref = (Except.ok ref' : Except SubstError _) := h.head.symm.trans h'.head
  exact Except.ok.inj hboth

theorem boundsWith_map {impl : Impl} (himpl : impl.VarFree) {f : Var → Ty} {rs : List Ty}
    (hrs : ∀ r ∈ rs, (r.replaceVars f).NotParam) {bounds : List Reference}
    (h : impl.boundsWith rs = .ok bounds) :
    impl.boundsWith (rs.map (Ty.replaceVars f)) = .ok (bounds.map (Reference.replaceVars f)) :=
  mapM_map_of_ok (fun b hb _ h => Reference.subst_map_replaceVars hrs (himpl.2 b hb) h) h

end Impl

namespace Program

/-- The types that the impls of a program mention. -/
def types (program : Program) : List Ty :=
  program.impls.flatMap Impl.types

theorem mem_types {program : Program} {impl : Impl} (himpl : impl ∈ program.impls) {t : Ty}
    {r : Reference} (hr : r ∈ impl.trait :: impl.params.flatten) (ht : t ∈ r.types) :
    t ∈ program.types :=
  List.mem_flatMap.mpr ⟨impl, himpl, Impl.mem_types.mpr ⟨r, hr, ht⟩⟩

/-- A program without inference variables in its impls. -/
def VarFree (program : Program) : Prop :=
  ∀ impl ∈ program.impls, impl.VarFree

instance (program : Program) : Decidable program.VarFree :=
  inferInstanceAs (Decidable (∀ impl ∈ program.impls, impl.VarFree))

/-- The ground references that follow from the impls of a program, by finite derivations. -/
inductive Derivable (program : Program) : Reference → Prop
  | intro {impl : Impl} {rs : List Ty} {ref : Reference} {bounds : List Reference}
      (himpl : impl ∈ program.impls) (hhead : impl.Implements rs ref)
      (hbounds : impl.boundsWith rs = .ok bounds) (hderivable : ∀ b ∈ bounds, Derivable program b) :
      Derivable program ref

theorem mem_implsOf {program : Program} {impl : Impl} {id : Text} :
    impl ∈ program.implsOf id ↔ impl ∈ program.impls ∧ impl.trait.id = id := by
  simp [implsOf]

end Program

/-- The impl is the last step of a derivation of `ref`, with ground types for its parameters. -/
def Impl.AppliesTo (impl : Impl) (program : Program) (ref : Reference) : Prop :=
  ∃ rs bounds, impl.Implements rs ref ∧ impl.boundsWith rs = .ok bounds ∧
    ∀ b ∈ bounds, program.Derivable b

theorem Impl.AppliesTo.id_eq {impl : Impl} {program : Program} {ref : Reference}
    (h : impl.AppliesTo program ref) : ref.id = impl.trait.id := by
  obtain ⟨rs, -, hrs, -⟩ := h
  exact hrs.id_eq

theorem Program.derivable_iff {program : Program} {ref : Reference} :
    program.Derivable ref ↔ ∃ impl ∈ program.impls, impl.AppliesTo program ref := by
  constructor
  · rintro ⟨himpl, hrs, hbounds, hderivable⟩
    exact ⟨_, himpl, _, _, hrs, hbounds, hderivable⟩
  · rintro ⟨impl, himpl, rs, bounds, hrs, hbounds, hderivable⟩
    exact .intro himpl hrs hbounds hderivable

section Printing

/-- Integers are shown. -/
def showInt : Impl :=
  ⟨"Int", [], ⟨"Show", .con "Int" [], []⟩⟩

/-- A list is printed when its elements are shown. -/
def printList : Impl :=
  ⟨"List", [[⟨"Show", .param 0, []⟩]], ⟨"Print", .con "List" [.param 0], []⟩⟩

/-- A truth value is printed when it can be hashed. -/
def printBool : Impl :=
  ⟨"Bool", [[⟨"Hash", .con "Bool" [], []⟩]], ⟨"Print", .con "Bool" [], []⟩⟩

/-- A program in which nothing can be hashed. -/
def printing : Program :=
  ⟨[], [printList, printBool, showInt]⟩

theorem printing_derivable :
    printing.Derivable ⟨"Print", .con "List" [.con "Int" []], []⟩ := by
  have hshow : showInt.Implements [] ⟨"Show", .con "Int" [], []⟩ := ⟨rfl, by decide, rfl⟩
  have hprint : printList.Implements [.con "Int" []] ⟨"Print", .con "List" [.con "Int" []], []⟩ :=
    ⟨rfl, by decide, rfl⟩
  refine .intro (by decide) hprint rfl (List.forall_mem_singleton.mpr ?_)
  exact .intro (by decide) hshow rfl (by simp)

end Printing

namespace Env

variable {env left : Env} {n : Nat}

/-- The environment with `n` more variables. -/
def grown (env : Env) (n : Nat) : Env :=
  { env with count := env.count + n }

/-- The next `n` variables. -/
def nextVars (env : Env) (n : Nat) : List Ty :=
  (List.range n).map fun i => .var ⟨env.count + i, 0⟩

theorem extends_grown (env : Env) (n : Nat) : (env.grown n).Extends env :=
  ⟨List.suffix_refl _, Nat.le_add_right _ _⟩

theorem resolveWithin_grown (env : Env) (n k : Nat) (t : Ty) :
    (env.grown n).resolveWithin k t = env.resolveWithin k t := by
  induction k generalizing t with
  | zero => rfl
  | succ k ih =>
      simp only [resolveWithin, ih]
      rfl

theorem resolve_grown (env : Env) (n : Nat) (t : Ty) : (env.grown n).resolve t = env.resolve t :=
  env.resolveWithin_grown n env.len t

theorem Valid.grown (h : env.Valid) (n : Nat) : (env.grown n).Valid where
  distinct := h.distinct
  live b hb := ⟨(env.extends_grown n).live (h.live b hb).1,
    (env.extends_grown n).covers (h.live b hb).2⟩
  paramFree := h.paramFree
  older := h.older
  acyclic := h.acyclic

theorem covers_nextVars {t : Ty} (ht : t ∈ env.nextVars n) : (env.grown n).Covers t := by
  obtain ⟨i, hi, rfl⟩ := List.mem_map.mp ht
  intro v hv
  obtain rfl : v = ⟨env.count + i, 0⟩ := by simpa using hv
  exact ⟨Nat.add_lt_add_left (List.mem_range.mp hi) _, rfl⟩

theorem length_nextVars (env : Env) (n : Nat) : (env.nextVars n).length = n := by
  simp [nextVars]

theorem hasParams_nextVars {t : Ty} (ht : t ∈ env.nextVars n) : t.hasParams = false := by
  obtain ⟨i, -, rfl⟩ := List.mem_map.mp ht
  exact Ty.hasParams_var _

theorem nextVars_succ (env : Env) (n : Nat) :
    env.nextVars (n + 1) = .var ⟨env.count, 0⟩ :: env.created.nextVars n := by
  simp only [nextVars, created, List.range_succ_eq_map, List.map_cons, List.map_map, Nat.add_zero]
  congr 1
  apply List.map_congr_left
  intro i _
  simp only [Function.comp, Nat.succ_eq_add_one, Ty.var.injEq, Var.mk.injEq, and_true]
  omega

theorem returns_freshTypes (henv : env.Valid) {ts : List Ty} :
    (Engine.freshTypes n).Returns env ts left ↔ ts = env.nextVars n ∧ left = env.grown n := by
  induction n generalizing env ts with
  | zero => simp [Engine.freshTypes, nextVars, grown]
  | succ n ih =>
      have hgrown : env.created.grown n = env.grown (n + 1) := by
        simp only [grown, created, Env.mk.injEq, and_true]
        omega
      simp only [Engine.freshTypes, Operation.returns_bind, Operation.returns_pure,
        Engine.returns_fresh]
      constructor
      · rintro ⟨v, mid, ⟨rfl, rfl⟩, ts, last, hts, rfl, rfl⟩
        obtain ⟨rfl, rfl⟩ := (ih henv.created).mp hts
        exact ⟨by rw [nextVars_succ, henv.nextVar_eq], hgrown⟩
      · rintro ⟨rfl, rfl⟩
        refine ⟨_, _, ⟨rfl, rfl⟩, env.created.nextVars n, env.grown (n + 1), ?_, ?_, rfl⟩
        · exact (ih henv.created).mpr ⟨rfl, hgrown.symm⟩
        · rw [nextVars_succ, henv.nextVar_eq]

end Env

namespace Assignment

variable {ts : List Ty}

/-- The assignment that gives the types `ts` to the next variables of an environment. -/
def extend (σ : Assignment) (env : Env) (ts : List Ty) (hts : ∀ t ∈ ts, t.Ground) :
    Assignment where
  value v := if v.index < env.count then σ.value v else
    (ts[v.index - env.count]?).getD (σ.value v)
  ground v := by
    split
    · exact σ.ground v
    · cases ht : ts[v.index - env.count]? with
      | none => exact σ.ground v
      | some t => exact hts t (List.mem_of_getElem? ht)

/-- An assignment can be changed to give any ground types to the next variables. -/
theorem exists_extension (σ : Assignment) (env : Env) (hts : ∀ t ∈ ts, t.Ground) :
    ∃ τ : Assignment, σ.AgreesOn τ env ∧ (env.nextVars ts.length).map τ.type = ts := by
  refine ⟨σ.extend env ts hts, fun v hv => ?_, ?_⟩
  · simp [extend, hv.1]
  · apply List.ext_getElem (by simp [Env.nextVars])
    intro i hi hi'
    simp [Env.nextVars, type, extend, hi']

end Assignment

end TraitResolution
