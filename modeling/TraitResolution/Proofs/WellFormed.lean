import TraitResolution.Proofs.Derivation
import TraitResolution.Proofs.Unification

/-!
# Well-formed programs

A signature gives every type constructor a number of arguments and every trait a number of
parameters. What is declared is well formed when it keeps to the signature, has no inference
variables, and mentions only the type parameters of its declaration. What the engine works on is
admitted when it keeps to the signature, has no type parameters, and mentions only the variables of
the environment. Replacing the parameters of something well formed by admitted types always
succeeds, and yields something admitted.
-/

namespace TraitResolution

/-- The number of arguments of each type constructor, and of parameters of each trait. -/
structure Signature where
  arity : String → Nat
  params : Text → Nat

namespace Ty

variable {sig : Signature} {id : String} {args : List Ty} {t : Ty} {n : Nat}

/-- The constructors of a type, each with the number of its arguments. -/
def uses (t : Ty) : List (String × Nat) :=
  t.subterms.filterMap fun
    | con id args => some (id, args.length)
    | _ => none

@[simp] theorem uses_con : (con id args).uses = (id, args.length) :: args.flatMap uses := by
  rw [uses, subterms, subtermsAll_eq_flatMap, List.filterMap_cons, List.filterMap_flatMap]
  rfl

@[simp] theorem uses_param {i : Int} : (param i).uses = [] := by
  simp [uses, subterms]

@[simp] theorem uses_var {v : Var} : (var v).uses = [] := by
  simp [uses, subterms]

/-- Every constructor has the number of arguments that the signature gives it. -/
def Fits (sig : Signature) (t : Ty) : Prop :=
  ∀ use ∈ t.uses, use.2 = sig.arity use.1

theorem fits_con :
    (con id args).Fits sig ↔ args.length = sig.arity id ∧ ∀ a ∈ args, a.Fits sig := by
  simp only [Fits, uses_con, List.forall_mem_cons, List.mem_flatMap]
  apply and_congr_right
  intro _
  constructor
  · exact fun h a ha use huse => h use ⟨a, ha, huse⟩
  · rintro h use ⟨a, ha, huse⟩
    exact h a ha use huse

theorem fits_var {v : Var} : (var v).Fits sig := by
  simp [Fits]

/-- Every type parameter is one of the first `n`. -/
def InScope (n : Nat) (t : Ty) : Prop :=
  ∀ i, param i ∈ t.subterms → 0 ≤ i ∧ i.toNat < n

theorem inScope_con : (con id args).InScope n ↔ ∀ a ∈ args, a.InScope n := by
  simp only [InScope, subterms, subtermsAll_eq_flatMap, List.mem_cons, List.mem_flatMap,
    reduceCtorEq, false_or]
  constructor
  · exact fun h a ha i hi => h i ⟨a, ha, hi⟩
  · rintro h i ⟨a, ha, hi⟩
    exact h a ha i hi

theorem inScope_param {i : Int} : (param i).InScope n ↔ 0 ≤ i ∧ i.toNat < n := by
  simp [InScope, subterms]

theorem inScope_var {v : Var} : (var v).InScope n := by
  simp [InScope, subterms]

/-- Where no type parameter is in scope there is none. -/
theorem hasParams_of_inScope_zero (h : t.InScope 0) : t.hasParams = false := by
  induction t using Ty.induction with
  | con id args ih =>
      rw [hasParams_con, List.any_eq_false]
      exact fun a ha => Bool.eq_false_iff.mp (ih a ha (inScope_con.mp h a ha))
  | param i => exact absurd (inScope_param.mp h).2 (Nat.not_lt_zero _)
  | var v => simp

/-- A type without inference variables, in a declaration with `n` type parameters. -/
structure Closed (n : Nat) (t : Ty) : Prop where
  varFree : t.vars = []
  inScope : t.InScope n

/-- A type as it stands in a declaration with `n` type parameters. -/
structure WellFormed (sig : Signature) (n : Nat) (t : Ty) : Prop extends Closed n t where
  fits : t.Fits sig

theorem WellFormed.arg (h : (con id args).WellFormed sig n) {a : Ty} (ha : a ∈ args) :
    a.WellFormed sig n := by
  have hvars := h.varFree
  rw [vars_con, List.flatMap_eq_nil_iff] at hvars
  exact ⟨⟨hvars a ha, inScope_con.mp h.inScope a ha⟩, (fits_con.mp h.fits).2 a ha⟩

end Ty

namespace Env

variable {env later : Env} {sig : Signature} {t : Ty} {v : Var} {id : String} {args : List Ty}

/-- A type that the engine may work on in an environment. -/
structure Admits (env : Env) (sig : Signature) (t : Ty) : Prop where
  covers : env.Covers t
  paramFree : t.hasParams = false
  fits : t.Fits sig

theorem Admits.of_extends (h : env.Admits sig t) (hextends : later.Extends env) :
    later.Admits sig t :=
  ⟨hextends.covers h.covers, h.paramFree, h.fits⟩

theorem admits_con :
    env.Admits sig (.con id args) ↔ args.length = sig.arity id ∧ ∀ a ∈ args, env.Admits sig a := by
  constructor
  · intro h
    obtain ⟨hlen, hfits⟩ := Ty.fits_con.mp h.fits
    refine ⟨hlen, fun a ha => ⟨Engine.covers_args h.covers a ha, ?_, hfits a ha⟩⟩
    have hargs := h.paramFree
    rw [Ty.hasParams_con, List.any_eq_false] at hargs
    exact Bool.eq_false_iff.mpr (hargs a ha)
  · rintro ⟨hlen, hargs⟩
    refine ⟨fun v hv => ?_, ?_, Ty.fits_con.mpr ⟨hlen, fun a ha => (hargs a ha).fits⟩⟩
    · obtain ⟨a, ha, hv⟩ : ∃ a ∈ args, v ∈ a.vars := by simpa using hv
      exact (hargs a ha).covers v hv
    · rw [Ty.hasParams_con, List.any_eq_false]
      exact fun a ha => Bool.eq_false_iff.mp (hargs a ha).paramFree

theorem admits_var : env.Admits sig (.var v) ↔ env.Live v := by
  constructor
  · exact fun h => h.covers v (by simp)
  · exact fun hv => ⟨by simpa [Covers] using hv, by simp, Ty.fits_var⟩

theorem not_admits_param {i : Int} : ¬env.Admits sig (.param i) := by
  intro h
  simpa using h.paramFree

/-- A reference that the engine may work on in an environment. -/
structure AdmitsRef (env : Env) (sig : Signature) (r : Reference) : Prop where
  types : ∀ t ∈ r.types, env.Admits sig t
  length_params : r.params.length = sig.params r.id

theorem AdmitsRef.of_extends {r : Reference} (h : env.AdmitsRef sig r)
    (hextends : later.Extends env) : later.AdmitsRef sig r :=
  ⟨fun t ht => (h.types t ht).of_extends hextends, h.length_params⟩

/-- A valid environment whose bindings keep to a signature. -/
structure Typed (env : Env) (sig : Signature) : Prop where
  valid : env.Valid
  fits : ∀ b ∈ env.trail, b.value.Fits sig

namespace Typed

theorem admits_of_value? (h : env.Typed sig) (hv : env.value? v = some t) : env.Admits sig t :=
  ⟨h.valid.covers_of_value? hv, h.valid.paramFree _ (mem_of_value? hv), h.fits _ (mem_of_value? hv)⟩

theorem admits_shallow (h : env.Typed sig) (ht : env.Admits sig t) :
    env.Admits sig (env.shallow t) :=
  shallow_of_values (fun hu _ => h.admits_of_value? hu) ht

theorem grown (h : env.Typed sig) (n : Nat) : (env.grown n).Typed sig :=
  ⟨h.valid.grown n, h.fits⟩

/-- A resolved type is free of parameters as the type itself is. -/
theorem hasParams_eq_false (h : env.Typed sig) (ht : env.Admits sig t) :
    env.hasParams t = false := by
  apply Bool.eq_false_iff.mpr
  intro hparams
  rw [hasParams, resolve_eq_replaceVars] at hparams
  rcases Ty.hasParams_replaceVars.mp hparams with hp | ⟨v, -, hp⟩
  · exact Bool.eq_false_iff.mp ht.paramFree hp
  · exact Bool.eq_false_iff.mp (h.valid.hasParams_answer v) hp

end Typed

theorem typed_empty : Env.empty.Typed sig :=
  ⟨valid_empty, by simp [empty]⟩

theorem admits_nextVars {n : Nat} (ht : t ∈ env.nextVars n) : (env.grown n).Admits sig t := by
  refine ⟨covers_nextVars ht, hasParams_nextVars ht, ?_⟩
  obtain ⟨i, -, rfl⟩ := List.mem_map.mp ht
  exact Ty.fits_var

end Env

section Declared

variable {sig : Signature} {env : Env} {rs : List Ty}

theorem Ty.WellFormed.exists_subst {t : Ty} (ht : t.WellFormed sig rs.length)
    (hrs : ∀ r ∈ rs, env.Admits sig r) : ∃ u, t.subst rs = .ok u ∧ env.Admits sig u := by
  induction t using Ty.induction with
  | con id args ih =>
      obtain ⟨us, hus, hadmits⟩ := exists_mapM fun a ha => ih a ha (ht.arg ha)
      have hlen := (length_of_mapM hus).trans (Ty.fits_con.mp ht.fits).1
      exact ⟨.con id us, Ty.subst_con_eq_ok.mpr ⟨us, hus, rfl⟩, Env.admits_con.mpr ⟨hlen, hadmits⟩⟩
  | param i =>
      obtain ⟨hi, hlt⟩ := Ty.inScope_param.mp ht.inScope
      have hmem := hrs rs[i.toNat] (List.getElem_mem hlt)
      refine ⟨rs[i.toNat], ?_, hmem⟩
      rw [Ty.subst]
      refine Ty.replacement_eq_ok.mpr ⟨hi, List.getElem?_eq_getElem hlt, fun j hj => ?_⟩
      exact Env.not_admits_param (hj ▸ hmem)
  | var v => simpa using ht.varFree

/-- A reference as it stands in a declaration with `n` type parameters. -/
structure Reference.WellFormed (sig : Signature) (n : Nat) (r : Reference) : Prop where
  types : ∀ t ∈ r.types, t.WellFormed sig n
  length_params : r.params.length = sig.params r.id

theorem Reference.WellFormed.exists_subst {r : Reference} (hr : r.WellFormed sig rs.length)
    (hrs : ∀ t ∈ rs, env.Admits sig t) : ∃ u, r.subst rs = .ok u ∧ env.AdmitsRef sig u := by
  obtain ⟨self, hself, hadmits⟩ := (hr.types r.self (by simp [Reference.types])).exists_subst hrs
  have hparam : ∀ t ∈ r.params, ∃ u, t.subst rs = .ok u ∧ env.Admits sig u :=
    fun t ht => (hr.types t (by simp [Reference.types, ht])).exists_subst hrs
  obtain ⟨params, hparams, hadmitsAll⟩ := exists_mapM hparam
  refine ⟨⟨r.id, self, params⟩, subst_eq_ok.mpr ⟨rfl, hself, hparams⟩, ?_, ?_⟩
  · exact List.forall_mem_cons.mpr ⟨hadmits, hadmitsAll⟩
  · exact (length_of_mapM hparams).trans hr.length_params

/-- An impl whose reference and bounds are well formed. -/
structure Impl.WellFormed (sig : Signature) (impl : Impl) : Prop where
  trait : impl.trait.WellFormed sig impl.params.length
  bounds : ∀ b ∈ impl.params.flatten, b.WellFormed sig impl.params.length

theorem Impl.WellFormed.exists_boundsWith {impl : Impl} (h : impl.WellFormed sig)
    (hlen : rs.length = impl.params.length) (hrs : ∀ t ∈ rs, env.Admits sig t) :
    ∃ bounds, impl.boundsWith rs = .ok bounds ∧ ∀ b ∈ bounds, env.AdmitsRef sig b :=
  exists_mapM fun b hb => (hlen ▸ h.bounds b hb).exists_subst hrs

/-- A trait with the signature's number of parameters. In the receiver types of its methods the self
type comes before the parameters. -/
structure Trait.WellFormed (sig : Signature) (t : Trait) : Prop where
  arity_eq : t.arity = sig.params t.id
  methods : ∀ m ∈ t.methods, m.selfType.WellFormed sig (t.arity + 1)

/-- A program whose impls are well formed. -/
def Program.WellFormed (sig : Signature) (program : Program) : Prop :=
  ∀ impl ∈ program.impls, impl.WellFormed sig

end Declared

end TraitResolution
