import TraitResolution.Proofs.Reachability

/-!
# Replacing parameters before or after resolving

Type parameters are replaced in a type as it is written, and resolving looks through the bindings of
its variables. The order of the two does not matter: to resolve a type and what stands for its
parameters first gives the same in the end, or fails for the same reason. Nor does it matter whether
a type was resolved before more types were unified.

## Implementation notes

The values of variables hold no type parameters. So resolving neither adds a parameter to be
replaced, nor turns what stands for a parameter into a parameter.
-/

namespace TraitResolution

namespace Ty

variable {f : Var → Ty} {rs : List Ty} {t : Ty}

theorem subst_con (rs : List Ty) (id : String) (args : List Ty) :
    (con id args).subst rs = (args.mapM (subst rs)).map (con id) := by
  rw [subst, substAll_eq_mapM]
  cases args.mapM (subst rs) with
  | error e => rfl
  | ok us => rfl

/-- Where no parameter occurs there is nothing to replace. -/
theorem subst_of_paramFree (ht : t.hasParams = false) : t.subst rs = .ok t := by
  induction t using induction with
  | con name args ih =>
      rw [hasParams_con, List.any_eq_false] at ht
      have hargs := mapM_eq_self fun a ha => ih a ha (Bool.eq_false_iff.mpr (ht a ha))
      exact subst_con_eq_ok.mpr ⟨args, hargs, rfl⟩
  | param i => cases ht
  | var v => rw [subst]

/-- What stands for a parameter is replaced as the rest is. -/
theorem replacement_map_replaceVars (hf : ∀ v, (f v).hasParams = false) (rs : List Ty) (i : Int) :
    replacement (rs.map (replaceVars f)) i = (replacement rs i).map (replaceVars f) := by
  rw [replacement, replacement, List.length_map]
  split
  · rfl
  · rw [List.getElem?_map]
    cases rs[i.toNat]? with
    | none => rfl
    | some r =>
        cases r with
        | con name args => simp [Except.map]
        | param j => rfl
        | var v =>
            have hnot : ∀ j, f v ≠ param j := by
              intro j hj
              simpa [hj] using hf v
            rw [Option.map_some, replaceVars_var]
            cases hv : f v with
            | con name args => simp [Except.map, hv]
            | param j => exact absurd hv (hnot j)
            | var w => simp [Except.map, hv]

/-- If the types put in place of variables hold no type parameters, these can be replaced before or
after the variables. -/
theorem subst_replaceVars (hf : ∀ v, (f v).hasParams = false) (rs : List Ty) (t : Ty) :
    (t.replaceVars f).subst (rs.map (replaceVars f)) = (t.subst rs).map (replaceVars f) := by
  induction t using induction with
  | con name args ih =>
      rw [replaceVars_con, subst_con, subst_con, mapM_map_eq ih]
      cases args.mapM (subst rs) with
      | error e => rfl
      | ok us => simp [Except.map]
  | param i =>
      rw [replaceVars_param, subst, subst]
      exact replacement_map_replaceVars hf rs i
  | var v =>
      rw [replaceVars_var, subst_of_paramFree (hf v), subst]
      rfl

end Ty

namespace Env

open Engine

variable {env later : Env} {t : Ty}

/-- Replacing the parameters of a type and resolving it commute. -/
theorem Valid.resolve_subst (h : env.Valid) (t : Ty) (rs : List Ty) :
    (env.resolve t).subst (rs.map env.resolve) = (t.subst rs).map env.resolve := by
  have hresolve : env.resolve = Ty.replaceVars env.answer := funext env.resolve_eq_replaceVars
  rw [hresolve]
  exact Ty.subst_replaceVars h.hasParams_answer rs t

/-- A type that was resolved earlier resolves to what it would have resolved to now. -/
theorem Valid.resolve_resolve (h : later.Valid) (hextends : later.Extends env) (t : Ty) :
    later.resolve (env.resolve t) = later.resolve t := by
  have hsolved : env.SolvedBy later.answer := h.solvedBy_answer.of_extends hextends
  calc
    later.resolve (env.resolve t) = (env.resolve t).replaceVars later.answer :=
      later.resolve_eq_replaceVars _
    _ = t.replaceVars later.answer := hsolved.resolve t
    _ = later.resolve t := (later.resolve_eq_replaceVars t).symm

/-- Successful unifications lead from one environment to another. New variables may be created in
between. -/
inductive UnifiesTo (env : Env) : Env → Prop
  | refl : UnifiesTo env env
  | fresh {mid v left} (h : UnifiesTo env mid) (hv : fresh.Returns mid v left) : UnifiesTo env left
  | unify {mid a b left} (h : UnifiesTo env mid) (ha : mid.Covers a) (hb : mid.Covers b)
      (hleft : (unify a b).Returns mid true left) : UnifiesTo env left
  | unifyAll {mid as bs left} (h : UnifiesTo env mid) (has : ∀ a ∈ as, mid.Covers a)
      (hbs : ∀ b ∈ bs, mid.Covers b) (hleft : (unifyAll as bs).Returns mid true left) :
      UnifiesTo env left
  | unifyReferences {mid r s left} (h : UnifiesTo env mid) (hr : mid.CoversRef r)
      (hs : mid.CoversRef s) (hleft : (unifyReferences r s).Returns mid true left) :
      UnifiesTo env left

/-- Successful unifications only add to an environment, and keep it valid. -/
theorem UnifiesTo.valid_extends (h : env.UnifiesTo later) (henv : env.Valid) :
    later.Valid ∧ later.Extends env := by
  induction h with
  | refl => exact ⟨henv, Extends.refl env⟩
  | @fresh mid v left _ hv ih =>
      obtain ⟨-, rfl⟩ := returns_fresh.mp hv
      exact ⟨ih.1.created, mid.extends_created.trans ih.2⟩
  | unify _ ha hb hleft ih =>
      have hunified := unify_unified ih.1 ha hb hleft
      exact ⟨hunified.valid, hunified.extends_env.trans ih.2⟩
  | unifyAll _ has hbs hleft ih =>
      have hunified := unifyAll_unified ih.1 has hbs hleft
      exact ⟨hunified.valid, hunified.extends_env.trans ih.2⟩
  | unifyReferences _ hr hs hleft ih =>
      have hunified := (unifyReferences_unified ih.1 hr hs hleft).2
      exact ⟨hunified.valid, hunified.extends_env.trans ih.2⟩

/-- In a reachable environment, to replace the parameters of a type and to resolve it commute: both
orders give the same type, or fail for the same reason. A resolved type resolves to itself, and
after further unifications it resolves to what the type itself then resolves to. -/
theorem resolve_commutes (henv : env.Reachable) (t : Ty) :
    (∀ rs, (env.resolve t).subst (rs.map env.resolve) = (t.subst rs).map env.resolve) ∧
    env.resolve (env.resolve t) = env.resolve t ∧
    ∀ later, env.UnifiesTo later → later.resolve (env.resolve t) = later.resolve t := by
  refine ⟨henv.valid.resolve_subst t, henv.valid.resolve_resolve (Extends.refl env) t, ?_⟩
  intro later hlater
  obtain ⟨hvalid, hextends⟩ := hlater.valid_extends henv.valid
  exact hvalid.resolve_resolve hextends t

/-- A pair of the first parameter and the variable that stands for lists. -/
def paramAndList : Ty :=
  .con "Pair" [.param 0, .var ⟨1, 0⟩]

/-- The parameter is replaced by the variable that stands for lists, or cannot be replaced. Later on
these turn out to be lists of integers. -/
theorem resolve_commutes_listed :
    listed.Reachable ∧
    (listed.resolve paramAndList).subst ([.var ⟨1, 0⟩].map listed.resolve) =
      .ok (listed.resolve (.con "Pair" [.var ⟨1, 0⟩, .var ⟨1, 0⟩])) ∧
    (listed.resolve paramAndList).subst ([].map listed.resolve) = .error (.outOfRange 0 0) ∧
    listed.resolve (listed.resolve paramAndList) = listed.resolve paramAndList ∧
    ∃ later, listed.UnifiesTo later ∧ later.len = listed.len + 1 ∧
      later.resolve (listed.resolve paramAndList) = later.resolve paramAndList := by
  obtain ⟨hsubst, hagain, hlater⟩ := resolve_commutes listed_reachable paramAndList
  have hint : ∃ later, (unify (.var ⟨0, 0⟩) (.con "Int" [])).Returns listed true later ∧
      later.len = listed.len + 1 := ⟨_, ⟨rfl, rfl⟩, rfl⟩
  obtain ⟨later, hunify, hlen⟩ := hint
  have hunifies : listed.UnifiesTo later := .unify .refl (by decide) (by decide) hunify
  exact ⟨listed_reachable, hsubst [.var ⟨1, 0⟩], hsubst [], hagain, later, hunifies, hlen,
    hlater later hunifies⟩

end Env

end TraitResolution
