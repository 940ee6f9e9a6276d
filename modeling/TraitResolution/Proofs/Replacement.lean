import TraitResolution.Program
import TraitResolution.Proofs.Collections

/-!
# Replacing variables and parameters

The algebra of the two replacements on types. Variables are replaced by a function on variables,
and such replacements compose. Type parameters are replaced by a list of types, and on a type
without variables the two commute.

## Implementation notes

A type holds a list of types, so the recursor of `Ty` has a second motive for lists. `Ty.induction`
hides it: the arguments of a constructor come with one hypothesis for each of them.
-/

namespace TraitResolution

namespace Ty

/-- Induction on types, with one hypothesis for each argument of a constructor. -/
@[elab_as_elim]
theorem induction {P : Ty → Prop} (con : ∀ id args, (∀ a ∈ args, P a) → P (con id args))
    (param : ∀ i, P (param i)) (var : ∀ v, P (var v)) (t : Ty) : P t := by
  refine @Ty.rec P (fun ts => ∀ a ∈ ts, P a) con param var ?_ ?_ t
  · intro a ha
    exact absurd ha List.not_mem_nil
  · intro t ts ht hts a ha
    rcases List.mem_cons.mp ha with rfl | ha
    · exact ht
    · exact hts a ha

section Equations

variable (id : String) (args : List Ty) (i : Int) (v : Var) (f : Var → Ty)

@[simp] theorem replaceVars_con :
    (con id args).replaceVars f = con id (args.map (replaceVars f)) :=
  congrArg (con id) (replaceVarsAll_eq_map f args)

@[simp] theorem replaceVars_param : (param i).replaceVars f = param i :=
  rfl

@[simp] theorem replaceVars_var : (var v).replaceVars f = f v :=
  rfl

@[simp] theorem vars_con : (con id args).vars = args.flatMap vars :=
  varsAll_eq_flatMap args

@[simp] theorem vars_param : (param i).vars = [] :=
  rfl

@[simp] theorem vars_var : (var v).vars = [v] :=
  rfl

@[simp] theorem hasParams_con : (con id args).hasParams = args.any hasParams :=
  hasParamsAny_eq_any args

@[simp] theorem hasParams_param : (param i).hasParams = true :=
  rfl

@[simp] theorem hasParams_var : (var v).hasParams = false :=
  rfl

end Equations

/-- Replacements compose. -/
theorem replaceVars_replaceVars (f g : Var → Ty) (t : Ty) :
    (t.replaceVars f).replaceVars g = t.replaceVars fun v => (f v).replaceVars g := by
  induction t using induction with
  | con id args ih => simpa using ih
  | param i => simp
  | var v => simp

/-- The replacement of every variable by itself changes nothing. -/
@[simp] theorem replaceVars_self (t : Ty) : t.replaceVars var = t := by
  induction t using induction with
  | con id args ih =>
      have hargs : args.map (replaceVars var) = args.map fun a => a := List.map_congr_left ih
      simp [hargs]
  | param i => simp
  | var v => simp

/-- Two replacements give the same type exactly when they agree on the variables of the type. -/
theorem replaceVars_eq_iff {f g : Var → Ty} {t : Ty} :
    t.replaceVars f = t.replaceVars g ↔ ∀ v ∈ t.vars, f v = g v := by
  induction t using induction with
  | con id args ih =>
      have hargs : args.map (replaceVars f) = args.map (replaceVars g) ↔
          ∀ a ∈ args, ∀ v ∈ a.vars, f v = g v := by
        rw [List.map_inj_left]
        exact forall₂_congr ih
      simp only [replaceVars_con, con.injEq, true_and, hargs, vars_con, List.mem_flatMap]
      exact ⟨fun h v ⟨a, ha, hv⟩ => h a ha v hv, fun h a ha v hv => h v ⟨a, ha, hv⟩⟩
  | param i => simp
  | var v => simp

theorem replaceVars_congr {f g : Var → Ty} {t : Ty} (h : ∀ v ∈ t.vars, f v = g v) :
    t.replaceVars f = t.replaceVars g :=
  replaceVars_eq_iff.mpr h

theorem mem_vars_replaceVars {f : Var → Ty} {t : Ty} {w : Var} :
    w ∈ (t.replaceVars f).vars ↔ ∃ v ∈ t.vars, w ∈ (f v).vars := by
  induction t using induction with
  | con id args ih =>
      simp only [replaceVars_con, vars_con, List.mem_flatMap, List.mem_map]
      constructor
      · rintro ⟨_, ⟨a, ha, rfl⟩, hw⟩
        obtain ⟨v, hv, hw⟩ := (ih a ha).mp hw
        exact ⟨v, ⟨a, ha, hv⟩, hw⟩
      · rintro ⟨v, ⟨a, ha, hv⟩, hw⟩
        exact ⟨_, ⟨a, ha, rfl⟩, (ih a ha).mpr ⟨v, hv, hw⟩⟩
  | param i => simp
  | var v => simp

theorem hasParams_replaceVars {f : Var → Ty} {t : Ty} :
    (t.replaceVars f).hasParams = true ↔
      t.hasParams = true ∨ ∃ v ∈ t.vars, (f v).hasParams = true := by
  induction t using induction with
  | con id args ih =>
      simp only [replaceVars_con, hasParams_con, vars_con, List.any_map, List.any_eq_true,
        List.mem_flatMap, Function.comp]
      constructor
      · rintro ⟨a, ha, h⟩
        rcases (ih a ha).mp h with h | ⟨v, hv, h⟩
        · exact Or.inl ⟨a, ha, h⟩
        · exact Or.inr ⟨v, ⟨a, ha, hv⟩, h⟩
      · rintro (⟨a, ha, h⟩ | ⟨v, ⟨a, ha, hv⟩, h⟩)
        · exact ⟨a, ha, (ih a ha).mpr (Or.inl h)⟩
        · exact ⟨a, ha, (ih a ha).mpr (Or.inr ⟨v, hv, h⟩)⟩
  | param i => simp
  | var v => simp

/-- A type is ground when it is made of constructors only. -/
def Ground (t : Ty) : Prop :=
  t.vars = [] ∧ t.hasParams = false

instance (t : Ty) : Decidable t.Ground :=
  inferInstanceAs (Decidable (_ ∧ _))

/-- With ground types for the variables, only a type parameter keeps a type from being ground. -/
theorem ground_replaceVars {f : Var → Ty} (hf : ∀ v, (f v).Ground) {t : Ty}
    (ht : t.hasParams = false) : (t.replaceVars f).Ground := by
  constructor
  · apply List.eq_nil_iff_forall_not_mem.mpr
    intro w hw
    obtain ⟨v, _, hw⟩ := mem_vars_replaceVars.mp hw
    simp [(hf v).1] at hw
  · apply Bool.eq_false_iff.mpr
    intro h
    rcases hasParams_replaceVars.mp h with h | ⟨v, _, h⟩
    · simp [ht] at h
    · simp [(hf v).2] at h

/-- A type that is no type parameter itself, and so can stand for one. -/
def NotParam (t : Ty) : Prop :=
  ∀ i, t ≠ param i

theorem Ground.notParam {t : Ty} (h : t.Ground) : t.NotParam := by
  rintro i rfl
  simp [Ground] at h

theorem replacement_eq_ok {rs : List Ty} {i : Int} {u : Ty} :
    replacement rs i = .ok u ↔ 0 ≤ i ∧ rs[i.toNat]? = some u ∧ u.NotParam := by
  unfold replacement
  split
  · simp only [reduceCtorEq, false_iff]
    omega
  · have hi : 0 ≤ i := by omega
    split
    · simp_all
    · rename_i j hj
      simp only [reduceCtorEq, false_iff, hj, Option.some.injEq]
      rintro ⟨-, rfl, hu⟩
      exact hu j rfl
    · rename_i r hnot hr
      simp only [Except.ok.injEq, hi, hr, Option.some.injEq, true_and]
      constructor
      · rintro rfl
        exact ⟨rfl, hnot⟩
      · rintro ⟨rfl, -⟩
        rfl

theorem substAll_eq_mapM (rs ts : List Ty) : substAll rs ts = ts.mapM (subst rs) := by
  induction ts with
  | nil => simp [substAll, pure, Except.pure]
  | cons t ts ih => simp [substAll, ih]

theorem subst_con_eq_ok {rs : List Ty} {id : String} {args : List Ty} {u : Ty} :
    (con id args).subst rs = .ok u ↔ ∃ us, args.mapM (subst rs) = .ok us ∧ u = con id us := by
  rw [subst, substAll_eq_mapM]
  cases args.mapM (subst rs) with
  | error e => simp [bind, Except.bind]
  | ok us => simp [bind, Except.bind, pure, Except.pure, eq_comm]

/-- On a type without variables, replacing variables after parameters is replacing the variables of
what stands for the parameters. -/
theorem subst_map_replaceVars {rs : List Ty} {f : Var → Ty}
    (hrs : ∀ r ∈ rs, (r.replaceVars f).NotParam) {t u : Ty} (ht : t.vars = [])
    (h : t.subst rs = .ok u) : t.subst (rs.map (replaceVars f)) = .ok (u.replaceVars f) := by
  induction t using induction generalizing u with
  | con id args ih =>
      obtain ⟨us, hus, rfl⟩ := subst_con_eq_ok.mp h
      have hargs : ∀ a ∈ args, a.vars = [] := by simpa [List.flatMap_eq_nil_iff] using ht
      refine subst_con_eq_ok.mpr ⟨us.map (replaceVars f), ?_, by simp⟩
      exact mapM_map_of_ok (fun a ha b hb => ih a ha (hargs a ha) hb) hus
  | param i =>
      rw [subst] at h ⊢
      obtain ⟨hi, hu, -⟩ := replacement_eq_ok.mp h
      refine replacement_eq_ok.mpr ⟨hi, by simp [hu], hrs u (List.mem_of_getElem? hu)⟩
  | var v => simp at ht

/-- The variables of a type after replacing its parameters are among its own and those of what
stands for the parameters. -/
theorem mem_vars_subst {rs : List Ty} {t u : Ty} (h : t.subst rs = .ok u) {v : Var}
    (hv : v ∈ u.vars) : v ∈ t.vars ∨ ∃ r ∈ rs, v ∈ r.vars := by
  induction t using induction generalizing u with
  | con id args ih =>
      obtain ⟨us, hus, rfl⟩ := subst_con_eq_ok.mp h
      obtain ⟨b, hb, hv⟩ : ∃ b ∈ us, v ∈ b.vars := by simpa using hv
      obtain ⟨a, ha, hab⟩ := exists_of_mem_mapM hus hb
      rcases ih a ha hab hv with hv | hv
      · exact Or.inl (by simpa using ⟨a, ha, hv⟩)
      · exact Or.inr hv
  | param i =>
      rw [subst] at h
      obtain ⟨-, hu, -⟩ := replacement_eq_ok.mp h
      exact Or.inr ⟨u, List.mem_of_getElem? hu, hv⟩
  | var w =>
      rw [subst, Except.ok.injEq] at h
      exact Or.inl (h ▸ hv)

end Ty

namespace Reference

theorem subst_eq_ok {rs : List Ty} {r u : Reference} :
    r.subst rs = .ok u ↔ u.id = r.id ∧ r.self.subst rs = .ok u.self ∧
      r.params.mapM (Ty.subst rs) = .ok u.params := by
  rw [subst, Ty.substAll_eq_mapM]
  obtain ⟨id, self, params⟩ := u
  cases r.self.subst rs with
  | error e => simp [bind, Except.bind]
  | ok s =>
      cases r.params.mapM (Ty.subst rs) with
      | error e => simp [bind, Except.bind]
      | ok ps => simp [bind, Except.bind, pure, Except.pure, eq_comm]

/-- A reference without inference variables. -/
def VarFree (r : Reference) : Prop :=
  ∀ t ∈ r.types, t.vars = []

instance (r : Reference) : Decidable r.VarFree :=
  inferInstanceAs (Decidable (∀ t ∈ r.types, t.vars = []))

theorem subst_map_replaceVars {rs : List Ty} {f : Var → Ty}
    (hrs : ∀ t ∈ rs, (t.replaceVars f).NotParam) {r u : Reference} (hr : r.VarFree)
    (h : r.subst rs = .ok u) :
    r.subst (rs.map (Ty.replaceVars f)) = .ok (u.replaceVars f) := by
  obtain ⟨hid, hself, hparams⟩ := subst_eq_ok.mp h
  refine subst_eq_ok.mpr ⟨hid, ?_, ?_⟩
  · exact Ty.subst_map_replaceVars hrs (hr r.self (by simp [types])) hself
  · exact mapM_map_of_ok
      (fun t ht b hb => Ty.subst_map_replaceVars hrs (hr t (by simp [types, ht])) hb) hparams

theorem mem_vars_subst {rs : List Ty} {r u : Reference} (h : r.subst rs = .ok u) {v : Var}
    (hv : ∃ t ∈ u.types, v ∈ t.vars) : (∃ t ∈ r.types, v ∈ t.vars) ∨ ∃ t ∈ rs, v ∈ t.vars := by
  obtain ⟨-, hself, hparams⟩ := subst_eq_ok.mp h
  obtain ⟨t, ht, hv⟩ := hv
  have hsource : ∃ s ∈ r.types, s.subst rs = .ok t := by
    rcases List.mem_cons.mp ht with rfl | ht
    · exact ⟨r.self, by simp [types], hself⟩
    · obtain ⟨s, hs, hst⟩ := exists_of_mem_mapM hparams ht
      exact ⟨s, by simp [types, hs], hst⟩
  obtain ⟨s, hs, hst⟩ := hsource
  exact (Ty.mem_vars_subst hst hv).imp_left fun h => ⟨s, hs, h⟩

theorem replaceVars_replaceVars (f g : Var → Ty) (r : Reference) :
    (r.replaceVars f).replaceVars g = r.replaceVars fun v => (f v).replaceVars g := by
  simp [replaceVars, Ty.replaceVars_replaceVars]

/-- Two replacements make two references equal exactly when they do so part by part. -/
theorem replaceVars_eq_iff {f g : Var → Ty} {r u : Reference} :
    r.replaceVars f = u.replaceVars g ↔ r.id = u.id ∧
      r.types.map (Ty.replaceVars f) = u.types.map (Ty.replaceVars g) := by
  simp [replaceVars, types]

end Reference

end TraitResolution
