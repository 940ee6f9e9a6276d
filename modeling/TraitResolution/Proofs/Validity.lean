import Mathlib.Algebra.Order.BigOperators.Group.List
import Mathlib.Algebra.Order.Group.Nat
import Mathlib.Data.List.Nodup
import TraitResolution.Proofs.Bindings

/-!
# Valid environments

The invariant of environments: each variable is bound at most once, only existing variables are
mentioned, no value holds a type parameter, a variable stands for older variables only, and the
bindings are acyclic. What the variables resolve to is a solution then. It is one already when the
environment is consistent, whatever its values mention.
-/

namespace TraitResolution

namespace Env

variable {env : Env} {v w : Var} {t u : Ty} {f : Var → Ty}

/-- Each variable is bound at most once, and none is reachable from its own value. -/
structure Consistent (env : Env) : Prop where
  distinct : (env.trail.map (·.var)).Nodup
  acyclic : ∃ rank, env.Ranked rank

/-- The invariant of environments. -/
structure Valid (env : Env) : Prop extends Consistent env where
  live : ∀ b ∈ env.trail, env.Live b.var ∧ env.Covers b.value
  paramFree : ∀ b ∈ env.trail, b.value.hasParams = false
  older : ∀ b ∈ env.trail, ∀ w, b.value = .var w → w.index < b.var.index

theorem valid_empty : Env.empty.Valid where
  distinct := List.nodup_nil
  acyclic := ⟨fun _ => 0, by simp [Ranked, empty]⟩
  live := by simp [empty]
  paramFree := by simp [empty]
  older := by simp [empty]

theorem answer_of_unbound (hv : env.value? v = none) : env.answer v = .var v := by
  cases hn : env.len with
  | zero => simp [answer, resolve, hn, resolveWithin]
  | succ n => simp [answer, resolve, hn, resolveWithin, hv]

theorem resolve_of_unbound (hv : env.value? v = none) : env.resolve (.var v) = .var v :=
  answer_of_unbound hv

namespace Consistent

theorem value?_of_mem (h : env.Consistent) {b : Binding} (hb : b ∈ env.trail) :
    env.value? b.var = some b.value := by
  cases hv : env.value? b.var with
  | none => exact absurd rfl (value?_eq_none.mp hv b hb)
  | some t =>
      have hbt : b = ⟨b.var, t⟩ :=
        List.inj_on_of_nodup_map h.distinct hb (mem_of_value? hv) rfl
      rw [hbt]

/-- Looking at the root of a type yields no bound variable. -/
theorem value?_of_shallow (h : env.Consistent) (hw : env.shallow t = .var w) :
    env.value? w = none := by
  obtain ⟨rank, hrank⟩ := h.acyclic
  exact hrank.value?_of_shallowWithin (within_len t) hw

/-- A resolved type mentions no bound variable. -/
theorem value?_of_mem_resolve (h : env.Consistent) (hw : w ∈ (env.resolve t).vars) :
    env.value? w = none := by
  obtain ⟨rank, hrank⟩ := h.acyclic
  exact hrank.value?_of_mem_resolveWithin (within_len t) hw

/-- A bound variable resolves to what its value resolves to. -/
theorem answer_of_value? (h : env.Consistent) (hv : env.value? v = some t) :
    env.answer v = env.resolve t := by
  obtain ⟨rank, hrank⟩ := h.acyclic
  calc
    env.answer v = env.resolveWithin (env.len + 1) (.var v) :=
      (hrank.resolveWithin_succ (within_len _)).symm
    _ = env.resolve t := by simp [resolveWithin, hv, resolve]

/-- What the variables of a consistent environment resolve to satisfies every binding. -/
theorem solvedBy_answer (h : env.Consistent) : env.SolvedBy env.answer := by
  intro b hb
  rw [h.answer_of_value? (h.value?_of_mem hb), resolve_eq_replaceVars]

theorem created (h : env.Consistent) : env.created.Consistent :=
  ⟨h.distinct, h.acyclic⟩

/-- A new binding keeps the bindings acyclic when the variable does not occur in the value. -/
theorem ranked_bound (h : env.Consistent) (hv : env.value? v = none)
    (hocc : v ∉ (env.resolve t).vars) :
    ∃ rank, (env.bound v t).Ranked rank := by
  obtain ⟨rank, hrank⟩ := h.acyclic
  -- everything that reaches `v` moves up, past all variables of the value
  let lift := (t.vars.map rank).sum + 1
  let raised : Var → Nat := fun w => if v ∈ (env.answer w).vars then rank w + lift else rank w
  have hinside : ∀ w ∈ t.vars, v ∉ (env.answer w).vars := by
    intro w hw hmem
    exact hocc (by rw [resolve_eq_replaceVars]; exact Ty.mem_vars_replaceVars.mpr ⟨w, hw, hmem⟩)
  refine ⟨raised, List.forall_mem_cons.mpr ⟨fun w hw => ?_, fun b hb w hw => ?_⟩⟩
  · have hself : v ∈ (env.answer v).vars := by simp [answer_of_unbound hv]
    have hle : rank w ≤ (t.vars.map rank).sum :=
      List.single_le_sum (fun _ _ => Nat.zero_le _) _ (List.mem_map_of_mem hw)
    simp only [raised, if_neg (hinside w hw), if_pos hself, lift]
    omega
  · have hlt : rank w < rank b.var := hrank b hb w hw
    have hreach : v ∈ (env.answer w).vars → v ∈ (env.answer b.var).vars := by
      intro hmem
      rw [h.answer_of_value? (h.value?_of_mem hb), resolve_eq_replaceVars]
      exact Ty.mem_vars_replaceVars.mpr ⟨w, hw, hmem⟩
    simp only [raised]
    split <;> split
    · omega
    · exact absurd (hreach ‹_›) ‹_›
    · omega
    · exact hlt

theorem bound (h : env.Consistent) (hv : env.value? v = none) (hocc : v ∉ (env.resolve t).vars) :
    (env.bound v t).Consistent where
  distinct := by
    refine List.nodup_cons.mpr ⟨fun hmem => ?_, h.distinct⟩
    obtain ⟨b, hb, hbv⟩ := List.mem_map.mp hmem
    exact value?_eq_none.mp hv b hb hbv
  acyclic := h.ranked_bound hv hocc

/-- After a variable is bound, types resolve to what they did before with the value in its place. -/
theorem resolve_bound (h : env.Consistent) (hv : env.value? v = none)
    (hocc : v ∉ (env.resolve u).vars) (t : Ty) :
    (env.bound v u).resolve t =
      (env.resolve t).replaceVars fun w => if w = v then env.resolve u else .var w := by
  have hsolved := (h.bound hv hocc).solvedBy_answer
  have hresolve : ∀ s, (env.bound v u).resolve s =
      (env.resolve s).replaceVars (env.bound v u).answer := by
    intro s
    rw [(hsolved.of_extends (env.extends_bound v u)).resolve, resolve_eq_replaceVars]
  -- a variable that is left over is one before, and only `v` is bound in the meantime
  have hother : ∀ s, ∀ w ∈ (env.resolve s).vars, w ≠ v → (env.bound v u).answer w = .var w := by
    intro s w hw hne
    apply answer_of_unbound
    refine value?_eq_none.mpr (List.forall_mem_cons.mpr ⟨hne.symm, ?_⟩)
    exact value?_eq_none.mp (h.value?_of_mem_resolve hw)
  have hself : (env.bound v u).answer v = env.resolve u := by
    calc
      (env.bound v u).answer v = (env.bound v u).resolve u := by
        rw [resolve_eq_replaceVars]
        exact (solvedBy_bound.mp hsolved).2
      _ = (env.resolve u).replaceVars .var := by
        rw [hresolve]
        exact Ty.replaceVars_congr fun w hw => hother u w hw (ne_of_mem_of_not_mem hw hocc)
      _ = env.resolve u := Ty.replaceVars_self _
  rw [hresolve]
  apply Ty.replaceVars_congr
  intro w hw
  split
  · rename_i hwv
    rw [hwv, hself]
  · rename_i hwv
    exact hother t w hw hwv

end Consistent

namespace Valid

theorem covers_of_value? (h : env.Valid) (hv : env.value? v = some t) : env.Covers t :=
  (h.live ⟨v, t⟩ (mem_of_value? hv)).2

/-- Variables that do not exist yet are not bound. -/
theorem value?_of_count_le (h : env.Valid) (hv : env.count ≤ v.index) : env.value? v = none := by
  refine value?_eq_none.mpr fun b hb => ?_
  rintro rfl
  exact absurd (h.live b hb).1.1 (Nat.not_lt.mpr hv)

theorem covers_shallow (h : env.Valid) (ht : env.Covers t) : env.Covers (env.shallow t) :=
  shallow_of_values (fun hu _ => h.covers_of_value? hu) ht

theorem covers_resolveWithin (h : env.Valid) (n : Nat) (ht : env.Covers t) :
    env.Covers (env.resolveWithin n t) := by
  induction n generalizing t with
  | zero => exact ht
  | succ n ih =>
      intro w hw
      rw [resolveWithin] at hw
      obtain ⟨v, hv, hw⟩ := Ty.mem_vars_replaceVars.mp hw
      split at hw
      · rename_i u hu
        exact ih (h.covers_of_value? hu) w hw
      · rw [Ty.vars_var, List.mem_singleton] at hw
        exact hw ▸ ht v hv

theorem covers_resolve (h : env.Valid) (ht : env.Covers t) : env.Covers (env.resolve t) :=
  h.covers_resolveWithin env.len ht

theorem hasParams_resolveWithin (h : env.Valid) (n : Nat) (ht : t.hasParams = false) :
    (env.resolveWithin n t).hasParams = false := by
  induction n generalizing t with
  | zero => exact ht
  | succ n ih =>
      apply Bool.eq_false_iff.mpr
      intro hparams
      rw [resolveWithin] at hparams
      rcases Ty.hasParams_replaceVars.mp hparams with hp | ⟨w, _, hp⟩
      · simp [ht] at hp
      · split at hp
        · rename_i u hu
          simp [ih (h.paramFree ⟨w, u⟩ (mem_of_value? hu))] at hp
        · simp at hp

theorem hasParams_answer (h : env.Valid) (v : Var) : (env.answer v).hasParams = false :=
  h.hasParams_resolveWithin env.len (Ty.hasParams_var v)

/-- Variables are numbered in the order of their creation. -/
theorem nextVar_eq (h : env.Valid) : env.nextVar = ⟨env.count, 0⟩ := by
  have hfresh : env.mentioned.filter (·.index == env.count) = [] := by
    apply List.filter_eq_nil_iff.mpr
    intro v hv heq
    obtain ⟨b, hb, hv⟩ := List.mem_flatMap.mp hv
    have hlive : env.Live v := by
      rcases List.mem_cons.mp hv with rfl | hv
      · exact (h.live b hb).1
      · exact (h.live b hb).2 v hv
    exact Nat.ne_of_lt hlive.1 (by simpa using heq)
  simp [nextVar, hfresh]

theorem created (h : env.Valid) : env.created.Valid where
  toConsistent := h.toConsistent.created
  live b hb := ⟨env.extends_created.live (h.live b hb).1,
    env.extends_created.covers (h.live b hb).2⟩
  paramFree := h.paramFree
  older := h.older

/-- Binding an unbound variable keeps an environment valid when the value has no type parameter,
does not lead back to the variable, and is no younger variable. -/
theorem bound (h : env.Valid) (hlive : env.Live v) (hcovers : env.Covers t)
    (hv : env.value? v = none) (hparams : env.hasParams t = false)
    (hocc : v ∉ (env.resolve t).vars) (holder : ∀ w, t = .var w → w.index < v.index) :
    (env.bound v t).Valid where
  toConsistent := h.toConsistent.bound hv hocc
  live := List.forall_mem_cons.mpr ⟨⟨hlive, hcovers⟩, h.live⟩
  paramFree := by
    refine List.forall_mem_cons.mpr ⟨Bool.eq_false_iff.mpr fun ht => ?_, h.paramFree⟩
    apply Bool.eq_false_iff.mp hparams
    rw [hasParams, resolve_eq_replaceVars]
    exact Ty.hasParams_replaceVars.mpr (Or.inl ht)
  older := List.forall_mem_cons.mpr ⟨holder, h.older⟩

end Valid

theorem mem_insertIndex {i j : Nat} {is : List Nat} : j ∈ insertIndex i is ↔ j = i ∨ j ∈ is := by
  induction is with
  | nil => simp [insertIndex]
  | cons k ks ih =>
      simp only [insertIndex]
      split
      · simp
      · split
        · rename_i hik
          simp [hik]
        · simp [ih, or_left_comm]

theorem mem_foldr_insertIndex {is : List Nat} {i : Nat} :
    i ∈ is.foldr insertIndex [] ↔ i ∈ is := by
  induction is with
  | nil => simp
  | cons j is ih => rw [List.foldr_cons, mem_insertIndex, ih, List.mem_cons]

/-- The free variables are those of the resolved types. -/
theorem mem_freeVars {ts : List Ty} {i : Nat} :
    i ∈ env.freeVars ts ↔ ∃ t ∈ ts, ∃ v ∈ (env.resolve t).vars, v.index = i := by
  simp [freeVars, mem_foldr_insertIndex]

/-- Types are fully bound when no variable is left in their resolved forms. -/
theorem fullyBound_iff {ts : List Ty} :
    env.fullyBound ts = true ↔ ∀ t ∈ ts, (env.resolve t).vars = [] := by
  simp only [fullyBound, List.isEmpty_iff, List.eq_nil_iff_forall_not_mem, mem_freeVars]
  constructor
  · exact fun h t ht v hv => h v.index ⟨t, ht, v, hv, rfl⟩
  · rintro h i ⟨t, ht, v, hv, -⟩
    exact h t ht v hv

end Env

end TraitResolution
