import TraitResolution.Proofs.Invariants
import TraitResolution.Proofs.Replacement

/-!
# Bindings as equations

A binding is an equation between a variable and its value, and a replacement of variables solves an
environment when it satisfies all of them. Looking through bindings never leaves the solutions. When
no variable is reachable from its own value, replacing every variable by what it resolves to is a
solution too, and every other one factors through it.

## Implementation notes

Acyclicity is the existence of a rank that decreases from a bound variable to the variables of its
value. The rank itself can be any number, but `Env.below`, the number of bindings of lower rank, is
less than the length of the trail. It bounds the paths through the bindings, so the length of the
trail is enough for `Env.shallow` and `Env.resolve`.
-/

namespace TraitResolution

theorem countP_lt_countP {α : Type} {l : List α} {p q : α → Bool} {a : α}
    (h : ∀ x ∈ l, p x → q x) (ha : a ∈ l) (hp : p a = false) (hq : q a = true) :
    l.countP p < l.countP q := by
  obtain ⟨before, after, rfl⟩ := List.append_of_mem ha
  have hbefore : before.countP p ≤ before.countP q :=
    List.countP_mono_left fun x hx => h x (by simp [hx])
  have hafter : after.countP p ≤ after.countP q :=
    List.countP_mono_left fun x hx => h x (by simp [hx])
  simp only [List.countP_append, List.countP_cons, hp, hq]
  simp only [Bool.false_eq_true, if_false, if_true]
  omega

namespace Env

variable {env later : Env} {v w : Var} {t u : Ty} {f : Var → Ty}

/-- A variable that has been created and not been forgotten. -/
def Live (env : Env) (v : Var) : Prop :=
  v.index < env.count ∧ v.generation = 0

instance (env : Env) (v : Var) : Decidable (env.Live v) :=
  inferInstanceAs (Decidable (_ ∧ _))

/-- A type over the variables of an environment. -/
def Covers (env : Env) (t : Ty) : Prop :=
  ∀ v ∈ t.vars, env.Live v

instance (env : Env) (t : Ty) : Decidable (env.Covers t) :=
  inferInstanceAs (Decidable (∀ v ∈ t.vars, env.Live v))

theorem Extends.live (h : later.Extends env) (hv : env.Live v) : later.Live v :=
  ⟨Nat.lt_of_lt_of_le hv.1 h.count, hv.2⟩

theorem Extends.covers (h : later.Extends env) (ht : env.Covers t) : later.Covers t :=
  fun v hv => h.live (ht v hv)

theorem mem_of_value? (h : env.value? v = some t) : ⟨v, t⟩ ∈ env.trail := by
  obtain ⟨b, hb, rfl⟩ := Option.map_eq_some_iff.mp h
  have hvar : b.var = v := by simpa using List.find?_some hb
  exact hvar ▸ List.mem_of_find?_eq_some hb

theorem value?_eq_none : env.value? v = none ↔ ∀ b ∈ env.trail, b.var ≠ v := by
  simp [value?]

theorem shallowWithin_of_values {P : Ty → Prop}
    (hvalue : ∀ {v u}, env.value? v = some u → P (.var v) → P u) (n : Nat) (ht : P t) :
    P (env.shallowWithin n t) := by
  induction n generalizing t with
  | zero => simpa [shallowWithin] using ht
  | succ n ih =>
      cases t with
      | con id args => simpa [shallowWithin] using ht
      | param i => simpa [shallowWithin] using ht
      | var v =>
          simp only [shallowWithin]
          split
          · rename_i u hu
            exact ih (hvalue hu ht)
          · exact ht

/-- What every bound variable hands on to its value, a type hands on to what is at its root. -/
theorem shallow_of_values {P : Ty → Prop}
    (hvalue : ∀ {v u}, env.value? v = some u → P (.var v) → P u) (ht : P t) : P (env.shallow t) :=
  shallowWithin_of_values hvalue env.len ht

/-- A replacement of variables that satisfies every binding. -/
def SolvedBy (env : Env) (f : Var → Ty) : Prop :=
  ∀ b ∈ env.trail, f b.var = b.value.replaceVars f

theorem SolvedBy.of_extends (h : later.SolvedBy f) (hextends : later.Extends env) :
    env.SolvedBy f :=
  fun b hb => h b (hextends.trail.subset hb)

theorem solvedBy_bound :
    (env.bound v t).SolvedBy f ↔ env.SolvedBy f ∧ f v = t.replaceVars f := by
  simp only [SolvedBy, bound, List.forall_mem_cons]
  exact And.comm

theorem SolvedBy.value? (h : env.SolvedBy f) (hv : env.value? v = some t) :
    f v = t.replaceVars f :=
  h ⟨v, t⟩ (mem_of_value? hv)

/-- A solution does not tell a type from what it is at its root. -/
theorem SolvedBy.shallow (h : env.SolvedBy f) (t : Ty) :
    (env.shallow t).replaceVars f = t.replaceVars f := by
  apply shallow_of_values (P := fun s => s.replaceVars f = t.replaceVars f) ?_ rfl
  intro v u hu hv
  rw [← h.value? hu, ← hv, Ty.replaceVars_var]

theorem SolvedBy.resolveWithin (h : env.SolvedBy f) (n : Nat) (t : Ty) :
    (env.resolveWithin n t).replaceVars f = t.replaceVars f := by
  induction n generalizing t with
  | zero => simp [Env.resolveWithin]
  | succ n ih =>
      rw [Env.resolveWithin, Ty.replaceVars_replaceVars]
      apply Ty.replaceVars_congr
      intro v _
      split
      · rename_i u hu
        rw [ih, h.value? hu]
      · simp

/-- A solution does not tell a type from its resolved form. -/
theorem SolvedBy.resolve (h : env.SolvedBy f) (t : Ty) :
    (env.resolve t).replaceVars f = t.replaceVars f :=
  h.resolveWithin env.len t

/-- What each variable resolves to. -/
def answer (env : Env) (v : Var) : Ty :=
  env.resolve (.var v)

theorem resolveWithin_eq_replaceVars (n : Nat) (t : Ty) :
    env.resolveWithin n t = t.replaceVars fun v => env.resolveWithin n (.var v) := by
  cases n with
  | zero => simp [resolveWithin]
  | succ n => simp [resolveWithin]

/-- Resolving a type is replacing each variable by what it resolves to. -/
theorem resolve_eq_replaceVars (env : Env) (t : Ty) : env.resolve t = t.replaceVars env.answer :=
  resolveWithin_eq_replaceVars env.len t

theorem resolveRef_eq_replaceVars (env : Env) (r : Reference) :
    env.resolveRef r = r.replaceVars env.answer := by
  simp [resolveRef, Reference.replaceVars, resolve_eq_replaceVars]

section Rank

variable {rank : Var → Nat}

/-- A rank that decreases from each bound variable to the variables of its value. -/
def Ranked (env : Env) (rank : Var → Nat) : Prop :=
  ∀ b ∈ env.trail, ∀ w ∈ b.value.vars, rank w < rank b.var

/-- The number of bindings of variables with a lower rank. -/
def below (env : Env) (rank : Var → Nat) (v : Var) : Nat :=
  env.trail.countP fun b => decide (rank b.var < rank v)

theorem below_lt_len (hv : env.value? v = some t) : env.below rank v < env.len := by
  have htrue : env.len = env.trail.countP fun _ => true := by simp [len]
  rw [below, htrue]
  exact countP_lt_countP (by simp) (mem_of_value? hv) (by simp) rfl

theorem Ranked.below_lt_below (h : env.Ranked rank) (hv : env.value? v = some t)
    (hw : w ∈ t.vars) (hbound : env.value? w = some u) :
    env.below rank w < env.below rank v := by
  have hlt : rank w < rank v := h ⟨v, t⟩ (mem_of_value? hv) w hw
  refine countP_lt_countP (fun b _ hb => ?_) (mem_of_value? hbound) (by simp) (by simpa using hlt)
  have hbw : rank b.var < rank w := of_decide_eq_true hb
  exact decide_eq_true (Nat.lt_trans hbw hlt)

/-- Every bound variable of a type has fewer than `n` bindings below it. -/
def Within (env : Env) (rank : Var → Nat) (n : Nat) (t : Ty) : Prop :=
  ∀ v ∈ t.vars, ∀ u, env.value? v = some u → env.below rank v < n

theorem within_len (t : Ty) : env.Within rank env.len t :=
  fun _ _ _ hu => below_lt_len hu

theorem Ranked.within_value (h : env.Ranked rank) {n : Nat} (hv : env.value? v = some t)
    (hn : env.below rank v < n + 1) : env.Within rank n t := by
  intro w hw u hu
  have hlt := h.below_lt_below hv hw hu
  omega

theorem Ranked.resolveWithin_succ (h : env.Ranked rank) {n : Nat} (ht : env.Within rank n t) :
    env.resolveWithin (n + 1) t = env.resolveWithin n t := by
  induction n generalizing t with
  | zero =>
      rw [resolveWithin, resolveWithin]
      refine (Ty.replaceVars_congr fun v hv => ?_).trans (Ty.replaceVars_self t)
      split
      · rename_i u hu
        exact absurd (ht v hv u hu) (Nat.not_lt_zero _)
      · rfl
  | succ n ih =>
      rw [resolveWithin, resolveWithin]
      apply Ty.replaceVars_congr
      intro v hv
      split
      · rename_i u hu
        exact ih (h.within_value hu (ht v hv u hu))
      · rfl

theorem Ranked.value?_of_mem_resolveWithin (h : env.Ranked rank) {n : Nat}
    (ht : env.Within rank n t) (hw : w ∈ (env.resolveWithin n t).vars) : env.value? w = none := by
  induction n generalizing t with
  | zero =>
      apply Option.eq_none_iff_forall_ne_some.mpr
      intro u hu
      exact absurd (ht w hw u hu) (Nat.not_lt_zero _)
  | succ n ih =>
      rw [resolveWithin] at hw
      obtain ⟨v, hv, hw⟩ := Ty.mem_vars_replaceVars.mp hw
      split at hw
      · rename_i u hu
        exact ih (h.within_value hu (ht v hv u hu)) hw
      · rename_i hnone
        rw [Ty.vars_var, List.mem_singleton] at hw
        exact hw ▸ hnone

theorem Ranked.value?_of_shallowWithin (h : env.Ranked rank) {n : Nat}
    (ht : env.Within rank n t) (hw : env.shallowWithin n t = .var w) : env.value? w = none := by
  induction n generalizing t with
  | zero =>
      apply Option.eq_none_iff_forall_ne_some.mpr
      intro u hu
      have hmem : w ∈ t.vars := by
        have hroot : t = .var w := by simpa [shallowWithin] using hw
        simp [hroot]
      exact absurd (ht w hmem u hu) (Nat.not_lt_zero _)
  | succ n ih =>
      cases t with
      | con id args => simp [shallowWithin] at hw
      | param i => simp [shallowWithin] at hw
      | var v =>
          simp only [shallowWithin] at hw
          split at hw
          · rename_i u hu
            exact ih (h.within_value hu (ht v (by simp) u hu)) hw
          · rename_i hnone
            exact Ty.var.inj hw ▸ hnone

end Rank

end Env

end TraitResolution
