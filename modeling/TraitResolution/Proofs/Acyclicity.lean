import Mathlib.Logic.Relation
import TraitResolution.Proofs.Validity

/-!
# Looking through bindings comes to an end

Everything that looks through bindings goes from a bound variable to its value and from a
constructor to its arguments. In a valid environment no such path is infinite. The functions of
environments that look through bindings may pass only so many of them, and that limit is never felt:
they satisfy the equations they would satisfy without it.

## Implementation notes

A rank that decreases along the bindings bounds the paths between variables, and the structure of a
type those inside it. The two are combined by accessibility, variables first.
-/

namespace TraitResolution

namespace Env

variable {env : Env} {v w : Var} {t u : Ty} {rank : Var → Nat}

/-- A variable leads to the variables of its value. -/
def Leads (env : Env) (v w : Var) : Prop :=
  ∃ t, env.value? v = some t ∧ w ∈ t.vars

theorem Ranked.lt_of_transGen (h : env.Ranked rank) (hvw : Relation.TransGen env.Leads v w) :
    rank w < rank v := by
  induction hvw with
  | single hlead =>
      obtain ⟨t, ht, hw⟩ := hlead
      exact h ⟨v, t⟩ (mem_of_value? ht) _ hw
  | @tail x y _ hlead ih =>
      obtain ⟨t, ht, hw⟩ := hlead
      exact Nat.lt_trans (h ⟨x, t⟩ (mem_of_value? ht) y hw) ih

/-- One step of looking into a type: to the value of a bound variable, or to an argument of a
constructor. -/
inductive Opens (env : Env) : Ty → Ty → Prop
  | value {v : Var} {t : Ty} (h : env.value? v = some t) : Opens env t (.var v)
  | arg {id : String} {args : List Ty} {a : Ty} (h : a ∈ args) : Opens env a (.con id args)

/-- Every path into a type ends if every path from one of its variables does. -/
theorem acc_opens_of_vars (h : ∀ v ∈ t.vars, Acc env.Opens (.var v)) : Acc env.Opens t := by
  induction t using Ty.induction with
  | con id args ih =>
      constructor
      intro a ha
      cases ha with
      | arg hmem =>
          apply ih a hmem
          intro v hv
          exact h v (by simpa using ⟨a, hmem, hv⟩)
  | param i =>
      constructor
      intro a ha
      cases ha
  | var v => exact h v (by simp)

theorem Ranked.acc_opens_var (h : env.Ranked rank) (v : Var) : Acc env.Opens (.var v) := by
  induction hn : rank v using Nat.strong_induction_on generalizing v with
  | h n ih =>
      constructor
      intro t ht
      cases ht with
      | value hv =>
          apply acc_opens_of_vars
          intro w hw
          have hlt : rank w < n := hn ▸ h ⟨v, t⟩ (mem_of_value? hv) w hw
          exact ih (rank w) hlt w rfl

theorem Ranked.shallowWithin_succ (h : env.Ranked rank) {n : Nat} (ht : env.Within rank n t) :
    env.shallowWithin (n + 1) t = env.shallowWithin n t := by
  induction n generalizing t with
  | zero =>
      cases t with
      | con id args => rfl
      | param i => rfl
      | var v =>
          simp only [shallowWithin]
          split
          · rename_i u hu
            exact absurd (ht v (by simp) u hu) (Nat.not_lt_zero _)
          · rfl
  | succ n ih =>
      cases t with
      | con id args => rfl
      | param i => rfl
      | var v =>
          rw [shallowWithin, shallowWithin]
          split
          · rename_i u hu
            exact ih (h.within_value hu (ht v (by simp) u hu))
          · rfl

theorem shallow_con (env : Env) (id : String) (args : List Ty) :
    env.shallow (.con id args) = .con id args := by
  unfold shallow
  cases env.len <;> rfl

theorem shallow_param (env : Env) (i : Int) : env.shallow (.param i) = .param i := by
  unfold shallow
  cases env.len <;> rfl

theorem shallow_of_unbound (hv : env.value? v = none) : env.shallow (.var v) = .var v := by
  unfold shallow
  cases env.len with
  | zero => rfl
  | succ n => simp [shallowWithin, hv]

/-- What it takes for looking through bindings to come to an end. Every path into a type is finite,
and the functions that follow such paths satisfy equations that mention no limit. The free variables
of a type are those of its resolved form. -/
structure Terminates (env : Env) : Prop where
  wellFounded : WellFounded env.Opens
  shallow_value : ∀ {v t}, env.value? v = some t → env.shallow (.var v) = env.shallow t
  shallow_root : ∀ {t}, (∀ v, t = .var v → env.value? v = none) → env.shallow t = t
  resolve_eq : ∀ t, env.resolve t =
    match env.shallow t with
    | .con id args => .con id (args.map env.resolve)
    | root => root
  vars_resolve : ∀ t, (env.resolve t).vars =
    match env.shallow t with
    | .con _ args => args.flatMap fun a => (env.resolve a).vars
    | .param _ => []
    | .var w => [w]
  hasParams_eq : ∀ t, env.hasParams t =
    match env.shallow t with
    | .con _ args => args.any env.hasParams
    | .param _ => true
    | .var _ => false
  occurs_eq : ∀ v t, env.occurs v t =
    match env.shallow t with
    | .con _ args => args.any (env.occurs v)
    | .param _ => false
    | .var w => decide (v = w)

namespace Valid

theorem not_leads_back (h : env.Valid) (v : Var) : ¬Relation.TransGen env.Leads v v := by
  obtain ⟨rank, hrank⟩ := h.acyclic
  intro hloop
  exact Nat.lt_irrefl _ (hrank.lt_of_transGen hloop)

theorem wellFounded_opens (h : env.Valid) : WellFounded env.Opens := by
  obtain ⟨rank, hrank⟩ := h.acyclic
  exact ⟨fun t => acc_opens_of_vars fun v _ => hrank.acc_opens_var v⟩

/-- A bound variable and its value are the same at the root. -/
theorem shallow_of_value? (h : env.Valid) (hv : env.value? v = some t) :
    env.shallow (.var v) = env.shallow t := by
  obtain ⟨rank, hrank⟩ := h.acyclic
  calc
    env.shallow (.var v) = env.shallowWithin (env.len + 1) (.var v) :=
      (hrank.shallowWithin_succ (within_len _)).symm
    _ = env.shallow t := by simp [shallowWithin, hv, shallow]

theorem resolve_shallow (h : env.Valid) (t : Ty) :
    env.resolve (env.shallow t) = env.resolve t := by
  rw [resolve_eq_replaceVars, resolve_eq_replaceVars, h.solvedBy_answer.shallow]

/-- To resolve a type is to look at its root and to resolve the arguments found there. -/
theorem resolve_eq (h : env.Valid) (t : Ty) :
    env.resolve t = match env.shallow t with
      | .con id args => .con id (args.map env.resolve)
      | root => root := by
  rw [← h.resolve_shallow]
  split
  · rename_i id args hcon
    have hargs : args.map env.resolve = args.map (Ty.replaceVars env.answer) :=
      List.map_congr_left fun a _ => env.resolve_eq_replaceVars a
    rw [hcon, hargs, resolve_eq_replaceVars, Ty.replaceVars_con]
  · rename_i hnot
    cases hshallow : env.shallow t with
    | con id args => exact absurd hshallow (hnot id args)
    | param i => simp [resolve_eq_replaceVars]
    | var w => exact answer_of_unbound (h.value?_of_shallow hshallow)

theorem terminates (h : env.Valid) : env.Terminates where
  wellFounded := h.wellFounded_opens
  shallow_value := h.shallow_of_value?
  shallow_root {t} hroot := by
    cases t with
    | con id args => exact env.shallow_con id args
    | param i => exact env.shallow_param i
    | var v => exact shallow_of_unbound (hroot v rfl)
  resolve_eq := h.resolve_eq
  vars_resolve t := by
    rw [h.resolve_eq t]
    cases env.shallow t with
    | con id args => simp [List.flatMap_map]
    | param i => simp
    | var w => simp
  hasParams_eq t := by
    rw [hasParams, h.resolve_eq t]
    cases env.shallow t with
    | con id args =>
        rw [Ty.hasParams_con, List.any_map]
        rfl
    | param i => simp
    | var w => simp
  occurs_eq v t := by
    rw [occurs, h.resolve_eq t]
    cases env.shallow t with
    | con id args =>
        rw [Bool.eq_iff_iff]
        simp [occurs]
    | param i => simp
    | var w => simp

end Valid

end Env

end TraitResolution
