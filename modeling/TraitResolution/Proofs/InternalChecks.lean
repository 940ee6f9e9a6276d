import TraitResolution.Proofs.Consistency

/-!
# The engine never loses track of its own state

Four of the reasons for giving up do not concern what the engine is given. A variable is bound a
second time, a snapshot lies beyond the end of the trail, a candidate or a trait that was found to
apply does so no longer: each of these would show that an earlier step was undone wrongly. They
never arise, from whatever environment clients can come to and whatever types they use.

## Implementation notes

No operation goes on after a part of it gave up, so a check that fails in its course shows in its
outcome. That the outcome is none of these four is part of the invariant `Engine.consistency`.
-/

namespace TraitResolution

/-- The environments that clients come to from the empty one, with whatever operations they make of
those the engine offers. They may go on from where an operation gave up. -/
inductive Env.Attained : Env → Prop
  | empty : Attained .empty
  | run {env : Env} {α : Type} {x : Engine α} (henv : Attained env)
      (hx : Engine.Above Env.empty.snapshot x) : Attained (x.run env).env

namespace Engine

open Operation

variable {α β : Type} {env : Env}

/-- Started in `env`, the operation does not give up on an internal check. -/
def PassesChecks (x : Engine α) (env : Env) : Prop :=
  ∀ m, (x.run env).outcome = .error m → ¬m.cause.Internal

/-- The operations that run in the course of another one, each with the environment it starts in. A
probe goes back after it, and so does an attempt that does not return `true`. -/
inductive RunsIn : {α β : Type} → Engine α → Env → Engine β → Env → Prop
  | self {α : Type} (x : Engine α) (env : Env) : RunsIn x env x env
  | first {α β γ : Type} {x : Engine α} {f : α → Engine β} {y : Engine γ} {env mid : Env}
      (h : RunsIn x env y mid) : RunsIn (x >>= f) env y mid
  | second {α β γ : Type} {x : Engine α} {f : α → Engine β} {y : Engine γ} {env later mid : Env}
      {a : α} (hx : x.Returns env a later) (h : RunsIn (f a) later y mid) :
      RunsIn (x >>= f) env y mid
  | isolated {α β : Type} {x : Engine α} {y : Engine β} {env mid : Env}
      (h : RunsIn x .empty y mid) : RunsIn (isolated x) env y mid
  | probe {α β : Type} {x : Engine α} {y : Engine β} {env mid : Env} (h : RunsIn x env y mid) :
      RunsIn (probe x) env y mid
  | afterProbe {α : Type} (x : Engine α) (env : Env) :
      RunsIn (probe x) env (rollback env.snapshot) (x.run env).env
  | attempt {β : Type} {x : Engine Bool} {y : Engine β} {env mid : Env} (h : RunsIn x env y mid) :
      RunsIn (attempt x) env y mid
  | afterAttempt {x : Engine Bool} {env : Env} (h : (x.run env).outcome ≠ .ok true) :
      RunsIn (attempt x) env (rollback env.snapshot) (x.run env).env

/-- A rollback that fails is an internal failure of the probe it belongs to. -/
theorem PassesChecks.of_probe {x : Engine α} (h : PassesChecks (probe x) env) :
    PassesChecks x env ∧ PassesChecks (rollback env.snapshot) (x.run env).env := by
  simp only [PassesChecks, run, Engine.probe, Execution.unwound] at h ⊢
  cases hback : (rollback env.snapshot (x env).env).outcome with
  | ok _ =>
      rw [hback] at h
      exact ⟨h, by simp⟩
  | error m =>
      rw [hback] at h
      have hinternal : m.cause.Internal := by
        rw [rollback] at hback
        split at hback
        · obtain rfl := Except.error.inj hback
          exact trivial
        · cases hback
      exact absurd hinternal (h m rfl)

theorem PassesChecks.of_attempt {x : Engine Bool} (h : PassesChecks (attempt x) env) :
    PassesChecks x env ∧ ((x.run env).outcome ≠ .ok true →
      PassesChecks (rollback env.snapshot) (x.run env).env) := by
  by_cases htrue : (x.run env).outcome = .ok true
  · refine ⟨fun m hm => ?_, fun hne => absurd htrue hne⟩
    rw [htrue] at hm
    cases hm
  · rw [PassesChecks, attempt_run_of_ne_true htrue] at h
    have hparts := PassesChecks.of_probe h
    exact ⟨hparts.1, fun _ => hparts.2⟩

theorem PassesChecks.of_bind {x : Engine α} {f : α → Engine β}
    (h : PassesChecks (x >>= f) env) :
    PassesChecks x env ∧ ∀ {a later}, x.Returns env a later → PassesChecks (f a) later := by
  constructor
  · intro m hm
    exact h m (givesUp_bind.mpr (Or.inl ⟨hm, rfl⟩)).1
  · intro a later ha m hm
    exact h m (givesUp_bind.mpr (Or.inr ⟨a, later, ha, hm, rfl⟩)).1

/-- A check that fails in the course of an operation makes the operation fail. -/
theorem PassesChecks.of_runsIn {x : Engine α} {y : Engine β} {mid : Env}
    (hx : PassesChecks x env) (h : RunsIn x env y mid) : PassesChecks y mid := by
  induction h with
  | self x env => exact hx
  | first _ ih => exact ih hx.of_bind.1
  | second ha _ ih => exact ih (hx.of_bind.2 ha)
  | isolated _ ih => exact ih hx
  | probe _ ih => exact ih hx.of_probe.1
  | afterProbe x env => exact hx.of_probe.2
  | attempt _ ih => exact ih hx.of_attempt.1
  | afterAttempt hne => exact hx.of_attempt.2 hne

end Engine

namespace Env

variable {env : Env}

theorem Attained.consistent (h : env.Attained) : env.Consistent := by
  induction h with
  | empty => exact valid_empty.toConsistent
  | run _ hx ih => exact hx.consistent ih

/-- The environments that unifications of types over existing variables lead to are among those. -/
theorem Reachable.attained (h : env.Reachable) : env.Attained := by
  obtain ⟨ss, h⟩ := h
  induction h with
  | empty => exact .empty
  | fresh _ ih => exact ih.run .fresh
  | unify _ _ _ ih => exact ih.run (.unify _ _)
  | unifyAll _ _ _ ih => exact ih.run (.unifyAll _ _)
  | unifyReferences _ _ _ ih => exact ih.run (.unifyReferences _ _)
  | snapshot _ ih => exact ih
  | rollback _ ih => exact ih.run (.rollback _ (Nat.zero_le _) (Nat.zero_le _))

end Env

namespace Engine

open Operation

/-- The operations that the engine offers and that may give up. -/
inductive Offered : {α : Type} → Engine α → Prop
  | resolve (config : Config) (program : Program) (os : List Obligation) :
      Offered (Solver.resolve config program os)
  | call (config : Config) (program : Program) (receiver : Ty) (traits : List Trait) (name : Text) :
      Offered (MethodCall.resolve config program receiver traits name)
  | check (config : Config) (program : Program) : Offered (Coherence.check config program)
  | unify (a b : Ty) : Offered (unify a b)
  | unifyAll (as bs : List Ty) : Offered (unifyAll as bs)
  | unifyReferences (r s : Reference) : Offered (unifyReferences r s)

theorem Offered.passesChecks {α : Type} {x : Engine α} {env : Env} (h : Offered x)
    (henv : env.Consistent) : PassesChecks x env := by
  cases h with
  | resolve config program os => exact (Solver.upholds_consistency config program os henv).cause
  | call config program receiver traits name =>
      exact (MethodCall.upholds_consistency config program receiver traits name henv).cause
  | check config program => exact (Coherence.upholds_consistency config program henv).cause
  | unify a b => exact (upholds_unify consistency a b henv).cause
  | unifyAll as bs => exact (upholds_unifyAll consistency as bs henv).cause
  | unifyReferences r s => exact (upholds_unifyReferences consistency r s henv).cause

/-- No internal check fails, in whatever environment clients come to. Resolutions, method calls,
coherence checks and unifications may give up, but nothing that runs in their course does so because
a variable would be bound twice, a rollback would go past the end of the trail, or a candidate or
trait that was found to apply does so no longer. The rollbacks of the attempts and probes that
clients make themselves go back to where these began. -/
theorem internal_checks_pass {env : Env} (henv : env.Attained) :
    (∀ {α β : Type} {x : Engine α} {y : Engine β} {mid : Env}, Offered x → RunsIn x env y mid →
      ∀ m, (y.run mid).outcome = .error m → ¬m.cause.Internal) ∧
    ∀ {α : Type} (x : Engine α), Above env.snapshot x →
      (rollback env.snapshot).Returns (x.run env).env () env := by
  constructor
  · intro α β x y mid hx hruns
    exact (hx.passesChecks henv.consistent).of_runsIn hruns
  · intro α x hx
    exact rollback_of_extends (hx.adds (Env.Adds.refl env)).extends_env

/-- A list of a type parameter is printed. -/
def unprintable : List Obligation :=
  [.topLevel "list" ⟨"Print", .con "List" [.param 0], []⟩]

/-- After an attempt that gave up, a resolution gives up for a reason that lies in what it was
given. -/
theorem internal_checks_pass_tryPrinting :
    ∃ env : Env, env.Attained ∧ env.value? ⟨0, 0⟩ = some (.con "Int" []) ∧
      ∃ m, ((Solver.resolve .default printing unprintable).run env).outcome = .error m ∧
        ¬m.cause.Internal := by
  have hattained : (tryPrinting.run Env.empty.created).env.Attained :=
    .run (.run .empty .fresh) (above_tryPrinting _)
  have hgivesUp : ∃ m, ((Solver.resolve .default printing unprintable).run
      (tryPrinting.run Env.empty.created).env).outcome = .error m := ⟨_, rfl⟩
  obtain ⟨m, hm⟩ := hgivesUp
  exact ⟨_, hattained, by decide +kernel, m, hm,
    (internal_checks_pass hattained).1 (.resolve .default printing unprintable) (.self _ _) m hm⟩

end Engine

end TraitResolution
