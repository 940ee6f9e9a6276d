import TraitResolution.Event

/-! # The engine

An operation starts from an environment and either returns or gives up. Either way it leaves an
environment behind and has reported events on the way. Nothing an operation does depends on the
events reported before it.
-/

namespace TraitResolution

/-- The run of an operation: how it ended, the environment it left, and what it reported. -/
structure Execution (ε α : Type) where
  outcome : Except ε α
  env : Env
  events : List Occurrence

/-- An operation on an environment, which may give up for a reason in `ε`. -/
def Operation (ε α : Type) : Type :=
  Env → Execution ε α

/-- An operation that gives up on malformed programs. -/
abbrev Engine : Type → Type :=
  Operation Malformed

namespace Execution

variable {ε ε' α β : Type}

/-- Go on with an operation, unless the run gave up. -/
def follow (x : Execution ε α) (f : α → Operation ε β) : Execution ε β :=
  match x.outcome with
  | .ok a =>
    let y := f a x.env
    ⟨y.outcome, y.env, x.events ++ y.events⟩
  | .error e => ⟨.error e, x.env, x.events⟩

/-- The same run with another reason for giving up. -/
def mapError (f : ε → ε') (x : Execution ε α) : Execution ε' α :=
  ⟨x.outcome.mapError f, x.env, x.events⟩

end Execution

namespace Operation

variable {ε ε' α β γ : Type}

/-- Run an operation. -/
def run (x : Operation ε α) (env : Env) : Execution ε α :=
  x env

instance : Monad (Operation ε) where
  pure a := fun env => ⟨.ok a, env, []⟩
  bind x f := fun env => (x env).follow f

theorem bind_run (x : Operation ε α) (f : α → Operation ε β) (env : Env) :
    (x >>= f) env = (x env).follow f :=
  rfl

theorem pure_run (a : α) (env : Env) : (pure a : Operation ε α) env = ⟨.ok a, env, []⟩ :=
  rfl

theorem bind_pure_self (x : Operation ε α) : x >>= pure = x := by
  funext env
  rw [bind_run]
  cases x env with
  | mk outcome left events => cases outcome <;> simp [Execution.follow, pure_run]

theorem pure_bind_eq (a : α) (f : α → Operation ε β) : pure a >>= f = f a := by
  funext env
  simp [bind_run, pure_run, Execution.follow]

theorem bind_bind (x : Operation ε α) (f : α → Operation ε β) (g : β → Operation ε γ) :
    x >>= f >>= g = x >>= fun a => f a >>= g := by
  funext env
  simp only [bind_run]
  cases x env with
  | mk outcome left events =>
    cases outcome with
    | error e => rfl
    | ok a =>
      simp only [Execution.follow, bind_run]
      cases f a left with
      | mk outcome' left' events' => cases outcome' <;> simp

instance : LawfulMonad (Operation ε) :=
  LawfulMonad.mk' (Operation ε) bind_pure_self pure_bind_eq bind_bind

/-- The same operation with another reason for giving up. -/
def mapError (f : ε → ε') (x : Operation ε α) : Operation ε' α :=
  fun env => (x env).mapError f

end Operation

namespace Engine

variable {α β : Type}

/-- Give up. -/
def fail (cause : Cause) : Engine α :=
  fun env => ⟨.error ⟨cause, env⟩, env, []⟩

/-- The present environment. -/
def present {ε : Type} : Operation ε Env :=
  fun env => ⟨.ok env, env, []⟩

/-- Report an event. -/
def report (event : Event) : Engine Unit :=
  fun env => ⟨.ok (), env, [⟨event, env⟩]⟩

/-- Give up where type parameters cannot be replaced. -/
def ofSubst : Except SubstError α → Engine α
  | .ok a => pure a
  | .error e => fail (.subst e)

/-- Run an operation in an environment of its own. -/
def isolated (x : Engine α) : Engine α :=
  fun env => { x .empty with env := env }

/-- Create a variable. -/
def fresh : Engine Var :=
  fun env => ⟨.ok env.nextVar, env.created, []⟩

/-- Create `n` variables. -/
def freshTypes : Nat → Engine (List Ty)
  | 0 => pure []
  | n + 1 => do
    let v ← fresh
    let ts ← freshTypes n
    pure (.var v :: ts)

/-- Bind a variable. -/
def bindVar (v : Var) (t : Ty) : Engine Unit := fun env =>
  if (env.value? v).isSome then
    fail (.alreadyBound v) env
  else if env.hasParams t then
    fail (.bindsParam v t) env
  else
    ⟨.ok (), env.bound v t, []⟩

/-- Undo the bindings made since a snapshot, and forget the variables created since. -/
def rollback (s : Snapshot) : Engine Unit := fun env =>
  if env.len < s.trail then
    fail (.rollbackPastEnd s.trail env.len) env
  else
    let events : List Occurrence :=
      if s.trail < env.len then [⟨.rolledBack (env.len - s.trail) s.trail, env⟩] else []
    ⟨.ok (), env.restored s, events⟩

end Engine

namespace Execution

variable {α : Type}

/-- Roll back after a run, however it ended. A rollback that gives up replaces the outcome. -/
def unwound (x : Execution Malformed α) (s : Snapshot) : Execution Malformed α :=
  let undo := Engine.rollback s x.env
  let events := x.events ++ undo.events
  match undo.outcome with
  | .ok () => ⟨x.outcome, undo.env, events⟩
  | .error m => ⟨.error m, undo.env, events⟩

/-- Roll back after a run unless it returned `true`. -/
def settled (x : Execution Malformed Bool) (s : Snapshot) : Execution Malformed Bool :=
  match x.outcome with
  | .ok true => x
  | _ => x.unwound s

end Execution

namespace Engine

variable {α : Type}

/-- Run an operation and keep what it did only if it returns `true`. -/
def attempt (x : Engine Bool) : Engine Bool :=
  fun env => (x env).settled env.snapshot

/-- Run an operation and keep nothing of what it did. -/
def probe (x : Engine α) : Engine α :=
  fun env => (x env).unwound env.snapshot

end Engine

end TraitResolution
