import TraitResolution.Proofs.Derivation

/-!
# Speculation leaves no trace

Going back pops the newest bindings off the trail and restores a counter. That undoes exactly what
was done since a snapshot if nothing else happened since: no binding of the snapshot's time was
popped in between, and no variable bound then was bound again. Resolutions, method calls and
coherence checks satisfy this, and so does every sequence of them that goes back to no earlier
moment, whether or not some of them give up.

## Implementation notes

An operation ends where a part of it gives up, and `Engine.Above` is about what clients put together
as one operation. `Env.Onward` is about what they do one after the other: they see that an operation
gave up and go on from what it left, also while an attempt or a probe of theirs is under way.
-/

namespace TraitResolution

namespace Env

variable {env later base : Env} {v : Var} {s : Snapshot}

/-- The values of an environment are those of an extension of it with the variables of the newer
bindings cleared. -/
theorem Adds.value?_eq (h : later.Adds env) : ∃ newer, later.trail = newer ++ env.trail ∧
    ∀ v, env.value? v = if v ∈ newer.map (·.var) then none else later.value? v := by
  obtain ⟨newer, hnewer, hunbound⟩ := h.trail
  refine ⟨newer, hnewer.symm, fun v => ?_⟩
  split
  · rename_i hv
    obtain ⟨b, hb, rfl⟩ := List.mem_map.mp hv
    have hnone : ∀ c ∈ env.trail, c.var ≠ b.var := hunbound b hb
    simpa [value?] using hnone
  · rename_i hv
    have hnone : newer.find? (·.var == v) = none := by
      rw [List.find?_eq_none]
      intro b hb heq
      exact hv (List.mem_map.mpr ⟨b, hb, by simpa using heq⟩)
    simp [value?, ← hnewer, List.find?_append, hnone]

/-- A variable keeps its value when an environment is added to. -/
theorem Adds.value?_eq_some (h : later.Adds env) {t : Ty} (hv : env.value? v = some t) :
    later.value? v = some t := by
  obtain ⟨newer, -, hvalue⟩ := h.value?_eq
  rw [hvalue v] at hv
  split at hv
  · cases hv
  · exact hv

/-- Going back to a moment not before an environment still adds to it. -/
theorem Adds.restored (h : later.Adds env) (hlen : s.trail ≤ later.len)
    (htrail : env.len ≤ s.trail) (hcount : env.count ≤ s.count) :
    (later.restored s).Adds env := by
  obtain ⟨newer, hnewer, hunbound⟩ := h.trail
  have hdrop : later.len - s.trail ≤ newer.length := by
    have hsum : later.len = newer.length + env.len := by simp [len, ← hnewer]
    omega
  refine ⟨⟨newer.drop (later.len - s.trail), ?_, ?_⟩, hcount⟩
  · rw [Env.restored, ← hnewer, List.drop_append_of_le_length hdrop]
  · exact fun b hb => hunbound b (List.mem_of_mem_drop hb)

theorem Adds.rollback (h : later.Adds env) (htrail : env.len ≤ s.trail)
    (hcount : env.count ≤ s.count) : ((Engine.rollback s).run later).env.Adds env := by
  simp only [Operation.run, Engine.rollback]
  split
  · exact h
  · exact h.restored (by omega) htrail hcount

/-- A probe goes back to its beginning, and that does not lie before an environment it adds to. -/
theorem Adds.probe {α : Type} {x : Engine α} (h : env.Adds base) (hx : (x.run env).env.Adds base) :
    ((Engine.probe x).run env).env.Adds base := by
  rw [Engine.probe_env]
  exact hx.rollback h.extends_env.len_le h.count

theorem Adds.attempt {x : Engine Bool} (h : env.Adds base) (hx : (x.run env).env.Adds base) :
    ((Engine.attempt x).run env).env.Adds base := by
  by_cases htrue : (x.run env).outcome = .ok true
  · rw [Engine.attempt_run_of_true htrue]
    exact hx
  · rw [Engine.attempt_run_of_ne_true htrue]
    exact h.probe hx

end Env

namespace Engine

open Operation

/-- The operations that go back to no moment before a snapshot, which clients make of those the
engine offers. -/
inductive Above (s : Snapshot) : {α : Type} → Engine α → Prop
  | pure {α : Type} (a : α) : Above s (pure a)
  | bind {α β : Type} {x : Engine α} {f : α → Engine β} (hx : Above s x)
      (hf : ∀ a, Above s (f a)) : Above s (x >>= f)
  /-- The moments an operation sees itself do not lie before the snapshot. -/
  | present {α : Type} {f : Env → Engine α}
      (hf : ∀ env : Env, s.trail ≤ env.len → s.count ≤ env.count → Above s (f env)) :
      Above s (present >>= f)
  | fail {α : Type} (cause : Cause) : Above s (fail cause : Engine α)
  | report (event : Event) : Above s (report event)
  | ofSubst {α : Type} (x : Except SubstError α) : Above s (ofSubst x)
  | fresh : Above s fresh
  | freshTypes (n : Nat) : Above s (freshTypes n)
  | unify (a b : Ty) : Above s (unify a b)
  | unifyAll (as bs : List Ty) : Above s (unifyAll as bs)
  | unifyReferences (a b : Reference) : Above s (unifyReferences a b)
  | resolve (config : Config) (program : Program) (os : List Obligation) :
      Above s (Solver.resolve config program os)
  | check (config : Config) (program : Program) : Above s (Coherence.check config program)
  | call (config : Config) (program : Program) (receiver : Ty) (traits : List Trait) (name : Text) :
      Above s (MethodCall.resolve config program receiver traits name)
  | attempt {x : Engine Bool} (hx : Above s x) : Above s (attempt x)
  | probe {α : Type} {x : Engine α} (hx : Above s x) : Above s (probe x)
  | rollback (t : Snapshot) (htrail : s.trail ≤ t.trail) (hcount : s.count ≤ t.count) :
      Above s (rollback t)

/-- What is done without going back before a moment adds to the environment of that moment. -/
theorem Above.adds {α : Type} {x : Engine α} {base env : Env} (hx : Above base.snapshot x)
    (henv : env.Adds base) : (x.run env).env.Adds base := by
  induction hx generalizing env with
  | pure a => exact henv
  | bind _ _ ihx ihf => exact bind_env (P := (·.Adds base)) (ihx henv) fun _ hmid => ihf _ hmid
  | present _ ih => exact ih env henv.extends_env.len_le henv.count henv
  | fail cause => exact henv
  | report event => exact henv
  | ofSubst x =>
      cases x with
      | ok a => exact henv
      | error e => exact henv
  | fresh => exact env.adds_created.trans henv
  | freshTypes n => exact (grows_freshTypes n env).trans henv
  | unify a b => exact (grows_unify a b env).trans henv
  | unifyAll as bs => exact (grows_unifyAll as bs env).trans henv
  | unifyReferences a b => exact (grows_unifyReferences a b env).trans henv
  | resolve config program os => exact (Solver.grows_resolve config program os env).trans henv
  | check config program => exact (Coherence.grows_check config program env).trans henv
  | call config program receiver traits name =>
      exact (MethodCall.grows_resolve config program receiver traits name env).trans henv
  | attempt _ ih => exact henv.attempt (ih henv)
  | probe _ ih => exact henv.probe (ih henv)
  | rollback t htrail hcount => exact henv.rollback htrail hcount

end Engine

namespace Env

open Operation Engine

/-- One environment becomes another by operations that go back to no moment before a snapshot. An
operation may give up, and others may follow it nevertheless, also within an attempt or a probe. -/
inductive Onward (s : Snapshot) : Env → Env → Prop
  | refl (env : Env) : Onward s env env
  | step {α : Type} {x : Engine α} {env mid : Env} (h : Onward s env mid) (hx : Above s x) :
      Onward s env (x.run mid).env
  | attempt {x : Engine Bool} {env mid : Env} (h : Onward s env mid)
      (hx : Onward s mid (x.run mid).env) : Onward s env ((attempt x).run mid).env
  | probe {α : Type} {x : Engine α} {env mid : Env} (h : Onward s env mid)
      (hx : Onward s mid (x.run mid).env) : Onward s env ((probe x).run mid).env

/-- What was there at the snapshot's moment is there still. -/
theorem Onward.adds {base env later : Env} (h : Onward base.snapshot env later)
    (henv : env.Adds base) : later.Adds base := by
  induction h with
  | refl env => exact henv
  | step _ hx ih => exact hx.adds (ih henv)
  | attempt _ _ ih ihx => exact (ih henv).attempt (ihx (ih henv))
  | probe _ _ ih ihx => exact (ih henv).probe (ihx (ih henv))

end Env

namespace Engine

open Operation Env

variable {α : Type}

theorem rollback_of_extends {env later : Env} (h : later.Extends env) :
    (rollback env.snapshot).Returns later () env :=
  returns_rollback.mpr ⟨h.len_le, h.restored_snapshot.symm⟩

/-- An attempt of what only adds to the environment is kept as it is or leaves no trace. -/
theorem attempt_run_of_extends {x : Engine Bool} {env : Env} (hx : (x.run env).env.Extends env) :
    ((attempt x).run env).outcome = (x.run env).outcome ∧
      ((x.run env).outcome = .ok true → ((attempt x).run env).env = (x.run env).env) ∧
      ((x.run env).outcome ≠ .ok true → ((attempt x).run env).env = env) := by
  have hback := unwound_of_extends hx
  by_cases htrue : (x.run env).outcome = .ok true
  · rw [attempt_run_of_true htrue]
    exact ⟨rfl, fun _ => rfl, fun hne => absurd htrue hne⟩
  · rw [attempt_run_of_ne_true htrue]
    exact ⟨hback.1, fun h => absurd h htrue, fun _ => hback.2⟩

/-- Whatever is done after a snapshot without going back before it, going back to the snapshot
restores the environment of that time. The newer bindings are on top of the trail, and to clear
their variables is to restore every value. A probe made then has the outcome of what is probed and
changes nothing; an attempt has the outcome of what is attempted, and changes something only if that
is `true`. All of it holds also where operations give up and others follow them. -/
theorem rollback_undoes_all_since {env later : Env} (hlater : Onward env.snapshot env later) :
    (rollback env.snapshot).Returns later () env ∧
    (∃ newer, later.trail = newer ++ env.trail ∧
      ∀ v, env.value? v = if v ∈ newer.map (·.var) then none else later.value? v) ∧
    (∀ {β : Type} (y : Engine β), Onward later.snapshot later (y.run later).env →
      ((probe y).run later).outcome = (y.run later).outcome ∧ ((probe y).run later).env = later) ∧
    ∀ y : Engine Bool, Onward later.snapshot later (y.run later).env →
      ((attempt y).run later).outcome = (y.run later).outcome ∧
      ((y.run later).outcome = .ok true → ((attempt y).run later).env = (y.run later).env) ∧
      ((y.run later).outcome ≠ .ok true → ((attempt y).run later).env = later) := by
  have hadds := hlater.adds (Adds.refl env)
  refine ⟨rollback_of_extends hadds.extends_env, hadds.value?_eq, fun y hy => ?_, fun y hy => ?_⟩
  · exact unwound_of_extends (hy.adds (Adds.refl later)).extends_env
  · exact attempt_run_of_extends (hy.adds (Adds.refl later)).extends_env

/-- Find out what can be printed as a list, take back a guess about the next variable, and give up
on malformed types in the middle of an attempt. -/
def tryPrinting : Engine Bool := do
  let _ ← Solver.resolve .default printing
    [.topLevel "list" ⟨"Print", .con "List" [.var ⟨0, 0⟩], []⟩]
  let before ← present
  let v ← fresh
  let _ ← unify (.var v) (.con "Text" [])
  rollback before.snapshot
  attempt do
    let _ ← fresh
    unify (.con "List" []) (.con "List" [.var ⟨0, 0⟩])

theorem above_tryPrinting (s : Snapshot) : Above s tryPrinting := by
  refine .bind (.resolve _ _ _) fun _ => .present fun before htrail hcount => ?_
  refine .bind .fresh fun v => .bind (.unify _ _) fun _ => ?_
  refine .bind (.rollback _ htrail hcount) fun _ => .attempt ?_
  exact .bind .fresh fun _ => .unify _ _

/-- Run one operation after another, even if the first one gives up. -/
def regardless {β : Type} (x : Engine α) (y : Engine β) : Engine β := fun env =>
  let first := x env
  let second := y first.env
  ⟨second.outcome, second.env, first.events ++ second.events⟩

theorem onward_regardless {β : Type} {x : Engine α} {y : Engine β} {s : Snapshot} (env : Env)
    (hx : Above s x) (hy : Above s y) : Onward s env ((regardless x y).run env).env :=
  ((Onward.refl env).step hx).step hy

/-- Try to print, and guess a type for a new variable whatever came of it. -/
def tryAndGuess : Engine Bool :=
  regardless tryPrinting do
    let v ← fresh
    unify (.var v) (.con "Text" [])

theorem onward_tryAndGuess (s : Snapshot) (env : Env) : Onward s env (tryAndGuess.run env).env := by
  rw [tryAndGuess]
  exact onward_regardless env (above_tryPrinting s) (.bind .fresh fun _ => .unify _ _)

/-- In an attempt, to print is given up halfway and the guess that follows is kept, so there are
three bindings. Going back undoes them all, and a probe that does the same again undoes its own. -/
theorem rollback_undoes_tryAndGuess :
    (∃ m, (tryPrinting.run Env.empty.created).outcome = .error m) ∧
    ∃ later, ((attempt tryAndGuess).run Env.empty.created).env = later ∧ later.len = 3 ∧
      later.value? ⟨0, 0⟩ = some (.con "Int" []) ∧ later.value? ⟨2, 0⟩ = some (.con "Text" []) ∧
      (rollback ⟨0, 1⟩).Returns later () Env.empty.created ∧
      (probe tryAndGuess).Returns later true later := by
  have hlater : Onward Env.empty.created.snapshot Env.empty.created
      ((attempt tryAndGuess).run Env.empty.created).env :=
    .attempt (.refl _) (onward_tryAndGuess _ _)
  obtain ⟨hback, -, hprobe, -⟩ := rollback_undoes_all_since hlater
  obtain ⟨houtcome, henv⟩ := hprobe tryAndGuess (onward_tryAndGuess _ _)
  refine ⟨⟨_, rfl⟩, _, rfl, by decide +kernel, by decide +kernel, by decide +kernel, hback, ?_,
    henv⟩
  rw [houtcome]
  rfl

end Engine

end TraitResolution
