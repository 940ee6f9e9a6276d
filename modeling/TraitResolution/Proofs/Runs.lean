import TraitResolution.Proofs.Collections
import TraitResolution.Solver

/-!
# Runs of operations

An operation that returns is described by the value it returns and the environment it leaves, and
one that gives up by its reason and the environment it leaves. For an operation made of smaller
ones, such a run splits into runs of these. Operations only add to an environment, so what is
speculative is undone exactly.

## Implementation notes

`Operation.Returns` says nothing of events. No operation reads them, and a later proof that needs
them can look at `Execution.events` beside it.
-/

namespace TraitResolution

namespace Env

/-- One environment extends another when it has at least its variables, and its bindings below
newer ones. -/
structure Extends (later env : Env) : Prop where
  trail : env.trail <:+ later.trail
  count : env.count ≤ later.count

theorem Extends.refl (env : Env) : env.Extends env :=
  ⟨List.suffix_refl _, Nat.le_refl _⟩

theorem Extends.trans {a b c : Env} (hab : a.Extends b) (hbc : b.Extends c) : a.Extends c :=
  ⟨hbc.trail.trans hab.trail, Nat.le_trans hbc.count hab.count⟩

theorem Extends.len_le {later env : Env} (h : later.Extends env) : env.len ≤ later.len :=
  h.trail.length_le

/-- Going back to a snapshot from an extension restores the environment it was taken of. -/
theorem Extends.restored_snapshot {later env : Env} (h : later.Extends env) :
    later.restored env.snapshot = env := by
  obtain ⟨newer, hnewer⟩ := h.trail
  have hdrop : later.trail.drop (later.len - env.len) = env.trail := by
    have hlen : later.len - env.len = newer.length := by
      simp [len, ← hnewer]
    rw [hlen, ← hnewer, List.drop_left]
  simp [restored, snapshot, hdrop]

theorem extends_bound (env : Env) (v : Var) (t : Ty) : (env.bound v t).Extends env :=
  ⟨List.suffix_cons _ _, Nat.le_refl _⟩

theorem extends_created (env : Env) : env.created.Extends env :=
  ⟨List.suffix_refl _, Nat.le_succ _⟩

/-- An extension that binds no variable a second time. -/
structure Adds (later env : Env) : Prop where
  trail : ∃ newer, newer ++ env.trail = later.trail ∧ ∀ b ∈ newer, ∀ c ∈ env.trail, c.var ≠ b.var
  count : env.count ≤ later.count

theorem Adds.extends_env {later env : Env} (h : later.Adds env) : later.Extends env := by
  obtain ⟨newer, hnewer, -⟩ := h.trail
  exact ⟨⟨newer, hnewer⟩, h.count⟩

theorem Adds.refl (env : Env) : env.Adds env :=
  ⟨⟨[], rfl, by simp⟩, Nat.le_refl _⟩

theorem Adds.trans {a b c : Env} (hab : a.Adds b) (hbc : b.Adds c) : a.Adds c := by
  obtain ⟨newest, hnewest, hunbound⟩ := hab.trail
  obtain ⟨newer, hnewer, hunbound'⟩ := hbc.trail
  refine ⟨⟨newest ++ newer, by simp [hnewer, hnewest], ?_⟩, Nat.le_trans hbc.count hab.count⟩
  refine List.forall_mem_append.mpr ⟨fun x hx y hy => hunbound x hx y ?_, hunbound'⟩
  exact hbc.extends_env.trail.subset hy

theorem adds_bound {env : Env} {v : Var} (hv : env.value? v = none) (t : Ty) :
    (env.bound v t).Adds env := by
  have hunbound : ∀ c ∈ env.trail, c.var ≠ v := by simpa [value?] using hv
  exact ⟨⟨[⟨v, t⟩], rfl, List.forall_mem_singleton.mpr hunbound⟩, Nat.le_refl _⟩

theorem adds_created (env : Env) : env.created.Adds env :=
  ⟨⟨[], rfl, by simp⟩, Nat.le_succ _⟩

end Env

namespace Operation

variable {ε α β : Type} {env left : Env}

/-- Started in `env`, the operation returns `a` and leaves `left`. -/
def Returns (x : Operation ε α) (env : Env) (a : α) (left : Env) : Prop :=
  (x.run env).outcome = .ok a ∧ (x.run env).env = left

instance [DecidableEq α] (x : Operation ε α) (env : Env) (a : α) (left : Env) :
    Decidable (x.Returns env a left) :=
  decidable_of_iff ((x.run env).outcome.toOption = some a ∧ (x.run env).env = left) <| by
    cases h : (x.run env).outcome <;> simp [Returns, h, Except.toOption]

theorem Returns.unique {x : Operation ε α} {a b : α} {left' : Env} (ha : x.Returns env a left)
    (hb : x.Returns env b left') : a = b ∧ left = left' := by
  have hab : Except.ok a = (Except.ok b : Except ε α) := ha.1.symm.trans hb.1
  exact ⟨Except.ok.inj hab, ha.2.symm.trans hb.2⟩

/-- An operation either returns or gives up. -/
theorem exists_error_iff {x : Operation ε α} :
    (∃ e, (x.run env).outcome = .error e) ↔ ¬∃ a left, x.Returns env a left := by
  cases houtcome : (x.run env).outcome with
  | error e => simp [Returns, houtcome]
  | ok a => simp [Returns, houtcome]

@[simp] theorem returns_pure {a b : α} :
    (pure a : Operation ε α).Returns env b left ↔ b = a ∧ left = env := by
  simp [Returns, run, pure_run, eq_comm]

theorem returns_bind {x : Operation ε α} {f : α → Operation ε β} {b : β} :
    (x >>= f).Returns env b left ↔
      ∃ a mid, x.Returns env a mid ∧ (f a).Returns mid b left := by
  simp only [Returns, run, bind_run, Execution.follow]
  cases (x env).outcome with
  | error e => simp
  | ok a =>
      constructor
      · intro h
        exact ⟨a, _, ⟨rfl, rfl⟩, h⟩
      · rintro ⟨_, _, ⟨ha, rfl⟩, h⟩
        obtain rfl := Except.ok.inj ha
        exact h

theorem returns_ite {c : Prop} [Decidable c] {x y : Operation ε α} {a : α} :
    (if c then x else y).Returns env a left ↔
      (c ∧ x.Returns env a left) ∨ (¬c ∧ y.Returns env a left) := by
  by_cases hc : c <;> simp [hc]

@[simp] theorem returns_present {a : Env} :
    (Engine.present : Operation ε Env).Returns env a left ↔ a = env ∧ left = env := by
  simp [Returns, run, Engine.present, eq_comm]

/-- Started in `env`, the operation gives up for the reason `e` and leaves `left`. -/
def GivesUp (x : Operation ε α) (env : Env) (e : ε) (left : Env) : Prop :=
  (x.run env).outcome = .error e ∧ (x.run env).env = left

theorem Returns.not_givesUp {x : Operation ε α} {a : α} {e : ε} {mid : Env}
    (h : x.Returns env a mid) : ¬x.GivesUp env e left := by
  simp [GivesUp, h.1]

theorem not_givesUp_pure {a : α} {e : ε} : ¬(pure a : Operation ε α).GivesUp env e left :=
  (returns_pure.mpr ⟨rfl, rfl⟩).not_givesUp

/-- A sequence gives up in its first part, or in the second after the first returned. -/
theorem givesUp_bind {x : Operation ε α} {f : α → Operation ε β} {e : ε} :
    (x >>= f).GivesUp env e left ↔
      x.GivesUp env e left ∨ ∃ a mid, x.Returns env a mid ∧ (f a).GivesUp mid e left := by
  simp only [GivesUp, Returns, run, bind_run, Execution.follow]
  cases (x env).outcome with
  | error e' => simp
  | ok a =>
      simp only [reduceCtorEq, false_and, false_or]
      constructor
      · intro h
        exact ⟨a, _, ⟨rfl, rfl⟩, h⟩
      · rintro ⟨_, _, ⟨ha, rfl⟩, h⟩
        obtain rfl := Except.ok.inj ha
        exact h

theorem givesUp_ite {c : Prop} [Decidable c] {x y : Operation ε α} {e : ε} :
    (if c then x else y).GivesUp env e left ↔
      (c ∧ x.GivesUp env e left) ∨ (¬c ∧ y.GivesUp env e left) := by
  by_cases hc : c <;> simp [hc]

theorem returns_mapError {ε' : Type} {x : Operation ε α} {f : ε → ε'} :
    (x.mapError f).Returns env a left ↔ x.Returns env a left :=
  and_congr mapError_eq_ok Iff.rfl

theorem GivesUp.mapError {ε' : Type} {x : Operation ε α} {e : ε} (h : x.GivesUp env e left)
    (f : ε → ε') : (x.mapError f).GivesUp env (f e) left :=
  ⟨congrArg (Except.mapError f) h.1, h.2⟩

/-- What the first part of a sequence leaves and the second part keeps, the sequence leaves. -/
theorem bind_env {P : Env → Prop} {x : Operation ε α} {f : α → Operation ε β}
    (hx : P (x.run env).env)
    (hf : ∀ {a mid}, x.Returns env a mid → P mid → P ((f a).run mid).env) :
    P ((x >>= f).run env).env := by
  rw [run, bind_run, Execution.follow]
  cases houtcome : (x env).outcome with
  | error e => exact hx
  | ok a => exact hf ⟨houtcome, rfl⟩ hx

/-- An operation that only adds to an environment, whether it returns or gives up. -/
def Grows (x : Operation ε α) : Prop :=
  ∀ env, (x.run env).env.Adds env

/-- An operation that grows leaves an extension. -/
theorem Returns.extends_env {x : Operation ε α} {a : α} (h : x.Returns env a left)
    (hx : x.Grows) : left.Extends env :=
  h.2 ▸ (hx env).extends_env

theorem grows_pure (a : α) : (pure a : Operation ε α).Grows :=
  fun env => Env.Adds.refl env

theorem Grows.bind {x : Operation ε α} {f : α → Operation ε β} (hx : x.Grows)
    (hf : ∀ a, (f a).Grows) : (x >>= f).Grows :=
  fun env => bind_env (P := (·.Adds env)) (hx env) fun _ hmid => (hf _ _).trans hmid

theorem Grows.allM {p : α → Operation ε Bool} (hp : ∀ a, (p a).Grows) (l : List α) :
    (l.allM p).Grows := by
  induction l with
  | nil => exact grows_pure true
  | cons a l ih =>
      apply (hp a).bind
      intro b
      cases b with
      | false => exact grows_pure false
      | true => exact ih

theorem returns_allM_nil {p : α → Operation ε Bool} {b : Bool} :
    ([].allM p).Returns env b left ↔ b = true ∧ left = env :=
  returns_pure

theorem returns_allM_cons {p : α → Operation ε Bool} {a : α} {l : List α} {b : Bool} :
    ((a :: l).allM p).Returns env b left ↔
      ((p a).Returns env false left ∧ b = false) ∨
        ∃ mid, (p a).Returns env true mid ∧ (l.allM p).Returns mid b left := by
  rw [List.allM]
  simp only [returns_bind, Bool.exists_bool]
  constructor
  · rintro (⟨mid, ha, hpure⟩ | h)
    · obtain ⟨rfl, rfl⟩ := returns_pure.mp hpure
      exact Or.inl ⟨ha, rfl⟩
    · exact Or.inr h
  · rintro (⟨ha, rfl⟩ | h)
    · exact Or.inl ⟨left, ha, returns_pure.mpr ⟨rfl, rfl⟩⟩
    · exact Or.inr h

section Related

variable {γ δ : Type} {rel : α → β → Prop} {x : Operation ε α} {y : Operation ε β}

/-- Started in `env`, both operations return values in a relation or both give up, and they leave
the same environment. -/
structure EndRelated (rel : α → β → Prop) (x : Operation ε α) (y : Operation ε β) (env : Env) :
    Prop where
  outcome : Option.Rel rel (x.run env).outcome.toOption (y.run env).outcome.toOption
  env : (x.run env).env = (y.run env).env

theorem endRelated_of_returns {a : α} {b : β} {left : Env} (hx : x.Returns env a left)
    (hy : y.Returns env b left) (hab : rel a b) : EndRelated rel x y env := by
  constructor
  · rw [hx.1, hy.1]
    exact .some hab
  · exact hx.2.trans hy.2.symm

theorem endRelated_of_error (hx : ∃ e, (x.run env).outcome = .error e)
    (hy : ∃ e, (y.run env).outcome = .error e) (henv : (x.run env).env = (y.run env).env) :
    EndRelated rel x y env := by
  obtain ⟨e, he⟩ := hx
  obtain ⟨e', he'⟩ := hy
  constructor
  · rw [he, he']
    exact .none
  · exact henv

/-- What the two runs of related operations are. -/
theorem EndRelated.cases (h : EndRelated rel x y env) :
    (∃ a b left, x.Returns env a left ∧ y.Returns env b left ∧ rel a b) ∨
      ((∃ e, (x.run env).outcome = .error e) ∧ ∃ e, (y.run env).outcome = .error e) := by
  have houtcome := h.outcome
  cases hx : (x.run env).outcome with
  | error e =>
      cases hy : (y.run env).outcome with
      | error e' => exact Or.inr ⟨⟨e, rfl⟩, e', rfl⟩
      | ok b =>
          rw [hx, hy] at houtcome
          cases houtcome
  | ok a =>
      cases hy : (y.run env).outcome with
      | error e' =>
          rw [hx, hy] at houtcome
          cases houtcome
      | ok b =>
          rw [hx, hy] at houtcome
          cases houtcome with
          | some hab => exact Or.inl ⟨a, b, _, ⟨hx, rfl⟩, ⟨hy, h.env.symm⟩, hab⟩

theorem EndRelated.error_iff (h : EndRelated rel x y env) :
    (∃ e, (x.run env).outcome = .error e) ↔ ∃ e, (y.run env).outcome = .error e := by
  rcases h.cases with ⟨a, b, left, hx, hy, -⟩ | ⟨hx, hy⟩
  · simp [hx.1, hy.1]
  · exact iff_of_true hx hy

theorem EndRelated.rel_of_returns {a : α} {b : β} {left left' : Env}
    (h : EndRelated rel x y env) (hx : x.Returns env a left) (hy : y.Returns env b left') :
    rel a b := by
  have houtcome := h.outcome
  rw [hx.1, hy.1] at houtcome
  cases houtcome with
  | some hab => exact hab

theorem EndRelated.bind {rel' : γ → δ → Prop} {f : α → Operation ε γ} {g : β → Operation ε δ}
    (h : EndRelated rel x y env)
    (hnext : ∀ {a b mid}, x.Returns env a mid → y.Returns env b mid → rel a b →
      EndRelated rel' (f a) (g b) mid) :
    EndRelated rel' (x >>= f) (y >>= g) env := by
  rcases h.cases with ⟨a, b, mid, hx, hy, hab⟩ | ⟨⟨e, he⟩, e', he'⟩
  · have hrest := hnext hx hy hab
    obtain ⟨hxa, rfl⟩ := hx
    obtain ⟨hyb, hmid⟩ := hy
    simp only [run] at hxa hyb hmid
    constructor
    · simpa [run, bind_run, Execution.follow, hxa, hyb, hmid] using hrest.outcome
    · simpa [run, bind_run, Execution.follow, hxa, hyb, hmid] using hrest.env
  · have henv := h.env
    simp only [run] at he he' henv
    apply endRelated_of_error
    · exact ⟨e, by simp [run, bind_run, Execution.follow, he]⟩
    · exact ⟨e', by simp [run, bind_run, Execution.follow, he']⟩
    · simpa [run, bind_run, Execution.follow, he, he'] using henv

theorem endRelated_refl (x : Operation ε α) (env : Env) : EndRelated (· = ·) x x env := by
  constructor
  · cases (x.run env).outcome with
    | error e => exact .none
    | ok a => exact .some rfl
  · rfl

/-- Operations that begin the same are related if what follows is. -/
theorem EndRelated.after {rel' : γ → δ → Prop} (x : Operation ε α) {f : α → Operation ε γ}
    {g : α → Operation ε δ}
    (hnext : ∀ {a mid}, x.Returns env a mid → EndRelated rel' (f a) (g a) mid) :
    EndRelated rel' (x >>= f) (x >>= g) env := by
  apply (endRelated_refl x env).bind
  rintro a b mid hx - rfl
  exact hnext hx

theorem endRelated_present_bind {rel : γ → δ → Prop} {f : Env → Operation ε γ}
    {g : Env → Operation ε δ} (h : EndRelated rel (f env) (g env) env) :
    EndRelated rel (Engine.present >>= f) (Engine.present >>= g) env :=
  ⟨h.outcome, h.env⟩

theorem EndRelated.returns_iff {y : Operation ε α} (h : EndRelated (· = ·) x y env) {a : α} :
    x.Returns env a left ↔ y.Returns env a left := by
  rcases h.cases with ⟨b, _, mid, hx, hy, rfl⟩ | ⟨⟨e, he⟩, e', he'⟩
  · constructor
    · intro ha
      obtain ⟨rfl, rfl⟩ := ha.unique hx
      exact hy
    · intro ha
      obtain ⟨rfl, rfl⟩ := ha.unique hy
      exact hx
  · simp [Returns, he, he']

end Related

end Operation

namespace Engine

open Operation

variable {α : Type} {env left : Env}

@[simp] theorem not_returns_fail {cause : Cause} {a : α} :
    ¬(fail cause : Engine α).Returns env a left := by
  simp [Returns, run, fail]

@[simp] theorem returns_report {event : Event} {u : Unit} :
    (report event).Returns env u left ↔ left = env := by
  simp [Returns, run, report, eq_comm]

/-- A report does not bear on what follows it. -/
@[simp] theorem returns_report_bind {event : Event} {f : Unit → Engine α} {a : α} :
    (report event >>= f).Returns env a left ↔ (f ()).Returns env a left := by
  rw [returns_bind]
  exact ⟨fun ⟨_, _, h, h'⟩ => returns_report.mp h ▸ h', fun h => ⟨(), env, by simp, h⟩⟩

/-- A report is no reason to give up. -/
theorem givesUp_report_bind {event : Event} {f : Unit → Engine α} {m : Malformed} :
    (report event >>= f).GivesUp env m left ↔ (f ()).GivesUp env m left :=
  Iff.rfl

@[simp] theorem returns_ofSubst {x : Except SubstError α} {a : α} :
    (ofSubst x).Returns env a left ↔ x = .ok a ∧ left = env := by
  cases x with
  | error e => simp [ofSubst]
  | ok b => simp [ofSubst, eq_comm]

@[simp] theorem returns_fresh {v : Var} :
    fresh.Returns env v left ↔ v = env.nextVar ∧ left = env.created := by
  simp [Returns, run, fresh, eq_comm]

theorem returns_bindVar {v : Var} {t : Ty} {u : Unit} :
    (bindVar v t).Returns env u left ↔
      env.value? v = none ∧ env.hasParams t = false ∧ left = env.bound v t := by
  simp only [Returns, run, bindVar]
  cases hv : env.value? v with
  | some t => simp [fail]
  | none =>
      cases ht : env.hasParams t with
      | true => simp [fail]
      | false => simp [eq_comm]

theorem returns_rollback {s : Snapshot} {u : Unit} :
    (rollback s).Returns env u left ↔ s.trail ≤ env.len ∧ left = env.restored s := by
  simp only [Returns, run, rollback]
  by_cases hlen : env.len < s.trail
  · simp [hlen, fail, Nat.not_le.mpr hlen]
  · simp [hlen, Nat.not_lt.mp hlen, eq_comm]

theorem returns_isolated {x : Engine α} {a : α} :
    (isolated x).Returns env a left ↔ (∃ own, x.Returns .empty a own) ∧ left = env := by
  simp [Returns, run, isolated, eq_comm]

/-- Two operations that give up end alike, whatever their reasons are. -/
theorem endRelated_fail {β : Type} {rel : α → β → Prop} {cause cause' : Cause} :
    EndRelated rel (fail cause : Engine α) (fail cause') env :=
  ⟨.none, rfl⟩

theorem grows_report (event : Event) : (report event).Grows :=
  fun env => Env.Adds.refl env

/-- Going back after a run that only added to the environment keeps its outcome and restores the
environment it started in. -/
theorem unwound_of_extends {x : Execution Malformed α} (hx : x.env.Extends env) :
    (x.unwound env.snapshot).outcome = x.outcome ∧ (x.unwound env.snapshot).env = env := by
  have hlen : ¬x.env.len < env.snapshot.trail := Nat.not_lt.mpr hx.len_le
  simp [Execution.unwound, rollback, hlen, hx.restored_snapshot]

/-- A speculative run has the outcome of a real one and leaves no trace in the environment. -/
theorem probe_run {x : Engine α} (hx : x.Grows) (env : Env) :
    ((probe x).run env).outcome = (x.run env).outcome ∧ ((probe x).run env).env = env :=
  unwound_of_extends (hx env).extends_env

theorem returns_probe {x : Engine α} (hx : x.Grows) {a : α} :
    (probe x).Returns env a left ↔ (∃ gone, x.Returns env a gone) ∧ left = env := by
  obtain ⟨houtcome, henv⟩ := probe_run hx env
  simp [Returns, houtcome, henv, eq_comm]

/-- What a probe leaves is what is found after going back. -/
theorem probe_env (x : Engine α) (env : Env) :
    ((probe x).run env).env = ((rollback env.snapshot).run (x.run env).env).env := by
  simp only [run, probe, Execution.unwound]
  split <;> rfl

theorem attempt_run_of_true {x : Engine Bool} (h : (x.run env).outcome = .ok true) :
    (attempt x).run env = x.run env := by
  simp only [run, attempt, Execution.settled] at h ⊢
  rw [h]

/-- An attempt that does not succeed is a probe. -/
theorem attempt_run_of_ne_true {x : Engine Bool} (h : (x.run env).outcome ≠ .ok true) :
    (attempt x).run env = (probe x).run env := by
  simp only [run, attempt, probe, Execution.settled] at h ⊢

theorem attempt_outcome {x : Engine Bool} (hx : x.Grows) (env : Env) :
    ((attempt x).run env).outcome = (x.run env).outcome := by
  by_cases htrue : (x.run env).outcome = .ok true
  · rw [attempt_run_of_true htrue]
  · rw [attempt_run_of_ne_true htrue, (probe_run hx env).1]

/-- An attempt that does not return `true` leaves the environment as it was. -/
theorem attempt_env {x : Engine Bool} (hx : x.Grows)
    (h : ((attempt x).run env).outcome ≠ .ok true) : ((attempt x).run env).env = env := by
  rw [attempt_outcome hx] at h
  rw [attempt_run_of_ne_true h, (probe_run hx env).2]

theorem returns_attempt_true {x : Engine Bool} (hx : x.Grows) :
    (attempt x).Returns env true left ↔ x.Returns env true left := by
  by_cases htrue : (x.run env).outcome = .ok true
  · rw [Returns, Returns, attempt_run_of_true htrue]
  · exact iff_of_false (fun h => htrue (attempt_outcome hx env ▸ h.1)) fun h => htrue h.1

theorem returns_attempt_false {x : Engine Bool} (hx : x.Grows) :
    (attempt x).Returns env false left ↔ (∃ gone, x.Returns env false gone) ∧ left = env := by
  by_cases htrue : (x.run env).outcome = .ok true
  · simp [Returns, attempt_run_of_true htrue, htrue]
  · rw [Returns, attempt_run_of_ne_true htrue]
    exact returns_probe hx

/-- What a test answers, where giving up counts as a failed test. -/
def verdict (x : Engine Bool) (env : Env) : Bool :=
  match (x.run env).outcome with
  | .ok b => b
  | .error _ => false

theorem verdict_eq {x : Engine Bool} {b : Bool} (h : x.Returns env b left) :
    verdict x env = b := by
  simp [verdict, h.1]

theorem verdict_eq_true_iff {x : Engine Bool} :
    verdict x env = true ↔ ∃ left, x.Returns env true left := by
  constructor
  · intro h
    refine ⟨(x.run env).env, ?_, rfl⟩
    rw [verdict] at h
    split at h
    · rename_i b hb
      exact h ▸ hb
    · cases h
  · rintro ⟨left, h⟩
    exact verdict_eq h

/-- A test that leaves no trace selects exactly the elements that pass it. -/
theorem returns_select {p : α → Engine Bool} {l kept : List α}
    (hp : ∀ a ∈ l, ∀ b mid, (p a).Returns env b mid → mid = env) :
    (select p l).Returns env kept left ↔
      ((∀ a ∈ l, ∃ b, (p a).Returns env b env) ∧
        kept = l.filter fun a => verdict (p a) env) ∧ left = env := by
  induction l generalizing kept with
  | nil => simp [select]
  | cons a l ih =>
      have hl : ∀ c ∈ l, ∀ b mid, (p c).Returns env b mid → mid = env :=
        fun c hc => hp c (by simp [hc])
      simp only [select, returns_bind, returns_pure, List.forall_mem_cons, List.filter_cons]
      constructor
      · rintro ⟨b, mid, ha, rest, mid', h, rfl, rfl⟩
        obtain rfl := hp a (by simp) b mid ha
        obtain ⟨⟨hreturns, rfl⟩, rfl⟩ := (ih hl).mp h
        exact ⟨⟨⟨⟨b, ha⟩, hreturns⟩, by rw [verdict_eq ha]⟩, rfl⟩
      · rintro ⟨⟨⟨⟨b, ha⟩, hreturns⟩, rfl⟩, rfl⟩
        refine ⟨b, left, ha, l.filter fun a => verdict (p a) left, left, ?_, ?_, rfl⟩
        · exact (ih hl).mpr ⟨⟨hreturns, rfl⟩, rfl⟩
        · rw [verdict_eq ha]

end Engine

end TraitResolution
