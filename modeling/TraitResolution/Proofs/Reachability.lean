import TraitResolution.Proofs.Unification

/-!
# Reachable environments

The environments a client can come to: it creates variables, unifies types and references over
existing variables, takes snapshots and goes back to them. An operation that gives up leaves an
environment behind as one that returns does. Attempts and probes need no rule of their own: they are
a snapshot, some operations, and possibly the way back. Every reachable environment is valid, so
what unification does there is described by the solutions before and after it.
-/

namespace TraitResolution

namespace Operation

variable {ε α : Type}

/-- An operation that leaves the environment as it was unless it returns `true`. -/
def AllOrNothing (x : Operation ε Bool) : Prop :=
  ∀ env, (x.run env).outcome ≠ .ok true → (x.run env).env = env

theorem allOrNothing_pure (b : Bool) : (pure b : Operation ε Bool).AllOrNothing :=
  fun _ _ => rfl

theorem AllOrNothing.ite {c : Prop} [Decidable c] {x y : Operation ε Bool} (hx : x.AllOrNothing)
    (hy : y.AllOrNothing) : (if c then x else y).AllOrNothing := by
  split
  · exact hx
  · exact hy

/-- Looking at the environment or reporting first changes nothing. -/
theorem AllOrNothing.after {x : Operation ε α} (hx : ∀ env, (x.run env).env = env)
    {f : α → Operation ε Bool} (hf : ∀ a, (f a).AllOrNothing) : (x >>= f).AllOrNothing := by
  intro env
  have henv := hx env
  simp only [run, bind_run, Execution.follow] at henv ⊢
  cases (x env).outcome with
  | error e => exact fun _ => henv
  | ok a =>
      change ((f a).run (x env).env).outcome ≠ _ → ((f a).run (x env).env).env = env
      rw [henv]
      exact hf a env

end Operation

namespace Engine

open Operation

theorem allOrNothing_fail (cause : Cause) : (fail cause : Engine Bool).AllOrNothing :=
  fun _ _ => rfl

theorem allOrNothing_attempt {x : Engine Bool} (hx : x.Grows) : (attempt x).AllOrNothing :=
  fun _ h => attempt_env hx h

/-- Binding a variable either returns or changes nothing. -/
theorem allOrNothing_bindVar (v : Var) (t : Ty) :
    (do bindVar v t; pure true : Engine Bool).AllOrNothing := by
  intro env h
  by_cases hv : (env.value? v).isSome = true
  · simp [run, bind_run, Execution.follow, bindVar, fail, hv]
  · by_cases ht : env.hasParams t = true
    · simp [run, bind_run, Execution.follow, bindVar, fail, hv, ht]
    · exact absurd (by simp [run, bind_run, Execution.follow, bindVar, pure_run, hv, ht]) h

theorem allOrNothing_unifyWithin (n : Nat) (a b : Ty) : (unifyWithin n a b).AllOrNothing := by
  cases n with
  | zero => exact allOrNothing_pure false
  | succ n =>
      refine AllOrNothing.after (fun _ => rfl) fun env => ?_
      have hcon : ∀ v t, (unifyVarCon v t).AllOrNothing := fun v t =>
        AllOrNothing.after (fun _ => rfl) fun env => AllOrNothing.ite
          (AllOrNothing.after (fun _ => rfl) fun _ => allOrNothing_pure false)
          (allOrNothing_bindVar v t)
      split
      · exact (allOrNothing_pure true).ite
          ((allOrNothing_bindVar _ _).ite (allOrNothing_bindVar _ _))
      · exact hcon _ _
      · exact hcon _ _
      · refine (allOrNothing_pure false).ite ((allOrNothing_fail _).ite ?_)
        exact allOrNothing_attempt (grows_unifyArgs n _)
      · exact allOrNothing_fail _

theorem allOrNothing_unify (a b : Ty) : (unify a b).AllOrNothing :=
  AllOrNothing.after (fun _ => rfl) fun _ => allOrNothing_unifyWithin _ a b

theorem allOrNothing_unifyAll (as bs : List Ty) : (unifyAll as bs).AllOrNothing :=
  (allOrNothing_fail _).ite (allOrNothing_attempt (grows_unifyZip _))

theorem allOrNothing_unifyReferences (r s : Reference) : (unifyReferences r s).AllOrNothing :=
  (allOrNothing_fail _).ite (allOrNothing_attempt (grows_unifyParts r s))

end Engine

namespace Env

open Engine

/-- A reference over the variables of an environment. -/
def CoversRef (env : Env) (r : Reference) : Prop :=
  ∀ t ∈ r.types, env.Covers t

instance (env : Env) (r : Reference) : Decidable (env.CoversRef r) :=
  inferInstanceAs (Decidable (∀ t ∈ r.types, env.Covers t))

/-- The environments that operations lead to from the empty one, each with the snapshots that can
still be gone back to, the newest first. -/
inductive ReachedWith : Env → List Snapshot → Prop
  | empty : ReachedWith .empty []
  | fresh {env ss} (h : ReachedWith env ss) : ReachedWith (fresh.run env).env ss
  | unify {env ss a b} (h : ReachedWith env ss) (ha : env.Covers a) (hb : env.Covers b) :
      ReachedWith ((unify a b).run env).env ss
  | unifyAll {env ss as bs} (h : ReachedWith env ss) (has : ∀ a ∈ as, env.Covers a)
      (hbs : ∀ b ∈ bs, env.Covers b) : ReachedWith ((unifyAll as bs).run env).env ss
  | unifyReferences {env ss r s} (h : ReachedWith env ss) (hr : env.CoversRef r)
      (hs : env.CoversRef s) : ReachedWith ((unifyReferences r s).run env).env ss
  | snapshot {env ss} (h : ReachedWith env ss) : ReachedWith env (env.snapshot :: ss)
  | rollback {env newer s older} (h : ReachedWith env (newer ++ s :: older)) :
      ReachedWith ((rollback s).run env).env (s :: older)

/-- An environment that a sequence of operations leads to. -/
def Reachable (env : Env) : Prop :=
  ∃ ss, env.ReachedWith ss

variable {env later : Env} {s : Snapshot} {ss : List Snapshot}

theorem Extends.restored (h : later.Extends env) (hs : s.trail ≤ env.len) :
    later.restored s = env.restored s := by
  obtain ⟨newer, hnewer⟩ := h.trail
  have hlen : later.len - s.trail = newer.length + (env.len - s.trail) := by
    have hsum : later.len = newer.length + env.len := by simp [len, ← hnewer]
    omega
  simp [Env.restored, hlen, ← hnewer]

/-- A snapshot of an earlier moment, when the environment was valid too. -/
structure Holds (env : Env) (s : Snapshot) : Prop where
  trail_le : s.trail ≤ env.len
  count_le : s.count ≤ env.count
  valid : (env.restored s).Valid

theorem Holds.of_extends (h : env.Holds s) (hextends : later.Extends env) : later.Holds s where
  trail_le := Nat.le_trans h.trail_le hextends.len_le
  count_le := Nat.le_trans h.count_le hextends.count
  valid := hextends.restored h.trail_le ▸ h.valid

theorem Holds.len_restored (h : env.Holds s) : (env.restored s).len = s.trail := by
  have hle := h.trail_le
  simp only [Env.restored, len, List.length_drop] at hle ⊢
  omega

theorem Holds.extends_restored (h : env.Holds s) : env.Extends (env.restored s) :=
  ⟨List.drop_suffix _ _, h.count_le⟩

/-- What holds at every reachable environment: it is valid, and so are those that its snapshots lead
back to, each of which lies before the newer ones. -/
structure Kept (env : Env) (ss : List Snapshot) : Prop where
  valid : env.Valid
  holds : ∀ s ∈ ss, env.Holds s
  ordered : ss.Pairwise fun newer older => older.trail ≤ newer.trail ∧ older.count ≤ newer.count

theorem Kept.of_extends (h : env.Kept ss) (hextends : later.Extends env) (hvalid : later.Valid) :
    later.Kept ss :=
  ⟨hvalid, fun s hs => (h.holds s hs).of_extends hextends, h.ordered⟩

theorem Kept.of_allOrNothing (h : env.Kept ss) {x : Engine Bool} (hx : x.AllOrNothing)
    (hunified : ∀ left, x.Returns env true left → ∃ eqs, env.Unified eqs left) :
    (x.run env).env.Kept ss := by
  by_cases htrue : (x.run env).outcome = .ok true
  · obtain ⟨eqs, heqs⟩ := hunified _ ⟨htrue, rfl⟩
    exact h.of_extends heqs.extends_env heqs.valid
  · rw [hx env htrue]
    exact h

theorem Kept.snapshot (h : env.Kept ss) : env.Kept (env.snapshot :: ss) := by
  refine ⟨h.valid, List.forall_mem_cons.mpr ⟨?_, h.holds⟩, List.pairwise_cons.mpr ⟨?_, h.ordered⟩⟩
  · refine ⟨Nat.le_refl _, Nat.le_refl _, ?_⟩
    rw [(Extends.refl env).restored_snapshot]
    exact h.valid
  · exact fun s hs => ⟨(h.holds s hs).trail_le, (h.holds s hs).count_le⟩

/-- Going back to a snapshot keeps the older ones in force. -/
theorem Kept.rollback {newer older : List Snapshot} (h : env.Kept (newer ++ s :: older)) :
    ((rollback s).run env).env.Kept (s :: older) := by
  have hs := h.holds s (by simp)
  have hrun : ((Engine.rollback s).run env).env = env.restored s := by
    simp [Operation.run, Engine.rollback, Nat.not_lt.mpr hs.trail_le]
  have hordered := (List.pairwise_append.mp h.ordered).2.1
  have hlen := hs.len_restored
  rw [hrun]
  refine ⟨hs.valid, List.forall_mem_cons.mpr ⟨?_, fun s' hs' => ?_⟩, hordered⟩
  · refine ⟨Nat.le_of_eq hlen.symm, Nat.le_refl _, ?_⟩
    rw [← hs.extends_restored.restored (Nat.le_of_eq hlen.symm)]
    exact hs.valid
  · obtain ⟨htrail, hcount⟩ := List.rel_of_pairwise_cons hordered hs'
    have hle : s'.trail ≤ (env.restored s).len := by omega
    refine ⟨hle, hcount, ?_⟩
    rw [← hs.extends_restored.restored hle]
    exact (h.holds s' (by simp [hs'])).valid

theorem ReachedWith.kept (h : env.ReachedWith ss) : env.Kept ss := by
  induction h with
  | empty => exact ⟨valid_empty, by simp, List.Pairwise.nil⟩
  | @fresh env ss _ ih => exact ih.of_extends env.extends_created ih.valid.created
  | unify _ ha hb ih =>
      exact ih.of_allOrNothing (allOrNothing_unify _ _)
        fun left h => ⟨_, unify_unified ih.valid ha hb h⟩
  | unifyAll _ has hbs ih =>
      exact ih.of_allOrNothing (allOrNothing_unifyAll _ _)
        fun left h => ⟨_, unifyAll_unified ih.valid has hbs h⟩
  | unifyReferences _ hr hs ih =>
      exact ih.of_allOrNothing (allOrNothing_unifyReferences _ _)
        fun left h => ⟨_, (unifyReferences_unified ih.valid hr hs h).2⟩
  | snapshot _ ih => exact ih.snapshot
  | rollback _ ih => exact ih.rollback

/-- Every reachable environment satisfies the invariant. -/
theorem Reachable.valid (h : env.Reachable) : env.Valid := by
  obtain ⟨ss, hss⟩ := h
  exact hss.kept.valid

end Env

namespace Engine

open Operation

variable {env left : Env} {a b : Ty} {r : Bool}

/-- Unification computes most general unifiers. If it succeeds, the solutions it leaves are exactly
the earlier ones that make the two types equal, and the two types resolve to the same one; if it
fails, no solution makes them equal. -/
theorem unify_most_general (henv : env.Reachable) (ha : env.Covers a) (hb : env.Covers b)
    (h : (unify a b).Returns env r left) :
    (r = true → (∀ f, left.SolvedBy f ↔ env.SolvedBy f ∧ a.replaceVars f = b.replaceVars f) ∧
      left.resolve a = left.resolve b) ∧
    (r = false → ∀ f, env.SolvedBy f → a.replaceVars f ≠ b.replaceVars f) := by
  constructor
  · rintro rfl
    have hunified := unify_unified henv.valid ha hb h
    have hsolved : ∀ f, left.SolvedBy f ↔
        env.SolvedBy f ∧ a.replaceVars f = b.replaceVars f := by
      intro f
      rw [hunified.solvedBy_iff, equates_cons]
      simp [Equates]
    refine ⟨hsolved, ?_⟩
    -- what the variables resolve to is itself a solution
    calc
      left.resolve a = a.replaceVars left.answer := left.resolve_eq_replaceVars a
      _ = b.replaceVars left.answer := ((hsolved _).mp hunified.valid.solvedBy_answer).2
      _ = left.resolve b := (left.resolve_eq_replaceVars b).symm
  · rintro rfl f hf heq
    exact unify_complete henv.valid ha hb hf heq h

/-- Three variables, of which the second stands for lists of the first. -/
def listed : Env :=
  ⟨3, [⟨⟨1, 0⟩, .con "List" [.var ⟨0, 0⟩]⟩]⟩

theorem listed_reachable : listed.Reachable := by
  have hthree : Env.ReachedWith ⟨3, []⟩ [] := .fresh (.fresh (.fresh .empty))
  have hlist := hthree.unify (a := .var ⟨1, 0⟩) (b := .con "List" [.var ⟨0, 0⟩])
    (by decide) (by decide)
  exact ⟨[], hlist⟩

/-- A list of the third variable is to be what the second stands for, so the third stands for the
first one, and both turn out to be integers. No solution makes the first variable a list of the
second, through which it would contain itself. -/
theorem unify_most_general_listed :
    (∃ left, (unify (.con "Pair" [.var ⟨1, 0⟩, .var ⟨2, 0⟩])
        (.con "Pair" [.con "List" [.var ⟨2, 0⟩], .con "Int" []])).Returns listed true left ∧
      (∀ f, left.SolvedBy f ↔ listed.SolvedBy f ∧
        Ty.con "Pair" [f ⟨1, 0⟩, f ⟨2, 0⟩] =
          .con "Pair" [.con "List" [f ⟨2, 0⟩], .con "Int" []]) ∧
      left.resolve (.con "Pair" [.var ⟨1, 0⟩, .var ⟨2, 0⟩]) =
        left.resolve (.con "Pair" [.con "List" [.var ⟨2, 0⟩], .con "Int" []])) ∧
    ∀ f, listed.SolvedBy f → f ⟨0, 0⟩ ≠ .con "List" [f ⟨1, 0⟩] := by
  constructor
  · have hsucceeds : ∃ left, (unify (.con "Pair" [.var ⟨1, 0⟩, .var ⟨2, 0⟩])
        (.con "Pair" [.con "List" [.var ⟨2, 0⟩], .con "Int" []])).Returns listed true left :=
      ⟨_, rfl, rfl⟩
    obtain ⟨left, hleft⟩ := hsucceeds
    exact ⟨left, hleft,
      (unify_most_general listed_reachable (by decide) (by decide) hleft).1 rfl⟩
  · have hfails : (unify (.var ⟨0, 0⟩) (.con "List" [.var ⟨1, 0⟩])).Returns listed false listed :=
      ⟨rfl, rfl⟩
    exact (unify_most_general listed_reachable (by decide) (by decide) hfails).2 rfl

end Engine

end TraitResolution
