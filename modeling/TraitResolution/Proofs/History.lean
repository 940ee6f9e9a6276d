import Mathlib.Data.List.Nodup
import TraitResolution.Proofs.Acyclicity
import TraitResolution.Proofs.Reachability

/-!
# What clients do with an environment

A client is handed variables, unifies types over them, attempts and probes, takes snapshots and goes
back to them. It may no longer use a variable once it has gone back to a snapshot taken before the
variable was created. Whatever a client does, and however its operations end, the environment stays
well kept.

## Implementation notes

A history follows the client step by step. Beside the environment it keeps the variables the client
was handed and may still use, which the environment itself does not know. What is attempted or
probed is any operation whose effect on the environment is that of a history of its own, which
starts without a snapshot to go back to.
-/

namespace TraitResolution

namespace Env

open Engine

variable {env later : Env} {s : Snapshot} {ss : List Snapshot}

/-- What was reached with some snapshots can be reached without the newest of them, and so can what
each of them leads back to. -/
structure ReachedAlso (env : Env) (ss : List Snapshot) : Prop where
  forget : ∀ older, older <:+ ss → env.ReachedWith older
  restored : ∀ s older, s :: older <:+ ss →
    ∀ oldest, oldest <:+ older → (env.restored s).ReachedWith oldest

/-- An operation that extends an environment does not change what its snapshots lead back to. -/
theorem ReachedAlso.of_extends (h : env.ReachedAlso ss) (hkept : env.Kept ss)
    (hextends : later.Extends env)
    (hlater : ∀ older, env.ReachedWith older → later.ReachedWith older) : later.ReachedAlso ss := by
  refine ⟨fun older holder => hlater older (h.forget older holder), fun s older hs => ?_⟩
  rw [hextends.restored (hkept.holds s (hs.subset List.mem_cons_self)).trail_le]
  exact h.restored s older hs

theorem ReachedWith.run_rollback {newer older : List Snapshot}
    (h : env.ReachedWith (newer ++ s :: older)) :
    ((Engine.rollback s).run env).env = env.restored s := by
  have hle := (h.kept.holds s (by simp)).trail_le
  exact ((returns_rollback (u := ())).mpr ⟨hle, rfl⟩).2

theorem ReachedWith.also (h : env.ReachedWith ss) : env.ReachedAlso ss := by
  induction h with
  | empty =>
      refine ⟨fun older holder => ?_, fun s older hs => ?_⟩
      · rw [List.suffix_nil.mp holder]
        exact .empty
      · exact absurd (List.suffix_nil.mp hs) (List.cons_ne_nil _ _)
  | @fresh env ss h ih => exact ih.of_extends h.kept env.extends_created fun _ => .fresh
  | @unify env ss a b h ha hb ih =>
      exact ih.of_extends h.kept (grows_unify a b env).extends_env fun _ h => h.unify ha hb
  | @unifyAll env ss as bs h has hbs ih =>
      exact ih.of_extends h.kept (grows_unifyAll as bs env).extends_env
        fun _ h => h.unifyAll has hbs
  | @unifyReferences env ss r r' h hr hr' ih =>
      exact ih.of_extends h.kept (grows_unifyReferences r r' env).extends_env
        fun _ h => h.unifyReferences hr hr'
  | @snapshot env ss h ih =>
      constructor
      · intro older holder
        rcases List.suffix_cons_iff.mp holder with rfl | holder
        · exact h.snapshot
        · exact ih.forget older holder
      · intro s older hs oldest holdest
        rcases List.suffix_cons_iff.mp hs with heq | hs
        · obtain ⟨rfl, rfl⟩ := List.cons.inj heq
          rw [(Extends.refl env).restored_snapshot]
          exact ih.forget oldest holdest
        · exact ih.restored s older hs oldest holdest
  | @rollback env newer s older h ih =>
      have hsuffix : s :: older <:+ newer ++ s :: older := List.suffix_append _ _
      have hkept := h.rollback.kept
      rw [h.run_rollback] at hkept ⊢
      constructor
      · intro oldest holdest
        rcases List.suffix_cons_iff.mp holdest with rfl | holdest
        · exact h.run_rollback ▸ h.rollback
        · exact ih.restored s older hsuffix oldest holdest
      · intro s' older' hs' oldest holdest
        have hback := hkept.holds s' (hs'.subset List.mem_cons_self)
        have hextends := (h.kept.holds s (by simp)).extends_restored
        rw [← hextends.restored hback.trail_le]
        exact ih.restored s' older' (hs'.trans hsuffix) oldest holdest

/-- The variables of an environment in which `n` of them exist, in the order of their creation. -/
def firstVars (n : Nat) : List Var :=
  (List.range n).map fun i => ⟨i, 0⟩

theorem mem_firstVars {v : Var} : v ∈ firstVars env.count ↔ env.Live v := by
  obtain ⟨index, generation⟩ := v
  simp [firstVars, Live, eq_comm]

theorem firstVars_succ (n : Nat) : firstVars (n + 1) = firstVars n ++ [⟨n, 0⟩] := by
  simp [firstVars, List.range_succ]

theorem map_index_firstVars (n : Nat) : (firstVars n).map (·.index) = List.range n := by
  simp [firstVars, Function.comp_def]

/-- The invariant of an environment whose client may use the given variables. -/
structure WellKept (env : Env) (vars : List Var) : Prop where
  /-- The trail lists exactly the bound variables the client may use. -/
  mem_trail : ∀ v, v ∈ env.trail.map (·.var) ↔ v ∈ vars ∧ (env.value? v).isSome = true
  /-- It lists each of them once. -/
  trail_nodup : (env.trail.map (·.var)).Nodup
  index_lt : ∀ v ∈ vars, v.index < env.count
  index_nodup : (vars.map (·.index)).Nodup
  /-- Values mention usable variables only. -/
  value_vars : ∀ {v t}, env.value? v = some t → ∀ w ∈ t.vars, w ∈ vars
  /-- A variable that stands for a variable stands for an older one. -/
  older : ∀ {v w}, env.value? v = some (.var w) → w.index < v.index
  /-- No value leads to a type parameter. -/
  paramFree : ∀ {v t}, env.value? v = some t → env.hasParams t = false
  /-- No variable leads back to itself. -/
  acyclic : ∀ v, ¬Relation.TransGen env.Leads v v
  terminates : env.Terminates

theorem Valid.wellKept (h : env.Valid) : env.WellKept (firstVars env.count) where
  mem_trail v := by
    rw [mem_firstVars]
    constructor
    · intro hv
      obtain ⟨b, hb, rfl⟩ := List.mem_map.mp hv
      exact ⟨(h.live b hb).1, by rw [h.value?_of_mem hb]; rfl⟩
    · rintro ⟨-, hv⟩
      obtain ⟨t, ht⟩ := Option.isSome_iff_exists.mp hv
      exact List.mem_map_of_mem (mem_of_value? ht)
  trail_nodup := h.distinct
  index_lt v hv := (mem_firstVars.mp hv).1
  index_nodup := by
    rw [map_index_firstVars]
    exact List.nodup_range
  value_vars hv w hw := mem_firstVars.mpr (h.covers_of_value? hv w hw)
  older hv := h.older _ (mem_of_value? hv) _ rfl
  paramFree {v t} hv := by
    rw [hasParams, ← h.answer_of_value? hv]
    exact h.hasParams_answer v
  acyclic := h.not_leads_back
  terminates := h.terminates

end Env

/-- What a client has in hand: the environment, the variables it may use, and the snapshots it may
go back to, the newest first, each with the variables it might use then. -/
structure Client where
  env : Env
  vars : List Var
  marks : List (Snapshot × List Var)

namespace Client

open Operation Engine

/-- A client that has done nothing yet. -/
def start : Client :=
  ⟨.empty, [], []⟩

/-- A type over variables the client may use. -/
def MayUse (vars : List Var) (t : Ty) : Prop :=
  ∀ v ∈ t.vars, v ∈ vars

instance (vars : List Var) (t : Ty) : Decidable (MayUse vars t) :=
  inferInstanceAs (Decidable (∀ v ∈ t.vars, v ∈ vars))

/-- One client becomes another by a sequence of operations, each of which may return or give up. -/
inductive History : Client → Client → Prop
  | refl (c : Client) : History c c
  | fresh {c env vars marks v left} (h : History c ⟨env, vars, marks⟩)
      (hv : fresh.Returns env v left) : History c ⟨left, vars ++ [v], marks⟩
  | freshTypes {c env vars marks n ts left} (h : History c ⟨env, vars, marks⟩)
      (hts : (freshTypes n).Returns env ts left) :
      History c ⟨left, vars ++ ts.flatMap Ty.vars, marks⟩
  | unify {c env vars marks a b} (h : History c ⟨env, vars, marks⟩) (ha : MayUse vars a)
      (hb : MayUse vars b) : History c ⟨((unify a b).run env).env, vars, marks⟩
  | unifyAll {c env vars marks as bs} (h : History c ⟨env, vars, marks⟩)
      (has : ∀ a ∈ as, MayUse vars a) (hbs : ∀ b ∈ bs, MayUse vars b) :
      History c ⟨((unifyAll as bs).run env).env, vars, marks⟩
  | unifyReferences {c env vars marks r r'} (h : History c ⟨env, vars, marks⟩)
      (hr : ∀ t ∈ r.types, MayUse vars t) (hr' : ∀ t ∈ r'.types, MayUse vars t) :
      History c ⟨((unifyReferences r r').run env).env, vars, marks⟩
  /-- An attempt that returns `true` keeps what was done in it. -/
  | attempt {c env vars marks inner left} {x : Engine Bool} (h : History c ⟨env, vars, marks⟩)
      (hx : History ⟨env, vars, []⟩ ⟨(x.run env).env, inner, left⟩)
      (hkept : (x.run env).outcome = .ok true) :
      History c ⟨((attempt x).run env).env, inner, marks⟩
  /-- An attempt that returns `false` or gives up keeps nothing. -/
  | attemptUndone {c env vars marks inner left} {x : Engine Bool}
      (h : History c ⟨env, vars, marks⟩)
      (hx : History ⟨env, vars, []⟩ ⟨(x.run env).env, inner, left⟩)
      (hundone : (x.run env).outcome ≠ .ok true) :
      History c ⟨((attempt x).run env).env, vars, marks⟩
  | probe {c env vars marks inner left} {α : Type} {x : Engine α}
      (h : History c ⟨env, vars, marks⟩)
      (hx : History ⟨env, vars, []⟩ ⟨(x.run env).env, inner, left⟩) :
      History c ⟨((probe x).run env).env, vars, marks⟩
  | snapshot {c env vars marks} (h : History c ⟨env, vars, marks⟩) :
      History c ⟨env, vars, (env.snapshot, vars) :: marks⟩
  /-- The variables created since the snapshot may no longer be used. -/
  | rollback {c env vars s usable older} (newer : List (Snapshot × List Var))
      (h : History c ⟨env, vars, newer ++ (s, usable) :: older⟩) :
      History c ⟨((rollback s).run env).env, usable, (s, usable) :: older⟩

/-- The invariant of histories: the client may use exactly the variables that exist, its snapshots
remember those of their time, and the environment is reached with these snapshots in hand. -/
structure Sound (c : Client) (ss : List Snapshot) : Prop where
  reached : c.env.ReachedWith (c.marks.map Prod.fst ++ ss)
  vars_eq : c.vars = Env.firstVars c.env.count
  marks_eq : ∀ m ∈ c.marks, m.2 = Env.firstVars m.1.count

namespace Sound

variable {env left : Env} {vars inner : List Var} {marks : List (Snapshot × List Var)}
  {ss : List Snapshot}

theorem covers (h : Sound ⟨env, vars, marks⟩ ss) {t : Ty} (ht : MayUse vars t) : env.Covers t :=
  fun v hv => Env.mem_firstVars.mp (h.vars_eq ▸ ht v hv)

theorem fresh (h : Sound ⟨env, vars, marks⟩ ss) {v : Var} (hv : fresh.Returns env v left) :
    Sound ⟨left, vars ++ [v], marks⟩ ss := by
  obtain ⟨rfl, rfl⟩ := returns_fresh.mp hv
  refine ⟨h.reached.fresh, ?_, h.marks_eq⟩
  have hvars : vars = Env.firstVars env.count := h.vars_eq
  rw [hvars, h.reached.kept.valid.nextVar_eq]
  exact (Env.firstVars_succ env.count).symm

theorem freshTypes (h : Sound ⟨env, vars, marks⟩ ss) {n : Nat} {ts : List Ty}
    (hts : (freshTypes n).Returns env ts left) :
    Sound ⟨left, vars ++ ts.flatMap Ty.vars, marks⟩ ss := by
  induction n generalizing env vars ts with
  | zero =>
      obtain ⟨rfl, rfl⟩ := returns_pure.mp hts
      simpa using h
  | succ n ih =>
      simp only [Engine.freshTypes, returns_bind, returns_pure] at hts
      obtain ⟨v, mid, hv, rest, left', hrest, rfl, rfl⟩ := hts
      simpa using ih (h.fresh hv) hrest

/-- Unifications keep the number of variables, so the client may use the same ones after them. -/
theorem of_allOrNothing (h : Sound ⟨env, vars, marks⟩ ss) {x : Engine Bool}
    (hx : x.AllOrNothing)
    (hreached : (x.run env).env.ReachedWith (marks.map Prod.fst ++ ss))
    (hunified : ∀ left, x.Returns env true left → ∃ eqs, env.Unified eqs left) :
    Sound ⟨(x.run env).env, vars, marks⟩ ss := by
  refine ⟨hreached, ?_, h.marks_eq⟩
  have hcount : (x.run env).env.count = env.count := by
    by_cases htrue : (x.run env).outcome = .ok true
    · obtain ⟨eqs, heqs⟩ := hunified _ ⟨htrue, rfl⟩
      exact heqs.count_eq
    · rw [hx env htrue]
  exact h.vars_eq.trans (congrArg Env.firstVars hcount.symm)

/-- What is attempted or probed starts without a snapshot of its own. -/
theorem inside (h : Sound ⟨env, vars, marks⟩ ss) :
    Sound ⟨env, vars, []⟩ (marks.map Prod.fst ++ ss) :=
  ⟨h.reached, h.vars_eq, by simp⟩

/-- What was done in an attempt is kept, and the snapshots taken in it are forgotten. -/
theorem outside {gone : List (Snapshot × List Var)}
    (hbody : Sound ⟨left, inner, gone⟩ (marks.map Prod.fst ++ ss))
    (hmarks : ∀ m ∈ marks, m.2 = Env.firstVars m.1.count) : Sound ⟨left, inner, marks⟩ ss :=
  ⟨hbody.reached.also.forget _ (List.suffix_append _ _), hbody.vars_eq, hmarks⟩

/-- Going back is going back to a snapshot taken before the first step. -/
theorem unwound (h : Sound ⟨env, vars, marks⟩ ss) {gone : List (Snapshot × List Var)}
    (hbody : Sound ⟨left, inner, gone⟩ (env.snapshot :: (marks.map Prod.fst ++ ss))) :
    Sound ⟨((rollback env.snapshot).run left).env, vars, marks⟩ ss := by
  refine ⟨hbody.reached.rollback.also.forget _ (List.suffix_cons _ _), ?_, h.marks_eq⟩
  rw [hbody.reached.run_rollback]
  exact h.vars_eq

theorem rollback {newer older : List (Snapshot × List Var)} {s : Snapshot} {usable : List Var}
    (h : Sound ⟨env, vars, newer ++ (s, usable) :: older⟩ ss) :
    Sound ⟨((rollback s).run env).env, usable, (s, usable) :: older⟩ ss := by
  have hreached : env.ReachedWith (newer.map Prod.fst ++ s :: (older.map Prod.fst ++ ss)) := by
    simpa using h.reached
  refine ⟨hreached.rollback, ?_, fun m hm => h.marks_eq m (List.mem_append_right _ hm)⟩
  rw [hreached.run_rollback]
  exact h.marks_eq (s, usable) (by simp)

end Sound

/-- A history keeps the invariant, whatever older snapshots there are. -/
theorem History.sound {c c' : Client} (h : History c c') :
    ∀ ss, c.Sound ss → c'.Sound ss := by
  induction h with
  | refl c => exact fun ss hc => hc
  | fresh _ hv ih => exact fun ss hc => (ih ss hc).fresh hv
  | freshTypes _ hts ih => exact fun ss hc => (ih ss hc).freshTypes hts
  | unify _ ha hb ih =>
      intro ss hc
      have h := ih ss hc
      exact h.of_allOrNothing (allOrNothing_unify _ _) (h.reached.unify (h.covers ha) (h.covers hb))
        fun left hleft => ⟨_, unify_unified h.reached.kept.valid (h.covers ha) (h.covers hb) hleft⟩
  | unifyAll _ has hbs ih =>
      intro ss hc
      have h := ih ss hc
      have has' := fun a ha => h.covers (has a ha)
      have hbs' := fun b hb => h.covers (hbs b hb)
      exact h.of_allOrNothing (allOrNothing_unifyAll _ _) (h.reached.unifyAll has' hbs')
        fun left hleft => ⟨_, unifyAll_unified h.reached.kept.valid has' hbs' hleft⟩
  | unifyReferences _ hr hr' ih =>
      intro ss hc
      have h := ih ss hc
      have hcr := fun t ht => h.covers (hr t ht)
      have hcr' := fun t ht => h.covers (hr' t ht)
      exact h.of_allOrNothing (allOrNothing_unifyReferences _ _)
        (h.reached.unifyReferences hcr hcr')
        fun left hleft => ⟨_, (unifyReferences_unified h.reached.kept.valid hcr hcr' hleft).2⟩
  | @attempt c env vars marks inner gone x _ _ hkept ih ihx =>
      intro ss hc
      have h := ih ss hc
      rw [attempt_run_of_true hkept]
      exact (ihx _ h.inside).outside h.marks_eq
  | @attemptUndone c env vars marks inner gone x _ _ hundone ih ihx =>
      intro ss hc
      have h := ih ss hc
      rw [attempt_run_of_ne_true hundone, probe_env]
      exact h.unwound (ihx _ ⟨h.reached.snapshot, h.vars_eq, by simp⟩)
  | @probe c env vars marks inner gone α x _ _ ih ihx =>
      intro ss hc
      have h := ih ss hc
      rw [probe_env]
      exact h.unwound (ihx _ ⟨h.reached.snapshot, h.vars_eq, by simp⟩)
  | snapshot _ ih =>
      intro ss hc
      have h := ih ss hc
      exact ⟨h.reached.snapshot, h.vars_eq, List.forall_mem_cons.mpr ⟨h.vars_eq, h.marks_eq⟩⟩
  | rollback newer _ ih => exact fun ss hc => (ih ss hc).rollback

theorem sound_start : start.Sound [] :=
  ⟨.empty, rfl, by simp [start]⟩

/-- Whatever a client does, its environment stays well kept. -/
theorem History.env_wellKept {c : Client} (h : History start c) : c.env.WellKept c.vars := by
  have hsound := h.sound [] sound_start
  rw [hsound.vars_eq]
  exact hsound.reached.kept.valid.wellKept

/-- Three variables, of which the third stands for lists of the first. -/
def thirdListed : Env :=
  ⟨3, [⟨⟨2, 0⟩, .con "List" [.var ⟨0, 0⟩]⟩]⟩

/-- Let the third variable stand for lists of the first, and see whether that may be an integer. -/
def listThird : Engine Bool := do
  if ← unify (.var ⟨2, 0⟩) (.con "List" [.var ⟨0, 0⟩]) then
    probe (unify (.var ⟨0, 0⟩) (.con "Int" []))
  else
    pure false

theorem history_listThird : History ⟨⟨3, []⟩, [⟨0, 0⟩, ⟨1, 0⟩, ⟨2, 0⟩], []⟩
    ⟨(listThird.run ⟨3, []⟩).env, [⟨0, 0⟩, ⟨1, 0⟩, ⟨2, 0⟩], []⟩ := by
  have hlist := (History.refl ⟨⟨3, []⟩, [⟨0, 0⟩, ⟨1, 0⟩, ⟨2, 0⟩], []⟩).unify (a := .var ⟨2, 0⟩)
    (b := .con "List" [.var ⟨0, 0⟩]) (by decide) (by decide)
  have hint := (History.refl ⟨thirdListed, [⟨0, 0⟩, ⟨1, 0⟩, ⟨2, 0⟩], []⟩).unify (a := .var ⟨0, 0⟩)
    (b := .con "Int" []) (by decide) (by decide)
  exact hlist.probe hint

/-- A client that went back to a snapshot of two variables, and bound a third to the second. -/
def reused : Client :=
  ⟨⟨3, [⟨⟨2, 0⟩, .var ⟨1, 0⟩⟩]⟩, [⟨0, 0⟩, ⟨1, 0⟩, ⟨2, 0⟩], [(⟨0, 2⟩, [⟨0, 0⟩, ⟨1, 0⟩])]⟩

/-- The third variable is created twice. The first time an attempt lets it stand for lists, and a
unification of malformed types gives up after that. -/
theorem history_reused : History start reused := by
  have htwo : (freshTypes 2).Returns .empty [.var ⟨0, 0⟩, .var ⟨1, 0⟩] ⟨2, []⟩ := ⟨rfl, rfl⟩
  have hthird : fresh.Returns ⟨2, []⟩ ⟨2, 0⟩ ⟨3, []⟩ := ⟨rfl, rfl⟩
  have hmarked := ((History.refl start).freshTypes htwo).snapshot
  have hattempted := (hmarked.fresh hthird).attempt history_listThird rfl
  have hgaveUp := hattempted.unify (a := .con "List" []) (b := .con "List" [.var ⟨0, 0⟩])
    (by decide) (by decide)
  have hback := hgaveUp.rollback []
  exact (hback.fresh hthird).unify (a := .var ⟨2, 0⟩) (b := .var ⟨1, 0⟩) (by decide) (by decide)

theorem wellKept_reused : History start reused ∧ reused.env.WellKept reused.vars :=
  ⟨history_reused, history_reused.env_wellKept⟩

end Client

end TraitResolution
