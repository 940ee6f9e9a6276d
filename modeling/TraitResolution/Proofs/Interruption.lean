import TraitResolution.Proofs.ReachableResolution
import TraitResolution.Proofs.Replay

/-!
# Resolutions that are given up

A resolution that comes upon a malformed reference gives up, wherever it has got to. What was tried
out at that moment is undone. What was confirmed before is not: the environment is left as it is
after the impls confirmed so far. So it is as before exactly if applying each of these changed
nothing.

## Implementation notes

`Solver.Interrupted` describes a resolution by what it had settled, the obligation at which it was
given up and those it had not come to. Together they are what a resolution that returns accounts
for.
-/

namespace TraitResolution

theorem Env.Extends.antisymm {env later : Env} (h : later.Extends env) (h' : env.Extends later) :
    later = env := by
  have htrail : env.trail = later.trail := h.trail.eq_of_length_le h'.trail.length_le
  have hcount : env.count = later.count := Nat.le_antisymm h.count h'.count
  cases env
  cases later
  simp_all

namespace Operation

theorem GivesUp.env_eq_of_idle {ε α : Type} {x : Operation ε α} {env left : Env} {e : ε}
    (h : x.GivesUp env e left) (hx : x.Idle env) : left = env :=
  h.2.symm.trans hx

end Operation

namespace Solver

open Operation Engine

variable {program : Program} {speculate : List Obligation → Engine Resolution} {o : Obligation}
  {os as bs nested extra known pending : List Obligation} {env mid left : Env} {maxDepth : Int}
  {n : Nat} {r a : Resolution} {cs last : List Confirmation} {m : Malformed}

theorem givesUp_boundsOf {impl : Impl} {vars : List Ty}
    (h : (boundsOf o impl vars).GivesUp env m left) :
    (∃ e, impl.boundsWith vars = .error e) ∧ left = env := by
  refine ⟨?_, h.env_eq_of_idle (idle_boundsOf vars)⟩
  cases hbounds : impl.boundsWith vars with
  | error e => exact ⟨e, rfl⟩
  | ok bounds =>
      have hreturns : (boundsOf o impl vars).Returns env (o.nestedAll bounds) env :=
        returns_boundsOf.mpr ⟨⟨bounds, hbounds, rfl⟩, rfl⟩
      exact absurd h hreturns.not_givesUp

/-- Where the settling of an obligation is given up, with what was confirmed for it: nothing, or an
impl whose bounds turn out to be malformed. -/
inductive Stuck (program : Program) (o : Obligation) (env : Env) :
    List Confirmation → Env → Prop
  | undecided : Stuck program o env [] env
  | unbounded {impl : Impl} {vars : List Ty} {e : SubstError} {left : Env}
      (himpl : impl ∈ program.implsOf o.trait.id)
      (happly : (apply impl o).Returns env (some vars) left)
      (hbounds : impl.boundsWith vars = .error e) : Stuck program o env [⟨o, impl, vars⟩] left

/-- A candidate applies again when it is confirmed, so only its bounds can be at fault. -/
theorem stuck_of_confirm (hs : ∀ os, (speculate os).Grows) {impl : Impl}
    (hcs : (candidates program speculate o).Returns env [impl] env)
    (h : (confirm o impl).GivesUp env m left) : ∃ cs, Stuck program o env cs left := by
  have hmem : impl ∈ [impl] := List.mem_singleton.mpr rfl
  obtain ⟨vars, mid, happly⟩ := exists_apply_of_mem_candidates hs hcs hmem
  have himpl := Program.mem_implsOf.mpr (mem_impls_of_mem_candidates hs hcs hmem)
  rcases givesUp_bind.mp h with hlost | ⟨vars?, mid', happly', hbounds⟩
  · exact absurd hlost happly.not_givesUp
  · obtain ⟨rfl, rfl⟩ := happly.unique happly'
    rcases givesUp_bind.mp hbounds with hbounds | ⟨_, _, _, hpure⟩
    · obtain ⟨⟨e, he⟩, rfl⟩ := givesUp_boundsOf hbounds
      exact ⟨_, .unbounded himpl happly he⟩
    · exact absurd hpure not_givesUp_pure

theorem stuck_of_settle (hs : ∀ os, (speculate os).Grows)
    (h : (settle maxDepth program speculate o).GivesUp env m left) :
    ∃ cs, Stuck program o env cs left := by
  have hreport : ∀ {event env left} {p : Resolution × List Obligation},
      ¬(report event >>= fun _ => pure p : Engine _).GivesUp env m left := by
    intro event env left p
    rw [givesUp_report_bind]
    exact not_givesUp_pure
  rcases givesUp_ite.mp h with ⟨-, h⟩ | ⟨-, h⟩
  · exact absurd h hreport
  · rcases givesUp_bind.mp h with h | ⟨cs, mid, hcs, h⟩
    · exact h.env_eq_of_idle (idle_candidates hs) ▸ ⟨[], .undecided⟩
    · obtain rfl := ((returns_candidates hs).mp hcs).2
      rcases cs with _ | ⟨impl, _ | ⟨other, cs⟩⟩
      · rcases givesUp_bind.mp h with h | ⟨_, _, _, h⟩
        · exact absurd h (returns_present.mpr ⟨rfl, rfl⟩).not_givesUp
        · rcases givesUp_ite.mp h with ⟨-, h⟩ | ⟨-, h⟩
          · exact absurd h hreport
          · exact absurd h hreport
      · exact stuck_of_confirm hs hcs (givesUp_report_bind.mp h)
      · exact absurd h hreport

/-- A resolution that is given up at `o`. It had settled what is in `r`, and not come to the
obligations in `pending`. What was confirmed last, for `o` itself, has malformed bounds. -/
structure Interrupted (program : Program) (env : Env) (os : List Obligation) (r : Resolution)
    (o : Obligation) (pending : List Obligation) (last : List Confirmation) (left : Env) :
    Prop where
  /-- The environment is the one after the impls that were confirmed. -/
  replays : Replays program env os (r.confirmed ++ last) left
  /-- No obligation is lost, neither a given one nor one that arises from a confirmation. -/
  perm : (r.buckets.flatten ++ o :: pending).Perm (os ++ r.confirmed.flatMap (·.arising))
  last : last = [] ∨ ∃ impl vars e, impl.boundsWith vars = .error e ∧ last = [⟨o, impl, vars⟩]

theorem Stuck.interrupted (h : Stuck program o env cs left) (os : List Obligation) :
    Interrupted program env (o :: os) .empty o os cs left := by
  have hperm : (Resolution.empty.buckets.flatten ++ o :: os).Perm
      (o :: os ++ Resolution.empty.confirmed.flatMap (·.arising)) := by
    simp [Resolution.buckets, Resolution.empty]
  cases h with
  | undecided => exact ⟨.nil _ _, hperm, Or.inl rfl⟩
  | @unbounded impl vars e left himpl happly hbounds =>
      refine ⟨?_, hperm, Or.inr ⟨_, _, _, hbounds, rfl⟩⟩
      exact .cons List.mem_cons_self himpl happly (.nil left _)

/-- What was settled before a part that is interrupted comes first. -/
theorem Interrupted.after (h : Interrupted program mid bs r o pending last left)
    (hreplays : Replays program env os a.confirmed mid) (htallies : a.Tallies as nested)
    (hperm : (os ++ nested).Perm (as ++ (bs ++ extra))) :
    Interrupted program env os (a ++ r) o (pending ++ extra) last left where
  replays := by
    have hbs : bs ⊆ os ++ nested := by
      intro x hx
      exact hperm.mem_iff.mpr (by simp [hx])
    have hconfirmed : (a ++ r).confirmed ++ last = a.confirmed ++ (r.confirmed ++ last) :=
      List.append_assoc _ _ _
    rw [htallies.nested_eq] at hbs
    exact hconfirmed ▸ hreplays.append (h.replays.mono hbs)
  perm := by
    have harising : (a ++ r).confirmed.flatMap (·.arising) =
        nested ++ r.confirmed.flatMap (·.arising) := by
      rw [htallies.nested_eq, ← List.flatMap_append]
      rfl
    rw [harising]
    apply List.perm_iff_count.mpr
    intro x
    have hbuckets := (Resolution.perm_flatten_buckets_append a r).count_eq x
    have hfirst := htallies.perm.count_eq x
    have hrest := h.perm.count_eq x
    have hall := hperm.count_eq x
    simp only [List.count_append, List.count_cons] at hbuckets hfirst hrest hall ⊢
    omega
  last := h.last

/-- A generation is interrupted at the first obligation whose settling is given up. -/
theorem interrupted_of_settleAll
    {settleOne : Obligation → Engine (Resolution × List Obligation)}
    (hstuck : ∀ {o env left}, (settleOne o).GivesUp env m left →
      ∃ cs, Stuck program o env cs left)
    (hreplays : ∀ {o env p left}, (settleOne o).Returns env p left →
      Replays program env [o] p.1.confirmed left)
    (htallies : ∀ {o env p left}, (settleOne o).Returns env p left → p.1.Tallies [o] p.2)
    (h : (settleAll settleOne os).GivesUp env m left) :
    ∃ r o pending last, Interrupted program env os r o pending last left := by
  induction os generalizing env with
  | nil => exact absurd h not_givesUp_pure
  | cons o os ih =>
      rcases givesUp_bind.mp h with hone | ⟨p, mid, hone, h⟩
      · obtain ⟨cs, hcs⟩ := hstuck hone
        exact ⟨_, _, _, _, hcs.interrupted os⟩
      · rcases givesUp_bind.mp h with hall | ⟨_, _, _, hpure⟩
        · obtain ⟨r, x, pending, last, hrest⟩ := ih hall
          have hfirst : Replays program env (o :: os) p.1.confirmed mid :=
            (hreplays hone).mono (by simp)
          have hperm : (o :: os ++ p.2).Perm ([o] ++ (os ++ p.2)) := List.Perm.refl _
          exact ⟨_, _, _, _, hrest.after hfirst (htallies hone) hperm⟩
        · exact absurd hpure not_givesUp_pure

theorem interrupted_of_resolveWithin
    (h : (resolveWithin maxDepth program n os).GivesUp env m left) :
    ∃ r o pending last, Interrupted program env os r o pending last left := by
  induction n generalizing env os with
  | zero =>
      cases os with
      | nil => exact absurd h not_givesUp_pure
      | cons o os =>
          have hleft : left = env := by
            refine h.env_eq_of_idle ?_
            exact ((idle_reportAll _ _).bind fun _ => idle_pure _).ite rfl
          exact hleft ▸ ⟨_, _, _, _, Stuck.undecided.interrupted os⟩
  | succ n ih =>
      have hs := grows_resolveWithin maxDepth program n
      cases os with
      | nil => exact absurd h not_givesUp_pure
      | cons o os =>
          rcases givesUp_bind.mp h with hall | ⟨p, mid, hall, h⟩
          · refine interrupted_of_settleAll (stuck_of_settle hs) (fun hone => ?_) (fun hone => ?_)
              hall
            · exact ((returns_settle hs).mp hone).replays hs
            · exact ((returns_settle hs).mp hone).tallies.1
          · rcases givesUp_bind.mp h with hrest | ⟨_, _, _, hpure⟩
            · obtain ⟨r, x, pending, last, hrest⟩ := ih hrest
              have hperm : (o :: os ++ p.2).Perm (o :: os ++ (p.2 ++ [])) := by simp
              exact ⟨_, _, _, _, hrest.after (generation_replays hall)
                (generation_tallies hall).1 hperm⟩
            · exact absurd hpure not_givesUp_pure

/-- Impls that were applied left the environment as it was exactly if each of them does. -/
theorem Replays.eq_iff (h : Replays program env known cs left) :
    left = env ↔
      ∀ c ∈ cs, (apply c.impl c.obligation).Returns env (some c.replacements) env := by
  induction h with
  | nil env known => simp
  | @cons env mid left known c cs hknown himpl happly hrest ih =>
      rw [List.forall_mem_cons]
      constructor
      · rintro rfl
        have hmid : mid = left :=
          (happly.extends_env (grows_apply _ _)).antisymm hrest.adds.extends_env
        subst hmid
        exact ⟨happly, ih.mp rfl⟩
      · rintro ⟨hfirst, hothers⟩
        obtain ⟨-, rfl⟩ := happly.unique hfirst
        exact ih.mpr hothers

/-- A resolution that gives up keeps what it has confirmed. The bindings of before are at the bottom
of the trail and bound variables keep their values, but the environment is the one after the impls
that were confirmed: those for the obligations settled so far, and possibly one for the obligation
in hand whose bounds are malformed. It is as before exactly if none of these impls changes it. -/
theorem resolve_error_keeps_confirmed {config : Config}
    (h : (resolve config program os).GivesUp env m left) :
    env.trail <:+ left.trail ∧ env.count ≤ left.count ∧
    (∀ v t, env.value? v = some t → left.value? v = some t) ∧
    ∃ r o pending last, Interrupted program env os r o pending last left ∧
      (left = env ↔ ∀ c ∈ r.confirmed ++ last,
        (apply c.impl c.obligation).Returns env (some c.replacements) env) := by
  obtain ⟨r, o, pending, last, hinterrupted⟩ := interrupted_of_resolveWithin h
  have hadds := hinterrupted.replays.adds
  exact ⟨hadds.extends_env.trail, hadds.count, fun v t => hadds.value?_eq_some, r, o, pending, last,
    hinterrupted, hinterrupted.replays.eq_iff⟩

/-- Integers are shown, and lists of what is shown are printed. -/
def listing : Program :=
  ⟨[], [showInt, printList]⟩

/-- Something is shown of which nothing is known yet, and a list of a type parameter is printed. -/
def shownThenListed : List Obligation :=
  [.topLevel "shown" ⟨"Show", .var ⟨0, 0⟩, []⟩,
    .topLevel "listed" ⟨"Print", .con "List" [.param 0], []⟩]

theorem resolve_error_keeps_confirmed_listed :
    ∃ m left, (resolve .default listing shownThenListed).GivesUp Env.empty.created m left ∧
      left ≠ Env.empty.created ∧
      ∃ r o pending last,
        Interrupted listing Env.empty.created shownThenListed r o pending last left ∧
        ¬∀ c ∈ r.confirmed ++ last,
          (apply c.impl c.obligation).Returns Env.empty.created (some c.replacements)
            Env.empty.created := by
  have hrun : ∃ m left,
      (resolve .default listing shownThenListed).GivesUp Env.empty.created m left ∧
        left.len = 1 := ⟨_, _, ⟨rfl, rfl⟩, rfl⟩
  obtain ⟨m, left, hrun, hlen⟩ := hrun
  have hne : left ≠ Env.empty.created := by
    rintro rfl
    cases hlen
  obtain ⟨-, -, -, r, o, pending, last, hinterrupted, hiff⟩ := resolve_error_keeps_confirmed hrun
  exact ⟨m, left, hrun, hne, r, o, pending, last, hinterrupted, fun h => hne (hiff.mpr h)⟩

/-- What is shown is inferred to be an integer, and this is kept when the list turns out to be
malformed. -/
theorem malformed_list_keeps_inference :
    Env.empty.created.Reachable ∧ Env.empty.created.value? ⟨0, 0⟩ = none ∧
      ∃ m left, (resolve .default listing shownThenListed).GivesUp Env.empty.created m left ∧
        left.value? ⟨0, 0⟩ = some (.con "Int" []) :=
  ⟨⟨[], Env.ReachedWith.fresh .empty⟩, rfl, _, _, ⟨rfl, rfl⟩, rfl⟩

end Solver

end TraitResolution
