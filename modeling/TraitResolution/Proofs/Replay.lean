import TraitResolution.Proofs.Accounting
import TraitResolution.Proofs.Acyclicity
import TraitResolution.Proofs.Speculation

/-!
# A resolution does what its confirmations say

Resolutions try out many impls, and run whole resolutions to weigh them. None of that is left
behind: the environment after a resolution is the one that results from applying the confirmed
impls, each to its obligation and in the order of the confirmations. So the variables that are new
are those that stand for the parameters of confirmed impls, and all a result speaks of exists.

## Implementation notes

`Solver.Replays` keeps track of the obligations known so far, the given ones and those that arise
from earlier confirmations, and an impl is applied to one of these. What an application needs to
know of its obligation, that its variables exist, is thus at hand at every step.
-/

namespace TraitResolution

/-- The types that a resolution mentions: those of the obligations, and for each confirmation those
of the impl and those its parameters stand for. -/
def Resolution.types (r : Resolution) : List Ty :=
  r.buckets.flatten.flatMap (·.trait.types) ++
    r.confirmed.flatMap fun c => c.replacements ++ c.impl.types

namespace Env

variable {env later : Env} {m n : Nat} {v w : Var}

/-- The variables that follow the next `m` ones are the next ones once these are created. -/
theorem nextVars_append (hcount : later.count = env.count + m) :
    env.nextVars m ++ later.nextVars n = env.nextVars (m + n) := by
  simp [nextVars, hcount, List.range_add, Nat.add_assoc]

/-- From variables that exist, bindings lead to variables that exist. -/
theorem Valid.live_of_leads (henv : env.Valid) (hv : env.Live v)
    (h : Relation.ReflTransGen env.Leads v w) : env.Live w := by
  induction h with
  | refl => exact hv
  | tail _ hlead _ =>
      obtain ⟨t, ht, hw⟩ := hlead
      exact henv.covers_of_value? ht _ hw

end Env

namespace Solver

open Operation Engine

variable {program : Program} {speculate : List Obligation → Engine Resolution} {o : Obligation}
  {os known : List Obligation} {env mid left : Env} {maxDepth : Int} {n : Nat} {r : Resolution}
  {c : Confirmation} {cs ds : List Confirmation}

/-- What arises from an impl that was applied is over variables that exist. -/
theorem Applied.covers_arising (h : Applied env c.impl c.obligation c.replacements left)
    (himpl : c.impl.VarFree) : left.CoversAll c.arising := by
  rw [Confirmation.arising]
  split
  · rename_i bounds hbounds
    exact Env.coversAll_nestedAll (h.covers_bounds himpl hbounds)
  · simp [Env.CoversAll]

/-- From `env`, the impls of the confirmations are applied in order and leave `left`. Each is an
impl of the program, applied to an obligation that is given or arises from an earlier confirmation.
-/
inductive Replays (program : Program) :
    Env → List Obligation → List Confirmation → Env → Prop
  | nil (env : Env) (known : List Obligation) : Replays program env known [] env
  | cons {env mid left : Env} {known : List Obligation} {c : Confirmation}
      {cs : List Confirmation} (hknown : c.obligation ∈ known)
      (himpl : c.impl ∈ program.implsOf c.obligation.trait.id)
      (happly : (apply c.impl c.obligation).Returns env (some c.replacements) mid)
      (hrest : Replays program mid (known ++ c.arising) cs left) :
      Replays program env known (c :: cs) left

namespace Replays

theorem mono (h : Replays program env os cs left) (hsubset : os ⊆ known) :
    Replays program env known cs left := by
  induction h generalizing known with
  | nil env os => exact .nil env known
  | cons hknown himpl happly hrest ih =>
      refine .cons (hsubset hknown) himpl happly (ih ?_)
      exact List.append_subset.mpr ⟨List.subset_append_of_subset_left _ hsubset,
        List.subset_append_right _ _⟩

/-- Confirmations that follow may rest on those before them. -/
theorem append (h : Replays program env known cs mid)
    (hrest : Replays program mid (known ++ cs.flatMap (·.arising)) ds left) :
    Replays program env known (cs ++ ds) left := by
  induction h with
  | nil env known => exact hrest.mono (by simp)
  | cons hknown himpl happly _ ih =>
      refine .cons hknown himpl happly (ih ?_)
      rwa [List.append_assoc, ← List.flatMap_cons]

theorem adds (h : Replays program env known cs left) : left.Adds env := by
  induction h with
  | nil env known => exact Env.Adds.refl env
  | cons hknown himpl happly hrest ih => exact ih.trans (happly.2 ▸ grows_apply _ _ _)

/-- What applications of impls make of an environment: bindings are added, and one variable is
created for each parameter, in the order of the confirmations. -/
structure Books (program : Program) (env : Env) (known : List Obligation)
    (cs : List Confirmation) (left : Env) : Prop where
  valid : left.Valid
  covers : left.CoversAll (known ++ cs.flatMap (·.arising))
  mem_impls : ∀ c ∈ cs, c.impl ∈ program.impls
  count_eq : left.count = env.count + (cs.flatMap (·.impl.params)).length
  length_eq : ∀ c ∈ cs, c.replacements.length = c.impl.params.length
  replacements_eq : cs.flatMap (·.replacements) =
    env.nextVars (cs.flatMap (·.impl.params)).length

/-- One more application before others puts its variables before theirs. -/
theorem books_cons (himpl : c.impl ∈ program.impls)
    (happlied : Applied env c.impl c.obligation c.replacements mid)
    (h : Books program mid (known ++ c.arising) cs left) :
    Books program env known (c :: cs) left where
  valid := h.valid
  covers := by
    rw [List.flatMap_cons, ← List.append_assoc]
    exact h.covers
  mem_impls := List.forall_mem_cons.mpr ⟨himpl, h.mem_impls⟩
  count_eq := by
    rw [h.count_eq, happlied.count_eq, List.flatMap_cons, List.length_append, Nat.add_assoc]
  length_eq := by
    refine List.forall_mem_cons.mpr ⟨?_, h.length_eq⟩
    rw [happlied.vars_eq, Env.length_nextVars]
  replacements_eq := by
    rw [List.flatMap_cons, List.flatMap_cons, List.length_append, h.replacements_eq,
      happlied.vars_eq, Env.nextVars_append happlied.count_eq]

theorem books (h : Replays program env known cs left) (hprogram : program.VarFree)
    (henv : env.Valid) (hknown : env.CoversAll known) : Books program env known cs left := by
  induction h with
  | nil env known => exact ⟨henv, by simpa using hknown, by simp, by simp, by simp, rfl⟩
  | @cons env mid left known c cs hmem himpl happly hrest ih =>
      obtain ⟨himpl, hid⟩ := Program.mem_implsOf.mp himpl
      have hfree := hprogram _ himpl
      -- the obligation is known by now, so its variables exist
      have happlied := applied_of_returns henv hfree hid (hknown _ hmem) happly
      refine books_cons himpl happlied (ih happlied.valid ?_)
      exact Env.coversAll_append (happlied.extends_env.coversAll hknown)
        (happlied.covers_arising hfree)

end Replays

theorem Replays.Books.covers_replacements (h : Replays.Books program env known cs left) :
    ∀ c ∈ cs, ∀ t ∈ c.replacements, left.Covers t := by
  intro c hc t ht v hv
  have hmem : t ∈ cs.flatMap (·.replacements) := List.mem_flatMap.mpr ⟨c, hc, ht⟩
  rw [h.replacements_eq] at hmem
  obtain ⟨hlt, hgen⟩ := Env.covers_nextVars hmem v hv
  exact ⟨h.count_eq ▸ hlt, hgen⟩

theorem Settled.replays {p : Resolution × List Obligation}
    (h : Settled maxDepth program speculate o env p left) (hs : ∀ os, (speculate os).Grows) :
    Replays program env [o] p.1.confirmed left := by
  cases h with
  | overflow hdepth => exact .nil env [o]
  | decided hdepth hcs hdecided =>
      cases hdecided with
      | confirmed happly hbounds =>
          have himpl := mem_impls_of_mem_candidates hs hcs (List.mem_singleton.mpr rfl)
          exact .cons (List.mem_singleton.mpr rfl) (Program.mem_implsOf.mpr himpl) happly
            (.nil left _)
      | noImpl | notEnoughTypes | ambiguous => exact .nil env [o]

theorem settleAll_replays {settleOne : Obligation → Engine (Resolution × List Obligation)}
    (hstep : ∀ {o env p left}, (settleOne o).Returns env p left →
      Replays program env [o] p.1.confirmed left)
    {p : Resolution × List Obligation} (h : (settleAll settleOne os).Returns env p left) :
    Replays program env os p.1.confirmed left := by
  induction os generalizing env p with
  | nil =>
      obtain ⟨rfl, rfl⟩ := returns_settleAll_nil.mp h
      exact .nil left []
  | cons o os ih =>
      obtain ⟨r, nested, mid, rs, rest, hone, hall, rfl⟩ := returns_settleAll_cons.mp h
      refine ((hstep hone).mono (by simp)).append ((ih hall).mono ?_)
      exact List.subset_append_of_subset_left _ (List.subset_cons_self o os)

theorem generation_replays {p : Resolution × List Obligation}
    (h : (settleAll (settle maxDepth program (resolveWithin maxDepth program n)) os).Returns env p
      left) : Replays program env os p.1.confirmed left := by
  have hs := grows_resolveWithin maxDepth program n
  exact settleAll_replays (fun h => ((returns_settle hs).mp h).replays hs) h

/-- A resolution amounts to applying the impls it confirms. -/
theorem resolveWithin_replays (h : (resolveWithin maxDepth program n os).Returns env r left) :
    Replays program env os r.confirmed left := by
  induction n generalizing env os r with
  | zero =>
      obtain ⟨-, rfl, rfl⟩ := returns_resolveWithin_zero.mp h
      exact .nil left os
  | succ n ih =>
      obtain ⟨first, nested, mid, rest, hall, hrest, rfl⟩ := returns_resolveWithin_succ.mp h
      have hnested : nested = first.confirmed.flatMap (·.arising) :=
        (generation_tallies hall).1.nested_eq
      refine (generation_replays hall).append ((ih hrest).mono ?_)
      rw [hnested]
      exact List.subset_append_right _ _

/-- Every type of a result is over variables that exist. -/
theorem covers_types (hprogram : program.VarFree) (haccounts : r.Accounts os)
    (hbooks : Replays.Books program env os r.confirmed left) : ∀ t ∈ r.types, left.Covers t := by
  intro t ht
  rcases List.mem_append.mp ht with ht | ht
  · obtain ⟨o, ho, ht⟩ := List.mem_flatMap.mp ht
    exact hbooks.covers o (haccounts.perm.mem_iff.mp ho) t ht
  · obtain ⟨c, hc, ht⟩ := List.mem_flatMap.mp ht
    rcases List.mem_append.mp ht with ht | ht
    · exact hbooks.covers_replacements c hc t ht
    · intro v hv
      rw [(hprogram _ (hbooks.mem_impls c hc)).vars_eq ht] at hv
      exact absurd hv List.not_mem_nil

/-- A resolution touches the environment only by confirming. What it leaves results from applying
the confirmed impls in order. The bindings of before are at the bottom of the trail, and bound
variables keep their values. One variable is created for each parameter of a confirmed impl, and the
types that stand for the parameters are these variables, in the order of the confirmations. Every
variable that can be reached from the result exists. -/
theorem resolve_replays_confirmations {config : Config} (hprogram : program.VarFree)
    (henv : env.Reachable) (hos : env.CoversAll os)
    (h : (resolve config program os).Returns env r left) :
    Replays program env os r.confirmed left ∧
    env.trail <:+ left.trail ∧
    (∀ v t, env.value? v = some t → left.value? v = some t) ∧
    left.count = env.count + (r.confirmed.flatMap (·.impl.params)).length ∧
    (∀ c ∈ r.confirmed, c.replacements.length = c.impl.params.length) ∧
    r.confirmed.flatMap (·.replacements) =
      (List.range (r.confirmed.flatMap (·.impl.params)).length).map
        (fun i => .var ⟨env.count + i, 0⟩) ∧
    (∀ t ∈ r.types, ∀ v ∈ t.vars, ∀ w, Relation.ReflTransGen left.Leads v w → left.Live w) ∧
    (r.confirmed = [] → left = env) := by
  have hreplays := resolveWithin_replays h
  have hadds := hreplays.adds
  have hbooks := hreplays.books hprogram henv.valid hos
  obtain ⟨haccounts, -⟩ := resolveWithin_accounts h
  refine ⟨hreplays, hadds.extends_env.trail, fun v t => hadds.value?_eq_some, hbooks.count_eq,
    hbooks.length_eq, hbooks.replacements_eq, ?_, ?_⟩
  · intro t ht v hv w hleads
    exact hbooks.valid.live_of_leads (covers_types hprogram haccounts hbooks t ht v hv) hleads
  · intro hnone
    rw [hnone] at hreplays
    cases hreplays
    rfl

/-- Something is printed of which nothing is known yet. -/
def anythingPrinted : List Obligation :=
  [.topLevel "any" ⟨"Print", .var ⟨0, 0⟩, []⟩]

/-- A list and a truth value could be printed, but nothing hashes the latter. To find that out, a
variable is created that stands for the elements of the list, which is forgotten again. It is
created anew when the impl for lists is confirmed. -/
theorem resolve_replays_anythingPrinted :
    ∃ r left, (resolve .default printing anythingPrinted).Returns Env.empty.created r left ∧
      Replays printing Env.empty.created anythingPrinted r.confirmed left ∧
      r.confirmed.map (·.impl) = [printList, showInt] ∧
      r.confirmed.map (·.replacements) = [[.var ⟨1, 0⟩], []] ∧ left.count = 2 ∧
      ∀ t ∈ r.types, ∀ v ∈ t.vars, ∀ w, Relation.ReflTransGen left.Leads v w → left.Live w := by
  have hrun : ∃ r left,
      (resolve .default printing anythingPrinted).Returns Env.empty.created r left ∧
        r.confirmed.map (·.impl) = [printList, showInt] ∧
        r.confirmed.map (·.replacements) = [[.var ⟨1, 0⟩], []] :=
    ⟨_, _, ⟨rfl, rfl⟩, rfl, rfl⟩
  obtain ⟨r, left, hrun, himpls, hvars⟩ := hrun
  obtain ⟨hreplays, -, -, hcount, -, -, hlive, -⟩ := resolve_replays_confirmations (by decide)
    ⟨[], Env.ReachedWith.fresh .empty⟩ (by decide) hrun
  refine ⟨r, left, hrun, hreplays, himpls, hvars, ?_, hlive⟩
  rw [hcount, ← List.flatMap_map, himpls]
  rfl

end Solver

end TraitResolution
