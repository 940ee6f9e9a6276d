import Mathlib.Data.List.Destutter
import Mathlib.Data.List.Sort
import TraitResolution.Proofs.History
import TraitResolution.Proofs.Speculation

/-!
# Free variables

A walk through the bindings finds the variables that some types are still open in, each as often as
it is met. Sorted and without repeats, these are the unbound variables of the resolved types. Types
without any are known for good: as long as no operation goes back before the present moment, they
resolve to what they resolve to now.

## Implementation notes

The walk looks at the root of a type and goes on into the arguments it finds there. `Env.Walks`
states that as an equation. It has one solution in a valid environment, which is found by induction
on the resolved type.

That known types stay known rests on `Env.Adds` alone: bindings are neither dropped nor made twice.
The environments that operations lead to need not be valid for that.
-/

namespace TraitResolution

/-- A routine that removes adjacent duplicates from sorted numbers. -/
def RemovesRepeats (uniq : List Nat → List Nat) : Prop :=
  ∀ l : List Nat, l.Pairwise (· ≤ ·) → uniq l = l.destutter (· ≠ ·)

/-- Numbers that are sorted and rid of adjacent duplicates are determined by which ones occur. -/
theorem RemovesRepeats.mergeSort_eq {uniq : List Nat → List Nat} (h : RemovesRepeats uniq)
    {l is : List Nat} (his : is.Pairwise (· < ·)) (hmem : ∀ i, i ∈ is ↔ i ∈ l) :
    uniq l.mergeSort = is := by
  have hsorted : l.mergeSort.Pairwise (· ≤ ·) := List.pairwise_mergeSort' (· ≤ ·) l
  rw [h _ hsorted, hsorted.destutter_eq_dedup]
  have hle : l.mergeSort.dedup.SortedLE := (hsorted.sublist (List.dedup_sublist _)).sortedLE
  have hlt := List.sortedLT_iff_nodup_and_sortedLE.mpr ⟨List.nodup_dedup _, hle⟩
  apply hlt.eq_of_mem_iff his.sortedLT
  intro i
  rw [List.mem_dedup, List.mem_mergeSort, hmem]

namespace Env

open Engine

variable {env later : Env} {v : Var} {t : Ty} {ts : List Ty} {i : Nat} {is : List Nat}

theorem pairwise_insertIndex (h : is.Pairwise (· < ·)) : (insertIndex i is).Pairwise (· < ·) := by
  induction is with
  | nil => simp [insertIndex]
  | cons k ks ih =>
      obtain ⟨hk, hks⟩ := List.pairwise_cons.mp h
      simp only [insertIndex]
      split
      · rename_i hik
        refine List.pairwise_cons.mpr ⟨List.forall_mem_cons.mpr ⟨hik, fun j hj => ?_⟩, h⟩
        exact Nat.lt_trans hik (hk j hj)
      · split
        · exact h
        · refine List.pairwise_cons.mpr ⟨fun j hj => ?_, ih hks⟩
          rcases mem_insertIndex.mp hj with rfl | hj
          · omega
          · exact hk j hj

/-- The free variables are listed in increasing order, each once. -/
theorem pairwise_freeVars (env : Env) (ts : List Ty) : (env.freeVars ts).Pairwise (· < ·) := by
  rw [freeVars]
  induction ts.flatMap fun t => (env.resolve t).vars.map (·.index) with
  | nil => exact List.Pairwise.nil
  | cons i is ih => exact pairwise_insertIndex ih

/-- `collect` lists the variables a type is open in: it looks at the root and goes on into the
arguments found there. -/
def Walks (env : Env) (collect : Ty → List Nat) : Prop :=
  ∀ t, collect t = match env.shallow t with
    | .con _ args => args.flatMap collect
    | .param _ => []
    | .var v => [v.index]

/-- The walk meets the variables of the resolved type, in their order and as often as they occur. -/
theorem Walks.eq_vars {collect : Ty → List Nat} (h : env.Walks collect) (henv : env.Valid)
    (t : Ty) : collect t = (env.resolve t).vars.map (·.index) := by
  induction hn : (env.resolve t).size using Nat.strong_induction_on generalizing t with
  | h n ih =>
      rw [h t, henv.terminates.vars_resolve t]
      cases hroot : env.shallow t with
      | con name args =>
          -- the arguments at the root resolve to parts of what the type resolves to
          have hlt : ∀ a ∈ args, (env.resolve a).size < n := by
            intro a ha
            rw [← hn, henv.resolve_eq t, hroot]
            exact Ty.size_lt_size_con (List.mem_map_of_mem ha)
          rw [List.map_flatMap]
          exact List.flatMap_congr fun a ha => ih _ (hlt a ha) a rfl
      | param i => rfl
      | var v => rfl

/-- The walk comes to an end, and there is only one. -/
theorem Valid.existsUnique_walks (h : env.Valid) : ∃! collect, env.Walks collect := by
  refine ⟨fun t => (env.resolve t).vars.map (·.index), fun t => ?_, fun collect hcollect => ?_⟩
  · simp only [h.terminates.vars_resolve t]
    cases env.shallow t with
    | con name args => exact List.map_flatMap
    | param i => rfl
    | var v => rfl
  · exact funext (hcollect.eq_vars h)

/-- What the walk collects, sorted and without repeats, is the list of free variables. -/
theorem Walks.freeVars_eq {collect : Ty → List Nat} {uniq : List Nat → List Nat}
    (h : env.Walks collect) (henv : env.Valid) (huniq : RemovesRepeats uniq) (ts : List Ty) :
    uniq (ts.flatMap collect).mergeSort = env.freeVars ts := by
  apply huniq.mergeSort_eq (env.pairwise_freeVars ts)
  intro i
  simp only [mem_freeVars, List.mem_flatMap, h.eq_vars henv, List.mem_map]

/-- In a valid environment the free variables exist and are unbound. -/
theorem Valid.mem_freeVars_iff (h : env.Valid) (hts : ∀ t ∈ ts, env.Covers t) :
    i ∈ env.freeVars ts ↔
      ∃ v, env.Live v ∧ env.value? v = none ∧ v.index = i ∧ ∃ t ∈ ts, v ∈ (env.resolve t).vars := by
  rw [mem_freeVars]
  constructor
  · rintro ⟨t, ht, v, hv, hi⟩
    exact ⟨v, h.covers_resolve (hts t ht) v hv, h.value?_of_mem_resolve hv, hi, t, ht, hv⟩
  · rintro ⟨v, -, -, hi, t, ht, hv⟩
    exact ⟨t, ht, v, hv, hi⟩

/-- If no variable is left of a type, each one in it is bound, and none is left of its value. -/
theorem exists_value?_of_closed {n : Nat} (ht : (env.resolveWithin (n + 1) t).vars = [])
    (hv : v ∈ t.vars) : ∃ u, env.value? v = some u ∧ (env.resolveWithin n u).vars = [] := by
  rw [resolveWithin, List.eq_nil_iff_forall_not_mem] at ht
  cases hvalue : env.value? v with
  | none => exact absurd (Ty.mem_vars_replaceVars.mpr ⟨v, hv, by simp [hvalue]⟩) (ht v)
  | some u =>
      refine ⟨u, rfl, List.eq_nil_iff_forall_not_mem.mpr fun w hw => ?_⟩
      exact ht w (Ty.mem_vars_replaceVars.mpr ⟨v, hv, by simpa [hvalue] using hw⟩)

/-- A type of which no variable is left passes the same bindings later on, however many more it
might pass then. -/
theorem Adds.resolveWithin_eq (h : later.Adds env) {n m : Nat} (hnm : n ≤ m)
    (ht : (env.resolveWithin n t).vars = []) :
    later.resolveWithin m t = env.resolveWithin n t := by
  induction n generalizing m t with
  | zero =>
      have hvars : t.vars = [] := ht
      rw [resolveWithin_eq_replaceVars, resolveWithin]
      refine (Ty.replaceVars_congr fun v hv => ?_).trans (Ty.replaceVars_self t)
      simp [hvars] at hv
  | succ n ih =>
      obtain ⟨m, rfl⟩ : ∃ k, m = k + 1 := ⟨m - 1, by omega⟩
      rw [resolveWithin, resolveWithin]
      apply Ty.replaceVars_congr
      intro v hv
      -- a variable on the way is bound already, and keeps its value
      obtain ⟨u, hu, hclosed⟩ := exists_value?_of_closed ht hv
      simp only [hu, h.value?_eq_some hu]
      exact ih (Nat.le_of_succ_le_succ hnm) hclosed

/-- A type that resolves to one without variables keeps its resolved form. -/
theorem Adds.resolve_eq (h : later.Adds env) (ht : (env.resolve t).vars = []) :
    later.resolve t = env.resolve t :=
  h.resolveWithin_eq h.extends_env.len_le ht

/-- Types that are known stay known, and keep their resolved forms. -/
theorem Adds.fullyBound (h : later.Adds env) (hts : env.fullyBound ts = true) :
    later.fullyBound ts = true ∧ ∀ t ∈ ts, later.resolve t = env.resolve t := by
  have hclosed := fullyBound_iff.mp hts
  have hsame : ∀ t ∈ ts, later.resolve t = env.resolve t :=
    fun t ht => h.resolve_eq (hclosed t ht)
  refine ⟨fullyBound_iff.mpr fun t ht => ?_, hsame⟩
  rw [hsame t ht]
  exact hclosed t ht

/-- In a reachable environment, the free variables of some types are what the walk through the
bindings collects, sorted and without repeats. They are strictly increasing, and are the indices of
the unbound variables of the resolved types. The types are fully bound when no variable is left in
their resolved forms. From then on they stay fully bound and keep these forms, unless something goes
back before that moment. -/
theorem freeVars_exact_fullyBound_stable (henv : env.Reachable) (hts : ∀ t ∈ ts, env.Covers t) :
    (∃! collect, env.Walks collect) ∧
    (∀ collect uniq, env.Walks collect → RemovesRepeats uniq →
      uniq (ts.flatMap collect).mergeSort = env.freeVars ts) ∧
    (env.freeVars ts).Pairwise (· < ·) ∧
    (∀ i, i ∈ env.freeVars ts ↔
      ∃ v, env.Live v ∧ env.value? v = none ∧ v.index = i ∧ ∃ t ∈ ts, v ∈ (env.resolve t).vars) ∧
    (env.fullyBound ts = true ↔ ∀ t ∈ ts, (env.resolve t).vars = []) ∧
    ∀ later, Onward env.snapshot env later → env.fullyBound ts = true →
      later.fullyBound ts = true ∧ ∀ t ∈ ts, later.resolve t = env.resolve t := by
  have hvalid := henv.valid
  refine ⟨hvalid.existsUnique_walks, ?_, env.pairwise_freeVars ts,
    fun i => hvalid.mem_freeVars_iff hts, fullyBound_iff, ?_⟩
  · exact fun collect uniq hcollect huniq => hcollect.freeVars_eq hvalid huniq ts
  · exact fun later hlater hbound => (hlater.adds (Adds.refl env)).fullyBound hbound

/-- A pair of the variable that stands for lists and one that is open, and the lists again. -/
def openTypes : List Ty :=
  [.con "Pair" [.var ⟨1, 0⟩, .var ⟨2, 0⟩], .var ⟨1, 0⟩]

/-- Three variables, of which the second stands for lists of the first, which is an integer. -/
def listedInts : Env :=
  ⟨3, [⟨⟨0, 0⟩, .con "Int" []⟩, ⟨⟨1, 0⟩, .con "List" [.var ⟨0, 0⟩]⟩]⟩

theorem listedInts_reachable : listedInts.Reachable := by
  obtain ⟨ss, hss⟩ := listed_reachable
  exact ⟨ss, hss.unify (a := .var ⟨0, 0⟩) (b := .con "Int" []) (by decide) (by decide)⟩

/-- The walk meets the first variable twice. Once that one is an integer the lists are known. They
stay so while a resolution binds variables, what follows it gives up, and the client goes on. -/
theorem freeVars_exact_listed :
    (∃ collect uniq, listed.Walks collect ∧ RemovesRepeats uniq ∧
      openTypes.flatMap collect = [0, 2, 0] ∧ uniq (openTypes.flatMap collect).mergeSort = [0, 2]) ∧
    ∃ later, Onward listedInts.snapshot listedInts later ∧ later.len = listedInts.len + 2 ∧
      later.fullyBound [.var ⟨1, 0⟩] = true ∧
      later.resolve (.var ⟨1, 0⟩) = .con "List" [.con "Int" []] := by
  constructor
  · have hcovers : ∀ t ∈ openTypes, listed.Covers t := by decide
    obtain ⟨⟨collect, hcollect, -⟩, hfound, -⟩ :=
      freeVars_exact_fullyBound_stable listed_reachable hcovers
    have huniq : RemovesRepeats (List.destutter (· ≠ ·)) := fun _ _ => rfl
    refine ⟨collect, _, hcollect, huniq, ?_, ?_⟩
    · rw [funext (hcollect.eq_vars listed_reachable.valid)]
      decide +kernel
    · rw [hfound _ _ hcollect huniq]
      decide +kernel
  · have hcovers : ∀ t ∈ [Ty.var ⟨1, 0⟩], listedInts.Covers t := by decide
    have hlater := ((Onward.refl listedInts).step (above_tryPrinting listedInts.snapshot)).step
      (.unify (.var ⟨2, 0⟩) (.con "Text" []))
    obtain ⟨-, -, -, -, -, hstable⟩ := freeVars_exact_fullyBound_stable listedInts_reachable hcovers
    obtain ⟨hbound, hsame⟩ := hstable _ hlater (by decide +kernel)
    refine ⟨_, hlater, by decide +kernel, hbound, ?_⟩
    rw [hsame _ (List.mem_singleton.mpr rfl)]
    decide +kernel

end Env

end TraitResolution
