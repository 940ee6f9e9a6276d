import Mathlib.Data.List.Perm.Basic
import TraitResolution.Proofs.Endlessness

/-!
# The order of impls does not matter to resolution

Two programs with the same impls in another order have the same resolutions: the same obligations
are confirmed with the same impls and variables, and the same environment is left. Candidates are
looked for in declaration order, but an obligation is confirmed only if there is exactly one.
-/

namespace TraitResolution

namespace Solver

open Operation Engine

variable {p q : Program} {speculate speculate' : List Obligation → Engine Resolution} {impl : Impl}
  {o : Obligation} {os : List Obligation} {env left : Env} {maxDepth : Int} {n : Nat}
  {r : Resolution}

theorem unifiable_perm (hperm : p.impls.Perm q.impls) (o : Obligation) (env : Env) :
    (unifiable p o env).Perm (unifiable q o env) :=
  (hperm.filter _).filter _

section Speculation

variable (hs : ∀ os, (speculate os).Grows) (hs' : ∀ os, (speculate' os).Grows)
  (hspeculate : ∀ {os env r left}, (speculate os).Returns env r left →
    (speculate' os).Returns env r left)

include hspeculate

theorem weigh_of_speculate {b : Bool} (h : (weigh speculate o impl).Returns env b left) :
    (weigh speculate' o impl).Returns env b left := by
  rw [returns_weigh] at h ⊢
  rcases h with h | ⟨vars, mid, bounds, r, happly, hbounds, hresolve, hb⟩
  · exact Or.inl h
  · exact Or.inr ⟨vars, mid, bounds, r, happly, hbounds, hspeculate hresolve, hb⟩

include hs hs'

theorem viable_of_speculate {b : Bool} (h : (viable speculate o impl).Returns env b left) :
    (viable speculate' o impl).Returns env b left := by
  rw [returns_viable hs] at h
  rw [returns_viable hs']
  obtain ⟨⟨gone, hweigh⟩, rfl⟩ := h
  exact ⟨⟨gone, weigh_of_speculate hspeculate hweigh⟩, rfl⟩

/-- The candidates are the same up to their order. -/
theorem candidates_of_perm (hperm : p.impls.Perm q.impls) {cs : List Impl}
    (h : (candidates p speculate o).Returns env cs env) :
    ∃ cs', cs.Perm cs' ∧ (candidates q speculate' o).Returns env cs' env := by
  obtain ⟨⟨htests, hweighed, rfl⟩, -⟩ := (returns_candidates hs).mp h
  have hunifiable := unifiable_perm hperm o env
  have hlength := hunifiable.length_eq
  have hviable : (unifiable p o env).length ≠ 1 → ∀ impl ∈ unifiable p o env,
      ∃ b, (viable speculate o impl).Returns env b env ∧
        (viable speculate' o impl).Returns env b env := by
    intro hmany impl himpl
    obtain ⟨b, hb⟩ := hweighed hmany impl himpl
    exact ⟨b, hb, viable_of_speculate hs hs' hspeculate hb⟩
  refine ⟨contenders q speculate' o env, ?_, (returns_candidates hs').mpr ⟨⟨?_, ?_, rfl⟩, rfl⟩⟩
  · rw [contenders, contenders, ← hlength]
    by_cases hone : (unifiable p o env).length = 1
    · rw [if_pos hone, if_pos hone]
      exact hunifiable
    · rw [if_neg hone, if_neg hone]
      have hverdict : ∀ impl ∈ unifiable p o env,
          verdict (viable speculate o impl) env = verdict (viable speculate' o impl) env := by
        intro impl himpl
        obtain ⟨b, hb, hb'⟩ := hviable hone impl himpl
        rw [verdict_eq hb, verdict_eq hb']
      rw [List.filter_congr hverdict]
      exact hunifiable.filter _
  · intro impl himpl
    exact htests impl ((hperm.filter _).mem_iff.mpr himpl)
  · intro hmany impl himpl
    obtain ⟨b, -, hb⟩ := hviable (hlength ▸ hmany) impl (hunifiable.mem_iff.mpr himpl)
    exact ⟨b, hb⟩

/-- An obligation is settled the same way. -/
theorem settled_of_perm (hperm : p.impls.Perm q.impls) {x : Resolution × List Obligation}
    (h : Settled maxDepth p speculate o env x left) :
    Settled maxDepth q speculate' o env x left := by
  cases h with
  | overflow hdepth => exact .overflow hdepth
  | decided hdepth hcs hdecided =>
      obtain ⟨cs', hperm', hcs'⟩ := candidates_of_perm hs hs' hspeculate hperm hcs
      refine .decided hdepth hcs' ?_
      cases hdecided with
      | confirmed happly hbounds =>
          obtain rfl := List.singleton_perm.mp hperm'
          exact .confirmed happly hbounds
      | noImpl hknown =>
          obtain rfl := hperm'.nil_eq
          exact .noImpl hknown
      | notEnoughTypes hopen =>
          obtain rfl := hperm'.nil_eq
          exact .notEnoughTypes hopen
      | ambiguous first second others =>
          have hlen := hperm'.length_eq
          match cs' with
          | first' :: second' :: others' => exact .ambiguous first' second' others'

end Speculation

theorem settleAll_of_settle
    {settleOne settleOne' : Obligation → Engine (Resolution × List Obligation)}
    (hstep : ∀ {o env x left}, (settleOne o).Returns env x left →
      (settleOne' o).Returns env x left) {x : Resolution × List Obligation}
    (h : (settleAll settleOne os).Returns env x left) :
    (settleAll settleOne' os).Returns env x left := by
  induction os generalizing env x with
  | nil => exact h
  | cons o os ih =>
      obtain ⟨r, nested, mid, rs, rest, hone, hall, rfl⟩ := returns_settleAll_cons.mp h
      exact returns_settleAll_cons.mpr ⟨r, nested, mid, rs, rest, hstep hone, ih hall, rfl⟩

theorem resolveWithin_of_perm (hperm : p.impls.Perm q.impls)
    (h : (resolveWithin maxDepth p n os).Returns env r left) :
    (resolveWithin maxDepth q n os).Returns env r left := by
  induction n generalizing os env r left with
  | zero => exact returns_resolveWithin_zero.mpr (returns_resolveWithin_zero.mp h)
  | succ n ih =>
      obtain ⟨first, nested, mid, rest, hall, hrest, rfl⟩ := returns_resolveWithin_succ.mp h
      have hs := grows_resolveWithin maxDepth p n
      have hs' := grows_resolveWithin maxDepth q n
      refine returns_resolveWithin_succ.mpr ⟨first, nested, mid, rest, ?_, ih hrest, rfl⟩
      refine settleAll_of_settle (fun h => ?_) hall
      exact (returns_settle hs').mpr (settled_of_perm hs hs' ih hperm ((returns_settle hs).mp h))

/-- Resolution returns the same with the impls in another order, and leaves the same environment. -/
theorem returns_resolve_perm (hperm : p.impls.Perm q.impls) {config : Config} :
    (resolve config p os).Returns env r left ↔ (resolve config q os).Returns env r left :=
  ⟨resolveWithin_of_perm hperm, resolveWithin_of_perm hperm.symm⟩

/-- Resolution does not depend on the order in which impls are declared: it returns the same with
the same environment left, and with a greatest depth it fails in both orders or in none. -/
theorem resolve_ignores_impl_order {traits : List Trait} {impls impls' : List Impl}
    (hperm : impls.Perm impls') (config : Config) (env : Env) (os : List Obligation) :
    (config.maxDepth + 1 < Number.signedLimit →
      (Fails (resolve config ⟨traits, impls⟩ os) env ↔
        Fails (resolve config ⟨traits, impls'⟩ os) env)) ∧
    ∀ r left, (resolve config ⟨traits, impls⟩ os).Returns env r left ↔
      (resolve config ⟨traits, impls'⟩ os).Returns env r left := by
  have hreturns : ∀ r left, (resolve config ⟨traits, impls⟩ os).Returns env r left ↔
      (resolve config ⟨traits, impls'⟩ os).Returns env r left :=
    fun _ _ => returns_resolve_perm hperm
  refine ⟨fun hlimit => ?_, hreturns⟩
  rw [(concludes_resolve _ hlimit os).fails_iff, (concludes_resolve _ hlimit os).fails_iff]
  exact not_congr (exists_congr fun r => exists_congr (hreturns r))

/-- Integers are shown in a way of their own. -/
def intShown : Impl :=
  ⟨"ShowInt", [], ⟨"Show", .con "Int" [], []⟩⟩

/-- Whatever can be copied is shown as well, but only truth values can be copied. -/
def showing : List Impl :=
  [⟨"ShowCopied", [[⟨"Copy", .param 0, []⟩]], ⟨"Show", .param 0, []⟩⟩, intShown,
    ⟨"CopyBool", [], ⟨"Copy", .con "Bool" [], []⟩⟩]

/-- An integer is to be shown, and something unknown. -/
def shown : List Obligation :=
  [.topLevel "int" ⟨"Show", .con "Int" [], []⟩, .topLevel "some" ⟨"Show", .var ⟨0, 0⟩, []⟩]

/-- What loops is shown. -/
def showLoop : Impl :=
  blanket "ShowLoop" "Loop" "Show"

/-- What is odd is shown, but the bound has one type too many. -/
def showOdd : Impl :=
  ⟨"ShowOdd", [[⟨"Odd", .param 0, [.con "Int" []]⟩]], ⟨"Show", .param 0, []⟩⟩

/-- What loops loops, and integers are odd. -/
def loopsAndOdds : List Impl :=
  [blanket "Loop" "Loop" "Loop", ⟨"OddInt", [], ⟨"Odd", .con "Int" [], []⟩⟩]

/-- In whichever order the impls stand, the integer is shown in its own way; and where a bound is
malformed, that is an error. -/
theorem resolve_ignores_impl_order_showing :
    (∃ r left, (resolve .default ⟨[], showing⟩ shown).Returns Env.empty.created r left ∧
      (resolve .default ⟨[], showing.reverse⟩ shown).Returns Env.empty.created r left ∧
      r.confirmed.map (·.impl) = [intShown] ∧ r.deferred = shown.tail) ∧
    Fails (resolve .default ⟨[], showLoop :: showOdd :: loopsAndOdds⟩ shown) Env.empty.created ∧
    Fails (resolve .default ⟨[], showOdd :: showLoop :: loopsAndOdds⟩ shown) Env.empty.created := by
  have hrun : ∃ r left, (resolve .default ⟨[], showing⟩ shown).Returns Env.empty.created r left ∧
      r.confirmed.map (·.impl) = [intShown] ∧ r.deferred = shown.tail :=
    ⟨_, _, ⟨rfl, rfl⟩, rfl, rfl⟩
  obtain ⟨r, left, hrun, hconfirmed⟩ := hrun
  obtain ⟨-, hsame⟩ :=
    resolve_ignores_impl_order showing.reverse_perm.symm .default Env.empty.created shown
  have hfails : Fails (resolve .default ⟨[], showOdd :: showLoop :: loopsAndOdds⟩ shown)
      Env.empty.created := ⟨_, rfl, by decide⟩
  obtain ⟨hboth, -⟩ := resolve_ignores_impl_order (.swap showLoop showOdd loopsAndOdds)
    .default Env.empty.created shown
  exact ⟨⟨r, left, hrun, (hsame r left).mp hrun, hconfirmed⟩, (hboth (by decide)).mp hfails, hfails⟩

/-- Of several impls that unify with an obligation the first is weighed first. -/
theorem neverReturns_of_weigh {impls : List Impl} (hdepth : beyond maxDepth o = false)
    (hunifiable : (select (unifies o) (p.implsOf o.trait.id)).Returns env (impl :: impls) env)
    (hseveral : impls ≠ [])
    (hweigh : NeverReturns (weigh (resolveWithin maxDepth p n) o impl) env) :
    NeverReturns (resolveWithin maxDepth p (n + 1) [o]) env := by
  have hviable : NeverReturns (viable (resolveWithin maxDepth p n) o impl) env :=
    (hweigh.probe (grows_weigh (grows_resolveWithin maxDepth p n) o impl)).bind _
  have hcandidates : NeverReturns (candidates p (resolveWithin maxDepth p n) o) env := by
    refine GivesUpFor.after ?_ hunifiable
    rw [if_neg (by simpa using hseveral)]
    exact hviable.bind _
  have hsettle : NeverReturns (settle maxDepth p (resolveWithin maxDepth p n) o) env := by
    simp only [settle, hdepth, Bool.false_eq_true, if_false]
    exact hcandidates.bind _
  rw [resolveWithin_cons_succ, settleAll_singleton]
  exact hsettle.bind _

/-- Without a greatest depth it depends on the order of two impls whether a search goes on for ever
or comes across a malformed bound. -/
theorem resolve_heeds_impl_order_without_limit :
    (showLoop :: showOdd :: loopsAndOdds).Perm (showOdd :: showLoop :: loopsAndOdds) ∧
    NeverReturns (resolve ⟨9223372036854775807, 8⟩ ⟨[], showLoop :: showOdd :: loopsAndOdds⟩
      [.topLevel "int" ⟨"Show", .con "Int" [], []⟩]) .empty ∧
    Fails (resolve ⟨9223372036854775807, 8⟩ ⟨[], showOdd :: showLoop :: loopsAndOdds⟩
      [.topLevel "int" ⟨"Show", .con "Int" [], []⟩]) .empty := by
  refine ⟨.swap .., ?_, ⟨_, rfl, by decide⟩⟩
  have hloop : ∀ n x mid, Demanded plain "Loop" mid x → NeverReturns
      (resolveWithin 9223372036854775807 ⟨[], showLoop :: showOdd :: loopsAndOdds⟩ n [x]) mid :=
    fun n x mid hx => neverReturns_resolveWithin (by decide) rfl n hx
  have hshow := demanded_con Env.typed_empty "int" "Show" "Int"
  apply neverReturns_of_weigh (n := 18446744073709551615) rfl ⟨rfl, rfl⟩ (List.cons_ne_nil _ _)
  exact hshow.neverReturns_weigh "ShowLoop" rfl (hloop _ _ _)

end Solver

end TraitResolution
