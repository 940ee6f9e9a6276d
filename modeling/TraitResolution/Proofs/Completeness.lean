import TraitResolution.Proofs.Settling

/-!
# Resolution loses no solution

An assignment under which all obligations are derivable survives their resolution: it extends to the
variables created on the way, and no obligation is found to have no impl. What is confirmed is
therefore forced, and an obligation without an impl shows that there is no such assignment.

## Implementation notes

A derivation of an obligation ends with an impl. That impl unifies with the obligation, and a
speculative resolution of its bounds, which are derivable as well, finds none without an impl. So
the impl is among the candidates, and it is the one that is confirmed if there is only one. The
speculation is covered by the same statement for one generation less.
-/

namespace TraitResolution

namespace Assignment

variable {program : Program} {σ τ : Assignment} {os nested : List Obligation}

/-- Every obligation is derivable under the assignment. -/
def Satisfies (σ : Assignment) (program : Program) (os : List Obligation) : Prop :=
  ∀ o ∈ os, program.Derivable (σ.ref o.trait)

theorem satisfies_append :
    σ.Satisfies program (os ++ nested) ↔ σ.Satisfies program os ∧ σ.Satisfies program nested :=
  List.forall_mem_append

theorem satisfies_nestedAll {o : Obligation} {bounds : List Reference} :
    σ.Satisfies program (o.nestedAll bounds) ↔ ∀ b ∈ bounds, program.Derivable (σ.ref b) :=
  Obligation.forall_mem_nestedAll (P := fun b => program.Derivable (σ.ref b))

theorem Satisfies.of_agreesOn {env : Env} (h : σ.Satisfies program os) (hagrees : σ.AgreesOn τ env)
    (hos : env.CoversAll os) : τ.Satisfies program os := by
  intro o ho
  rw [hagrees.ref_eq (hos o ho)]
  exact h o ho

end Assignment

namespace Solver

open Operation Engine

variable {program : Program} {speculate : List Obligation → Engine Resolution} {impl : Impl}
  {o : Obligation} {os nested : List Obligation} {env left : Env} {maxDepth : Int} {n : Nat}
  {r : Resolution} {σ : Assignment}

/-- A run keeps every assignment under which the obligations it settles are derivable, and so are
then the obligations that arise. -/
def Lossless (program : Program) (env : Env) (os : List Obligation) (r : Resolution)
    (nested : List Obligation) (left : Env) : Prop :=
  ∀ σ : Assignment, σ.Solves env → σ.Satisfies program os →
    r.noImpl = [] ∧ ∃ τ : Assignment, σ.AgreesOn τ env ∧ τ.Solves left ∧ τ.Satisfies program nested

theorem lossless_refl {nested : List Obligation} (hr : r.noImpl = []) (hnested : nested = []) :
    Lossless program env os r nested env := by
  intro σ hσ _
  subst hnested
  exact ⟨hr, σ, σ.agreesOn_refl env, hσ, by simp [Assignment.Satisfies]⟩

/-- An assignment under which an applied impl is the last step of a derivation extends to one under
which the bounds of the impl are derivable. -/
theorem Applied.exists_satisfies {vars : List Ty} {bounds : List Reference}
    (h : Applied env impl o vars left) (himpl : impl.VarFree) (henv : env.Valid)
    (ho : env.CoversRef o.trait) (hbounds : impl.boundsWith vars = .ok bounds)
    (hσ : σ.Solves env) (happlies : impl.AppliesTo program (σ.ref o.trait)) :
    ∃ τ : Assignment, σ.AgreesOn τ env ∧ τ.Solves left ∧
      τ.Satisfies program (o.nestedAll bounds) := by
  obtain ⟨rs, instances, hrs, hinstances, hderivable⟩ := happlies
  obtain ⟨τ, hagrees, hτ, hvars⟩ := h.exists_solves himpl henv ho hσ hrs
  refine ⟨τ, hagrees, hτ, Assignment.satisfies_nestedAll.mpr ?_⟩
  have hmap := h.boundsWith_type himpl hbounds τ
  rw [hvars, hinstances] at hmap
  obtain rfl := Except.ok.inj hmap
  exact List.forall_mem_map.mp hderivable

/-- The impl that ends a derivation of an obligation is among the candidates. -/
theorem exists_candidate_of_derivable (hs : ∀ os, (speculate os).Grows)
    (hlossless : ∀ {os env r left}, env.Valid → env.CoversAll os →
      (speculate os).Returns env r left → Lossless program env os r [] left)
    (hprogram : program.VarFree) (henv : env.Valid) (ho : env.CoversRef o.trait) {cs : List Impl}
    (hcs : (candidates program speculate o).Returns env cs left) (hσ : σ.Solves env)
    (h : program.Derivable (σ.ref o.trait)) :
    ∃ impl ∈ cs, impl.AppliesTo program (σ.ref o.trait) := by
  obtain ⟨impl, himpl, happlies⟩ := Program.derivable_iff.mp h
  have hid : impl.trait.id = o.trait.id := happlies.id_eq.symm
  have hfree := hprogram impl himpl
  rcases mem_candidates_or_rejected hs hcs himpl hid with hmem | hrejected
  · exact ⟨impl, hmem, happlies⟩
  · exfalso
    cases hrejected with
    | refused happly =>
        obtain ⟨rs, -, hrs, -⟩ := happlies
        exact not_implements_of_returns henv hfree ho happly hσ rs hrs
    | unsatisfied happly hbounds hspeculate hnoImpl =>
        have happlied := applied_of_returns henv hfree hid ho happly
        have hcovers := Env.coversAll_nestedAll (o := o) (happlied.covers_bounds hfree hbounds)
        obtain ⟨τ, -, hτ, hsatisfies⟩ :=
          happlied.exists_satisfies hfree henv ho hbounds hσ happlies
        exact hnoImpl (hlossless happlied.valid hcovers hspeculate τ hτ hsatisfies).1

/-- Settling one obligation loses no solution. -/
theorem Settled.lossless {p : Resolution × List Obligation}
    (h : Settled maxDepth program speculate o env p left) (hs : ∀ os, (speculate os).Grows)
    (hlossless : ∀ {os env r left}, env.Valid → env.CoversAll os →
      (speculate os).Returns env r left → Lossless program env os r [] left)
    (hprogram : program.VarFree) (henv : env.Valid) (ho : env.CoversRef o.trait) :
    Lossless program env [o] p.1 p.2 left := by
  cases h with
  | overflow hdepth => exact lossless_refl rfl rfl
  | decided hdepth hcs hdecided =>
      have hcandidate : ∀ {σ : Assignment}, σ.Solves env → σ.Satisfies program [o] → _ :=
        fun hσ hsatisfies => exists_candidate_of_derivable hs hlossless hprogram henv ho hcs hσ
          (hsatisfies o (List.mem_singleton.mpr rfl))
      cases hdecided with
      | notEnoughTypes | ambiguous => exact lossless_refl rfl rfl
      | confirmed happly hbounds =>
          intro σ hσ hsatisfies
          obtain ⟨impl, hmem, happlies⟩ := hcandidate hσ hsatisfies
          obtain rfl := List.mem_singleton.mp hmem
          obtain ⟨himpl, hid⟩ := mem_impls_of_mem_candidates hs hcs hmem
          have hfree := hprogram impl himpl
          have happlied := applied_of_returns henv hfree hid ho happly
          exact ⟨rfl, happlied.exists_satisfies hfree henv ho hbounds hσ happlies⟩
      | noImpl hknown =>
          intro σ hσ hsatisfies
          obtain ⟨impl, hmem, -⟩ := hcandidate hσ hsatisfies
          exact absurd hmem List.not_mem_nil

theorem settleAll_lossless {settleOne : Obligation → Engine (Resolution × List Obligation)}
    (hprogress : ∀ {o env p left}, env.Valid → env.CoversRef o.trait →
      (settleOne o).Returns env p left → Progress env p.2 left)
    (hstep : ∀ {o env p left}, env.Valid → env.CoversRef o.trait →
      (settleOne o).Returns env p left → Lossless program env [o] p.1 p.2 left)
    (henv : env.Valid) (hos : env.CoversAll os) {p : Resolution × List Obligation}
    (h : (settleAll settleOne os).Returns env p left) : Lossless program env os p.1 p.2 left := by
  induction os generalizing env p with
  | nil =>
      obtain ⟨rfl, rfl⟩ := returns_settleAll_nil.mp h
      exact lossless_refl rfl rfl
  | cons o os ih =>
      obtain ⟨r, nested, mid, rs, rest, hone, hall, rfl⟩ := returns_settleAll_cons.mp h
      obtain ⟨ho, hos⟩ := List.forall_mem_cons.mp hos
      have hfirst := hprogress henv ho hone
      intro σ hσ hsatisfies
      obtain ⟨hσo, hσos⟩ := List.forall_mem_cons.mp hsatisfies
      obtain ⟨hr, τ, hστ, hτ, hnested⟩ :=
        hstep henv ho hone σ hσ (List.forall_mem_singleton.mpr hσo)
      have hτos : τ.Satisfies program os := Assignment.Satisfies.of_agreesOn hσos hστ hos
      obtain ⟨hrs, ρ, hτρ, hρ, hrest⟩ :=
        ih hfirst.valid (hfirst.extends_env.coversAll hos) hall τ hτ hτos
      refine ⟨?_, ρ, hστ.trans hτρ hfirst.extends_env, hρ, ?_⟩
      · exact List.append_eq_nil_iff.mpr ⟨hr, hrs⟩
      · exact Assignment.satisfies_append.mpr ⟨hnested.of_agreesOn hτρ hfirst.covers, hrest⟩

/-- Resolving obligations loses no solution, whatever the number of generations. -/
theorem resolveWithin_lossless (hprogram : program.VarFree) (henv : env.Valid)
    (hos : env.CoversAll os) (h : (resolveWithin maxDepth program n os).Returns env r left) :
    Lossless program env os r [] left := by
  induction n generalizing env os r left with
  | zero =>
      obtain ⟨-, rfl, rfl⟩ := returns_resolveWithin_zero.mp h
      exact lossless_refl rfl rfl
  | succ n ih =>
      obtain ⟨first, nested, mid, rest, hall, hrest, rfl⟩ := returns_resolveWithin_succ.mp h
      have hs := grows_resolveWithin maxDepth program n
      have hfirst := generation_progress hprogram henv hos hall
      have hgeneration : Lossless program env os first nested mid := by
        refine settleAll_lossless (fun henv ho h => ?_) (fun henv ho h => ?_) henv hos hall
        · exact ((returns_settle hs).mp h).progress hs hprogram henv ho
        · exact ((returns_settle hs).mp h).lossless hs ih hprogram henv ho
      intro σ hσ hsatisfies
      obtain ⟨hr, τ, hστ, hτ, hnested⟩ := hgeneration σ hσ hsatisfies
      obtain ⟨hrs, ρ, hτρ, hρ, hnone⟩ := ih hfirst.valid hfirst.covers hrest τ hτ hnested
      exact ⟨List.append_eq_nil_iff.mpr ⟨hr, hrs⟩, ρ, hστ.trans hτρ hfirst.extends_env, hρ, hnone⟩

/-- Resolution loses no solution. Every assignment that solves the environment and under which all
obligations are derivable extends to a solution of the environment that is left, and no obligation
ends up without an impl. -/
theorem resolve_keeps_solutions {config : Config} (hprogram : program.VarFree)
    (henv : env.Reachable) (hos : env.CoversAll os)
    (h : (resolve config program os).Returns env r left) (σ : Assignment) (hσ : σ.Solves env)
    (hsatisfies : σ.Satisfies program os) :
    r.noImpl = [] ∧ ∃ τ : Assignment, σ.AgreesOn τ env ∧ τ.Solves left := by
  have hlossless := resolveWithin_lossless hprogram henv.valid hos h
  obtain ⟨hnoImpl, τ, hagrees, hτ, -⟩ := hlossless σ hσ hsatisfies
  exact ⟨hnoImpl, τ, hagrees, hτ⟩

/-- Some type is printed. -/
def printable : Obligation :=
  .topLevel "printable" ⟨"Print", .var ⟨0, 0⟩, []⟩

/-- The impl for truth values unifies and is discarded, and lists of integers remain. -/
theorem resolve_keeps_solutions_printable :
    ∃ r left, (resolve .default printing [printable]).Returns Env.empty.created r left ∧
      r.noImpl = [] ∧ ∃ τ : Assignment,
        τ.value ⟨0, 0⟩ = .con "List" [.con "Int" []] ∧ τ.Solves left := by
  let σ : Assignment := ⟨fun _ => .con "List" [.con "Int" []], fun _ => by decide⟩
  have hlist : printing.Derivable (σ.ref printable.trait) := printing_derivable
  have hrun : ∃ r left, (resolve .default printing [printable]).Returns Env.empty.created r left :=
    ⟨_, _, rfl, rfl⟩
  obtain ⟨r, left, hrun⟩ := hrun
  obtain ⟨hnoImpl, τ, hagrees, hτ⟩ := resolve_keeps_solutions (by decide)
    ⟨[], Env.ReachedWith.fresh .empty⟩ (by decide) hrun σ (fun _ hb => nomatch hb)
    (List.forall_mem_singleton.mpr hlist)
  exact ⟨r, left, hrun, hnoImpl, τ, hagrees ⟨0, 0⟩ (by decide), hτ⟩

end Solver

end TraitResolution
