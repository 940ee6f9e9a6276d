import Mathlib.Data.Multiset.DershowitzManna
import TraitResolution.Proofs.Consistency
import TraitResolution.Proofs.Recursion

/-!
# The queue of obligations runs empty

Obligations are settled in generations, and this is how a queue yields them: the first obligation is
settled, what arises from it joins the end of the queue, and the rest of the queue is next. Settling
may also resolve, for a trial, what would arise from an impl. All that arises lies one deeper than
what it arises from, and nothing arises beyond the greatest depth. So the multiset of the distances
to the greatest depth decreases with every step and with every trial, whatever the program is.

## Implementation notes

That a queue yields generation after generation is shown for a queue cut in two: settling the first
part moves what arises behind the second. The second part and what arose are again such a queue, and
a smaller one.
-/

namespace TraitResolution

namespace Resolution

theorem append_eq (a b : Resolution) :
    a ++ b = ⟨a.confirmed ++ b.confirmed, a.deferred ++ b.deferred, a.overflow ++ b.overflow,
      a.noImpl ++ b.noImpl⟩ := rfl

theorem append_assoc (a b c : Resolution) : a ++ b ++ c = a ++ (b ++ c) := by
  simp only [append_eq, List.append_assoc]

theorem append_empty (r : Resolution) : r ++ empty = r := by
  simp only [append_eq, empty, List.append_nil]

theorem empty_append (r : Resolution) : empty ++ r = r := rfl

end Resolution

namespace Solver

open Operation Engine

variable {config : Config} {program : Program} {speculate : List Obligation → Engine Resolution}
  {o : Obligation} {os xs ys nested : List Obligation} {env left : Env} {maxDepth : Int} {n : Nat}

/-- What is done with a queue of obligations, with the resolution of the rest and of what is tried
out as a parameter. -/
def round (maxDepth : Int) (program : Program) (again : List Obligation → Engine Resolution) :
    List Obligation → Engine Resolution
  | [] => pure .empty
  | o :: os => do
    let (r, nested) ← settle maxDepth program again o
    let rest ← again (os ++ nested)
    pure (r ++ rest)

section Heights

/-- How far an obligation is from lying beyond the greatest depth. -/
def height (maxDepth : Int) (o : Obligation) : Nat :=
  (maxDepth + 1 - o.depth).toNat

/-- The distances of some obligations. -/
def heights (maxDepth : Int) (os : List Obligation) : Multiset Nat :=
  ↑(os.map (height maxDepth))

/-- Some obligations have smaller distances than others. -/
def Lower (maxDepth : Int) (os os' : List Obligation) : Prop :=
  (heights maxDepth os).IsDershowitzMannaLT (heights maxDepth os')

theorem wellFounded_lower (maxDepth : Int) : WellFounded (Lower maxDepth) :=
  InvImage.wf (heights maxDepth) Multiset.wellFounded_isDershowitzMannaLT

/-- Obligations may be replaced by any number of others with smaller distances. -/
theorem lower_of_forall_lt (hxs : xs ≠ [])
    (h : ∀ x ∈ nested, ∃ o ∈ xs, height maxDepth x < height maxDepth o) :
    Lower maxDepth (ys ++ nested) (xs ++ ys) := by
  refine ⟨heights maxDepth ys, heights maxDepth nested, heights maxDepth xs, ?_, ?_, ?_, ?_⟩
  · simpa [heights] using hxs
  · simp [heights]
  · rw [add_comm]
    simp [heights]
  · intro k hk
    obtain ⟨x, hx, rfl⟩ := List.mem_map.mp (Multiset.mem_coe.mp hk)
    obtain ⟨o, ho, hlt⟩ := h x hx
    exact ⟨height maxDepth o, Multiset.mem_coe.mpr (List.mem_map_of_mem ho), hlt⟩

/-- The rest of a queue with what arises from the first obligation is lower than the queue. -/
theorem lower_queue (h : ∀ x ∈ nested, height maxDepth x < height maxDepth o) :
    Lower maxDepth (os ++ nested) (o :: os) :=
  lower_of_forall_lt (List.cons_ne_nil o []) fun x hx => ⟨o, List.mem_singleton_self o, h x hx⟩

/-- What would arise from the first obligation is lower than the queue. -/
theorem lower_trial (h : ∀ x ∈ nested, height maxDepth x < height maxDepth o) :
    Lower maxDepth nested (o :: os) := by
  have hlower : Lower maxDepth ([] ++ nested) (o :: os ++ []) :=
    lower_of_forall_lt (List.cons_ne_nil o os) fun x hx => ⟨o, List.mem_cons_self, h x hx⟩
  rw [List.append_nil] at hlower
  exact hlower

theorem height_lt_of_depth_eq {x : Obligation} (hlimit : maxDepth + 1 < Number.signedLimit)
    (ho : beyond maxDepth o = false) (hx : x.depth = Obligation.depthBelow o.depth) :
    height maxDepth x < height maxDepth o := by
  have hdepth : ¬maxDepth < o.depth := by simpa [beyond] using ho
  have hbelow : Obligation.depthBelow o.depth = o.depth + 1 := if_neg (by omega)
  rw [height, height, hx, hbelow]
  omega

/-- What arises from settled obligations has smaller distances than these. -/
theorem exists_height_lt_of_settleAll (hlimit : maxDepth + 1 < Number.signedLimit)
    {p : Resolution × List Obligation}
    (h : (settleAll (settle maxDepth program (resolveWithin maxDepth program n)) os).Returns env p
      left) : ∀ x ∈ p.2, ∃ o ∈ os, height maxDepth x < height maxDepth o := by
  obtain ⟨htallies, hsplit⟩ := generation_tallies h
  intro x hx
  rw [htallies.nested_eq] at hx
  obtain ⟨c, hc, hx⟩ := List.mem_flatMap.mp hx
  obtain ⟨bounds, hbounds⟩ := htallies.substituted c hc
  rw [Confirmation.arising_eq hbounds] at hx
  have hmem : c.obligation ∈ os :=
    htallies.perm.mem_iff.mp (List.mem_append_left _ (List.mem_map_of_mem hc))
  have hwithin : c.obligation.depth ≤ maxDepth :=
    hsplit.within c.obligation (by simpa using Or.inl ⟨c, hc, rfl⟩)
  have hbeyond : beyond maxDepth c.obligation = false := by simpa [beyond] using hwithin
  exact ⟨c.obligation, hmem,
    height_lt_of_depth_eq hlimit hbeyond (Obligation.depth_of_mem_nestedAll hx)⟩

end Heights

section Queue

theorem settleAll_append (settleOne : Obligation → Engine (Resolution × List Obligation))
    (xs ys : List Obligation) :
    settleAll settleOne (xs ++ ys) =
      settleAll settleOne xs >>= fun p => settleAll settleOne ys >>= fun q =>
        pure (p.1 ++ q.1, p.2 ++ q.2) := by
  induction xs with
  | nil =>
      simp only [List.nil_append, settleAll, pure_bind, Resolution.empty_append, Prod.mk.eta,
        bind_pure]
  | cons x xs ih =>
      simp only [List.cons_append, settleAll, ih, bind_assoc, pure_bind, Resolution.append_assoc,
        List.append_assoc]

theorem settleAll_singleton (settleOne : Obligation → Engine (Resolution × List Obligation))
    (o : Obligation) : settleAll settleOne [o] = settleOne o := by
  simp only [settleAll, pure_bind, Resolution.append_empty, List.append_nil, Prod.mk.eta,
    bind_pure]

/-- Any number of generations that is great enough will do. -/
theorem resolve_eq_resolveWithin (hlimit : config.maxDepth + 1 < Number.signedLimit)
    (hos : ∀ o ∈ os, Reaches config.maxDepth n o) :
    resolve config program os = resolveWithin config.maxDepth program n os :=
  calc resolve config program os
      = resolveWithin config.maxDepth program (max (generations config.maxDepth os) n) os :=
        (resolveWithin_eq hlimit (fun _ => reaches_generations) (Nat.le_max_left _ _)).symm
    _ = resolveWithin config.maxDepth program n os :=
        resolveWithin_eq hlimit hos (Nat.le_max_right _ _)

/-- Obligations are settled the same way whatever the number of generations is. -/
theorem settleAll_resolveWithin (hlimit : config.maxDepth + 1 < Number.signedLimit)
    (hos : ∀ o ∈ os, Reaches config.maxDepth (n + 1) o) :
    settleAll (settle config.maxDepth program (resolveWithin config.maxDepth program n)) os =
      settleAll (settle config.maxDepth program (resolve config program)) os := by
  apply settleAll_congr
  intro o ho
  apply settle_congr
  intro hdepth bounds
  symm
  apply resolve_eq_resolveWithin hlimit
  intro x hx
  exact (hos o ho).nested hdepth (Obligation.depth_of_mem_nestedAll hx)

theorem reaches_succ_generations (maxDepth : Int) (os : List Obligation) :
    ∀ o ∈ os, Reaches maxDepth (generations maxDepth os + 1) o := by
  intro o ho hlimit
  have hreaches := reaches_generations ho hlimit
  omega

theorem resolve_nil (config : Config) (program : Program) :
    resolve config program [] = pure .empty := by
  rw [resolve]
  cases generations config.maxDepth [] <;> rfl

/-- A generation is settled, and then what arose from it is resolved. -/
theorem resolve_eq_generation (hlimit : config.maxDepth + 1 < Number.signedLimit)
    (os : List Obligation) :
    resolve config program os =
      settleAll (settle config.maxDepth program (resolve config program)) os >>= fun p =>
        resolve config program p.2 >>= fun rest => pure (p.1 ++ rest) := by
  cases os with
  | nil => simp only [settleAll, pure_bind, resolve_nil, Resolution.empty_append]
  | cons o os =>
      have hreaches := reaches_succ_generations config.maxDepth (o :: os)
      rw [← settleAll_resolveWithin hlimit hreaches, resolve_eq_resolveWithin hlimit hreaches,
        resolveWithin_cons_succ]
      funext env
      apply bind_run_congr
      intro p mid hp
      rw [resolve_eq_resolveWithin hlimit (reaches_nested hreaches hp)]

theorem exists_height_lt_of_generation (hlimit : config.maxDepth + 1 < Number.signedLimit)
    {p : Resolution × List Obligation}
    (h : (settleAll (settle config.maxDepth program (resolve config program)) os).Returns env p
      left) : ∀ x ∈ p.2, ∃ o ∈ os, height config.maxDepth x < height config.maxDepth o := by
  rw [← settleAll_resolveWithin hlimit (reaches_succ_generations config.maxDepth os)] at h
  exact exists_height_lt_of_settleAll hlimit h

theorem height_lt_of_settle (hlimit : config.maxDepth + 1 < Number.signedLimit)
    {r : Resolution}
    (h : (settle config.maxDepth program (resolve config program) o).Returns env (r, nested) left) :
    ∀ x ∈ nested, height config.maxDepth x < height config.maxDepth o := by
  rw [← settleAll_singleton (settle config.maxDepth program (resolve config program)) o] at h
  intro x hx
  obtain ⟨o', ho', hlt⟩ := exists_height_lt_of_generation hlimit h x hx
  obtain rfl := List.mem_singleton.mp ho'
  exact hlt

/-- What arises from the first part of a queue joins its end. -/
theorem resolve_append (hlimit : config.maxDepth + 1 < Number.signedLimit)
    (xs ys : List Obligation) :
    resolve config program (xs ++ ys) =
      settleAll (settle config.maxDepth program (resolve config program)) xs >>= fun p =>
        resolve config program (ys ++ p.2) >>= fun rest => pure (p.1 ++ rest) := by
  -- the second part and what arose from the first are a lower queue, cut in two as well
  induction hqueue : xs ++ ys using (wellFounded_lower config.maxDepth).induction
    generalizing xs ys with
  | _ queue ih =>
      subst hqueue
      rcases xs with _ | ⟨x, xs⟩
      · simp only [List.nil_append, settleAll, pure_bind, List.append_nil, Resolution.empty_append,
          bind_pure]
      · rw [resolve_eq_generation hlimit, settleAll_append]
        simp only [bind_assoc, pure_bind]
        funext env
        apply bind_run_congr
        intro p mid hp
        have hlower : Lower config.maxDepth (ys ++ p.2) (x :: xs ++ ys) :=
          lower_of_forall_lt (List.cons_ne_nil _ _) (exists_height_lt_of_generation hlimit hp)
        rw [ih _ hlower ys p.2 rfl]
        simp only [bind_assoc, pure_bind, Resolution.append_assoc]

/-- The first obligation of a queue is settled, what arises from it joins the end of the queue, and
the rest of the queue is resolved. -/
theorem resolve_eq_round (hlimit : config.maxDepth + 1 < Number.signedLimit)
    (os : List Obligation) :
    resolve config program os = round config.maxDepth program (resolve config program) os := by
  cases os with
  | nil => exact resolve_nil config program
  | cons o os =>
      have hqueue : resolve config program ([o] ++ os) = _ := resolve_append hlimit [o] os
      rw [List.singleton_append, settleAll_singleton] at hqueue
      exact hqueue

end Queue

section Trials

/-- What is tried out for an impl depends on trials in consistent environments only. -/
theorem weigh_run_congr {speculate' : List Obligation → Engine Resolution} {impl : Impl}
    (henv : env.Consistent)
    (h : ∀ bounds mid, mid.Consistent →
      (speculate (o.nestedAll bounds)).run mid = (speculate' (o.nestedAll bounds)).run mid) :
    (weigh speculate o impl).run env = (weigh speculate' o impl).run env := by
  apply bind_run_congr
  intro vars? mid happly
  have hmid : mid.Consistent := happly.2 ▸ (upholds_apply consistency impl o henv).kept
  cases vars? with
  | none => rfl
  | some vars =>
      apply bind_run_congr
      intro nested left hnested
      obtain ⟨⟨bounds, -, rfl⟩, rfl⟩ := returns_boundsOf.mp hnested
      exact bind_run_congr_left _ (h bounds _ hmid)

theorem settle_run_congr {speculate' : List Obligation → Engine Resolution}
    (hgrows : ∀ os, (speculate os).Grows) (henv : env.Consistent)
    (h : beyond maxDepth o = false → ∀ bounds mid, mid.Consistent →
      (speculate (o.nestedAll bounds)).run mid = (speculate' (o.nestedAll bounds)).run mid) :
    (settle maxDepth program speculate o).run env =
      (settle maxDepth program speculate' o).run env := by
  cases hdepth : beyond maxDepth o with
  | true => simp only [settle, hdepth, if_true]
  | false =>
      have hviable : ∀ impl, (viable speculate o impl).run env =
          (viable speculate' o impl).run env := fun impl =>
        bind_run_congr_left _ (probe_run_congr (weigh_run_congr henv (h hdepth)))
      have hcandidates : (candidates program speculate o).run env =
          (candidates program speculate' o).run env := by
        apply bind_run_congr
        intro unifiable mid hunifiable
        obtain rfl : mid = env := hunifiable.2.symm.trans (idle_select (idle_unifies o) _)
        split
        · rfl
        · exact select_run_congr (idle_viable hgrows o) fun impl _ => hviable impl
      simp only [settle, hdepth, Bool.false_eq_true, if_false]
      exact bind_run_congr_left _ hcandidates

/-- What is done with a queue depends on what is done with lower ones, in consistent environments,
only. -/
theorem round_run_congr (hlimit : config.maxDepth + 1 < Number.signedLimit)
    (henv : env.Consistent) {y : List Obligation → Engine Resolution}
    (hy : ∀ js mid, Lower config.maxDepth js os ∧ mid.Consistent →
      (y js).run mid = (resolve config program js).run mid) :
    (round config.maxDepth program y os).run env =
      (round config.maxDepth program (resolve config program) os).run env := by
  cases os with
  | nil => rfl
  | cons o os =>
      have hgrows := grows_resolve config program
      -- first the trials are exchanged, then the resolution of the rest
      have htrials : (settle config.maxDepth program (resolve config program) o).run env =
          (settle config.maxDepth program y o).run env := by
        apply settle_run_congr hgrows henv
        intro hdepth bounds mid hmid
        have hlower : Lower config.maxDepth (o.nestedAll bounds) (o :: os) :=
          lower_trial fun x hx =>
            height_lt_of_depth_eq hlimit hdepth (Obligation.depth_of_mem_nestedAll hx)
        exact (hy _ mid ⟨hlower, hmid⟩).symm
      calc (round config.maxDepth program y (o :: os)).run env
          = (settle config.maxDepth program (resolve config program) o >>= fun p =>
              y (os ++ p.2) >>= fun rest => pure (p.1 ++ rest)).run env :=
            bind_run_congr_left _ htrials.symm
        _ = (round config.maxDepth program (resolve config program) (o :: os)).run env := by
            apply bind_run_congr
            rintro ⟨r, nested⟩ mid hsettle
            have hmid : mid.Consistent :=
              hsettle.2 ▸ (upholds_settle consistency program hgrows
                (fun _ _ _ => upholds_consistency config program _) henv).kept
            have hlower : Lower config.maxDepth (os ++ nested) (o :: os) :=
              lower_queue (height_lt_of_settle hlimit hsettle)
            exact bind_run_congr_left _ (hy _ mid ⟨hlower, hmid⟩)

end Trials

/-- Whatever the program is, every queue of obligations runs empty, and so does every queue that is
tried out on the way. -/
theorem terminates_resolve (hlimit : config.maxDepth + 1 < Number.signedLimit)
    (os : List Obligation) (henv : env.Consistent) :
    Terminates Env.Consistent (round config.maxDepth program) (resolve config program) os env := by
  induction os using (wellFounded_lower config.maxDepth).induction generalizing env with
  | _ os ih =>
      apply Terminates.unfold henv fun js mid => Lower config.maxDepth js os ∧ mid.Consistent
      · rintro js mid ⟨hlower, hmid⟩
        exact ih js hlower hmid
      · intro y hy
        rw [round_run_congr hlimit henv hy, ← resolve_eq_round hlimit]

end Solver

end TraitResolution
