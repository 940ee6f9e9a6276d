import Mathlib.Data.List.Perm.Basic
import TraitResolution.Proofs.Settling

/-!
# Every obligation is accounted for

A resolution puts each obligation into exactly one bucket. The obligations it speaks of are those it
was given and those that arise from the bounds of the impls it confirmed. None is lost, none counted
twice, and what was only tried out leaves nothing behind.

## Implementation notes

A generation of obligations and the obligations that arise from it are kept apart: the first fill
the buckets, the second are the next generation. Since a generation lies at one depth if the one
before it does, the depths in a bucket never decrease.
-/

namespace TraitResolution

/-- The obligations that arise from a confirmation, one for each bound of the chosen impl. -/
def Confirmation.arising (c : Confirmation) : List Obligation :=
  match c.impl.boundsWith c.replacements with
  | .ok bounds => c.obligation.nestedAll bounds
  | .error _ => []

theorem Confirmation.arising_eq {c : Confirmation} {bounds : List Reference}
    (h : c.impl.boundsWith c.replacements = .ok bounds) :
    c.arising = c.obligation.nestedAll bounds := by
  rw [arising, h]

theorem Obligation.depth_of_mem_nestedAll {o x : Obligation} {bounds : List Reference}
    (hx : x ∈ o.nestedAll bounds) : x.depth = depthBelow o.depth := by
  obtain ⟨k, hk, rfl⟩ := List.mem_mapIdx.mp hx
  rfl

namespace Resolution

variable {a b r : Resolution} {os nested : List Obligation} {maxDepth : Int}

/-- The obligations of a resolution, bucket by bucket. -/
def buckets (r : Resolution) : List (List Obligation) :=
  [r.confirmed.map (·.obligation), r.deferred, r.overflow, r.noImpl]

theorem buckets_append (a b : Resolution) :
    (a ++ b).buckets = List.zipWith (· ++ ·) a.buckets b.buckets := by
  have hconfirmed : (a ++ b).confirmed.map (·.obligation) =
      a.confirmed.map (·.obligation) ++ b.confirmed.map (·.obligation) := List.map_append
  rw [buckets, hconfirmed]
  rfl

/-- Putting two resolutions together keeps all obligations of both. -/
theorem perm_flatten_buckets_append (a b : Resolution) :
    (a ++ b).buckets.flatten.Perm (a.buckets.flatten ++ b.buckets.flatten) := by
  rw [buckets_append]
  apply List.perm_iff_count.mpr
  intro o
  simp only [buckets, List.zipWith_cons_cons, List.zipWith_nil_left, List.flatten_cons,
    List.flatten_nil, List.append_nil, List.count_append]
  omega

/-- The obligations of a resolution are the given ones and those that arise from its confirmations,
and each of them is there as often. -/
structure Accounts (r : Resolution) (os : List Obligation) : Prop where
  substituted : ∀ c ∈ r.confirmed, ∃ bounds, c.impl.boundsWith c.replacements = .ok bounds
  perm : r.buckets.flatten.Perm (os ++ r.confirmed.flatMap (·.arising))

/-- The obligations beyond the greatest depth are those in the overflow. -/
structure SplitAt (maxDepth : Int) (r : Resolution) : Prop where
  overflow : ∀ o ∈ r.overflow, maxDepth < o.depth
  within : ∀ o ∈ r.confirmed.map (·.obligation) ++ r.deferred ++ r.noImpl, o.depth ≤ maxDepth

theorem SplitAt.append (ha : a.SplitAt maxDepth) (hb : b.SplitAt maxDepth) :
    (a ++ b).SplitAt maxDepth := by
  constructor
  · exact List.forall_mem_append.mpr ⟨ha.overflow, hb.overflow⟩
  · intro o ho
    have hbuckets : o ∈ (a.confirmed ++ b.confirmed).map (·.obligation) ++
        (a.deferred ++ b.deferred) ++ (a.noImpl ++ b.noImpl) := ho
    simp only [List.map_append, List.mem_append] at hbuckets
    have hwithin : ∀ {r : Resolution}, r.SplitAt maxDepth →
        (o ∈ r.confirmed.map (·.obligation) ∨ o ∈ r.deferred) ∨ o ∈ r.noImpl →
          o.depth ≤ maxDepth := by
      intro r hr h
      exact hr.within o (by simpa only [List.mem_append] using h)
    rcases hbuckets with ((h | h) | h | h) | h | h
    · exact hwithin ha (.inl (.inl h))
    · exact hwithin hb (.inl (.inl h))
    · exact hwithin ha (.inl (.inr h))
    · exact hwithin hb (.inl (.inr h))
    · exact hwithin ha (.inr h)
    · exact hwithin hb (.inr h)

/-- A generation fills the buckets, and what arises from it is the next one. -/
structure Tallies (r : Resolution) (os nested : List Obligation) : Prop where
  substituted : ∀ c ∈ r.confirmed, ∃ bounds, c.impl.boundsWith c.replacements = .ok bounds
  perm : r.buckets.flatten.Perm os
  nested_eq : nested = r.confirmed.flatMap (·.arising)

theorem tallies_empty : empty.Tallies [] [] :=
  ⟨by simp [empty], List.Perm.refl [], rfl⟩

theorem Tallies.append {os' nested' : List Obligation} (ha : a.Tallies os nested)
    (hb : b.Tallies os' nested') : (a ++ b).Tallies (os ++ os') (nested ++ nested') := by
  refine ⟨List.forall_mem_append.mpr ⟨ha.substituted, hb.substituted⟩, ?_, ?_⟩
  · exact (perm_flatten_buckets_append a b).trans (ha.perm.append hb.perm)
  · rw [ha.nested_eq, hb.nested_eq, ← List.flatMap_append]
    rfl

/-- A generation accounts for itself, and the next ones for what arises from it. -/
theorem Tallies.accounts (ha : a.Tallies os nested) (hb : b.Accounts nested) :
    (a ++ b).Accounts os := by
  refine ⟨List.forall_mem_append.mpr ⟨ha.substituted, hb.substituted⟩, ?_⟩
  have harising : (a ++ b).confirmed.flatMap (·.arising) =
      a.confirmed.flatMap (·.arising) ++ b.confirmed.flatMap (·.arising) := List.flatMap_append
  calc
    (a ++ b).buckets.flatten.Perm (a.buckets.flatten ++ b.buckets.flatten) :=
      perm_flatten_buckets_append a b
    List.Perm _ (os ++ (nested ++ b.confirmed.flatMap (·.arising))) := ha.perm.append hb.perm
    _ = os ++ (a ++ b).confirmed.flatMap (·.arising) := by rw [harising, ha.nested_eq]

/-- Every obligation of a generation at one depth is one of that depth, in whichever bucket. -/
theorem Tallies.depth_eq {d : Int} (h : r.Tallies os nested) (hos : ∀ o ∈ os, o.depth = d) :
    ∀ bucket ∈ r.buckets, ∀ o ∈ bucket, o.depth = d := by
  intro bucket hbucket o ho
  exact hos o (h.perm.mem_iff.mp (List.mem_flatten.mpr ⟨bucket, hbucket, ho⟩))

theorem Tallies.depth_of_mem_nested {d : Int} (h : r.Tallies os nested)
    (hos : ∀ o ∈ os, o.depth = d) : ∀ x ∈ nested, x.depth = Obligation.depthBelow d := by
  intro x hx
  rw [h.nested_eq] at hx
  obtain ⟨c, hc, hx⟩ := List.mem_flatMap.mp hx
  obtain ⟨bounds, hbounds⟩ := h.substituted c hc
  rw [Confirmation.arising_eq hbounds] at hx
  have hdepth : c.obligation.depth = d :=
    h.depth_eq hos _ (by simp [buckets]) c.obligation (List.mem_map_of_mem hc)
  rw [Obligation.depth_of_mem_nestedAll hx, hdepth]

/-- The depths in every bucket begin with `d` or more and never decrease, and what overflows lies
just beyond the greatest depth. -/
structure Layered (maxDepth d : Int) (r : Resolution) : Prop where
  ascending : ∀ bucket ∈ r.buckets, bucket.Pairwise fun o x => o.depth ≤ x.depth
  least : ∀ bucket ∈ r.buckets, ∀ o ∈ bucket, d ≤ o.depth
  overflow : ∀ o ∈ r.overflow, o.depth = maxDepth + 1

theorem forall_mem_buckets_append {P : List Obligation → Prop}
    (h : ∀ xs ys, (xs, ys) ∈ a.buckets.zip b.buckets → P (xs ++ ys)) :
    ∀ bucket ∈ (a ++ b).buckets, P bucket := by
  intro bucket hbucket
  rw [buckets_append, ← List.map_uncurry_zip_eq_zipWith] at hbucket
  obtain ⟨⟨xs, ys⟩, hmem, rfl⟩ := List.mem_map.mp hbucket
  exact h xs ys hmem

/-- Generations at greater depths may follow one at a single depth. -/
theorem Layered.after {d : Int} (ha : ∀ bucket ∈ a.buckets, ∀ o ∈ bucket, o.depth = d)
    (hoverflow : ∀ o ∈ a.overflow, o.depth = maxDepth + 1) (hb : b.Layered maxDepth d) :
    (a ++ b).Layered maxDepth d := by
  refine ⟨forall_mem_buckets_append fun xs ys h => ?_, forall_mem_buckets_append fun xs ys h => ?_,
    List.forall_mem_append.mpr ⟨hoverflow, hb.overflow⟩⟩
  · obtain ⟨hxs, hys⟩ := List.of_mem_zip h
    refine List.pairwise_append.mpr ⟨?_, hb.ascending ys hys, fun o ho x hx => ?_⟩
    · apply List.pairwise_of_forall_mem_list
      intro o ho x hx
      rw [ha xs hxs o ho, ha xs hxs x hx]
    · rw [ha xs hxs o ho]
      exact hb.least ys hys x hx
  · obtain ⟨hxs, hys⟩ := List.of_mem_zip h
    refine List.forall_mem_append.mpr ⟨fun o ho => ?_, hb.least ys hys⟩
    rw [ha xs hxs o ho]

theorem Layered.mono {d e : Int} (h : r.Layered maxDepth e) (hde : d ≤ e) :
    r.Layered maxDepth d :=
  ⟨h.ascending, fun bucket hbucket o ho => Int.le_trans hde (h.least bucket hbucket o ho),
    h.overflow⟩

end Resolution

namespace Solver

open Operation Engine Resolution

variable {program : Program} {speculate : List Obligation → Engine Resolution} {o : Obligation}
  {os : List Obligation} {env left : Env} {maxDepth : Int} {n : Nat} {r : Resolution}

theorem Settled.tallies {p : Resolution × List Obligation}
    (h : Settled maxDepth program speculate o env p left) :
    p.1.Tallies [o] p.2 ∧ p.1.SplitAt maxDepth := by
  cases h with
  | overflow hdepth =>
      have hbeyond : maxDepth < o.depth := by simpa [beyond] using hdepth
      exact ⟨⟨by simp [ofOverflow, Resolution.empty], List.Perm.refl [o], rfl⟩,
        by simpa [ofOverflow] using hbeyond, by simp [ofOverflow, Resolution.empty]⟩
  | decided hdepth hcs hdecided =>
      have hwithin : o.depth ≤ maxDepth := by simpa [beyond] using hdepth
      cases hdecided with
      | confirmed happly hbounds =>
          refine ⟨⟨by simpa [ofConfirmed] using ⟨_, hbounds⟩, List.Perm.refl [o], ?_⟩,
            by simp [ofConfirmed, Resolution.empty], ?_⟩
          · rw [ofConfirmed, List.flatMap_singleton, Confirmation.arising_eq hbounds]
          · simpa [ofConfirmed, Resolution.empty] using hwithin
      | noImpl hknown =>
          exact ⟨⟨by simp [ofNoImpl, Resolution.empty], List.Perm.refl [o], rfl⟩,
            by simp [ofNoImpl, Resolution.empty],
            by simpa [ofNoImpl, Resolution.empty] using hwithin⟩
      | notEnoughTypes | ambiguous =>
          exact ⟨⟨by simp [ofDeferred, Resolution.empty], List.Perm.refl [o], rfl⟩,
            by simp [ofDeferred, Resolution.empty],
            by simpa [ofDeferred, Resolution.empty] using hwithin⟩

theorem settleAll_tallies {settleOne : Obligation → Engine (Resolution × List Obligation)}
    (hstep : ∀ {o env p left}, (settleOne o).Returns env p left →
      p.1.Tallies [o] p.2 ∧ p.1.SplitAt maxDepth)
    {p : Resolution × List Obligation} (h : (settleAll settleOne os).Returns env p left) :
    p.1.Tallies os p.2 ∧ p.1.SplitAt maxDepth := by
  induction os generalizing env p with
  | nil =>
      obtain ⟨rfl, -⟩ := returns_settleAll_nil.mp h
      exact ⟨tallies_empty, by simp [Resolution.empty], by simp [Resolution.empty]⟩
  | cons o os ih =>
      obtain ⟨r, nested, mid, rs, rest, hone, hall, rfl⟩ := returns_settleAll_cons.mp h
      obtain ⟨htallies, hsplit⟩ := hstep hone
      obtain ⟨htallies', hsplit'⟩ := ih hall
      exact ⟨htallies.append htallies', hsplit.append hsplit'⟩

theorem generation_tallies {p : Resolution × List Obligation}
    (h : (settleAll (settle maxDepth program (resolveWithin maxDepth program n)) os).Returns env p
      left) : p.1.Tallies os p.2 ∧ p.1.SplitAt maxDepth := by
  have hs := grows_resolveWithin maxDepth program n
  exact settleAll_tallies (fun h => ((returns_settle hs).mp h).tallies) h

theorem resolveWithin_accounts (h : (resolveWithin maxDepth program n os).Returns env r left) :
    r.Accounts os ∧ r.SplitAt maxDepth := by
  induction n generalizing os env r with
  | zero =>
      obtain ⟨hbeyond, rfl, -⟩ := returns_resolveWithin_zero.mp h
      refine ⟨⟨by simp [ofOverflow, Resolution.empty], ?_⟩, fun o ho => ?_,
        by simp [ofOverflow, Resolution.empty]⟩
      · simp [buckets, ofOverflow, Resolution.empty]
      · simpa [beyond] using hbeyond o ho
  | succ n ih =>
      obtain ⟨first, nested, mid, rest, hall, hrest, rfl⟩ := returns_resolveWithin_succ.mp h
      obtain ⟨htallies, hsplit⟩ := generation_tallies hall
      obtain ⟨haccounts, hsplit'⟩ := ih hrest
      exact ⟨htallies.accounts haccounts, hsplit.append hsplit'⟩

/-- From obligations at one depth, generation follows generation one deeper each time. A depth can
only come round to the least one again if no depth lies beyond the greatest and more generations
than there are positive depths are confirmed. -/
theorem resolveWithin_layered {d : Int} (hos : ∀ o ∈ os, o.depth = d) (hd : d ≤ maxDepth + 1)
    (h : (resolveWithin maxDepth program n os).Returns env r left)
    (hroom : maxDepth + 1 < Number.signedLimit ∨ d + r.confirmed.length < Number.signedLimit) :
    r.Layered maxDepth d := by
  induction n generalizing os d env r with
  | zero =>
      obtain ⟨hbeyond, rfl, -⟩ := returns_resolveWithin_zero.mp h
      have hlast : ∀ o ∈ os, o.depth = maxDepth + 1 := by
        intro o ho
        have hdepth : maxDepth < o.depth := by simpa [beyond] using hbeyond o ho
        have hd' := hos o ho
        omega
      have hempty : Layered maxDepth d .empty :=
        ⟨by simp [buckets, Resolution.empty], by simp [buckets, Resolution.empty],
          by simp [Resolution.empty]⟩
      have happend : ofOverflow os ++ Resolution.empty = ofOverflow os := by
        change Resolution.mk _ _ (os ++ []) _ = _
        rw [List.append_nil]
        rfl
      rw [← happend]
      refine Layered.after (fun bucket hbucket o ho => hos o ?_) hlast hempty
      simp only [buckets, ofOverflow, Resolution.empty, List.map_nil, List.mem_cons,
        List.not_mem_nil, or_false] at hbucket
      rcases hbucket with rfl | rfl | rfl | rfl
      · exact absurd ho List.not_mem_nil
      · exact absurd ho List.not_mem_nil
      · exact ho
      · exact absurd ho List.not_mem_nil
  | succ n ih =>
      obtain ⟨first, nested, mid, rest, hall, hrest, rfl⟩ := returns_resolveWithin_succ.mp h
      obtain ⟨htallies, hsplit⟩ := generation_tallies hall
      have hlength : (first ++ rest).confirmed.length =
          first.confirmed.length + rest.confirmed.length := List.length_append
      have hfirst := htallies.depth_eq hos
      have hoverflow : ∀ o ∈ first.overflow, o.depth = maxDepth + 1 := by
        intro o ho
        have hbeyond := hsplit.overflow o ho
        have hdepth := hfirst first.overflow (by simp [buckets]) o ho
        omega
      refine Layered.after hfirst hoverflow ?_
      cases nested with
      | nil => exact ih (by simp) hd hrest (by omega)
      | cons x nested =>
          -- something arises, so an obligation of this generation was confirmed
          obtain ⟨c, hc, -⟩ : ∃ c ∈ first.confirmed, x ∈ c.arising := by
            rw [← List.mem_flatMap, ← htallies.nested_eq]
            exact List.mem_cons_self
          have hdepth : c.obligation.depth = d :=
            hfirst _ (by simp [buckets]) c.obligation (List.mem_map_of_mem hc)
          have hwithin : c.obligation.depth ≤ maxDepth :=
            hsplit.within c.obligation (by simpa using Or.inl ⟨c, hc, rfl⟩)
          have hpos := List.length_pos_of_mem hc
          have hbelow : Obligation.depthBelow d = d + 1 := if_neg (by omega)
          have hnested := htallies.depth_of_mem_nested hos
          rw [hbelow] at hnested
          exact (ih hnested (by omega) hrest (by omega)).mono (by omega)

/-- No obligation is lost, duplicated or invented. The buckets together hold the given obligations
and, for each confirmation, one obligation for each bound of its impl, named after the confirmed one
and one deeper. The obligations beyond the greatest depth are those in the overflow. When all given
obligations are top-level ones, the depths in each bucket never decrease, and what overflows lies
just beyond the greatest depth. In a search without a greatest depth, this holds while there are
fewer confirmations than positive depths. -/
theorem resolve_accounts {config : Config} (h : (resolve config program os).Returns env r left) :
    (∀ c ∈ r.confirmed, ∃ bounds, c.impl.params.flatten.mapM (Reference.subst c.replacements) =
        .ok bounds ∧ c.arising = bounds.mapIdx fun k bound =>
          ⟨c.obligation.id ++ "." ++ toString k, bound, Obligation.depthBelow c.obligation.depth⟩) ∧
    (config.maxDepth + 1 < Number.signedLimit → ∀ c ∈ r.confirmed,
      Obligation.depthBelow c.obligation.depth = c.obligation.depth + 1) ∧
    r.buckets.flatten.Perm (os ++ r.confirmed.flatMap (·.arising)) ∧
    (∀ o ∈ r.overflow, config.maxDepth < o.depth) ∧
    (∀ o ∈ r.confirmed.map (·.obligation) ++ r.deferred ++ r.noImpl, o.depth ≤ config.maxDepth) ∧
    ((∀ o ∈ os, o.depth = 0) → 0 ≤ config.maxDepth →
      (config.maxDepth + 1 < Number.signedLimit ∨ r.confirmed.length < Number.signedLimit) →
      (∀ bucket ∈ r.buckets, bucket.Pairwise fun o x => o.depth ≤ x.depth) ∧
      ∀ o ∈ r.overflow, o.depth = config.maxDepth + 1) := by
  obtain ⟨haccounts, hsplit⟩ := resolveWithin_accounts h
  refine ⟨fun c hc => ?_, fun hlimit c hc => if_neg ?_, haccounts.perm, hsplit.overflow,
    hsplit.within, fun hos hmax hroom => ?_⟩
  · obtain ⟨bounds, hbounds⟩ := haccounts.substituted c hc
    exact ⟨bounds, hbounds, Confirmation.arising_eq hbounds⟩
  · have hwithin : c.obligation.depth ≤ config.maxDepth :=
      hsplit.within c.obligation (by simpa using Or.inl ⟨c, hc, rfl⟩)
    omega
  · have hlayered := resolveWithin_layered hos (by omega) h (by omega)
    exact ⟨hlayered.ascending, hlayered.overflow⟩

/-- Whatever can be copied is shown if a list of it is shown, and only integers can be copied. -/
def growing : Program :=
  ⟨[], [⟨"Any", [[⟨"Show", .con "List" [.param 0], []⟩, ⟨"Copy", .param 0, []⟩]],
      ⟨"Show", .param 0, []⟩⟩,
    ⟨"Int", [], ⟨"Copy", .con "Int" [], []⟩⟩]⟩

/-- An integer is to be shown, and something unknown to be hashed. -/
def shownAndHashed : List Obligation :=
  [.topLevel "int" ⟨"Show", .con "Int" [], []⟩, .topLevel "some" ⟨"Hash", .var ⟨0, 0⟩, []⟩]

/-- To show the integer, lists of lists are to be shown until the greatest depth is passed. Each
bucket holds something in the end. -/
theorem resolve_accounts_growing :
    ∃ r left, (resolve .default growing shownAndHashed).Returns Env.empty.created r left ∧
      r.buckets.map List.length = [6, 1, 2, 3] ∧
      r.buckets.flatten.Perm (shownAndHashed ++ r.confirmed.flatMap (·.arising)) ∧
      (∀ bucket ∈ r.buckets, bucket.Pairwise fun o x => o.depth ≤ x.depth) ∧
      ∀ o ∈ r.overflow, o.depth = 5 := by
  have hrun : ∃ r left, (resolve .default growing shownAndHashed).Returns Env.empty.created r left ∧
      r.buckets.map List.length = [6, 1, 2, 3] := ⟨_, _, ⟨rfl, rfl⟩, rfl⟩
  obtain ⟨r, left, hrun, hlengths⟩ := hrun
  obtain ⟨-, -, hperm, -, -, hlayered⟩ := resolve_accounts hrun
  obtain ⟨hascending, hoverflow⟩ := hlayered (by decide) (by decide) (.inl (by decide))
  exact ⟨r, left, hrun, hlengths, hperm, hascending, hoverflow⟩

end Solver

end TraitResolution
