import Mathlib.Data.List.Nodup
import Mathlib.Logic.Relation
import TraitResolution.Proofs.Accounting
import TraitResolution.Proofs.CatalogueSafety
import TraitResolution.Proofs.Checking

/-!
# When an id names one obligation

The ids that a document declares differ from each other, and an obligation that arises from a bound
has the id of the one it arises from with a dot and a position after it. So two obligations that
arise have the same id only if those they arise from have. Nothing keeps a declared id from being
the one of an obligation that arises: this is the one way in which an id comes to name several
obligations. An id that names one obligation has the outcome of that obligation, and a difference
from expectations that mentions the id is about it alone.
-/

namespace TraitResolution

open Relation

/-- A name was made from another one for some position. -/
def Text.Child (parent id : Text) : Prop :=
  ∃ k, id = parent.child k

namespace Confirmation

theorem ids_nestedAll (o : Obligation) (bounds : List Reference) :
    (o.nestedAll bounds).map (·.id) = (List.range bounds.length).map o.id.child := by
  apply List.ext_getElem
  · simp [Obligation.nestedAll]
  · intro k hk hk'
    simp [Obligation.nestedAll, Obligation.nested, Text.child]

/-- The ids of what arises from a confirmation, up to a number of positions. -/
theorem exists_ids_arising (c : Confirmation) :
    ∃ n, c.arising.map (·.id) = (List.range n).map c.obligation.id.child := by
  rw [arising]
  split
  · exact ⟨_, ids_nestedAll _ _⟩
  · exact ⟨0, rfl⟩

theorem child_of_mem_arising {c : Confirmation} {x : Obligation} (hx : x ∈ c.arising) :
    c.obligation.id.Child x.id := by
  obtain ⟨n, hids⟩ := exists_ids_arising c
  have hmem : x.id ∈ (List.range n).map c.obligation.id.child :=
    hids ▸ List.mem_map_of_mem (f := (·.id)) hx
  obtain ⟨k, -, hk⟩ := List.mem_map.mp hmem
  exact ⟨k, hk.symm⟩

/-- What arises from one confirmation has different ids. -/
theorem count_arising_le (c : Confirmation) (id : Text) (k : Nat) :
    (c.arising.map (·.id)).count (id.child k) ≤ [c.obligation.id].count id := by
  obtain ⟨n, hids⟩ := exists_ids_arising c
  rw [hids]
  by_cases hid : c.obligation.id = id
  · have hnodup : ((List.range n).map c.obligation.id.child).Nodup :=
      List.Nodup.map (fun _ _ h => (Text.child_inj h).2) List.nodup_range
    rw [hid, List.count_singleton_self, ← hid]
    exact List.nodup_iff_count_le_one.mp hnodup _
  · rw [List.count_eq_zero_of_not_mem]
    · exact Nat.zero_le _
    · intro hmem
      obtain ⟨m, -, hm⟩ := List.mem_map.mp hmem
      exact hid (Text.child_inj hm).1

/-- What arises from some confirmations has one id at most as often as they have. -/
theorem count_flatMap_arising_le (cs : List Confirmation) (id : Text) (k : Nat) :
    ((cs.flatMap (·.arising)).map (·.id)).count (id.child k) ≤
      (cs.map (·.obligation.id)).count id := by
  induction cs with
  | nil => exact Nat.le_refl _
  | cons c cs ih =>
      have hone := count_arising_le c id k
      have hcons : (c :: cs).map (·.obligation.id) =
          [c.obligation.id] ++ cs.map (·.obligation.id) := rfl
      rw [List.flatMap_cons, List.map_append, List.count_append, hcons, List.count_append]
      exact Nat.add_le_add hone ih

end Confirmation

namespace Resolution

variable {r : Resolution} {os : List Obligation} {o x : Obligation} {id : Text}

/-- The obligations in a bucket. -/
def held (r : Resolution) : Outcome → List Obligation
  | .confirmed => r.confirmed.map (·.obligation)
  | .deferred => r.deferred
  | .overflow => r.overflow
  | .noImpl => r.noImpl
  | .unknown => []

/-- The ids of all obligations of a resolution. -/
def ids (r : Resolution) : List Text :=
  r.buckets.flatten.map (·.id)

/-- The obligations that arise from what a resolution confirms. -/
def arisen (r : Resolution) : List Obligation :=
  r.confirmed.flatMap (·.arising)

section Outcomes

theorem ids_eq (r : Resolution) :
    r.ids = (r.held .confirmed).map (·.id) ++ ((r.held .deferred).map (·.id) ++
      ((r.held .overflow).map (·.id) ++ (r.held .noImpl).map (·.id))) := by
  simp [ids, buckets, held]

/-- An id that some obligation has is the id of one in the bucket found for it. -/
theorem mem_held_outcome (hid : id ∈ r.ids) : id ∈ (r.held (r.outcome id)).map (·.id) := by
  have hany : ∀ l : List Obligation, l.any (·.id == id) = true ↔ id ∈ l.map (·.id) := by
    intro l
    rw [List.any_eq_true, List.mem_map]
    simp only [beq_iff_eq]
  have hconfirmed : r.confirmed.any (·.obligation.id == id) = true ↔
      id ∈ (r.held .confirmed).map (·.id) := by
    rw [← hany, held, List.any_map]
    rfl
  rw [outcome]
  split_ifs with h h' h'' h'''
  · exact hconfirmed.mp h
  · exact (hany _).mp h'
  · exact (hany _).mp h''
  · exact (hany _).mp h'''
  · rw [hconfirmed] at h
    rw [hany] at h' h'' h'''
    simp only [ids_eq, List.mem_append] at hid
    tauto

theorem eq_of_count_eq_one {b b' : Outcome} (hone : r.ids.count id = 1)
    (hb : id ∈ (r.held b).map (·.id)) (hb' : id ∈ (r.held b').map (·.id)) : b = b' := by
  have hpos := List.count_pos_iff.mpr hb
  have hpos' := List.count_pos_iff.mpr hb'
  have hnone : ((r.held .unknown).map (·.id)).count id = 0 := rfl
  simp only [ids_eq, List.count_append] at hone
  -- in two different buckets the id would be counted twice
  by_contra hne
  cases b <;> cases b' <;> simp at hne <;> omega

/-- The outcome of an id that one obligation has is the bucket of that obligation. -/
theorem outcome_eq_of_mem_held {b : Outcome} (hb : o ∈ r.held b) (hone : r.ids.count o.id = 1) :
    r.outcome o.id = b := by
  have hid : o.id ∈ r.ids := List.count_pos_iff.mp (by omega)
  exact eq_of_count_eq_one hone (mem_held_outcome hid) (List.mem_map_of_mem hb)

end Outcomes

section Names

theorem exists_confirmed_of_mem_arisen (hx : x ∈ r.arisen) :
    ∃ c ∈ r.confirmed, c.obligation.id.Child x.id := by
  obtain ⟨c, hc, hx⟩ := List.mem_flatMap.mp hx
  exact ⟨c, hc, Confirmation.child_of_mem_arising hx⟩

theorem mem_flatten_of_mem_confirmed {c : Confirmation} (hc : c ∈ r.confirmed) :
    c.obligation ∈ r.buckets.flatten :=
  List.mem_flatten.mpr ⟨_, List.mem_cons_self, List.mem_map_of_mem hc⟩

/-- Obligations with one id arise only from confirmations with one id. -/
theorem count_arisen_le (r : Resolution) (id : Text) (k : Nat) :
    (r.arisen.map (·.id)).count (id.child k) ≤ r.ids.count id := by
  calc (r.arisen.map (·.id)).count (id.child k)
      ≤ (r.confirmed.map (·.obligation.id)).count id :=
        Confirmation.count_flatMap_arising_le r.confirmed id k
    _ = ((r.held .confirmed).map (·.id)).count id := by rw [held, List.map_map]; rfl
    _ ≤ r.ids.count id := by
        rw [ids_eq, List.count_append]
        exact Nat.le_add_right _ _

theorem Accounts.count_ids (h : r.Accounts os) (id : Text) :
    r.ids.count id = (os.map (·.id)).count id + (r.arisen.map (·.id)).count id := by
  rw [ids, (h.perm.map _).count_eq, List.map_append, List.count_append]
  rfl

/-- If no given obligation has the id of one that arises, then no id occurs twice. -/
theorem Accounts.count_ids_le_one (h : r.Accounts os) (hos : (os.map (·.id)).Nodup)
    (hapart : ∀ o ∈ os, ∀ x ∈ r.arisen, x.id ≠ o.id) (id : Text) : r.ids.count id ≤ 1 := by
  -- the id of what an obligation arises from is shorter
  induction hlength : id.glyphs.length using Nat.strong_induction_on generalizing id with
  | _ n ih =>
      rw [h.count_ids]
      by_cases harisen : id ∈ r.arisen.map (·.id)
      · obtain ⟨x, hx, rfl⟩ := List.mem_map.mp harisen
        have hgiven : (os.map (·.id)).count x.id = 0 := by
          apply List.count_eq_zero_of_not_mem
          intro hmem
          obtain ⟨o, ho, heq⟩ := List.mem_map.mp hmem
          exact hapart o ho x hx heq.symm
        obtain ⟨c, -, k, hk⟩ := exists_confirmed_of_mem_arisen hx
        have hshorter : c.obligation.id.glyphs.length < n := by
          rw [← hlength, hk]
          exact Text.length_glyphs_lt_child _ k
        have hparent := ih _ hshorter c.obligation.id rfl
        have hle := count_arisen_le r c.obligation.id k
        rw [← hk] at hle
        omega
      · rw [List.count_eq_zero_of_not_mem harisen, Nat.add_zero]
        exact List.nodup_iff_count_le_one.mp hos id

theorem Accounts.nodup_ids_iff (h : r.Accounts os) (hos : (os.map (·.id)).Nodup) :
    r.ids.Nodup ↔ ∀ o ∈ os, ∀ x ∈ r.arisen, x.id ≠ o.id := by
  constructor
  · intro hnodup o ho x hx heq
    have hcount := h.count_ids o.id
    have hgiven : 0 < (os.map (·.id)).count o.id := List.count_pos_iff.mpr (List.mem_map_of_mem ho)
    have harisen : 0 < (r.arisen.map (·.id)).count o.id :=
      List.count_pos_iff.mpr (heq ▸ List.mem_map_of_mem hx)
    have hone := List.nodup_iff_count_le_one.mp hnodup o.id
    omega
  · intro hapart
    exact List.nodup_iff_count_le_one.mpr (h.count_ids_le_one hos hapart)

/-- The id of an obligation is a given one or made from a given one. -/
theorem Accounts.exists_given (h : r.Accounts os) (hx : x ∈ r.buckets.flatten) :
    ∃ o ∈ os, ReflTransGen Text.Child o.id x.id := by
  induction hlength : x.id.glyphs.length using Nat.strong_induction_on generalizing x with
  | _ n ih =>
      rcases List.mem_append.mp (h.perm.mem_iff.mp hx) with hgiven | harisen
      · exact ⟨x, hgiven, .refl⟩
      · obtain ⟨c, hc, hchild⟩ := exists_confirmed_of_mem_arisen harisen
        have hshorter : c.obligation.id.glyphs.length < n := by
          obtain ⟨k, hk⟩ := hchild
          rw [← hlength, hk]
          exact Text.length_glyphs_lt_child _ k
        obtain ⟨o, ho, hway⟩ := ih _ hshorter (mem_flatten_of_mem_confirmed hc) rfl
        exact ⟨o, ho, hway.tail hchild⟩

theorem Accounts.exists_given_of_mem_arisen (h : r.Accounts os) (hx : x ∈ r.arisen) :
    ∃ o ∈ os, TransGen Text.Child o.id x.id := by
  obtain ⟨c, hc, hchild⟩ := exists_confirmed_of_mem_arisen hx
  obtain ⟨o, ho, hway⟩ := h.exists_given (mem_flatten_of_mem_confirmed hc)
  exact ⟨o, ho, TransGen.tail' hway hchild⟩

end Names

end Resolution

namespace Catalogue

open Resolution Expectation

/-- No two obligations that a document declares have the same id. -/
theorem Document.nodup_obligations {d : Document} {c : Catalogue} (h : d.compile = .ok c) :
    (c.obligations.map (·.id)).Nodup := by
  have hdescribes := d.compile_iff.mp h
  have hids : c.obligations.map (·.id) = (d.obligations.getD []).map (·.id) :=
    map_eq_map_of_forall₂ (fun _ _ hstands => hstands.id) hdescribes.obligations
  rw [hids]
  exact hdescribes.obligationIds

/-- The differences from expectations that mention an id are about its outcome. -/
theorem mem_mismatches_outcome {r : Report} {e : Expectations} {id : Text} {want got : Outcome} :
    .outcome id want got ∈ r.mismatches e ↔
      id ∈ e.ids want ∧ got = r.resolution.outcome id ∧ want ≠ got := by
  have hbucket : ∀ b ids, .outcome id want got ∈ outcomes r b ids ↔
      b = want ∧ id ∈ ids.getD [] ∧ got = r.resolution.outcome id ∧ want ≠ got := by
    intro b ids
    rw [mem_outcomes]
    constructor
    · rintro ⟨id, hid, hne, heq⟩
      cases heq
      exact ⟨rfl, hid, rfl, Ne.symm hne⟩
    · rintro ⟨rfl, hid, rfl, hne⟩
      exact ⟨id, hid, Ne.symm hne, rfl⟩
  have hconflicts : .outcome id want got ∉ conflicts r e.conflicts := by
    cases e.conflicts with
    | none => exact List.not_mem_nil
    | some pairs => simp [conflicts]
  have hanswers : .outcome id want got ∉ answers r e.methods := by
    cases e.methods with
    | none => exact List.not_mem_nil
    | some kinds =>
        intro hmem
        rcases List.mem_append.mp hmem with hmem | hmem
        · split at hmem <;> simp at hmem
        · obtain ⟨⟨kind, a⟩, -, hp⟩ := List.mem_filterMap.mp hmem
          simp at hp
  simp only [Report.mismatches, List.mem_append, hbucket, hconflicts, hanswers, or_false]
  cases want <;> simp [Expectations.ids]

variable {d : Document} {c : Catalogue} {r : Report}

/-- No id names two obligations of a report exactly if no obligation that arises has a declared id.
This is so if no declared id is made from another one by putting positions after it. The outcome of
an id that names one obligation is the bucket of that obligation, and a difference from expectations
mentions the id exactly if it is listed for another bucket. -/
theorem run_ids_nodup_iff (hc : d.compile = .ok c) (hrun : c.run.outcome = .ok r) :
    (r.resolution.ids.Nodup ↔
      ∀ o ∈ c.obligations, ∀ x ∈ r.resolution.arisen, x.id ≠ o.id) ∧
    ((∀ o ∈ c.obligations, ∀ p ∈ c.obligations, ¬TransGen Text.Child o.id p.id) →
      r.resolution.ids.Nodup) ∧
    ∀ bucket, ∀ o ∈ r.resolution.held bucket, r.resolution.ids.count o.id = 1 →
      r.resolution.outcome o.id = bucket ∧ ∀ e want got,
        .outcome o.id want got ∈ r.mismatches e ↔
          o.id ∈ e.ids want ∧ got = bucket ∧ want ≠ bucket := by
  obtain ⟨mid, -, hresolve, -⟩ := returns_of_run hrun
  have haccounts : r.resolution.Accounts c.obligations :=
    (Solver.resolveWithin_accounts hresolve).1
  have hiff := haccounts.nodup_ids_iff (Document.nodup_obligations hc)
  refine ⟨hiff, fun hmade => hiff.mpr fun o ho x hx heq => ?_, fun bucket o ho hone => ?_⟩
  · obtain ⟨p, hp, hway⟩ := haccounts.exists_given_of_mem_arisen hx
    exact hmade p hp o ho (heq ▸ hway)
  · have houtcome := outcome_eq_of_mem_held ho hone
    refine ⟨houtcome, fun e want got => ?_⟩
    rw [mem_mismatches_outcome, houtcome]
    constructor
    · rintro ⟨hid, rfl, hne⟩
      exact ⟨hid, rfl, hne⟩
    · rintro ⟨hid, rfl, hne⟩
      exact ⟨hid, rfl, hne⟩

/-- A list of integers and a text are to be shown, and only integers and lists can be. -/
def asked (list text : Text) : Document :=
  { Document.blank none with
    traits := some [⟨"Show", none, none, none⟩]
    impls := some [⟨"Int", none, "Show for Int"⟩,
      ⟨"List", some [⟨"T", some ["Show"]⟩], "Show for List<T>"⟩]
    obligations := some [⟨list, "Show for List<Int>"⟩, ⟨text, "Show for Text"⟩] }

/-- The integers arise from the list, and all ids differ. -/
theorem run_ids_nodup_iff_asked :
    ∃ c r, (asked "list" "text").compile = .ok c ∧ c.run.outcome = .ok r ∧
      r.resolution.ids = ["list", "list.0", "text"] ∧ r.resolution.ids.Nodup ∧
      r.resolution.outcome "text" = .noImpl := by
  obtain ⟨c, r, hc, hr, hids, hapart, hheld⟩ : ∃ c r,
      (asked "list" "text").compile = .ok c ∧ c.run.outcome = .ok r ∧
        r.resolution.ids = ["list", "list.0", "text"] ∧
        (∀ o ∈ c.obligations, ∀ x ∈ r.resolution.arisen, x.id ≠ o.id) ∧
        (r.resolution.held .noImpl).map (·.id) = ["text"] :=
    Document.exists_run (by decide +kernel)
  obtain ⟨hiff, -, houtcome⟩ := run_ids_nodup_iff hc hr
  obtain ⟨o, ho, hid⟩ : ∃ o ∈ r.resolution.held .noImpl, o.id = "text" := by
    apply List.mem_map.mp
    rw [hheld]
    exact List.mem_cons_self
  refine ⟨c, r, hc, hr, hids, hiff.mpr hapart, ?_⟩
  rw [← hid]
  apply (houtcome .noImpl o ho ?_).1
  rw [hids, hid]
  decide

/-- An id can name two obligations of a report: one that is declared and one that arises. The one
that is declared has no impl, and it is reported as confirmed. -/
theorem run_ids_repeated :
    ∃ c r, (asked "A" "A.0").compile = .ok c ∧ c.run.outcome = .ok r ∧ ¬r.resolution.ids.Nodup ∧
      (∃ o ∈ c.obligations, o.id = "A.0" ∧ o ∈ r.resolution.held .noImpl) ∧
      r.resolution.outcome "A.0" = .confirmed :=
  Document.exists_run (by decide +kernel)

end Catalogue

end TraitResolution
