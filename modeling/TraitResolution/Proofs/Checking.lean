import TraitResolution.Catalogue.Compilation
import TraitResolution.Catalogue.Report
import TraitResolution.Catalogue.Validation
import TraitResolution.Proofs.Naming
import TraitResolution.Proofs.Overlap

/-!
# When a report meets expectations

A report is compared with expectations in three parts: the buckets of obligations, the conflicts
between impls and the kinds of answers. The comparison of buckets and answers is exact. Conflicts
are compared by their texts, so a pair that is expected and another one that is reported count as
the same if they are written the same. This cannot happen if no impl has a comma followed by a blank
in its id, and then the comparison of conflicts is exact as well.
-/

namespace TraitResolution

namespace Catalogue

open Operation

/-- The ids expected in a bucket. -/
def Expectations.ids (e : Expectations) : Outcome → List Text
  | .confirmed => e.confirmed.getD []
  | .deferred => e.deferred.getD []
  | .overflow => e.overflow.getD []
  | .noImpl => e.noImpl.getD []
  | .unknown => []

/-- A report is as expected, where a reported conflict counts as an expected one if they are the
same in a given sense. -/
structure Expectations.MetBy (same : Conflict → Conflict → Prop) (e : Expectations) (r : Report) :
    Prop where
  outcomes : ∀ bucket, ∀ id ∈ e.ids bucket, r.resolution.outcome id = bucket
  expected : ∀ pairs, e.conflicts = some pairs →
    ∀ a b, [a, b] ∈ pairs → ∃ c ∈ r.conflicts, same ⟨a, b⟩ c
  reported : ∀ pairs, e.conflicts = some pairs →
    ∀ c ∈ r.conflicts, ∃ a b, [a, b] ∈ pairs ∧ same ⟨a, b⟩ c
  answers : ∀ kinds, e.methods = some kinds →
    kinds = r.answers.map fun a => Text.ofString a.result.kind

/-- What counts as the same matters for reported conflicts only. -/
theorem Expectations.metBy_congr {same same' : Conflict → Conflict → Prop} {e : Expectations}
    {r : Report} (h : ∀ c, ∀ d ∈ r.conflicts, same c d ↔ same' c d) :
    e.MetBy same r ↔ e.MetBy same' r := by
  have hmono : ∀ {same same' : Conflict → Conflict → Prop},
      (∀ c, ∀ d ∈ r.conflicts, same c d → same' c d) → e.MetBy same r → e.MetBy same' r := by
    intro same same' himp hmet
    refine ⟨hmet.outcomes, fun pairs hpairs a b hab => ?_, fun pairs hpairs d hd => ?_,
      hmet.answers⟩
    · obtain ⟨d, hd, hsame⟩ := hmet.expected pairs hpairs a b hab
      exact ⟨d, hd, himp _ d hd hsame⟩
    · obtain ⟨a, b, hab, hsame⟩ := hmet.reported pairs hpairs d hd
      exact ⟨a, b, hab, himp _ d hd hsame⟩
  exact ⟨hmono fun c d hd => (h c d hd).mp, hmono fun c d hd => (h c d hd).mpr⟩

namespace Expectation

variable {r : Report} {e : Expectations}

theorem mem_outcomes {want : Outcome} {ids : Option (List Text)} {m : Mismatch} :
    m ∈ outcomes r want ids ↔ ∃ id ∈ ids.getD [], r.resolution.outcome id ≠ want ∧
      .outcome id want (r.resolution.outcome id) = m := by
  rw [outcomes, List.mem_filterMap]
  simp only [Option.ite_none_left_eq_some, Option.some.injEq, ne_eq]

theorem outcomes_eq_nil_iff {want : Outcome} {ids : Option (List Text)} :
    outcomes r want ids = [] ↔ ∀ id ∈ ids.getD [], r.resolution.outcome id = want := by
  simp [outcomes]

theorem mem_missingFrom {present wanted : List Text} {s : Text} :
    s ∈ missingFrom present wanted ↔ s ∈ wanted ∧ s ∉ present := by
  rw [missingFrom, List.mem_mergeSort, List.mem_eraseDups, List.mem_filter]
  simp

theorem missingFrom_eq_nil_iff {present wanted : List Text} :
    missingFrom present wanted = [] ↔ ∀ s ∈ wanted, s ∈ present := by
  simp only [List.eq_nil_iff_forall_not_mem, mem_missingFrom, not_and, not_not]

theorem missing_pairTexts_eq_nil_iff {present wanted : List Conflict} :
    missingFrom (pairTexts present) (pairTexts wanted) = [] ↔
      ∀ c ∈ wanted, ∃ d ∈ present, d.sorted.text = c.sorted.text := by
  simp [missingFrom_eq_nil_iff, pairTexts]

theorem conflicts_eq_nil_iff {pairs : List (List Text)} :
    conflicts r (some pairs) = [] ↔
      (∀ p ∈ pairs, ∃ c ∈ r.conflicts, (pairOf p).sorted.text = c.sorted.text) ∧
      ∀ c ∈ r.conflicts, ∃ p ∈ pairs, (pairOf p).sorted.text = c.sorted.text := by
  rw [conflicts, List.append_eq_nil_iff, List.map_eq_nil_iff, List.map_eq_nil_iff,
    missing_pairTexts_eq_nil_iff, missing_pairTexts_eq_nil_iff]
  apply and_congr
  · rw [List.forall_mem_map]
    simp only [eq_comm]
  · simp only [List.mem_map, exists_exists_and_eq_and]

theorem conflicts_eq_nil_iff_of_pairs {pairs : List (List Text)}
    (hpairs : ∀ p ∈ pairs, p.length = 2) :
    conflicts r (some pairs) = [] ↔
      (∀ a b, [a, b] ∈ pairs →
        ∃ c ∈ r.conflicts, (Conflict.mk a b).sorted.text = c.sorted.text) ∧
      ∀ c ∈ r.conflicts,
        ∃ a b, [a, b] ∈ pairs ∧ (Conflict.mk a b).sorted.text = c.sorted.text := by
  rw [conflicts_eq_nil_iff]
  constructor
  · rintro ⟨hexpected, hreported⟩
    refine ⟨fun a b hab => hexpected [a, b] hab, fun c hc => ?_⟩
    obtain ⟨p, hp, hsame⟩ := hreported c hc
    obtain ⟨a, b, rfl⟩ := List.length_eq_two.mp (hpairs p hp)
    exact ⟨a, b, hp, hsame⟩
  · rintro ⟨hexpected, hreported⟩
    refine ⟨fun p hp => ?_, fun c hc => ?_⟩
    · obtain ⟨a, b, rfl⟩ := List.length_eq_two.mp (hpairs p hp)
      exact hexpected a b hp
    · obtain ⟨a, b, hab, hsame⟩ := hreported c hc
      exact ⟨[a, b], hab, hsame⟩

/-- The answers are of the expected kinds if there are as many of both and each is as expected. -/
theorem answers_eq_nil_iff {kinds : List Text} :
    answers r (some kinds) = [] ↔
      kinds = r.answers.map fun a => Text.ofString a.result.kind := by
  rw [answers]
  generalize r.answers = as
  induction kinds generalizing as with
  | nil => cases as <;> simp
  | cons kind kinds ih =>
      cases as with
      | nil => simp
      | cons a as =>
          have hrest := ih as
          simp only [List.append_eq_nil_iff] at hrest ⊢
          rw [List.map_cons, List.cons.injEq, ← hrest]
          by_cases hkind : Text.ofString a.result.kind = kind
          · simp [hkind]
          · have hkind' : kind ≠ Text.ofString a.result.kind := Ne.symm hkind
            simp [hkind, hkind']

end Expectation

open Expectation

/-- Expectations are valid only if every expected conflict is a pair. -/
theorem Validation.length_eq_two {field : String} {e : Expectations}
    (h : Validation.expectations field e = []) {pairs : List (List Text)}
    (hpairs : e.conflicts = some pairs) : ∀ p ∈ pairs, p.length = 2 := by
  intro p hp
  obtain ⟨i, hi, rfl⟩ := List.getElem_of_mem hp
  rw [expectations, hpairs, List.append_eq_nil_iff, each, List.flatten_eq_nil_iff] at h
  have hnone := h.1 _ (List.mem_mapIdx.mpr ⟨i, hi, rfl⟩)
  by_contra hlength
  exact absurd hnone (by simp [conflict, hlength])

variable {c : Catalogue} {r : Report} {e : Expectations}

/-- A report differs in nothing from what is expected if it is as expected, where conflicts are the
same if they are written the same. -/
theorem mismatches_eq_nil_iff_text
    (hpairs : ∀ pairs, e.conflicts = some pairs → ∀ p ∈ pairs, p.length = 2) :
    r.mismatches e = [] ↔ e.MetBy (fun x y => x.sorted.text = y.sorted.text) r := by
  simp only [Report.mismatches, List.append_eq_nil_iff, outcomes_eq_nil_iff]
  constructor
  · rintro ⟨⟨⟨⟨⟨hconfirmed, hdeferred⟩, hoverflow⟩, hnoImpl⟩, hconflicts⟩, hanswers⟩
    constructor
    · rintro (_ | _ | _ | _ | _)
      · exact hconfirmed
      · exact hdeferred
      · exact hoverflow
      · exact hnoImpl
      · exact fun id hid => absurd hid List.not_mem_nil
    · intro pairs hsome a b hab
      rw [hsome, conflicts_eq_nil_iff_of_pairs (hpairs pairs hsome)] at hconflicts
      exact hconflicts.1 a b hab
    · intro pairs hsome d hd
      rw [hsome, conflicts_eq_nil_iff_of_pairs (hpairs pairs hsome)] at hconflicts
      exact hconflicts.2 d hd
    · intro kinds hkinds
      rw [hkinds, answers_eq_nil_iff] at hanswers
      exact hanswers
  · intro hmet
    refine ⟨⟨⟨⟨⟨hmet.outcomes .confirmed, hmet.outcomes .deferred⟩, hmet.outcomes .overflow⟩,
      hmet.outcomes .noImpl⟩, ?_⟩, ?_⟩
    · cases hsome : e.conflicts with
      | none => rfl
      | some pairs =>
          rw [conflicts_eq_nil_iff_of_pairs (hpairs pairs hsome)]
          exact ⟨hmet.expected pairs hsome, hmet.reported pairs hsome⟩
    · cases hkinds : e.methods with
      | none => rfl
      | some kinds => exact answers_eq_nil_iff.mpr (hmet.answers kinds hkinds)

/-- What a run reports of obligations and conflicts comes from the solver and from the coherence
check. -/
theorem returns_of_run (h : c.run.outcome = .ok r) :
    ∃ mid left, (Solver.resolve c.config c.program c.obligations).Returns c.env r.resolution mid ∧
      (Coherence.check c.config c.program).Returns mid r.conflicts left := by
  have hreturns : c.answerAll.Returns c.env r c.run.env := ⟨h, rfl⟩
  rw [answerAll, returns_bind] at hreturns
  obtain ⟨resolution, mid, hresolution, hreturns⟩ := hreturns
  obtain ⟨conflicts, left, hconflicts, hreturns⟩ := returns_bind.mp hreturns
  obtain ⟨answers, later, -, hreturns⟩ := returns_bind.mp hreturns
  obtain ⟨env, last, -, hreturns⟩ := returns_bind.mp hreturns
  obtain ⟨rfl, -⟩ := returns_pure.mp hreturns
  exact ⟨mid, left, returns_mapError.mp hresolution, returns_mapError.mp hconflicts⟩

/-- The conflicts of a report are between impls of the program. -/
theorem mem_impls_of_mem_conflicts (h : c.run.outcome = .ok r) {x : Conflict}
    (hx : x ∈ r.conflicts) :
    ∃ a ∈ c.program.impls, ∃ b ∈ c.program.impls, x = ⟨a.id, b.id⟩ := by
  obtain ⟨mid, left, -, hcheck⟩ := returns_of_run h
  obtain ⟨a, b, hab, -, -, rfl⟩ := (Coherence.returns_check hcheck).2.mp hx
  exact ⟨a, hab.subset (by simp), b, hab.subset (by simp), rfl⟩

/-- Pairs are written the same in sorted order if they have the same ids or if one is the other
divided at another comma. -/
theorem sorted_text_eq_iff {x y : Conflict} (hy : y.Canonical) :
    x.sorted.text = y.sorted.text ↔
      x.pair = y.pair ∨ x.sorted.Shifts y.sorted ∨ y.sorted.Shifts x.sorted := by
  rw [Conflict.text_eq_iff, Conflict.sorted_eq_iff hy]

/-- A pair of ids without a comma followed by a blank is written like no other pair. -/
theorem sorted_text_eq_iff_of_not_contains {x y : Conflict} (hy : y.Canonical)
    (hfirst : ¬y.first.Contains ", ") (hsecond : ¬y.second.Contains ", ") :
    x.sorted.text = y.sorted.text ↔ x.pair = y.pair := by
  have hsorted : ¬y.sorted.first.Contains ", " ∧ ¬y.sorted.second.Contains ", " := by
    rw [Conflict.sorted]
    split
    · exact ⟨hfirst, hsecond⟩
    · exact ⟨hsecond, hfirst⟩
  rw [sorted_text_eq_iff hy]
  constructor
  · rintro (hpair | hshift | hshift)
    · exact hpair
    · exact absurd hshift.contains.2 hsorted.1
    · exact absurd hshift.contains.1 hsorted.2
  · exact Or.inl

/-- A report differs in nothing from valid expectations exactly if every id listed for a bucket is
in that bucket, the conflicts listed are the reported ones, and the kinds of answers listed are
those of the answers in order. A list of conflicts or kinds that is absent asks for nothing. Listed
and reported conflicts are the same if they have the same ids in some order or if, with the smaller
id in front, one is the other divided at a later comma. If no impl has such a comma in its id, only
the ids count. -/
theorem run_mismatches_eq_nil_iff (field : String) (hrun : c.run.outcome = .ok r)
    (hvalid : Validation.expectations field e = [])
    (hread : ∀ i ∈ c.program.impls, i.id.Canonical) :
    (r.mismatches e = [] ↔ e.MetBy (fun x y => x.pair = y.pair ∨ x.sorted.Shifts y.sorted ∨
      y.sorted.Shifts x.sorted) r) ∧
    ((∀ i ∈ c.program.impls, ¬i.id.Contains ", ") →
      (r.mismatches e = [] ↔ e.MetBy (fun x y => x.pair = y.pair) r)) := by
  have htext := mismatches_eq_nil_iff_text (r := r) fun pairs => Validation.length_eq_two hvalid
  have hcanonical : ∀ y ∈ r.conflicts, y.Canonical := by
    intro y hy
    obtain ⟨a, ha, b, hb, rfl⟩ := mem_impls_of_mem_conflicts hrun hy
    exact ⟨hread a ha, hread b hb⟩
  constructor
  · rw [htext]
    apply Expectations.metBy_congr
    intro x y hy
    exact sorted_text_eq_iff (hcanonical y hy)
  · intro hcommas
    rw [htext]
    apply Expectations.metBy_congr
    intro x y hy
    obtain ⟨a, ha, b, hb, rfl⟩ := mem_impls_of_mem_conflicts hrun hy
    exact sorted_text_eq_iff_of_not_contains (hcanonical _ hy) (hcommas a ha) (hcommas b hb)

/-- Two impls show integers. -/
def shownBy (first second : Text) : Document :=
  { Document.blank none with
    traits := some [⟨"Show", none, none, none⟩]
    impls := some [⟨first, none, "Show for Int"⟩, ⟨second, none, "Show for Int"⟩] }

/-- Some conflicts are expected, and nothing else. -/
def Expectations.ofConflicts (pairs : List (List Text)) : Expectations :=
  { Expectations.blank with conflicts := some pairs }

/-- What a document compiles to and what is reported of it can be computed. -/
theorem Document.exists_run {d : Document} {P : Catalogue → Report → Prop}
    [∀ c r, Decidable (P c r)] (h : (d.compile.toOption.any fun c =>
      c.run.outcome.toOption.any fun r => decide (P c r)) = true) :
    ∃ c r, d.compile = .ok c ∧ c.run.outcome = .ok r ∧ P c r := by
  cases hc : d.compile with
  | error e => simp [hc, Except.toOption] at h
  | ok c =>
      cases hr : c.run.outcome with
      | error e => simp [hc, hr, Except.toOption] at h
      | ok r => exact ⟨c, r, rfl, hr, by simpa [hc, hr, Except.toOption] using h⟩

/-- The conflict between two impls may be expected in either order, and must be expected. -/
theorem run_mismatches_eq_nil_iff_shownBy :
    ∃ c r, (shownBy "Int" "Any").compile = .ok c ∧ c.run.outcome = .ok r ∧
      r.mismatches (.ofConflicts [["Any", "Int"]]) = [] ∧ r.mismatches (.ofConflicts []) ≠ [] := by
  obtain ⟨c, r, hc, hr, hread, hcommas, hconflicts⟩ : ∃ c r,
      (shownBy "Int" "Any").compile = .ok c ∧ c.run.outcome = .ok r ∧
        (∀ i ∈ c.program.impls, i.id.Canonical) ∧
        (∀ i ∈ c.program.impls, ¬i.id.Contains ", ") ∧ r.conflicts = [⟨"Int", "Any"⟩] :=
    Document.exists_run (by decide +kernel)
  refine ⟨c, r, hc, hr, ?_, ?_⟩
  · apply ((run_mismatches_eq_nil_iff "expect" hr (by decide) hread).2 hcommas).mpr
    constructor
    · rintro (_ | _ | _ | _ | _) id hid <;> cases hid
    · rintro pairs ⟨⟩ a b hab
      obtain ⟨rfl, rfl⟩ : a = "Any" ∧ b = "Int" := by simpa using hab
      exact ⟨⟨"Int", "Any"⟩, by simp [hconflicts], Sym2.eq_swap⟩
    · rintro pairs ⟨⟩ x hx
      obtain rfl : x = ⟨"Int", "Any"⟩ := by simpa [hconflicts] using hx
      exact ⟨"Any", "Int", List.mem_cons_self, Sym2.eq_swap⟩
    · rintro kinds ⟨⟩
  · intro hnone
    have hmet := (run_mismatches_eq_nil_iff "expect" hr (by decide) hread).1.mp hnone
    obtain ⟨a, b, hab, -⟩ := hmet.reported [] rfl ⟨"Int", "Any"⟩ (by simp [hconflicts])
    exact absurd hab List.not_mem_nil

/-- A conflict that is not expected can pass for one that is: the ids are others, and the pair is
written the same. -/
theorem mismatches_eq_nil_of_other_pair :
    ∃ c r, (shownBy "A" "B, C").compile = .ok c ∧ c.run.outcome = .ok r ∧
      Validation.expectations "expect" (.ofConflicts [["A, B", "C"]]) = [] ∧
      r.mismatches (.ofConflicts [["A, B", "C"]]) = [] ∧
      ¬(Expectations.ofConflicts [["A, B", "C"]]).MetBy (fun x y => x.pair = y.pair) r := by
  obtain ⟨c, r, hc, hr, hconflicts, hnone⟩ : ∃ c r,
      (shownBy "A" "B, C").compile = .ok c ∧ c.run.outcome = .ok r ∧
        r.conflicts = [⟨"A", "B, C"⟩] ∧ r.mismatches (.ofConflicts [["A, B", "C"]]) = [] :=
    Document.exists_run (by decide +kernel)
  refine ⟨c, r, hc, hr, by decide, hnone, fun hmet => ?_⟩
  obtain ⟨x, hx, hpair⟩ := hmet.expected _ rfl "A, B" "C" List.mem_cons_self
  obtain rfl : x = ⟨"A", "B, C"⟩ := by simpa [hconflicts] using hx
  rcases Sym2.eq_iff.mp hpair with ⟨hfirst, -⟩ | ⟨hfirst, -⟩
  · exact absurd hfirst (by decide)
  · exact absurd hfirst (by decide)

end Catalogue

end TraitResolution
