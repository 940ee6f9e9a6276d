import TraitResolution.Catalogue.Report

/-! # Comparing a report with expectations

Obligations that are not mentioned may end up anywhere. If conflicts are listed, the list must be
complete; the order within a pair and between pairs does not matter. If method results are listed,
there must be one for every method call, in order.
-/

namespace TraitResolution

/-- The same pair of ids with the smaller one in front. -/
def Conflict.sorted (c : Conflict) : Conflict :=
  if c.first.le c.second then c else ⟨c.second, c.first⟩

namespace Catalogue

/-- A difference between a report and expectations. -/
inductive Mismatch where
  | outcome (id : Text) (expected got : Outcome)
  | missingConflict (pair : Text)
  | unexpectedConflict (pair : Text)
  | answerCount (expected got : Nat)
  | answer (expected : Text) (got : Answer)
deriving DecidableEq

namespace Expectation

/-- The obligations that did not end up in the bucket they are expected in. -/
def outcomes (r : Report) (expected : Outcome) (ids : Option (List Text)) : List Mismatch :=
  (ids.getD []).filterMap fun id =>
    let got := r.resolution.outcome id
    if got = expected then none else some (.outcome id expected got)

/-- The conflict that a list of two ids stands for. -/
def pairOf (ids : List Text) : Conflict :=
  ⟨ids.headD "", ids.tail.headD ""⟩

/-- The texts of conflicts without regard to the order within a pair. -/
def pairTexts (conflicts : List Conflict) : List Text :=
  conflicts.map fun c => c.sorted.text

/-- The texts that are in one list and not in another, sorted and each only once. -/
def missingFrom (present wanted : List Text) : List Text :=
  ((wanted.filter fun s => !present.contains s).eraseDups).mergeSort Text.le

/-- The conflicts that are expected and absent, then those that are present and not expected. -/
def conflicts (r : Report) (expected : Option (List (List Text))) : List Mismatch :=
  match expected with
  | none => []
  | some pairs =>
    let wanted := pairTexts (pairs.map pairOf)
    let got := pairTexts r.conflicts
    (missingFrom got wanted).map .missingConflict ++
      (missingFrom wanted got).map .unexpectedConflict

/-- The method calls whose answers are not of the expected kind. -/
def answers (r : Report) (expected : Option (List Text)) : List Mismatch :=
  match expected with
  | none => []
  | some kinds =>
    (if kinds.length ≠ r.answers.length then [.answerCount kinds.length r.answers.length]
      else []) ++
      (kinds.zip r.answers).filterMap fun (kind, a) =>
        if a.result.kind = kind then none else some (.answer kind a)

end Expectation

/-- Every difference between a report and expectations. -/
def Report.mismatches (r : Report) (e : Expectations) : List Mismatch :=
  Expectation.outcomes r .confirmed e.confirmed ++ Expectation.outcomes r .deferred e.deferred ++
    Expectation.outcomes r .overflow e.overflow ++ Expectation.outcomes r .noImpl e.noImpl ++
    Expectation.conflicts r e.conflicts ++ Expectation.answers r e.methods

end Catalogue

/-- A difference in words. -/
def Env.mismatchText (env : Env) : Catalogue.Mismatch → Text
  | .outcome id expected got =>
    "obligation " ++ id ++ ": expected " ++ expected.name ++ ", got " ++ got.name
  | .missingConflict pair => "expected conflict " ++ pair
  | .unexpectedConflict pair => "unexpected conflict " ++ pair
  | .answerCount expected got =>
    "expected " ++ toString expected ++ " method results, got " ++ toString got
  | .answer expected got =>
    "method " ++ got.query.id ++ ": expected " ++ expected ++ ", got " ++
      env.methodResultText got.result

end TraitResolution
