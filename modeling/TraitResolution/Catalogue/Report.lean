import TraitResolution.Catalogue.Basic
import TraitResolution.Coherence
import TraitResolution.MethodCall

/-! # Running a catalogue

The obligations are resolved, then the impls are checked for conflicts, then the method calls are
resolved in order. Bindings that obligations lead to are in force for the method calls.
-/

namespace TraitResolution

namespace Catalogue

/-- The answer to a method call. -/
structure Answer where
  query : Query
  result : MethodResult
deriving DecidableEq

/-- What running a catalogue yields. -/
structure Report where
  resolution : Resolution
  conflicts : List Conflict
  answers : List Answer
  /-- The inference variables, sorted by name, with their final values. -/
  vars : List (String × Ty)
deriving DecidableEq

/-- Why a run was given up. -/
inductive RunError where
  | obligations (cause : Malformed)
  | coherence (cause : Malformed)
  | query (id : Text) (cause : Malformed)
deriving DecidableEq

/-- The message for a run that was given up. -/
def RunError.message : RunError → Text
  | obligations cause => "resolving obligations: " ++ cause.message
  | coherence cause => "checking coherence: " ++ cause.message
  | query id cause => "resolving method " ++ id ++ ": " ++ cause.message

/-- Resolve a method call. -/
def answer (c : Catalogue) (q : Query) : Engine Answer := do
  let result ← MethodCall.resolve c.config c.program q.receiver q.traits q.method
  Engine.report (.answered q.id result.kind)
  pure ⟨q, result⟩

/-- The inference variables, sorted by name, with their values in an environment. -/
def finalVars (c : Catalogue) (env : Env) : List (String × Ty) :=
  c.namedVars.map fun (name, t) => (name, env.resolve t)

/-- Answer everything that a catalogue asks. -/
def answerAll (c : Catalogue) : Operation RunError Report := do
  let resolution ←
    (Solver.resolve c.config c.program c.obligations).mapError RunError.obligations
  let conflicts ← (Coherence.check c.config c.program).mapError RunError.coherence
  let answers ← c.queries.mapM fun q => (c.answer q).mapError (RunError.query q.id)
  let env ← Engine.present
  pure ⟨resolution, conflicts, answers, c.finalVars env⟩

/-- Run a catalogue in its own environment. -/
def run (c : Catalogue) : Execution RunError Report :=
  c.answerAll.run c.env

end Catalogue

namespace Env

/-- The conflicts, one to a line. -/
def conflictLines (conflicts : List Conflict) : Text :=
  Text.join (conflicts.map fun c => "  " ++ c.text ++ "\n")

/-- The answers to method calls, one to a line. -/
def answerLines (env : Env) (answers : List Catalogue.Answer) : Text :=
  Text.join (answers.map fun a =>
    "  " ++ a.query.id ++ " -> " ++ env.methodResultText a.result ++ "\n")

/-- The values of inference variables under their heading, if there are any. -/
def varsText (env : Env) (vars : List (String × Ty)) : Text :=
  if vars.isEmpty then ""
  else
    "vars:\n" ++ Text.join (vars.map fun (name, t) => "  ?" ++ name ++ " = " ++ env.text t ++ "\n")

/-- The text of a report. -/
def reportText (env : Env) (r : Catalogue.Report) : Text :=
  env.resolutionText r.resolution ++ "conflicts:\n" ++ conflictLines r.conflicts ++
    "methods:\n" ++ env.answerLines r.answers ++ env.varsText r.vars

end Env

end TraitResolution
