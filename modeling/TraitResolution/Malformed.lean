import TraitResolution.Receiver

/-! # Malformed programs

An operation that meets something no well-formed program contains gives up. A resolution that finds
no impl, or a method call that matches nothing, is an ordinary answer and not of this kind.

One cause is no such thing. `Cause.endless` marks a run that does not end, as every operation here
has an outcome: what is given up for this cause never returns, neither an answer nor an error.
-/

namespace TraitResolution

/-- What was met. -/
inductive Cause where
  /-- A snapshot has more bindings than there are now. -/
  | rollbackPastEnd (target current : Nat)
  /-- A variable is bound a second time. -/
  | alreadyBound (v : Var)
  /-- A variable is bound to a type with a type parameter. -/
  | bindsParam (v : Var) (value : Ty)
  /-- A type parameter is unified. -/
  | unifiesParam (a b : Ty)
  /-- One constructor has two numbers of arguments. -/
  | typeArity (a b : Ty)
  /-- Lists of types of different lengths are unified. -/
  | listArity (as bs : List Ty)
  /-- References with different numbers of parameters are unified. -/
  | referenceArity (a b : Reference)
  /-- Type parameters cannot be replaced. -/
  | subst (error : SubstError)
  /-- An impl that unified with an obligation does so no longer. -/
  | lostCandidate (impl obligation : Text)
  /-- Obligations arise from obligations without end, and the run never returns. -/
  | endless
  /-- A trait that could apply to a place does so no longer. -/
  | lostTrait (trait : Text) (place : Place)
deriving DecidableEq

/-- A reason to give up, with the environment in which it arose. -/
structure Malformed where
  cause : Cause
  env : Env
deriving DecidableEq

/-- The text of a failed replacement. -/
def SubstError.text : SubstError → String
  | outOfRange index available =>
    "type parameter P" ++ toString index ++ " out of range of " ++ toString available ++
      " replacements"
  | replacedByParam index other =>
    "cannot substitute P" ++ toString index ++ " with another type parameter P" ++ toString other

namespace Env

/-- The texts of a list of types, in square brackets and with blanks between. -/
def listText (env : Env) (ts : List Ty) : String :=
  "[" ++ " ".intercalate (ts.map env.text) ++ "]"

/-- The text of a cause. -/
def causeText (env : Env) : Cause → Text
  | .rollbackPastEnd target current =>
    "rollback to trail length " ++ toString target ++ " past current length " ++ toString current
  | .alreadyBound v => "variable " ++ env.text (.var v) ++ " is already bound"
  | .bindsParam v value =>
    "cannot bind " ++ env.text (.var v) ++ " to " ++ env.text value ++
      ", which has an un-substituted type parameter"
  | .unifiesParam a b =>
    "cannot unify un-substituted type parameter in " ++ env.text a ++ " ~ " ++ env.text b
  | .typeArity a b =>
    "inconsistent number of type parameters: " ++ env.text a ++ " vs " ++ env.text b
  | .listArity as bs =>
    "inconsistent number of type parameters: " ++ env.listText as ++ " vs " ++ env.listText bs
  | .referenceArity a b =>
    "inconsistent number of type parameters: " ++ env.refText a ++ " vs " ++ env.refText b
  | .subst error => error.text
  | .lostCandidate impl obligation =>
    "candidate " ++ impl ++ " no longer unifies with obligation " ++ obligation
  | .endless => "obligations arise without end"
  | .lostTrait trait place =>
    "trait " ++ trait ++ " was applicable to " ++ env.placeText place ++
      " when probed but not when resolved"

end Env

/-- The message for a reason to give up. -/
def Malformed.message (m : Malformed) : Text :=
  "malformed program: " ++ m.env.causeText m.cause

end TraitResolution
