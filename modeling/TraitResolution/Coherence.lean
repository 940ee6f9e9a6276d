import TraitResolution.Solver

/-! # Coherence

Two impls of one trait overlap when types for their parameters make their references equal and the
bounds of neither are then known to fail. Bounds that are merely open count as possible.
-/

namespace TraitResolution

/-- The ids of two overlapping impls, in declaration order. -/
structure Conflict where
  first : Text
  second : Text
deriving DecidableEq

/-- The text of a pair of ids. -/
def Conflict.text (c : Conflict) : Text :=
  "(" ++ c.first ++ ", " ++ c.second ++ ")"

namespace Coherence

open Engine

/-- The bounds of an impl, each with the id of the obligation it gives rise to: the position of the
parameter and the position among the bounds of that parameter. -/
def namedBounds (impl : Impl) : List (Text × Reference) :=
  (impl.params.mapIdx fun p bounds => bounds.mapIdx fun b bound =>
    (impl.id ++ "[P=" ++ toString p ++ ",B=" ++ toString b ++ "]", bound)).flatten

/-- The obligations of the bounds of an impl, with types for its parameters. -/
def boundObligations (impl : Impl) (vars : List Ty) : Except SubstError (List Obligation) :=
  (namedBounds impl).mapM fun (id, bound) => do
    let ref ← bound.subst vars
    pure (.topLevel id ref)

/-- Whether the bounds of an impl are not known to fail. -/
def boundsCouldHold (config : Config) (program : Program) (impl : Impl) (vars : List Ty) :
    Engine Bool := do
  let obligations ← ofSubst (boundObligations impl vars)
  let r ← Solver.resolve config program obligations
  if r.noImpl.isEmpty then
    pure true
  else
    report (.boundsCannotHold impl.id (r.noImpl.map (·.id)))
    pure false

/-- Whether two impls overlap. This is meant to be run in an environment of its own. -/
def overlap (config : Config) (program : Program) (first second : Impl) : Engine Bool := do
  let (firstVars, firstRef) ← Solver.instantiate first
  let (secondVars, secondRef) ← Solver.instantiate second
  if ← unifyReferences firstRef secondRef then
    if ← boundsCouldHold config program first firstVars then
      boundsCouldHold config program second secondVars
    else
      pure false
  else
    pure false

/-- All pairs of elements of a list, each with an element before the other. -/
def pairs {α : Type} : List α → List (α × α)
  | [] => []
  | a :: as => as.map (a, ·) ++ pairs as

/-- Whether two impls overlap, with a report if they do. -/
def conflicting (config : Config) (program : Program) (p : Impl × Impl) : Engine Bool := do
  let clash ← isolated (overlap config program p.1 p.2)
  if clash then
    report (.conflict p.1.id p.2.id p.1.trait.id)
    pure true
  else
    pure false

/-- Every pair of impls of one trait that overlap. The environment is left alone. -/
def check (config : Config) (program : Program) : Engine (List Conflict) := do
  let comparable := (pairs program.impls).filter fun p => p.1.trait.id == p.2.trait.id
  let overlapping ← select (conflicting config program) comparable
  pure (overlapping.map fun p => ⟨p.1.id, p.2.id⟩)

end Coherence

end TraitResolution
