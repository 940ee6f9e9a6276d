import TraitResolution.Malformed

/-! # Events

What the operations of this library report while they work. An event keeps its data as data; how it
reads in a log is decided elsewhere.
-/

namespace TraitResolution

/-- Something worth reporting. -/
inductive Event where
  /-- Bindings were undone, down to the given trail length. -/
  | rolledBack (undone trail : Nat)
  /-- A variable occurs in the type it was to be bound to. -/
  | occursCheckFailed (v : Var) (type : Ty)
  /-- An obligation lies too deep. -/
  | overflow (o : Obligation)
  /-- An impl was chosen for an obligation. -/
  | confirmed (o : Obligation) (impl : Text)
  /-- No impl satisfies an obligation. -/
  | noImpl (o : Obligation)
  /-- No impl satisfies an obligation yet. -/
  | notEnoughTypes (o : Obligation)
  /-- More than one impl could satisfy an obligation. -/
  | ambiguousImpls (o : Obligation) (candidates : Nat)
  /-- The bounds of an impl cannot hold for an obligation. -/
  | discarded (o : Obligation) (impl : Text)
  /-- The bounds of an impl cannot hold where it overlaps with another. -/
  | boundsCannotHold (impl : Text) (noImpl : List Text)
  /-- Two impls of one trait overlap. -/
  | conflict (first second trait : Text)
  /-- More than one trait could provide a method. -/
  | ambiguousTraits (method : Text) (place : Place) (traits : Nat)
  /-- The receiver may not be dereferenced again. -/
  | autoderefLimit (method : Text) (place : Place)
  /-- The receiver cannot be dereferenced. -/
  | cannotDeref (method : Text) (place : Place)
  /-- The receiver was dereferenced. -/
  | dereferenced (method : Text) (place : Place) (target : Ty)
  /-- A method does not accept a place, so a dereference is taken back. -/
  | peeling (method : Text) (selfType : Ty) (place : Place)
  /-- A dereference cannot be made mutable. -/
  | cannotMakeMutable (method : Text) (place : Place)
  /-- A catalogue was compiled. -/
  | compiled (traits impls obligations methods vars : Nat)
  /-- A method query was answered. -/
  | answered (query result : Text)
  /-- A catalogue was loaded. -/
  | loaded (path : Text) (obligations methods : Nat)
deriving DecidableEq

/-- An event with the environment in which it happened. -/
structure Occurrence where
  event : Event
  env : Env
deriving DecidableEq

end TraitResolution
