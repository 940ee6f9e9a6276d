import TraitResolution.Yaml.Scalar

/-! # Nodes of a YAML document

An alias refers to a node by number, so that a node may contain an alias of itself.
-/

namespace TraitResolution.Yaml

/-- A node with the number of its line, counted from 1. -/
inductive Node where
  | scalar (line : Nat) (s : Scalar)
  | sequence (line : Nat) (tag : Text) (items : List Node)
  | mapping (line : Nat) (tag : Text) (entries : List (Node × Node))
  /-- An alias has a number of its own beside the number of the node it stands for. -/
  | aliased (line : Nat) (name : String) (number target : Nat)

/-- What kind of node a node is. -/
inductive NodeKind where
  | scalar
  | sequence
  | mapping
  | aliased
deriving DecidableEq

namespace Node

/-- The kind of a node. -/
def kind : Node → NodeKind
  | scalar .. => .scalar
  | sequence .. => .sequence
  | mapping .. => .mapping
  | aliased .. => .aliased

/-- The line of a node. -/
def line : Node → Nat
  | scalar line _ => line
  | sequence line _ _ => line
  | mapping line _ _ => line
  | aliased line _ _ _ => line

/-- The text of a scalar, the name of an alias, and nothing for a collection. -/
def text : Node → String
  | scalar _ s => s.text
  | aliased _ name _ _ => name
  | _ => ""

end Node

end TraitResolution.Yaml
