import TraitResolution.Text.Basic
import TraitResolution.Yaml.Cursor

/-! # Tokens of a YAML text -/

namespace TraitResolution.Yaml

/-- How a scalar is written. -/
inductive Style where
  | plain
  | singleQuoted
  | doubleQuoted
  | literal
  | folded
deriving DecidableEq

/-- What a token is. -/
inductive TokenKind where
  | streamStart
  | streamEnd
  | version (major minor : Nat)
  | handle (name : String) (start : Text)
  | documentStart
  | documentEnd
  | blockSequenceStart
  | blockMappingStart
  | blockEnd
  | flowSequenceStart
  | flowSequenceEnd
  | flowMappingStart
  | flowMappingEnd
  | blockEntry
  | flowEntry
  | key
  | value
  | aliased (name : String)
  | anchor (name : String)
  | tag (handle : String) (suffix : Text)
  | scalar (text : String) (style : Style)
deriving DecidableEq

/-- A token with the place where it begins. -/
structure Token where
  kind : TokenKind
  start : Mark
deriving DecidableEq

/-- The index of the line in which a token begins. -/
def Token.line (t : Token) : Nat :=
  t.start.line

end TraitResolution.Yaml
