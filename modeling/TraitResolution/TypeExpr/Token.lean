import TraitResolution.Text.Basic
import TraitResolution.Text.Digit
import TraitResolution.Text.Letter

/-! # Tokens of type expressions

A name is a letter or an underscore followed by letters, digits and underscores. Blanks separate
tokens and are skipped. Every other character is a token of its own. A byte order mark in front is
ignored, though it has a column.

A NUL character and a byte that belongs to no character are not allowed, and are noticed as soon as
they come after the token being read, before that token is seen. The place reported for them is the
token last begun.
-/

namespace TraitResolution.TypeExpr

/-- What a token is. -/
inductive TokenKind where
  | name (text : String)
  | symbol (c : Char)
  /-- The end of the text. -/
  | eof
  /-- The character that is not allowed. Nothing follows it. -/
  | nul
  /-- A byte that belongs to no character. Nothing follows it. -/
  | stray
deriving DecidableEq

/-- A token with the column it begins in, counted from 1 in its line. -/
structure Token where
  kind : TokenKind
  column : Nat
deriving DecidableEq

/-- Whether a character may begin a name. -/
def isNameStart (c : Char) : Bool :=
  c == '_' || Text.isLetter c

/-- Whether a character may follow in a name. -/
def isNameRest (c : Char) : Bool :=
  isNameStart c || Text.isDigit c

/-- Whether a character only separates tokens. -/
def isBlank (c : Char) : Bool :=
  c == ' ' || c == '\t' || c == '\n' || c == '\r'

/-- What lies before the next character: blanks since the token that began in a column, a name so
far, or a symbol. -/
inductive Pending where
  | gap (column : Nat)
  | name (text : String) (column : Nat)
  | symbol (c : Char) (column : Nat)

namespace Pending

/-- The column of the token last begun. -/
def column : Pending → Nat
  | gap k => k
  | name _ k => k
  | symbol _ k => k

/-- The token that is complete once something else follows. -/
def emit : Pending → List Token
  | gap _ => []
  | name text k => [⟨.name text, k⟩]
  | symbol c k => [⟨.symbol c, k⟩]

/-- What lies before the next character once `c` in column `k` is read after this. -/
def start (before : Pending) (c : Char) (k : Nat) : Pending :=
  if isBlank c then gap before.column
  else if isNameStart c then name (String.singleton c) k
  else symbol c k

/-- The name so far with one more character, if the character belongs to it. -/
def extend? : Pending → Char → Option Pending
  | name text k, c => if isNameRest c then some (name (text.push c) k) else none
  | _, _ => none

end Pending

/-- The tokens of a text whose first glyph is in column `k`, after what lies before it. -/
def scan (before : Pending) (k : Nat) : List Glyph → List Token
  | [] => before.emit ++ [⟨.eof, k⟩]
  | .stray _ :: _ => [⟨.stray, before.column⟩]
  | .char c :: cs =>
    let next := if c = '\n' then 1 else k + 1
    match before.extend? c with
    | some longer => scan longer next cs
    | none =>
      if c = '\x00' then [⟨.nul, before.column⟩]
      else before.emit ++ scan (before.start c k) next cs

/-- The tokens of a text. -/
def tokens (source : Text) : List Token :=
  match source.glyphs with
  | [] => [⟨.eof, 0⟩]
  | .char '\ufeff' :: cs => scan (.gap 0) 2 cs
  | cs => scan (.gap 0) 1 cs

end TraitResolution.TypeExpr
