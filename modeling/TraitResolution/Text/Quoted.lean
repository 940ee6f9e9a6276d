import TraitResolution.Text.Basic
import TraitResolution.Text.Printable

/-! # Quoted text

A text between quotes, in which the quote, the backslash and every character that is not printable
are written as escapes: a letter for the common controls, two hexadecimal digits for other ASCII
characters and for bytes that belong to no character, four or eight for the rest.
-/

namespace TraitResolution.Text

/-- A number in lower-case hexadecimal, with zeros in front up to a width. -/
def hex (width n : Nat) : String :=
  let digits := Nat.toDigits 16 n
  String.ofList (List.replicate (width - digits.length) '0' ++ digits)

/-- A character as it stands between the given quotes. -/
def escaped (quote c : Char) : String :=
  if c = quote ∨ c = '\\' then String.ofList ['\\', c]
  else if isPrintable c then String.singleton c
  else match c with
    | '\x07' => "\\a"
    | '\x08' => "\\b"
    | '\x0c' => "\\f"
    | '\n' => "\\n"
    | '\r' => "\\r"
    | '\t' => "\\t"
    | '\x0b' => "\\v"
    | c =>
      if c.toNat < 0x80 then "\\x" ++ hex 2 c.toNat
      else if c.toNat < 0x10000 then "\\u" ++ hex 4 c.toNat
      else "\\U" ++ hex 8 c.toNat

/-- A glyph as it stands between the given quotes. -/
def escapedGlyph (quote : Char) : Glyph → String
  | .char c => escaped quote c
  | .stray byte => "\\x" ++ hex 2 byte.toNat

/-- A text in double quotes. -/
def quoted (t : Text) : String :=
  "\x22" ++ String.join (t.glyphs.map (escapedGlyph '\x22')) ++ "\x22"

/-- A character in single quotes. -/
def quotedChar (c : Char) : String :=
  "\x27" ++ escaped '\x27' c ++ "\x27"

end TraitResolution.Text
