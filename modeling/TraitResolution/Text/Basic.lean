/-! # Texts

A text is mostly characters. One that comes as raw bytes may also hold bytes that belong to no
character: they count when texts are compared, and each of them is shown as a replacement
character.
-/

namespace TraitResolution

/-- A character, or a byte that belongs to none. -/
inductive Glyph where
  | char (c : Char)
  | stray (byte : UInt8)
deriving DecidableEq

namespace Glyph

/-- The bytes of a glyph, in UTF-8. -/
def bytes : Glyph → List UInt8
  | char c => String.utf8EncodeChar c
  | stray byte => [byte]

/-- What is shown for a glyph. -/
def shown : Glyph → Char
  | char c => c
  | stray _ => '\ufffd'

end Glyph

/-- A text. -/
structure Text where
  glyphs : List Glyph
deriving DecidableEq

namespace Text

/-- A text of characters. -/
def ofString (s : String) : Text := ⟨s.toList.map .char⟩

instance : Coe String Text := ⟨ofString⟩

/-- One text after the other. -/
def append (a b : Text) : Text := ⟨a.glyphs ++ b.glyphs⟩

instance : Append Text := ⟨append⟩

theorem append_assoc (a b c : Text) : a ++ b ++ c = a ++ (b ++ c) :=
  congrArg Text.mk (List.append_assoc a.glyphs b.glyphs c.glyphs)

theorem append_empty (a : Text) : a ++ ("" : Text) = a :=
  congrArg Text.mk (List.append_nil a.glyphs)

/-- Whether a text has no glyphs. -/
def isEmpty (t : Text) : Bool :=
  t.glyphs.isEmpty

/-- Several texts, one after the other. -/
def join (ts : List Text) : Text :=
  ⟨ts.flatMap (·.glyphs)⟩

/-- Several texts with another one between them. -/
def intercalate (between : Text) : List Text → Text
  | [] => ""
  | [t] => t
  | t :: ts => t ++ between ++ intercalate between ts

/-- The bytes of a text, in UTF-8. -/
def bytes (t : Text) : List UInt8 :=
  t.glyphs.flatMap Glyph.bytes

/-- The characters shown for a text. -/
def shown (t : Text) : String :=
  String.ofList (t.glyphs.map Glyph.shown)

/-- The characters of a list of glyphs, if they all are characters. -/
def chars? : List Glyph → Option (List Char)
  | [] => some []
  | .char c :: gs => (chars? gs).map (c :: ·)
  | .stray _ :: _ => none

/-- The characters of a text, if it has nothing else. -/
def string? (t : Text) : Option String :=
  (chars? t.glyphs).map String.ofList

/-- Whether one list of bytes comes before another or is equal to it. The first byte that differs
decides, and a list comes before the longer ones that begin with it. -/
def bytesLe : List UInt8 → List UInt8 → Bool
  | [], _ => true
  | _ :: _, [] => false
  | a :: as, b :: bs => if a = b then bytesLe as bs else a < b

/-- Whether a text comes before another or is equal to it. -/
def le (a b : Text) : Bool :=
  bytesLe a.bytes b.bytes

/-! ## Reading bytes -/

/-- The lead byte of a character of several bytes: how many bytes follow it, and the bits it
contributes. -/
def lead? (b : UInt8) : Option (Nat × Nat) :=
  if 0xC0 ≤ b ∧ b < 0xE0 then some (1, b.toNat - 0xC0)
  else if 0xE0 ≤ b ∧ b < 0xF0 then some (2, b.toNat - 0xE0)
  else if 0xF0 ≤ b ∧ b < 0xF8 then some (3, b.toNat - 0xF0)
  else none

/-- The least code point that needs a lead byte and the given number of bytes after it. -/
def leastCode : Nat → Nat
  | 0 => 0
  | 1 => 0x80
  | 2 => 0x800
  | _ => 0x10000

/-- The code point of a lead byte's bits and the bytes after it, if they can follow a lead byte. -/
def code? (bits : Nat) : List UInt8 → Option Nat
  | [] => some bits
  | b :: bs => if 0x80 ≤ b ∧ b < 0xC0 then code? (0x40 * bits + (b.toNat - 0x80)) bs else none

/-- The character with a code point. Surrogates and numbers that are too large have none. -/
def charOf? (code : Nat) : Option Char :=
  if h : code.isValidChar then some (Char.ofNatAux code h) else none

/-- The first character of some bytes, with the number of bytes after its first one. It must be
written with as few bytes as possible. -/
def firstChar? (b : UInt8) (bs : List UInt8) : Option (Char × Nat) := do
  if b < 0x80 then
    pure (Char.ofUInt8 b, 0)
  else
    let (count, bits) ← lead? b
    let code ← if count ≤ bs.length then code? bits (bs.take count) else none
    let c ← if leastCode count ≤ code then charOf? code else none
    pure (c, count)

/-- The glyphs of at most `n` bytes. -/
def glyphsWithin : Nat → List UInt8 → List Glyph
  | n + 1, b :: bs =>
    match firstChar? b bs with
    | some (c, count) => .char c :: glyphsWithin n (bs.drop count)
    | none => .stray b :: glyphsWithin n bs
  | _, _ => []

/-- The text of some bytes. A byte that begins no character is a glyph of its own. -/
def ofBytes (bs : List UInt8) : Text :=
  ⟨glyphsWithin bs.length bs⟩

end Text

end TraitResolution
