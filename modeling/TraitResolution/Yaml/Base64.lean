import TraitResolution.Text.Basic

/-! # Base 64

Text in groups of four characters, each group three bytes. The last group may have one or two
padding characters. Line breaks do not count.
-/

namespace TraitResolution.Yaml.Base64

/-- The value of a character. -/
def value? (c : Char) : Option Nat :=
  if c.isUpper then some (c.toNat - 'A'.toNat)
  else if c.isLower then some (c.toNat - 'a'.toNat + 26)
  else if c.isDigit then some (c.toNat - '0'.toNat + 52)
  else if c = '+' then some 62
  else if c = '/' then some 63
  else none

/-- The bytes of some groups. -/
def bytes? : List Char → Option (List UInt8)
  | [] => some []
  | [a, b, '=', '='] => do
    let x ← value? a
    let y ← value? b
    pure [(4 * x + y / 16).toUInt8]
  | [a, b, c, '='] => do
    let x ← value? a
    let y ← value? b
    let z ← value? c
    pure [(4 * x + y / 16).toUInt8, (16 * (y % 16) + z / 4).toUInt8]
  | a :: b :: c :: d :: rest => do
    let x ← value? a
    let y ← value? b
    let z ← value? c
    let w ← value? d
    let more ← bytes? rest
    pure ((4 * x + y / 16).toUInt8 :: (16 * (y % 16) + z / 4).toUInt8 ::
      (64 * (z % 4) + w).toUInt8 :: more)
  | _ => none

/-- The text that is written in base 64. -/
def decode? (s : String) : Option Text :=
  (bytes? (s.toList.filter fun c => c ≠ '\n' ∧ c ≠ '\r')).map Text.ofBytes

end TraitResolution.Yaml.Base64
