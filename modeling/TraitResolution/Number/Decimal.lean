import TraitResolution.Number.Integer

/-! # Written decimal fractions

A decimal fraction is read exactly and then rounded to the nearest number with 53 significant bits,
a half going to the even neighbour.
-/

namespace TraitResolution.Number

/-- The number `digits * 10 ^ exponent`, with a sign. -/
structure Decimal where
  negative : Bool
  digits : Nat
  exponent : Int
deriving DecidableEq

namespace Decimal

/-- Split off leading decimal digits. -/
def spanDigits (cs : List Char) : List Char × List Char :=
  (cs.takeWhile Char.isDigit, cs.dropWhile Char.isDigit)

/-- The value of decimal digits. -/
def value (ds : List Char) : Nat :=
  ds.foldl (fun n c => 10 * n + (c.toNat - '0'.toNat)) 0

/-- Read a power of ten that makes up the rest of a number. -/
def power? : List Char → Option Int
  | [] => some 0
  | mark :: rest =>
    if mark = 'e' ∨ mark = 'E' then
      let (negative, rest) := match rest with
        | '-' :: rest => (true, rest)
        | '+' :: rest => (false, rest)
        | rest => (false, rest)
      let (ds, rest) := spanDigits rest
      if ds.isEmpty || !rest.isEmpty then none
      else some (if negative then -(value ds : Int) else value ds)
    else
      none

/-- Read a number without its sign: digits around an optional point, and an optional power. -/
def unsigned? (negative : Bool) (cs : List Char) : Option Decimal :=
  let (whole, rest) := spanDigits cs
  let (fraction, rest) := match rest with
    | '.' :: rest => spanDigits rest
    | rest => ([], rest)
  if whole.isEmpty && fraction.isEmpty then none
  else (power? rest).map fun p => ⟨negative, value (whole ++ fraction), p - fraction.length⟩

/-- Read a number. -/
def parse? : List Char → Option Decimal
  | '-' :: rest => unsigned? true rest
  | '+' :: rest => unsigned? false rest
  | cs => unsigned? false cs

end Decimal

/-- The number `mantissa * 2 ^ exponent`, with a sign. -/
structure Binary where
  negative : Bool
  mantissa : Nat
  exponent : Int
deriving DecidableEq

namespace Binary

/-- The quotient of two numbers, rounded to the nearest, a half to the even neighbour. -/
def roundDiv (num den : Nat) : Nat :=
  let q := num / den
  let r := 2 * (num % den)
  if r < den then q else if den < r then q + 1 else q + q % 2

/-- The quotient `num / den / 2 ^ e`, rounded. -/
def scaledDiv (num den : Nat) (e : Int) : Nat :=
  if 0 ≤ e then roundDiv num (den * Nat.pow 2 e.toNat)
  else roundDiv (num * Nat.pow 2 (-e).toNat) den

/-- The power of two that leaves 53 bits before the point of a quotient, but not less than the
least power there is. -/
def scale (num den : Nat) : Int :=
  let e : Int := (num.log2 : Int) - den.log2 - 52
  let fits : Bool :=
    if 0 ≤ e then den * Nat.pow 2 (e.toNat + 52) ≤ num
    else den * Nat.pow 2 52 ≤ num * Nat.pow 2 (-e).toNat
  max (-1074) (if fits then e else e - 1)

/-- The nearest number with 53 significant bits, unless it is too large. -/
def ofDecimal? (d : Decimal) : Option Binary :=
  let magnitude : Int := (Nat.toDigits 10 d.digits).length + d.exponent
  if d.digits = 0 ∨ magnitude < -330 then some ⟨d.negative, 0, 0⟩
  else if 310 < magnitude then none
  else
    let (num, den) :=
      if 0 ≤ d.exponent then (d.digits * Nat.pow 10 d.exponent.toNat, 1)
      else (d.digits, Nat.pow 10 (-d.exponent).toNat)
    let e := scale num den
    let m := scaledDiv num den e
    if 0 ≤ e ∧ Nat.pow 2 1024 ≤ m * Nat.pow 2 e.toNat then none else some ⟨d.negative, m, e⟩

/-- The magnitude without its fraction. -/
def floorAbs (b : Binary) : Nat :=
  if 0 ≤ b.exponent then b.mantissa * Nat.pow 2 b.exponent.toNat
  else b.mantissa / Nat.pow 2 (-b.exponent).toNat

/-- Whether there is no fraction. -/
def isInteger (b : Binary) : Bool :=
  b.mantissa % Nat.pow 2 (-b.exponent).toNat = 0

end Binary

end TraitResolution.Number
