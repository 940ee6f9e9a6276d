import TraitResolution.Number.Decimal

/-! # Shortest decimals

A binary number is shown with the fewest decimal digits that read back as that number, and of those
with the nearest. Large and small numbers are shown with a power of ten.
-/

namespace TraitResolution.Number.Binary

/-- The magnitude as a fraction. -/
def fraction (b : Binary) : Nat × Nat :=
  if 0 ≤ b.exponent then (b.mantissa * Nat.pow 2 b.exponent.toNat, 1)
  else (b.mantissa, Nat.pow 2 (-b.exponent).toNat)

/-- The power of ten that leaves the given number of digits before the point of a fraction. -/
def tenScale (num den digits : Nat) : Int :=
  let guess : Int :=
    ((Nat.toDigits 10 num).length : Int) - (Nat.toDigits 10 den).length + 1 - digits
  let below : Bool :=
    if 0 ≤ guess then num < den * Nat.pow 10 (guess.toNat + digits - 1)
    else num * Nat.pow 10 (-guess).toNat < den * Nat.pow 10 (digits - 1)
  if below then guess - 1 else guess

/-- The two neighbours of a fraction among the decimals with a number of digits, the nearer one
first. Of two that are equally near the even one comes first. -/
def neighbours (num den digits : Nat) : List Decimal :=
  let e := tenScale num den digits
  let (num, den) :=
    if 0 ≤ e then (num, den * Nat.pow 10 e.toNat) else (num * Nat.pow 10 (-e).toNat, den)
  let low := num / den
  let near := roundDiv num den
  [⟨false, near, e⟩, ⟨false, if near = low then low + 1 else low, e⟩]

/-- Whether one number is at most another. -/
def le (a b : Binary) : Bool :=
  let (m, n) := a.fraction
  let (p, q) := b.fraction
  let left : Int := if a.negative then -(m * q : Nat) else (m * q : Nat)
  let right : Int := if b.negative then -(p * n : Nat) else (p * n : Nat)
  left ≤ right

/-- Whether a decimal reads back as a magnitude. -/
def readsBack (num den : Nat) (d : Decimal) : Bool :=
  match ofDecimal? d with
  | some b =>
    let (n, m) := b.fraction
    n * den == num * m
  | none => false

/-- The shortest decimal of at least a number of digits. No number needs more than 17. -/
def shortestFrom (num den digits : Nat) : Nat → Decimal
  | 0 => ⟨false, 0, 0⟩
  | n + 1 =>
    match (neighbours num den digits).find? (readsBack num den) with
    | some d => d
    | none => shortestFrom num den (digits + 1) n

/-- Digits without zeros at the end, and the power of ten they are multiplied by. -/
def trimmed (digits : List Char) (exponent : Int) : List Char × Int :=
  let kept := (digits.reverse.dropWhile (· == '0')).reverse
  (kept, exponent + (digits.length - kept.length : Nat))

/-- An exponent with its sign and at least two digits. -/
def exponentText (e : Int) : String :=
  let digits := Nat.toDigits 10 e.natAbs
  (if e < 0 then "-" else "+") ++
    String.ofList (List.replicate (2 - digits.length) '0' ++ digits)

/-- Digits with a power of ten. The first digit stands before the point. -/
def scientific (digits : List Char) (e : Int) : String :=
  let rest := digits.tail
  String.ofList (digits.take 1) ++
    (if rest.isEmpty then "" else "." ++ String.ofList rest) ++ "e" ++ exponentText e

/-- Digits around a point that stands after the given number of them. -/
def positional (digits : List Char) (point : Int) : String :=
  if point ≤ 0 then
    "0." ++ String.ofList (List.replicate (-point).toNat '0' ++ digits)
  else
    let whole := digits.take point.toNat
    let zeros := List.replicate (point.toNat - whole.length) '0'
    let rest := digits.drop point.toNat
    String.ofList (whole ++ zeros) ++ (if rest.isEmpty then "" else "." ++ String.ofList rest)

/-- A number as it is shown: with a power of ten unless it is at least 0.0001 and less than a
million. -/
def shown (b : Binary) : String :=
  let sign := if b.negative then "-" else ""
  let (num, den) := b.fraction
  if num = 0 then sign ++ "0"
  else
    let d := shortestFrom num den 1 17
    let (digits, e) := trimmed (Nat.toDigits 10 d.digits) d.exponent
    let first := e + digits.length - 1
    sign ++ if first < -4 ∨ 6 ≤ first then scientific digits first
      else positional digits (first + 1)

end TraitResolution.Number.Binary
