/-! # Written integers of 64 bits

An optional sign is followed by digits. A leading `0b`, `0o`, `0x` or `0` makes them binary, octal,
hexadecimal or octal digits. Underscores may stand between digits, and between a base mark and a
digit.

Digits are read from left to right. The reader stops at the first character that is no digit, or as
soon as the value needs more than 64 bits, whichever comes first.
-/

namespace TraitResolution.Number

/-- Why a text is no integer. -/
inductive IntegerError where
  | invalid
  | outOfRange
deriving DecidableEq

/-- What is wrong, in words. -/
def IntegerError.text : IntegerError → String
  | invalid => "invalid syntax"
  | outOfRange => "value out of range"

/-- The value of a digit, in any base up to 36. -/
def digitValue? (c : Char) : Option Nat :=
  if c.isDigit then some (c.toNat - '0'.toNat)
  else if c.isLower then some (c.toNat - 'a'.toNat + 10)
  else if c.isUpper then some (c.toNat - 'A'.toNat + 10)
  else none

/-- The least number that does not fit into 64 bits. -/
def unsignedLimit : Nat := 0x10000000000000000

/-- The least number that does not fit into 64 bits with a sign. -/
def signedLimit : Nat := 0x8000000000000000

/-- Read digits in a base after the value of the digits before them. -/
def digitsFrom (base : Nat) (n : Nat) : List Char → Except IntegerError Nat
  | [] => .ok n
  | c :: cs =>
    match digitValue? c with
    | none => .error .invalid
    | some d =>
      if base ≤ d then .error .invalid
      else if unsignedLimit ≤ n * base + d then .error .outOfRange
      else digitsFrom base (n * base + d) cs

/-- Read at least one digit in a base. -/
def digits (base : Nat) (cs : List Char) : Except IntegerError Nat :=
  if cs.isEmpty then .error .invalid else digitsFrom base 0 cs

/-- The base that a number without its sign is written in, and its digits. -/
def radix : List Char → Nat × List Char
  | '0' :: mark :: d :: rest =>
    match mark.toLower with
    | 'b' => (2, d :: rest)
    | 'o' => (8, d :: rest)
    | 'x' => (16, d :: rest)
    | _ => (8, mark :: d :: rest)
  | '0' :: rest => (8, rest)
  | cs => (10, cs)

/-- What stands before the next character: a digit, an underscore, or neither. -/
inductive Before where
  | digit
  | underscore
  | other
deriving DecidableEq

/-- Whether underscores stand between digits only. -/
def separates (isDigit : Char → Bool) (before : Before) : List Char → Bool
  | [] => before ≠ .underscore
  | c :: cs =>
    if isDigit c then separates isDigit .digit cs
    else if c = '_' then before = .digit && separates isDigit .underscore cs
    else before ≠ .underscore && separates isDigit .other cs

/-- Whether a character is a hexadecimal digit. -/
def isHexDigit (c : Char) : Bool :=
  c.isDigit || ('a' ≤ c && c ≤ 'f') || ('A' ≤ c && c ≤ 'F')

/-- Whether the underscores of a number without its sign are in allowed places. -/
def underscoresAllowed : List Char → Bool
  | '0' :: mark :: rest =>
    match mark.toLower with
    | 'b' | 'o' => separates Char.isDigit .digit rest
    | 'x' => separates isHexDigit .digit rest
    | _ => separates Char.isDigit .other ('0' :: mark :: rest)
  | cs => separates Char.isDigit .other cs

/-- Read a number without a sign. -/
def unsigned (cs : List Char) : Except IntegerError Nat := do
  if cs.isEmpty then throw .invalid
  let (base, ds) := radix cs
  let n ← digitsFrom base 0 (ds.filter (· ≠ '_'))
  if cs.contains '_' && !underscoresAllowed cs then throw .invalid
  pure n

/-- Read a sign and a number, which must fit into 64 bits with the sign. -/
def signed (magnitude : List Char → Except IntegerError Nat) (cs : List Char) :
    Except IntegerError Int := do
  match cs with
  | '-' :: rest =>
    let n ← magnitude rest
    if signedLimit < n then throw .outOfRange else pure (-n)
  | _ =>
    let n ← magnitude (match cs with | '+' :: rest => rest | _ => cs)
    if signedLimit ≤ n then throw .outOfRange else pure n

/-- Read an integer. -/
def integer (s : String) : Except IntegerError Int :=
  signed unsigned s.toList

end TraitResolution.Number
