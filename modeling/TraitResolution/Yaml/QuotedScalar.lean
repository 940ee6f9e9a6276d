import TraitResolution.Yaml.Gap
import TraitResolution.Yaml.Token

/-! # Quoted scalars

Between single quotes only the quote itself is special and is written twice. Between double quotes a
backslash begins an escape, and a backslash before a line break hides the break.
-/

namespace TraitResolution.Yaml.QuotedScalar

/-- What the character after a backslash stands for. -/
inductive Escape where
  | char (c : Char)
  | code (digits : Nat)
  | unknown

/-- The meaning of the character after a backslash. -/
def escapeOf : Char → Escape
  | '0' => .char '\x00'
  | 'a' => .char '\x07'
  | 'b' => .char '\x08'
  | 't' | '\t' => .char '\t'
  | 'n' => .char '\n'
  | 'v' => .char '\x0b'
  | 'f' => .char '\x0c'
  | 'r' => .char '\r'
  | 'e' => .char '\x1b'
  | ' ' => .char ' '
  | '\x22' => .char '\x22'
  | '\x27' => .char '\x27'
  | '\\' => .char '\\'
  | 'N' => .char '\u0085'
  | '_' => .char '\u00a0'
  | 'L' => .char '\u2028'
  | 'P' => .char '\u2029'
  | 'x' => .code 2
  | 'u' => .code 4
  | 'U' => .code 8
  | _ => .unknown

/-- The value of hexadecimal digits. -/
def hexValue? (ds : List Char) : Option Nat :=
  ds.foldlM (fun n c =>
    if Number.isHexDigit c then (Number.digitValue? c).map (16 * n + ·) else none) 0

/-- Read the digits of an escape. -/
def code (start : Mark) (digits : Nat) : Reading Char := do
  Reading.need digits
  let c ← get
  let ds := c.rest.take digits
  match if ds.length = digits then hexValue? ds else none with
  | none => Reading.fail start .missingHexDigit
  | some n =>
    if (0xD800 ≤ n ∧ n ≤ 0xDFFF) ∨ 0x10FFFF < n then
      Reading.fail start .badEscapedCharacter
    else
      Reading.skipMany digits
      pure (Char.ofNat n)

/-- Read an escape, from the backslash on. -/
def escape (start : Mark) : Reading Char := do
  let c ← get
  match (c.rest[1]?).map escapeOf with
  | some (.char ch) =>
    Reading.skipMany 2
    pure ch
  | some (.code digits) =>
    Reading.skipMany 2
    code start digits
  | some .unknown | none => Reading.fail start .unknownEscape

/-- Read up to a blank, a break or the closing quote. The flag says that a hidden break was read. -/
def wordWithin (start : Mark) (quote : Char) : Nat → String → Reading (String × Bool)
  | 0, text => pure (text, false)
  | n + 1, text => do
    let c ← get
    match c.rest with
    | [] => pure (text, false)
    | ch :: rest =>
      if isBlank ch || isBreak ch then
        pure (text, false)
      else if ch = quote then
        if quote = '\x27' ∧ rest.head? = some quote then
          Reading.skipMany 2
          Reading.need 2
          wordWithin start quote n (text.push quote)
        else
          pure (text, false)
      else if quote = '\x22' ∧ ch = '\\' then
        if rest.head?.any isBreak then
          Reading.need 3
          Reading.skip
          let _ ← Reading.lineBreak
          pure (text, true)
        else
          let e ← escape start
          Reading.need 2
          wordWithin start quote n (text.push e)
      else
        Reading.skip
        Reading.need 2
        wordWithin start quote n (text.push ch)

/-- Read up to and including the closing quote. -/
def readWithin (start : Mark) (quote : Char) : Nat → String → Reading String
  | 0, text => pure text
  | n + 1, text => do
    Reading.need 4
    let c ← get
    if c.atMarker then
      Reading.fail start .markerInQuotes
    else if c.rest.isEmpty then
      Reading.fail start .endInQuotes
    else
      let (text, hidden) ← wordWithin start quote c.length text
      Reading.need 1
      if ← Reading.at? quote then
        Reading.skip
        pure text
      else
        let gap ← Gap.read start 0 (if hidden then .escaped else .none)
        readWithin start quote n (text ++ String.ofList gap.joined)

/-- Read a scalar between quotes. -/
def read (quote : Char) : Reading String := do
  let start ← Reading.place
  Reading.skip
  readWithin start quote ((← Reading.bound) + 1) ""

end TraitResolution.Yaml.QuotedScalar
