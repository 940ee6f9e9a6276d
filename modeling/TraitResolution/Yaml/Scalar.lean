import TraitResolution.Number.Decimal
import TraitResolution.Yaml.Base64
import TraitResolution.Yaml.Fault
import TraitResolution.Yaml.Timestamp
import TraitResolution.Yaml.Token

/-! # The meaning of scalars

A plain scalar without a tag stands for null, a truth value, a number or a timestamp if it is
written like one, and for a text otherwise. A tag must agree with that.
-/

namespace TraitResolution.Yaml

/-- A number with a fraction. -/
inductive FloatValue where
  | finite (b : Number.Binary)
  | infinite (negative : Bool)
  | notANumber
deriving DecidableEq

/-- What a scalar stands for. -/
inductive Value where
  | null
  | bool (b : Bool)
  | int (n : Int)
  | float (x : FloatValue)
  | timestamp (t : Timestamp)
  | text (t : Text)
deriving DecidableEq

namespace Value

/-- The tag of a value. -/
def tag : Value → String
  | null => "!!null"
  | bool _ => "!!bool"
  | int _ => "!!int"
  | float _ => "!!float"
  | timestamp _ => "!!timestamp"
  | text _ => "!!str"

/-- The words with a meaning of their own. -/
def ofWord? (s : String) : Option Value :=
  if ["", "~", "null", "Null", "NULL"].contains s then some null
  else if ["true", "True", "TRUE"].contains s then some (bool true)
  else if ["false", "False", "FALSE"].contains s then some (bool false)
  else if [".nan", ".NaN", ".NAN"].contains s then some (float .notANumber)
  else if [".inf", ".Inf", ".INF", "+.inf", "+.Inf", "+.INF"].contains s then
    some (float (.infinite false))
  else if ["-.inf", "-.Inf", "-.INF"].contains s then some (float (.infinite true))
  else none

/-- Read a number with a fraction or a power. -/
def ofDecimal? (cs : List Char) : Option Value :=
  (Number.Decimal.parse? cs).bind fun d =>
    (Number.Binary.ofDecimal? d).map fun b => float (.finite b)

/-- An integer, if it was read. -/
def ofInteger? (r : Except Number.IntegerError Int) : Option Value :=
  match r with
  | .ok n => some (int n)
  | .error _ => none

/-- Read an integer that may also have 64 bits without a sign. -/
def wide? (magnitude : List Char → Except Number.IntegerError Nat) (cs : List Char) :
    Option Value :=
  (ofInteger? (Number.signed magnitude cs)).or (ofInteger? ((magnitude cs).map (↑·)))

/-- Read digits in a base after a mark, possibly with a sign in front of the mark or of the
digits. -/
def marked? (base : Nat) (mark : Char) : List Char → Option Value
  | '0' :: m :: ds => if m = mark then wide? (Number.digits base) ds else none
  | '-' :: '0' :: m :: ds =>
    if m = mark then ofInteger? (Number.signed (Number.digits base) ('-' :: ds)) else none
  | _ => none

/-- Read a number. Underscores do not count. -/
def ofNumber? (s : String) : Option Value :=
  let cs := s.toList.filter (· ≠ '_')
  (wide? Number.unsigned cs).or ((ofDecimal? cs).or ((marked? 2 'b' cs).or (marked? 8 'o' cs)))

/-- Read a number that begins with a point. Underscores may separate digits. -/
def ofFraction? (s : String) : Option Value :=
  let cs := s.toList
  if Number.underscoresAllowed cs then ofDecimal? (cs.filter (· ≠ '_')) else none

/-- What a text without a tag stands for. Whether it may be a timestamp is given. -/
def ofText (timestamps : Bool) (s : String) : Value :=
  match ofWord? s with
  | some v => v
  | none =>
    match s.toList with
    | '.' :: _ => (ofFraction? s).getD (text s)
    | c :: _ =>
      if c.isDigit || c == '+' || c == '-' then
        match if timestamps then Timestamp.ofString? s else none with
        | some t => timestamp t
        | none => (ofNumber? s).getD (text s)
      else
        text s
    | [] => text s

/-- The number with a fraction that an integer is. -/
def floatOfInt? (n : Int) : Option Value :=
  if n < Number.signedLimit then
    (Number.Binary.ofDecimal? ⟨n < 0, n.natAbs, 0⟩).map fun b => float (.finite b)
  else
    none

/-- The tags that must agree with how a scalar is written. -/
def checkedTags : List String :=
  ["!!bool", "!!int", "!!float", "!!null", "!!timestamp"]

/-- What a text with a tag stands for. -/
def ofTagged (tag : Text) (s : String) : Except Fault Value :=
  let tag := tag.string?.getD ""
  if checkedTags.contains tag then
    let v := ofText (tag == "!!timestamp") s
    if v.tag = tag then .ok v
    else
      let mismatch : Fault := .anywhere (.tagMismatch v.tag s tag)
      match v with
      | int n =>
        if tag = "!!float" then
          match floatOfInt? n with
          | some x => .ok x
          | none => .error mismatch
        else
          .error mismatch
      | _ => .error mismatch
  else if tag = "!!binary" then
    match Base64.decode? s with
    | some t => .ok (text t)
    | none => .error (.anywhere .badBase64)
  else
    .ok (text s)

end Value

/-- A scalar: its tag if it has one, how it is written, and its text. -/
structure Scalar where
  explicitTag : Option Text
  style : Style
  text : String
deriving DecidableEq

namespace Scalar

/-- Whether a scalar is the key that merges another mapping. -/
def isMerge (s : Scalar) : Bool :=
  s.text == "<<" && match s.explicitTag with
    | some t => decide (t = "!!merge")
    | none => s.style == .plain

/-- The tag of a scalar. -/
def tag (s : Scalar) : Text :=
  match s.explicitTag with
  | some t => t
  | none =>
    if s.style ≠ .plain then "!!str"
    else if s.text = "<<" then "!!merge"
    else (Value.ofText true s.text).tag

/-- What a scalar stands for. -/
def value (s : Scalar) : Except Fault Value :=
  match s.explicitTag with
  | some t => Value.ofTagged t s.text
  | none => .ok (if s.style ≠ .plain then .text s.text else .ofText true s.text)

end Scalar

end TraitResolution.Yaml
