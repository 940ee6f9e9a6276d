import TraitResolution.Yaml.Token

/-! # Anchors, tags and directives -/

namespace TraitResolution.Yaml.Property

/-- Read the name of an anchor or an alias, with its indicator. -/
def anchorName : Reading String := do
  let start ← Reading.place
  Reading.skip
  let name ← Reading.span isWordChar
  let c ← get
  let ended := c.blankAt 0 || c.atOrEnd 0 fun ch =>
    ['?', ':', ',', ']', '\x7d', '%', '@', '\x60'].contains ch
  if name.isEmpty || !ended then
    Reading.fail start .missingAnchorName
  else
    pure (String.ofList name)

/-- Whether a character may stand in a tag. -/
def isUriChar (c : Char) : Bool :=
  isWordChar c ||
    [';', '/', '?', ':', '@', '&', '=', '+', '$', ',', '.', '!', '~', '*', '\x27', '(',
    ')', '[', ']', '%'].contains c

/-- The octet that is written as a percent sign and two digits. -/
def octet? : List Char → Option UInt8
  | '%' :: a :: b :: _ =>
    if Number.isHexDigit a && Number.isHexDigit b then do
      let x ← Number.digitValue? a
      let y ← Number.digitValue? b
      pure (16 * x + y).toUInt8
    else
      none
  | _ => none

/-- The number of octets that a first octet announces. -/
def announced (o : UInt8) : Option Nat :=
  if o < 0x80 then some 1
  else if 0xC0 ≤ o ∧ o < 0xE0 then some 2
  else if 0xE0 ≤ o ∧ o < 0xF0 then some 3
  else if 0xF0 ≤ o ∧ o < 0xF8 then some 4
  else none

/-- Read an octet that passes a test. -/
def octet (start : Mark) (problem : Problem) (p : UInt8 → Bool) : Reading UInt8 := do
  Reading.need 3
  let c ← get
  match octet? c.rest with
  | some o =>
    if p o then
      Reading.skipMany 3
      pure o
    else
      Reading.fail start problem
  | none => Reading.fail start .missingOctet

/-- Read further octets of a character. -/
def trailing (start : Mark) : Nat → Reading (List UInt8)
  | 0 => pure []
  | n + 1 => do
    let o ← octet start .badTrailingOctet fun o => 0x80 ≤ o && o < 0xC0
    let rest ← trailing start n
    pure (o :: rest)

/-- Read octets that have the form of a character. Whether they are one is not asked. -/
def octets (start : Mark) : Reading (List UInt8) := do
  let o ← octet start .badLeadingOctet fun o => (announced o).isSome
  let rest ← trailing start ((announced o).getD 1 - 1)
  pure (o :: rest)

/-- Read the characters of a tag after the ones before them. -/
def uriWithin (start : Mark) : Nat → Text → Reading Text
  | 0, text => pure text
  | n + 1, text => do
    Reading.need 1
    match ← Reading.peek with
    | some c =>
      if c = '%' then
        let os ← octets start
        uriWithin start n (text ++ Text.ofBytes os)
      else if isUriChar c then
        Reading.skip
        uriWithin start n (text ++ String.singleton c)
      else
        pure text
    | none => pure text

/-- Read the characters of a tag after a head, of which the first character does not count. Without
a head there must be some. -/
def uri (start : Mark) (head : String) : Reading Text := do
  let text ← uriWithin start ((← Reading.bound) + 1) (String.ofList (head.toList.drop 1))
  if head.isEmpty && text.isEmpty then
    Reading.fail start .missingUri
  else
    pure text

/-- Read a handle: an exclamation mark, and possibly a word and another one. -/
def handle (start : Mark) (inDirective : Bool) : Reading String := do
  Reading.need 1
  if ← Reading.at? '!' then
    Reading.skip
    let name ← Reading.span isWordChar
    if ← Reading.at? '!' then
      Reading.skip
      pure (String.ofList ('!' :: name ++ ['!']))
    else if inDirective && !name.isEmpty then
      Reading.fail start .missingHandle
    else
      pure (String.ofList ('!' :: name))
  else
    Reading.fail start .missingHandle

/-- Read a tag in angle brackets. -/
def verbatim (start : Mark) : Reading (String × Text) := do
  Reading.skipMany 2
  let suffix ← uri start ""
  if ← Reading.at? '>' then
    Reading.skip
    pure ("", suffix)
  else
    Reading.fail start .missingTagEnd

/-- Read a tag that may begin with a handle. A lone exclamation mark is a suffix without a
handle. -/
def shorthand (start : Mark) : Reading (String × Text) := do
  let head ← handle start false
  if 1 < head.length && head.endsWith "!" then
    let suffix ← uri start ""
    pure (head, suffix)
  else
    let suffix ← uri start head
    pure (if suffix.isEmpty then ("", head) else ("!", suffix))

/-- Read a tag: its handle and its suffix. -/
def tag : Reading (String × Text) := do
  let start ← Reading.place
  Reading.need 2
  let c ← get
  let t ← if c.rest[1]? == some '<' then verbatim start else shorthand start
  Reading.need 1
  let c ← get
  if c.blankAt 0 then pure t else Reading.fail start .missingBlankOrBreak

/-- The greatest number of digits in a number of a version. -/
def maxDigits : Nat := 2

/-- Read the digits of a number of a version, of which so many more may follow. -/
def versionDigits (start : Mark) : Nat → List Char → Reading (List Char)
  | n, digits => do
    Reading.need 1
    match ← Reading.peek with
    | some c =>
      if c.isDigit then
        match n with
        | 0 => Reading.fail start .longVersion
        | n + 1 =>
          Reading.skip
          versionDigits start n (digits ++ [c])
      else
        pure digits
    | none => pure digits

/-- Read a number of a version. -/
def versionNumber (start : Mark) : Reading Nat := do
  let ds ← versionDigits start maxDigits []
  if ds.isEmpty then
    Reading.fail start .missingVersion
  else
    pure (ds.foldl (fun n d => 10 * n + (d.toNat - '0'.toNat)) 0)

/-- Read a version after the name of its directive. -/
def version (start : Mark) : Reading TokenKind := do
  Reading.skipBlanks
  let major ← versionNumber start
  if ← Reading.at? '.' then
    Reading.skip
    let minor ← versionNumber start
    pure (.version major minor)
  else
    Reading.fail start .missingVersionDigit

/-- Read a handle and what it stands for after the name of their directive. -/
def handleDefinition (start : Mark) : Reading TokenKind := do
  Reading.skipBlanks
  let name ← handle start true
  Reading.need 1
  let c ← get
  if !c.rest.head?.any isBlank then Reading.fail start .missingBlank
  Reading.skipBlanks
  let text ← uri start ""
  Reading.need 1
  let c ← get
  if c.blankAt 0 then pure (.handle name text) else Reading.fail start .missingBlankOrBreak

/-- Read a directive with the rest of its line. -/
def directive : Reading TokenKind := do
  let start ← Reading.place
  Reading.skip
  let name ← Reading.span isWordChar
  if name.isEmpty then Reading.fail start .missingDirectiveName
  let c ← get
  if !c.blankAt 0 then Reading.fail start .badDirectiveName
  let token ←
    if name = "YAML".toList then version start
    else if name = "TAG".toList then handleDefinition start
    else Reading.fail start .unknownDirective
  Reading.skipBlanks
  if ← Reading.at? '#' then Reading.skipToBreak
  let c ← get
  if c.atBreak then
    let _ ← Reading.lineBreak
    pure token
  else if c.rest.isEmpty then
    pure token
  else
    Reading.fail start .restOfLine

end TraitResolution.Yaml.Property
