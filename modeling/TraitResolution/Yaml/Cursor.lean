import TraitResolution.Number.Integer
import TraitResolution.Yaml.Fault

/-! # Places in a YAML text

A text is read character by character, from a place with a line and a column.

## Implementation notes

A text is taken in by portions of at most 512 bytes of whole characters, as they are needed. A
character that is not allowed spoils its portion: whoever needs that portion meets a fault, even if
it only wants characters before the bad one, and whoever stops earlier never learns of it. How many
characters a step needs is therefore part of what it does.

The characters held are dropped up to the present place whenever more are taken in. Whether those
that are held begin with a byte order mark matters at the start of a line.
-/

namespace TraitResolution.Yaml

/-- Whether a character may stand in a text. -/
def isAllowed (c : Char) : Bool :=
  let n := c.toNat
  n == 0x9 || n == 0xA || n == 0xD || (0x20 ≤ n && n ≤ 0x7E) || n == 0x85 ||
    (0xA0 ≤ n && n ≤ 0xD7FF) || (0xE000 ≤ n && n ≤ 0xFFFD) || 0x10000 ≤ n

/-- A blank or a tab. -/
def isBlank (c : Char) : Bool := c == ' ' || c == '\t'

/-- A line break. -/
def isBreak (c : Char) : Bool :=
  c == '\n' || c == '\r' || c == '\u0085' || c == '\u2028' || c == '\u2029'

/-- A letter, a digit, an underscore or a hyphen. -/
def isWordChar (c : Char) : Bool := c.isAlphanum || c == '_' || c == '-'

/-- A place in a text. Lines, columns and characters are counted from 0. -/
structure Mark where
  line : Nat
  column : Nat
  index : Nat
deriving DecidableEq

/-- A part of a text that is taken in at once: how many characters it has, and whether one that is
not allowed follows them. -/
structure Portion where
  count : Nat
  spoiled : Bool
deriving DecidableEq

namespace Portion

/-- The greatest number of bytes in a portion. -/
def size : Nat := 512

/-- The portions of a text, given the bytes and characters of the present portion so far. Nothing
is taken in after a character that is not allowed. -/
def split (bytes count : Nat) : List Char → List Portion
  | [] => if count = 0 then [] else [⟨count, false⟩]
  | c :: cs =>
    if size < bytes + c.utf8Size then
      ⟨count, false⟩ :: if isAllowed c then split c.utf8Size 1 cs else [⟨0, true⟩]
    else if isAllowed c then
      split (bytes + c.utf8Size) (count + 1) cs
    else
      [⟨count, true⟩]

end Portion

/-- What a comment says something about: what follows it, the line it stands in, or what it comes
after. -/
inductive CommentRole where
  | head
  | line
  | foot
deriving DecidableEq

/-- A comment. -/
structure Comment where
  role : CommentRole
  text : List Char
  /-- The place of the token it belongs to. -/
  token : Nat
  start : Mark
  /-- The place where the search for it began, and the place where it ends. -/
  searched : Nat
  finish : Nat
deriving DecidableEq

/-- A place with the text after it. -/
structure Cursor where
  /-- The length of the whole text, which bounds all that is left to do. -/
  length : Nat
  rest : List Char
  mark : Mark
  /-- How many characters from here on are held. The end of the text counts as characters too. -/
  held : Nat
  /-- What has not been taken in yet. -/
  portions : List Portion
  /-- Whether the characters held began with a byte order mark when more were last taken in. -/
  marked : Bool
  /-- The number of line breaks since the last character that is no blank. -/
  newlines : Nat
  /-- The comments that belong to tokens not looked at yet. -/
  comments : List Comment
  /-- Whether a look ahead met a character that is not allowed. -/
  spoiled : Bool

namespace Cursor

/-- The start of a text. A byte order mark in front is left out. -/
def start (text : String) : Cursor :=
  let cs := text.toList
  let (cs, bytes) := match cs with
    | '\ufeff' :: rest => (rest, 3)
    | _ => (cs, 0)
  ⟨cs.length, cs, ⟨0, 0, 0⟩, 0, Portion.split bytes 0 cs, false, 0, [], false⟩

/-- Take in portions until a number of characters is held, and say whether all went well. The end
of the text is one more character each time it is reached. -/
def takeIn (wanted held : Nat) : List Portion → (Nat × List Portion) × Bool
  | [] => ((held + 1, []), true)
  | p :: ps =>
    let held := held + p.count
    if p.spoiled then ((held, [⟨0, true⟩]), false)
    else if wanted ≤ held then ((held, ps), true)
    else takeIn wanted held ps

/-- The cursor when a number of characters is held, and whether that could be done. -/
def holding (c : Cursor) (wanted : Nat) : Cursor × Bool :=
  if wanted ≤ c.held then (c, true)
  else
    let ((held, portions), fine) := takeIn wanted c.held c.portions
    ({ c with held := held, portions := portions, marked := c.rest.head? == some '\ufeff' }, fine)

/-- The place after the next character, in the same line. -/
def next (c : Cursor) : Cursor :=
  { c with
    rest := c.rest.tail
    mark := ⟨c.mark.line, c.mark.column + 1, c.mark.index + 1⟩
    held := c.held - 1
    newlines := if c.rest.head?.any isBlank then c.newlines else 0 }

/-- The place after a line break of some characters. -/
def newline (c : Cursor) (size : Nat) : Cursor :=
  { c with
    rest := c.rest.drop size
    mark := ⟨c.mark.line + 1, 0, c.mark.index + size⟩
    held := c.held - size
    newlines := c.newlines + 1 }

/-- The place after the line break here, and what it becomes in a text. Only the line and paragraph
separators are kept apart from other breaks. -/
def nextLine (c : Cursor) : Cursor × List Char :=
  match c.rest with
  | '\r' :: '\n' :: _ => (c.newline 2, ['\n'])
  | '\u2028' :: _ => (c.newline 1, ['\u2028'])
  | '\u2029' :: _ => (c.newline 1, ['\u2029'])
  | ch :: _ => if isBreak ch then (c.newline 1, ['\n']) else (c, [])
  | [] => (c, [])

/-- Whether the character at a distance passes a test, or there is none. -/
def atOrEnd (c : Cursor) (distance : Nat) (p : Char → Bool) : Bool :=
  (c.rest[distance]?).all p

/-- Whether the character at a distance is a blank, a break, or missing. -/
def blankAt (c : Cursor) (distance : Nat) : Bool :=
  c.atOrEnd distance fun ch => isBlank ch || isBreak ch

/-- Whether a line break stands here. -/
def atBreak (c : Cursor) : Bool :=
  c.rest.head?.any isBreak

/-- Whether a document marker made of three of the given characters stands here. -/
def atMarkerOf (c : Cursor) (ch : Char) : Bool :=
  c.mark.column == 0 && c.rest.take 3 == [ch, ch, ch] && c.blankAt 3

/-- Whether a document marker stands here. -/
def atMarker (c : Cursor) : Bool :=
  c.atMarkerOf '-' || c.atMarkerOf '.'

end Cursor

/-- A step of reading a token. It moves the cursor also if it fails. -/
abbrev Reading := ExceptT Fault (StateM Cursor)

namespace Reading

/-- The present place. -/
def place : Reading Mark := do
  let c ← get
  pure c.mark

/-- The next character. -/
def peek : Reading (Option Char) := do
  let c ← get
  pure c.rest.head?

/-- Whether the next character is the given one. -/
def at? (ch : Char) : Reading Bool := do
  let c ← get
  pure (c.rest.head? == some ch)

/-- Hold a number of characters. -/
def need (count : Nat) : Reading Unit := do
  let c ← get
  let (c, fine) := c.holding count
  set c
  if !fine then throw (.anywhere .controlCharacter)

/-- Try to hold a number of characters, and remember a failure for later. -/
def tryNeed (count : Nat) : Reading Bool := do
  let c ← get
  let (c, fine) := c.holding count
  set { c with spoiled := c.spoiled || !fine }
  pure fine

/-- Move past the next character. -/
def skip : Reading Unit :=
  modify Cursor.next

/-- Move past a number of characters. -/
def skipMany : Nat → Reading Unit
  | 0 => pure ()
  | n + 1 => do
    skip
    skipMany n

/-- Move past a line break, if there is one, and return what it becomes. -/
def lineBreak : Reading (List Char) := do
  need 2
  let c ← get
  let (c, text) := c.nextLine
  set c
  pure text

/-- Give up on a token that begins at a mark. -/
def fail {α : Type} (start : Mark) (problem : Problem) : Reading α := do
  let here ← place
  throw (.inToken problem start.line here.line)

/-- A bound on the number of characters that are left. -/
def bound : Reading Nat := do
  let c ← get
  pure c.length

/-- Move past at most a number of characters while they pass a test, after the ones before. -/
def spanWithin (p : Char → Bool) : Nat → List Char → Reading (List Char)
  | 0, taken => do
    need 1
    pure taken.reverse
  | n + 1, taken => do
    need 1
    match ← peek with
    | some c =>
      if p c then
        skip
        spanWithin p n (c :: taken)
      else
        pure taken.reverse
    | none => pure taken.reverse

/-- Move past characters while they pass a test, and return them. -/
def span (p : Char → Bool) : Reading (List Char) := do
  spanWithin p (← bound) []

/-- Move past blanks. -/
def skipBlanks : Reading Unit := do
  let _ ← span isBlank

/-- Move to the end of the line. -/
def skipToBreak : Reading Unit := do
  let _ ← span fun c => !isBreak c

end Reading

end TraitResolution.Yaml
