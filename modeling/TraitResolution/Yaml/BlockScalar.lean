import TraitResolution.Yaml.Comment
import TraitResolution.Yaml.Token

/-! # Block scalars

A block scalar is a header and the indented lines after it. Its lines are kept as they are, or
folded: a break between two lines that do not begin with a blank becomes a blank.
-/

namespace TraitResolution.Yaml.BlockScalar

/-- What becomes of the breaks at the end. -/
inductive Chomping where
  | strip
  | clip
  | keep
deriving DecidableEq

/-- The chomping that an indicator asks for. -/
def chompingOf : Char → Option Chomping
  | '+' => some .keep
  | '-' => some .strip
  | _ => none

/-- Read an optional chomping indicator. -/
def chomping? : Reading (Option Chomping) := do
  Reading.need 1
  match (← Reading.peek).bind chompingOf with
  | some c =>
    Reading.skip
    pure (some c)
  | none => pure none

/-- Read an optional indentation indicator. -/
def increment? (start : Mark) : Reading (Option Nat) := do
  Reading.need 1
  match ← Reading.peek with
  | some c =>
    if c = '0' then
      Reading.fail start .zeroIndentation
    else if c.isDigit then
      Reading.skip
      pure (some (c.toNat - '0'.toNat))
    else
      pure none
  | none => pure none

/-- Read the indicators of a header, in either order. -/
def header (start : Mark) : Reading (Chomping × Nat) := do
  match ← chomping? with
  | some c =>
    let i ← increment? start
    pure (c, i.getD 0)
  | none =>
    match ← increment? start with
    | some i =>
      let c ← chomping?
      pure (c.getD .clip, i)
    | none => pure (.clip, 0)

/-- Read the rest of the line of a header. -/
def restOfLine (start : Mark) : Reading Unit := do
  Reading.skipBlanks
  if ← Reading.at? '#' then
    Comment.onLine start.index
    Reading.skipToBreak
  let c ← get
  if c.atBreak then
    let _ ← Reading.lineBreak
  else if !c.rest.isEmpty then
    Reading.fail start .restOfLine

/-- Move past the blanks of an indentation. -/
def indentationWithin (indent : Nat) : Nat → Reading Unit
  | 0 => pure ()
  | n + 1 => do
    Reading.need 1
    let c ← get
    if (indent = 0 ∨ c.mark.column < indent) ∧ c.rest.head? = some ' ' then
      Reading.skip
      indentationWithin indent n

/-- Read empty lines and the indentation after them: the breaks, and the greatest column reached.
Indentation 0 stands for one that is not known yet. -/
def breaksWithin (start : Mark) (indent : Nat) :
    Nat → Nat → List Char → Reading (Nat × List Char)
  | 0, widest, breaks => pure (widest, breaks)
  | n + 1, widest, breaks => do
    indentationWithin indent ((← Reading.bound) + 1)
    let c ← get
    let column := c.mark.column
    if (indent = 0 ∨ column < indent) ∧ c.rest.head? = some '\t' then
      Reading.fail start .tabInBlock
    else if c.atBreak then
      let b ← Reading.lineBreak
      breaksWithin start indent n (max widest column) (breaks ++ b)
    else
      pure (max widest column, breaks)

/-- Read empty lines and the indentation after them. -/
def breaks (start : Mark) (indent : Nat) : Reading (Nat × List Char) := do
  breaksWithin start indent ((← Reading.bound) + 1) 0 []

/-- What joins a line to the text before it. -/
def separator (folding blankBefore blankHere : Bool) (lineBreak more : List Char) : List Char :=
  if folding && !blankBefore && !blankHere && lineBreak == ['\n'] then
    (if more.isEmpty then [' '] else []) ++ more
  else
    lineBreak ++ more

/-- Read the lines of the given indentation. The break after the last line and the empty lines
after it are returned apart. -/
def linesWithin (start : Mark) (folding : Bool) (indent : Nat) :
    Nat → String → List Char → List Char → Bool → Reading (String × List Char × List Char)
  | 0, text, lineBreak, more, _ => pure (text, lineBreak, more)
  | n + 1, text, lineBreak, more, blankBefore => do
    let c ← get
    if c.mark.column = indent ∧ !c.rest.isEmpty then
      let blankHere := c.rest.head?.any isBlank
      let joint := separator folding blankBefore blankHere lineBreak more
      let line ← Reading.span fun ch => !isBreak ch
      let lineBreak ← Reading.lineBreak
      let (_, more) ← breaks start indent
      linesWithin start folding indent n (text ++ String.ofList (joint ++ line)) lineBreak more
        blankHere
    else
      pure (text, lineBreak, more)

/-- Read a block scalar inside a block of the given indentation. -/
def read (folding : Bool) (parent : Int) : Reading String := do
  let start ← Reading.place
  Reading.skip
  let (chomping, increment) ← header start
  restOfLine start
  let given := if increment = 0 then 0 else (max parent 0).toNat + increment
  let (widest, more) ← breaks start given
  let indent := if given = 0 then max widest (max (parent + 1) 1).toNat else given
  Reading.need 1
  let (text, lineBreak, more) ←
    linesWithin start folding indent ((← Reading.bound) + 1) "" [] more false
  pure (text ++ String.ofList (match chomping with
    | .strip => []
    | .clip => lineBreak
    | .keep => lineBreak ++ more))

end TraitResolution.Yaml.BlockScalar
