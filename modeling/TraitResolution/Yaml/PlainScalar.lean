import TraitResolution.Yaml.Gap
import TraitResolution.Yaml.Token

/-! # Plain scalars

A plain scalar ends at a colon before a blank, at a comment, at a document marker, where a line is
not indented, and inside brackets at a bracket, a comma or a question mark.
-/

namespace TraitResolution.Yaml.PlainScalar

/-- Whether a plain scalar ends before a character, given what follows it. -/
def endsBefore (inFlow : Bool) (c : Char) (rest : List Char) : Bool :=
  isBlank c || isBreak c ||
    (c == ':' && rest.head?.all fun d => isBlank d || isBreak d) ||
    (inFlow && [',', '?', '[', ']', '\x7b', '\x7d'].contains c)

/-- Read up to the end of a word, after the characters read before. -/
def wordWithin (inFlow : Bool) : Nat → List Char → Reading (List Char)
  | 0, word => pure word.reverse
  | n + 1, word => do
    let c ← get
    match c.rest with
    | [] => pure word.reverse
    | ch :: rest =>
      if endsBefore inFlow ch rest then
        pure word.reverse
      else
        Reading.skip
        Reading.need 2
        wordWithin inFlow n (ch :: word)

/-- Read words and gaps between them, and say whether a line break was passed after the last
word. -/
def readWithin (start : Mark) (indent : Int) (inFlow : Bool) :
    Nat → String → Gap → Reading (String × Bool)
  | 0, text, _ => pure (text, false)
  | n + 1, text, gap => do
    Reading.need 4
    let c ← get
    if c.atMarker || c.rest.head? == some '#' then
      pure (text, gap.broken)
    else
      let word ← wordWithin inFlow c.length []
      if word.isEmpty then
        pure (text, gap.broken)
      else
        let text := text ++ String.ofList (gap.joined ++ word)
        let c ← get
        if c.rest.head?.any fun ch => isBlank ch || isBreak ch then
          let gap ← Gap.read start (indent + 1) .none
          let here ← Reading.place
          if !inFlow && (here.column : Int) < indent + 1 then
            pure (text, gap.broken)
          else
            readWithin start indent inFlow n text gap
        else
          pure (text, false)

/-- Read a plain scalar inside a block of the given indentation. -/
def read (indent : Int) (inFlow : Bool) : Reading (String × Bool) := do
  let start ← Reading.place
  readWithin start indent inFlow ((← Reading.bound) + 1) "" .none

end TraitResolution.Yaml.PlainScalar
