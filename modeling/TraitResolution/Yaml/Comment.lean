import TraitResolution.Yaml.Cursor

/-! # Comments

A comment goes from a hash sign to the end of its line. A comment on the line of a token belongs to
that token. Comments on lines of their own belong to what follows them, unless an empty line or
their indentation shows that they belong to what comes before.

Comments have no meaning, but how far one looks ahead for them has: 512 bytes at most, and tokens
that comments belong to are looked at earlier than others.
-/

namespace TraitResolution.Yaml.Comment

/-- How many bytes one looks ahead for a comment. -/
def reach : Nat := 512

/-- What lies at some distance. -/
inductive Sight where
  | blank
  | newline
  | bracket
  | hash
  | finish
  | other
deriving DecidableEq

/-- What a character is to someone who looks for comments. -/
def sightOf (c : Char) : Sight :=
  if isBlank c then .blank
  else if isBreak c then .newline
  else if c = ']' ∨ c = '\x7d' then .bracket
  else if c = '#' then .hash
  else .other

/-- What lies at a distance of some bytes. -/
def sight (distance : Nat) : List Char → Sight
  | [] => .finish
  | c :: cs =>
    if distance = 0 then sightOf c
    else if distance < c.utf8Size then .other
    else sight (distance - c.utf8Size) cs

/-- Read to the end of the line of a comment that begins at an index, after the characters read
before. -/
def toLineEndWithin (index : Nat) : Nat → List Char → Reading (List Char)
  | 0, text => pure text.reverse
  | n + 1, text => do
    Reading.need 1
    let c ← get
    match c.rest with
    | [] => pure text.reverse
    | ch :: _ =>
      let begun := index ≤ c.mark.index
      if isBreak ch then
        if begun then
          pure text.reverse
        else
          let _ ← Reading.lineBreak
          toLineEndWithin index n text
      else
        Reading.skip
        toLineEndWithin index n (if begun then ch :: text else text)

/-- Read to the end of the line of a comment that begins at an index. -/
def toLineEnd (index : Nat) : Reading (List Char) := do
  toLineEndWithin index ((← Reading.bound) + 1) []

/-- Add a comment. -/
def add (comment : Comment) : Reading Unit :=
  modify fun c => { c with comments := c.comments ++ [comment] }

/-- The distance of a hash sign with nothing but blanks before it, from a distance on. -/
def hashWithin : Nat → Nat → Reading (Option Nat)
  | 0, _ => pure none
  | n + 1, distance => do
    if ← Reading.tryNeed (distance + 1) then
      let c ← get
      match sight distance c.rest with
      | .blank => hashWithin n (distance + 1)
      | .hash => pure (some distance)
      | _ => pure none
    else
      pure none

/-- Read a comment on the line of the token that begins at an index. -/
def onLine (token : Nat) : Reading Unit := do
  let c ← get
  if c.newlines = 0 then
    match ← hashWithin reach 0 with
    | some distance =>
      let start := c.mark.index + distance
      let text ← toLineEnd start
      let mark : Mark := ⟨c.mark.line, c.mark.column + distance, start⟩
      add ⟨.line, text, token, mark, 0, 0⟩
    | none => pure ()

/-- What surrounds comments on lines of their own. -/
structure Surroundings where
  /-- The column of the present block. -/
  indent : Nat
  inFlow : Bool
  /-- The place of the last token, and whether it is a value. -/
  token : Nat
  isValue : Bool
  /-- The line in which a comment on what comes before must begin, if there is one. -/
  footLine : Option Int

/-- The comment that is being read, and the state of looking for more lines of it. -/
structure Search where
  text : List Char
  token : Nat
  /-- Columns are counted from 1 here. -/
  start : Mark
  searched : Nat
  line : Nat
  column : Nat
  /-- Whether no empty line has been seen, and whether the last line is empty. -/
  firstEmpty : Bool
  recentEmpty : Bool

namespace Search

/-- Whether the comment is left of the present block. -/
def dedented (s : Search) (around : Surroundings) : Bool :=
  s.start.column < around.indent + 1

/-- Whether an empty line makes the comment belong to what comes before. -/
def isFoot (s : Search) (around : Surroundings) : Bool :=
  s.firstEmpty &&
    ((around.footLine == some (s.start.line : Int) && !around.isValue) || s.dedented around)

end Search

/-- Let the comment belong to a token before it, and begin another one. -/
def footer (s : Search) (token index : Nat) : Reading Search := do
  add ⟨.foot, s.text, token, s.start, s.searched, index⟩
  pure { s with text := [], token := index, searched := index }

/-- What becomes of a comment at an empty line or at the end of what can hold it. -/
def atGap (around : Surroundings) (s : Search) (index : Nat) (closing atEnd : Bool) :
    Reading Search := do
  if closing || !s.recentEmpty then
    if s.text.isEmpty then
      pure s
    else if closing || s.isFoot around then
      footer s (if s.dedented around then s.start.index else s.token) index
    else if atEnd then
      pure s
    else
      pure { s with text := s.text ++ ['\n'] }
  else
    pure s

/-- What becomes of a comment before something at another indentation. -/
def atColumn (around : Surroundings) (s : Search) (index : Nat) : Reading Search := do
  if !s.text.isEmpty && s.column < around.indent + 1 && s.column != s.start.column then
    footer s s.token index
  else
    pure s

/-- Add what was read as a comment on what follows. -/
def header (s : Search) (distance : Nat) : Reading Unit := do
  let here ← Reading.place
  if !s.text.isEmpty then
    add ⟨.head, s.text, s.start.index, s.start, s.searched, here.index + distance - 1⟩

/-- Read the line of a comment at a distance. -/
def oneLine (s : Search) (distance : Nat) : Reading Search := do
  let here ← Reading.place
  let index := here.index + distance
  let start := if s.text.isEmpty then ⟨s.line, s.column, index⟩ else s.start
  let before := if s.text.isEmpty then [] else s.text ++ ['\n']
  let line ← toLineEnd index
  let after ← Reading.place
  pure { s with
    text := before ++ line
    start := start
    recentEmpty := false
    column := 0
    line := after.line }

/-- Read comments on lines of their own, looking from a distance on. -/
def linesWithin (around : Surroundings) : Nat → Nat → Search → Reading Unit
  | 0, distance, s => header s distance
  | n + 1, distance, s => do
    if distance < reach then
      if ← Reading.tryNeed (distance + 1) then
        let c ← get
        let index := c.mark.index + distance
        let s := { s with column := s.column + 1 }
        let seen := sight distance c.rest
        let closing := around.inFlow && seen == .bracket
        if seen = .blank then
          linesWithin around n (distance + 1) s
        else if closing || seen == .finish || seen == .newline then
          let s ← atGap around s index closing (seen == .finish)
          if seen = .newline then
            linesWithin around n (distance + 1)
              { s with firstEmpty := false, recentEmpty := true, column := 0, line := s.line + 1 }
          else
            header s distance
        else
          let s ← atColumn around s index
          if seen = .hash then
            let s ← oneLine s distance
            linesWithin around n 1 s
          else
            header s distance
      else
        header s distance
    else
      header s distance

/-- Read the comments on lines of their own that begin here. The place where the search for the
next token began is given. -/
def lines (around : Surroundings) (searched : Nat) : Reading Unit := do
  let c ← get
  linesWithin around ((reach + 1) * (c.length + 2)) 0
    ⟨[], around.token, ⟨0, 0, 0⟩, searched, c.mark.line, c.mark.column, c.newlines ≤ 1, false⟩

end TraitResolution.Yaml.Comment
