import TraitResolution.Yaml.BlockScalar
import TraitResolution.Yaml.PlainScalar
import TraitResolution.Yaml.Property
import TraitResolution.Yaml.QuotedScalar

/-! # From text to tokens

Indentation becomes tokens that open and close blocks. A key need not be marked: a token turns out
to begin a key when a colon follows on the same line, at most 1024 characters on, and a key token is
then put in front of it.

## Implementation notes

Tokens wait in a queue. The first token can be looked at once two more are in the queue behind it
and it waits for no key. Whoever stops reading early therefore never meets faults that lie further
on. After a fault one can go on from the place where it was met.

Each level of brackets has one possible key, and which tokens wait is noted apart, by the number of
the token and the level. A key that ran out of its line is not taken off that list, so the token
then waits for the next key on its level.
-/

namespace TraitResolution.Yaml

/-- The token that may turn out to begin a key, on one level of brackets. -/
structure KeyStart where
  possible : Bool
  /-- Whether nothing but a key can stand there. -/
  required : Bool
  /-- The number of the token. -/
  number : Nat
  mark : Mark
deriving DecidableEq

/-- The state of splitting a text into tokens. -/
structure Lexer where
  cursor : Cursor
  started : Bool
  queue : List Token
  /-- The number of tokens taken out of the queue. -/
  released : Nat
  /-- Whether the first token of the queue can be looked at. -/
  ready : Bool
  /-- The column of the present block, or -1 outside all blocks. -/
  indent : Int
  /-- The columns of the blocks around it. -/
  indents : List Int
  /-- The number of brackets that are open. -/
  level : Nat
  /-- The possible keys outside all brackets and on each level of brackets, innermost first. -/
  keys : List KeyStart
  /-- The numbers of the tokens that wait for a key to be decided, with its level. -/
  waiting : List (Nat × Nat)
  /-- Whether a key may begin here. -/
  keyAllowed : Bool

/-- A step of splitting. -/
abbrev Lex := ExceptT Fault (StateM Lexer)

namespace Lexer

/-- The start of a text. -/
def start (text : String) : Lexer :=
  ⟨.start text, false, [], 0, false, -1, [], 0, [⟨false, false, 0, ⟨0, 0, 0⟩⟩], [], true⟩

/-- Whether the cursor is inside brackets. -/
def inFlow (s : Lexer) : Bool :=
  0 < s.level

/-- The number of the token to be found next. -/
def nextNumber (s : Lexer) : Nat :=
  s.released + s.queue.length

/-- The possible key on a level. -/
def keyAt (s : Lexer) (level : Nat) : KeyStart :=
  s.keys.getD (s.level - level) ⟨false, false, 0, ⟨0, 0, 0⟩⟩

/-- The possible key on the present level. -/
def key (s : Lexer) : KeyStart :=
  s.keyAt s.level

/-- The greatest depth of brackets or blocks. -/
def maxDepth : Nat := 10000

/-- How far a colon may be from the start of its key. -/
def maxKeyLength : Nat := 1024

end Lexer

namespace Lex

/-- The present place. -/
def place : Lex Mark := do
  let s ← get
  pure s.cursor.mark

/-- Give up on something that begins at a mark. -/
def fail {α : Type} (start : Mark) (problem : Problem) : Lex α := do
  let here ← place
  throw (.inToken problem start.line here.line)

/-- Read with the cursor. -/
def reading {α : Type} (x : Reading α) : Lex α := fun s =>
  let (r, c) := x.run s.cursor
  (r, { s with cursor := c })

/-- Move past the next character. -/
def skip : Lex Unit :=
  reading Reading.skip

/-- Say whether a key may begin here. -/
def allowKey (allowed : Bool) : Lex Unit :=
  modify fun s => { s with keyAllowed := allowed }

/-- Put a token at the end of the queue. -/
def append (kind : TokenKind) (start : Mark) : Lex Unit :=
  modify fun s => { s with queue := s.queue ++ [⟨kind, start⟩] }

/-- Put a token in front of the one with a number, or at the end if that one is gone. -/
def insertBefore (number : Nat) (kind : TokenKind) (start : Mark) : Lex Unit :=
  modify fun s =>
    let position := if number < s.released then s.queue.length else number - s.released
    { s with queue := s.queue.insertIdx position ⟨kind, start⟩ }

/-- Change the possible key of a level. -/
def setKey (level : Nat) (k : KeyStart) : Lex Unit :=
  modify fun s => { s with keys := s.keys.set (s.level - level) k }

/-- Let the token with a number wait no longer. -/
def stopWaiting (number : Nat) : Lex Unit :=
  modify fun s => { s with waiting := s.waiting.filter (·.1 != number) }

/-- Whether the possible key of a level is still possible here. -/
def stillPossible (level : Nat) : Lex Bool := do
  let s ← get
  let k := s.keyAt level
  let here := s.cursor.mark
  if !k.possible then
    pure false
  else if k.mark.line < here.line ∨ k.mark.index + Lexer.maxKeyLength < here.index then
    if k.required then
      fail k.mark .missingColon
    else
      setKey level { k with possible := false }
      pure false
  else
    pure true

/-- Rule out the possible key of the present level. -/
def removeKey : Lex Unit := do
  let s ← get
  let k := s.key
  if k.possible then
    if k.required then
      fail k.mark .missingColon
    else
      setKey s.level { k with possible := false }
      stopWaiting k.number

/-- Note that the next token may begin a key. -/
def saveKey : Lex Unit := do
  let s ← get
  if s.keyAllowed then
    let here := s.cursor.mark
    removeKey
    setKey s.level ⟨true, !s.inFlow && s.indent == (here.column : Int), s.nextNumber, here⟩
    modify fun t => { t with waiting := (s.nextNumber, s.level) :: t.waiting }

/-- Enter brackets. -/
def enterFlow : Lex Unit := do
  let s ← get
  let here := s.cursor.mark
  let k : KeyStart := ⟨false, false, s.nextNumber, here⟩
  set { s with keys := k :: s.keys, level := s.level + 1 }
  if Lexer.maxDepth < s.level + 1 then fail here .tooDeep

/-- Leave brackets. -/
def leaveFlow : Lex Unit := do
  let s ← get
  if s.inFlow then
    stopWaiting s.key.number
    modify fun s => { s with keys := s.keys.tail, level := s.level - 1 }

/-- Open a block in a column if it lies right of the present one, with a token at the end of the
queue or in front of a given token. -/
def openBlock (column : Nat) (before : Option Nat) (kind : TokenKind) (start : Mark) :
    Lex Unit := do
  let s ← get
  if !s.inFlow && s.indent < (column : Int) then
    set { s with indent := column, indents := s.indent :: s.indents }
    if Lexer.maxDepth < s.indents.length + 1 then fail s.key.mark .tooDeep
    match before with
    | some number => insertBefore number kind start
    | none => append kind start

/-- The place of the end of a block of the given column. Comments at that column that were passed
since the place before belong to the block, so that its end moves in front of them. -/
def blockEndAmong (indent : Int) : List Comment → Nat → Mark → Mark
  | [], _, mark => mark
  | c :: cs, stop, mark =>
    if c.finish < stop then mark
    else
      blockEndAmong indent cs c.searched
        (if (c.start.column : Int) = indent + 1 then c.start else mark)

/-- Close the blocks right of a column, at a place. -/
def closeBlocksWithin (column : Int) : Nat → Mark → Lex Unit
  | 0, _ => pure ()
  | n + 1, mark => do
    let s ← get
    if column < s.indent then
      let mark := blockEndAmong s.indent s.cursor.comments.reverse mark.index mark
      append .blockEnd mark
      modify fun s => { s with indent := s.indents.headD (-1), indents := s.indents.tail }
      closeBlocksWithin column n mark

/-- Close the blocks right of a column, before a place. -/
def closeBlocks (column : Int) (here : Mark) : Lex Unit := do
  let s ← get
  if !s.inFlow then
    closeBlocksWithin column (s.indents.length + 1) { here with index := here.index - 1 }

/-- A comment on the line of an entry, in front of a block that is the entry, is a comment on that
block. -/
def liftComment : Lex Unit := do
  let s ← get
  let here := s.cursor.mark
  let kinds := (s.queue.drop (s.queue.length - 2)).map (·.kind)
  if kinds = [.blockSequenceStart, .blockEntry] ∧ !s.cursor.atBreak then
    match s.cursor.comments.reverse with
    | comment :: others =>
      if comment.role = .line then
        let token := if comment.start.line + 1 = here.line then here.index else comment.token
        let lifted := { comment with role := .head, token := token }
        set { s with cursor := { s.cursor with comments := (lifted :: others).reverse } }
    | [] => pure ()

/-- What surrounds the comments that begin here. -/
def surroundings (searched : Mark) : Lex Comment.Surroundings := do
  let s ← get
  let c := s.cursor
  let last : Option Token :=
    match s.queue.reverse with
    | a :: b :: _ => if a.kind = .flowEntry then some b else some a
    | a :: [] => some a
    | [] => none
  let below := if c.newlines = 0 ∧ 1 < c.mark.column then 1 else 0
  let footLine : Int := (c.mark.line : Int) - c.newlines + 1 + below
  pure ⟨(max s.indent 0).toNat, s.inFlow, (last.map (·.start.index)).getD 0,
    last.any fun t => t.kind = .value, if 0 < searched.line then some footLine else none⟩

/-- Move to the next token, in at most a number of lines. -/
def toNextTokenWithin (searched : Mark) : Nat → Lex Unit
  | 0 => pure ()
  | n + 1 => do
    reading (Reading.need 1)
    let s ← get
    if s.cursor.mark.column = 0 ∧ s.cursor.marked then skip
    let tabs := s.inFlow || !s.keyAllowed
    let _ ← reading (Reading.span fun c => c == ' ' || (tabs && c == '\t'))
    liftComment
    let s ← get
    if s.cursor.rest.head? = some '#' then
      let around ← surroundings searched
      reading (Comment.lines around searched.index)
    let s ← get
    if s.cursor.atBreak then
      let _ ← reading Reading.lineBreak
      if !s.inFlow then allowKey true
      toNextTokenWithin searched n

/-- Lex the end of the text. -/
def streamEnd : Lex Unit := do
  modify fun s =>
    let m := s.cursor.mark
    if m.column = 0 then s
    else { s with cursor := { s.cursor with mark := ⟨m.line + 1, 0, m.index⟩ } }
  let here ← place
  closeBlocks (-1) here
  removeKey
  allowKey false
  append .streamEnd here

/-- Lex a directive. -/
def directive : Lex Unit := do
  let here ← place
  closeBlocks (-1) here
  removeKey
  allowKey false
  let kind ← reading Property.directive
  append kind here

/-- Lex a document marker. -/
def documentMarker (kind : TokenKind) : Lex Unit := do
  let here ← place
  closeBlocks (-1) here
  removeKey
  allowKey false
  reading (Reading.skipMany 3)
  append kind here

/-- Lex an opening bracket. -/
def openFlow (kind : TokenKind) : Lex Unit := do
  let here ← place
  saveKey
  enterFlow
  allowKey true
  skip
  append kind here

/-- Lex a closing bracket. -/
def closeFlow (kind : TokenKind) : Lex Unit := do
  let here ← place
  removeKey
  leaveFlow
  allowKey false
  skip
  append kind here

/-- Lex a comma. -/
def flowEntry : Lex Unit := do
  let here ← place
  removeKey
  allowKey true
  skip
  append .flowEntry here

/-- Lex a hyphen that begins an entry. -/
def blockEntry : Lex Unit := do
  let s ← get
  let here := s.cursor.mark
  if !s.inFlow then
    if !s.keyAllowed then fail here .entryNotAllowed
    openBlock here.column none .blockSequenceStart here
  removeKey
  allowKey true
  skip
  append .blockEntry here

/-- Lex a question mark that begins a key. -/
def explicitKey : Lex Unit := do
  let s ← get
  let here := s.cursor.mark
  if !s.inFlow then
    if !s.keyAllowed then fail here .keyNotAllowed
    openBlock here.column none .blockMappingStart here
  removeKey
  allowKey (!s.inFlow)
  skip
  append .key here

/-- Lex a colon that begins a value. -/
def value : Lex Unit := do
  let s ← get
  let here := s.cursor.mark
  let k := s.key
  if ← stillPossible s.level then
    insertBefore k.number .key k.mark
    openBlock k.mark.column (some k.number) .blockMappingStart k.mark
    setKey s.level { k with possible := false }
    stopWaiting k.number
    allowKey false
  else
    if !s.inFlow then
      if !s.keyAllowed then fail here .valueNotAllowed
      openBlock here.column none .blockMappingStart here
    allowKey (!s.inFlow)
  skip
  append .value here

/-- Lex something that may begin a key. -/
def keyable (x : Reading TokenKind) : Lex Unit := do
  let here ← place
  saveKey
  allowKey false
  let kind ← reading x
  append kind here

/-- Lex a plain scalar. After a line break a key may begin. -/
def plainScalar : Lex Unit := do
  let s ← get
  saveKey
  allowKey false
  let (text, broken) ← reading (PlainScalar.read s.indent s.inFlow)
  if broken then allowKey true
  append (.scalar text .plain) s.cursor.mark

/-- Lex a block scalar. -/
def blockScalar (style : Style) : Lex Unit := do
  let s ← get
  removeKey
  allowKey true
  let text ← reading (BlockScalar.read (style == .folded) s.indent)
  append (.scalar text style) s.cursor.mark

/-- Whether a character is special at the start of a token. -/
def isIndicator (c : Char) : Bool :=
  ['-', '?', ':', ',', '[', ']', '\x7b', '\x7d', '#', '&', '*', '!', '|', '>', '\x27', '\x22', '%',
    '@', '\x60'].contains c

/-- Lex the token that begins with a character. -/
def token (c : Char) : Lex Unit := do
  let s ← get
  let blankNext := s.cursor.blankAt 1
  match c with
  | '[' => openFlow .flowSequenceStart
  | '\x7b' => openFlow .flowMappingStart
  | ']' => closeFlow .flowSequenceEnd
  | '\x7d' => closeFlow .flowMappingEnd
  | ',' => flowEntry
  | '*' => keyable (.aliased <$> Property.anchorName)
  | '&' => keyable (.anchor <$> Property.anchorName)
  | '!' => keyable ((fun t => .tag t.1 t.2) <$> Property.tag)
  | '\x27' => keyable ((.scalar · .singleQuoted) <$> QuotedScalar.read '\x27')
  | '\x22' => keyable ((.scalar · .doubleQuoted) <$> QuotedScalar.read '\x22')
  | c =>
    if c = '-' ∧ blankNext then blockEntry
    else if c = '?' ∧ (s.inFlow ∨ blankNext) then explicitKey
    else if c = ':' ∧ (s.inFlow ∨ blankNext) then value
    else if c = '|' ∧ !s.inFlow then blockScalar .literal
    else if c = '>' ∧ !s.inFlow then blockScalar .folded
    else if !(isBlank c || isIndicator c) ∨ c = '-' ∨ (!s.inFlow ∧ (c = '?' ∨ c = ':')) then
      plainScalar
    else fail s.cursor.mark .noToken

/-- The place that a comment after a token belongs to: the token itself, or for a colon or a comma
what stands in front of it. -/
def commentPlace (c : Char) : Lex Nat := do
  let s ← get
  let behind := if s.inFlow then c == ',' else c == ':'
  match s.queue.getLast? with
  | some t => pure (if behind then t.start.index else s.cursor.mark.index)
  | none => pure s.cursor.mark.index

/-- Lex a token that is no marker, and a comment on its line. A hyphen has no such comment. -/
def ordinary (c : Char) : Lex Unit := do
  let place ← commentPlace c
  token c
  let s ← get
  if s.queue.getLast?.all fun t => t.kind ≠ .blockEntry then reading (Comment.onLine place)

/-- Lex the next token, with what its place implies. -/
def next : Lex Unit := do
  let before ← place
  let s ← get
  toNextTokenWithin before (s.cursor.length + 1)
  let here ← place
  closeBlocks here.column before
  reading (Reading.need 4)
  let s ← get
  match s.cursor.rest with
  | [] => streamEnd
  | c :: _ =>
    if here.column = 0 ∧ c = '%' then directive
    else if s.cursor.atMarkerOf '-' then documentMarker .documentStart
    else if s.cursor.atMarkerOf '.' then documentMarker .documentEnd
    else ordinary c

/-- Lex the start of the text, or the next token. -/
def step : Lex Unit := do
  reading (Reading.need 1)
  let s ← get
  if s.started then
    next
  else
    set { s with started := true }
    append .streamStart s.cursor.mark

/-- Whether the first token of the queue waits for the decision whether it begins a key. -/
def headWaits : Lex Bool := do
  let s ← get
  match s.waiting.lookup s.released with
  | some level => stillPossible level
  | none => pure false

/-- Lex until the first token can be looked at. -/
def prepareWithin : Nat → Lex Unit
  | 0 => pure ()
  | n + 1 => do
    let s ← get
    let waits ← if 2 < s.queue.length then headWaits else pure true
    if waits then
      step
      prepareWithin n

/-- The first token. Every step moves on in the text or finds the end of it once more, so a few
steps more than there are characters are enough. -/
def peek : Lex (Option Token) := do
  let s ← get
  if !s.ready then
    prepareWithin (s.cursor.length + 8)
    modify fun s => { s with ready := true }
  let s ← get
  pure s.queue.head?

/-- Take the first token out of the queue. -/
def release : Lex Unit :=
  modify fun s =>
    { s with queue := s.queue.tail, released := s.released + 1, ready := false }

end Lex

end TraitResolution.Yaml
