import TraitResolution.Yaml.Node
import TraitResolution.Yaml.Tokens

/-! # From tokens to nodes

Only the first document of a text is read, and of what follows it no more than a few tokens.

## Implementation notes

Building goes in small steps: the start and the end of a collection, a scalar, an alias. A character
that is not allowed and was only seen while looking for comments is a fault at the end of the step.

An entry of a block may have a heading, which is a comment in front of it. Then the token after the
hyphen is looked at an extra time, and a fault met there gives way to the next fault, if one is met
before the step ends.
-/

namespace TraitResolution.Yaml

/-- A document: its root, the nodes that aliases stand for by their numbers, and a bound on how
deep the nodes are nested when aliases are followed. -/
structure Tree where
  root : Node
  anchored : List (Nat × Node)
  depth : Nat

/-- The state of building nodes. -/
structure Builder where
  lexer : Lexer
  /-- The comments on what follows. -/
  heading : List Char
  /-- What the handles of tags stand for. -/
  handles : List (String × Text)
  /-- The numbers of the anchors by name, the newest first. -/
  anchors : List (String × Nat)
  anchored : List (Nat × Node)
  /-- The number for the next anchor or alias. -/
  next : Nat

/-- A step of building. -/
abbrev Build := StateT Builder (Except Fault)

namespace Build

/-- The heading of a token: the comments up to it, after what was there. The end of a block has
none, and what follows it gets the comments. The comments that are left come first. -/
def collected (t : Token) : List Comment → List Char → List Comment × List Char
  | [], heading => ([], heading)
  | c :: cs, heading =>
    if t.start.index < c.token then
      (c :: cs, heading)
    else if c.role = .head then
      if t.kind = .blockEnd then (c :: cs, heading)
      else collected t cs (if heading.isEmpty then c.text else heading ++ '\n' :: c.text)
    else
      collected t cs heading

/-- Look at the next token and collect its comments, or learn why that cannot be done. -/
def tryPeek : Build (Except Fault Token) := do
  let s ← get
  let (r, lexer) := Lex.peek.run s.lexer
  match r with
  | .error f =>
    set { s with lexer := lexer }
    pure (.error f)
  | .ok t? =>
    let t := t?.getD ⟨.streamEnd, lexer.cursor.mark⟩
    let (comments, heading) := collected t lexer.cursor.comments s.heading
    let cursor := { lexer.cursor with comments := comments }
    set { s with lexer := { lexer with cursor := cursor }, heading := heading }
    pure (.ok t)

/-- The next token. -/
def peek : Build Token := do
  match ← tryPeek with
  | .ok t => pure t
  | .error f => throw f

/-- Move past the next token. -/
def skip : Build Unit :=
  modify fun s => { s with lexer := (Lex.release.run s.lexer).2 }

/-- Move past the next token and look at the one after it. -/
def skipAndPeek : Build Token := do
  skip
  peek

/-- Give up in a collection or node that begins in a line. -/
def fail {α : Type} (context : Nat) (problem : Problem) : Build α := do
  let t ← peek
  throw (.betweenTokens problem context t.line)

/-- End a step. -/
def stepDone : Build Unit := do
  let s ← get
  if s.lexer.cursor.spoiled then throw (.anywhere .controlCharacter)

/-- Forget the heading. -/
def forgetHeading : Build Unit :=
  modify fun s => { s with heading := [] }

/-- Move past the next token and end a step that uses the heading. -/
def finish : Build Unit := do
  forgetHeading
  skip
  stepDone

/-- A number that was not used before. -/
def freshNumber : Build Nat :=
  modifyGet fun s => (s.next, { s with next := s.next + 1 })

/-- The anchor and the tag in front of a node. -/
structure Properties where
  anchor : Option Nat
  tag : Option Text
  /-- The line in which the first of them stands. -/
  line : Option Nat

/-- A tag without the part that all common tags share. -/
def shortTag (tag : Text) : Text :=
  let common : Text := "tag:yaml.org,2002:"
  if common.glyphs.isPrefixOf tag.glyphs then "!!" ++ ⟨tag.glyphs.drop common.glyphs.length⟩
  else tag

/-- The tag that a handle and a suffix stand for. -/
def fullTag (context : Nat) (line : Nat) (handle : String) (suffix : Text) : Build Text := do
  if handle.isEmpty then
    pure suffix
  else
    let s ← get
    match s.handles.lookup handle with
    | some start =>
      let tag := start ++ suffix
      if tag.isEmpty then throw (.betweenTokens .unknownHandle context line) else pure tag
    | none => throw (.betweenTokens .unknownHandle context line)

/-- Whether a tag says nothing. -/
def isTrivial (tag : Text) : Bool :=
  tag.isEmpty || decide (tag = "!")

/-- Give a name to the node that follows. -/
def anchor (name : String) : Build Nat := do
  let n ← freshNumber
  modify fun s => { s with anchors := (name, n) :: s.anchors }
  pure n

/-- The anchor and the tag in front of a node, as they are written. -/
structure Written where
  anchor : Option String
  tag : Option (String × Text × Nat)
  line : Option Nat

/-- Read an anchor and a tag, in either order. -/
def written : Build Written := do
  let t ← peek
  match t.kind with
  | .anchor name =>
    let u ← skipAndPeek
    match u.kind with
    | .tag handle suffix =>
      skip
      pure ⟨some name, some (handle, suffix, u.line), some t.line⟩
    | _ => pure ⟨some name, none, some t.line⟩
  | .tag handle suffix =>
    let u ← skipAndPeek
    match u.kind with
    | .anchor name =>
      skip
      pure ⟨some name, some (handle, suffix, t.line), some t.line⟩
    | _ => pure ⟨none, some (handle, suffix, t.line), some t.line⟩
  | _ => pure ⟨none, none, none⟩

/-- Read an anchor and a tag and find out what they stand for. The next token is looked at before
the tag is. -/
def properties : Build Properties := do
  let w ← written
  let t ← peek
  let tag ← match w.tag with
    | some (handle, suffix, line) => some <$> fullTag (w.line.getD t.line) line handle suffix
    | none => pure none
  let anchor ← match w.anchor with
    | some name => some <$> Build.anchor name
    | none => pure none
  pure ⟨anchor, tag, w.line⟩

/-- Note which node an anchor stands for. -/
def record (p : Properties) (node : Node) : Build Node := do
  match p.anchor with
  | some n => modify fun s => { s with anchored := (n, node) :: s.anchored }
  | none => pure ()
  pure node

/-- The tag of a node, if it says something. -/
def Properties.explicitTag (p : Properties) : Option Text :=
  p.tag.bind fun t => if isTrivial t then none else some (shortTag t)

/-- The node that stands for an absent one. -/
def emptyNode (line : Nat) : Node :=
  .scalar (line + 1) ⟨none, .plain, ""⟩

/-- Read nothing in place of a node. -/
def absent (line : Nat) : Build Node := do
  stepDone
  pure (emptyNode line)

/-- The node for an alias. -/
def aliasNode (name : String) (line : Nat) : Build Node := do
  let s ← get
  match s.anchors.lookup name with
  | some target =>
    let n ← freshNumber
    pure (.aliased (line + 1) name n target)
  | none => throw (.anywhere (.unknownAnchor name))

/-- Whether a token ends an entry of a mapping in a block. -/
def endsEntry (k : TokenKind) : Bool :=
  k == .key || k == .value || k == .blockEnd

/-- How a node begins: an alias, a scalar as a whole, or a collection. -/
inductive Opening where
  | aliased (name : String) (line : Nat)
  | scalar (s : Scalar)
  | flowSequence
  | flowMapping
  | blockSequence
  | indentlessSequence
  | blockMapping

/-- The beginning of a node with its properties, its line, and the line of the token after the
properties. -/
structure Beginning where
  opening : Opening
  properties : Properties
  line : Nat
  inner : Nat

/-- Read the beginning of a node that is no alias. -/
def opening (block indentless : Bool) (p : Properties) (start : Nat) (t : Token) :
    Build Opening := do
  match t.kind with
  | .scalar text style =>
    finish
    pure (.scalar ⟨p.explicitTag, style, text⟩)
  | .flowSequenceStart =>
    forgetHeading
    stepDone
    pure .flowSequence
  | .flowMappingStart =>
    forgetHeading
    stepDone
    pure .flowMapping
  | kind =>
    if indentless && kind == .blockEntry then
      stepDone
      pure .indentlessSequence
    else if block && kind == .blockSequenceStart then
      stepDone
      pure .blockSequence
    else if block && kind == .blockMappingStart then
      stepDone
      pure .blockMapping
    else if p.anchor.isSome || p.tag.any fun tag => !tag.isEmpty then
      stepDone
      pure (.scalar ⟨p.explicitTag, .plain, ""⟩)
    else
      fail start .missingContent

/-- Read the beginning of a node. -/
def beginning (block indentless : Bool) : Build Beginning := do
  let first ← peek
  match first.kind with
  | .aliased name =>
    finish
    pure ⟨.aliased name first.line, ⟨none, none, none⟩, first.line, first.line⟩
  | _ =>
    let p ← properties
    let t ← peek
    let start := p.line.getD t.line
    let o ← opening block indentless p start t
    pure ⟨o, p, start, t.line⟩

/-- A fault met after another one. A character that is not allowed is reported with the line of the
fault before it. -/
def laterFault (first later : Fault) : Fault :=
  if later.problem = .controlCharacter then ⟨.controlCharacter, first.line - 1⟩ else later

/-- Give up because of a fault, unless some work that comes first meets another one. -/
def giveUpAfter {α : Type} (x : Build Unit) (f : Fault) : Build α := fun s =>
  match x s with
  | .ok _ => .error f
  | .error later => .error (laterFault f later)

/-- Move past a hyphen. With a heading, the next token is looked at and the heading is that of the
block it opens; a fault met on the way is returned. -/
def skipHyphen : Build (Option Fault) := do
  let stem := (← get).heading.length
  skip
  if stem = 0 then
    pure none
  else
    match ← tryPeek with
    | .ok t =>
      if t.kind = .blockSequenceStart ∨ t.kind = .blockMappingStart then
        modify fun s => { s with heading := s.heading.drop (stem + 1) }
      pure none
    | .error f =>
      modify fun s =>
        { s with lexer := { s.lexer with cursor := { s.lexer.cursor with spoiled := false } } }
      pure (some f)

mutual

/-- Read a node. -/
def node (block indentless : Bool) : Nat → Build Node
  | 0 => do
    let t ← peek
    fail t.line .missingContent
  | n + 1 => do
    let b ← beginning block indentless
    let p := b.properties
    let line := b.line + 1
    match b.opening with
    | .aliased name line => aliasNode name line
    | .scalar s => record p (.scalar line s)
    | .flowSequence =>
      skip
      let items ← flowSequence b.inner true n
      record p (.sequence line (p.explicitTag.getD "!!seq") items)
    | .flowMapping =>
      skip
      let entries ← flowMapping b.inner true n
      record p (.mapping line (p.explicitTag.getD "!!map") entries)
    | .indentlessSequence =>
      let items ← indentlessSequence n
      record p (.sequence line (p.explicitTag.getD "!!seq") items)
    | .blockSequence =>
      skip
      let items ← blockSequence b.inner n
      record p (.sequence line (p.explicitTag.getD "!!seq") items)
    | .blockMapping =>
      skip
      let entries ← blockMapping b.inner n
      record p (.mapping line (p.explicitTag.getD "!!map") entries)
termination_by structural steps => steps

/-- Read the node after the hyphen of an entry, given which tokens show that there is none. -/
def blockItem (ends : TokenKind → Bool) (line : Nat) : Nat → Build Node
  | 0 => pure (emptyNode line)
  | n + 1 => do
    match ← skipHyphen with
    | some f =>
      giveUpAfter (do
        let t ← peek
        if ends t.kind then
          stepDone
        else
          let _ ← beginning true false) f
    | none =>
      let t ← peek
      if ends t.kind then absent line else node true false n
termination_by structural steps => steps

/-- Read the entries of a sequence in a block. -/
def blockSequence (context : Nat) : Nat → Build (List Node)
  | 0 => pure []
  | n + 1 => do
    let t ← peek
    match t.kind with
    | .blockEntry =>
      let item ← blockItem (fun k => k == .blockEntry || k == .blockEnd) t.line n
      let rest ← blockSequence context n
      pure (item :: rest)
    | .blockEnd =>
      skip
      stepDone
      pure []
    | _ => fail context .missingEntry
termination_by structural steps => steps

/-- Read the entries of a sequence that is not indented below its key. -/
def indentlessSequence : Nat → Build (List Node)
  | 0 => pure []
  | n + 1 => do
    let t ← peek
    match t.kind with
    | .blockEntry =>
      let item ← blockItem (fun k => k == .blockEntry || endsEntry k) t.line n
      let rest ← indentlessSequence n
      pure (item :: rest)
    | _ =>
      stepDone
      pure []
termination_by structural steps => steps

/-- Read the entries of a mapping in a block. -/
def blockMapping (context : Nat) : Nat → Build (List (Node × Node))
  | 0 => pure []
  | n + 1 => do
    let t ← peek
    match t.kind with
    | .key =>
      let u ← skipAndPeek
      let k ← if endsEntry u.kind then absent t.line else node true true n
      let v ← blockValue n
      let rest ← blockMapping context n
      pure ((k, v) :: rest)
    | .blockEnd =>
      finish
      pure []
    | _ => fail context .missingKey
termination_by structural steps => steps

/-- Read the value of an entry in a block. -/
def blockValue : Nat → Build Node
  | 0 => pure (emptyNode 0)
  | n + 1 => do
    let t ← peek
    match t.kind with
    | .value =>
      let u ← skipAndPeek
      if endsEntry u.kind then absent t.line else node true true n
    | _ => absent t.line
termination_by structural steps => steps

/-- Read the entries of a sequence in brackets. -/
def flowSequence (context : Nat) (first : Bool) : Nat → Build (List Node)
  | 0 => pure []
  | n + 1 => do
    let t ← peek
    if t.kind == .flowSequenceEnd then
      finish
      pure []
    else
      if !first then
        if t.kind == .flowEntry then skip else fail context .missingCommaInSequence
      let t ← peek
      match t.kind with
      | .flowSequenceEnd =>
        finish
        pure []
      | .key =>
        skip
        stepDone
        let entry ← singlePair n
        let rest ← flowSequence context false n
        pure (.mapping (t.line + 1) "!!map" [entry] :: rest)
      | _ =>
        let item ← node false false n
        let rest ← flowSequence context false n
        pure (item :: rest)
termination_by structural steps => steps

/-- Read the only pair of a mapping in a sequence in brackets. A token in place of an absent key is
passed over. -/
def singlePair : Nat → Build (Node × Node)
  | 0 => pure (emptyNode 0, emptyNode 0)
  | n + 1 => do
    let t ← peek
    let k ←
      if t.kind == .value || t.kind == .flowEntry || t.kind == .flowSequenceEnd then
        skip
        absent t.line
      else
        node false false n
    let v ← flowValue .flowSequenceEnd n
    let _ ← peek
    stepDone
    pure (k, v)
termination_by structural steps => steps

/-- Read the value of an entry in brackets, which end with the given token. -/
def flowValue (close : TokenKind) : Nat → Build Node
  | 0 => pure (emptyNode 0)
  | n + 1 => do
    let t ← peek
    if t.kind == .value then
      let u ← skipAndPeek
      if u.kind == .flowEntry || u.kind == close then absent u.line
      else node false false n
    else
      absent t.line
termination_by structural steps => steps

/-- Read the entries of a mapping in brackets. -/
def flowMapping (context : Nat) (first : Bool) : Nat → Build (List (Node × Node))
  | 0 => pure []
  | n + 1 => do
    let t ← peek
    if t.kind == .flowMappingEnd then
      finish
      pure []
    else
      if !first then
        if t.kind == .flowEntry then skip else fail context .missingCommaInMapping
      let t ← peek
      match t.kind with
      | .flowMappingEnd =>
        finish
        pure []
      | .key =>
        let u ← skipAndPeek
        let k ←
          if u.kind == .value || u.kind == .flowEntry || u.kind == .flowMappingEnd then
            absent u.line
          else
            node false false n
        let v ← flowValue .flowMappingEnd n
        let rest ← flowMapping context false n
        pure ((k, v) :: rest)
      | _ =>
        let k ← node false false n
        let u ← peek
        let v ← absent u.line
        let rest ← flowMapping context false n
        pure ((k, v) :: rest)
termination_by structural steps => steps

end

/-- The handles that need no directive. -/
def commonHandles : List (String × Text) :=
  [("!", "!"), ("!!", "tag:yaml.org,2002:")]

/-- Read directives. -/
def directivesWithin : Nat → Bool → Build Unit
  | 0, _ => pure ()
  | n + 1, versioned => do
    let t ← peek
    match t.kind with
    | .version major minor =>
      if versioned then fail 0 .repeatedVersion
      if major ≠ 1 ∨ minor ≠ 1 then fail 0 .wrongVersion
      skip
      directivesWithin n true
    | .handle name start =>
      let s ← get
      if (s.handles.lookup name).isSome then fail 0 .repeatedHandle
      set { s with handles := s.handles ++ [(name, start)] }
      skip
      directivesWithin n versioned
    | _ => modify fun s => { s with handles := s.handles ++ commonHandles }

/-- A number of steps that a text of the given length does not exhaust: besides the ends of blocks,
which are as many as their starts, a character leads to no more than three tokens. -/
def bound (length : Nat) : Nat :=
  8 * length + 64

/-- Read the root of a document that begins with a marker. -/
def markedRoot (steps : Nat) : Build Node := do
  let t ← peek
  if t.kind ≠ .documentStart then fail 0 .missingDocumentStart
  skip
  stepDone
  let u ← peek
  match u.kind with
  | .version .. | .handle .. | .documentStart | .documentEnd | .streamEnd => absent u.line
  | _ => node true false steps

/-- The part of a heading that is left for the first node: what comes after the last empty line, and
nothing if the heading ends with a line break. It is given and returned backwards. -/
def afterEmptyLine : List Char → List Char
  | '\n' :: '\n' :: _ => []
  | c :: cs => c :: afterEmptyLine cs
  | [] => []

/-- The heading of the first node of a document without a marker. -/
def nodeHeading (heading : List Char) : List Char :=
  match heading.reverse with
  | '\n' :: _ :: _ => []
  | backwards => (afterEmptyLine backwards).reverse

/-- Read the root of a document without a marker. -/
def plainRoot (steps : Nat) : Build Node := do
  modify fun s => { s with heading := nodeHeading s.heading }
  stepDone
  node true false steps

/-- Read the first document, if there is one, in at most a number of steps. -/
def document (steps : Nat) : Build (Option Node) := do
  let _ ← peek
  skip
  stepDone
  let t ← peek
  match t.kind with
  | .streamEnd =>
    stepDone
    pure none
  | .version .. | .handle .. | .documentStart =>
    directivesWithin steps false
    let root ← markedRoot steps
    let _ ← peek
    stepDone
    pure (some root)
  | _ =>
    directivesWithin steps false
    let root ← plainRoot steps
    let _ ← peek
    stepDone
    pure (some root)

end Build

/-- The first document of a text. There is none in a text without content. -/
def Tree.ofText? (text : String) : Except Fault (Option Tree) := do
  let steps := Build.bound text.length
  let (root?, s) ← Build.document steps ⟨.start text, [], [], [], [], 0⟩
  pure (root?.map fun root => ⟨root, s.anchored, steps * (s.next + 1)⟩)

end TraitResolution.Yaml
