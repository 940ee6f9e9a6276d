import TraitResolution.Yaml.Misfit
import TraitResolution.Yaml.Tree

/-! # From nodes to values

A shape says how nodes become values of a type. Nodes that do not fit leave the value as it was and
are noted; decoding goes on, so that everything that does not fit is found. A null leaves the value
as it was too, without a note.
-/

namespace TraitResolution.Yaml

/-- The state of decoding. -/
structure Decoding where
  anchored : List (Nat × Node)
  /-- A bound on how deep mappings merge others. -/
  depth : Nat
  misfits : List Misfit
  /-- The numbers of the aliases that are being followed. -/
  following : List Nat
  /-- How many nodes were visited, the document being one, and how many of these inside aliases. -/
  visits : Nat
  aliasVisits : Nat

/-- A step of decoding. -/
abbrev Decode := StateT Decoding (Except Fault)

/-- How nodes become values of a type. -/
structure Shape (α : Type) where
  typeName : String
  /-- How a value is called that may be absent, if it may. -/
  absentName : Option String
  /-- The value after a null, and whether there is one then. -/
  onNull : α → α × Bool
  /-- The value of a scalar, given its text and what it stands for. -/
  onScalar : String → Value → Option α
  onSequence : Option (List Node → Decode α)
  onMapping : Option (List (Node × Node) → α → Decode α)

namespace Decode

/-- Note something that does not fit. -/
def note (m : Misfit) : Decode Unit :=
  modify fun s => { s with misfits := s.misfits ++ [m] }

/-- Whether too many of the visited nodes were inside aliases: 99 percent in small documents, and
down to ten percent in large ones. -/
def tooManyAliases (aliasVisits visits : Nat) : Bool :=
  100 < aliasVisits && 1000 < visits &&
    if visits ≤ 400000 then 99 * visits < 100 * aliasVisits
    else if 4000000 ≤ visits then visits < 10 * aliasVisits
    else visits * (99 * 3600000 - 89 * (visits - 400000)) < 360000000 * aliasVisits

/-- Count a visit to a node. -/
def visit : Decode Unit := do
  modify fun s =>
    { s with
      visits := s.visits + 1
      aliasVisits := if s.following.isEmpty then s.aliasVisits else s.aliasVisits + 1 }
  let s ← get
  if tooManyAliases s.aliasVisits s.visits then throw (.anywhere .excessiveAliasing)

/-- The node that an alias stands for. -/
def target (name : String) (number : Nat) : Decode Node := do
  let s ← get
  match s.anchored.lookup number with
  | some node => pure node
  | none => throw (.anywhere (.unknownAnchor name))

/-- Follow an alias with some work. -/
def follow {α : Type} (name : String) (number : Nat) (x : Decode α) : Decode α := do
  let s ← get
  if s.following.contains number then throw (.anywhere (.cyclicAnchor name))
  set { s with following := number :: s.following }
  let a ← x
  modify fun s => { s with following := s.following.tail }
  pure a

/-- Visit a node, and if it is an alias the node that it stands for, and do some work there. -/
def visiting {α : Type} (node : Node) (x : Node → Decode α) : Decode α := do
  visit
  match node with
  | .aliased _ name number n =>
    follow name number do
      let node ← target name n
      visit
      x node
  | node => x node

/-- The keys that stand in a mapping twice, each with the line of the first one. -/
def repeatedKeys : List Node → List Misfit
  | [] => []
  | k :: ks =>
    (ks.filter fun l => k.kind = l.kind ∧ k.text = l.text).map
      (fun l => .repeatedKey l.line l.text k.line) ++ repeatedKeys ks

/-- Do some work with the entries of a mapping unless keys stand in it twice. The flag says that
none do. -/
def withEntries {α : Type} (entries : List (Node × Node)) (current : α) (x : Decode α) :
    Decode (α × Bool) := do
  match repeatedKeys (entries.map (·.1)) with
  | [] => do
    let a ← x
    pure (a, true)
  | twice =>
    twice.forM note
    pure (current, false)

/-- How the type is called that a collection does not fit: a collection that is tagged as null fits
nothing that may be absent. -/
def refusal {α : Type} (shape : Shape α) (tag : Text) : Option String :=
  if tag = "!!null" then shape.absentName else none

/-- Decode a node that is no alias. The flag says whether there is a value. -/
def contents {α : Type} (shape : Shape α) (current : α) : Node → Decode (α × Bool)
  | .scalar line s => do
    match s.value with
    | .error f => throw f
    | .ok .null => pure (shape.onNull current)
    | .ok v =>
      match shape.onScalar s.text v with
      | some a => pure (a, true)
      | none =>
        note (.wrongType line s.tag s.text shape.typeName)
        pure (current, false)
  | .sequence line tag items => do
    match shape.onSequence, refusal shape tag with
    | some f, none =>
      let a ← f items
      pure (a, true)
    | _, refused =>
      note (.wrongType line tag "" (refused.getD shape.typeName))
      pure (current, false)
  | .mapping line tag entries => do
    match shape.onMapping, refusal shape tag with
    | some f, none => withEntries entries current (f entries current)
    | _, refused =>
      let (_, fine) ← withEntries entries current (pure current)
      if fine then note (.wrongType line tag "" (refused.getD shape.typeName))
      pure (current, false)
  | .aliased .. => pure (current, false)

/-- Decode a node. -/
def value {α : Type} (shape : Shape α) (current : α) (node : Node) : Decode (α × Bool) :=
  visiting node (contents shape current)

end Decode

namespace Shape

/-- A text: what any scalar is written as, or the text it stands for. -/
def string : Shape Text where
  typeName := "string"
  absentName := none
  onNull s := (s, false)
  onScalar written v :=
    match v with
    | .text s => some s
    | _ => some written
  onSequence := none
  onMapping := none

/-- The least integer of 64 bits. -/
def leastInteger : Int := -Number.signedLimit

/-- The integer of 64 bits that a number without its fraction is. A number that is too small, and
the first one that is too large, become the least integer. -/
def integerOf? : FloatValue → Option Int
  | .notANumber => none
  | .infinite negative => if negative then some leastInteger else none
  | .finite b =>
    let n := b.floorAbs
    if b.negative then some (if Number.signedLimit < n then leastInteger else -n)
    else if n < Number.signedLimit then some n
    else if b.isInteger ∧ n = Number.signedLimit then some leastInteger
    else none

/-- An integer. -/
def int : Shape Int where
  typeName := "int"
  absentName := none
  onNull n := (n, false)
  onScalar _ v :=
    match v with
    | .int n => if n < Number.signedLimit then some n else none
    | .float x => integerOf? x
    | _ => none
  onSequence := none
  onMapping := none

/-- The words for truth values beside `true` and `false`. -/
def truthWord? (s : String) : Option Bool :=
  if ["y", "Y", "yes", "Yes", "YES", "on", "On", "ON"].contains s then some true
  else if ["n", "N", "no", "No", "NO", "off", "Off", "OFF"].contains s then some false
  else none

/-- A truth value, also by some other words. -/
def bool : Shape Bool where
  typeName := "bool"
  absentName := none
  onNull b := (b, false)
  onScalar _ v :=
    match v with
    | .bool b => some b
    | .text t => t.string?.bind truthWord?
    | _ => none
  onSequence := none
  onMapping := none

/-- A list that may be absent. Elements without a value are left out. -/
def list {α : Type} (element : Shape α) (blank : α) : Shape (Option (List α)) where
  typeName := "[]" ++ element.typeName
  absentName := none
  onNull _ := (none, true)
  onScalar _ _ := none
  onSequence := some fun items => do
    let values ← items.mapM (Decode.value element blank)
    pure (some ((values.filter (·.2)).map (·.1)))
  onMapping := none

/-- A value that may be absent. -/
def optional {α : Type} (shape : Shape α) (blank : α) : Shape (Option α) where
  typeName := shape.typeName
  absentName := some ("*" ++ shape.typeName)
  onNull _ := (none, true)
  onScalar written v := (shape.onScalar written v).map some
  onSequence := shape.onSequence.map fun f items => some <$> f items
  onMapping := shape.onMapping.map fun f entries current => some <$> f entries (current.getD blank)

end Shape

end TraitResolution.Yaml
