import TraitResolution.Yaml.Content

/-! # Records

The shape of a mapping with known fields. A mapping may merge others under the key `<<`. Its own
keys come first, and of the merged mappings the earlier ones.
-/

namespace TraitResolution.Yaml

/-- A named part of a record. -/
structure Field (σ : Type) where
  name : String
  decode : Node → σ → Decode σ

/-- A field with the shape of its values, and how it is got and set. -/
def Field.of {σ α : Type} (name : String) (shape : Shape α) (get : σ → α) (set : σ → α → σ) :
    Field σ where
  name := name
  decode node s := do
    let (a, _) ← Decode.value shape (get s) node
    pure (set s a)

namespace Record

/-- A record that is being filled: the record itself, the names of fields that may not be set any
more if it is part of a merge, and the node to be merged. -/
structure Filling (σ : Type) where
  record : σ
  merged : Option (List Text)
  done : List Text
  merge : Option Node

/-- Set a field. -/
def setField {σ : Type} (typeName : String) (fields : List (Field σ)) (name : Text) (line : Nat)
    (node : Node) (f : Filling σ) : Decode (Filling σ) := do
  match fields.find? fun field => name = field.name with
  | some field =>
    if f.done.contains name then
      Decode.note (.fieldSetTwice line name typeName)
      pure f
    else
      let record ← field.decode node f.record
      pure { f with record := record, done := name :: f.done }
  | none =>
    Decode.note (.unknownField line name typeName)
    pure f

/-- Fill in one entry. -/
def entry {σ : Type} (typeName : String) (fields : List (Field σ)) (f : Filling σ)
    (e : Node × Node) : Decode (Filling σ) := do
  if Merge.isMerge e.1 then
    pure { f with merge := some e.2 }
  else
    let (name, fine) ← Decode.value Shape.string "" e.1
    if !fine || f.merged.any (·.contains name) then
      pure f
    else
      setField typeName fields name e.1.line e.2
        { f with merged := f.merged.map (name :: ·) }

/-- The texts of the keys of a mapping. Keys that are something else do not count. -/
def keyTexts (entries : List (Node × Node)) : Decode (List Text) := do
  let d ← get
  let keys ← entries.mapM fun e => Decode.content d.depth e.1
  pure (keys.filterMap fun
    | some (.scalar (.text t)) => some t
    | _ => none)

/-- Fill a record from the entries of a mapping, and from the mappings that it merges, which merge
others to at most the given depth. -/
def fillWithin {σ : Type} (typeName : String) (fields : List (Field σ)) :
    Nat → Option (List Text) → List (Node × Node) → σ → Decode (σ × Option (List Text))
  | depth, merged, entries, record => do
    let f ← entries.foldlM (entry typeName fields) ⟨record, merged, [], none⟩
    match f.merge, depth with
    | none, _ => pure (f.record, f.merged)
    | some _, 0 => throw (.anywhere (.cyclicAnchor ""))
    | some node, depth + 1 =>
      let own ← match f.merged with
        | some names => pure names
        | none => keyTexts entries
      Merge.fold node (f.record, some own) fun entries (record, merged) =>
        fillWithin typeName fields depth merged entries record

end Record

/-- A record with named fields. -/
def Shape.record {σ : Type} (typeName : String) (fields : List (Field σ)) : Shape σ where
  typeName := typeName
  absentName := none
  onNull s := (s, false)
  onScalar _ _ := none
  onSequence := none
  onMapping := some fun entries s => do
    let d ← get
    let (s, _) ← Record.fillWithin typeName fields d.depth none entries s
    pure s

/-- Decode a document, over a value to start from. -/
def Tree.decode {α : Type} (t : Tree) (shape : Shape α) (start : α) :
    Except Fault (α × List Misfit) := do
  let ((a, _), d) ← (Decode.value shape start t.root).run ⟨t.anchored, t.depth, [], [], 1, 0⟩
  pure (a, d.misfits)

end TraitResolution.Yaml
