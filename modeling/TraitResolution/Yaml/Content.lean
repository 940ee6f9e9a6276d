import TraitResolution.Number.Shortest
import TraitResolution.Yaml.Shape

/-! # Nodes of any shape

Where a mapping merges others, all its keys are decoded without regard to a shape, for only those
that are texts count. Mappings inside them may merge others in turn.
-/

namespace TraitResolution.Yaml

/-- What a node of any shape stands for. The keys of a mapping are scalars. -/
inductive Content where
  | scalar (v : Value)
  | list (items : List Content)
  | map (textKeys : Bool) (entries : List (Value × Content))

/-- A scalar as it is shown. -/
def Value.shown : Value → String
  | null => "interface \x7b\x7d(nil)"
  | bool b => toString b
  | int n =>
    if n < Number.signedLimit then toString n else "0x" ++ String.ofList (Nat.toDigits 16 n.toNat)
  | float (.finite b) => b.shown
  | float (.infinite negative) => if negative then "-Inf" else "+Inf"
  | float .notANumber => "NaN"
  | timestamp t => t.shown
  | text t => Text.quoted t

/-- Whether one number is shown before another. What is no number comes first. -/
def FloatValue.shownBefore : FloatValue → FloatValue → Bool
  | notANumber, _ => true
  | _, notANumber => false
  | infinite negative, _ => negative
  | _, infinite negative => !negative
  | finite a, finite b => a.le b

/-- Whether one key of a mapping is shown before another. -/
def Value.shownBefore : Value → Value → Bool
  | text a, text b => a.le b
  | int a, int b => a ≤ b
  | float a, float b => a.shownBefore b
  | bool a, bool b => !a || b
  | _, _ => true

namespace Content

mutual

/-- A content as it is shown. -/
def shown : Content → String
  | scalar v => v.shown
  | list items => "[]interface \x7b\x7d\x7b" ++ ", ".intercalate (shownAll items) ++ "\x7d"
  | map textKeys entries =>
    let parts := (shownEntries entries).mergeSort fun a b => a.1.shownBefore b.1
    "map[" ++ (if textKeys then "string" else "interface \x7b\x7d") ++ "]interface \x7b\x7d\x7b" ++
      ", ".intercalate (parts.map fun (k, s) => k.shown ++ ":" ++ s) ++ "\x7d"

/-- Some contents as they are shown. -/
def shownAll : List Content → List String
  | [] => []
  | c :: cs => c.shown :: shownAll cs

/-- The keys of a mapping with its values as they are shown. -/
def shownEntries : List (Value × Content) → List (Value × String)
  | [] => []
  | (k, c) :: rest => (k, c.shown) :: shownEntries rest

end

/-- The entries of a mapping with one set. -/
def insert (key : Value) (c : Content) (entries : List (Value × Content)) :
    List (Value × Content) :=
  entries.filter (·.1 != key) ++ [(key, c)]

end Content

namespace Merge

/-- Whether a key merges another mapping. -/
def isMerge : Node → Bool
  | .scalar _ s => s.isMerge
  | _ => false

/-- The mappings to be merged. -/
def sources : Node → Decode (List Node)
  | .sequence _ _ items => pure items
  | .scalar .. => throw (.anywhere .badMerge)
  | node => pure [node]

/-- Refuse a node that is no mapping and no alias of one. -/
def checkSource : Node → Decode Unit
  | .mapping .. => pure ()
  | .aliased _ name _ n => do
    match ← Decode.target name n with
    | .mapping .. => pure ()
    | _ => throw (.anywhere .badMerge)
  | _ => throw (.anywhere .badMerge)

/-- The entries of a mapping. -/
def entriesOf : Node → List (Node × Node)
  | .mapping _ _ entries => entries
  | _ => []

/-- Merge mappings one after the other, given how one is merged. Nothing is merged from a mapping
in which keys stand twice. -/
def fold {σ : Type} (node : Node) (start : σ)
    (merge : List (Node × Node) → σ → Decode σ) : Decode σ := do
  let nodes ← sources node
  nodes.foldlM (fun current source => do
    checkSource source
    Decode.visiting source fun node => do
      let entries := entriesOf node
      let (result, _) ← Decode.withEntries entries current (merge entries current)
      pure result) start

end Merge

namespace Decode

/-- The tag of a node, or of the node that an alias stands for. -/
def tagOf (anchored : List (Nat × Node)) : Node → Text
  | .scalar _ s => s.tag
  | .sequence _ tag _ => tag
  | .mapping _ tag _ => tag
  | .aliased _ _ _ n =>
    match anchored.lookup n with
    | some (.scalar _ s) => s.tag
    | some (.sequence _ tag _) => tag
    | some (.mapping _ tag _) => tag
    | _ => ""

/-- Whether all keys of a mapping are tagged as texts or as merges. -/
def hasTextKeys (anchored : List (Nat × Node)) (entries : List (Node × Node)) : Bool :=
  entries.all fun e =>
    let tag := tagOf anchored e.1
    decide (tag = "!!str") || decide (tag = "!!merge")

/-- A mapping of any shape that is being filled. -/
structure FillingMap where
  entries : List (Value × Content)
  /-- The keys that may not be set any more, if this is part of a merge. -/
  merged : Option (List Value)
  merge : Option Node

/-- The scalar that a key is. -/
def keyValue : Content → Decode Value
  | .scalar v => pure v
  | c => throw (.anywhere (.badKey c.shown))

mutual

/-- Decode a node of any shape, at most `n` levels deep. Only a mapping in which keys stand twice
stands for nothing. -/
def content : Nat → Node → Decode (Option Content)
  | 0, _ => pure none
  | n + 1, node =>
    visiting node fun node => do
      match node with
      | .scalar _ s =>
        match s.value with
        | .error f => throw f
        | .ok v => pure (some (.scalar v))
      | .sequence _ _ items =>
        let contents ← items.mapM (content n)
        pure (some (.list (contents.filterMap id)))
      | .mapping _ _ entries =>
        let d ← get
        let textKeys := hasTextKeys d.anchored entries
        let ((filled, _), fine) ← withEntries entries ([], none)
          (fillMap textKeys n none entries [])
        pure (if fine then some (.map textKeys filled) else none)
      | .aliased .. => pure none
termination_by structural n => n

/-- Fill a mapping of any shape from the entries of a mapping and from those it merges. -/
def fillMap (textKeys : Bool) : Nat → Option (List Value) → List (Node × Node) →
    List (Value × Content) → Decode (List (Value × Content) × Option (List Value))
  | 0, merged, _, filled => pure (filled, merged)
  | n + 1, merged, entries, filled => do
    let f ← entries.foldlM (fun (f : FillingMap) e => do
      if Merge.isMerge e.1 then
        pure { f with merge := some e.2 }
      else
        let key? ←
          if textKeys then do
            let (t, fine) ← value Shape.string "" e.1
            pure (if fine then some (Content.scalar (.text t)) else none)
          else
            content n e.1
        match key? with
        | none => pure f
        | some c =>
          let key ← keyValue c
          if f.merged.any (·.contains key) then
            pure f
          else
            let f := { f with merged := f.merged.map (key :: ·) }
            match ← content n e.2 with
            | some c => pure { f with entries := Content.insert key c f.entries }
            | none => pure f) ⟨filled, merged, none⟩
    match f.merge with
    | none => pure (f.entries, f.merged)
    | some node =>
      let own ← match f.merged with
        | some keys => pure keys
        | none => do
          let keys ← entries.mapM fun e => content n e.1
          pure (keys.filterMap fun
            | some (.scalar v) => some v
            | _ => none)
      Merge.fold node (f.entries, some own) fun entries (filled, merged) =>
        fillMap textKeys n merged entries filled
termination_by structural n => n

end

end Decode

end TraitResolution.Yaml
