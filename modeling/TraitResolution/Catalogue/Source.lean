import TraitResolution.Catalogue.Validation
import TraitResolution.Yaml.Record

/-! # Documents as YAML text

Limits that a document does not mention keep their default values.
-/

namespace TraitResolution.Catalogue

open Yaml

namespace Source

/-- The limits of a search. -/
def config : Shape Config :=
  .record "trait.Config"
    [.of "maxDepth" .int (·.maxDepth) fun c n => { c with maxDepth := n },
      .of "maxAutoderef" .int (·.maxAutoderef) fun c n => { c with maxAutoderef := n }]

/-- A list of texts. -/
def strings : Shape (Option (List Text)) :=
  .list .string ""

/-- A method signature. -/
def method : Shape MethodEntry :=
  .record "catalogue.MethodSig"
    [.of "id" .string (·.id) fun m s => { m with id := s },
      .of "self" .string (·.self) fun m s => { m with self := s }]

/-- A trait. -/
def trait : Shape TraitEntry :=
  .record "catalogue.TraitDoc"
    [.of "id" .string (·.id) fun t s => { t with id := s },
      .of "params" strings (·.params) fun t l => { t with params := l },
      .of "fundeps" (.list .bool false) (·.fundeps) fun t l => { t with fundeps := l },
      .of "methods" (.list method .blank) (·.methods) fun t l => { t with methods := l }]

/-- A type parameter of an impl. -/
def param : Shape ParamEntry :=
  .record "catalogue.ParamDoc"
    [.of "name" .string (·.name) fun p s => { p with name := s },
      .of "bounds" strings (·.bounds) fun p l => { p with bounds := l }]

/-- An impl. -/
def impl : Shape ImplEntry :=
  .record "catalogue.ImplDoc"
    [.of "id" .string (·.id) fun i s => { i with id := s },
      .of "params" (.list param .blank) (·.params) fun i l => { i with params := l },
      .of "trait" .string (·.trait) fun i s => { i with trait := s }]

/-- An obligation. -/
def obligation : Shape ObligationEntry :=
  .record "catalogue.ObligationDoc"
    [.of "id" .string (·.id) fun o s => { o with id := s },
      .of "trait" .string (·.trait) fun o s => { o with trait := s }]

/-- A method call. -/
def query : Shape QueryEntry :=
  .record "catalogue.MethodDoc"
    [.of "id" .string (·.id) fun q s => { q with id := s },
      .of "receiver" .string (·.receiver) fun q s => { q with receiver := s },
      .of "method" .string (·.method) fun q s => { q with method := s },
      .of "traits" strings (·.traits) fun q l => { q with traits := l }]

/-- Pairs of ids. An absent pair is an empty one. -/
def pairs : Shape (Option (List (Option (List Text)))) :=
  .list strings none

/-- Expectations. -/
def expectations : Shape Expectations :=
  .record "catalogue.Expectations"
    [.of "confirmed" strings (·.confirmed) fun e l => { e with confirmed := l },
      .of "deferred" strings (·.deferred) fun e l => { e with deferred := l },
      .of "overflow" strings (·.overflow) fun e l => { e with overflow := l },
      .of "noImpl" strings (·.noImpl) fun e l => { e with noImpl := l },
      .of "conflicts" pairs (fun e => e.conflicts.map (·.map some)) fun e l =>
        { e with conflicts := l.map (·.map (·.getD [])) },
      .of "methods" strings (·.methods) fun e l => { e with methods := l }]

/-- A document. -/
def document : Shape Document :=
  .record "catalogue.Document"
    [.of "version" .string (·.version) fun d s => { d with version := s },
      .of "config" (.optional config ⟨0, 0⟩) (·.config) fun d c => { d with config := c },
      .of "traits" (.list trait .blank) (·.traits) fun d l => { d with traits := l },
      .of "impls" (.list impl .blank) (·.impls) fun d l => { d with impls := l },
      .of "obligations" (.list obligation .blank) (·.obligations)
        fun d l => { d with obligations := l },
      .of "methods" (.list query .blank) (·.methods) fun d l => { d with methods := l },
      .of "expect" (.optional expectations .blank) (·.expect) fun d e => { d with expect := e }]

end Source

/-- Why a text is no document. -/
inductive ReadError where
  | empty
  | fault (f : Fault)
  | misfits (all : List Misfit)
  | invalid (e : InvalidDocument)
deriving DecidableEq

/-- The message for a text that is no document. -/
def ReadError.message : ReadError → Text
  | empty => "empty catalogue"
  | fault f => "could not decode catalogue: " ++ f.message
  | misfits all =>
    "could not decode catalogue: yaml: unmarshal errors:\n  " ++
      Text.intercalate "\n  " (all.map (·.text))
  | invalid e => e.message

/-- Read a document and check its structure. -/
def Document.read (text : String) : Except ReadError Document := do
  match ← (Tree.ofText? text).mapError ReadError.fault with
  | none => throw .empty
  | some tree =>
    let (d, misfits) ←
      (tree.decode Source.document (.blank (some .default))).mapError ReadError.fault
    if misfits.isEmpty then
      d.validate.mapError ReadError.invalid
      pure d
    else
      throw (.misfits misfits)

end TraitResolution.Catalogue
