import TraitResolution.Catalogue.Document
import TraitResolution.Catalogue.Version

/-! # Validation

The structure of a document is checked field by field, in the order in which the fields are
declared, and every violation is listed. Only then is its version looked at. What the texts of types
and references say is not checked here.
-/

namespace TraitResolution.Catalogue

/-- A condition on a field. -/
inductive Rule where
  | required
  | atLeast (bound : Nat)
  | minLength (bound : Nat)
  | exactLength (bound : Nat)
  | oneOf (choices : List String) (got : Text)
deriving DecidableEq

/-- A field that violates a condition. -/
structure Violation where
  field : String
  rule : Rule
deriving DecidableEq

/-- What is wrong with a field, in words. -/
def Violation.text (v : Violation) : Text :=
  match v.rule with
  | .required => v.field ++ " is required"
  | .atLeast bound => v.field ++ " must be at least " ++ toString bound
  | .minLength bound => v.field ++ " must have at least " ++ toString bound ++ " elements"
  | .exactLength bound => v.field ++ " must have exactly " ++ toString bound ++ " elements"
  | .oneOf choices got =>
    v.field ++ " must be one of [" ++ " ".intercalate choices ++ "], got " ++ got

/-- Why a document is not accepted. -/
inductive InvalidDocument where
  | violations (all : List Violation)
  | badVersion (text : Text) (error : VersionError)
  | unsupportedVersion (version : Version)
deriving DecidableEq

/-- The message for a document that is not accepted. -/
def InvalidDocument.message : InvalidDocument → Text
  | violations all => "invalid catalogue:\n  " ++ Text.intercalate "\n  " (all.map (·.text))
  | badVersion text error =>
    "invalid catalogue version " ++ Text.quoted text ++ ": " ++ error.text
  | unsupportedVersion version =>
    "unsupported catalogue version " ++ version.text ++ ", expected " ++ Version.supportedRange

namespace Validation

/-- A text must not be empty. -/
def required (field : String) (text : Text) : List Violation :=
  if text.isEmpty then [⟨field, .required⟩] else []

/-- A number must not be negative. -/
def notNegative (field : String) (n : Int) : List Violation :=
  if n < 0 then [⟨field, .atLeast 0⟩] else []

/-- Check each element of a list that is present. The check gets the name of the element. -/
def each {α : Type} (field : String) (check : String → α → List Violation)
    (list : Option (List α)) : List Violation :=
  ((list.getD []).mapIdx fun i a => check (field ++ "[" ++ toString i ++ "]") a).flatten

/-- The limits of a search. -/
def config (field : String) (c : Config) : List Violation :=
  notNegative (field ++ ".maxDepth") c.maxDepth ++
    notNegative (field ++ ".maxAutoderef") c.maxAutoderef

/-- A method signature. -/
def method (field : String) (m : MethodEntry) : List Violation :=
  required (field ++ ".id") m.id ++ required (field ++ ".self") m.self

/-- A trait. -/
def trait (field : String) (t : TraitEntry) : List Violation :=
  required (field ++ ".id") t.id ++ each (field ++ ".params") required t.params ++
    each (field ++ ".methods") method t.methods

/-- A type parameter of an impl. -/
def param (field : String) (p : ParamEntry) : List Violation :=
  required (field ++ ".name") p.name ++ each (field ++ ".bounds") required p.bounds

/-- An impl. -/
def impl (field : String) (i : ImplEntry) : List Violation :=
  required (field ++ ".id") i.id ++ each (field ++ ".params") param i.params ++
    required (field ++ ".trait") i.trait

/-- An obligation. -/
def obligation (field : String) (o : ObligationEntry) : List Violation :=
  required (field ++ ".id") o.id ++ required (field ++ ".trait") o.trait

/-- The traits in scope of a method call: at least one, none of them empty. -/
def scope (field : String) (traits : Option (List Text)) : List Violation :=
  match traits with
  | none => [⟨field, .required⟩]
  | some [] => [⟨field, .minLength 1⟩]
  | some ids => each field required (some ids)

/-- A method call. -/
def query (field : String) (q : QueryEntry) : List Violation :=
  required (field ++ ".receiver") q.receiver ++ required (field ++ ".method") q.method ++
    scope (field ++ ".traits") q.traits

/-- An expected conflict. -/
def conflict (field : String) (ids : List Text) : List Violation :=
  if ids.length ≠ 2 then [⟨field, .exactLength 2⟩] else []

/-- The kinds of answers to a method call. -/
def kinds : List String :=
  ["Match", "Ambiguous", "CannotDeref", "CannotRefMut", "CannotReconcileSelfType"]

/-- An expected kind of answer. -/
def kind (field : String) (k : Text) : List Violation :=
  if kinds.any fun name => k = name then [] else [⟨field, .oneOf kinds k⟩]

/-- Expectations. -/
def expectations (field : String) (e : Expectations) : List Violation :=
  each (field ++ ".conflicts") conflict e.conflicts ++ each (field ++ ".methods") kind e.methods

/-- Every violation in a document. -/
def violations (d : Document) : List Violation :=
  required "version" d.version ++ (d.config.map (config "config")).getD [] ++
    each "traits" trait d.traits ++ each "impls" impl d.impls ++
    each "obligations" obligation d.obligations ++ each "methods" query d.methods ++
    (d.expect.map (expectations "expect")).getD []

end Validation

/-- Check the structure of a document and its version. -/
def Document.validate (d : Document) : Except InvalidDocument Unit :=
  match Validation.violations d with
  | [] =>
    match Version.parse d.version with
    | .error e => .error (.badVersion d.version e)
    | .ok v => if v.supported then .ok () else .error (.unsupportedVersion v)
  | all => .error (.violations all)

end TraitResolution.Catalogue
