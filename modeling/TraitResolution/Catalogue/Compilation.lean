import TraitResolution.Catalogue.Basic
import TraitResolution.TypeExpr.Parser

/-! # From documents to catalogues

The expressions of a document are read, names are looked up, and what is declared twice is refused.
Traits come first, then impls, obligations and method calls; the first fault ends the work.
Inference variables may stand in obligations and receivers only, and one name is one variable in the
whole document.
-/

namespace TraitResolution

namespace Catalogue

/-- What is wrong with a trait reference. -/
inductive ReferenceError where
  | unreadable (error : TypeExpr.ParseError)
  | unknownTrait (id : Text)
  | arity (trait : Trait) (ref : Reference)
deriving DecidableEq

/-- What is wrong with a trait. -/
inductive TraitError where
  | alreadyDeclared
  | repeatedParam (name : Text)
  | fundepCount (expected got : Nat)
  | repeatedMethod (id : Text)
  | method (id : Text) (error : TypeExpr.ParseError)
deriving DecidableEq

/-- What is wrong with an impl. -/
inductive ImplError where
  | repeatedParam (name : Text)
  | trait (error : ReferenceError)
  | bound (param : Text) (error : ReferenceError)
deriving DecidableEq

/-- What is wrong with a method call. -/
inductive QueryError where
  | receiver (error : TypeExpr.ParseError)
  | unknownTrait (id : Text)
deriving DecidableEq

/-- What is wrong with a document. -/
inductive CompileError where
  | trait (id : Text) (error : TraitError)
  | repeatedImpl (id : Text)
  | impl (id : Text) (error : ImplError)
  | repeatedObligation (id : Text)
  | obligation (id : Text) (error : ReferenceError)
  | query (position : Nat) (error : QueryError)
deriving DecidableEq

/-- What is wrong with a trait reference, in words. -/
def ReferenceError.message : ReferenceError → Text
  | unreadable error => error.message
  | unknownTrait id => "unknown trait " ++ id
  | arity trait ref =>
    "trait " ++ trait.id ++ " takes " ++ toString trait.arity ++ " type parameters, got " ++
      toString ref.params.length ++ " in " ++ Env.empty.refText ref

/-- The message for a type parameter that is declared twice. -/
def repeatedParamMessage (name : Text) : Text :=
  "type parameter " ++ name ++ " is declared more than once"

/-- What is wrong with a trait, in words. -/
def TraitError.message : TraitError → Text
  | alreadyDeclared => "trait is declared more than once, or shadows a builtin"
  | repeatedParam name => repeatedParamMessage name
  | fundepCount expected got =>
    "expected " ++ toString expected ++ " fundeps, one for Self and one per param, got " ++
      toString got
  | repeatedMethod id => "method " ++ id ++ " is declared more than once"
  | method id error => "method " ++ id ++ ": " ++ error.message

/-- What is wrong with an impl, in words. -/
def ImplError.message : ImplError → Text
  | repeatedParam name => repeatedParamMessage name
  | trait error => error.message
  | bound param error => "bound of " ++ param ++ ": " ++ error.message

/-- What is wrong with a method call, in words. -/
def QueryError.message : QueryError → Text
  | receiver error => "receiver: " ++ error.message
  | unknownTrait id => "unknown trait " ++ id

/-- What is wrong with a document, in words. -/
def CompileError.message : CompileError → Text
  | trait id error => "trait " ++ id ++ ": " ++ error.message
  | repeatedImpl id => "impl " ++ id ++ " is declared more than once"
  | impl id error => "impl " ++ id ++ ": " ++ error.message
  | repeatedObligation id => "obligation " ++ id ++ " is declared more than once"
  | obligation id error => "obligation " ++ id ++ ": " ++ error.message
  | query position error => "method " ++ toString position ++ ": " ++ error.message

namespace Compilation

open TypeExpr

/-- The first name that stands in a list a second time, given the names before the list. -/
def repeatedAfter? (seen : List Text) : List Text → Option Text
  | [] => none
  | name :: rest => if seen.contains name then some name else repeatedAfter? (name :: seen) rest

/-- The first name that stands in a list a second time. -/
def repeated? (names : List Text) : Option Text :=
  repeatedAfter? [] names

/-- The trait with the given id. -/
def traitNamed? (traits : List Trait) (id : Text) : Option Trait :=
  traits.find? (·.id == id)

/-- Refuse a reference to a trait that is not declared, or with the wrong number of parameters. -/
def checkArity (traits : List Trait) (ref : Reference) : Except ReferenceError Unit :=
  match traitNamed? traits ref.id with
  | none => .error (.unknownTrait ref.id)
  | some t => if ref.params.length ≠ t.arity then .error (.arity t ref) else .ok ()

/-- Read a reference to a declared trait, given the names of the inference variables so far. -/
def reference (traits : List Trait) (scope : Scope) (self? : Option Ty) (vars : List String)
    (source : Text) : Except ReferenceError (Reference × List String) := do
  let (ref, vars) ← ((Parser.reference scope self?).run source vars).mapError .unreadable
  checkArity traits ref
  pure (ref, vars)

/-- Read a reference in which no inference variables may stand. -/
def closedReference (traits : List Trait) (params : List Text) (self? : Option Ty)
    (source : Text) : Except ReferenceError Reference := do
  let (ref, _) ← reference traits ⟨params, false⟩ self? [] source
  pure ref

/-- The methods of a trait, given the ids of those before them. -/
def methods (params seen : List Text) : List MethodEntry → Except TraitError (List Method)
  | [] => pure []
  | e :: es => do
    if seen.contains e.id then throw (.repeatedMethod e.id)
    let (self, _) ← ((Parser.type ⟨params, false⟩).run e.self []).mapError (.method e.id)
    let rest ← methods params (e.id :: seen) es
    pure (⟨e.id, self⟩ :: rest)

/-- A trait, given the ones declared before it. -/
def trait (declared : List Trait) (e : TraitEntry) : Except TraitError Trait := do
  if (traitNamed? declared e.id).isSome then throw .alreadyDeclared
  let params : List Text := "Self" :: e.params.getD []
  match repeated? params with
  | some name => throw (.repeatedParam name)
  | none =>
    let fundeps := e.fundeps.getD (params.map fun _ => false)
    if fundeps.length ≠ params.length then throw (.fundepCount params.length fundeps.length)
    let methods ← methods params [] (e.methods.getD [])
    pure ⟨e.id, fundeps, methods⟩

/-- All traits, after the ones declared before them. -/
def traits (declared : List Trait) : List TraitEntry → Except CompileError (List Trait)
  | [] => pure declared
  | e :: es => do
    let t ← (trait declared e).mapError (.trait e.id)
    traits (declared ++ [t]) es

/-- The bounds on the type parameter at a position. -/
def bounds (traits : List Trait) (params : List Text) (position : Nat) (e : ParamEntry) :
    Except ImplError (List Reference) :=
  (e.bounds.getD []).mapM fun source =>
    (closedReference traits params (some (.param position)) source).mapError (.bound e.name)

/-- An impl. -/
def impl (traits : List Trait) (e : ImplEntry) : Except ImplError Impl := do
  let entries := e.params.getD []
  let params := entries.map (·.name)
  match repeated? params with
  | some name => throw (.repeatedParam name)
  | none =>
    let ref ← (closedReference traits params none e.trait).mapError .trait
    let bounds ← (entries.mapIdx fun i p => (i, p)).mapM fun (i, p) => bounds traits params i p
    pure ⟨e.id, bounds, ref⟩

/-- All impls, given the ids of those before them. -/
def impls (traits : List Trait) (seen : List Text) :
    List ImplEntry → Except CompileError (List Impl)
  | [] => pure []
  | e :: es => do
    if seen.contains e.id then throw (.repeatedImpl e.id)
    let i ← (impl traits e).mapError (.impl e.id)
    let rest ← impls traits (e.id :: seen) es
    pure (i :: rest)

/-- All obligations, given the ids of those before them and the inference variables so far. -/
def obligations (traits : List Trait) (seen : List Text) (vars : List String) :
    List ObligationEntry → Except CompileError (List Obligation × List String)
  | [] => pure ([], vars)
  | e :: es => do
    if seen.contains e.id then throw (.repeatedObligation e.id)
    let (ref, vars) ← (reference traits ⟨[], true⟩ none vars e.trait).mapError (.obligation e.id)
    let (rest, vars) ← obligations traits (e.id :: seen) vars es
    pure (.topLevel e.id ref :: rest, vars)

/-- The name of a method call: what it calls, unless it has a name of its own. -/
def queryId (e : QueryEntry) : Text :=
  if e.id.isEmpty then e.receiver ++ "." ++ e.method else e.id

/-- A method call, given the inference variables so far. -/
def query (traits : List Trait) (vars : List String) (e : QueryEntry) :
    Except QueryError (Query × List String) := do
  let (receiver, vars) ← ((Parser.type ⟨[], true⟩).run e.receiver vars).mapError .receiver
  let scope ← (e.traits.getD []).mapM fun id =>
    match traitNamed? traits id with
    | some t => Except.ok t
    | none => .error (QueryError.unknownTrait id)
  pure (⟨queryId e, receiver, e.method, scope⟩, vars)

/-- All method calls, given the position of the first and the inference variables so far. -/
def queries (traits : List Trait) (position : Nat) (vars : List String) :
    List QueryEntry → Except CompileError (List Query × List String)
  | [] => pure ([], vars)
  | e :: es => do
    let (q, vars) ← (query traits vars e).mapError (.query position)
    let (rest, vars) ← queries traits (position + 1) vars es
    pure (q :: rest, vars)

end Compilation

/-- The catalogue that a document describes. -/
def Document.compile (d : Document) : Except CompileError Catalogue := do
  let traits ← Compilation.traits builtinTraits (d.traits.getD [])
  let impls ← Compilation.impls traits [] (d.impls.getD [])
  let (obligations, vars) ← Compilation.obligations traits [] [] (d.obligations.getD [])
  let (queries, vars) ← Compilation.queries traits 0 vars (d.methods.getD [])
  pure ⟨d.config.getD .default, ⟨traits, impls⟩, obligations, queries, vars, d.expect⟩

end Catalogue

end TraitResolution
