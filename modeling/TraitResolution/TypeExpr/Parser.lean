import TraitResolution.Program
import TraitResolution.Text.Quoted
import TraitResolution.TypeExpr.Token

/-! # Reading type expressions

A type expression is a name, a name with arguments in angle brackets, or a question mark with the
name of an inference variable. A trait reference is a name with optional arguments, then `for` and a
type expression; the part from `for` on is left out where the self type is known.

Names of type parameters take no arguments. Inference variables are numbered by first occurrence.
-/

namespace TraitResolution.TypeExpr

/-- What is wrong with an expression. -/
inductive Problem where
  | nul
  | stray
  | expectedName (found : TokenKind)
  | expectedSymbol (c : Char) (found : TokenKind)
  | expectedFor (found : TokenKind)
  | paramWithArgs (name : String)
  | varNotAllowed (name : String)
  | unexpected (found : TokenKind)
deriving DecidableEq

/-- A problem, and the column of the token at which it was noticed. -/
structure Failure where
  column : Nat
  problem : Problem
deriving DecidableEq

/-- An expression that could not be read. -/
structure ParseError where
  source : Text
  failure : Failure
deriving DecidableEq

/-- How a token is called in a message. -/
def TokenKind.text : TokenKind → String
  | name _ => "Ident"
  | symbol c => Text.quoted (String.singleton c)
  | eof => "EOF"
  | nul => "NUL"
  | stray => "byte"

/-- What is wrong, in words. -/
def Problem.text : Problem → String
  | nul => "invalid character NUL"
  | stray => "invalid UTF-8 encoding"
  | expectedName found => "expected a name, found " ++ found.text
  | expectedSymbol c found =>
    "expected " ++ Text.quoted (String.singleton c) ++ ", found " ++ found.text
  | expectedFor found => "expected 'for', found " ++ found.text
  | paramWithArgs name => "type parameter " ++ name ++ " cannot take arguments"
  | varNotAllowed name => "inference variable ?" ++ name ++ " is not allowed here"
  | unexpected found => "unexpected " ++ found.text

/-- The message for an expression that could not be read. -/
def ParseError.message (e : ParseError) : String :=
  Text.quoted e.source ++ " at column " ++ toString e.failure.column ++ ": " ++
    e.failure.problem.text

/-- The names that have a meaning in an expression. -/
structure Scope where
  /-- The type parameters, in order of their positions. -/
  params : List Text
  /-- Whether inference variables are allowed. -/
  allowsVars : Bool
deriving DecidableEq

/-- The tokens that are left, and the names of the inference variables seen so far. -/
structure ParserState where
  tokens : List Token
  vars : List String

/-- A step of reading. -/
abbrev Parser := StateT ParserState (Except Failure)

namespace Parser

/-- The token to be read next. -/
def current : Parser Token := do
  let s ← get
  pure (s.tokens.headD ⟨.eof, 0⟩)

/-- Give up at the token to be read next. -/
def fail {α : Type} (problem : Problem) : Parser α := do
  let t ← current
  throw ⟨t.column, problem⟩

/-- Give up if what is to be read next is not allowed. -/
def checkAllowed : Parser Unit := do
  let t ← current
  match t.kind with
  | .nul => fail .nul
  | .stray => fail .stray
  | _ => pure ()

/-- Go on to the next token. The end of the text is never passed. -/
def advance : Parser Unit := do
  modify fun s =>
    match s.tokens with
    | _ :: t :: rest => { s with tokens := t :: rest }
    | _ => s
  checkAllowed

/-- Whether the token to be read next is the symbol `c`. -/
def atSymbol (c : Char) : Parser Bool := do
  let t ← current
  pure (t.kind = .symbol c)

/-- Read the symbol `c`. -/
def symbol (c : Char) : Parser Unit := do
  let t ← current
  if t.kind = .symbol c then advance else fail (.expectedSymbol c t.kind)

/-- Read a name. -/
def name : Parser String := do
  let t ← current
  match t.kind with
  | .name text =>
    advance
    pure text
  | found => fail (.expectedName found)

/-- The inference variable of a name, numbered next if the name is new. -/
def inferenceVar (scope : Scope) (name : String) : Parser Ty := do
  if scope.allowsVars then
    let s ← get
    match s.vars.idxOf? name with
    | some i => pure (.var ⟨i, 0⟩)
    | none =>
      set { s with vars := s.vars ++ [name] }
      pure (.var ⟨s.vars.length, 0⟩)
  else
    fail (.varNotAllowed name)

mutual

/-- Read a type expression nested in at most `n` levels of tokens. -/
def typeWithin (scope : Scope) : Nat → Parser Ty
  | 0 => do
    let t ← current
    fail (.expectedName t.kind)
  | n + 1 => do
    if ← atSymbol '?' then
      advance
      let v ← name
      inferenceVar scope v
    else
      let id ← name
      match scope.params.idxOf? (Text.ofString id) with
      | some i =>
        if ← atSymbol '<' then
          fail (.paramWithArgs id)
        else
          pure (.param i)
      | none =>
        let args ← argsWithin scope n
        pure (.con id args)

/-- Read an optional list of arguments. -/
def argsWithin (scope : Scope) : Nat → Parser (List Ty)
  | 0 => pure []
  | n + 1 => do
    if ← atSymbol '<' then
      advance
      let first ← typeWithin scope n
      let rest ← moreWithin scope n
      symbol '>'
      pure (first :: rest)
    else
      pure []

/-- Read the arguments after the first one. -/
def moreWithin (scope : Scope) : Nat → Parser (List Ty)
  | 0 => pure []
  | n + 1 => do
    if ← atSymbol ',' then
      advance
      let next ← typeWithin scope n
      let rest ← moreWithin scope n
      pure (next :: rest)
    else
      pure []

end

/-- More than the number of steps that the tokens that are left allow for. -/
def bound : Parser Nat := do
  let s ← get
  pure (2 * s.tokens.length + 2)

/-- Read a type expression. -/
def type (scope : Scope) : Parser Ty := do
  typeWithin scope (← bound)

/-- Read a trait reference. The part from `for` on is left out if the self type is given. -/
def reference (scope : Scope) (self? : Option Ty) : Parser Reference := do
  let id ← name
  let params ← argsWithin scope (← bound)
  match self? with
  | some self => pure ⟨id, self, params⟩
  | none =>
    let t ← current
    if t.kind = .name "for" then
      advance
      let self ← type scope
      pure ⟨id, self, params⟩
    else
      fail (.expectedFor t.kind)

/-- Accept only the end of the text. -/
def atEnd : Parser Unit := do
  let t ← current
  if t.kind ≠ .eof then fail (.unexpected t.kind)

/-- Read a whole text, given the names of the inference variables seen before it. -/
def run {α : Type} (p : Parser α) (source : Text) (vars : List String) :
    Except ParseError (α × List String) :=
  let whole : Parser α := do
    checkAllowed
    let a ← p
    atEnd
    pure a
  match whole ⟨tokens source, vars⟩ with
  | .ok (a, s) => .ok (a, s.vars)
  | .error failure => .error ⟨source, failure⟩

end Parser

/-- Read a type expression without names in scope. -/
def parseType (source : Text) : Except ParseError Ty :=
  (Parser.run (Parser.type ⟨[], false⟩) source []).map (·.1)

end TraitResolution.TypeExpr
