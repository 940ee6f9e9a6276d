import TraitResolution.Program

/-! # Environments

An environment counts the inference variables that exist and keeps the bindings made so far on a
trail, the newest first. The trail is the whole substitution: a variable is bound when the trail
holds a binding for it, and undoing work is dropping bindings off the trail.

## Implementation notes

A binding's value may mention variables that are bound themselves, by earlier or later bindings.
The functions that look through bindings therefore take the number of bindings they may still pass
along one path. No path through acyclic bindings passes one twice, so the length of the trail is
enough, and the functions without that number start with it.
-/

namespace TraitResolution

/-- A variable with the type it stands for. -/
structure Binding where
  var : Var
  value : Ty
deriving DecidableEq

/-- The number of variables in existence, and the bindings made so far, the newest first. -/
structure Env where
  count : Nat
  trail : List Binding
deriving DecidableEq

namespace Env

/-- The environment without variables. -/
def empty : Env := ⟨0, []⟩

/-- The number of bindings. -/
def len (env : Env) : Nat :=
  env.trail.length

/-- The type a variable is bound to. -/
def value? (env : Env) (v : Var) : Option Ty :=
  (env.trail.find? (·.var == v)).map (·.value)

/-- Follow a chain of bound variables through at most `n` bindings. -/
def shallowWithin (env : Env) : Nat → Ty → Ty
  | n + 1, .var v =>
    match env.value? v with
    | some t => shallowWithin env n t
    | none => .var v
  | _, t => t

/-- Replace bound variables by their values, passing at most `n` bindings on a path. -/
def resolveWithin (env : Env) : Nat → Ty → Ty
  | 0, t => t
  | n + 1, t => t.replaceVars fun v =>
    match env.value? v with
    | some u => resolveWithin env n u
    | none => .var v

/-- The text of a type in which a bound variable shows its value, to a depth of `n` bindings. -/
def textWithin (env : Env) : Nat → Ty → String
  | 0, t => t.text fun v => "$" ++ toString v.index
  | n + 1, t => t.text fun v =>
    match env.value? v with
    | some u => "$\x7b" ++ toString v.index ++ ":" ++ textWithin env n u ++ "\x7d"
    | none => "$" ++ toString v.index

/-- What a type is at its root, once the variables there are looked up. -/
def shallow (env : Env) (t : Ty) : Ty :=
  env.shallowWithin env.len t

/-- A type with every bound variable replaced by its value. -/
def resolve (env : Env) (t : Ty) : Ty :=
  env.resolveWithin env.len t

/-- The text of a type. An unbound variable is `$i`, a bound one shows its value after a colon. -/
def text (env : Env) (t : Ty) : String :=
  env.textWithin env.len t

/-- Whether a variable occurs in a type once bound variables are replaced. -/
def occurs (env : Env) (v : Var) (t : Ty) : Bool :=
  (env.resolve t).vars.contains v

/-- Whether a type parameter occurs in a type once bound variables are replaced. -/
def hasParams (env : Env) (t : Ty) : Bool :=
  (env.resolve t).hasParams

/-- Insert a number into a strictly increasing list, unless it is there already. -/
def insertIndex (i : Nat) : List Nat → List Nat
  | [] => [i]
  | j :: js => if i < j then i :: j :: js else if i = j then j :: js else j :: insertIndex i js

/-- The indices of the unbound variables reachable from some types, in increasing order. -/
def freeVars (env : Env) (ts : List Ty) : List Nat :=
  (ts.flatMap fun t => (env.resolve t).vars.map (·.index)).foldr insertIndex []

/-- Whether no unbound variable is reachable from some types. -/
def fullyBound (env : Env) (ts : List Ty) : Bool :=
  (env.freeVars ts).isEmpty

/-- A reference with every bound variable replaced by its value. -/
def resolveRef (env : Env) (r : Reference) : Reference :=
  ⟨r.id, env.resolve r.self, r.params.map env.resolve⟩

/-- The text of a reference. -/
def refText (env : Env) (r : Reference) : Text :=
  r.text env.text

/-- The variables the trail mentions. -/
def mentioned (env : Env) : List Var :=
  env.trail.flatMap fun b => b.var :: b.value.vars

/-- The variable that comes next: it has the first index not in use, and differs from all
variables that the trail still mentions. -/
def nextVar (env : Env) : Var :=
  let taken := (env.mentioned.filter (·.index == env.count)).map (·.generation)
  ⟨env.count, taken.foldr (fun g next => max (g + 1) next) 0⟩

/-- The environment after the next variable is created. -/
def created (env : Env) : Env :=
  { env with count := env.count + 1 }

/-- The environment with one more binding. -/
def bound (env : Env) (v : Var) (t : Ty) : Env :=
  { env with trail := ⟨v, t⟩ :: env.trail }

end Env

/-- A moment of an environment to go back to. -/
structure Snapshot where
  trail : Nat
  count : Nat
deriving DecidableEq

namespace Env

/-- The present moment. -/
def snapshot (env : Env) : Snapshot :=
  ⟨env.len, env.count⟩

/-- The environment with the bindings made since a snapshot dropped, and its count restored. -/
def restored (env : Env) (s : Snapshot) : Env :=
  ⟨s.count, env.trail.drop (env.len - s.trail)⟩

end Env

end TraitResolution
