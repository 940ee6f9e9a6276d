/-! # Types

A type is a constructor applied to types, a type parameter of the declaration it stands in, or an
inference variable. What an inference variable stands for is not part of the type: the functions
here that care about variables take what to do with one as an argument.

## Implementation notes

Each function on types comes with its twin on lists of types in one `mutual` block, and a lemma
turns the twin into a `List` function, so that later proofs see `List.map` and `List.flatMap`.
-/

namespace TraitResolution

/-- An inference variable. Variables are ordered and printed by `index`. The `generation` tells
apart a variable from an earlier one of the same index that is still mentioned somewhere. -/
structure Var where
  index : Nat
  generation : Nat
deriving DecidableEq

/-- A type. -/
inductive Ty where
  /-- A constructor with its arguments, as in `Map<str, int>`. -/
  | con (id : String) (args : List Ty)
  /-- The type parameter at a position of the surrounding declaration. -/
  | param (index : Int)
  /-- An inference variable. -/
  | var (v : Var)

namespace Ty

mutual

/-- Equality of types is decided from the root down. -/
def decEq : (a b : Ty) → Decidable (a = b)
  | con f xs, con g ys =>
    if hid : f = g then
      match decEqAll xs ys with
      | isTrue h => isTrue (by rw [hid, h])
      | isFalse h => isFalse (by intro e; injection e; contradiction)
    else
      isFalse (by intro e; injection e; contradiction)
  | param i, param j =>
    if h : i = j then isTrue (by rw [h]) else isFalse (by intro e; injection e; contradiction)
  | var v, var w =>
    if h : v = w then isTrue (by rw [h]) else isFalse (by intro e; injection e; contradiction)
  | con _ _, param _ | con _ _, var _ | param _, con _ _ | param _, var _ | var _, con _ _
  | var _, param _ => isFalse (by intro e; injection e)

/-- Equality of lists of types is decided from left to right. -/
def decEqAll : (as bs : List Ty) → Decidable (as = bs)
  | [], [] => isTrue rfl
  | a :: as, b :: bs =>
    match decEq a b with
    | isTrue h =>
      match decEqAll as bs with
      | isTrue hs => isTrue (by rw [h, hs])
      | isFalse hs => isFalse (by intro e; injection e; contradiction)
    | isFalse h => isFalse (by intro e; injection e; contradiction)
  | [], _ :: _ | _ :: _, [] => isFalse (by intro e; injection e)

end

instance : DecidableEq Ty := decEq

mutual

/-- Put a type in place of every variable. -/
def replaceVars (f : Var → Ty) : Ty → Ty
  | con id args => con id (replaceVarsAll f args)
  | param i => param i
  | var v => f v

/-- Put a type in place of every variable of a list of types. -/
def replaceVarsAll (f : Var → Ty) : List Ty → List Ty
  | [] => []
  | t :: ts => replaceVars f t :: replaceVarsAll f ts

end

mutual

/-- The variables of a type, from left to right, with repeats. -/
def vars : Ty → List Var
  | con _ args => varsAll args
  | param _ => []
  | var v => [v]

/-- The variables of a list of types, from left to right, with repeats. -/
def varsAll : List Ty → List Var
  | [] => []
  | t :: ts => vars t ++ varsAll ts

end

mutual

/-- Whether a type parameter occurs in a type. -/
def hasParams : Ty → Bool
  | con _ args => hasParamsAny args
  | param _ => true
  | var _ => false

/-- Whether a type parameter occurs in one of a list of types. -/
def hasParamsAny : List Ty → Bool
  | [] => false
  | t :: ts => hasParams t || hasParamsAny ts

end

mutual

/-- The number of constructors, parameters and variables a type is written with. -/
def size : Ty → Nat
  | con _ args => sizeAll args + 1
  | param _ => 1
  | var _ => 1

/-- The sum of the sizes of a list of types. -/
def sizeAll : List Ty → Nat
  | [] => 0
  | t :: ts => size t + sizeAll ts

end

/-- Arguments in angle brackets, or nothing when there are none. -/
def bracketed : List String → String
  | [] => ""
  | texts => "<" ++ ", ".intercalate texts ++ ">"

mutual

/-- The text of a type, given the text of each variable. -/
def text (varText : Var → String) : Ty → String
  | con id args => id ++ bracketed (textAll varText args)
  | param i => "P" ++ toString i
  | var v => varText v

/-- The texts of a list of types, given the text of each variable. -/
def textAll (varText : Var → String) : List Ty → List String
  | [] => []
  | t :: ts => text varText t :: textAll varText ts

end

@[simp]
theorem replaceVarsAll_eq_map (f : Var → Ty) (ts : List Ty) :
    replaceVarsAll f ts = ts.map (replaceVars f) := by
  induction ts with
  | nil => simp [replaceVarsAll]
  | cons t ts ih => simp [replaceVarsAll, ih]

@[simp]
theorem varsAll_eq_flatMap (ts : List Ty) : varsAll ts = ts.flatMap vars := by
  induction ts with
  | nil => simp [varsAll]
  | cons t ts ih => simp [varsAll, ih]

@[simp]
theorem hasParamsAny_eq_any (ts : List Ty) : hasParamsAny ts = ts.any hasParams := by
  induction ts with
  | nil => simp [hasParamsAny]
  | cons t ts ih => simp [hasParamsAny, ih]

@[simp]
theorem textAll_eq_map (varText : Var → String) (ts : List Ty) :
    textAll varText ts = ts.map (text varText) := by
  induction ts with
  | nil => simp [textAll]
  | cons t ts ih => simp [textAll, ih]

end Ty

/-- Why type parameters could not be replaced. -/
inductive SubstError where
  /-- A parameter has no replacement. -/
  | outOfRange (index : Int) (available : Nat)
  /-- The replacement of a parameter is itself a parameter. -/
  | replacedByParam (index : Int) (replacement : Int)
deriving DecidableEq

namespace Ty

/-- The replacement of the parameter at `index`. -/
def replacement (rs : List Ty) (index : Int) : Except SubstError Ty :=
  if index < 0 then
    .error (.outOfRange index rs.length)
  else
    match rs[index.toNat]? with
    | none => .error (.outOfRange index rs.length)
    | some (param other) => .error (.replacedByParam index other)
    | some r => .ok r

mutual

/-- Replace every type parameter by the type at its position in `rs`. Variables stay. -/
def subst (rs : List Ty) : Ty → Except SubstError Ty
  | con id args => do
    let args ← substAll rs args
    pure (con id args)
  | param i => replacement rs i
  | var v => .ok (var v)

/-- Replace every type parameter in a list of types, from left to right. -/
def substAll (rs : List Ty) : List Ty → Except SubstError (List Ty)
  | [] => .ok []
  | t :: ts => do
    let t ← subst rs t
    let ts ← substAll rs ts
    pure (t :: ts)

end

end Ty

end TraitResolution
