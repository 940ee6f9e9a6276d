import TraitResolution.Engine

/-! # Unification

Two types are made equal by binding variables. A failure leaves no binding behind: the arguments of
two constructors, and the parts of two references, are unified all or not at all.

## Implementation notes

Unification descends along a path of constructors. While it does, every binding it makes has as its
value a constructor that occurs in one of the two types or in a value on the trail, or a variable.
The constructors on a path are pairwise distinct occurrences of these, so their number bounds the
depth, and `Env.unifyBound` is never exhausted.
-/

namespace TraitResolution

/-- One more than the number of constructors, parameters and variables that can be met while two
types are unified. -/
def Env.unifyBound (env : Env) (a b : Ty) : Nat :=
  env.trail.foldr (fun b n => b.value.size + n) 0 + a.size + b.size + 1

namespace Engine

/-- Unify two unbound variables. The younger one is bound to the older one. -/
def unifyVars (v w : Var) : Engine Bool := do
  if v = w then
    pure true
  else if v.index < w.index then
    bindVar w (.var v)
    pure true
  else
    bindVar v (.var w)
    pure true

/-- Bind an unbound variable to a constructor, unless the variable occurs in it. -/
def unifyVarCon (v : Var) (t : Ty) : Engine Bool := do
  let env ← present
  if env.occurs v t then
    report (.occursCheckFailed v t)
    pure false
  else
    bindVar v t
    pure true

/-- Unify two types, descending through at most `n` levels. -/
def unifyWithin : Nat → Ty → Ty → Engine Bool
  | 0, _, _ => pure false
  | n + 1, a, b => do
    let env ← present
    match env.shallow a, env.shallow b with
    | .var v, .var w => unifyVars v w
    | .var v, .con id args => unifyVarCon v (.con id args)
    | .con id args, .var v => unifyVarCon v (.con id args)
    | .con f xs, .con g ys =>
      if f ≠ g then
        pure false
      else if xs.length ≠ ys.length then
        fail (.typeArity (.con f xs) (.con g ys))
      else
        attempt ((xs.zip ys).allM fun p => unifyWithin n p.1 p.2)
    | a, b => fail (.unifiesParam a b)

/-- Unify two types. -/
def unify (a b : Ty) : Engine Bool := do
  let env ← present
  unifyWithin (env.unifyBound a b) a b

/-- Unify two lists of types, position by position. -/
def unifyAll (as bs : List Ty) : Engine Bool :=
  if as.length ≠ bs.length then
    fail (.listArity as bs)
  else
    attempt ((as.zip bs).allM fun p => unify p.1 p.2)

/-- Unify two references: the self types, then the parameters. -/
def unifyReferences (a b : Reference) : Engine Bool :=
  if a.params.length ≠ b.params.length then
    fail (.referenceArity a b)
  else
    attempt do
      if ← unify a.self b.self then
        unifyAll a.params b.params
      else
        pure false

end Engine

end TraitResolution
