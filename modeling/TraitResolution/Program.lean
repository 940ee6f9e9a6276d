import TraitResolution.Number.Integer
import TraitResolution.Text.Basic
import TraitResolution.Ty

/-! # Traits, impls and programs

A program is a list of traits and a list of impls. Inside a trait the type parameter at position 0
is `Self` and the trait's own parameters follow; inside an impl the positions are those of the
impl's parameters.
-/

namespace TraitResolution

/-- A trait applied to types: `id<params...> for self`. -/
structure Reference where
  id : Text
  self : Ty
  params : List Ty
deriving DecidableEq

namespace Reference

/-- Replace the type parameters of a reference, the self type first. -/
def subst (rs : List Ty) (r : Reference) : Except SubstError Reference := do
  let self ← r.self.subst rs
  let params ← Ty.substAll rs r.params
  pure ⟨r.id, self, params⟩

/-- Put a type in place of every variable of a reference. -/
def replaceVars (f : Var → Ty) (r : Reference) : Reference :=
  ⟨r.id, r.self.replaceVars f, r.params.map (Ty.replaceVars f)⟩

/-- The types of a reference: the self type, then the parameters. -/
def types (r : Reference) : List Ty :=
  r.self :: r.params

/-- The text of a reference, given the text of each type. -/
def text (typeText : Ty → String) (r : Reference) : Text :=
  r.id ++ Ty.bracketed (r.params.map typeText) ++ " for " ++ typeText r.self

end Reference

/-- A method of a trait. Its receiver type is written with the parameters of the trait. -/
structure Method where
  id : Text
  selfType : Ty
deriving DecidableEq

/-- A trait. `fundeps` has one entry for `Self` and one for each type parameter. -/
structure Trait where
  id : Text
  fundeps : List Bool
  methods : List Method
deriving DecidableEq

namespace Trait

/-- The number of type parameters of a trait, `Self` not counted. -/
def arity (t : Trait) : Nat :=
  t.fundeps.length - 1

/-- The first method of a trait with the given name. -/
def method? (t : Trait) (name : Text) : Option Method :=
  t.methods.find? (·.id == name)

end Trait

/-- An impl: for each of its type parameters the bounds on it, and the reference it implements. -/
structure Impl where
  id : Text
  params : List (List Reference)
  trait : Reference
deriving DecidableEq

namespace Impl

/-- The bounds of all parameters in declaration order, with types for the parameters. -/
def boundsWith (rs : List Ty) (impl : Impl) : Except SubstError (List Reference) :=
  impl.params.flatten.mapM (Reference.subst rs)

end Impl

/-- The traits and impls that obligations are resolved against. -/
structure Program where
  traits : List Trait
  impls : List Impl
deriving DecidableEq

namespace Program

/-- The first trait with the given id. -/
def trait? (p : Program) (id : Text) : Option Trait :=
  p.traits.find? (·.id == id)

/-- The impls of the trait with the given id, in declaration order. -/
def implsOf (p : Program) (id : Text) : List Impl :=
  p.impls.filter (·.trait.id == id)

end Program

/-- The limits of a search. -/
structure Config where
  /-- The deepest obligation that is still resolved. -/
  maxDepth : Int
  /-- How many times the receiver of a method call may be dereferenced. -/
  maxAutoderef : Int
deriving DecidableEq

/-- The limits in force when none are given. -/
def Config.default : Config := ⟨4, 8⟩

/-- The demand that some impl satisfies a reference. An obligation that arises from a bound is
named after the one it arises from and lies one deeper. -/
structure Obligation where
  id : Text
  trait : Reference
  depth : Int
deriving DecidableEq

namespace Obligation

/-- An obligation that arises from no other. -/
def topLevel (id : Text) (trait : Reference) : Obligation :=
  ⟨id, trait, 0⟩

/-- The depth one below `depth`. Depths have 64 bits, and the least one follows the greatest. -/
def depthBelow (depth : Int) : Int :=
  if depth + 1 = Number.signedLimit then -Number.signedLimit else depth + 1

/-- The obligation that arises from the bound at position `k` of the chosen impl. -/
def nested (o : Obligation) (k : Nat) (bound : Reference) : Obligation :=
  ⟨o.id ++ "." ++ toString k, bound, depthBelow o.depth⟩

/-- The obligations that arise from the bounds of the chosen impl. -/
def nestedAll (o : Obligation) (bounds : List Reference) : List Obligation :=
  bounds.mapIdx o.nested

end Obligation

end TraitResolution
