import TraitResolution.Resolution

/-! # Receivers of method calls

A method call may reach its receiver through dereferences and may borrow what it reaches. A place
is the receiver as written or what a dereference of a place yields; an adjusted receiver is a place
together with how it is borrowed.
-/

namespace TraitResolution

/-- A shared reference to a type. -/
def Ty.sharedRef (t : Ty) : Ty := .con "Ref" [t]

/-- A mutable reference to a type. -/
def Ty.mutRef (t : Ty) : Ty := .con "RefMut" [t]

/-- The two ways to dereference. -/
inductive DerefKind where
  | shared
  | mutable
deriving DecidableEq

namespace DerefKind

/-- The trait that provides a dereference: its one parameter is the type reached. -/
def trait : DerefKind → Trait
  | shared => ⟨"Deref", [false, true], [⟨"deref", (Ty.param 0).sharedRef⟩]⟩
  | mutable => ⟨"DerefMut", [false, true], [⟨"deref_mut", (Ty.param 0).mutRef⟩]⟩

end DerefKind

/-- The traits that every catalogue declares without saying so. -/
def builtinTraits : List Trait :=
  [DerefKind.shared.trait, DerefKind.mutable.trait]

/-- What a method call reaches by dereferencing its receiver. -/
inductive Place where
  /-- The receiver as written. -/
  | receiver (type : Ty)
  /-- What a dereference yields, with the resolution that shows that it is possible. -/
  | deref (kind : DerefKind) (input : Place) (target : Ty) (evidence : Resolution)
deriving DecidableEq

namespace Place

/-- The type of a place. -/
def type : Place → Ty
  | receiver t => t
  | deref _ _ target _ => target

/-- The reference that a dereference rests on. -/
def derefRef (kind : DerefKind) (input : Place) (target : Ty) : Reference :=
  ⟨kind.trait.id, input.type, [target]⟩

/-- The number of dereferences. -/
def derefs : Place → Nat
  | receiver _ => 0
  | deref _ input _ _ => input.derefs + 1

/-- The dereferences with their evidence, the last one first. -/
def layers : Place → List (Reference × Resolution)
  | receiver _ => []
  | deref kind input target evidence => (derefRef kind input target, evidence) :: input.layers

/-- The place itself and the places it was reached from, the receiver last. -/
def chain : Place → List Place
  | receiver t => [receiver t]
  | deref kind input target evidence => deref kind input target evidence :: input.chain

end Place

/-- How a method call takes a place. -/
inductive Borrow where
  | byValue
  | shared
  | mutable
deriving DecidableEq

/-- A receiver with the adjustments made to it. -/
structure Adjusted where
  place : Place
  borrow : Borrow
deriving DecidableEq

/-- The type of an adjusted receiver. -/
def Adjusted.type (a : Adjusted) : Ty :=
  match a.borrow with
  | .byValue => a.place.type
  | .shared => a.place.type.sharedRef
  | .mutable => a.place.type.mutRef

namespace Env

/-- The text of a place: the dereferences around the resolved type of the receiver. -/
def placeText (env : Env) : Place → Text
  | .receiver t => env.text (env.resolve t)
  | .deref kind input _ _ => kind.trait.id ++ "(" ++ env.placeText input ++ ")"

/-- The text of an adjusted receiver. -/
def adjustedText (env : Env) (a : Adjusted) : Text :=
  match a.borrow with
  | .byValue => env.placeText a.place
  | .shared => "&(" ++ env.placeText a.place ++ ")"
  | .mutable => "&mut(" ++ env.placeText a.place ++ ")"

end Env

end TraitResolution
