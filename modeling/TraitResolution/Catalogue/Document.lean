import TraitResolution.Program

/-! # Documents

A document declares traits and impls, and asks for obligations and method calls to be resolved. Its
types and trait references are texts that have not been read yet. A list that is absent differs from
an empty one.
-/

namespace TraitResolution.Catalogue

/-- The signature of a trait's method. -/
structure MethodEntry where
  id : Text
  self : Text
deriving DecidableEq

/-- The declaration of a trait. -/
structure TraitEntry where
  id : Text
  params : Option (List Text)
  fundeps : Option (List Bool)
  methods : Option (List MethodEntry)
deriving DecidableEq

/-- A type parameter of an impl. Its bounds are references without the part from `for` on. -/
structure ParamEntry where
  name : Text
  bounds : Option (List Text)
deriving DecidableEq

/-- The declaration of an impl. -/
structure ImplEntry where
  id : Text
  params : Option (List ParamEntry)
  trait : Text
deriving DecidableEq

/-- An obligation to be resolved. -/
structure ObligationEntry where
  id : Text
  trait : Text
deriving DecidableEq

/-- A method call to be resolved. -/
structure QueryEntry where
  id : Text
  receiver : Text
  method : Text
  traits : Option (List Text)
deriving DecidableEq

/-- What running a document should yield. -/
structure Expectations where
  confirmed : Option (List Text)
  deferred : Option (List Text)
  overflow : Option (List Text)
  noImpl : Option (List Text)
  conflicts : Option (List (List Text))
  methods : Option (List Text)
deriving DecidableEq

/-- A document. -/
structure Document where
  version : Text
  config : Option Config
  traits : Option (List TraitEntry)
  impls : Option (List ImplEntry)
  obligations : Option (List ObligationEntry)
  methods : Option (List QueryEntry)
  expect : Option Expectations
deriving DecidableEq

/-- A trait that says nothing. -/
def TraitEntry.blank : TraitEntry := ⟨"", none, none, none⟩

/-- A method that says nothing. -/
def MethodEntry.blank : MethodEntry := ⟨"", ""⟩

/-- A parameter that says nothing. -/
def ParamEntry.blank : ParamEntry := ⟨"", none⟩

/-- An impl that says nothing. -/
def ImplEntry.blank : ImplEntry := ⟨"", none, ""⟩

/-- An obligation that says nothing. -/
def ObligationEntry.blank : ObligationEntry := ⟨"", ""⟩

/-- A method call that says nothing. -/
def QueryEntry.blank : QueryEntry := ⟨"", "", "", none⟩

/-- Expectations that say nothing. -/
def Expectations.blank : Expectations := ⟨none, none, none, none, none, none⟩

/-- A document that says nothing, with the given limits. -/
def Document.blank (config : Option Config) : Document :=
  ⟨"", config, none, none, none, none, none⟩

end TraitResolution.Catalogue
