import TraitResolution.Catalogue.Document
import TraitResolution.Event

/-! # Catalogues

A catalogue is a program together with obligations and method calls to be resolved against it. Its
inference variables have names, and the position of a name is the index of its variable.
-/

namespace TraitResolution

namespace Catalogue

/-- A method call to be resolved, with the traits in scope. -/
structure Query where
  id : Text
  receiver : Ty
  method : Text
  traits : List Trait
deriving DecidableEq

end Catalogue

/-- A program with the questions asked of it. -/
structure Catalogue where
  config : Config
  program : Program
  obligations : List Obligation
  queries : List Catalogue.Query
  /-- The names of the inference variables. -/
  vars : List String
  expect : Option Catalogue.Expectations
deriving DecidableEq

/-- The text of a method call. -/
def Env.queryText (env : Env) (q : Catalogue.Query) : Text :=
  q.id ++ ": " ++ env.text (env.resolve q.receiver) ++ "." ++ q.method ++ "()"

namespace Catalogue

/-- The environment in which the inference variables exist and nothing is bound. -/
def env (c : Catalogue) : Env :=
  ⟨c.vars.length, []⟩

/-- The inference variables with their names, sorted by name. -/
def namedVars (c : Catalogue) : List (String × Ty) :=
  (c.vars.mapIdx fun i name => (name, Ty.var ⟨i, 0⟩)).mergeSort fun a b => a.1 ≤ b.1

/-- The report that a catalogue is ready. -/
def compiled (c : Catalogue) : Occurrence :=
  ⟨.compiled c.program.traits.length c.program.impls.length c.obligations.length c.queries.length
    c.vars.length, c.env⟩

/-- The report that a catalogue was read from a file. -/
def loaded (c : Catalogue) (path : String) : Occurrence :=
  ⟨.loaded path c.obligations.length c.queries.length, c.env⟩

end Catalogue

end TraitResolution
