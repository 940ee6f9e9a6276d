import TraitResolution.Log.Record

/-! # Loggers

A logger carries attributes and groups that it adds to every record. Records below the level of a
warning are written only if they belong to a section that is enabled.
-/

namespace TraitResolution.Log

/-- What is written: records of at least a level, and below warnings only those of sections whose
name starts with one of the given texts. -/
structure Filter where
  level : Level
  sections : List Text
deriving DecidableEq

namespace Filter

/-- Only warnings and errors. -/
def initial : Filter := ⟨Level.warn, []⟩

/-- Whether a section is enabled. -/
def enables (f : Filter) (name : Text) : Bool :=
  f.sections.any fun start => start.bytes.isPrefixOf name.bytes

end Filter

/-- A logger: the open groups, the text of the attributes it adds, and the sections it belongs
to. -/
structure Logger where
  groups : List Text
  attrs : Text
  sections : List Text
deriving DecidableEq

namespace Logger

/-- A logger that adds nothing. -/
def root : Logger := ⟨[], "", []⟩

/-- The sections that some attributes name. -/
def sectionsOf (attrs : List Attr) : List Text :=
  (attrs.filter fun (a : Attr) => a.key = "section").map (·.value)

/-- Add attributes, inside the open groups. -/
def withAttrs (l : Logger) (attrs : List Attr) : Logger :=
  { l with
    attrs := l.attrs ++ attrsText l.groups attrs
    sections := l.sections ++ sectionsOf attrs }

/-- Open a group. An empty name opens none. -/
def withGroup (l : Logger) (name : Text) : Logger :=
  if name.isEmpty then l else { l with groups := l.groups ++ [name] }

/-- A logger for a section. -/
def forSection (name : Text) : Logger :=
  root.withAttrs [⟨"section", name⟩]

/-- Whether a record is written. -/
def writes (l : Logger) (f : Filter) (r : Record) : Bool :=
  f.level ≤ r.level &&
    (Level.warn ≤ r.level || (l.sections ++ sectionsOf r.attrs).any f.enables)

/-- The line of a record. -/
def line (l : Logger) (r : Record) : Text :=
  "level=" ++ word r.level.name ++ " msg=" ++ word r.message ++ l.attrs ++
    attrsText l.groups r.attrs

/-- The line of a record, if it is written. -/
def line? (l : Logger) (f : Filter) (r : Record) : Option Text :=
  if l.writes f r then some (l.line r) else none

end Logger

end TraitResolution.Log
