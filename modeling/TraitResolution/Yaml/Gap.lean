import TraitResolution.Yaml.Cursor

/-! # Blanks and line breaks inside a scalar

Where a scalar goes over several lines, a single break becomes a blank, and of several breaks the
first is left out. Blanks around breaks are dropped.
-/

namespace TraitResolution.Yaml

/-- What lies between two words of a scalar: blanks, or a first break and further breaks. -/
structure Gap where
  blanks : List Char
  first : List Char
  more : List Char
  broken : Bool

namespace Gap

/-- Nothing. -/
def none : Gap := ⟨[], [], [], false⟩

/-- Nothing but an escaped line break, which leaves no trace. -/
def escaped : Gap := ⟨[], [], [], true⟩

/-- What a gap becomes in the text of the scalar. -/
def joined (g : Gap) : List Char :=
  if g.broken then
    if g.first = ['\n'] then (if g.more.isEmpty then [' '] else g.more) else g.first ++ g.more
  else
    g.blanks

/-- A gap with one more line break. -/
def withBreak (g : Gap) (b : List Char) : Gap :=
  if g.broken then { g with more := g.more ++ b } else ⟨[], b, [], true⟩

/-- A gap with one more blank. -/
def withBlank (g : Gap) (c : Char) : Gap :=
  if g.broken then g else { g with blanks := g.blanks ++ [c] }

/-- Read blanks and breaks after the ones read before. In a new line a tab may not stand left of
the given column. -/
def readWithin (start : Mark) (column : Int) : Nat → Gap → Reading Gap
  | 0, g => pure g
  | n + 1, g => do
    let here ← Reading.place
    match ← Reading.peek with
    | Option.none => pure g
    | some c =>
      if isBlank c then
        if g.broken && (here.column : Int) < column && c == '\t' then
          Reading.fail start .tabInPlain
        else
          Reading.skip
          Reading.need 1
          readWithin start column n (g.withBlank c)
      else if isBreak c then
        let b ← Reading.lineBreak
        Reading.need 1
        readWithin start column n (g.withBreak b)
      else
        pure g

/-- Read all blanks and breaks after the ones read before. -/
def read (start : Mark) (column : Int) (g : Gap) : Reading Gap := do
  readWithin start column (← Reading.bound) g

end Gap

end TraitResolution.Yaml
