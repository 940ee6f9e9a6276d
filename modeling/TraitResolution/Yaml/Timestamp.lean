/-! # Timestamps

A timestamp is a year of four digits, a month and a day with hyphens between, and possibly a time. A
time after `T` or `t` has a zone, and a time after blanks has none.
-/

namespace TraitResolution.Yaml

/-- Where the time of a timestamp holds. -/
inductive Zone where
  | universal
  | offset (negative : Bool) (hours minutes : Nat)
deriving DecidableEq

/-- A date and a time of the day, with a fraction of a second in billionths. -/
structure Timestamp where
  year : Nat
  month : Nat
  day : Nat
  hour : Nat
  minute : Nat
  second : Nat
  fraction : Nat
  zone : Zone
deriving DecidableEq

namespace Timestamp

/-- A step of reading. -/
abbrev Reader := StateT (List Char) Option

/-- Read a given character. -/
def symbol (c : Char) : Reader Unit := do
  match ← get with
  | d :: rest => if d = c then set rest else failure
  | [] => failure

/-- The value of a digit. -/
def digit (c : Char) : Nat := c.toNat - '0'.toNat

/-- Read a number of one or two digits. -/
def short : Reader Nat := do
  match ← get with
  | a :: b :: rest =>
    if !a.isDigit then failure
    else if b.isDigit then
      set rest
      pure (10 * digit a + digit b)
    else
      set (b :: rest)
      pure (digit a)
  | [a] =>
    if a.isDigit then
      set ([] : List Char)
      pure (digit a)
    else
      failure
  | [] => failure

/-- Read a number of exactly two digits. -/
def pair : Reader Nat := do
  match ← get with
  | a :: b :: rest =>
    if a.isDigit && b.isDigit then
      set rest
      pure (10 * digit a + digit b)
    else
      failure
  | _ => failure

/-- Read a number of one or two digits that is below a bound. -/
def below (bound : Nat) : Reader Nat := do
  let n ← short
  guard (n < bound)
  pure n

/-- Read a year. -/
def readYear : Reader Nat := do
  let a ← pair
  let b ← pair
  pure (100 * a + b)

/-- Whether a year has a leap day. -/
def isLeap (y : Nat) : Bool :=
  y % 4 == 0 && (y % 100 != 0 || y % 400 == 0)

/-- The number of days of a month. -/
def daysIn (y m : Nat) : Nat :=
  if m = 2 then (if isLeap y then 29 else 28)
  else if m = 4 ∨ m = 6 ∨ m = 9 ∨ m = 11 then 30
  else 31

/-- Read a date, which is a timestamp at its midnight. -/
def date : Reader Timestamp := do
  let y ← readYear
  symbol '-'
  let m ← short
  guard (1 ≤ m ∧ m ≤ 12)
  symbol '-'
  let d ← short
  guard (1 ≤ d ∧ d ≤ daysIn y m)
  pure ⟨y, m, d, 0, 0, 0, 0, .universal⟩

/-- The billionths that the digits after a point are. Digits beyond the ninth do not count. -/
def billionths (ds : List Char) : Nat :=
  let kept := ds.take 9
  (kept ++ List.replicate (9 - kept.length) '0').foldl (fun n c => 10 * n + digit c) 0

/-- Read the fraction of a second, if there is one. -/
def readFraction : Reader Nat := do
  match ← get with
  | mark :: d :: rest =>
    if (mark = '.' ∨ mark = ',') ∧ d.isDigit then
      set (rest.dropWhile Char.isDigit)
      pure (billionths (d :: rest.takeWhile Char.isDigit))
    else
      pure 0
  | _ => pure 0

/-- Read a time of the day on a date. -/
def time (t : Timestamp) : Reader Timestamp := do
  let hour ← below 24
  symbol ':'
  let minute ← below 60
  symbol ':'
  let second ← below 60
  let fraction ← readFraction
  pure { t with hour := hour, minute := minute, second := second, fraction := fraction }

/-- Read a zone: a `Z`, or a difference of hours and minutes. -/
def readZone (t : Timestamp) : Reader Timestamp := do
  match ← get with
  | 'Z' :: rest =>
    set rest
    pure t
  | sign :: rest =>
    if sign = '+' ∨ sign = '-' then
      set rest
      let h ← pair
      symbol ':'
      let m ← pair
      guard (h ≤ 24 ∧ m ≤ 60)
      pure { t with zone := .offset (sign == '-') h m }
    else
      failure
  | [] => failure

/-- Read blanks. -/
def blanks : Reader Unit := do
  symbol ' '
  modify fun cs => cs.dropWhile (· == ' ')

/-- A timestamp with a time and a zone after a mark. -/
def zoned (mark : Char) : Reader Timestamp := do
  let t ← date
  symbol mark
  let t ← time t
  readZone t

/-- A timestamp with a time after blanks. -/
def spaced : Reader Timestamp := do
  let t ← date
  blanks
  time t

/-- What a reader finds that takes all of a text. -/
def whole? (r : Reader Timestamp) (cs : List Char) : Option Timestamp :=
  match r.run cs with
  | some (t, []) => some t
  | _ => none

/-- The timestamp that a text is. -/
def ofString? (s : String) : Option Timestamp :=
  let cs := s.toList
  if (cs.takeWhile Char.isDigit).length = 4 ∧ cs[4]? = some '-' then
    (whole? (zoned 'T') cs).or ((whole? (zoned 't') cs).or
      ((whole? spaced cs).or (whole? date cs)))
  else
    none

/-- The name of a month. -/
def monthName (m : Nat) : String :=
  ["January", "February", "March", "April", "May", "June", "July", "August", "September",
    "October", "November", "December"].getD (m - 1) ""

/-- A zone as it is shown. A difference of nothing is that of the place where one is. -/
def zoneText : Zone → String
  | .universal => "time.UTC"
  | .offset _ 0 0 => "time.Local"
  | .offset _ _ _ => "time.Location(\"\")"

/-- A timestamp as it is shown. -/
def shown (t : Timestamp) : String :=
  "time.Date(" ++ ", ".intercalate [toString t.year, "time." ++ monthName t.month, toString t.day,
    toString t.hour, toString t.minute, toString t.second, toString t.fraction,
    zoneText t.zone] ++ ")"

end Timestamp

end TraitResolution.Yaml
