import TraitResolution.Text.Quoted

/-! # Log records

A record has a level, a message and attributes, and is written as one line of `key=value` pairs.
Attributes named `time` are never written.
-/

namespace TraitResolution.Log

/-- A level of importance. -/
abbrev Level := Int

namespace Level

/-- The level of reports that are shown only on demand. -/
def debug : Level := -4

/-- The level of ordinary reports. -/
def info : Level := 0

/-- The level of warnings. -/
def warn : Level := 4

/-- The level of errors. -/
def error : Level := 8

/-- The name of a base level, with the distance from it if there is one. -/
def relativeTo (name : String) (base level : Level) : String :=
  let distance := level - base
  if distance = 0 then name
  else if distance < 0 then name ++ toString distance
  else name ++ "+" ++ toString distance

/-- The name of a level: the greatest named level not above it, or the least one. -/
def name (level : Level) : String :=
  if level < info then relativeTo "DEBUG" debug level
  else if level < warn then relativeTo "INFO" info level
  else if level < error then relativeTo "WARN" warn level
  else relativeTo "ERROR" error level

end Level

/-- A named value of a record. -/
structure Attr where
  key : Text
  value : Text
deriving DecidableEq

/-- Whether a character may stand in a value without quotes: it is printable and neither a blank,
an equals sign nor a double quote. The character that replaces unreadable text may not, and the
delete character may. -/
def plainChar (c : Char) : Bool :=
  if c.toNat < 0x80 then 0x20 < c.toNat && c != '=' && c != '\x22'
  else Text.isPrintable c && c.toNat != 0xFFFD

/-- Whether a glyph may stand in a value without quotes. -/
def plainGlyph : Glyph → Bool
  | .char c => plainChar c
  | .stray _ => false

/-- Whether a text can be written without quotes: it is not empty and all its glyphs may stand
there. -/
def isPlain (t : Text) : Bool :=
  !t.isEmpty && t.glyphs.all plainGlyph

/-- A value as it is written. -/
def word (t : Text) : Text :=
  if isPlain t then t else Text.quoted t

/-- The groups that a key stands in, each with a dot after it. -/
def groupText (groups : List Text) : Text :=
  Text.join (groups.map (· ++ "."))

/-- A key in the given groups as it is written. The groups and the key are looked at apart, and
both are quoted if one needs it. -/
def keyText (groups : List Text) (key : Text) : Text :=
  let start := groupText groups
  if isPlain key && (start.isEmpty || isPlain start) then start ++ key
  else Text.quoted (start ++ key)

/-- The text of an attribute whose key stands in the given groups, or nothing for a time. -/
def attrText (groups : List Text) (a : Attr) : Text :=
  if a.key = "time" then ""
  else " " ++ keyText groups a.key ++ "=" ++ word a.value

/-- The text of several attributes in the same groups. -/
def attrsText (groups : List Text) (attrs : List Attr) : Text :=
  Text.join (attrs.map (attrText groups))

/-- A message with its level and attributes. -/
structure Record where
  level : Level
  message : Text
  attrs : List Attr
deriving DecidableEq

end TraitResolution.Log
