import TraitResolution.Number.Integer
import TraitResolution.Text.Quoted

/-! # Versions of the document format

A version is up to three numbers, then optionally labels for a prerelease after a hyphen and for the
build after a plus sign. Missing numbers are zero. Numbers have 64 bits.
-/

namespace TraitResolution.Catalogue

/-- A version. -/
structure Version where
  major : Nat
  minor : Nat
  patch : Nat
  prerelease : String
  build : String
deriving DecidableEq

/-- Why a text is no version. -/
inductive VersionError where
  | malformed
  | numberTooLarge (digits : String)
  | leadingZero
deriving DecidableEq

/-- What is wrong, in words. -/
def VersionError.text : VersionError → String
  | malformed => "Invalid Semantic Version"
  | numberTooLarge digits =>
    "Error parsing version segment: strconv.ParseUint: parsing " ++ Text.quoted digits ++
      ": value out of range"
  | leadingZero => "Version segment starts with 0"

namespace Version

/-- Split off the longest run of characters that pass a test. -/
def run (p : Char → Bool) (cs : List Char) : List Char × List Char :=
  (cs.takeWhile p, cs.dropWhile p)

/-- Whether a character may stand in a label. -/
def isLabelChar (c : Char) : Bool :=
  c.isAlphanum || c == '-' || c == '.'

/-- The digits of a further number after a dot, and what follows them. Without a dot there are
none. -/
def nextNumber (cs : List Char) : Except VersionError (List Char × List Char) :=
  match cs with
  | '.' :: rest =>
    let (digits, rest) := run Char.isDigit rest
    if digits.isEmpty then .error .malformed else .ok (digits, rest)
  | _ => .ok ([], cs)

/-- Labels between dots, after the given mark. Without the mark there are none. -/
def labels (mark : Char) (cs : List Char) : Except VersionError (String × List Char) :=
  match cs with
  | c :: rest =>
    if c = mark then
      let (label, rest) := run isLabelChar rest
      if (label.splitOn '.').any List.isEmpty then .error .malformed
      else .ok (String.ofList label, rest)
    else
      .ok ("", cs)
  | [] => .ok ("", cs)

/-- The value of decimal digits. -/
def value (digits : List Char) : Nat :=
  digits.foldl (fun n c => 10 * n + (c.toNat - '0'.toNat)) 0

/-- The value of decimal digits, if it has at most 64 bits. -/
def number (digits : List Char) : Except VersionError Nat :=
  let n := value digits
  if n < Number.unsignedLimit then .ok n else .error (.numberTooLarge (String.ofList digits))

/-- Whether a label is a number with a zero in front. -/
def hasLeadingZero (label : List Char) : Bool :=
  match label with
  | '0' :: _ :: _ => label.all Char.isDigit
  | _ => false

/-- Read the characters of a version. -/
def ofChars (cs : List Char) : Except VersionError Version := do
  let cs := match cs with
    | 'v' :: rest => rest
    | cs => cs
  let (major, cs) := run Char.isDigit cs
  if major.isEmpty then throw .malformed
  let (minor, cs) ← nextNumber cs
  let (patch, cs) ← nextNumber cs
  let (prerelease, cs) ← labels '-' cs
  let (build, cs) ← labels '+' cs
  if !cs.isEmpty then throw .malformed
  let version : Version := ⟨← number major, ← number minor, ← number patch, prerelease, build⟩
  if (prerelease.toList.splitOn '.').any hasLeadingZero then throw .leadingZero
  pure version

/-- Read a version. -/
def parse (t : Text) : Except VersionError Version :=
  match Text.chars? t.glyphs with
  | some cs => ofChars cs
  | none => .error .malformed

/-- The text of a version, with all three numbers. -/
def text (v : Version) : String :=
  toString v.major ++ "." ++ toString v.minor ++ "." ++ toString v.patch ++
    (if v.prerelease.isEmpty then "" else "-" ++ v.prerelease) ++
    (if v.build.isEmpty then "" else "+" ++ v.build)

/-- The range of versions that are understood. -/
def supportedRange : String := "^1.0"

/-- Whether a version is understood: it is a release whose first number is one. -/
def supported (v : Version) : Bool :=
  v.major == 1 && v.prerelease.isEmpty

end Version

end TraitResolution.Catalogue
