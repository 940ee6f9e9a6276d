/-! # Files

A flat directory of text files, and what goes wrong when a file is read. Of what lies outside the
directory nothing is known but that directories lie around it.
-/

namespace TraitResolution.Command

/-- Why a file cannot be read. -/
inductive FileError where
  | missing
  | notADirectory
  | isADirectory
  | badName
  | nameTooLong
  | other (text : String)
deriving DecidableEq

/-- The message for a path that cannot be read. -/
def FileError.message (path : String) : FileError → String
  | missing => "open " ++ path ++ ": no such file or directory"
  | notADirectory => "open " ++ path ++ ": not a directory"
  | isADirectory => "read " ++ path ++ ": is a directory"
  | badName => "open " ++ path ++ ": invalid argument"
  | nameTooLong => "open " ++ path ++ ": file name too long"
  | other text => "open " ++ path ++ ": " ++ text

/-- The files of a directory by name. -/
abbrev Directory := List (String × String)

namespace Directory

/-- The greatest number of bytes in a name. -/
def maxName : Nat := 255

/-- The number of bytes that a path must not reach. -/
def pathLimit : Nat := 4096

/-- What is known of a path that goes on outside the directory, by its parts between slashes. -/
def outside : List String → FileError
  | [] => .isADirectory
  | part :: rest =>
    if part.isEmpty ∨ part = "." ∨ part = ".." then outside rest
    else if maxName < part.utf8ByteSize then .nameTooLong
    else .missing

/-- Read a file by the parts of its path between slashes. Before the name of a file, empty parts and
single dots stay in the directory, and two dots leave it; nothing may come after it. -/
def readParts (d : Directory) : List String → Except FileError String
  | [] => .error .isADirectory
  | part :: rest =>
    if part.isEmpty ∨ part = "." then d.readParts rest
    else if part = ".." then .error (outside rest)
    else if maxName < part.utf8ByteSize then .error .nameTooLong
    else
      match d.lookup part with
      | none => .error .missing
      | some text => if rest.isEmpty then .ok text else .error .notADirectory

/-- Read the file at a path. -/
def read (d : Directory) (path : String) : Except FileError String :=
  let parts := (path.toList.splitOn '/').map String.ofList
  if path.contains '\x00' then .error .badName
  else if path.isEmpty then .error .missing
  else if pathLimit ≤ path.utf8ByteSize then .error .nameTooLong
  else if path.startsWith "/" then .error (outside parts)
  else d.readParts parts

end Directory

end TraitResolution.Command
