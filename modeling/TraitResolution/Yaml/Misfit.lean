import TraitResolution.Text.Quoted

/-! # What does not fit

Parts of a document that are not what they should be, and how they are reported.
-/

namespace TraitResolution.Yaml

/-- Something in a document that does not fit. -/
inductive Misfit where
  | wrongType (line : Nat) (tag : Text) (text type : String)
  | unknownField (line : Nat) (name : Text) (type : String)
  | fieldSetTwice (line : Nat) (name : Text) (type : String)
  | repeatedKey (line : Nat) (key : String) (firstLine : Nat)
deriving DecidableEq

namespace Misfit

/-- A text as it is shown: up to ten bytes of it, or seven bytes and dots. -/
def excerpt (s : String) : Text :=
  let bytes := (Text.ofString s).bytes
  if 10 < bytes.length then Text.ofBytes (bytes.take 7) ++ "..." else s

/-- A value as it is shown after its tag. What is tagged as a collection stands there as it is. -/
def valueText (tag : Text) (value : String) : Text :=
  if tag = "!!seq" ∨ tag = "!!map" then value else " `" ++ excerpt value ++ "`"

/-- What does not fit, in words. -/
def text : Misfit → Text
  | wrongType line tag value type =>
    "line " ++ toString line ++ ": cannot unmarshal " ++ tag ++ valueText tag value ++ " into " ++
      type
  | unknownField line name type =>
    "line " ++ toString line ++ ": field " ++ name ++ " not found in type " ++ type
  | fieldSetTwice line name type =>
    "line " ++ toString line ++ ": field " ++ name ++ " already set in type " ++ type
  | repeatedKey line key firstLine =>
    "line " ++ toString line ++ ": mapping key " ++ Text.quoted key ++
      " already defined at line " ++ toString firstLine

end Misfit

end TraitResolution.Yaml
