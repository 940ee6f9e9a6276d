/-! # Faults in a YAML text

What makes a text unreadable as YAML, and the line that is named for it.
-/

namespace TraitResolution.Yaml

/-- What is wrong with a text. -/
inductive Problem where
  | controlCharacter
  | missingColon
  | tooDeep
  | noToken
  | entryNotAllowed
  | keyNotAllowed
  | valueNotAllowed
  | unknownDirective
  | missingDirectiveName
  | badDirectiveName
  | missingVersion
  | missingVersionDigit
  | longVersion
  | restOfLine
  | missingBlank
  | missingBlankOrBreak
  | missingHandle
  | missingUri
  | missingOctet
  | badLeadingOctet
  | badTrailingOctet
  | missingTagEnd
  | missingAnchorName
  | zeroIndentation
  | tabInBlock
  | tabInPlain
  | markerInQuotes
  | endInQuotes
  | unknownEscape
  | missingHexDigit
  | badEscapedCharacter
  | missingDocumentStart
  | repeatedVersion
  | wrongVersion
  | repeatedHandle
  | unknownHandle
  | missingContent
  | missingEntry
  | missingKey
  | missingCommaInSequence
  | missingCommaInMapping
  | unknownAnchor (name : String)
  | cyclicAnchor (name : String)
  | badMerge
  | excessiveAliasing
  | tagMismatch (found value tag : String)
  | badBase64
  | badKey (shown : String)
deriving DecidableEq

/-- What is wrong, in words. -/
def Problem.text : Problem → String
  | controlCharacter => "control characters are not allowed"
  | missingColon => "could not find expected ':'"
  | tooDeep => "exceeded max depth of 10000"
  | noToken => "found character that cannot start any token"
  | entryNotAllowed => "block sequence entries are not allowed in this context"
  | keyNotAllowed => "mapping keys are not allowed in this context"
  | valueNotAllowed => "mapping values are not allowed in this context"
  | unknownDirective => "found unknown directive name"
  | missingDirectiveName => "could not find expected directive name"
  | badDirectiveName => "found unexpected non-alphabetical character"
  | missingVersion => "did not find expected version number"
  | missingVersionDigit => "did not find expected digit or '.' character"
  | longVersion => "found extremely long version number"
  | restOfLine => "did not find expected comment or line break"
  | missingBlank => "did not find expected whitespace"
  | missingBlankOrBreak => "did not find expected whitespace or line break"
  | missingHandle => "did not find expected '!'"
  | missingUri => "did not find expected tag URI"
  | missingOctet => "did not find URI escaped octet"
  | badLeadingOctet => "found an incorrect leading UTF-8 octet"
  | badTrailingOctet => "found an incorrect trailing UTF-8 octet"
  | missingTagEnd => "did not find the expected '>'"
  | missingAnchorName => "did not find expected alphabetic or numeric character"
  | zeroIndentation => "found an indentation indicator equal to 0"
  | tabInBlock => "found a tab character where an indentation space is expected"
  | tabInPlain => "found a tab character that violates indentation"
  | markerInQuotes => "found unexpected document indicator"
  | endInQuotes => "found unexpected end of stream"
  | unknownEscape => "found unknown escape character"
  | missingHexDigit => "did not find expected hexdecimal number"
  | badEscapedCharacter => "found invalid Unicode character escape code"
  | missingDocumentStart => "did not find expected <document start>"
  | repeatedVersion => "found duplicate %YAML directive"
  | wrongVersion => "found incompatible YAML document"
  | repeatedHandle => "found duplicate %TAG directive"
  | unknownHandle => "found undefined tag handle"
  | missingContent => "did not find expected node content"
  | missingEntry => "did not find expected '-' indicator"
  | missingKey => "did not find expected key"
  | missingCommaInSequence => "did not find expected ',' or ']'"
  | missingCommaInMapping => "did not find expected ',' or '\x7d'"
  | unknownAnchor name => "unknown anchor '" ++ name ++ "' referenced"
  | cyclicAnchor name => "anchor '" ++ name ++ "' value contains itself"
  | badMerge => "map merge requires map or sequence of maps as the value"
  | excessiveAliasing => "document contains excessive aliasing"
  | tagMismatch found value tag => "cannot decode " ++ found ++ " `" ++ value ++ "` as a " ++ tag
  | badBase64 => "!!binary value contains invalid base64 data"
  | badKey shown => "invalid map key: " ++ shown

/-- A problem, and the number of the line that is named for it. No line is named for number 0. -/
structure Fault where
  problem : Problem
  line : Nat
deriving DecidableEq

namespace Fault

/-- A problem that is not tied to a line. -/
def anywhere (problem : Problem) : Fault := ⟨problem, 0⟩

/-- A problem within a token that begins in the line with the index `context`, noticed in the line
with the index `here`. The first of these lines that is not the very first of the text is named, by
its number. -/
def inToken (problem : Problem) (context here : Nat) : Fault :=
  let line := if context = 0 then here else context
  ⟨problem, if line = 0 then 0 else line + 1⟩

/-- A problem in the arrangement of tokens. The lines are chosen as for a token, but the index of
the line is named. -/
def betweenTokens (problem : Problem) (context here : Nat) : Fault :=
  ⟨problem, if context = 0 then here else context⟩

/-- The message for a fault. -/
def message (f : Fault) : String :=
  "yaml: " ++ (if f.line = 0 then "" else "line " ++ toString f.line ++ ": ") ++ f.problem.text

end Fault

end TraitResolution.Yaml
