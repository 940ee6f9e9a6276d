/-! # Fields between commas

The first line of a text that is not empty holds fields between commas. A field that begins with a
double quote goes on to the closing quote, over commas and line breaks; inside it a quote is written
twice. No other field may hold a quote.
-/

namespace TraitResolution.Command

/-- What is wrong with a list of fields. -/
inductive FieldsProblem where
  | bareQuote
  | badQuote
deriving DecidableEq

/-- A place, counted from 1. Columns count bytes. -/
structure Position where
  line : Nat
  column : Nat
deriving DecidableEq

/-- The place after a character that the rest of the text follows. A break at the very end begins
no line. -/
def Position.after (p : Position) (c : Char) (rest : List Char) : Position :=
  if c = '\n' ∧ !rest.isEmpty then ⟨p.line + 1, 1⟩ else ⟨p.line, p.column + c.utf8Size⟩

/-- Why a text is no list of fields. -/
inductive FieldsError where
  | noFields
  | problem (startLine : Nat) (position : Position) (what : FieldsProblem)
deriving DecidableEq

/-- What is wrong, in words. -/
def FieldsProblem.text : FieldsProblem → String
  | bareQuote => "bare \x22 in non-quoted-field"
  | badQuote => "extraneous or missing \x22 in quoted-field"

/-- The message for a text that is no list of fields. -/
def FieldsError.message : FieldsError → String
  | noFields => "EOF"
  | problem startLine p what =>
    (if startLine = p.line then "" else "record on line " ++ toString startLine ++ "; ") ++
      "parse error on line " ++ toString p.line ++ ", column " ++ toString p.column ++ ": " ++
      what.text

namespace Fields

/-- Make all line breaks the same. A carriage return at the very end is dropped. -/
def sameBreaks : List Char → List Char
  | '\r' :: '\n' :: cs => '\n' :: sameBreaks cs
  | ['\r'] => []
  | c :: cs => c :: sameBreaks cs
  | [] => []

/-- What is being read: the start of a field, a field, a field in quotes, or what follows a quote
in such a field. -/
inductive Mode where
  | start
  | bare (field : String)
  | quoted (field : String)
  | afterQuote (field : String)

/-- The fields that were read, after one more. -/
def finish (fields : List String) (field : String) : Except FieldsError (List String) :=
  .ok (fields ++ [field])

/-- Read fields after the ones read before. -/
def read (startLine : Nat) (fields : List String) (mode : Mode) (p : Position) :
    List Char → Except FieldsError (List String)
  | [] =>
    match mode with
    | .start => finish fields ""
    | .bare field | .afterQuote field => finish fields field
    | .quoted _ => .error (.problem startLine p .badQuote)
  | c :: cs =>
    let next := p.after c cs
    match mode with
    | .start =>
      if c = '\x22' then read startLine fields (.quoted "") next cs
      else if c = ',' then read startLine (fields ++ [""]) .start next cs
      else if c = '\n' then finish fields ""
      else read startLine fields (.bare (String.singleton c)) next cs
    | .bare field =>
      if c = '\x22' then .error (.problem startLine p .bareQuote)
      else if c = ',' then read startLine (fields ++ [field]) .start next cs
      else if c = '\n' then finish fields field
      else read startLine fields (.bare (field.push c)) next cs
    | .quoted field =>
      if c = '\x22' then read startLine fields (.afterQuote field) next cs
      else read startLine fields (.quoted (field.push c)) next cs
    | .afterQuote field =>
      if c = '\x22' then read startLine fields (.quoted (field.push '\x22')) next cs
      else if c = ',' then read startLine (fields ++ [field]) .start next cs
      else if c = '\n' then finish fields field
      else .error (.problem startLine ⟨p.line, p.column - 1⟩ .badQuote)

/-- The fields of a text. An empty text has none. -/
def ofText (s : String) : Except FieldsError (List String) :=
  if s.isEmpty then .ok []
  else
    let cs := sameBreaks s.toList
    let empty := cs.takeWhile (· == '\n')
    let line := empty.length + 1
    match cs.drop empty.length with
    | [] => .error .noFields
    | cs => read line [] .start ⟨line, 1⟩ cs

end Fields

end TraitResolution.Command
