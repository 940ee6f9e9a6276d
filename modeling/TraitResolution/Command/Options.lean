import TraitResolution.Command.Fields
import TraitResolution.Log.Record
import TraitResolution.Number.Integer
import TraitResolution.Text.Quoted

/-! # Options of a command

Options may stand before, between and after the other arguments, until an argument `--` ends them. A
long option has its value after an equals sign or in the next argument; a short one also right after
its letter. Switches take a value only after an equals sign, and their letters can be joined.
-/

namespace TraitResolution.Command

/-- The options of a command. The sections to be traced are none until some are given. To watch, to
dump and to ask for help are understood but change nothing in a single run. -/
structure Options where
  logLevel : Log.Level
  trace : Option (List String)
  watch : Bool
  dump : Bool
  help : Bool
deriving DecidableEq

/-- The options in force when none are given. -/
def Options.default : Options := ⟨Log.Level.warn, none, false, false, false⟩

/-- An option. -/
inductive Flag where
  | logLevel
  | trace
  | watch
  | dump
  | help
deriving DecidableEq

namespace Flag

/-- All options. -/
def all : List Flag := [logLevel, trace, watch, dump, help]

/-- The long name of an option. -/
def name : Flag → String
  | logLevel => "log-level"
  | trace => "trace"
  | watch => "watch"
  | dump => "dump"
  | help => "help"

/-- The letter of an option. -/
def letter? : Flag → Option Char
  | logLevel => some 'l'
  | trace => some 't'
  | watch => some 'w'
  | dump => none
  | help => some 'h'

/-- Whether an option needs no value. -/
def isSwitch : Flag → Bool
  | watch | dump | help => true
  | logLevel | trace => false

/-- How an option is called in a message. -/
def title (f : Flag) : String :=
  match f.letter? with
  | some c => "-" ++ String.singleton c ++ ", --" ++ f.name
  | none => "--" ++ f.name

end Flag

/-- Why a value does not suit an option. -/
inductive ValueError where
  | integer (text : String) (error : Number.IntegerError)
  | switch (text : String)
  | fields (error : FieldsError)
deriving DecidableEq

/-- Why arguments cannot be understood. -/
inductive UsageError where
  | malformedOption (arg : String)
  | unknownName (name : String)
  | unknownLetter (letter : Char) (letters : String)
  | missingValue (name : String)
  | missingLetterValue (letter : Char) (letters : String)
  | badValue (flag : Flag) (value : String) (error : ValueError)
  | argumentCount (expected got : Nat)
deriving DecidableEq

/-- Why a value does not suit an option, in words. -/
def ValueError.message : ValueError → String
  | integer text error => "strconv.ParseInt: parsing " ++ Text.quoted text ++ ": " ++ error.text
  | switch text => "strconv.ParseBool: parsing " ++ Text.quoted text ++ ": invalid syntax"
  | fields error => error.message

/-- The message for arguments that cannot be understood. -/
def UsageError.message : UsageError → String
  | malformedOption arg => "bad flag syntax: " ++ arg
  | unknownName name => "unknown flag: --" ++ name
  | unknownLetter letter letters =>
    "unknown shorthand flag: " ++ Text.quotedChar letter ++ " in -" ++ letters
  | missingValue name => "flag needs an argument: --" ++ name
  | missingLetterValue letter letters =>
    "flag needs an argument: " ++ Text.quotedChar letter ++ " in -" ++ letters
  | badValue flag value error =>
    "invalid argument " ++ Text.quoted value ++ " for " ++ Text.quoted flag.title ++ " flag: " ++
      error.message
  | argumentCount expected got =>
    "accepts " ++ toString expected ++ " arg(s), received " ++ toString got

namespace Options

/-- The truth value of a switch. -/
def switchValue? (s : String) : Option Bool :=
  if ["1", "t", "T", "TRUE", "true", "True"].contains s then some true
  else if ["0", "f", "F", "FALSE", "false", "False"].contains s then some false
  else none

/-- Set a switch. -/
def setSwitch (f : Flag) (value : String) (set : Bool → Options) : Except UsageError Options :=
  match switchValue? value with
  | some b => .ok (set b)
  | none => .error (.badValue f value (.switch value))

/-- Give an option a value. Sections to be traced add up. -/
def set (o : Options) (f : Flag) (value : String) : Except UsageError Options :=
  match f with
  | .logLevel =>
    match Number.integer value with
    | .ok n => .ok { o with logLevel := n }
    | .error e => .error (.badValue f value (.integer value e))
  | .trace =>
    match Fields.ofText value with
    | .ok sections => .ok { o with trace := some (o.trace.getD [] ++ sections) }
    | .error e => .error (.badValue f value (.fields e))
  | .watch => setSwitch f value fun b => { o with watch := b }
  | .dump => setSwitch f value fun b => { o with dump := b }
  | .help => setSwitch f value fun b => { o with help := b }

/-- The value of a switch that is given without one. -/
def switchedOn : String := "true"

/-- Read a long option, given without its hyphens, and the arguments after it. -/
def long (o : Options) (arg : List Char) (rest : List String) :
    Except UsageError (Options × List String) := do
  if arg.head?.all fun c => c == '-' || c == '=' then
    throw (.malformedOption ("--" ++ String.ofList arg))
  let name := String.ofList (arg.takeWhile (· != '='))
  match Flag.all.find? (·.name == name), arg.dropWhile (· != '='), rest with
  | none, _, _ => throw (.unknownName name)
  | some f, _ :: value, rest => do
    let o ← o.set f (String.ofList value)
    pure (o, rest)
  | some f, [], rest =>
    if f.isSwitch then
      let o ← o.set f switchedOn
      pure (o, rest)
    else
      match rest with
      | value :: rest =>
        let o ← o.set f value
        pure (o, rest)
      | [] => throw (.missingValue name)

/-- The character that the first byte of a character would be alone. -/
def firstByte (c : Char) : Char :=
  Char.ofNat ((String.singleton c).toUTF8.toList.headD 0).toNat

/-- Read the letters of short options and the arguments after them. -/
def short (o : Options) (rest : List String) :
    List Char → Except UsageError (Options × List String)
  | [] => pure (o, rest)
  | c :: cs => do
    let letters := String.ofList (c :: cs)
    if "test.".isPrefixOf letters then
      pure (o, rest)
    else
      match Flag.all.find? (·.letter? == some c), cs with
      | none, _ => throw (.unknownLetter (firstByte c) letters)
      | some f, '=' :: d :: ds =>
        let o ← o.set f (String.ofList (d :: ds))
        pure (o, rest)
      | some f, cs =>
        if f.isSwitch then
          let o ← o.set f switchedOn
          short o rest cs
        else
          match cs, rest with
          | _ :: _, rest =>
            let o ← o.set f (String.ofList cs)
            pure (o, rest)
          | [], value :: rest =>
            let o ← o.set f value
            pure (o, rest)
          | [], [] => throw (.missingLetterValue c letters)

/-- Read at most the given number of arguments. -/
def parseWithin : Nat → Options → List String → List String →
    Except UsageError (Options × List String)
  | 0, o, others, _ => pure (o, others)
  | _, o, others, [] => pure (o, others)
  | n + 1, o, others, arg :: rest =>
    match arg.toList with
    | ['-', '-'] => pure (o, others ++ rest)
    | '-' :: '-' :: name => do
      let (o, rest) ← long o name rest
      parseWithin n o others rest
    | '-' :: c :: cs => do
      let (o, rest) ← short o rest (c :: cs)
      parseWithin n o others rest
    | _ => parseWithin n o (others ++ [arg]) rest

/-- Read the arguments of a command: its options, and the others. -/
def parse (args : List String) : Except UsageError (Options × List String) :=
  parseWithin args.length .default [] args

end Options

end TraitResolution.Command
