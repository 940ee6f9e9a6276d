import TraitResolution.Catalogue.Compilation
import TraitResolution.Catalogue.Expectation
import TraitResolution.Catalogue.Source
import TraitResolution.Command.Files
import TraitResolution.Command.Options
import TraitResolution.Log.Trace

/-! # Commands

A command reads a catalogue from a file, runs it and prints the part of the report that it is about.
-/

namespace TraitResolution

namespace Command

/-- Why a command fails. -/
inductive Failure where
  | usage (e : UsageError)
  | unreadable (path : String) (e : FileError)
  | badDocument (path : String) (e : Catalogue.ReadError)
  | badCatalogue (path : String) (e : Catalogue.CompileError)
  | run (e : Catalogue.RunError)
  | conflicts (count : Nat)
  | noExpectations
  | mismatches (count : Nat)
deriving DecidableEq

/-- The message for a failure. -/
def Failure.message : Failure → Text
  | usage e => e.message
  | unreadable path e => "could not load catalogue: could not read catalogue: " ++ e.message path
  | badDocument path e => "could not load catalogue: " ++ path ++ ": " ++ e.message
  | badCatalogue path e => "could not load catalogue: " ++ path ++ ": " ++ e.message
  | run e =>
    "could not run catalogue (this is a malformed catalogue, not a resolution failure): " ++
      e.message
  | conflicts count => "found " ++ toString count ++ " pairs of conflicting impls"
  | noExpectations => "catalogue has no expect section"
  | mismatches count => toString count ++ " expectations do not hold"

/-- What a command leaves behind. -/
structure Output where
  printed : Text
  failure : Option Failure
  log : List Text
deriving DecidableEq

/-- What is written for errors. -/
def Output.errors (o : Output) : Text :=
  match o.failure with
  | some f => "Error: " ++ f.message ++ "\n"
  | none => ""

end Command

/-- The commands. -/
inductive Command where
  | resolve
  | coherence
  | method
  | check
deriving DecidableEq

namespace Command

/-- All commands. -/
def all : List Command := [resolve, coherence, method, check]

/-- The name of a command. -/
def name : Command → String
  | resolve => "resolve"
  | coherence => "coherence"
  | method => "method"
  | check => "check"

/-- The command with a name. -/
def ofName? (s : String) : Option Command :=
  all.find? (·.name == s)

/-- Show the resolution. References that are not confirmed have bound variables replaced. -/
def showResolution (env : Env) (r : Catalogue.Report) : Text :=
  env.resolutionTextWith (fun ref => env.refText (env.resolveRef ref)) r.resolution ++
    env.varsText r.vars

/-- Show the conflicts, which are a failure. -/
def showConflicts (r : Catalogue.Report) : Text × Option Failure :=
  if r.conflicts.isEmpty then ("no conflicting impls\n", none)
  else ("conflicts:\n" ++ Env.conflictLines r.conflicts, some (.conflicts r.conflicts.length))

/-- Show the differences from the expectations, which are a failure. -/
def showCheck (expect : Option Catalogue.Expectations) (env : Env) (r : Catalogue.Report) :
    Text × Option Failure :=
  match expect with
  | none => (env.reportText r, some .noExpectations)
  | some e =>
    match r.mismatches e with
    | [] => ("all expectations hold\n", none)
    | all =>
      ("mismatches:\n" ++ Text.join (all.map fun m => "  " ++ env.mismatchText m ++ "\n") ++
        "report:\n" ++ env.reportText r, some (.mismatches all.length))

/-- What a command prints about a report, and whether that is a failure. -/
def present (command : Command) (c : Catalogue) (env : Env) (r : Catalogue.Report) :
    Text × Option Failure :=
  match command with
  | resolve => (showResolution env r, none)
  | coherence => showConflicts r
  | method => ("methods:\n" ++ env.answerLines r.answers, none)
  | check => showCheck c.expect env r

/-- What is logged under some options. To trace sections means to log everything about them. -/
def Options.filter (o : Options) : Log.Filter :=
  match o.trace with
  | some (s :: ss) => ⟨min o.logLevel Log.Level.debug, (s :: ss).map Text.ofString⟩
  | _ => ⟨o.logLevel, []⟩

/-- The options and the path that the arguments of a command give. -/
def arguments (args : List String) : Except UsageError (Options × String) := do
  match ← Options.parse args with
  | (o, [path]) => pure (o, path)
  | (_, others) => throw (.argumentCount 1 others.length)

/-- Read a catalogue, given the text of the file at a path or why there is none. -/
def load (path : String) (text : Except FileError String) : Except Failure Catalogue := do
  let text ← text.mapError (.unreadable path)
  let d ← (Catalogue.Document.read text).mapError (.badDocument path)
  d.compile.mapError (.badCatalogue path)

/-- Run a command on the file at a path, given its text or why there is none. -/
def execute (command : Command) (o : Options) (path : String) (text : Except FileError String) :
    Output :=
  match load path text with
  | .error f => ⟨"", some f, []⟩
  | .ok c =>
    let x := c.run
    let log := Log.trace o.filter (c.compiled :: c.loaded path :: x.events)
    match x.outcome with
    | .error e => ⟨"", some (.run e), log⟩
    | .ok r =>
      let (text, failure) := command.present c x.env r
      ⟨text, failure, log⟩

/-- Run a command with arguments in a directory. -/
def run (command : Command) (args : List String) (files : Directory) : Output :=
  match arguments args with
  | .error e => ⟨"", some (.usage e), []⟩
  | .ok (o, path) => command.execute o path (files.read path)

end Command

end TraitResolution
