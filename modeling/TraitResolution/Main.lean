import TraitResolution.Command.Basic

/-! # The command line

The first argument names a command, the others are its arguments.
-/

namespace TraitResolution.Command

/-- Read a file. -/
def readText (path : String) : IO (Except FileError String) := do
  try
    let text ← IO.FS.readFile path
    pure (.ok text)
  catch
    | .noFileOrDirectory .. => pure (.error .missing)
    | e => pure (.error (.other (toString e)))

/-- Write a text, byte by byte. -/
def write (out : IO.FS.Stream) (t : Text) : IO Unit :=
  out.write (ByteArray.mk t.bytes.toArray)

/-- Run a command and write its output. -/
def runCommand (command : Command) (args : List String) : IO UInt32 := do
  let output ← match arguments args with
    | .error e => pure ⟨"", some (.usage e), []⟩
    | .ok (o, path) => do
      let text ← readText path
      pure (command.execute o path text)
  let errors ← IO.getStderr
  for line in output.log do
    write errors (line ++ "\n")
  write (← IO.getStdout) output.printed
  write errors output.errors
  pure (if output.failure.isSome then 1 else 0)

end TraitResolution.Command

open TraitResolution in
/-- Run the command that the first argument names. -/
def main (args : List String) : IO UInt32 := do
  match args with
  | [] =>
    IO.eprintln ("usage: [" ++ " | ".intercalate (Command.all.map (·.name)) ++ "] file.yaml")
    pure 1
  | name :: rest =>
    match Command.ofName? name with
    | some command => command.runCommand rest
    | none =>
      IO.eprintln ("unknown command " ++ name)
      pure 1
