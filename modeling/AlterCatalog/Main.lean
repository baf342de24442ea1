import AlterCatalog.CommandLine.Run

/-!
# The program

Reads the layout file and the standard input that a command needs, and writes what the command
answers. Colours are on where the environment forces them.
-/

namespace AlterCatalog

/-- The text of a file. -/
def readFile (path : String) : IO (Except FileError String) := do
  try
    match String.fromUTF8? (← IO.FS.readBinFile path) with
    | some text => return .ok text
    | none => return .error .notText
  catch
    | .noFileOrDirectory .. => return .error .notFound
    | .inappropriateType _ code _ =>
      return .error (if code = 21 then .isDirectory else .notDirectory)
    | e => return .error (.other (toString e))

/-- What a command will read, read beforehand. -/
def Command.surroundings (command : Command) (color : Bool) : IO Surroundings := do
  let file ← match command with
    | .format _ { config := some path, .. } => readFile path
    | _ => pure (.error .notFound)
  let input ← match command with
    | .format none _ | .explain none _ | .validate none =>
      pure (String.fromUTF8? (← (← IO.getStdin).readBinToEnd))
    | _ => pure none
  return { file := fun _ => file, input, color }

end AlterCatalog

open AlterCatalog in
def main (arguments : List String) : IO UInt32 := do
  let asked := Asked.ofArguments arguments
  let color := (← IO.getEnv "CLICOLOR_FORCE").any (· != "0")
  let surroundings ← match asked with
    | .run invocation => invocation.command.surroundings color
    | _ => pure { file := fun _ => .error .notFound, input := none, color }
  let outcome := asked.outcome surroundings
  (← IO.getStdout).putStr outcome.output
  (← IO.getStderr).putStr outcome.errors
  return outcome.exit.toUInt32
