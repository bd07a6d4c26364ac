import RegisterMachine.CommandLine

/-!
# The program

Reads the file that the command line names, if any, and prints the response.
-/

open RegisterMachine CommandLine

def readText (path : String) : IO (Except FileError String) := do
  try
    let bytes ← IO.FS.readBinFile path
    return (String.fromUTF8? bytes).elim (.error .notText) .ok
  catch
    | .noFileOrDirectory .. => return .error .missing
    | .inappropriateType .. => return .error .directory
    | e => return .error (.other (toString e))

def main (arguments : List String) : IO UInt32 := do
  let response ← match Command.ofArguments arguments with
    | .error response => pure response
    | .ok .table => pure (Command.table.respond fun _ => .error .missing)
    | .ok (.file path action) => pure (action.respond path (← readText path))
  IO.print response.stdout
  IO.eprint response.stderr
  return response.code.toUInt32
