import RegisterMachine.Assembly.Listing
import RegisterMachine.Assembly.Program
import RegisterMachine.Dispatch.Layout
import RegisterMachine.Engine

/-!
# The command line

Commands on assembly files and what they answer. The exit code is 0 for success, 1 for bad usage, a
file that cannot be read or a program that does not assemble, 2 for a program that is rejected, 3
for one that could not be run, and 101 for an execution that faulted.
-/

namespace RegisterMachine.CommandLine

inductive FileError where
  | missing
  | directory
  | notText
  | other (text : String)
  deriving DecidableEq

def FileError.message : FileError → String
  | missing => "No such file or directory (os error 2)"
  | directory => "Is a directory (os error 21)"
  | notText => "stream did not contain valid UTF-8"
  | other text => text

structure Response where
  code : Nat := 0
  stdout : String := ""
  stderr : String := ""
  deriving DecidableEq

inductive Action where
  | run (config : EngineConfig)
  | verify
  | disassemble
  deriving DecidableEq

inductive Command where
  | file (path : String) (action : Action)
  | table
  deriving DecidableEq

def usage : String :=
  "Usage: kindle <command> [args]\n\nCommands:\n" ++
    "  run <file.kasm> [--lazy] [--no-verify]   Assemble, verify and execute a program\n" ++
    "  verify <file.kasm>                       Assemble and verify a program\n" ++
    "  disassemble <file.kasm>                  Print the canonical listing\n" ++
    "  table                                    Build a dispatch table and print its slots\n"

def failure (code : Nat) (stderr : String) : Response := { code, stderr }

/-- Sets the options that flags name, up to the first unknown flag. -/
def withFlags (config : EngineConfig) : List String → Except Response EngineConfig
  | [] => .ok config
  | "--lazy" :: rest => withFlags { config with policy := .lazy } rest
  | "--no-verify" :: rest => withFlags { config with verify := false } rest
  | flag :: _ => .error (failure 1 ("error: unknown flag '" ++ flag ++ "'\n"))

def fileRequired (name arguments : String) : Response :=
  failure 1 <| "error: " ++ name ++ " requires an input file\nUsage: kindle " ++ name ++
    " <file.kasm>" ++ arguments ++ "\n"

def Command.ofArguments : List String → Except Response Command
  | [] => .error (failure 1 usage)
  | "run" :: [] => .error (fileRequired "run" " [--lazy] [--no-verify]")
  | "run" :: path :: flags => do
    let config ← withFlags {} flags
    return .file path (.run config)
  | "verify" :: [] => .error (fileRequired "verify" "")
  | "verify" :: path :: _ => .ok (.file path .verify)
  | "disassemble" :: [] => .error (fileRequired "disassemble" "")
  | "disassemble" :: path :: _ => .ok (.file path .disassemble)
  | "table" :: [] => .ok .table
  | "table" :: extra :: _ =>
    .error (failure 1 ("error: unexpected argument '" ++ extra ++ "'\n"))
  | "--help" :: _ | "-h" :: _ | "help" :: _ => .error (failure 0 usage)
  | name :: _ =>
    .error (failure 1 ("error: unknown command '" ++ name ++ "'\n\n" ++ usage))

def rejection (violations : List Violation) : Response :=
  failure 2 (String.join (violations.map fun v => "error: " ++ v.message ++ "\n"))

def responseTo : Outcome → Response
  | .completed completion => { stdout := completion.value.text ++ "\n" }
  | .refused (.rejected violations) => rejection violations
  | .refused refusal => failure 3 ("runtime error: " ++ refusal.message ++ "\n")
  | .faulted fault => failure 101 fault.message

/-- Runs a program in a new engine; there is no engine if an eager build fails. -/
def run (config : EngineConfig) (code : Bytecode) : Response :=
  match Engine.create config (.direct none) with
  | .error e => failure 3 ("error: " ++ e.message ++ "\n")
  | .ok engine => responseTo (engine.execute code).1

def verify (path : String) (code : Bytecode) : Response :=
  match code.violations with
  | [] =>
    { stdout := "OK: " ++ path ++ s!" ({code.size} bytes, {code.registerCount} registers, " ++
        s!"{code.constants.size} constants)\n" }
  | violations => rejection violations

def Action.perform (path : String) (code : Bytecode) : Action → Response
  | .run config => CommandLine.run config code
  | .verify => CommandLine.verify path code
  | .disassemble => { stdout := code.listing }

def Action.respond (action : Action) (path : String) (contents : Except FileError String) :
    Response :=
  match contents with
  | .error e => failure 1 ("error: cannot read '" ++ path ++ "': " ++ e.message ++ "\n")
  | .ok text =>
    match assemble text with
    | .error e => failure 1 ("error: " ++ e.message ++ "\n")
    | .ok code => action.perform path code

def padLeft (width : Nat) (text : String) : String := "".pushn ' ' (width - text.length) ++ text

def padRight (width : Nat) (text : String) : String := text.pushn ' ' (width - text.length)

def slotLine (opcode : Opcode) (unit? : Option CodeUnit) : String :=
  padLeft 3 (toString opcode.ordinal) ++ "  " ++ padRight 13 opcode.mnemonic ++
    s!" operands={opcode.operandCount}  entry=" ++
    unit?.elim "-" (fun unit => addressText unit.entry) ++ "\n"

def describe (table : DispatchTable) : Response where
  stdout := String.join (table.entries.map fun (opcode, unit?) => slotLine opcode unit?) ++
    table.fingerprint?.elim "" fun digest => "fingerprint: " ++ Digest.text digest ++ "\n"

def Command.respond (command : Command) (read : String → Except FileError String) : Response :=
  match command with
  | .file path action => action.respond path (read path)
  | .table => describe .standard

/-- The answer to an invocation, where `read` gives the contents of the files. -/
def respond (arguments : List String) (read : String → Except FileError String) : Response :=
  match Command.ofArguments arguments with
  | .error response => response
  | .ok command => command.respond read

end RegisterMachine.CommandLine
