import RegisterMachine.Assembly.Statement

/-!
# Programs

Assembling a text: its lines are parsed from the first on and the first bad line is reported; then
the statements are drafted in order and the draft is finished. A bad line is thus reported before an
encoding that exceeds a limit.
-/

namespace RegisterMachine

namespace Assembly

inductive Error where
  | line (number : Nat) (error : LineError)
  | encode (error : EncodeError)
  deriving DecidableEq

def Error.message : Error → String
  | line number error => s!"line {number}: " ++ error.message
  | encode error => error.message

/-- The statements of lines numbered from `number`. Once the register count is declared, a second
declaration is an error of its line. -/
def readLines (number : Nat) (declared : Bool) :
    List (List Char) → Except Error (List Statement)
  | [] => .ok []
  | line :: rest =>
    match Statement.ofLine line with
    | .error e => .error (.line number e)
    | .ok none => readLines (number + 1) declared rest
    | .ok (some statement) =>
      if statement.isRegisters && declared then .error (.line number .duplicateRegisters)
      else do
        let statements ← readLines (number + 1) (declared || statement.isRegisters) rest
        return statement :: statements

def statements (text : String) : Except Error (List Statement) :=
  readLines 1 false (Text.lines text.toList)

def draftOf (program : List Statement) : Draft := program.foldl Statement.addTo .empty

end Assembly

def assemble (text : String) : Except Assembly.Error Bytecode := do
  let program ← Assembly.statements text
  (Assembly.draftOf program).finish.mapError .encode

end RegisterMachine
