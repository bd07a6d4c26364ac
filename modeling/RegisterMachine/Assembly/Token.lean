import RegisterMachine.Instruction

/-!
# Words of the assembly language

Each word of a line is one token, told by its first characters: a point begins a directive, a
bracket a constant index, the letter r before digits a register, and a digit or a sign a number. The
kinds are asked for in this order. All other words are names.
-/

namespace RegisterMachine.Assembly

inductive LineError where
  | unknownOpcode (word : String)
  | unknownDirective (word : String)
  | missingOperand (name : String) (expected : Nat)
  | invalidNumber (word : String)
  | invalidConstant (word : String)
  | unexpectedToken (word : String)
  | duplicateRegisters
  deriving DecidableEq

def LineError.message : LineError → String
  | unknownOpcode word => s!"unknown opcode '{word}'"
  | unknownDirective word => s!"unknown directive '{word}'"
  | missingOperand name expected => s!"{name} expects {expected} operand(s)"
  | invalidNumber word => s!"invalid number '{word}'"
  | invalidConstant word => s!"invalid constant '{word}'"
  | unexpectedToken word => s!"unexpected token '{word}'"
  | duplicateRegisters => "register count already declared"

inductive Token where
  /-- The name of a directive, in small letters and without its point. -/
  | directive (name : List Char)
  | name (word : List Char)
  | register (register : Register)
  | index (index : UInt8)
  /-- A number as it is written; its place decides how it is read. -/
  | number (word : List Char)
  deriving DecidableEq

namespace Token

def text : Token → String
  | directive label => String.ofList ('.' :: label)
  | name word | number word => String.ofList word
  | register r => r.text
  | index i => "[" ++ toString i.toNat ++ "]"

/-- The number in a word that ends with a closing bracket, where the opening one has been read. -/
def bracketed? (rest : List Char) : Option UInt8 :=
  if rest.getLast? = some ']' then Numeral.byte? rest.dropLast else none

/-- The characters that numbers begin with. A word that begins with a point has been taken for a
directive before this is asked. -/
def startsNumber (c : Char) : Bool := c.isDigit || c == '-' || c == '+' || c == '.'

/-- The token of a word. A register or an index beyond a byte is an invalid number. -/
def ofWord (word : List Char) : Except LineError Token :=
  let orInvalid (token? : Option Token) : Except LineError Token :=
    token?.elim (.error (.invalidNumber (String.ofList word))) .ok
  match word with
  | [] => .ok (name [])
  | first :: rest =>
    if first = '.' then .ok (directive (Text.lowered rest))
    else if first = '[' then orInvalid ((bracketed? rest).map index)
    else if (first = 'r' ∨ first = 'R') ∧ rest ≠ [] ∧ rest.all Char.isDigit then
      orInvalid ((Numeral.byte? rest).map fun n => register ⟨n⟩)
    else if startsNumber first then .ok (number word)
    else .ok (name word)

def ofLine (line : List Char) : Except LineError (List Token) :=
  (Text.words (Text.withoutComment line)).mapM ofWord

end Token

end RegisterMachine.Assembly
