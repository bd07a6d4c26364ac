import RegisterMachine.Assembly.Token
import RegisterMachine.Bytecode.Draft

/-!
# Statements

A line of assembly is blank or one statement: a directive or an instruction. All words of a line are
read before it is parsed, so a word that is no token is reported first.
-/

namespace RegisterMachine.Assembly

inductive Statement where
  | registers (count : Nat)
  | constant (value : Value)
  | bytes (payload : List UInt8)
  | instruction (i : Instruction)
  deriving DecidableEq

def unexpected {α : Type} (token : Token) : Except LineError α :=
  .error (.unexpectedToken token.text)

def numberOr {α : Type} (word : List Char) (value? : Option α) : Except LineError α :=
  value?.elim (.error (.invalidNumber (String.ofList word))) .ok

def expectEnd : List Token → Except LineError Unit
  | [] => .ok ()
  | token :: _ => unexpected token

def registerCountLimit : Nat := 2 ^ 64

def registerCountOf : Token → Except LineError Nat
  | .number word => numberOr word (Numeral.unsigned? registerCountLimit word)
  | token => unexpected token

def byteOf : Token → Except LineError UInt8
  | .number word => numberOr word <|
    match word with
    | '0' :: 'x' :: digits | '0' :: 'X' :: digits => Numeral.hexByte? digits
    | word => Numeral.byte? word
  | token => unexpected token

def namedConstant? (word : List Char) : Option Value :=
  let word := Text.lowered word
  if word = "undefined".toList then some .undefined
  else if word = "null".toList then some .null
  else if word = "hole".toList then some .hole
  else if word = "true".toList then some (.boolean true)
  else if word = "false".toList then some (.boolean false)
  else if word = "nan".toList then some (.number .nan)
  else if word = "inf".toList ∨ word = "infinity".toList then some (.number (.infinity false))
  else none

/-- The constant that a number stands for: a small integer if it is written as one, else a
double. -/
def numericConstant? (word : List Char) : Option Value :=
  match Numeral.signed? 32 word with
  | some n => some (.small (.ofInt n))
  | none => (Binary64.ofText? word).map .number

def constantOf (token : Token) : Except LineError Value :=
  let value? := match token with
    | .name word => namedConstant? word
    | .number word => numericConstant? word
    | _ => none
  value?.elim (.error (.invalidConstant token.text)) .ok

def operandByteOf : OperandKind → Token → Except LineError UInt8
  | .imm8, .number word =>
    numberOr word ((Numeral.signed? 8 word).map fun n => (Int8.ofInt n).toUInt8)
  | .reg8, .register register => .ok register.index
  | .idx8, .index index => .ok index
  | _, token => unexpected token

def oneArgument {α : Type} (name : String) (read : Token → Except LineError α) :
    List Token → Except LineError α
  | [] => .error (.missingOperand name 1)
  | token :: rest => do
    let value ← read token
    expectEnd rest
    return value

namespace Statement

def ofDirective (name : List Char) (arguments : List Token) : Except LineError Statement :=
  if name = "registers".toList then
    registers <$> oneArgument ".registers" registerCountOf arguments
  else if name = "constant".toList then
    constant <$> oneArgument ".constant" constantOf arguments
  else if name = "bytes".toList then
    if arguments.isEmpty then .error (.missingOperand ".bytes" 1)
    else bytes <$> arguments.mapM byteOf
  else .error (.unknownDirective (String.ofList ('.' :: name)))

def ofOpcode (opcode : Opcode) (arguments : List Token) : Except LineError Statement :=
  match h : opcode.operandKind? with
  | none => do
    expectEnd arguments
    return instruction (.bare opcode h)
  | some kind => do
    let byte ← oneArgument opcode.mnemonic (operandByteOf kind) arguments
    return instruction (.ofOperandByte opcode kind h byte)

def ofTokens : List Token → Except LineError (Option Statement)
  | [] => .ok none
  | .directive name :: arguments => some <$> ofDirective name arguments
  | .name word :: arguments =>
    match Opcode.ofMnemonic? word with
    | none => .error (.unknownOpcode (String.ofList word))
    | some opcode => some <$> ofOpcode opcode arguments
  | token :: _ => unexpected token

def ofLine (line : List Char) : Except LineError (Option Statement) :=
  Token.ofLine line >>= ofTokens

def isRegisters : Statement → Bool
  | registers _ => true
  | _ => false

def addTo (draft : Draft) : Statement → Draft
  | registers count => draft.declareRegisters count
  | constant value => draft.pushConstant value
  | bytes payload => draft.raw payload
  | instruction i => draft.instruction i

end Statement

end RegisterMachine.Assembly
