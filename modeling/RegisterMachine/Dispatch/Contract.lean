import RegisterMachine.Execution.Handler

/-!
# Contracts

What an emitter is told about the handler of an opcode: its family, its effect in words and its
body.
-/

namespace RegisterMachine

inductive HandlerFamily where
  | loadImmediate
  | loadConstant
  | registerTransfer
  | binaryArithmetic
  | ret
  deriving DecidableEq

def HandlerFamily.name : HandlerFamily → String
  | loadImmediate => "LoadImmediate"
  | loadConstant => "LoadConstant"
  | registerTransfer => "RegisterTransfer"
  | binaryArithmetic => "BinaryArithmetic"
  | ret => "Return"

structure Contract where
  opcode : Opcode
  family : HandlerFamily
  summary : String
  body : Handler 0

namespace Contract

def familyOf : Opcode → HandlerFamily
  | .ldaZero | .ldaSmi8 | .ldaUndefined | .ldaNull | .ldaTheHole | .ldaTrue | .ldaFalse =>
    .loadImmediate
  | .ldaConstant => .loadConstant
  | .ldar | .star => .registerTransfer
  | .add | .sub | .mul | .div => .binaryArithmetic
  | .ret => .ret

def summaryOf : Opcode → String
  | .ldaZero => "accumulator := 0"
  | .ldaSmi8 => "accumulator := <imm>"
  | .ldaUndefined => "accumulator := undefined"
  | .ldaNull => "accumulator := null"
  | .ldaTheHole => "accumulator := the hole"
  | .ldaTrue => "accumulator := true"
  | .ldaFalse => "accumulator := false"
  | .ldaConstant => "accumulator := constants[<idx>]"
  | .ldar => "accumulator := <src>"
  | .star => "<dst> := accumulator"
  | .add => "accumulator := accumulator + <src>"
  | .sub => "accumulator := accumulator - <src>"
  | .mul => "accumulator := accumulator * <src>"
  | .div => "accumulator := <src> / accumulator"
  | .ret => "return r0"

def of (opcode : Opcode) : Contract where
  opcode := opcode
  family := familyOf opcode
  summary := summaryOf opcode
  body := .standard opcode

def asciiBytes (text : String) : List UInt8 := text.toList.map fun c => .ofNat c.toNat

/-- What a contract contributes to the fingerprint of a table: number and operand count of the
opcode, its mnemonic and the kinds of its operands. -/
def layout (contract : Contract) : List UInt8 :=
  let opcode := contract.opcode
  [opcode.toByte, .ofNat opcode.operandCount] ++ asciiBytes opcode.mnemonic ++
    opcode.operandKind?.toList.flatMap fun kind => asciiBytes kind.name

def debugText (contract : Contract) : String :=
  "HandlerSpec \x7b opcode: " ++ contract.opcode.mnemonic ++ ", family: " ++ contract.family.name ++
    ", summary: \"" ++ contract.summary ++ "\", .. \x7d"

end Contract

end RegisterMachine
