import RegisterMachine.Opcode

/-!
# Instructions

An opcode with an operand of the kind it takes, and the bytes that encode it.
-/

namespace RegisterMachine

structure Register where
  index : UInt8
  deriving DecidableEq

def Register.text (r : Register) : String := "r" ++ toString r.index.toNat

inductive Operand where
  | imm (value : Int8)
  | reg (register : Register)
  | idx (index : UInt8)
  deriving DecidableEq

namespace Operand

def kind : Operand → OperandKind
  | imm _ => .imm8
  | reg _ => .reg8
  | idx _ => .idx8

def toByte : Operand → UInt8
  | imm value => value.toUInt8
  | reg register => register.index
  | idx index => index

def ofByte : OperandKind → UInt8 → Operand
  | .imm8, byte => imm byte.toInt8
  | .reg8, byte => reg ⟨byte⟩
  | .idx8, byte => idx byte

def text : Operand → String
  | imm value => toString value.toInt
  | reg register => register.text
  | idx index => "[" ++ toString index.toNat ++ "]"

def register? : Operand → Option Register
  | reg register => some register
  | _ => none

def constantIndex? : Operand → Option Nat
  | idx index => some index.toNat
  | _ => none

@[simp] theorem kind_ofByte (kind : OperandKind) (byte : UInt8) : (ofByte kind byte).kind = kind := by
  cases kind <;> rfl

@[simp] theorem toByte_ofByte (kind : OperandKind) (byte : UInt8) :
    (ofByte kind byte).toByte = byte := by
  cases kind <;> simp [ofByte, toByte]

@[simp] theorem ofByte_toByte (operand : Operand) : ofByte operand.kind operand.toByte = operand := by
  cases operand <;> simp [ofByte, toByte, kind]

end Operand

/-- An opcode with its operand, which is of the kind the opcode takes. -/
structure Instruction where
  opcode : Opcode
  operand? : Option Operand
  kind_eq : operand?.map Operand.kind = opcode.operandKind?
  deriving DecidableEq

namespace Instruction

def toBytes (i : Instruction) : List UInt8 :=
  i.opcode.toByte :: i.operand?.toList.map Operand.toByte

def width (i : Instruction) : Nat := i.opcode.width

def register? (i : Instruction) : Option Register := i.operand?.bind Operand.register?

def constantIndex? (i : Instruction) : Option Nat := i.operand?.bind Operand.constantIndex?

def text (i : Instruction) : String :=
  i.opcode.mnemonic ++ i.operand?.elim "" fun operand => " " ++ operand.text

def bare (opcode : Opcode) (h : opcode.operandKind? = none := by rfl) : Instruction :=
  ⟨opcode, none, h.symm⟩

def ofOperandByte (opcode : Opcode) (kind : OperandKind) (h : opcode.operandKind? = some kind)
    (byte : UInt8) : Instruction :=
  ⟨opcode, some (.ofByte kind byte), by simp [h]⟩

end Instruction

end RegisterMachine
