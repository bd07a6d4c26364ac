import RegisterMachine.Text.Numeral
import RegisterMachine.Text.Words

/-!
# The instruction set

Fifteen opcodes, numbered from zero without a gap. An instruction is one opcode byte and, where the
opcode takes an operand, one operand byte after it.
-/

namespace RegisterMachine

/-- What an operand byte stands for: a signed integer, a register or an index into the constant
pool. -/
inductive OperandKind where
  | imm8
  | reg8
  | idx8
  deriving DecidableEq

namespace OperandKind

def all : List OperandKind := [imm8, reg8, idx8]

def name : OperandKind → String
  | imm8 => "Imm8"
  | reg8 => "Reg8"
  | idx8 => "Idx8"

def width (_ : OperandKind) : Nat := 1

end OperandKind

inductive Opcode where
  | ldaZero
  | ldaSmi8
  | ldaUndefined
  | ldaNull
  | ldaTheHole
  | ldaTrue
  | ldaFalse
  | ldaConstant
  | ldar
  | star
  | add
  | sub
  | mul
  | div
  | ret
  deriving DecidableEq

namespace Opcode

def all : List Opcode :=
  [ldaZero, ldaSmi8, ldaUndefined, ldaNull, ldaTheHole, ldaTrue, ldaFalse, ldaConstant, ldar, star,
    add, sub, mul, div, ret]

def ordinal : Opcode → Nat
  | ldaZero => 0
  | ldaSmi8 => 1
  | ldaUndefined => 2
  | ldaNull => 3
  | ldaTheHole => 4
  | ldaTrue => 5
  | ldaFalse => 6
  | ldaConstant => 7
  | ldar => 8
  | star => 9
  | add => 10
  | sub => 11
  | mul => 12
  | div => 13
  | ret => 14

def toByte (opcode : Opcode) : UInt8 := .ofNat opcode.ordinal

def ofByte? (byte : UInt8) : Option Opcode := all[byte.toNat]?

def mnemonic : Opcode → String
  | ldaZero => "LdaZero"
  | ldaSmi8 => "LdaSmi8"
  | ldaUndefined => "LdaUndefined"
  | ldaNull => "LdaNull"
  | ldaTheHole => "LdaTheHole"
  | ldaTrue => "LdaTrue"
  | ldaFalse => "LdaFalse"
  | ldaConstant => "LdaConstant"
  | ldar => "Ldar"
  | star => "Star"
  | add => "Add"
  | sub => "Sub"
  | mul => "Mul"
  | div => "Div"
  | ret => "Return"

/-- The opcode with a mnemonic, in any mixture of cases. -/
def ofMnemonic? (word : List Char) : Option Opcode :=
  all.find? fun opcode => Text.lowered opcode.mnemonic.toList == Text.lowered word

def operandKind? : Opcode → Option OperandKind
  | ldaSmi8 => some .imm8
  | ldaConstant => some .idx8
  | ldar | star | add | sub | mul | div => some .reg8
  | ldaZero | ldaUndefined | ldaNull | ldaTheHole | ldaTrue | ldaFalse | ret => none

def operandCount (opcode : Opcode) : Nat := opcode.operandKind?.toList.length

def width (opcode : Opcode) : Nat := 1 + (opcode.operandKind?.elim 0 OperandKind.width)

def invalidText (byte : UInt8) : String := "invalid opcode: " ++ Numeral.byteText byte

theorem ofByte?_toByte (opcode : Opcode) : ofByte? opcode.toByte = some opcode := by
  cases opcode <;> rfl

theorem mem_all (opcode : Opcode) : opcode ∈ all := by cases opcode <;> decide

theorem nodup_all : all.Nodup := by decide

theorem getElem?_all (opcode : Opcode) : all[opcode.ordinal]? = some opcode := by
  cases opcode <;> rfl

theorem eq_ordinal {opcode : Opcode} {i : Nat} (h : all[i]? = some opcode) :
    i = opcode.ordinal := by
  have hlt : i < all.length := (List.getElem?_eq_some_iff.mp h).1
  exact (List.getElem?_inj hlt nodup_all).mp (h.trans opcode.getElem?_all.symm)

theorem width_of_none {opcode : Opcode} (h : opcode.operandKind? = none) : opcode.width = 1 := by
  rw [width, h]
  rfl

theorem width_of_some {opcode : Opcode} {kind : OperandKind} (h : opcode.operandKind? = some kind) :
    opcode.width = 2 := by
  rw [width, h]
  rfl

theorem width_pos (opcode : Opcode) : 0 < opcode.width :=
  Nat.lt_of_lt_of_le Nat.one_pos (Nat.le_add_right 1 _)

end Opcode

end RegisterMachine
