import RegisterMachine.Instruction
import RegisterMachine.Value.Basic

/-!
# Bytecode

The instruction stream of one function with the size of its register file and its constant pool.
Nothing is assumed of the stream: decoding reads instructions from the front until the stream ends
or a byte is no instruction, and what follows such a byte is not looked at.
-/

namespace RegisterMachine

def maxRegisters : Nat := 256

def maxConstants : Nat := 256

structure Bytecode where
  bytes : Array UInt8
  registerCount : Nat
  constants : Array Value
  deriving DecidableEq

/-- Why a stream does not decode, with the offset of the opcode byte. -/
inductive DecodeError where
  | invalidOpcode (offset : Nat) (byte : UInt8)
  | truncatedOperand (offset : Nat) (opcode : Opcode)
  deriving DecidableEq

def DecodeError.offset : DecodeError → Nat
  | invalidOpcode offset _ => offset
  | truncatedOperand offset _ => offset

def DecodeError.message : DecodeError → String
  | invalidOpcode offset byte =>
    "invalid opcode " ++ Numeral.byteText byte ++ " at offset " ++ toString offset
  | truncatedOperand offset opcode =>
    opcode.mnemonic ++ " at offset " ++ toString offset ++ " is missing operand bytes"

structure Placed where
  offset : Nat
  instruction : Instruction
  deriving DecidableEq

/-- The instructions of a stream in order, and the error that ended it, if one did. -/
structure Decoding where
  instructions : List Placed
  error? : Option DecodeError
  deriving DecidableEq

namespace Decoding

def cons (placed : Placed) (rest : Decoding) : Decoding :=
  { rest with instructions := placed :: rest.instructions }

/-- The offset just after the last instruction. -/
def length (decoding : Decoding) : Nat :=
  decoding.instructions.getLast?.elim 0 fun placed => placed.offset + placed.instruction.width

end Decoding

/-- Decodes a stream whose first byte lies at `offset`. -/
def decodeFrom : Nat → List UInt8 → Decoding
  | _, [] => ⟨[], none⟩
  | offset, byte :: rest =>
    match Opcode.ofByte? byte with
    | none => ⟨[], some (.invalidOpcode offset byte)⟩
    | some opcode =>
      match h : opcode.operandKind? with
      | none => (decodeFrom (offset + 1) rest).cons ⟨offset, .bare opcode h⟩
      | some kind =>
        match rest with
        | [] => ⟨[], some (.truncatedOperand offset opcode)⟩
        | argument :: rest =>
          (decodeFrom (offset + 2) rest).cons ⟨offset, .ofOperandByte opcode kind h argument⟩

namespace Bytecode

def size (code : Bytecode) : Nat := code.bytes.size

def byteAt? (code : Bytecode) (offset : Nat) : Option UInt8 := code.bytes[offset]?

def constant? (code : Bytecode) (index : Nat) : Option Value := code.constants[index]?

def decode (code : Bytecode) : Decoding := decodeFrom 0 code.bytes.toList

end Bytecode

end RegisterMachine
