import RegisterMachine.Execution.Frame
import RegisterMachine.Value.Arithmetic

/-!
# Handlers

A handler carries out one instruction. It is a finite program over the operations of a frame that
ends by handing back a transfer, one of those that the dispatch primitives gave it. How many it
holds is part of its type, so that a handler which calls no primitive cannot be written; one that
calls several can, and is caught when it runs.

`Handler.standard` has the handler of each opcode. Each calls exactly one primitive, and all but
`Return` continue with the instruction that follows.
-/

namespace RegisterMachine

/-- A handler that holds a number of transfers. Every operation is followed by what the handler does
with its answer; `inspect` reads what can be read without a fault. -/
inductive Handler : Nat → Type where
  /-- Hands back one of the transfers. -/
  | finish {held : Nat} (transfer : Fin held) : Handler held
  | inspect {held : Nat} (next : Frame → Handler held) : Handler held
  | setAccumulator {held : Nat} (value : Value) (next : Handler held) : Handler held
  | register {held : Nat} (r : Register) (next : Value → Handler held) : Handler held
  | setRegister {held : Nat} (r : Register) (value : Value) (next : Handler held) : Handler held
  | currentOpcode {held : Nat} (next : Opcode → Handler held) : Handler held
  | operandByte {held : Nat} (operand : Nat) (next : UInt8 → Handler held) : Handler held
  | constant {held : Nat} (index : Nat) (next : Value → Handler held) : Handler held
  /-- Continues with the next instruction; the answer is its opcode. -/
  | dispatch {held : Nat} (next : Opcode → Handler (held + 1)) : Handler held
  /-- Ends the frame with a value. -/
  | exit {held : Nat} (value : Value) (next : Handler (held + 1)) : Handler held

/-- A finished handler, labelled with the opcode it was made for. -/
structure CodeUnit where
  opcode : Opcode
  body : Handler 0

/-- What a dispatch primitive hands back: the unit of the next instruction, or the result. -/
inductive Transfer where
  | next (unit : CodeUnit)
  | returned (value : Value)

namespace Transfer

def next? : Transfer → Option CodeUnit
  | next unit => some unit
  | returned _ => none

def returned? : Transfer → Option Value
  | next _ => none
  | returned value => some value

end Transfer

namespace Handler

def goOn : Handler 0 := .dispatch fun _ => .finish 0

def done (value : Value) : Handler 0 := .exit value (.finish 0)

def load (value : Value) : Handler 0 := .setAccumulator value goOn

def binary (operation : Value → Value → Value) : Handler 0 :=
  .operandByte 0 fun r => .inspect fun frame => .register ⟨r⟩ fun value =>
    load (operation frame.accumulator value)

def standard : Opcode → Handler 0
  | .ldaZero => load (.small 0)
  | .ldaSmi8 => .operandByte 0 fun n => load (.small n.toInt8.toInt32)
  | .ldaUndefined => load .undefined
  | .ldaNull => load .null
  | .ldaTheHole => load .hole
  | .ldaTrue => load (.boolean true)
  | .ldaFalse => load (.boolean false)
  | .ldaConstant => .operandByte 0 fun index => .constant index.toNat load
  | .ldar => .operandByte 0 fun r => .register ⟨r⟩ load
  | .star => .operandByte 0 fun r => .inspect fun frame => .setRegister ⟨r⟩ frame.accumulator goOn
  | .add => binary .add
  | .sub => binary .sub
  | .mul => binary .mul
  | .div => binary fun accumulator value => value.div accumulator
  | .ret => .register ⟨0⟩ done

end Handler

end RegisterMachine
