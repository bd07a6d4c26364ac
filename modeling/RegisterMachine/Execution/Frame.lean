import RegisterMachine.Bytecode.Basic

/-!
# Frames

The state of one activation: accumulator, register file and a cursor into the instruction stream.
Bytecode is trusted here. A read that leaves the register file, the constant pool or the stream is a
fault, which names the offset of the cursor. Offsets and counters are words of 64 bits and the
register file is laid out in memory; what does not fit there is a fault as well, of its own kind.
-/

namespace RegisterMachine

structure Stats where
  continues : Nat := 0
  returns : Nat := 0
  deriving DecidableEq

def Stats.transfers (stats : Stats) : Nat := stats.continues + stats.returns

/-- What bytecode asked for and does not have. -/
inductive Inconsistency where
  | registerOutside (register : Register) (count : Nat)
  | constantOutside (index poolSize : Nat)
  | ranOffEnd (length : Nat)
  | invalidOpcode (byte : UInt8)
  | operandMissing (operand : Nat)
  deriving DecidableEq

def Inconsistency.text : Inconsistency → String
  | registerOutside register count =>
    "register " ++ register.text ++ s!" outside register file of {count}"
  | constantOutside index poolSize => s!"constant [{index}] outside pool of {poolSize}"
  | ranOffEnd length => s!"dispatch ran off the end of a {length}-byte stream"
  | invalidOpcode byte => Opcode.invalidText byte
  | operandMissing operand => s!"operand {operand} is past the end of the stream"

inductive Fault where
  | inconsistent (offset : Nat) (detail : Inconsistency)
  /-- A look-up in a table that has not been built. -/
  | unbuilt (opcode : Opcode)
  /-- A handler that did not call exactly one dispatch primitive. -/
  | transferCount (opcode : Opcode) (transfers expected : Nat)
  /-- An offset or a count that is no word. -/
  | overflow
  /-- A register file that cannot be laid out in memory. -/
  | registersTooLarge
  deriving DecidableEq

def Fault.message : Fault → String
  | inconsistent offset detail =>
    s!"internal consistency fault at offset {offset}: " ++ detail.text
  | unbuilt opcode =>
    "dispatch table lookup of " ++ opcode.mnemonic ++ " before the table was built"
  | transferCount opcode transfers expected =>
    "assertion `left == right` failed: " ++ opcode.mnemonic ++
      " handler must end with exactly one dispatch primitive" ++
      s!"\n  left: {transfers}\n right: {expected}"
  | overflow => "attempt to add with overflow"
  | registersTooLarge => "capacity overflow"

def wordLimit : Nat := 2 ^ 64

/-- The largest register file that can be laid out: 16 bytes a register, and less than half of the
words. -/
def registerCapacity : Nat := 2 ^ 59 - 1

structure Frame where
  code : Bytecode
  accumulator : Value
  registers : Array Value
  cursor : Nat
  stats : Stats
  deriving DecidableEq

namespace Frame

/-- The state in which bytecode starts. No frame has it whose register file cannot be laid out. -/
def start (code : Bytecode) : Frame where
  code := code
  accumulator := .undefined
  registers := Array.replicate code.registerCount .undefined
  cursor := 0
  stats := {}

def create (code : Bytecode) : Except Fault Frame :=
  if code.registerCount ≤ registerCapacity then .ok (start code) else .error .registersTooLarge

theorem create_eq_start {code : Bytecode} (h : code.registerCount ≤ registerCapacity) :
    create code = .ok (start code) := if_pos h

/-- There is a fresh frame unless the register file is too large. -/
theorem create_cases (code : Bytecode) :
    (registerCapacity < code.registerCount ∧ create code = .error .registersTooLarge) ∨
      create code = .ok (start code) := by
  by_cases h : code.registerCount ≤ registerCapacity
  · exact Or.inr (create_eq_start h)
  · exact Or.inl ⟨Nat.lt_of_not_le h, if_neg h⟩

theorem eq_start_of_create {code : Bytecode} {frame : Frame} (h : create code = .ok frame) :
    frame = start code := by
  rcases create_cases code with ⟨_, hlarge⟩ | hstart
  · rw [hlarge] at h
    cases h
  · exact Except.ok.inj (h.symm.trans hstart)

/-- A sum that is no word. No stream is as long as there are words, so a sum up to the length of the
stream never is one of these. -/
def Overflows (frame : Frame) (sum : Nat) : Prop := frame.code.size < sum ∧ wordLimit ≤ sum

instance (frame : Frame) (sum : Nat) : Decidable (frame.Overflows sum) :=
  inferInstanceAs (Decidable (_ ∧ _))

def fault {α : Type} (frame : Frame) (detail : Inconsistency) : Except Fault α :=
  .error (.inconsistent frame.cursor detail)

def register (frame : Frame) (r : Register) : Except Fault Value :=
  match frame.registers[r.index.toNat]? with
  | some value => .ok value
  | none => frame.fault (.registerOutside r frame.registers.size)

def setRegister (frame : Frame) (r : Register) (value : Value) : Except Fault Frame :=
  if h : r.index.toNat < frame.registers.size then
    .ok { frame with registers := frame.registers.set r.index.toNat value }
  else frame.fault (.registerOutside r frame.registers.size)

def currentOpcode (frame : Frame) : Except Fault Opcode :=
  match frame.code.byteAt? frame.cursor with
  | none => frame.fault (.ranOffEnd frame.code.size)
  | some byte =>
    match Opcode.ofByte? byte with
    | none => frame.fault (.invalidOpcode byte)
    | some opcode => .ok opcode

/-- An operand byte of the instruction at the cursor. Past the end of the stream there is none; far
past it the offset is not even a word. -/
def operandByte (frame : Frame) (operand : Nat) : Except Fault UInt8 :=
  let offset := frame.cursor + 1 + operand
  match frame.code.byteAt? offset with
  | some byte => .ok byte
  | none =>
    if frame.Overflows offset then .error .overflow
    else frame.fault (.operandMissing operand)

def constant (frame : Frame) (index : Nat) : Except Fault Value :=
  match frame.code.constant? index with
  | some value => .ok value
  | none => frame.fault (.constantOutside index frame.code.constants.size)

def skip (frame : Frame) (width : Nat) : Frame :=
  { frame with cursor := frame.cursor + width }

/-- Moves the cursor past an instruction and counts that. -/
def advance (frame : Frame) (width : Nat) : Frame :=
  { frame with
    cursor := frame.cursor + width
    stats := { frame.stats with continues := frame.stats.continues + 1 } }

/-- Counts a return; the cursor stays on the instruction that returns. -/
def exit (frame : Frame) : Frame :=
  { frame with stats := { frame.stats with returns := frame.stats.returns + 1 } }

def leave (frame : Frame) : Except Fault Frame :=
  if frame.Overflows (frame.stats.returns + 1) then .error .overflow else .ok frame.exit

theorem cursor_lt_size_of_currentOpcode {frame : Frame} {opcode : Opcode}
    (h : frame.currentOpcode = .ok opcode) : frame.cursor < frame.code.size := by
  unfold currentOpcode Bytecode.byteAt? fault at h
  split at h
  · cases h
  · next byte hb => exact (Array.getElem?_eq_some_iff.mp hb).1

/-- The first operand of an instruction within the stream is there or missing; its offset is at most
the length of the stream. -/
theorem operandByte_zero {frame : Frame} (h : frame.cursor < frame.code.size) :
    frame.operandByte 0 = match frame.code.byteAt? (frame.cursor + 1) with
      | some byte => .ok byte
      | none => frame.fault (.operandMissing 0) := by
  have hn : ¬frame.Overflows (frame.cursor + 1) := fun ho => Nat.not_lt.mpr h ho.1
  unfold operandByte
  simp only [Nat.add_zero, if_neg hn]

end Frame

end RegisterMachine
