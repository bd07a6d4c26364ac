import RegisterMachine.Bytecode.Basic

/-!
# Drafts

Bytecode under construction. A draft takes instructions and constants in any number; the limits of
the encoding are checked when it is finished. Unless a register count is declared, the register file
is as large as the instructions need. Raw bytes are not decoded, so they need no registers.
-/

namespace RegisterMachine

inductive EncodeError where
  | constantPoolFull (limit : Nat)
  | tooManyRegisters (count limit : Nat)
  deriving DecidableEq

def EncodeError.message : EncodeError → String
  | constantPoolFull limit => s!"constant pool full ({limit} entries)"
  | tooManyRegisters count limit => s!"register count {count} exceeds limit {limit}"

structure OperandCountMismatch where
  opcode : Opcode
  given : Nat
  deriving DecidableEq

def OperandCountMismatch.message (e : OperandCountMismatch) : String :=
  "assertion `left == right` failed: operand count mismatch for " ++ e.opcode.mnemonic ++
    s!"\n  left: {e.opcode.operandCount}\n right: {e.given}"

structure Draft where
  bytes : Array UInt8 := #[]
  constants : Array Value := #[]
  declared? : Option Nat := none
  /-- The size of the smallest register file that holds every register mentioned. -/
  registersUsed : Nat := 0
  deriving DecidableEq

namespace Draft

def empty : Draft := {}

def registersFor (operands : List Operand) : Nat :=
  operands.foldl (fun size operand => max size (operand.register?.elim 0 (·.index.toNat + 1))) 0

/-- Appends an opcode and the bytes of its operands, whatever their number and kinds. -/
def append (draft : Draft) (opcode : Opcode) (operands : List Operand) : Draft :=
  { draft with
    bytes := draft.bytes.push opcode.toByte ++ operands.map Operand.toByte
    registersUsed := max draft.registersUsed (registersFor operands) }

def emit (draft : Draft) (opcode : Opcode) (operands : List Operand) :
    Except OperandCountMismatch Draft :=
  if operands.length = opcode.operandCount then .ok (draft.append opcode operands)
  else .error ⟨opcode, operands.length⟩

def instruction (draft : Draft) (i : Instruction) : Draft := draft.append i.opcode i.operand?.toList

def raw (draft : Draft) (bytes : List UInt8) : Draft := { draft with bytes := draft.bytes ++ bytes }

def declareRegisters (draft : Draft) (count : Nat) : Draft := { draft with declared? := some count }

def pushConstant (draft : Draft) (value : Value) : Draft :=
  { draft with constants := draft.constants.push value }

/-- The draft with a constant in its pool, and the index of the constant there. An equal entry is
used again. -/
def intern (draft : Draft) (value : Value) : Draft × Nat :=
  match draft.constants.idxOf? value with
  | some index => (draft, index)
  | none => (draft.pushConstant value, draft.constants.size)

/-- Appends an instruction that loads a constant. An index beyond the largest pool is written as the
last index of such a pool; a draft with so many constants cannot be finished. -/
def loadConstant (draft : Draft) (value : Value) : Draft :=
  let (draft, index) := draft.intern value
  draft.append .ldaConstant [.idx (.ofNat (min index (maxConstants - 1)))]

def registerCount (draft : Draft) : Nat := draft.declared?.getD draft.registersUsed

/-- The bytecode of a draft within the limits; the constant pool is checked first. -/
def finish (draft : Draft) : Except EncodeError Bytecode :=
  if draft.constants.size > maxConstants then .error (.constantPoolFull maxConstants)
  else if draft.registerCount > maxRegisters then
    .error (.tooManyRegisters draft.registerCount maxRegisters)
  else .ok ⟨draft.bytes, draft.registerCount, draft.constants⟩

inductive Call where
  | declareRegisters (count : Nat)
  | pushConstant (value : Value)
  | loadConstant (value : Value)
  | raw (bytes : List UInt8)
  | instruction (i : Instruction)
  | emit (opcode : Opcode) (operands : List Operand)
  deriving DecidableEq

/-- The answer to a call, the index of a constant that was pushed, and the draft after it. A refused
call leaves the draft as it was. -/
def perform (draft : Draft) : Call → Except OperandCountMismatch (Option Nat) × Draft
  | .declareRegisters count => (.ok none, draft.declareRegisters count)
  | .pushConstant value => (.ok (some draft.constants.size), draft.pushConstant value)
  | .loadConstant value => (.ok none, draft.loadConstant value)
  | .raw bytes => (.ok none, draft.raw bytes)
  | .instruction i => (.ok none, draft.instruction i)
  | .emit opcode operands =>
    match draft.emit opcode operands with
    | .ok draft => (.ok none, draft)
    | .error e => (.error e, draft)

def performAll (draft : Draft) (calls : List Call) : Draft :=
  calls.foldl (fun draft call => (draft.perform call).2) draft

theorem length_operands (i : Instruction) : i.operand?.toList.length = i.opcode.operandCount := by
  unfold Opcode.operandCount
  rw [← i.kind_eq]
  cases i.operand? <;> rfl

theorem emit_instruction (draft : Draft) (i : Instruction) :
    draft.emit i.opcode i.operand?.toList = .ok (draft.instruction i) := by
  simp [emit, instruction, length_operands]

theorem bytes_instruction (draft : Draft) (i : Instruction) :
    (draft.instruction i).bytes.toList = draft.bytes.toList ++ i.toBytes := by
  simp [instruction, append, Instruction.toBytes]

end Draft

end RegisterMachine
