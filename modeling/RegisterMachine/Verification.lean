import RegisterMachine.Bytecode.Basic

/-!
# Verification

What a static look at bytecode finds wrong with it. Four passes are made over the decoded stream:
the limits of the encoding, the structure of the stream, the operands, and the instructions that no
run reaches. A stream that does not decode has no further structure, so the last two passes are
left out for it.
-/

namespace RegisterMachine

/-- A violation of what execution relies on; offsets are those of opcode bytes. -/
inductive Violation where
  | undecodable (error : DecodeError)
  | tooManyRegisters (count limit : Nat)
  | tooManyConstants (count limit : Nat)
  | registerOutOfBounds (offset : Nat) (register : Register) (count : Nat)
  | constantOutOfBounds (offset : Nat) (index poolSize : Nat)
  | missingReturn
  | returnWithoutResult (offset : Nat)
  | unreachable (offset : Nat)
  deriving DecidableEq

namespace Violation

def message : Violation → String
  | undecodable error => error.message
  | tooManyRegisters count limit => s!"register count {count} exceeds limit {limit}"
  | tooManyConstants count limit => s!"constant pool of {count} entries exceeds limit {limit}"
  | registerOutOfBounds offset register count =>
    "register " ++ register.text ++
      s!" at offset {offset} is outside a register file of {count}"
  | constantOutOfBounds offset index poolSize =>
    s!"constant [{index}] at offset {offset} is outside a pool of {poolSize}"
  | missingReturn => "bytecode does not end with Return"
  | returnWithoutResult offset =>
    s!"Return at offset {offset} needs r0 but the register file is empty"
  | unreachable offset => s!"unreachable instruction at offset {offset}"

end Violation

namespace Bytecode

def limitViolations (code : Bytecode) : List Violation :=
  (if code.registerCount > maxRegisters then
      [.tooManyRegisters code.registerCount maxRegisters] else []) ++
  (if code.constants.size > maxConstants then
      [.tooManyConstants code.constants.size maxConstants] else [])

end Bytecode

namespace Decoding

/-- A stream decodes to its end, and its last instruction returns. -/
def structuralViolations (decoding : Decoding) : List Violation :=
  match decoding.error? with
  | some error => [.undecodable error]
  | none =>
    if decoding.instructions.getLast?.any (·.instruction.opcode = .ret) then []
    else [.missingReturn]

def afterReturn (decoding : Decoding) : List Placed :=
  (decoding.instructions.dropWhile (·.instruction.opcode ≠ .ret)).drop 1

def reachabilityViolations (decoding : Decoding) : List Violation :=
  decoding.afterReturn.map (.unreachable ·.offset)

end Decoding

namespace Bytecode

/-- The violations of one instruction: a register outside the register file, a constant outside the
pool, or a return without the register that holds the result. -/
def instructionViolations (code : Bytecode) (placed : Placed) : List Violation :=
  let i := placed.instruction
  ((i.register?.filter (code.registerCount ≤ ·.index.toNat)).map
    (.registerOutOfBounds placed.offset · code.registerCount)).toList ++
  ((i.constantIndex?.filter (code.constants.size ≤ ·)).map
    (.constantOutOfBounds placed.offset · code.constants.size)).toList ++
  (if i.opcode = .ret ∧ code.registerCount = 0 then [.returnWithoutResult placed.offset] else [])

def operandViolations (code : Bytecode) : List Violation :=
  code.decode.instructions.flatMap code.instructionViolations

def violations (code : Bytecode) : List Violation :=
  let decoding := code.decode
  code.limitViolations ++ decoding.structuralViolations ++
    if decoding.error?.isSome then []
    else code.operandViolations ++ decoding.reachabilityViolations

end Bytecode

end RegisterMachine
