import RegisterMachine.Dispatch.Contract

/-!
# Emission

An emitter turns contracts into code units. It may keep state and may fail; nothing else is assumed
of it. The direct emitter finishes the body of a contract as it stands, within a budget of units.
-/

namespace RegisterMachine

inductive EmissionError where
  | codeSpaceExhausted (opcode : Opcode) (capacity : Nat)
  | contractMismatch (requested produced : Opcode)
  deriving DecidableEq

namespace EmissionError

def message : EmissionError → String
  | codeSpaceExhausted opcode capacity =>
    "code space exhausted emitting " ++ opcode.mnemonic ++ s!" (capacity {capacity} units)"
  | contractMismatch requested produced =>
    "emitter asked for " ++ requested.mnemonic ++ " but produced a handler for " ++
      produced.mnemonic

def debugText : EmissionError → String
  | codeSpaceExhausted opcode capacity =>
    "CodeSpaceExhausted \x7b opcode: " ++ opcode.mnemonic ++ ", capacity: " ++ toString capacity ++
      " \x7d"
  | contractMismatch requested produced =>
    "ContractMismatch \x7b requested: " ++ requested.mnemonic ++ ", produced: " ++
      produced.mnemonic ++ " \x7d"

end EmissionError

/-- Produces the unit for an opcode from a contract, in a state of type `σ`. -/
structure Emitter (σ : Type) where
  emit : Opcode → Contract → σ → Except EmissionError CodeUnit × σ

/-- The budget of an emitter, if it has one, and the units it has produced. -/
structure CodeSpace where
  capacity? : Option Nat := none
  emitted : Nat := 0
  deriving DecidableEq

def CodeSpace.exhausted? (space : CodeSpace) : Option Nat :=
  space.capacity?.filter (· ≤ space.emitted)

/-- Finishes the body of a contract directly. A contract for another opcode is refused before the
budget is looked at. -/
def Emitter.direct : Emitter CodeSpace where
  emit opcode contract space :=
    if contract.opcode ≠ opcode then (.error (.contractMismatch opcode contract.opcode), space)
    else
      match space.exhausted? with
      | some capacity => (.error (.codeSpaceExhausted opcode capacity), space)
      | none => (.ok ⟨opcode, contract.body⟩, { space with emitted := space.emitted + 1 })

end RegisterMachine
