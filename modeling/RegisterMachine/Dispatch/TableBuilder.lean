import RegisterMachine.Dispatch.Table

/-!
# Building tables

A builder owns an emitter and may serve many tables; a table may be offered to many builders. A
table is built at most once: all units are emitted, in the order of the opcodes, before the first
slot is written, and a failure is recorded on the table and not tried again.
-/

namespace RegisterMachine

inductive BuildOutcome where
  | built (handlers : Nat)
  | alreadyBuilt
  deriving DecidableEq

inductive BuildError where
  | emission (error : EmissionError)
  | previouslyFailed (error : EmissionError)
  deriving DecidableEq

def BuildError.message : BuildError → String
  | emission error => "dispatch table build failed: " ++ error.message
  | previouslyFailed error => "dispatch table build previously failed: " ++ error.message

structure TableBuilder (σ : Type) where
  emitter : Emitter σ
  state : σ
  /-- The emission passes run so far, over all tables. -/
  passes : Nat := 0

def TableBuilder.direct (capacity? : Option Nat) : TableBuilder CodeSpace where
  emitter := .direct
  state := { capacity? }

variable {σ : Type}

namespace Emitter

/-- Emits the units for opcodes in order, with the bytes that their contracts contribute to the
fingerprint. Emission stops at the first error, and a unit labelled with another opcode is one. -/
def stage (emitter : Emitter σ) :
    List Opcode → σ → Except EmissionError (List CodeUnit × List UInt8) × σ
  | [], state => (.ok ([], []), state)
  | opcode :: rest, state =>
    match emitter.emit opcode (.of opcode) state with
    | (.error e, state) => (.error e, state)
    | (.ok unit, state) =>
      if unit.opcode ≠ opcode then (.error (.contractMismatch opcode unit.opcode), state)
      else
        match emitter.stage rest state with
        | (.error e, state) => (.error e, state)
        | (.ok (units, layout), state) =>
          (.ok (unit :: units, (Contract.of opcode).layout ++ layout), state)

end Emitter

namespace TableBuilder

def ensureBuilt (builder : TableBuilder σ) (table : DispatchTable) :
    Except BuildError BuildOutcome × TableBuilder σ × DispatchTable :=
  if table.built then (.ok .alreadyBuilt, builder, table)
  else
    match table.failure? with
    | some e => (.error (.previouslyFailed e), builder, table)
    | none =>
      match builder.emitter.stage Opcode.all builder.state with
      | (.ok (units, layout), state) =>
        (.ok (.built units.length), { builder with state, passes := builder.passes + 1 },
          table.commit units (Digest.hash layout))
      | (.error e, state) =>
        (.error (.emission e), { builder with state, passes := builder.passes + 1 },
          table.recordFailure e)

end TableBuilder

def DispatchTable.standard : DispatchTable :=
  ((TableBuilder.direct none).ensureBuilt .empty).2.2

end RegisterMachine
