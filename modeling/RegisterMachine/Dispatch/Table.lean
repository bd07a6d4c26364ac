import RegisterMachine.Digest
import RegisterMachine.Dispatch.Emission

/-!
# Dispatch tables

One slot per opcode. What the slots hold can be seen only once the table is marked as built, so that
no reader meets a table with some of its units missing.
-/

namespace RegisterMachine

structure DispatchTable where
  slots : Opcode → Option CodeUnit := fun _ => none
  built : Bool := false
  /-- The failure that ended the one build of the table. -/
  failure? : Option EmissionError := none
  fingerprint? : Option Digest.ChainingValue := none

namespace DispatchTable

def empty : DispatchTable := {}

/-- The unit for an opcode, once the table is built. -/
def get? (table : DispatchTable) (opcode : Opcode) : Option CodeUnit :=
  if table.built then table.slots opcode else none

def lookup (table : DispatchTable) (opcode : Opcode) : Except Fault CodeUnit :=
  match table.get? opcode with
  | some unit => .ok unit
  | none => .error (.unbuilt opcode)

def entries (table : DispatchTable) : List (Opcode × Option CodeUnit) :=
  Opcode.all.map fun opcode => (opcode, table.get? opcode)

def filled (table : DispatchTable) : Nat :=
  Opcode.all.countP fun opcode => (table.get? opcode).isSome

/-- Stores a unit in the slot of its label, whatever it holds. The builder asserts that a slot is
empty when it is written to; the assertion is left out here, since it cannot fail
(`slots_eq_none_of_labels`). -/
def write (table : DispatchTable) (unit : CodeUnit) : DispatchTable :=
  { table with slots := fun opcode => if opcode = unit.opcode then some unit else table.slots opcode }

/-- Stores all units and marks the table as built. Like `write` it does not look into the slots,
which are empty until then. -/
def commit (table : DispatchTable) (units : List CodeUnit) (fingerprint : Digest.ChainingValue) :
    DispatchTable :=
  { units.foldl write table with fingerprint? := some fingerprint, built := true }

/-- Records a failure; the first one stays. -/
def recordFailure (table : DispatchTable) (error : EmissionError) : DispatchTable :=
  { table with failure? := some (table.failure?.getD error) }

def debugText (table : DispatchTable) : String :=
  "DispatchTable \x7b built: " ++ toString table.built ++ ", filled: " ++ toString table.filled ++
    ", failure: " ++ table.failure?.elim "None" (fun e => "Some(" ++ e.debugText ++ ")") ++ " \x7d"

end DispatchTable

end RegisterMachine
