import RegisterMachine.Dispatch.Table
import RegisterMachine.Placement

/-!
# Addresses

Nominal addresses for the slots of a table and for the code of its units. Both are laid out in the
order of the opcodes; nothing but their order and their region is meant.
-/

namespace RegisterMachine

def addressText (address : Nat) : String := "0x" ++ String.ofList (Nat.toDigits 16 address)

namespace CodeUnit

def entry (unit : CodeUnit) : Nat := 0x400000 + 0x100 * unit.opcode.ordinal

def debugText (unit : CodeUnit) : String :=
  "CodeUnit \x7b opcode: " ++ unit.opcode.mnemonic ++ ", entry: " ++ addressText unit.entry ++ " \x7d"

end CodeUnit

namespace DispatchTable

def pinned (table : DispatchTable) : PinnedSlots (Option CodeUnit) where
  start := 0x100000
  width := 24
  slots := (Opcode.all.map table.get?).toArray

end DispatchTable

end RegisterMachine
