/-!
# Pinned slots

A fixed number of slots of equal width in one region of memory, which never moves. Addresses are
natural numbers, and the region is never empty, even if the slots take no room.
-/

namespace RegisterMachine

/-- The addresses from `start` up to `stop`, without `stop`. -/
structure Region where
  start : Nat
  stop : Nat
  deriving DecidableEq

def Region.contains (region : Region) (address : Nat) : Bool :=
  region.start ≤ address && address < region.stop

structure PinnedSlots (α : Type) where
  start : Nat
  /-- The bytes that one slot takes. -/
  width : Nat
  slots : Array α

structure OutOfBounds where
  length : Nat
  index : Nat
  deriving DecidableEq

def OutOfBounds.message (e : OutOfBounds) : String :=
  s!"index out of bounds: the len is {e.length} but the index is {e.index}"

namespace PinnedSlots

variable {α : Type}

def region (pinned : PinnedSlots α) : Region :=
  ⟨pinned.start, pinned.start + max (pinned.slots.size * pinned.width) 1⟩

def get (pinned : PinnedSlots α) (index : Nat) : Except OutOfBounds α :=
  match pinned.slots[index]? with
  | some slot => .ok slot
  | none => .error ⟨pinned.slots.size, index⟩

def addressOf (pinned : PinnedSlots α) (index : Nat) : Nat := pinned.start + index * pinned.width

def addresses (pinned : PinnedSlots α) : List Nat :=
  (List.range pinned.slots.size).map pinned.addressOf

theorem contains_addressOf (pinned : PinnedSlots α) (index : Nat) (h : index < pinned.slots.size)
    (hw : 0 < pinned.width) : pinned.region.contains (pinned.addressOf index) = true := by
  have : (index + 1) * pinned.width ≤ pinned.slots.size * pinned.width :=
    Nat.mul_le_mul_right _ h
  rw [Nat.succ_mul] at this
  simp [Region.contains, region, addressOf]
  omega

end PinnedSlots

end RegisterMachine
