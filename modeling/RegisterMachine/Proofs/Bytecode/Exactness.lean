import Mathlib.Logic.Function.Iterate
import RegisterMachine.Proofs.Bytecode.Draft

/-!
# Decoding is exact

Every stream is instructions without gaps, and then either nothing or a place where no instruction
lies; decoding yields just that, and so does an iterator that reads one item at a time. Conversely,
every list of instructions that a draft is given is what its bytes decode to.
-/

namespace RegisterMachine

def Decoding.items (decoding : Decoding) : List (Except DecodeError Placed) :=
  decoding.instructions.map .ok ++ decoding.error?.toList.map .error

/-- What there is to say of a decoding of a stream: the instructions are laid out without gaps and
encode as the stream up to where they end, and there is an error exactly if something is left. -/
structure Decoding.Exact (bytes : List UInt8) (decoding : Decoding) : Prop where
  consecutive : decoding.instructions = placeFrom 0 (decoding.instructions.map (·.instruction))
  encodes : decoding.instructions.flatMap (·.instruction.toBytes) = bytes.take decoding.length
  complete_iff : decoding.error? = none ↔ decoding.length = bytes.length
  invalid_iff (offset : Nat) (byte : UInt8) :
    decoding.error? = some (.invalidOpcode offset byte) ↔
      offset = decoding.length ∧ bytes[decoding.length]? = some byte ∧ 15 ≤ byte.toNat
  truncated_iff (offset : Nat) (opcode : Opcode) :
    decoding.error? = some (.truncatedOperand offset opcode) ↔
      offset = decoding.length ∧ bytes[decoding.length]? = some opcode.toByte ∧
        bytes.length < decoding.length + opcode.width

namespace Bytecode

/-- What an iterator answers whose cursor lies at an offset, and where it leaves the cursor: past an
instruction, at the end of the stream after an error, and where it was if there is nothing more. -/
def next (code : Bytecode) (offset : Nat) : Option (Except DecodeError Placed) × Nat :=
  match code.fetch offset with
  | none => (none, offset)
  | some (.error e) => (some (.error e), code.size)
  | some (.ok i) => (some (.ok ⟨offset, i⟩), offset + i.width)

theorem exact_decode (code : Bytecode) : code.decode.Exact code.bytes.toList := by
  have hbyte : ∀ offset, code.bytes.toList[offset]? = code.byteAt? offset :=
    fun offset => Array.getElem?_toList
  constructor
  · exact code.instructions_decodeAt 0
  · exact code.flatMap_toBytes_decode
  · rw [length_eq_stopOf, stopOf, Array.length_toList]
    cases he : code.decode.error? with
    | none => simp [size]
    | some e =>
      have hlt : e.offset < code.bytes.size := offset_lt_size he
      simpa using Nat.ne_of_lt hlt
  · intro offset byte
    rw [error_iff_fetch, fetch_eq_invalid_iff, hbyte]
  · intro offset opcode
    rw [error_iff_fetch, fetch_eq_truncated_iff, hbyte, Array.length_toList]
    rfl

theorem items_decodeAt (code : Bytecode) (offset : Nat) :
    code.next offset = (none, offset) ∧ (code.decodeAt offset).items = [] ∨
      ∃ item after, code.next offset = (some item, after) ∧
        (code.decodeAt offset).items = item :: (code.decodeAt after).items := by
  rw [decodeAt_eq, next]
  cases code.fetch offset with
  | none => exact Or.inl ⟨rfl, rfl⟩
  | some fetched =>
    refine Or.inr ?_
    cases fetched with
    | error e =>
      refine ⟨_, _, rfl, ?_⟩
      rw [decodeAt_eq code code.size, fetch_size]
      rfl
    | ok i => exact ⟨_, _, rfl, rfl⟩

/-- The answers of an iterator are the items, one after the other, and nothing from then on. -/
theorem next_iterate (code : Bytecode) (n offset : Nat) :
    (code.next ((fun offset => (code.next offset).2)^[n] offset)).1 =
      (code.decodeAt offset).items[n]? := by
  induction n generalizing offset with
  | zero =>
    rw [Function.iterate_zero_apply]
    rcases code.items_decodeAt offset with ⟨hnext, hitems⟩ | ⟨item, after, hnext, hitems⟩
    · rw [hnext, hitems, List.getElem?_nil]
    · rw [hnext, hitems, List.getElem?_cons_zero]
  | succ n ih =>
    rw [Function.iterate_succ_apply, ih]
    rcases code.items_decodeAt offset with ⟨hnext, hitems⟩ | ⟨item, after, hnext, hitems⟩
    · rw [hnext, hitems, List.getElem?_nil, List.getElem?_nil]
    · rw [hnext, hitems, List.getElem?_cons_succ]

/-- Decoding is exact for every stream, read at once or item by item, and what a draft emits for a
list of instructions decodes to that list. -/
theorem decode_exact (code : Bytecode) (instructions : List Instruction) :
    code.decode.Exact code.bytes.toList ∧
    (∀ n, (code.next ((fun offset => (code.next offset).2)^[n] 0)).1 = code.decode.items[n]?) ∧
    ∃ draft emitted,
      instructions.foldlM (fun draft i => draft.emit i.opcode i.operand?.toList) Draft.empty =
        .ok draft ∧
      draft.finish = .ok emitted ∧
      emitted.bytes.toList = instructions.flatMap Instruction.toBytes ∧
      emitted.decode = ⟨placeFrom 0 instructions, none⟩ := by
  refine ⟨code.exact_decode, fun n => code.next_iterate n 0, ?_⟩
  have hholds : (instructions.foldl Draft.instruction .empty).Holds instructions :=
    Draft.holds_empty.foldl instructions
  have hpool : (instructions.foldl Draft.instruction .empty).constants.size = 0 := by
    rw [Draft.constants_foldl]
    rfl
  have hfinish := hholds.finish
  rw [hpool, if_neg (Nat.not_lt_zero maxConstants)] at hfinish
  exact ⟨_, _, Draft.foldlM_emit .empty instructions, hfinish, hholds.bytes,
    decode_of_bytes hholds.bytes⟩

end Bytecode

end RegisterMachine
