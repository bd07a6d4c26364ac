import RegisterMachine.Proofs.Bytecode.Draft
import RegisterMachine.Proofs.Verification.Soundness

/-!
# Drafts and verification

The typed calls put only operands into a draft that its bytecode provides for: the register file
grows with the registers that are mentioned, and a constant is in the pool before it is loaded. What
verification can still object to is where the returns are, and a return without registers.
-/

namespace RegisterMachine

/-- The calls that cannot misplace an operand. A constant to load is given itself, its index is
found by the draft; every other instruction comes with its operand. -/
inductive TypedCall where
  | pushConstant (value : Value)
  | loadConstant (value : Value)
  | instruction (i : Instruction) (h : i.opcode ≠ .ldaConstant)

namespace TypedCall

def toCall : TypedCall → Draft.Call
  | pushConstant value => .pushConstant value
  | loadConstant value => .loadConstant value
  | instruction i _ => .instruction i

def opcode? : TypedCall → Option Opcode
  | pushConstant _ => none
  | loadConstant _ => some .ldaConstant
  | instruction i _ => some i.opcode

def register? : TypedCall → Option Register
  | pushConstant _ | loadConstant _ => none
  | instruction i _ => i.register?

/-- The constant pool after a call. A constant that is loaded is added unless it is there. -/
def extend (pool : List Value) : TypedCall → List Value
  | pushConstant value => pool ++ [value]
  | loadConstant value => if value ∈ pool then pool else pool ++ [value]
  | instruction _ _ => pool

theorem length_le_extend (call : TypedCall) (pool : List Value) :
    pool.length ≤ (call.extend pool).length := by
  have hpush : ∀ value, pool.length ≤ (pool ++ [value]).length := fun value =>
    List.length_append ▸ Nat.le_add_right _ _
  cases call with
  | pushConstant value => exact hpush value
  | loadConstant value =>
    rw [extend]
    split
    · exact Nat.le_refl _
    · exact hpush value
  | instruction i h => exact Nat.le_refl _

end TypedCall

/-- Only one opcode takes an index into the constant pool. -/
theorem Instruction.opcode_of_constantIndex? {i : Instruction} {index : Nat}
    (h : i.constantIndex? = some index) : i.opcode = .ldaConstant := by
  obtain ⟨opcode, operand?, hk⟩ := i
  obtain ⟨operand, rfl, hindex⟩ := Option.bind_eq_some_iff.mp h
  cases operand with
  | imm value => cases hindex
  | reg r => cases hindex
  | idx index => cases opcode <;> first | rfl | cases hk

namespace Decoding

theorem returnsLast_iff_opcodes {decoding : Decoding} :
    decoding.ReturnsLast ↔
      ∃ front, decoding.instructions.map (·.instruction.opcode) = front ++ [.ret] ∧
        .ret ∉ front := by
  constructor
  · rintro ⟨path, final, hd, hr, hp⟩
    refine ⟨path.map (·.instruction.opcode), by rw [hd, List.map_append, List.map_singleton, hr], ?_⟩
    intro hmem
    obtain ⟨placed, hplaced, hret⟩ := List.mem_map.mp hmem
    exact hp placed hplaced hret
  · rintro ⟨front, hmap, hfront⟩
    obtain ⟨path, last, hd, rfl, hlast⟩ := List.map_eq_append_iff.mp hmap
    obtain ⟨final, rfl, hr⟩ := List.map_eq_singleton_iff.mp hlast
    exact ⟨path, final, hd, hr, fun placed hm hret => hfront (List.mem_map.mpr ⟨placed, hm, hret⟩)⟩

theorem mem_structuralViolations {decoding : Decoding} (he : decoding.error? = none)
    {violation : Violation} (hv : violation ∈ decoding.structuralViolations) :
    violation = .missingReturn := by
  rw [structuralViolations, he] at hv
  dsimp only at hv
  split at hv
  · cases hv
  · exact List.mem_singleton.mp hv

end Decoding

namespace Bytecode

/-- Bytecode of the instructions, of sizes that are within the limits and enough for the
operands. -/
structure Sized (code : Bytecode) (instructions : List Instruction) : Prop where
  bytes : code.bytes.toList = instructions.flatMap Instruction.toBytes
  limits : code.limitViolations = []
  registers : ∀ i ∈ instructions, ∀ r, i.register? = some r → r.index.toNat < code.registerCount
  constants : ∀ i ∈ instructions, ∀ index, i.constantIndex? = some index →
    index < code.constants.size

variable {code : Bytecode} {instructions : List Instruction}

theorem Sized.error?_decode (h : code.Sized instructions) : code.decode.error? = none := by
  rw [decode_of_bytes h.bytes]

theorem Sized.map_instruction (h : code.Sized instructions) :
    code.decode.instructions.map (·.instruction) = instructions := by
  rw [decode_of_bytes h.bytes, map_instruction_placeFrom]

theorem Sized.instructionViolations (h : code.Sized instructions) {placed : Placed}
    (hm : placed ∈ code.decode.instructions) :
    code.instructionViolations placed =
      if placed.instruction.opcode = .ret ∧ code.registerCount = 0 then
        [.returnWithoutResult placed.offset] else [] := by
  have hi : placed.instruction ∈ instructions := by
    rw [← h.map_instruction]
    exact List.mem_map_of_mem hm
  have hr : placed.instruction.register?.filter (code.registerCount ≤ ·.index.toNat) = none := by
    rw [Option.filter_eq_none_iff]
    intro r hr
    simpa using h.registers _ hi r hr
  have hc : placed.instruction.constantIndex?.filter (code.constants.size ≤ ·) = none := by
    rw [Option.filter_eq_none_iff]
    intro index hc
    simpa using h.constants _ hi index hc
  rw [Bytecode.instructionViolations, hr, hc]
  rfl

theorem Sized.mem_violations (h : code.Sized instructions) {violation : Violation}
    (hv : violation ∈ code.violations) :
    violation = .missingReturn ∨ (∃ offset, violation = .returnWithoutResult offset) ∨
      ∃ offset, violation = .unreachable offset := by
  rw [violations, h.limits, List.nil_append, h.error?_decode, Option.isSome_none,
    if_neg Bool.false_ne_true] at hv
  rcases List.mem_append.mp hv with hv | hv
  · exact Or.inl (Decoding.mem_structuralViolations h.error?_decode hv)
  rcases List.mem_append.mp hv with hv | hv
  · obtain ⟨placed, hm, hv⟩ := List.mem_flatMap.mp hv
    rw [h.instructionViolations hm] at hv
    split at hv
    · exact Or.inr (Or.inl ⟨_, List.mem_singleton.mp hv⟩)
    · cases hv
  · obtain ⟨placed, _, rfl⟩ := List.mem_map.mp hv
    exact Or.inr (Or.inr ⟨placed.offset, rfl⟩)

theorem Sized.operandViolations_eq_nil_iff (h : code.Sized instructions) :
    code.operandViolations = [] ↔
      ∀ placed ∈ code.decode.instructions,
        ¬ (placed.instruction.opcode = .ret ∧ code.registerCount = 0) := by
  rw [operandViolations, List.flatMap_eq_nil_iff]
  refine forall₂_congr fun placed hm => ?_
  rw [h.instructionViolations hm]
  simp

theorem Sized.violations_eq_nil_iff (h : code.Sized instructions) :
    code.violations = [] ↔
      (∃ front, instructions.map (·.opcode) = front ++ [.ret] ∧ .ret ∉ front) ∧
        code.registerCount ≠ 0 := by
  have hopcodes : code.decode.instructions.map (·.instruction.opcode) =
      instructions.map (·.opcode) := by
    rw [← h.map_instruction, List.map_map]
    rfl
  rw [Bytecode.violations_eq_nil_iff, ← limitViolations_eq_nil_iff, h.operandViolations_eq_nil_iff,
    ← hopcodes, ← Decoding.returnsLast_iff_opcodes]
  constructor
  · rintro ⟨_, _, hno, hlast⟩
    refine ⟨hlast, ?_⟩
    obtain ⟨path, final, hd, hr, _⟩ := hlast
    have hm : final ∈ code.decode.instructions := by
      rw [hd]
      exact List.mem_append_right _ (List.mem_singleton_self _)
    exact fun hz => hno final hm ⟨hr, hz⟩
  · rintro ⟨hlast, hz⟩
    exact ⟨h.limits, h.error?_decode, fun _ _ hreturn => hz hreturn.2, hlast⟩

end Bytecode

namespace Draft

def load (index : Nat) : Instruction :=
  ⟨.ldaConstant, some (.idx (.ofNat (min index (maxConstants - 1)))), rfl⟩

theorem loadConstant_eq (draft : Draft) (value : Value) :
    draft.loadConstant value =
      (draft.intern value).1.instruction (load (draft.intern value).2) := rfl

theorem lt_of_load {index loaded size : Nat} (h : index < size)
    (hl : (load index).constantIndex? = some loaded) : loaded < size := by
  have hclamp : min index (maxConstants - 1) < 256 :=
    Nat.lt_of_le_of_lt (Nat.min_le_right _ _) (by decide)
  obtain rfl := Option.some.inj hl
  rw [UInt8.toNat_ofNat_of_lt' hclamp]
  exact Nat.lt_of_le_of_lt (Nat.min_le_left _ _) h

/-- What a sequence of typed calls has made of a draft: it holds the instructions that the calls
emitted, and its pool has every constant that one of them loads. -/
structure Follows (draft : Draft) (calls : List TypedCall) (instructions : List Instruction) :
    Prop where
  holds : draft.Holds instructions
  opcodes : instructions.map (·.opcode) = calls.filterMap TypedCall.opcode?
  registers : instructions.filterMap Instruction.register? = calls.filterMap TypedCall.register?
  pool : draft.constants.toList = calls.foldl TypedCall.extend []
  pooled : ∀ i ∈ instructions, ∀ index, i.constantIndex? = some index →
    index < draft.constants.size

theorem follows_empty : empty.Follows [] [] := ⟨holds_empty, rfl, rfl, rfl, nofun⟩

variable {draft next : Draft} {calls : List TypedCall} {instructions : List Instruction}

/-- One more call. An instruction that it emits loads a constant only from the pool after it. -/
theorem Follows.snoc (h : draft.Follows calls instructions) {call : TypedCall}
    {emitted : List Instruction} (hholds : next.Holds (instructions ++ emitted))
    (hopcode : emitted.map (·.opcode) = [call].filterMap TypedCall.opcode?)
    (hregister : emitted.filterMap Instruction.register? = [call].filterMap TypedCall.register?)
    (hpool : next.constants.toList = call.extend draft.constants.toList)
    (hpooled : ∀ i ∈ emitted, ∀ index, i.constantIndex? = some index →
      index < next.constants.size) :
    next.Follows (calls ++ [call]) (instructions ++ emitted) where
  holds := hholds
  opcodes := by rw [List.map_append, h.opcodes, List.filterMap_append, hopcode]
  registers := by rw [List.filterMap_append, h.registers, List.filterMap_append, hregister]
  pool := by rw [hpool, h.pool, List.foldl_append, List.foldl_cons, List.foldl_nil]
  pooled := by
    have hgrown : draft.constants.size ≤ next.constants.size := by
      rw [← Array.length_toList, ← Array.length_toList, hpool]
      exact call.length_le_extend _
    intro i hi index hindex
    rcases List.mem_append.mp hi with hi | hi
    · exact Nat.lt_of_lt_of_le (h.pooled i hi index hindex) hgrown
    · exact hpooled i hi index hindex

theorem Holds.intern (h : draft.Holds instructions) (value : Value) :
    (draft.intern value).1.Holds instructions := by
  rw [Draft.intern]
  cases draft.constants.idxOf? value with
  | none => exact h.pushConstant value
  | some index => exact h

theorem Follows.perform (h : draft.Follows calls instructions) (call : TypedCall) :
    ∃ instructions, (draft.perform call.toCall).2.Follows (calls ++ [call]) instructions := by
  cases call with
  | pushConstant value =>
    refine ⟨instructions ++ [], h.snoc ?_ rfl rfl Array.toList_push nofun⟩
    rw [List.append_nil]
    exact h.holds.pushConstant value
  | loadConstant value =>
    change ∃ instructions, (draft.loadConstant value).Follows _ instructions
    rw [loadConstant_eq]
    have hfound := draft.constants_intern value
    have hholds := (h.holds.intern value).instruction (load (draft.intern value).2)
    refine ⟨_, h.snoc hholds rfl rfl (draft.toList_intern value) ?_⟩
    intro i hi index hindex
    obtain rfl := List.mem_singleton.mp hi
    exact lt_of_load (Array.getElem?_eq_some_iff.mp hfound).1 hindex
  | instruction i hi =>
    refine ⟨instructions ++ [i], h.snoc (h.holds.instruction i) rfl rfl rfl ?_⟩
    intro j hj index hindex
    obtain rfl := List.mem_singleton.mp hj
    exact absurd (Instruction.opcode_of_constantIndex? hindex) hi

theorem Follows.performAll (h : draft.Follows calls instructions) (more : List TypedCall) :
    ∃ instructions,
      (draft.performAll (more.map TypedCall.toCall)).Follows (calls ++ more) instructions := by
  induction more generalizing draft calls instructions with
  | nil =>
    rw [List.append_nil]
    exact ⟨instructions, h⟩
  | cons call rest ih =>
    obtain ⟨_, hnext⟩ := h.perform call
    rw [List.append_cons]
    exact ih hnext

theorem exists_follows (calls : List TypedCall) :
    ∃ instructions, (empty.performAll (calls.map TypedCall.toCall)).Follows calls instructions :=
  follows_empty.performAll calls

theorem Follows.sized (h : draft.Follows calls instructions)
    (hle : draft.constants.size ≤ maxConstants) :
    Bytecode.Sized
      ⟨draft.bytes, fileSize (instructions.filterMap Instruction.register?), draft.constants⟩
      instructions where
  bytes := h.holds.bytes
  limits := Bytecode.limitViolations_eq_nil_iff.mpr ⟨fileSize_le _, hle⟩
  registers := fun i hi _ hr => lt_fileSize (List.mem_filterMap.mpr ⟨i, hi, hr⟩)
  constants := h.pooled

/-- What verification makes of the bytecode of typed calls. A draft is finished unless the pool is
beyond its limit; the register file is as large as the registers mentioned need; nothing but returns
is objected to; and there is no violation exactly if the one return is the last instruction and some
register is mentioned. -/
theorem finish_typed_calls (calls : List TypedCall) :
    let draft := empty.performAll (calls.map TypedCall.toCall)
    let pool := calls.foldl TypedCall.extend []
    let opcodes := calls.filterMap TypedCall.opcode?
    let registers := calls.filterMap TypedCall.register?
    (maxConstants < pool.length ∧ draft.finish = .error (.constantPoolFull maxConstants)) ∨
    (pool.length ≤ maxConstants ∧ ∃ code, draft.finish = .ok code ∧
      code.constants.toList = pool ∧ code.registerCount = fileSize registers ∧
      (∀ violation ∈ code.violations,
        violation = .missingReturn ∨ (∃ offset, violation = .returnWithoutResult offset) ∨
          ∃ offset, violation = .unreachable offset) ∧
      (code.violations = [] ↔
        (∃ front, opcodes = front ++ [.ret] ∧ .ret ∉ front) ∧ registers ≠ [])) := by
  intro draft pool opcodes registers
  obtain ⟨instructions, h⟩ := exists_follows calls
  have hfinish := h.holds.finish
  have hsize : draft.constants.size = pool.length := by rw [← Array.length_toList, h.pool]
  by_cases hfull : maxConstants < pool.length
  · exact Or.inl ⟨hfull, hfinish.trans (if_pos (hsize ▸ hfull))⟩
  · have hle : pool.length ≤ maxConstants := Nat.le_of_not_lt hfull
    have hsized := h.sized (hsize ▸ hle)
    refine Or.inr ⟨hle, _, hfinish.trans (if_neg (hsize ▸ hfull)), h.pool, ?_,
      fun _ hv => hsized.mem_violations hv, ?_⟩
    · rw [h.registers]
    · rw [hsized.violations_eq_nil_iff, h.opcodes, h.registers, Ne, fileSize_eq_zero_iff]

end Draft

end RegisterMachine
