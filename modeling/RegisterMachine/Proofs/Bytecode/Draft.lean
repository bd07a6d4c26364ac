import RegisterMachine.Bytecode.Draft
import RegisterMachine.Proofs.Bytecode.Encoding

/-!
# What a draft holds

A draft that takes instructions and constants alone holds the encodings of the instructions, one
after the other, and a register file that is just large enough for them. When it is finished the
instructions are decoded as they were taken. A constant that is loaded is found in the pool.
-/

namespace RegisterMachine

/-- The size of the smallest file with all of the registers: none if there are none, else one more
than the highest. -/
def fileSize : List Register → Nat
  | [] => 0
  | r :: rest => max (r.index.toNat + 1) (fileSize rest)

theorem fileSize_append (first second : List Register) :
    fileSize (first ++ second) = max (fileSize first) (fileSize second) := by
  induction first with
  | nil => exact (Nat.zero_max _).symm
  | cons r rest ih => rw [List.cons_append, fileSize, fileSize, ih, Nat.max_assoc]

theorem lt_fileSize {registers : List Register} {r : Register} (h : r ∈ registers) :
    r.index.toNat < fileSize registers := by
  induction registers with
  | nil => cases h
  | cons head rest ih =>
    rw [fileSize]
    rcases List.mem_cons.mp h with rfl | h
    · omega
    · have := ih h
      omega

theorem fileSize_le (registers : List Register) : fileSize registers ≤ maxRegisters := by
  induction registers with
  | nil => exact Nat.zero_le _
  | cons r rest ih => exact Nat.max_le.mpr ⟨r.index.toNat_lt, ih⟩

example : fileSize [⟨3⟩, ⟨255⟩, ⟨0⟩] = maxRegisters := by decide

theorem fileSize_eq_zero_iff {registers : List Register} :
    fileSize registers = 0 ↔ registers = [] := by
  cases registers with
  | nil => simp [fileSize]
  | cons r rest =>
    simp only [fileSize, reduceCtorEq, iff_false]
    omega

namespace Draft

theorem foldl_register (operands : List Operand) (size : Nat) :
    operands.foldl (fun size operand => max size (operand.register?.elim 0 (·.index.toNat + 1)))
      size = max size (fileSize (operands.filterMap Operand.register?)) := by
  induction operands generalizing size with
  | nil => exact (Nat.max_zero size).symm
  | cons operand rest ih =>
    rw [List.foldl_cons, ih, List.filterMap_cons]
    cases operand.register? with
    | none => rw [Option.elim_none, Nat.max_zero]
    | some r => rw [Option.elim_some, fileSize, Nat.max_assoc]

theorem registersFor_operand (i : Instruction) :
    registersFor i.operand?.toList = fileSize (i.register?.toList) := by
  rw [registersFor, foldl_register, Nat.zero_max, Instruction.register?]
  cases i.operand? with
  | none => rfl
  | some operand => cases hr : operand.register? <;> simp [hr]

/-- The draft has taken the instructions and nothing else but constants. -/
structure Holds (draft : Draft) (instructions : List Instruction) : Prop where
  declared : draft.declared? = none
  bytes : draft.bytes.toList = instructions.flatMap Instruction.toBytes
  registers : draft.registersUsed = fileSize (instructions.filterMap Instruction.register?)

theorem holds_empty : empty.Holds [] := ⟨rfl, rfl, rfl⟩

variable {draft : Draft} {instructions : List Instruction}

theorem Holds.instruction (h : draft.Holds instructions) (i : Instruction) :
    (draft.instruction i).Holds (instructions ++ [i]) := by
  constructor
  · exact h.declared
  · rw [bytes_instruction, h.bytes, List.flatMap_append, List.flatMap_singleton]
  · change max draft.registersUsed (registersFor i.operand?.toList) = _
    rw [h.registers, registersFor_operand, List.filterMap_append, fileSize_append]
    cases hr : i.register? <;> simp [hr]

theorem Holds.pushConstant (h : draft.Holds instructions) (value : Value) :
    (draft.pushConstant value).Holds instructions := ⟨h.declared, h.bytes, h.registers⟩

theorem Holds.finish (h : draft.Holds instructions) :
    draft.finish =
      if draft.constants.size > maxConstants then .error (.constantPoolFull maxConstants)
      else .ok ⟨draft.bytes, fileSize (instructions.filterMap Instruction.register?),
        draft.constants⟩ := by
  have hcount : draft.registerCount = fileSize (instructions.filterMap Instruction.register?) := by
    rw [registerCount, h.declared, h.registers]
    rfl
  rw [Draft.finish, hcount]
  have hle := fileSize_le (instructions.filterMap Instruction.register?)
  rw [if_neg (Nat.not_lt.mpr hle)]

theorem foldlM_emit (draft : Draft) (instructions : List Instruction) :
    instructions.foldlM (fun draft i => draft.emit i.opcode i.operand?.toList) draft =
      .ok (instructions.foldl Draft.instruction draft) := by
  induction instructions generalizing draft with
  | nil => rfl
  | cons i rest ih =>
    rw [List.foldlM_cons, emit_instruction]
    exact ih _

theorem Holds.foldl (h : draft.Holds instructions) (more : List Instruction) :
    (more.foldl Draft.instruction draft).Holds (instructions ++ more) := by
  induction more generalizing draft instructions with
  | nil =>
    rw [List.append_nil]
    exact h
  | cons i rest ih =>
    rw [List.append_cons]
    exact ih (h.instruction i)

theorem constants_foldl (draft : Draft) (instructions : List Instruction) :
    (instructions.foldl Draft.instruction draft).constants = draft.constants := by
  induction instructions generalizing draft with
  | nil => rfl
  | cons i rest ih => exact ih (draft.instruction i)

theorem constants_intern (draft : Draft) (value : Value) :
    (draft.intern value).1.constants[(draft.intern value).2]? = some value := by
  rw [intern]
  cases hindex : draft.constants.idxOf? value with
  | none => exact Array.getElem?_push_size
  | some index =>
    rw [← draft.constants.toArray_toList, List.idxOf?_toArray] at hindex
    obtain ⟨hlt, hvalue, _⟩ := List.idxOf?_eq_some_iff.mp hindex
    exact Array.getElem?_eq_some_iff.mpr ⟨hlt, hvalue⟩

theorem toList_intern (draft : Draft) (value : Value) :
    (draft.intern value).1.constants.toList =
      if value ∈ draft.constants.toList then draft.constants.toList
      else draft.constants.toList ++ [value] := by
  rw [intern]
  cases hindex : draft.constants.idxOf? value with
  | none =>
    have hnew : value ∉ draft.constants.toList := by simpa using hindex
    rw [if_neg hnew]
    exact Array.toList_push
  | some index =>
    have hold : value ∈ draft.constants.toList := by
      have h := draft.constants_intern value
      rw [intern, hindex] at h
      exact Array.mem_toList_iff.mpr (Array.mem_of_getElem? h)
    rw [if_pos hold]

/-! ### Drafts put together -/

/-- A draft with the contents of another behind its own. The later declaration counts. -/
def followedBy (draft next : Draft) : Draft where
  bytes := draft.bytes ++ next.bytes
  constants := draft.constants ++ next.constants
  declared? := next.declared?.or draft.declared?
  registersUsed := max draft.registersUsed next.registersUsed

@[simp] theorem followedBy_empty (draft : Draft) : draft.followedBy empty = draft := by
  simp [followedBy, empty]

theorem followedBy_assoc (first second third : Draft) :
    (first.followedBy second).followedBy third = first.followedBy (second.followedBy third) := by
  simp [followedBy, Array.append_assoc, Option.or_assoc, Nat.max_assoc]

theorem finish_eq_ok_iff {draft : Draft} {code : Bytecode} :
    draft.finish = .ok code ↔
      draft.constants.size ≤ maxConstants ∧ draft.registerCount ≤ maxRegisters ∧
        code = ⟨draft.bytes, draft.registerCount, draft.constants⟩ := by
  rw [finish]
  by_cases hfull : draft.constants.size > maxConstants
  · rw [if_pos hfull]
    exact iff_of_false nofun fun h => Nat.not_lt.mpr h.1 hfull
  · rw [if_neg hfull]
    by_cases hlarge : draft.registerCount > maxRegisters
    · rw [if_pos hlarge]
      exact iff_of_false nofun fun h => Nat.not_lt.mpr h.2.1 hlarge
    · rw [if_neg hlarge, Except.ok.injEq, eq_comm]
      simp [Nat.not_lt.mp hfull, Nat.not_lt.mp hlarge]

/-- Where one of two drafts at most declares a register count, the count of both together is
declared, or else it is the larger one. -/
theorem registerCount_followedBy {draft next : Draft}
    (h : draft.declared? = none ∨ next.declared? = none) :
    (draft.followedBy next).registerCount =
      (draft.declared?.or next.declared?).getD (max draft.registerCount next.registerCount) := by
  simp only [registerCount, followedBy]
  rcases h with h | h
  · rw [h]
    cases next.declared? <;> rfl
  · rw [h]
    cases draft.declared? <;> rfl

theorem finish_followedBy {draft next : Draft} {code more : Bytecode}
    (hcode : draft.finish = .ok code) (hmore : next.finish = .ok more)
    (h : draft.declared? = none ∨ next.declared? = none) :
    (draft.followedBy next).finish =
      if code.constants.size + more.constants.size > maxConstants then
        .error (.constantPoolFull maxConstants)
      else
        .ok ⟨code.bytes ++ more.bytes,
          (draft.declared?.or next.declared?).getD (max code.registerCount more.registerCount),
          code.constants ++ more.constants⟩ := by
  obtain ⟨_, hcount, rfl⟩ := finish_eq_ok_iff.mp hcode
  obtain ⟨_, hcount', rfl⟩ := finish_eq_ok_iff.mp hmore
  have hsize : (draft.followedBy next).constants.size =
      draft.constants.size + next.constants.size := Array.size_append
  have hle : (draft.followedBy next).registerCount ≤ maxRegisters := by
    rw [registerCount_followedBy h]
    have hmax := Nat.max_le.mpr ⟨hcount, hcount'⟩
    cases hfirst : draft.declared? with
    | some count =>
      rw [registerCount, hfirst] at hcount
      exact hcount
    | none =>
      cases hsecond : next.declared? with
      | some count =>
        rw [registerCount, hsecond] at hcount'
        exact hcount'
      | none => exact hmax
  rw [finish, hsize, if_neg (Nat.not_lt.mpr hle), registerCount_followedBy h]
  rfl

end Draft

end RegisterMachine
