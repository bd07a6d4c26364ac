import RegisterMachine.Proofs.Execution.Path
import RegisterMachine.Verification

/-!
# Violations foresee failures

The violations of one instruction and its contract speak of the same thing: on a register file of
the declared size the contract fails exactly if there is a violation, of which there is then one,
and the violation tells what the failure will be.
-/

namespace RegisterMachine

/-- A failure of a run that is known before the run. -/
structure Prediction where
  offset : Nat
  detail : Inconsistency
  deriving DecidableEq

def Prediction.fault (prediction : Prediction) : Fault :=
  .inconsistent prediction.offset prediction.detail

/-- The failure that a violation predicts, if it predicts one. A return without result looks for the
first register in a file of none. -/
def Violation.prediction? : Violation → Option Prediction
  | undecodable e => some ⟨e.offset, e.inconsistency⟩
  | registerOutOfBounds offset r count => some ⟨offset, .registerOutside r count⟩
  | constantOutOfBounds offset index poolSize => some ⟨offset, .constantOutside index poolSize⟩
  | returnWithoutResult offset => some ⟨offset, .registerOutside ⟨0⟩ 0⟩
  | tooManyRegisters .. | tooManyConstants .. | missingReturn | unreachable _ => none

namespace Bytecode

variable {code : Bytecode} {offset : Nat} {i : Instruction}

theorem instructionViolations_of_none (ho : i.operand? = none) (hr : i.opcode ≠ .ret) :
    code.instructionViolations ⟨offset, i⟩ = [] := by
  simp [instructionViolations, Instruction.register?, Instruction.constantIndex?, ho, hr]

theorem instructionViolations_of_imm {n : Int8} (ho : i.operand? = some (.imm n))
    (hr : i.opcode ≠ .ret) : code.instructionViolations ⟨offset, i⟩ = [] := by
  simp [instructionViolations, Instruction.register?, Instruction.constantIndex?, ho, hr,
    Operand.register?, Operand.constantIndex?]

theorem instructionViolations_of_reg {r : Register} (ho : i.operand? = some (.reg r))
    (hr : i.opcode ≠ .ret) :
    code.instructionViolations ⟨offset, i⟩ =
      if code.registerCount ≤ r.index.toNat then
        [.registerOutOfBounds offset r code.registerCount] else [] := by
  by_cases hc : code.registerCount ≤ r.index.toNat <;>
    simp [instructionViolations, Instruction.register?, Instruction.constantIndex?, ho, hr,
      Operand.register?, Operand.constantIndex?, Option.filter, hc]

theorem instructionViolations_of_idx {index : UInt8} (ho : i.operand? = some (.idx index))
    (hr : i.opcode ≠ .ret) :
    code.instructionViolations ⟨offset, i⟩ =
      if code.constants.size ≤ index.toNat then
        [.constantOutOfBounds offset index.toNat code.constants.size] else [] := by
  by_cases hc : code.constants.size ≤ index.toNat <;>
    simp [instructionViolations, Instruction.register?, Instruction.constantIndex?, ho, hr,
      Operand.register?, Operand.constantIndex?, Option.filter, hc]

theorem instructionViolations_of_return (ho : i.operand? = none) (hr : i.opcode = .ret) :
    code.instructionViolations ⟨offset, i⟩ =
      if code.registerCount = 0 then [.returnWithoutResult offset] else [] := by
  simp [instructionViolations, Instruction.register?, Instruction.constantIndex?, ho, hr]

/-- A contract succeeds where there is no violation, and the register file keeps its size; where it
fails, one violation predicts how. -/
def Foreseen (code : Bytecode) (placed : Placed) : Except Inconsistency Machine → Prop
  | .ok next => code.instructionViolations placed = [] ∧ next.registers.size = code.registerCount
  | .error detail => ∃ violation, code.instructionViolations placed = [violation] ∧
      violation.prediction? = some ⟨placed.offset, detail⟩

variable {m : Machine}

theorem foreseen_load (hm : m.registers.size = code.registerCount)
    (hv : code.instructionViolations ⟨offset, i⟩ = []) (value : Value) :
    code.Foreseen ⟨offset, i⟩ (.ok (m.load value)) := ⟨hv, hm⟩

theorem foreseen_read {r : Register} (hm : m.registers.size = code.registerCount)
    (ho : i.operand? = some (.reg r)) (hr : i.opcode ≠ .ret) {f : Value → Machine}
    (hf : ∀ value, (f value).registers = m.registers) :
    code.Foreseen ⟨offset, i⟩ ((m.read r).map f) := by
  have hv := @instructionViolations_of_reg code offset i r ho hr
  unfold Machine.read
  cases hg : m.registers[r.index.toNat]? with
  | none =>
    rw [if_pos (hm ▸ Array.getElem?_eq_none_iff.mp hg)] at hv
    exact ⟨_, hv, by rw [hm]; rfl⟩
  | some value =>
    have hlt := (Array.getElem?_eq_some_iff.mp hg).1
    rw [if_neg (by omega)] at hv
    exact ⟨hv, by rw [hf, hm]⟩

theorem foreseen_write {r : Register} (hm : m.registers.size = code.registerCount)
    (ho : i.operand? = some (.reg r)) (hr : i.opcode ≠ .ret) (value : Value) :
    code.Foreseen ⟨offset, i⟩ (m.write r value) := by
  have hv := @instructionViolations_of_reg code offset i r ho hr
  unfold Machine.write
  by_cases hlt : r.index.toNat < m.registers.size
  · rw [dif_pos hlt]
    rw [if_neg (by omega)] at hv
    exact ⟨hv, by rw [Array.size_set, hm]⟩
  · rw [dif_neg hlt]
    rw [if_pos (by omega)] at hv
    exact ⟨_, hv, by rw [hm]; rfl⟩

theorem foreseen_constant {index : UInt8} (hm : m.registers.size = code.registerCount)
    (ho : i.operand? = some (.idx index)) (hr : i.opcode ≠ .ret) :
    code.Foreseen ⟨offset, i⟩ ((Machine.constant code.constants index.toNat).map m.load) := by
  have hv := @instructionViolations_of_idx code offset i index ho hr
  unfold Machine.constant
  cases hg : code.constants[index.toNat]? with
  | none =>
    rw [if_pos (Array.getElem?_eq_none_iff.mp hg)] at hv
    exact ⟨_, hv, rfl⟩
  | some value =>
    have hlt := (Array.getElem?_eq_some_iff.mp hg).1
    rw [if_neg (by omega)] at hv
    exact ⟨hv, hm⟩

theorem foreseen_return (hm : m.registers.size = code.registerCount) (ho : i.operand? = none)
    (hr : i.opcode = .ret) : code.Foreseen ⟨offset, i⟩ (m.step code.constants i) := by
  have hv := @instructionViolations_of_return code offset i ho hr
  rw [Machine.step_of_return hr, Machine.read]
  cases hg : m.registers[(⟨0⟩ : Register).index.toNat]? with
  | none =>
    have hz : code.registerCount = 0 :=
      Nat.le_zero.mp (hm ▸ Array.getElem?_eq_none_iff.mp hg)
    rw [if_pos hz] at hv
    exact ⟨_, hv, by rw [hm, hz]; rfl⟩
  | some value =>
    have hlt := (Array.getElem?_eq_some_iff.mp hg).1
    rw [if_neg (by omega)] at hv
    exact ⟨hv, hm⟩

/-- Violations foresee what the contract of an instruction comes to. -/
theorem foreseen_step (hm : m.registers.size = code.registerCount) (placed : Placed) :
    code.Foreseen placed (m.step code.constants placed.instruction) := by
  obtain ⟨offset, i⟩ := placed
  have hk := i.kind_eq
  by_cases hr : i.opcode = .ret
  · rw [hr] at hk
    exact foreseen_return hm (Option.map_eq_none_iff.mp hk) hr
  · obtain ⟨opcode, operand?, hi⟩ := i
    cases opcode with
    | ldaZero | ldaUndefined | ldaNull | ldaTheHole | ldaTrue | ldaFalse =>
      exact foreseen_load hm (instructionViolations_of_none (Option.map_eq_none_iff.mp hk) hr) _
    | ldaSmi8 =>
      obtain ⟨n, rfl⟩ := Operand.exists_imm hk
      exact foreseen_load hm (instructionViolations_of_imm rfl hr) _
    | ldaConstant =>
      obtain ⟨index, rfl⟩ := Operand.exists_idx hk
      exact foreseen_constant hm rfl hr
    | ldar | add | sub | mul | div =>
      obtain ⟨r, rfl⟩ := Operand.exists_reg hk
      exact foreseen_read hm rfl hr fun _ => rfl
    | star =>
      obtain ⟨r, rfl⟩ := Operand.exists_reg hk
      exact foreseen_write hm rfl hr _
    | ret => exact absurd rfl hr

theorem exists_step {placed : Placed} (hm : m.registers.size = code.registerCount)
    (hv : code.instructionViolations placed = []) :
    ∃ next, m.step code.constants placed.instruction = .ok next ∧
      next.registers.size = code.registerCount := by
  have hf := foreseen_step hm placed
  cases hs : m.step code.constants placed.instruction with
  | ok next =>
    rw [hs] at hf
    exact ⟨next, rfl, hf.2⟩
  | error detail =>
    rw [hs] at hf
    obtain ⟨violation, hone, _⟩ := hf
    rw [hv] at hone
    cases hone

theorem violations_of_path {last : Machine} {path : List Placed}
    (h : Path code.constants m path last) (hm : m.registers.size = code.registerCount) :
    path.flatMap code.instructionViolations = [] ∧ last.registers.size = code.registerCount := by
  generalize hp : code.constants = pool at h
  induction h with
  | nil m => exact ⟨rfl, hm⟩
  | @cons m next last placed rest hr hs _ ih =>
    subst hp
    have hf := foreseen_step hm placed
    rw [hs] at hf
    obtain ⟨hv, hl⟩ := ih hf.2
    exact ⟨by rw [List.flatMap_cons, hf.1, hv]; rfl, hl⟩

end Bytecode

end RegisterMachine
