import RegisterMachine.Proofs.Dispatch.Direct
import RegisterMachine.Proofs.Verification.Foresight

/-!
# Predicting the fault of a run

Which fault a run without verification ends in can be read off the decoded stream: among the operand
violations up to the first return, and the failure to come to a return, it is the first.
-/

namespace RegisterMachine

namespace Bytecode

def firstReturn? (code : Bytecode) : Option Placed :=
  code.decode.instructions.find? (·.instruction.opcode = .ret)

/-- What a run comes to that gets past all decoded instructions. -/
def stopPrediction (code : Bytecode) : Prediction :=
  match code.decode.error? with
  | some e => ⟨e.offset, e.inconsistency⟩
  | none => ⟨code.size, .ranOffEnd code.size⟩

/-- The failures that a run may meet: operand violations, also of a stream that does not decode to
its end, as far as the first return; without a return, all of them and the end. -/
def predictions (code : Bytecode) : List Prediction :=
  let operands := code.operandViolations.filterMap Violation.prediction?
  match code.firstReturn? with
  | some final => operands.filter (·.offset ≤ final.offset)
  | none => operands ++ [code.stopPrediction]

variable {code : Bytecode} {pool : Array Value} {m last : Machine} {path : List Placed}

/-- Every violation of an instruction predicts a failure there. -/
theorem exists_prediction {placed : Placed} {violation : Violation}
    (hv : violation ∈ code.instructionViolations placed) :
    ∃ detail, violation.prediction? = some ⟨placed.offset, detail⟩ := by
  have hf := foreseen_step (Machine.size_initial code.registerCount) placed
  cases hs : (Machine.initial code.registerCount).step code.constants placed.instruction with
  | ok next =>
    rw [hs] at hf
    rw [hf.1] at hv
    cases hv
  | error detail =>
    rw [hs] at hf
    obtain ⟨only, ho, hp⟩ := hf
    rw [ho, List.mem_singleton] at hv
    exact ⟨detail, hv ▸ hp⟩

theorem exists_placed_of_prediction {placed : List Placed} {prediction : Prediction}
    (h : prediction ∈ (placed.flatMap code.instructionViolations).filterMap Violation.prediction?) :
    ∃ p ∈ placed, prediction.offset = p.offset := by
  obtain ⟨violation, hv, hp⟩ := List.mem_filterMap.mp h
  obtain ⟨p, hm, hv⟩ := List.mem_flatMap.mp hv
  obtain ⟨detail, hd⟩ := exists_prediction hv
  rw [hd] at hp
  obtain rfl := Option.some.inj hp
  exact ⟨p, hm, rfl⟩

theorem firstReturn?_append {rest : List Placed} (hd : code.decode.instructions = path ++ rest)
    (hp : Path pool m path last) :
    code.firstReturn? = rest.find? (·.instruction.opcode = .ret) := by
  have hn : path.find? (·.instruction.opcode = .ret) = none :=
    List.find?_eq_none.mpr fun p h => by simpa using hp.opcode_ne p h
  rw [firstReturn?, hd, List.find?_append, hn]
  rfl

theorem operandViolations_append {rest : List Placed}
    (hd : code.decode.instructions = path ++ rest) (hp : Path code.constants m path last)
    (hm : m.registers.size = code.registerCount) :
    code.operandViolations = rest.flatMap code.instructionViolations := by
  rw [operandViolations, hd, List.flatMap_append, (violations_of_path hp hm).1]
  rfl

theorem lt_offset_of_mem {placed p : Placed} {rest : List Placed}
    (hd : code.decode.instructions = path ++ placed :: rest) (h : p ∈ rest) :
    placed.offset < p.offset := by
  have hend := end_le_offset hd h
  have hw : 0 < placed.instruction.width := placed.instruction.opcode.width_pos
  omega

theorem predictions_of_return {final : Placed} {rest : List Placed}
    (hd : code.decode.instructions = path ++ final :: rest)
    (hp : Path code.constants m path last) (hm : m.registers.size = code.registerCount)
    (hr : final.instruction.opcode = .ret)
    (hf : code.instructionViolations final = []) : code.predictions = [] := by
  have hfirst : code.firstReturn? = some final := by
    rw [firstReturn?_append hd hp]
    simp [hr]
  have hv := operandViolations_append hd hp hm
  rw [List.flatMap_cons, hf, List.nil_append] at hv
  simp only [predictions, hfirst, hv, List.filter_eq_nil_iff, decide_eq_true_eq, Nat.not_le]
  intro prediction h
  obtain ⟨p, hmem, ho⟩ := exists_placed_of_prediction h
  rw [ho]
  exact lt_offset_of_mem hd hmem

theorem predictions_of_stop (hd : code.decode.instructions = path)
    (hp : Path code.constants m path last) (hm : m.registers.size = code.registerCount) :
    code.predictions = [code.stopPrediction] := by
  have hd' : code.decode.instructions = path ++ [] := hd.trans (List.append_nil _).symm
  simp only [predictions, firstReturn?_append hd' hp, operandViolations_append hd' hp hm]
  rfl

theorem offset_stopPrediction (code : Bytecode) :
    code.stopPrediction.offset = code.stopOf code.decode := by
  unfold stopPrediction stopOf
  cases code.decode.error? <;> rfl

/-- What is predicted for an instruction that a path leads to comes before all else predicted. -/
theorem predictions_of_error {failing : Placed} {rest : List Placed} {detail : Inconsistency}
    (hd : code.decode.instructions = path ++ failing :: rest)
    (hp : Path code.constants m path last) (hm : m.registers.size = code.registerCount)
    (hs : last.step code.constants failing.instruction = .error detail) :
    ∃ others, code.predictions = ⟨failing.offset, detail⟩ :: others ∧
      ∀ other ∈ others, failing.offset < other.offset := by
  have hf := foreseen_step (violations_of_path hp hm).2 failing
  rw [hs] at hf
  obtain ⟨violation, hv, hpred⟩ := hf
  have hall := operandViolations_append hd hp hm
  rw [List.flatMap_cons, hv, List.singleton_append] at hall
  have hbehind : ∀ other ∈
      (rest.flatMap code.instructionViolations).filterMap Violation.prediction?,
      failing.offset < other.offset := by
    intro other ho
    obtain ⟨p, hmem, he⟩ := exists_placed_of_prediction ho
    rw [he]
    exact lt_offset_of_mem hd hmem
  simp only [predictions, hall, List.filterMap_cons, hpred]
  cases hfirst : code.firstReturn? with
  | some final =>
    have hle : failing.offset ≤ final.offset := by
      rw [firstReturn?_append hd hp] at hfirst
      rcases List.mem_cons.mp (List.mem_of_find?_eq_some hfirst) with rfl | h
      · exact Nat.le_refl _
      · exact Nat.le_of_lt (lt_offset_of_mem hd h)
    refine ⟨_, List.filter_cons_of_pos (by simpa using hle), fun other ho => ?_⟩
    exact hbehind other (List.mem_filter.mp ho).1
  | none =>
    refine ⟨_, List.cons_append, fun other ho => ?_⟩
    rcases List.mem_append.mp ho with ho | ho
    · exact hbehind other ho
    · obtain rfl := List.mem_singleton.mp ho
      rw [offset_stopPrediction]
      exact offset_lt_stopOf (by simp [hd])

/-- A fresh frame over bytecode cannot be made if its register file is too large. Its run returns if
no failure is predicted. Otherwise it ends in the fault predicted for the smallest offset, at which
no other is predicted. -/
theorem run_predicted (code : Bytecode) :
    (registerCapacity < code.registerCount ∧ Frame.create code = .error .registersTooLarge) ∨
    ∃ frame, Frame.create code = .ok frame ∧
      ((code.predictions = [] ∧ ∃ value after, frame.run .standard = (.ok value, after)) ∨
        ∃ first ∈ code.predictions,
          (∀ other ∈ code.predictions, other ≠ first → first.offset < other.offset) ∧
          ∃ after, frame.run .standard = (.error first.fault, after)) := by
  refine (Frame.create_cases code).imp_right fun hcreate => ⟨_, hcreate, ?_⟩
  have ht := DispatchTable.isStandard_standard
  have hm := Machine.size_initial code.registerCount
  -- A longest path ends before a return, before a failure, or with the last instruction.
  rcases Path.exists_longest code.constants (.initial code.registerCount)
      code.decode.instructions with
    ⟨path, final, rest, last, value, hd, hp, hr, hv⟩ |
    ⟨path, failing, rest, last, detail, hd, hp, hs⟩ | ⟨last, hp⟩
  · have hf := foreseen_step (violations_of_path hp hm).2 final
    rw [Machine.step_of_return hr, hv] at hf
    have hrun := Frame.run_of_path_return (.start code) ht hp hd hr hv
    exact Or.inl ⟨predictions_of_return hd hp hm hr hf.1, value, _, hrun⟩
  · obtain ⟨others, hall, hlt⟩ := predictions_of_error hd hp hm hs
    have hrun := Frame.run_of_path_error (.start code) ht hp hd hs
    refine Or.inr ⟨⟨failing.offset, detail⟩, by simp [hall], fun other ho hne => ?_, _, hrun⟩
    rw [hall] at ho
    exact hlt other ((List.mem_cons.mp ho).resolve_left hne)
  · have hall := predictions_of_stop rfl hp hm
    obtain ⟨after, hrun⟩ := Frame.run_of_path_stop (.start code) ht hp rfl
    refine Or.inr ⟨code.stopPrediction, by simp [hall], fun other ho hne => ?_, after, ?_⟩
    · rw [hall] at ho
      exact absurd (List.mem_singleton.mp ho) hne
    · rw [hrun, stopPrediction, decode_eq_decodeAt]
      simp only [Frame.start]
      cases (code.decodeAt 0).error? <;> rfl

end Bytecode

end RegisterMachine
