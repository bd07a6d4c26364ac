import RegisterMachine.Proofs.Dispatch.Direct
import RegisterMachine.Proofs.Verification.Foresight

/-!
# What verification guarantees

Bytecode without violations decodes to instructions of which the last and no other returns, and all
of which carry out their contracts. Its run is therefore the evaluation of the decoded instructions.
Conversely, a run that returns on the last byte has met every instruction, so there is nothing that
verification could object to but the sizes.
-/

namespace RegisterMachine

namespace Decoding

def ReturnsLast (decoding : Decoding) : Prop :=
  ∃ path final, decoding.instructions = path ++ [final] ∧ final.instruction.opcode = .ret ∧
    ∀ placed ∈ path, placed.instruction.opcode ≠ .ret

variable {decoding : Decoding}

theorem afterReturn_append {path rest : List Placed} {final : Placed}
    (hd : decoding.instructions = path ++ final :: rest)
    (hp : ∀ placed ∈ path, placed.instruction.opcode ≠ .ret)
    (hr : final.instruction.opcode = .ret) : decoding.afterReturn = rest := by
  rw [afterReturn, hd, List.dropWhile_append_of_pos fun placed h => by simpa using hp placed h]
  simp [hr]

theorem exists_firstReturn {placed : Placed} (hm : placed ∈ decoding.instructions)
    (hr : placed.instruction.opcode = .ret) :
    ∃ path final, decoding.instructions = path ++ final :: decoding.afterReturn ∧
      final.instruction.opcode = .ret ∧ ∀ p ∈ path, p.instruction.opcode ≠ .ret := by
  cases hf : decoding.instructions.find? (·.instruction.opcode = .ret) with
  | none => exact absurd hr (by simpa using List.find?_eq_none.mp hf placed hm)
  | some final =>
    obtain ⟨hfr, path, rest, hd, hp⟩ := List.find?_eq_some_iff_append.mp hf
    have hfinal : final.instruction.opcode = .ret := by simpa using hfr
    have hpath : ∀ p ∈ path, p.instruction.opcode ≠ .ret := fun p h => by simpa using hp p h
    exact ⟨path, final, by rw [afterReturn_append hd hpath hfinal, hd], hfinal, hpath⟩

theorem returnsLast_iff :
    decoding.ReturnsLast ↔ decoding.instructions.getLast?.any (·.instruction.opcode = .ret) ∧
      decoding.afterReturn = [] := by
  constructor
  · rintro ⟨path, final, hd, hr, hp⟩
    exact ⟨by simp [hd, hr], afterReturn_append hd hp hr⟩
  · rintro ⟨hl, ha⟩
    obtain ⟨placed, hg, hr⟩ := (Option.any_eq_true _ _).mp hl
    obtain ⟨path, final, hd, hfinal, hp⟩ :=
      exists_firstReturn (List.mem_of_getLast? hg) (by simpa using hr)
    exact ⟨path, final, by rw [hd, ha], hfinal, hp⟩

end Decoding

namespace Bytecode

variable {code : Bytecode}

theorem limitViolations_eq_nil_iff :
    code.limitViolations = [] ↔
      code.registerCount ≤ maxRegisters ∧ code.constants.size ≤ maxConstants := by
  simp [limitViolations]

theorem violations_eq_nil_iff :
    code.violations = [] ↔
      (code.registerCount ≤ maxRegisters ∧ code.constants.size ≤ maxConstants) ∧
        code.decode.error? = none ∧ code.operandViolations = [] ∧ code.decode.ReturnsLast := by
  rw [← limitViolations_eq_nil_iff, Decoding.returnsLast_iff]
  simp only [violations, List.append_eq_nil_iff]
  cases he : code.decode.error? with
  | some e => simp [Decoding.structuralViolations, he]
  | none =>
    by_cases hl : code.decode.instructions.getLast?.any (·.instruction.opcode = .ret)
    · simp [Decoding.structuralViolations, Decoding.reachabilityViolations, he, hl]
    · simp [Decoding.structuralViolations, he, hl]

/-- Instructions without violations, none of which returns, are a path of every machine with the
declared register file. -/
theorem exists_path {placed : List Placed} {m : Machine}
    (hm : m.registers.size = code.registerCount)
    (hv : placed.flatMap code.instructionViolations = [])
    (hr : ∀ p ∈ placed, p.instruction.opcode ≠ .ret) :
    ∃ last, Path code.constants m placed last := by
  induction placed generalizing m with
  | nil => exact ⟨m, .nil m⟩
  | cons head tail ih =>
    rw [List.flatMap_cons, List.append_eq_nil_iff] at hv
    obtain ⟨next, hs, hn⟩ := exists_step hm hv.1
    obtain ⟨last, hp⟩ := ih hn hv.2 fun p h => hr p (List.mem_cons_of_mem _ h)
    exact ⟨last, .cons (hr head List.mem_cons_self) hs hp⟩

theorem width_of_return {i : Instruction} (hr : i.opcode = .ret) : i.width = 1 := by
  rw [Instruction.width, hr]
  rfl

theorem run_of_nil (hv : code.violations = []) {table : DispatchTable} (ht : table.IsStandard) :
    ∃ frame m value path final, Frame.create code = .ok frame ∧
      code.evaluation = .ok m ∧ m.read ⟨0⟩ = .ok value ∧
      code.decode.instructions = path ++ [final] ∧ final.offset + 1 = code.size ∧
      frame.run table = (.ok value, (frame.arrive m final.offset path.length).exit) := by
  obtain ⟨⟨hregisters, _⟩, he, ho, path, final, hd, hr, hp⟩ := violations_eq_nil_iff.mp hv
  rw [operandViolations, hd, List.flatMap_append, List.append_eq_nil_iff] at ho
  have hm := Machine.size_initial code.registerCount
  obtain ⟨last, hpath⟩ := exists_path hm ho.1 hp
  have hfinal : code.instructionViolations final = [] := by simpa using ho.2
  obtain ⟨next, hnext, _⟩ := exists_step (violations_of_path hpath hm).2 hfinal
  obtain ⟨value, hread⟩ := Machine.read_of_step hr hnext
  have hstep : last.step code.constants final.instruction = .ok last := by
    rw [Machine.step_of_return hr, hread]
    rfl
  have hstop : final.offset + final.instruction.width = code.stopOf code.decode :=
    stopOf_of_append hd
  rw [width_of_return hr, stopOf, he] at hstop
  have hcreate := Frame.create_eq_start (Nat.le_trans hregisters (by decide))
  refine ⟨_, last, value, path, final, hcreate, ?_, hread, hd, hstop, ?_⟩
  · rw [evaluation, hd, List.map_append]
    exact (Machine.evaluate_append hpath.evaluate_eq _).trans
      (Machine.evaluate_cons_of_step hstep [])
  · exact Frame.run_of_path_return (.start code) ht hpath hd hr hread

/-- Nothing follows a return that takes the last byte of the stream. -/
theorem eq_nil_of_return_on_last_byte {path rest : List Placed} {final : Placed}
    (hd : code.decode.instructions = path ++ final :: rest)
    (hr : final.instruction.opcode = .ret) (hc : final.offset + 1 = code.size) :
    rest = [] ∧ code.decode.error? = none := by
  have hbehind : ∀ placed ∈ rest, False := by
    intro placed hm
    have hnext := end_le_offset hd hm
    have hlt := @offset_lt_stopOf code placed (by simp [hd, hm])
    have hle : code.stopOf code.decode ≤ code.size := code.stopOf_le 0
    rw [width_of_return hr] at hnext
    omega
  obtain rfl : rest = [] := List.eq_nil_iff_forall_not_mem.mpr hbehind
  refine ⟨rfl, ?_⟩
  have hstop : final.offset + final.instruction.width = code.stopOf code.decode :=
    stopOf_of_append hd
  rw [width_of_return hr, hc, stopOf] at hstop
  cases he : code.decode.error? with
  | none => rfl
  | some e =>
    rw [he] at hstop
    exact absurd hstop (Nat.ne_of_gt (offset_lt_size he))

/-- A run that returns has come along a path to an instruction that returns. -/
theorem exists_path_of_run {table : DispatchTable} (ht : table.IsStandard) {frame after : Frame}
    {value : Value} (hcreate : Frame.create code = .ok frame)
    (h : frame.run table = (.ok value, after)) :
    ∃ path final rest last, code.decode.instructions = path ++ final :: rest ∧
      Path code.constants (.initial code.registerCount) path last ∧
      final.instruction.opcode = .ret ∧ last.read ⟨0⟩ = .ok value ∧
      after = (frame.arrive last final.offset path.length).exit := by
  obtain rfl := Frame.eq_start_of_create hcreate
  rcases Path.exists_longest code.constants (.initial code.registerCount)
      code.decode.instructions with
    ⟨path, final, rest, last, result, hd, hp, hr, hv⟩ |
    ⟨path, failing, rest, last, detail, hd, hp, hs⟩ | ⟨last, hp⟩
  · rw [Frame.run_of_path_return (.start code) ht hp hd hr hv] at h
    cases h
    exact ⟨path, final, rest, last, hd, hp, hr, hv, rfl⟩
  · rw [Frame.run_of_path_error (.start code) ht hp hd hs] at h
    cases h
  · obtain ⟨stopped, hrun⟩ := Frame.run_of_path_stop (.start code) ht hp rfl
    rw [hrun] at h
    cases h

/-- Bytecode without violations runs to its end with the standard handlers, on any table that a
builder over the direct emitter has built, and returns what the evaluation of its instructions
leaves in register 0. -/
theorem run_of_verified (hv : code.violations = []) {builder after : TableBuilder CodeSpace}
    {table : DispatchTable} {handlers : Nat} (he : builder.emitter = .direct)
    (hb : builder.ensureBuilt .empty = (.ok (.built handlers), after, table)) :
    ∃ m value frame final, code.evaluation = .ok m ∧ m.read ⟨0⟩ = .ok value ∧
      Frame.create code = .ok frame ∧ frame.run table = (.ok value, final) ∧
      final.machine = m ∧ final.stats.continues + 1 = code.decode.instructions.length ∧
      final.stats.returns = 1 ∧ final.cursor + 1 = code.size := by
  obtain ⟨frame, m, value, path, last, hcreate, hm, hread, hd, hc, hrun⟩ :=
    run_of_nil hv (DispatchTable.isStandard_of_built he hb)
  obtain rfl := Frame.eq_start_of_create hcreate
  refine ⟨m, value, _, _, hm, hread, hcreate, hrun, rfl, ?_, rfl, hc⟩
  rw [hd, List.length_append, List.length_singleton]
  simp [Frame.exit, Frame.arrive, Frame.start, Frame.withMachine]

/-- A difference: `LdaSmi8 5; Star r1; LdaSmi8 7; Sub r1; Star r0; Return`. -/
theorem run_of_verified_difference :
    (⟨#[1, 5, 9, 1, 1, 7, 11, 1, 9, 0, 14], 2, #[]⟩ : Bytecode).violations = [] ∧
    ∃ frame final, Frame.create ⟨#[1, 5, 9, 1, 1, 7, 11, 1, 9, 0, 14], 2, #[]⟩ = .ok frame ∧
      frame.run .standard = (.ok (.small 2), final) ∧ final.stats.continues = 5 ∧
      final.stats.returns = 1 ∧ final.cursor = 10 := by
  have hv : (⟨#[1, 5, 9, 1, 1, 7, 11, 1, 9, 0, 14], 2, #[]⟩ : Bytecode).violations = [] := by decide
  obtain ⟨after, hb⟩ := TableBuilder.ensureBuilt_unlimited
  obtain ⟨m, value, frame, final, hm, hread, hcreate, hrun, _, hcontinues, hreturns, hcursor⟩ :=
    run_of_verified hv rfl hb
  have he : (⟨#[1, 5, 9, 1, 1, 7, 11, 1, 9, 0, 14], 2, #[]⟩ : Bytecode).evaluation =
      .ok ⟨.small 2, #[.small 2, .small 5]⟩ := rfl
  obtain rfl := Except.ok.inj (he.symm.trans hm)
  obtain rfl := Except.ok.inj hread
  exact ⟨hv, frame, final, hcreate, hrun, Nat.succ.inj hcontinues, hreturns, Nat.succ.inj hcursor⟩

/-- Verification is exact. It accepts bytecode within the limits whose run, verified or not, returns
on the last byte of the stream, and no other. -/
theorem violations_eq_nil_iff_returns_on_last_byte (code : Bytecode) :
    code.violations = [] ↔
      code.registerCount ≤ maxRegisters ∧ code.constants.size ≤ maxConstants ∧
      ∃ frame value final, Frame.create code = .ok frame ∧
        frame.run .standard = (.ok value, final) ∧ final.cursor + 1 = code.size := by
  have ht := DispatchTable.isStandard_standard
  constructor
  · intro hv
    obtain ⟨⟨hregisters, hconstants⟩, _⟩ := violations_eq_nil_iff.mp hv
    obtain ⟨frame, m, value, path, last, hcreate, _, _, _, hc, hrun⟩ := run_of_nil hv ht
    exact ⟨hregisters, hconstants, frame, value, _, hcreate, hrun, hc⟩
  · rintro ⟨hregisters, hconstants, frame, value, final, hcreate, hrun, hc⟩
    obtain ⟨path, placed, rest, last, hd, hp, hr, hread, rfl⟩ := exists_path_of_run ht hcreate hrun
    obtain ⟨rfl, he⟩ := eq_nil_of_return_on_last_byte hd hr hc
    obtain ⟨hpath, hlast⟩ := violations_of_path hp (Machine.size_initial _)
    have hf := foreseen_step hlast placed
    rw [Machine.step_of_return hr, hread] at hf
    refine violations_eq_nil_iff.mpr
      ⟨⟨hregisters, hconstants⟩, he, ?_, path, placed, hd, hr, hp.opcode_ne⟩
    rw [operandViolations, hd, List.flatMap_append, hpath, List.flatMap_singleton, hf.1]
    rfl

end Bytecode

end RegisterMachine
