import Mathlib.Logic.ExistsUnique
import RegisterMachine.Proofs.Dispatch.Direct

/-!
# A single step

One invocation of the unit at the cursor either has its whole effect or none, up to the dispatch
that ends it. `Machine.Comes` lists what an instruction can come to on a machine, and `Frame.Goes`
what a step can come to on a frame, whatever the cursor, the size of the register file and the
counters. A counter that is full is the one way in which a step can stop half done.
-/

namespace RegisterMachine

/-- What an instruction can come to on a machine: what it writes, or what it does not find. -/
inductive Machine.Comes (pool : Array Value) (m : Machine) (i : Instruction) :
    Except Inconsistency Machine → Prop
  | loaded (value : Value) (ho : i.opcode ≠ .star) : Comes pool m i (.ok (m.load value))
  | stored {r : Register} (ho : i.opcode = .star) (hi : i.register? = some r)
      (h : r.index.toNat < m.registers.size) :
      Comes pool m i (.ok { m with registers := m.registers.set r.index.toNat m.accumulator h })
  | kept (ho : i.opcode = .ret) : Comes pool m i (.ok m)
  | registerOutside {r : Register} (hi : i.register? = some r)
      (h : m.registers.size ≤ r.index.toNat) :
      Comes pool m i (.error (.registerOutside r m.registers.size))
  | resultOutside (ho : i.opcode = .ret) (h : m.registers.size = 0) :
      Comes pool m i (.error (.registerOutside ⟨0⟩ 0))
  | constantOutside {index : Nat} (hi : i.constantIndex? = some index) (h : pool.size ≤ index) :
      Comes pool m i (.error (.constantOutside index pool.size))

namespace Machine

variable {pool : Array Value} {m : Machine} {i : Instruction}

theorem comes_read {r : Register} (ho : i.opcode ≠ .star) (hi : i.register? = some r)
    (f : Value → Value) : Comes pool m i ((m.read r).map fun value => m.load (f value)) := by
  unfold read
  cases hr : m.registers[r.index.toNat]? with
  | none => exact .registerOutside hi (Array.getElem?_eq_none_iff.mp hr)
  | some value => exact .loaded (f value) ho

theorem comes_write {r : Register} (ho : i.opcode = .star) (hi : i.register? = some r) :
    Comes pool m i (m.write r m.accumulator) := by
  unfold write
  by_cases h : r.index.toNat < m.registers.size
  · rw [dif_pos h]
    exact .stored ho hi h
  · rw [dif_neg h]
    exact .registerOutside hi (Nat.le_of_not_lt h)

theorem comes_constant {index : Nat} (ho : i.opcode ≠ .star) (hi : i.constantIndex? = some index) :
    Comes pool m i ((constant pool index).map m.load) := by
  unfold constant
  cases hc : pool[index]? with
  | none => exact .constantOutside hi (Array.getElem?_eq_none_iff.mp hc)
  | some value => exact .loaded value ho

theorem comes_result (ho : i.opcode = .ret) : Comes pool m i ((m.read ⟨0⟩).map fun _ => m) := by
  unfold read
  cases hr : m.registers[(⟨0⟩ : Register).index.toNat]? with
  | none =>
    have hz : m.registers.size = 0 := Nat.le_zero.mp (Array.getElem?_eq_none_iff.mp hr)
    rw [hz]
    exact .resultOutside ho hz
  | some value => exact .kept ho

theorem comes (pool : Array Value) (m : Machine) (i : Instruction) :
    Comes pool m i (m.step pool i) := by
  have hk := i.kind_eq
  obtain ⟨opcode, operand?, _⟩ := i
  cases opcode with
  | ldaZero | ldaUndefined | ldaNull | ldaTheHole | ldaTrue | ldaFalse => exact .loaded _ nofun
  | ldaSmi8 =>
    obtain ⟨n, rfl⟩ := Operand.exists_imm hk
    exact .loaded _ nofun
  | ldaConstant =>
    obtain ⟨index, rfl⟩ := Operand.exists_idx hk
    exact comes_constant (by exact nofun) rfl
  | ldar =>
    obtain ⟨r, rfl⟩ := Operand.exists_reg hk
    exact comes_read (by exact nofun) rfl id
  | add | sub | mul =>
    obtain ⟨r, rfl⟩ := Operand.exists_reg hk
    exact comes_read (by exact nofun) rfl _
  | div =>
    obtain ⟨r, rfl⟩ := Operand.exists_reg hk
    exact comes_read (by exact nofun) rfl fun value => value.div m.accumulator
  | star =>
    obtain ⟨r, rfl⟩ := Operand.exists_reg hk
    exact comes_write rfl rfl
  | ret => exact comes_result rfl

end Machine

/-- An instruction writes only its own destination: `Star` the register that it names, with the
accumulator, and every other instruction the accumulator. -/
def Instruction.WritesOnly (i : Instruction) (before after : Machine) : Prop :=
  if i.opcode = .star then
    after.accumulator = before.accumulator ∧
      ∃ r h, i.register? = some r ∧
        after.registers = before.registers.set r.index.toNat before.accumulator h
  else after.registers = before.registers

theorem Machine.writesOnly_of_step {pool : Array Value} {m next : Machine} {i : Instruction}
    (h : m.step pool i = .ok next) : i.WritesOnly m next := by
  have hc := Machine.comes pool m i
  rw [h] at hc
  unfold Instruction.WritesOnly
  cases hc with
  | loaded value ho => rw [if_neg ho]; rfl
  | stored ho hi hlt =>
    rw [if_pos ho]
    exact ⟨rfl, _, hlt, hi, rfl⟩
  | kept ho => rw [if_neg (by rw [ho]; exact nofun)]

namespace Frame

inductive LacksOpcode (frame : Frame) : Inconsistency → Prop
  | pastEnd (hb : frame.code.byteAt? frame.cursor = none) :
      LacksOpcode frame (.ranOffEnd frame.code.size)
  | invalid {byte : UInt8} (hb : frame.code.byteAt? frame.cursor = some byte)
      (ho : Opcode.ofByte? byte = none) : LacksOpcode frame (.invalidOpcode byte)

inductive Lacks (frame : Frame) : Inconsistency → Prop
  | opcode {detail : Inconsistency} (h : frame.LacksOpcode detail) : Lacks frame detail
  | operand {opcode : Opcode} (ho : frame.currentOpcode = .ok opcode)
      (hk : opcode.operandKind? ≠ none) (ha : frame.code.byteAt? (frame.cursor + 1) = none) :
      Lacks frame (.operandMissing 0)
  | register {i : Instruction} {r : Register} (hf : frame.code.fetch frame.cursor = some (.ok i))
      (hi : i.register? = some r) (h : frame.registers.size ≤ r.index.toNat) :
      Lacks frame (.registerOutside r frame.registers.size)
  | result {i : Instruction} (hf : frame.code.fetch frame.cursor = some (.ok i))
      (ho : i.opcode = .ret) (h : frame.registers.size = 0) :
      Lacks frame (.registerOutside ⟨0⟩ 0)
  | constant {i : Instruction} {index : Nat} (hf : frame.code.fetch frame.cursor = some (.ok i))
      (hi : i.constantIndex? = some index) (h : frame.code.constants.size ≤ index) :
      Lacks frame (.constantOutside index frame.code.constants.size)

/-- The instruction at the cursor does not return, and has been carried out: what it writes is
written and the cursor lies behind it. Whether that has been counted is left open. -/
structure Carries (frame : Frame) (i : Instruction) (after : Frame) : Prop where
  fetched : frame.code.fetch frame.cursor = some (.ok i)
  goesOn : i.opcode ≠ .ret
  effect : frame.machine.step frame.code.constants i = .ok after.machine
  writes : i.WritesOnly frame.machine after.machine
  code : after.code = frame.code
  cursor : after.cursor = frame.cursor + i.width
  returns : after.stats.returns = frame.stats.returns

inductive StepKind where
  | returned
  | continued
  /-- A fault of the instruction at the cursor. -/
  | refused
  /-- A fault of the instruction that follows. -/
  | stranded
  /-- A counter that cannot be raised. -/
  | uncounted
  deriving DecidableEq

inductive Goes (frame : Frame) : StepKind → Except Fault Transfer × Frame → Prop
  | returned {i : Instruction} {value : Value}
      (hf : frame.code.fetch frame.cursor = some (.ok i)) (ho : i.opcode = .ret)
      (hv : frame.registers[0]? = some value) (hw : ¬frame.Overflows (frame.stats.returns + 1)) :
      Goes frame .returned (.ok (.returned value),
        { frame with stats := ⟨frame.stats.continues, frame.stats.returns + 1⟩ })
  | continued {i : Instruction} {after : Frame} {opcode : Opcode} (hc : frame.Carries i after)
      (hs : after.stats.continues = frame.stats.continues + 1)
      (hw : ¬frame.Overflows (frame.stats.continues + 1)) (ho : after.currentOpcode = .ok opcode) :
      Goes frame .continued (.ok (.next (.standard opcode)), after)
  | refused {detail : Inconsistency} (hl : frame.Lacks detail) :
      Goes frame .refused (.error (.inconsistent frame.cursor detail), frame)
  | stranded {i : Instruction} {after : Frame} {detail : Inconsistency} (hc : frame.Carries i after)
      (hs : after.stats.continues = frame.stats.continues + 1)
      (hw : ¬frame.Overflows (frame.stats.continues + 1)) (hl : after.LacksOpcode detail) :
      Goes frame .stranded (.error (.inconsistent after.cursor detail), after)
  | returnUncounted {i : Instruction} {value : Value}
      (hf : frame.code.fetch frame.cursor = some (.ok i)) (ho : i.opcode = .ret)
      (hv : frame.registers[0]? = some value) (hw : frame.Overflows (frame.stats.returns + 1)) :
      Goes frame .uncounted (.error .overflow, frame)
  | continueUncounted {i : Instruction} {after : Frame} (hc : frame.Carries i after)
      (hs : after.stats.continues = frame.stats.continues)
      (hw : frame.Overflows (frame.stats.continues + 1)) :
      Goes frame .uncounted (.error .overflow, after)

theorem Carries.cursor_ne {frame after : Frame} {i : Instruction} (h : frame.Carries i after) :
    after.cursor ≠ frame.cursor := by
  have hwidth : 0 < i.width := i.opcode.width_pos
  have hcursor := h.cursor
  omega

variable {table : DispatchTable} {frame : Frame}

def kindOf (frame : Frame) : Except Fault Transfer × Frame → StepKind
  | (.ok (.returned _), _) => .returned
  | (.ok (.next _), _) => .continued
  | (.error .overflow, _) => .uncounted
  | (.error _, after) => if after.cursor = frame.cursor then .refused else .stranded

theorem Goes.kind_eq {kind : StepKind} {result : Except Fault Transfer × Frame}
    (h : frame.Goes kind result) : kind = frame.kindOf result := by
  cases h with
  | returned | continued | returnUncounted | continueUncounted => rfl
  | refused => exact (if_pos rfl).symm
  | stranded hc => exact (if_neg hc.cursor_ne).symm

theorem currentOpcode_cases (frame : Frame) :
    (∃ opcode, frame.currentOpcode = .ok opcode) ∨
      ∃ detail, frame.LacksOpcode detail ∧
        frame.currentOpcode = .error (.inconsistent frame.cursor detail) := by
  unfold currentOpcode fault
  cases hb : frame.code.byteAt? frame.cursor with
  | none => exact Or.inr ⟨_, .pastEnd hb, rfl⟩
  | some byte =>
    dsimp only
    cases ho : Opcode.ofByte? byte with
    | none => exact Or.inr ⟨_, .invalid hb ho, rfl⟩
    | some opcode => exact Or.inl ⟨opcode, rfl⟩

/-- An instruction that has been carried out and counted leaves its frame also if nothing can follow
it. -/
theorem goes_of_carries (ht : table.IsStandard) {i : Instruction} {after : Frame}
    (hc : frame.Carries i after) (hs : after.stats.continues = frame.stats.continues + 1)
    (hw : ¬frame.Overflows (frame.stats.continues + 1)) :
    ∃ kind, frame.Goes kind ((after.currentUnit table).map .next, after) := by
  unfold currentUnit
  rcases after.currentOpcode_cases with ⟨opcode, ho⟩ | ⟨detail, hl, he⟩
  · rw [ho, Except.bind, ht opcode]
    exact ⟨.continued, .continued hc hs hw ho⟩
  · rw [he]
    exact ⟨.stranded, .stranded hc hs hw hl⟩

theorem goes_proceed (ht : table.IsStandard) {i : Instruction} {m : Machine}
    (hf : frame.code.fetch frame.cursor = some (.ok i)) (hr : i.opcode ≠ .ret)
    (hm : frame.machine.step frame.code.constants i = .ok m) :
    ∃ kind, frame.Goes kind (frame.proceed table i.width (.ok m)) := by
  have hwrites := Machine.writesOnly_of_step hm
  by_cases hw : frame.Overflows (frame.stats.continues + 1)
  · simp only [proceed, if_pos hw]
    have hc : frame.Carries i ((frame.withMachine m).skip i.width) :=
      ⟨hf, hr, hm, hwrites, rfl, rfl, rfl⟩
    exact ⟨.uncounted, .continueUncounted hc rfl hw⟩
  · simp only [proceed, if_neg hw]
    have hc : frame.Carries i ((frame.withMachine m).advance i.width) :=
      ⟨hf, hr, hm, hwrites, rfl, rfl, rfl⟩
    exact goes_of_carries ht hc rfl hw

theorem lacks_of_step {i : Instruction} {detail : Inconsistency}
    (hf : frame.code.fetch frame.cursor = some (.ok i))
    (h : frame.machine.step frame.code.constants i = .error detail) : frame.Lacks detail := by
  have hc := Machine.comes frame.code.constants frame.machine i
  rw [h] at hc
  cases hc with
  | registerOutside hi hle => exact .register hf hi hle
  | resultOutside ho hz => exact .result hf ho hz
  | constantOutside hi hle => exact .constant hf hi hle

theorem goes_of_fetch (ht : table.IsStandard) {i : Instruction}
    (hf : frame.code.fetch frame.cursor = some (.ok i)) :
    ∃ kind, frame.Goes kind (frame.step table) := by
  rw [step, currentUnit_of_fetch ht hf]
  change ∃ kind, frame.Goes kind ((Handler.standard i.opcode).exec table #v[] frame)
  by_cases hr : i.opcode = .ret
  · rw [hr, Handler.exec_standard_ret]
    cases hv : frame.machine.read ⟨0⟩ with
    | ok value =>
      have hzero := Machine.read_eq_ok_iff.mp hv
      dsimp only
      split
      · next hw => exact ⟨.uncounted, .returnUncounted hf hr hzero hw⟩
      · next hw => exact ⟨.returned, .returned hf hr hzero hw⟩
    | error detail =>
      have hs : frame.machine.step frame.code.constants i = .error detail := by
        rw [Machine.step_of_return hr, hv]
        rfl
      exact ⟨.refused, .refused (lacks_of_step hf hs)⟩
  · rw [Handler.exec_standard table hf hr]
    cases hm : frame.machine.step frame.code.constants i with
    | error detail => exact ⟨.refused, .refused (lacks_of_step hf hm)⟩
    | ok m => exact goes_proceed ht hf hr hm

theorem goes_of_lacksOpcode {detail : Inconsistency} (hl : frame.LacksOpcode detail) :
    frame.Goes .refused (frame.step table) := by
  have hstep : frame.step table = (.error (.inconsistent frame.cursor detail), frame) := by
    cases hl with
    | pastEnd hb => simp only [step, currentUnit, currentOpcode, hb]; rfl
    | invalid hb ho => simp only [step, currentUnit, currentOpcode, hb, ho]; rfl
  rw [hstep]
  exact .refused (.opcode hl)

theorem exists_goes (ht : table.IsStandard) (frame : Frame) :
    ∃ kind, frame.Goes kind (frame.step table) := by
  have hc := frame.code.fetches frame.cursor
  generalize hf : frame.code.fetch frame.cursor = fetched at hc
  cases hc with
  | pastEnd hb => exact ⟨.refused, goes_of_lacksOpcode (.pastEnd hb)⟩
  | invalid hb ho => exact ⟨.refused, goes_of_lacksOpcode (.invalid hb ho)⟩
  | @truncated byte opcode kind hb ho hk ha =>
    have hopcode : frame.currentOpcode = .ok opcode := by simp only [currentOpcode, hb, ho]
    rw [step, currentUnit, hopcode, Except.bind, ht opcode]
    dsimp only
    rw [CodeUnit.invoke_of_truncated table (Bytecode.lt_size_of_byteAt? hb) hk ha]
    exact ⟨.refused, .refused (.operand hopcode (by simp [hk]) ha)⟩
  | bare => exact goes_of_fetch ht hf
  | operand => exact goes_of_fetch ht hf

/-- One step of a frame with the standard handlers goes in exactly one way. It returns and counts
that, or it carries out its instruction, counts that and continues; and if it faults over the
bytecode, it has done nothing or all that it does when it continues. Only where the counter that it
has to raise is full does it stop before that is done. -/
theorem step_all_or_nothing (ht : table.IsStandard) (frame : Frame) :
    (∃! kind, frame.Goes kind (frame.step table)) ∧
      (frame.Goes .uncounted (frame.step table) →
        wordLimit ≤ frame.stats.continues + 1 ∨ wordLimit ≤ frame.stats.returns + 1) := by
  obtain ⟨kind, hk⟩ := exists_goes ht frame
  refine ⟨⟨kind, hk, fun _ h => h.kind_eq.trans hk.kind_eq.symm⟩, fun h => ?_⟩
  generalize frame.step table = result at h
  cases h with
  | returnUncounted _ _ _ hw => exact Or.inr hw.2
  | continueUncounted _ _ hw => exact Or.inl hw.2

/-- The operand byte of `LdaSmi8 9`, taken as an opcode, is `Star r0`; the byte that follows is no
opcode. The register has been written when the step faults. -/
theorem step_all_or_nothing_misaligned :
    let frame : Frame := ⟨⟨#[1, 9, 0, 200], 1, #[]⟩, .null, #[.undefined], 1, ⟨5, 0⟩⟩
    let after : Frame := { frame with registers := #[.null], cursor := 3, stats := ⟨6, 0⟩ }
    DispatchTable.standard.IsStandard ∧
      frame.step .standard = (.error (.inconsistent 3 (.invalidOpcode 200)), after) ∧
      ∃! kind, frame.Goes kind (.error (.inconsistent 3 (.invalidOpcode 200)), after) := by
  intro frame after
  have ht := DispatchTable.isStandard_standard
  have hstep : frame.step .standard = (.error (.inconsistent 3 (.invalidOpcode 200)), after) := rfl
  exact ⟨ht, hstep, hstep ▸ (step_all_or_nothing ht frame).1⟩

/-- The counter is full: `LdaZero` has been carried out, but that is not counted. -/
example :
    let frame : Frame := ⟨⟨#[0, 14], 1, #[]⟩, .null, #[.hole], 0, ⟨wordLimit - 1, 0⟩⟩
    frame.step .standard =
      (.error .overflow, { frame with accumulator := .small 0, cursor := 1 }) := rfl

end Frame

end RegisterMachine
