import RegisterMachine.Dispatch.TableBuilder
import RegisterMachine.Execution.Run
import RegisterMachine.Proofs.Bytecode.Fetch
import RegisterMachine.Proofs.Execution.Machine

/-!
# One turn of the trampoline

What the standard handlers do is what the contracts say. A frame is a machine with a cursor; where
an instruction can be fetched at the cursor, its unit carries out one `Machine.step` and continues
behind it, and a step that fails is a fault at the cursor. Of the frame only a run asks something:
that its transfers have kept pace with the cursor, by which no count of them overflows.
-/

namespace RegisterMachine

namespace Operand

variable {operand? : Option Operand}

theorem exists_imm (h : operand?.map kind = some .imm8) : ∃ n, operand? = some (.imm n) := by
  match operand?, h with
  | some (.imm n), _ => exact ⟨n, rfl⟩

theorem exists_reg (h : operand?.map kind = some .reg8) : ∃ r, operand? = some (.reg r) := by
  match operand?, h with
  | some (.reg r), _ => exact ⟨r, rfl⟩

theorem exists_idx (h : operand?.map kind = some .idx8) : ∃ i, operand? = some (.idx i) := by
  match operand?, h with
  | some (.idx i), _ => exact ⟨i, rfl⟩

end Operand

/-- How a run words that it met the error. -/
def DecodeError.inconsistency : DecodeError → Inconsistency
  | invalidOpcode _ byte => .invalidOpcode byte
  | truncatedOperand _ _ => .operandMissing 0

def CodeUnit.standard (opcode : Opcode) : CodeUnit := ⟨opcode, .standard opcode⟩

/-- Every opcode is found with its standard handler. -/
def DispatchTable.IsStandard (table : DispatchTable) : Prop :=
  ∀ opcode, table.lookup opcode = .ok (.standard opcode)

namespace Frame

def machine (frame : Frame) : Machine := ⟨frame.accumulator, frame.registers⟩

def withMachine (frame : Frame) (m : Machine) : Frame :=
  { frame with accumulator := m.accumulator, registers := m.registers }

/-- No more transfers have been counted than bytes passed, and no more bytes passed than there
are. -/
structure Paced (frame : Frame) : Prop where
  transfers_le : frame.stats.transfers ≤ frame.cursor
  cursor_le : frame.cursor ≤ frame.code.size

variable (table : DispatchTable)

/-- What a handler hands back that carries out a contract and continues. A contract that fails is a
fault at the cursor, and the frame is left as it was. -/
def proceed (frame : Frame) (width : Nat) :
    Except Inconsistency Machine → Except Fault Transfer × Frame
  | .error detail => (.error (.inconsistent frame.cursor detail), frame)
  | .ok m =>
    if frame.Overflows (frame.stats.continues + 1) then
      (.error .overflow, (frame.withMachine m).skip width)
    else
      let after := (frame.withMachine m).advance width
      ((after.currentUnit table).map .next, after)

variable {frame : Frame} {i : Instruction}

theorem currentOpcode_of_fetch (hf : frame.code.fetch frame.cursor = some (.ok i)) :
    frame.currentOpcode = .ok i.opcode := by
  obtain ⟨⟨byte, hb, ho⟩, _⟩ := Bytecode.bytes_of_fetch hf
  simp only [currentOpcode, hb, ho]

theorem operandByte_of_fetch {operand : Operand} (hf : frame.code.fetch frame.cursor = some (.ok i))
    (ho : i.operand? = some operand) : frame.operandByte 0 = .ok operand.toByte := by
  have ha := (Bytecode.bytes_of_fetch hf).2 operand ho
  simp only [operandByte, Nat.add_zero, ha]

theorem dispatch_of_fetch (hf : frame.code.fetch frame.cursor = some (.ok i)) :
    frame.dispatch table =
      if frame.Overflows (frame.stats.continues + 1) then (.error .overflow, frame.skip i.width)
      else ((frame.advance i.width).currentUnit table, frame.advance i.width) := by
  simp only [dispatch, currentOpcode_of_fetch hf]
  rfl

end Frame

namespace Handler

variable (table : DispatchTable) {frame : Frame} {i : Instruction}

theorem exec_goOn (hf : frame.code.fetch frame.cursor = some (.ok i)) (m : Machine) :
    goOn.exec table #v[] (frame.withMachine m) = frame.proceed table i.width (.ok m) := by
  have hd : (frame.withMachine m).dispatch table =
      if frame.Overflows (frame.stats.continues + 1) then
        (.error .overflow, (frame.withMachine m).skip i.width)
      else (((frame.withMachine m).advance i.width).currentUnit table,
        (frame.withMachine m).advance i.width) := Frame.dispatch_of_fetch table hf
  simp only [goOn, exec, hd, Frame.proceed]
  by_cases ho : frame.Overflows (frame.stats.continues + 1)
  · simp only [if_pos ho]
  · simp only [if_neg ho]
    cases ((frame.withMachine m).advance i.width).currentUnit table <;> rfl

theorem exec_load (hf : frame.code.fetch frame.cursor = some (.ok i)) (value : Value) :
    (load value).exec table #v[] frame =
      frame.proceed table i.width (.ok (frame.machine.load value)) :=
  exec_goOn table hf (frame.machine.load value)

theorem exec_register (hf : frame.code.fetch frame.cursor = some (.ok i)) (r : Register)
    (f : Value → Value) :
    (register r fun value => load (f value)).exec table #v[] frame =
      frame.proceed table i.width
        ((frame.machine.read r).map fun value => frame.machine.load (f value)) := by
  unfold exec Frame.register Machine.read Frame.fault
  simp only [Frame.machine]
  cases hr : frame.registers[r.index.toNat]? with
  | none => rfl
  | some value => exact exec_load table hf (f value)

theorem exec_setRegister (hf : frame.code.fetch frame.cursor = some (.ok i)) (r : Register)
    (value : Value) :
    (setRegister r value goOn).exec table #v[] frame =
      frame.proceed table i.width (frame.machine.write r value) := by
  unfold exec Frame.setRegister Machine.write Frame.fault
  by_cases hr : r.index.toNat < frame.registers.size
  · rw [dif_pos hr, dif_pos (show r.index.toNat < frame.machine.registers.size from hr)]
    exact exec_goOn table hf ⟨frame.accumulator, frame.registers.set _ value hr⟩
  · rw [dif_neg hr, dif_neg (show ¬ r.index.toNat < frame.machine.registers.size from hr)]
    rfl

theorem exec_constant (hf : frame.code.fetch frame.cursor = some (.ok i)) (index : Nat) :
    (constant index load).exec table #v[] frame =
      frame.proceed table i.width
        ((Machine.constant frame.code.constants index).map frame.machine.load) := by
  unfold exec Frame.constant Machine.constant Frame.fault Bytecode.constant?
  cases hc : frame.code.constants[index]? with
  | none => rfl
  | some value => exact exec_load table hf value

theorem exec_operandByte {operand : Operand} (hf : frame.code.fetch frame.cursor = some (.ok i))
    (ho : i.operand? = some operand) (next : UInt8 → Handler 0) :
    (operandByte 0 next).exec table #v[] frame = (next operand.toByte).exec table #v[] frame := by
  simp only [exec, Frame.operandByte_of_fetch hf ho]

theorem exec_binary {r : Register} (hf : frame.code.fetch frame.cursor = some (.ok i))
    (ho : i.operand? = some (.reg r)) (operation : Value → Value → Value) :
    (binary operation).exec table #v[] frame =
      frame.proceed table i.width (frame.machine.combine operation r) := by
  rw [binary, exec_operandByte table hf ho]
  exact exec_register table hf r (operation frame.accumulator)

/-- Every handler but that of `Return` carries out the contract of its instruction. -/
theorem exec_standard (hf : frame.code.fetch frame.cursor = some (.ok i)) (hr : i.opcode ≠ .ret) :
    (standard i.opcode).exec table #v[] frame =
      frame.proceed table i.width (frame.machine.step frame.code.constants i) := by
  have hk := i.kind_eq
  obtain ⟨opcode, operand?, _⟩ := i
  -- The kind of the operand follows from the opcode, and with it the case of the contract.
  cases opcode with
  | ldaZero | ldaUndefined | ldaNull | ldaTheHole | ldaTrue | ldaFalse => exact exec_load table hf _
  | ldaSmi8 =>
    obtain ⟨n, rfl⟩ := Operand.exists_imm hk
    rw [standard, exec_operandByte table hf rfl]
    exact exec_load table hf _
  | ldaConstant =>
    obtain ⟨index, rfl⟩ := Operand.exists_idx hk
    rw [standard, exec_operandByte table hf rfl]
    exact exec_constant table hf _
  | ldar =>
    obtain ⟨r, rfl⟩ := Operand.exists_reg hk
    rw [standard, exec_operandByte table hf rfl]
    exact exec_register table hf r id
  | star =>
    obtain ⟨r, rfl⟩ := Operand.exists_reg hk
    rw [standard, exec_operandByte table hf rfl]
    exact exec_setRegister table hf r _
  | add | sub | mul =>
    obtain ⟨r, rfl⟩ := Operand.exists_reg hk
    exact exec_binary table hf rfl _
  | div =>
    obtain ⟨r, rfl⟩ := Operand.exists_reg hk
    exact exec_binary table hf rfl fun accumulator value => value.div accumulator
  | ret => exact absurd rfl hr

theorem exec_standard_ret (frame : Frame) :
    (standard .ret).exec table #v[] frame =
      match frame.machine.read ⟨0⟩ with
      | .ok value =>
        if frame.Overflows (frame.stats.returns + 1) then (.error .overflow, frame)
        else (.ok (.returned value), frame.exit)
      | .error detail => (.error (.inconsistent frame.cursor detail), frame) := by
  unfold standard exec Frame.register Machine.read Frame.fault
  simp only [Frame.machine]
  cases frame.registers[(⟨0⟩ : Register).index.toNat]? with
  | none => rfl
  | some value =>
    simp only [done, exec, Frame.leave]
    by_cases ho : frame.Overflows (frame.stats.returns + 1)
    · simp only [if_pos ho]
    · simp only [if_neg ho]
      rfl

/-- A handler whose opcode takes an operand reads it first. -/
theorem exists_operandByte {opcode : Opcode} {kind : OperandKind}
    (hk : opcode.operandKind? = some kind) :
    ∃ next : UInt8 → Handler 0, standard opcode = .operandByte 0 next := by
  cases opcode with
  | ldaZero | ldaUndefined | ldaNull | ldaTheHole | ldaTrue | ldaFalse | ret => cases hk
  | ldaSmi8 | ldaConstant | ldar | star | add | sub | mul | div => exact ⟨_, rfl⟩

end Handler

namespace CodeUnit

/-- A unit whose operand is past the end of the stream has done nothing else before. -/
theorem invoke_of_truncated (table : DispatchTable) {frame : Frame} {opcode : Opcode}
    {kind : OperandKind} (hc : frame.cursor < frame.code.size)
    (hk : opcode.operandKind? = some kind) (ha : frame.code.byteAt? (frame.cursor + 1) = none) :
    (standard opcode).invoke table frame =
      (.error (.inconsistent frame.cursor (.operandMissing 0)), frame) := by
  obtain ⟨next, hn⟩ := Handler.exists_operandByte hk
  simp only [invoke, standard, hn, Handler.exec, Frame.operandByte_zero hc, ha]
  rfl

variable {table : DispatchTable} {unit : CodeUnit} {frame after : Frame}

theorem turn_of_error {e : Fault} (h : unit.invoke table frame = (.error e, after)) :
    unit.turn table frame = (.error e, after) := by
  simp only [turn, h]

theorem turn_of_ok {transfer : Transfer} (h : unit.invoke table frame = (.ok transfer, after))
    (hs : after.stats.transfers = frame.stats.transfers + 1)
    (hw : ¬after.Overflows after.stats.transfers) :
    unit.turn table frame = (.ok transfer, after) := by
  simp only [turn, h, if_neg hw, if_pos hs]

/-- The check after a handler does not touch the frame. -/
theorem turn_snd (unit : CodeUnit) (frame : Frame) :
    (unit.turn table frame).2 = (unit.invoke table frame).2 := by
  unfold turn
  split
  · next h => rw [h]
  · next h =>
    rw [h]
    split
    · rfl
    · split <;> rfl

theorem follow_of_overflow (hw : frame.Overflows frame.stats.transfers) :
    unit.follow table frame = (.error .overflow, frame) := by
  rw [follow, if_pos hw]

section

variable (hw : ¬frame.Overflows frame.stats.transfers)

include hw

theorem follow_of_error {e : Fault} (h : unit.turn table frame = (.error e, after)) :
    unit.follow table frame = (.error e, after) := by
  rw [follow, if_neg hw]
  split <;> simp_all

theorem follow_of_returned {value : Value}
    (h : unit.turn table frame = (.ok (.returned value), after)) :
    unit.follow table frame = (.ok value, after) := by
  rw [follow, if_neg hw]
  split <;> simp_all

theorem follow_of_next {next : CodeUnit} (h : unit.turn table frame = (.ok (.next next), after)) :
    unit.follow table frame = next.follow table after := by
  rw [follow, if_neg hw]
  split <;> simp_all

end

end CodeUnit

namespace Frame

theorem transfers_advance (frame : Frame) (m : Machine) (width : Nat) :
    ((frame.withMachine m).advance width).stats.transfers = frame.stats.transfers + 1 := by
  simp only [advance, withMachine, Stats.transfers]
  omega

theorem transfers_exit (frame : Frame) : frame.exit.stats.transfers = frame.stats.transfers + 1 :=
  rfl

variable {table : DispatchTable} {frame : Frame} {i : Instruction}

theorem cursor_lt_size_of_currentUnit {unit : CodeUnit}
    (h : frame.currentUnit table = .ok unit) : frame.cursor < frame.code.size := by
  unfold currentUnit at h
  cases ho : frame.currentOpcode with
  | error e =>
    rw [ho] at h
    cases h
  | ok opcode => exact cursor_lt_size_of_currentOpcode ho

namespace Paced

theorem start (code : Bytecode) : (start code).Paced := ⟨Nat.le_refl 0, Nat.zero_le _⟩

section

variable (hp : frame.Paced)

include hp

theorem advance (hf : frame.code.fetch frame.cursor = some (.ok i)) (m : Machine) :
    ((frame.withMachine m).advance i.width).Paced := by
  have htransfers := transfers_advance frame m i.width
  have hcursor : ((frame.withMachine m).advance i.width).cursor = frame.cursor + i.width := rfl
  have hwidth : 0 < i.width := i.opcode.width_pos
  have hle := hp.transfers_le
  exact ⟨by omega, Bytecode.width_le_of_fetch hf⟩

theorem not_overflows : ¬frame.Overflows frame.stats.transfers := by
  intro ho
  have hle := Nat.le_trans hp.transfers_le hp.cursor_le
  exact Nat.not_lt.mpr hle ho.1

/-- Within the stream there is room to count one more. -/
theorem not_overflows_succ (hc : frame.cursor < frame.code.size) {sum : Nat}
    (hs : sum ≤ frame.stats.transfers) : ¬frame.Overflows (sum + 1) := by
  intro ho
  have hsize := ho.1
  have hle := hp.transfers_le
  omega

end

end Paced

theorem run_of_unit {unit : CodeUnit} (hu : frame.currentUnit table = .ok unit) :
    frame.run table = unit.follow table frame := by
  simp only [run, hu]

theorem run_of_fault {e : Fault} (hu : frame.currentUnit table = .error e) :
    frame.run table = (.error e, frame) := by
  simp only [run, hu]

/-- A run whose first handler continues is the run of the frame that the handler leaves, also if
there is nothing to continue with. -/
theorem run_of_proceed (hp : frame.Paced) {unit : CodeUnit} {m : Machine} {width : Nat}
    (hu : frame.currentUnit table = .ok unit)
    (hi : unit.invoke table frame = frame.proceed table width (.ok m)) :
    frame.run table = ((frame.withMachine m).advance width).run table := by
  have hs := transfers_advance frame m width
  have hc := cursor_lt_size_of_currentUnit hu
  have hcontinues := hp.not_overflows_succ hc (Nat.le_add_right frame.stats.continues _)
  have hafter : ¬frame.Overflows ((frame.withMachine m).advance width).stats.transfers :=
    hs ▸ hp.not_overflows_succ hc (Nat.le_refl _)
  rw [run_of_unit hu]
  simp only [proceed, if_neg hcontinues] at hi
  cases hn : ((frame.withMachine m).advance width).currentUnit table with
  | error e =>
    rw [hn] at hi
    rw [CodeUnit.follow_of_error hp.not_overflows (CodeUnit.turn_of_error hi), run_of_fault hn]
  | ok next =>
    rw [hn] at hi
    rw [CodeUnit.follow_of_next hp.not_overflows (CodeUnit.turn_of_ok hi hs hafter),
      run_of_unit hn]

theorem currentUnit_of_fetch (ht : table.IsStandard)
    (hf : frame.code.fetch frame.cursor = some (.ok i)) :
    frame.currentUnit table = .ok (.standard i.opcode) := by
  rw [currentUnit, currentOpcode_of_fetch hf]
  exact ht i.opcode

theorem run_of_step {m : Machine} (ht : table.IsStandard) (hp : frame.Paced)
    (hf : frame.code.fetch frame.cursor = some (.ok i)) (hr : i.opcode ≠ .ret)
    (hm : frame.machine.step frame.code.constants i = .ok m) :
    frame.run table = ((frame.withMachine m).advance i.width).run table := by
  apply run_of_proceed hp (currentUnit_of_fetch ht hf)
  rw [← hm]
  exact Handler.exec_standard table hf hr

theorem run_of_step_error {detail : Inconsistency} (ht : table.IsStandard) (hp : frame.Paced)
    (hf : frame.code.fetch frame.cursor = some (.ok i))
    (hm : frame.machine.step frame.code.constants i = .error detail) :
    frame.run table = (.error (.inconsistent frame.cursor detail), frame) := by
  rw [run_of_unit (currentUnit_of_fetch ht hf)]
  apply CodeUnit.follow_of_error hp.not_overflows
  apply CodeUnit.turn_of_error
  by_cases hr : i.opcode = .ret
  · have hd := Machine.read_of_step_error hr hm
    rw [hr]
    exact (Handler.exec_standard_ret table frame).trans (by rw [hd])
  · exact (Handler.exec_standard table hf hr).trans (by rw [hm]; rfl)

theorem run_of_return {value : Value} (ht : table.IsStandard) (hp : frame.Paced)
    (hf : frame.code.fetch frame.cursor = some (.ok i)) (hr : i.opcode = .ret)
    (hv : frame.machine.read ⟨0⟩ = .ok value) :
    frame.run table = (.ok value, frame.exit) := by
  have hu := currentUnit_of_fetch ht hf
  have hc := cursor_lt_size_of_currentUnit hu
  have hreturns := hp.not_overflows_succ hc (Nat.le_add_left frame.stats.returns _)
  have hexit := hp.not_overflows_succ hc (Nat.le_refl _)
  rw [run_of_unit hu, hr]
  apply CodeUnit.follow_of_returned hp.not_overflows
  refine CodeUnit.turn_of_ok ?_ (transfers_exit frame) hexit
  rw [CodeUnit.invoke, CodeUnit.standard, Handler.exec_standard_ret, hv]
  exact if_neg hreturns

theorem run_of_end (hf : frame.code.fetch frame.cursor = none) :
    frame.run table =
      (.error (.inconsistent frame.cursor (.ranOffEnd frame.code.size)), frame) := by
  have hc := frame.code.fetches frame.cursor
  rw [hf] at hc
  cases hc with
  | pastEnd hb =>
    apply run_of_fault
    simp only [currentUnit, currentOpcode, hb]
    rfl

/-- The run from where no instruction can be fetched. A missing operand is found by the handler. -/
theorem run_of_decodeError {e : DecodeError} (ht : table.IsStandard) (hp : frame.Paced)
    (hf : frame.code.fetch frame.cursor = some (.error e)) :
    frame.run table = (.error (.inconsistent frame.cursor e.inconsistency), frame) := by
  have hc := frame.code.fetches frame.cursor
  rw [hf] at hc
  cases hc with
  | invalid hb ho =>
    apply run_of_fault
    simp only [currentUnit, currentOpcode, hb, ho]
    rfl
  | truncated hb ho hk ha =>
    next byte opcode kind =>
    have hu : frame.currentUnit table = .ok (.standard opcode) := by
      simp only [currentUnit, currentOpcode, hb, ho]
      exact ht opcode
    rw [run_of_unit hu]
    apply CodeUnit.follow_of_error hp.not_overflows
    apply CodeUnit.turn_of_error
    exact CodeUnit.invoke_of_truncated table (Bytecode.lt_size_of_byteAt? hb) hk ha

end Frame

end RegisterMachine
