import RegisterMachine.Proofs.Execution.Trail
import RegisterMachine.Proofs.Value.Canonical

/-!
# Where values come from

A double that could be a small integer is only met where the constant pool has it: the handlers
load canonical literals, arithmetic comes to canonical values, and all else is moved about as it is.
`Handler.Within` says of a handler that it puts only good values into a frame of which all that can
be read is good, and `Handler.exec_within` that it keeps the frame so, whatever becomes of it.
-/

namespace RegisterMachine

structure Frame.Within (good : Value → Prop) (frame : Frame) : Prop where
  accumulator : good frame.accumulator
  registers : ∀ value ∈ frame.registers, good value
  constants : ∀ value ∈ frame.code.constants, good value

/-- What a handler writes or returns is good, if what it is given is. -/
def Handler.Within (good : Value → Prop) : {held : Nat} → Handler held → Prop
  | _, finish _ => True
  | _, inspect next => ∀ frame : Frame, frame.Within good → (next frame).Within good
  | _, setAccumulator value next => good value ∧ next.Within good
  | _, register _ next => ∀ value, good value → (next value).Within good
  | _, setRegister _ value next => good value ∧ next.Within good
  | _, currentOpcode next => ∀ opcode, (next opcode).Within good
  | _, operandByte _ next => ∀ byte, (next byte).Within good
  | _, constant _ next => ∀ value, good value → (next value).Within good
  | _, dispatch next => ∀ opcode, (next opcode).Within good
  | _, exit value next => good value ∧ next.Within good

variable {good : Value → Prop} {table : DispatchTable}

namespace Frame

variable {frame after : Frame}

theorem Within.of_register (h : frame.Within good) {r : Register} {value : Value}
    (hr : frame.register r = .ok value) : good value := by
  unfold register fault at hr
  split at hr
  · next found hfound =>
    cases hr
    exact h.registers _ (Array.mem_of_getElem? hfound)
  · cases hr

theorem Within.of_constant (h : frame.Within good) {index : Nat} {value : Value}
    (hc : frame.constant index = .ok value) : good value := by
  unfold constant fault at hc
  split at hc
  · next found hfound =>
    cases hc
    exact h.constants _ (Array.mem_of_getElem? hfound)
  · cases hc

theorem Within.setRegister (h : frame.Within good) {r : Register} {value : Value}
    (hv : good value) (hs : frame.setRegister r value = .ok after) : after.Within good := by
  unfold Frame.setRegister fault at hs
  split at hs
  · next hlt =>
    cases hs
    refine ⟨h.accumulator, fun other (hother : other ∈ frame.registers.set _ value hlt) => ?_,
      h.constants⟩
    rcases Array.mem_or_eq_of_mem_set hother with hold | rfl
    · exact h.registers _ hold
    · exact hv
  · cases hs

theorem Within.dispatch (h : frame.Within good) (table : DispatchTable) :
    (frame.dispatch table).2.Within good := by
  unfold Frame.dispatch
  split
  · exact h
  · split <;> exact ⟨h.accumulator, h.registers, h.constants⟩

end Frame

namespace Handler

theorem good_of_fault (e : Fault) (value : Value)
    (h : Except.error e = Except.ok (Transfer.returned value)) : good value := by
  cases h

/-- A handler that is given good values leaves good values, also where it stops at a fault, and what
it returns is good. -/
theorem exec_within {held : Nat} {handler : Handler held} (hh : handler.Within good)
    {transfers : Vector Transfer held}
    (ht : ∀ value, .returned value ∈ transfers → good value) {frame : Frame}
    (h : frame.Within good) :
    (handler.exec table transfers frame).2.Within good ∧
      ∀ value, (handler.exec table transfers frame).1 = .ok (.returned value) → good value := by
  induction handler generalizing frame with
  | finish i =>
    refine ⟨h, fun value hvalue => ht value ?_⟩
    exact Except.ok.inj hvalue ▸ Vector.getElem_mem i.isLt
  | inspect next ih => exact ih frame (hh frame h) ht h
  | setAccumulator value next ih => exact ih hh.2 ht ⟨hh.1, h.registers, h.constants⟩
  | register r next ih =>
    unfold exec
    split
    · next value hr =>
      have hv := h.of_register hr
      exact ih value (hh value hv) ht h
    · exact ⟨h, good_of_fault _⟩
  | setRegister r value next ih =>
    unfold exec
    split
    · next written hw => exact ih hh.2 ht (h.setRegister hh.1 hw)
    · exact ⟨h, good_of_fault _⟩
  | currentOpcode next ih =>
    unfold exec
    split
    · next opcode _ => exact ih opcode (hh opcode) ht h
    · exact ⟨h, good_of_fault _⟩
  | operandByte operand next ih =>
    unfold exec
    split
    · next byte _ => exact ih byte (hh byte) ht h
    · exact ⟨h, good_of_fault _⟩
  | constant index next ih =>
    unfold exec
    split
    · next value hc =>
      have hv := h.of_constant hc
      exact ih value (hh value hv) ht h
    · exact ⟨h, good_of_fault _⟩
  | dispatch next ih =>
    have hmoved := h.dispatch table
    unfold exec
    split
    · next unit moved hd =>
      rw [hd] at hmoved
      refine ih unit.opcode (hh unit.opcode) (fun value hvalue => ?_) hmoved
      rcases Vector.mem_push.mp hvalue with hold | hnew
      · exact ht value hold
      · cases hnew
    · next e moved hd =>
      rw [hd] at hmoved
      exact ⟨hmoved, good_of_fault _⟩
  | exit result next ih =>
    unfold exec
    split
    · next left hleave =>
      obtain rfl := Frame.eq_exit_of_leave hleave
      refine ih hh.2 (fun value hvalue => ?_) ⟨h.accumulator, h.registers, h.constants⟩
      rcases Vector.mem_push.mp hvalue with hold | hnew
      · exact ht value hold
      · cases hnew
        exact hh.1
    · exact ⟨h, good_of_fault _⟩

theorem within_load {value : Value} (h : good value) : (load value).Within good :=
  ⟨h, fun _ => trivial⟩

theorem within_binary {operation : Value → Value → Value} (h : ∀ a b, good (operation a b)) :
    (binary operation).Within good :=
  fun _ _ _ _ _ => within_load (h _ _)

/-- The standard handlers write nothing but canonical values and what they have read. -/
theorem within_standard (h : ∀ value : Value, value.Canonical → good value) (opcode : Opcode) :
    (standard opcode).Within good := by
  cases opcode with
  | ldaZero | ldaUndefined | ldaNull | ldaTheHole | ldaTrue | ldaFalse =>
    exact within_load (h _ trivial)
  | ldaSmi8 => exact fun _ => within_load (h _ trivial)
  | ldaConstant | ldar => exact fun _ _ hv => within_load hv
  | star => exact fun _ frame hframe => ⟨hframe.accumulator, fun _ => trivial⟩
  | add => exact within_binary fun a b => h _ (Value.canonical_add a b)
  | sub => exact within_binary fun a b => h _ (Value.canonical_sub a b)
  | mul => exact within_binary fun a b => h _ (Value.canonical_mul a b)
  | div => exact within_binary fun a b => h _ (Value.canonical_div b a)
  | ret => exact fun _ hv => ⟨hv, trivial⟩

end Handler

/-- The standard units keep a frame to values that include all canonical ones, and return such a
value. -/
theorem CodeUnit.invoke_within (h : ∀ value : Value, value.Canonical → good value) (opcode : Opcode)
    (table : DispatchTable) {frame : Frame} (hf : frame.Within good) :
    ((standard opcode).invoke table frame).2.Within good ∧
      ∀ value, ((standard opcode).invoke table frame).1 = .ok (.returned value) → good value :=
  Handler.exec_within (Handler.within_standard h opcode)
    (fun _ hvalue => absurd hvalue (Vector.not_mem_empty _)) hf

def Bytecode.Provides (code : Bytecode) (value : Value) : Prop :=
  value.Canonical ∨ value ∈ code.constants

namespace Frame

/-- The frames that standard handlers lead to from a fresh one, invoked in any order and also after
a fault. -/
inductive Reached (code : Bytecode) : Frame → Prop
  | create {frame : Frame} (h : Frame.create code = .ok frame) : Reached code frame
  | invoke {frame : Frame} (h : Reached code frame) (table : DispatchTable) (opcode : Opcode) :
      Reached code ((CodeUnit.standard opcode).invoke table frame).2

def Has (frame : Frame) (value : Value) : Prop :=
  value = frame.accumulator ∨ value ∈ frame.registers

variable {code : Bytecode} {frame : Frame}

theorem Reached.within (h : frame.Reached code)
    (hcanonical : ∀ value : Value, value.Canonical → good value)
    (hpool : ∀ value ∈ code.constants, good value) : frame.Within good := by
  induction h with
  | create hcreate =>
    obtain rfl := eq_start_of_create hcreate
    have hundefined : good .undefined := hcanonical _ trivial
    refine ⟨hundefined, fun value hv => ?_, hpool⟩
    rw [(Array.mem_replicate.mp hv).2]
    exact hundefined
  | invoke h table opcode ih =>
    exact (CodeUnit.invoke_within hcanonical opcode table ih).1

theorem Reached.within_provides (h : frame.Reached code) : frame.Within code.Provides :=
  h.within (fun _ => Or.inl) (fun _ => Or.inr)

theorem Reached.provides (h : frame.Reached code) {value : Value} (hv : frame.Has value) :
    code.Provides value := by
  rcases hv with rfl | hv
  · exact h.within_provides.accumulator
  · exact h.within_provides.registers value hv

/-- A turn of a standard unit: the frame that it leaves is reached, and it hands back a standard
unit or returns a value of the pool or a canonical one. -/
theorem Reached.turn (ht : table.IsStandard) (h : frame.Reached code) {opcode : Opcode}
    {result : Except Fault Transfer} {after : Frame}
    (hturn : (CodeUnit.standard opcode).turn table frame = (result, after)) :
    after.Reached code ∧ (∀ value, result = .ok (.returned value) → code.Provides value) ∧
      ∀ unit, result = .ok (.next unit) → ∃ opcode, unit = .standard opcode := by
  refine ⟨?_, ?_, ?_⟩
  · have hafter := h.invoke table opcode
    rwa [← CodeUnit.turn_snd, hturn] at hafter
  · rintro value rfl
    have hinvoke := (CodeUnit.of_turn hturn).1
    refine (CodeUnit.invoke_within (fun _ => Or.inl) opcode table h.within_provides).2 value ?_
    rw [hinvoke]
  · rintro unit rfl
    have hinvoke := (CodeUnit.of_turn hturn).1
    obtain ⟨next, hnext⟩ := (CodeUnit.of_invoke hinvoke).2.looked unit rfl
    exact ⟨next, Except.ok.inj (hnext.symm.trans (ht next))⟩

/-- From a standard unit on, a run invokes standard units on reached frames and ends in such a
frame. -/
theorem Reached.recorded (ht : table.IsStandard) (h : frame.Reached code) {unit : CodeUnit}
    (hu : ∃ opcode, unit = .standard opcode) :
    (∀ invocation ∈ (unit.recorded table frame).1,
      (∃ opcode, invocation.unit = .standard opcode) ∧ invocation.frame.Reached code) ∧
    (unit.recorded table frame).2.2.Reached code ∧
    ∀ value, (unit.recorded table frame).2.1 = .ok value → code.Provides value := by
  induction unit, frame using CodeUnit.recorded.induct table with
  | case1 unit frame hw =>
    rw [CodeUnit.recorded_of_overflow hw]
    refine ⟨List.forall_mem_nil _, h, ?_⟩
    intro value hvalue
    cases hvalue
  | case2 unit frame hw e after hturn =>
    obtain ⟨opcode, rfl⟩ := hu
    rw [CodeUnit.recorded_of_error hw hturn, List.forall_mem_singleton]
    refine ⟨⟨⟨opcode, rfl⟩, h⟩, (h.turn ht hturn).1, ?_⟩
    intro value hvalue
    cases hvalue
  | case3 unit frame hw value after hturn =>
    obtain ⟨opcode, rfl⟩ := hu
    obtain ⟨hafter, hvalue, _⟩ := h.turn ht hturn
    rw [CodeUnit.recorded_of_returned hw hturn, List.forall_mem_singleton]
    refine ⟨⟨⟨opcode, rfl⟩, h⟩, hafter, fun value' hvalue' => hvalue value' ?_⟩
    rw [Except.ok.inj hvalue']
  | case4 unit frame hw next after hturn ih =>
    obtain ⟨opcode, rfl⟩ := hu
    obtain ⟨hafter, _, hnext⟩ := h.turn ht hturn
    rw [CodeUnit.recorded_of_next hw hturn, List.forall_mem_cons]
    obtain ⟨hrest, hend, hvalue⟩ := ih hafter (hnext next rfl)
    exact ⟨⟨⟨⟨opcode, rfl⟩, h⟩, hrest⟩, hend, hvalue⟩

theorem Reached.run (ht : table.IsStandard) (h : frame.Reached code) :
    (∀ invocation ∈ frame.trail table,
      (∃ opcode, invocation.unit = .standard opcode) ∧ invocation.frame.Reached code) ∧
    (frame.run table).2.Reached code ∧
    ∀ value, (frame.run table).1 = .ok value → code.Provides value := by
  rw [trail, ← recorded_snd]
  cases hu : frame.currentUnit table with
  | error e =>
    rw [recorded_of_fault hu]
    refine ⟨List.forall_mem_nil _, h, ?_⟩
    intro value hvalue
    cases hvalue
  | ok unit =>
    rw [recorded_of_unit hu]
    refine h.recorded ht ?_
    unfold currentUnit at hu
    cases ho : frame.currentOpcode with
    | error e =>
      rw [ho] at hu
      cases hu
    | ok opcode =>
      rw [ho] at hu
      exact ⟨opcode, Except.ok.inj (hu.symm.trans (ht opcode))⟩

/-- Doubles that could be small integers come only from the constant pool. Canonical values have no
such double; arithmetic comes to canonical values; and in every frame that the standard units lead
to, as in all frames of a run and in what it returns, a value is canonical or an entry of the pool.
With a canonical pool all values are canonical. -/
theorem values_from_pool (code : Bytecode) :
    (∀ v : Value, v.Canonical ↔
      ∀ x n, v = .number x → x.isFinite → x.signedUnits = n * Binary64.unitsPerOne →
        Value.FitsSmall n → x = .zero true) ∧
    (∀ lhs rhs : Value, (lhs.add rhs).Canonical ∧ (lhs.sub rhs).Canonical ∧
      (lhs.mul rhs).Canonical ∧ (lhs.div rhs).Canonical) ∧
    (∀ frame : Frame, frame.Reached code →
      ∀ value, frame.Has value → value.Canonical ∨ value ∈ code.constants) ∧
    (∀ table : DispatchTable, table.IsStandard → ∀ frame : Frame, frame.Reached code →
      (∀ invocation ∈ frame.trail table,
        (∃ opcode, invocation.unit = .standard opcode) ∧ invocation.frame.Reached code) ∧
      (frame.run table).2.Reached code ∧
      ∀ value, (frame.run table).1 = .ok value → value.Canonical ∨ value ∈ code.constants) ∧
    ((∀ value ∈ code.constants, value.Canonical) →
      ∀ frame : Frame, frame.Reached code →
        (∀ value, frame.Has value → value.Canonical) ∧
        ∀ table : DispatchTable, table.IsStandard →
          ∀ value, (frame.run table).1 = .ok value → value.Canonical) := by
  refine ⟨Value.canonical_iff, fun lhs rhs => ?_, fun _ h _ => h.provides, fun _ ht _ h => h.run ht,
    fun hpool frame h => ?_⟩
  · exact ⟨Value.canonical_add lhs rhs, Value.canonical_sub lhs rhs, Value.canonical_mul lhs rhs,
      Value.canonical_div lhs rhs⟩
  · have hcanonical : ∀ value, code.Provides value → value.Canonical :=
      fun value hvalue => hvalue.elim id (hpool value)
    refine ⟨fun value hv => hcanonical value (h.provides hv), fun table ht value hvalue => ?_⟩
    exact hcanonical value ((h.run ht).2.2 value hvalue)

end Frame

end RegisterMachine
