import RegisterMachine.Proofs.Execution.Step
import RegisterMachine.Proofs.Execution.Trail

/-!
# Steps and runs

A step looks its unit up afresh, a run takes the unit that the last transfer has handed back. The
two are the same unit: a handler that calls one primitive does not move the cursor after it
(`Performs.currentUnit`). With the standard handlers a run therefore invokes what single steps
invoke, and it can be taken up after any number of them.
-/

namespace RegisterMachine

variable {table : DispatchTable} {frame after : Frame} {unit next : CodeUnit}

/-- The unit at the cursor is told by the stream and the cursor. -/
theorem Frame.currentUnit_congr (hcode : after.code = frame.code)
    (hcursor : after.cursor = frame.cursor) :
    after.currentUnit table = frame.currentUnit table := by
  simp only [currentUnit, currentOpcode, fault, hcode, hcursor]

/-- Where nothing was held, the first transfer is all that is held. -/
theorem Transfer.eq_of_mem_push {transfers : Vector Transfer 0} {first transfer : Transfer}
    (h : transfer ∈ transfers.push first) : transfer = first := by
  rcases Vector.mem_push.mp h with hold | hfirst
  · obtain rfl : transfers = #v[] := Vector.eq_empty
    cases Vector.not_mem_empty _ hold
  · exact hfirst

/-- As long as no more than one primitive has been called, a unit that is held is the one at the
cursor, and so is the unit that is handed back. -/
theorem Performs.currentUnit {held : Nat} {transfers : Vector Transfer held}
    {called : List Primitive} {transfer : Transfer}
    (h : Performs table transfers frame called transfer after)
    (hheld : ∀ unit, .next unit ∈ transfers → frame.currentUnit table = .ok unit)
    (hone : held + called.length ≤ 1) (hunit : transfer = .next unit) :
    after.currentUnit table = .ok unit := by
  induction h with
  | finish _ hmem => exact hheld unit (hunit ▸ hmem)
  | write hcode hcursor _ _ ih =>
    refine ih (fun other hmem => ?_) hone hunit
    rw [Frame.currentUnit_congr hcode hcursor]
    exact hheld other hmem
  | @dispatch held _ _ _ _ called _ _ hd _ ih =>
    -- Nothing was held before, and the unit that is held now was looked up at this cursor.
    rw [List.length_cons] at hone
    obtain rfl : held = 0 := by omega
    refine ih (fun other hmem => ?_) (by omega) hunit
    cases Transfer.eq_of_mem_push hmem
    obtain ⟨_, _, _, hgiven⟩ := Frame.dispatch_eq_ok hd
    exact hgiven
  | @exit held _ _ _ called _ value _ ih =>
    rw [List.length_cons] at hone
    obtain rfl : held = 0 := by omega
    refine ih (fun other hmem => ?_) (by omega) hunit
    cases Transfer.eq_of_mem_push hmem

namespace CodeUnit

theorem currentUnit_of_turn (h : unit.turn table frame = (.ok (.next next), after)) :
    after.currentUnit table = .ok next := by
  obtain ⟨hinvoke, hone, _⟩ := of_turn h
  refine (Handler.performs_of_exec hinvoke).currentUnit (fun _ hmem => ?_) ?_ rfl
  · cases Vector.not_mem_empty _ hmem
  · rw [hone]
    exact Nat.le_refl 1

theorem recorded_cons (table : DispatchTable) (unit : CodeUnit)
    (hw : ¬frame.Overflows frame.stats.transfers) :
    ∃ rest, (unit.recorded table frame).1 = ⟨unit, frame⟩ :: rest := by
  rcases hturn : unit.turn table frame with ⟨e | next | value, after⟩
  · exact ⟨[], by rw [recorded_of_error hw hturn]⟩
  · exact ⟨_, by rw [recorded_of_next hw hturn]⟩
  · exact ⟨[], by rw [recorded_of_returned hw hturn]⟩

end CodeUnit

namespace Frame

theorem recorded_of_overflow (hu : frame.currentUnit table = .ok unit)
    (hw : frame.Overflows frame.stats.transfers) :
    frame.recorded table = ([], (.error .overflow, frame)) := by
  rw [recorded_of_unit hu, CodeUnit.recorded_of_overflow hw]

/-- A turn that continues goes on as a run of the frame that it leaves. -/
theorem recorded_of_turn (hw : ¬frame.Overflows frame.stats.transfers)
    (hu : frame.currentUnit table = .ok unit)
    (h : unit.turn table frame = (.ok (.next next), after)) :
    frame.recorded table =
      (⟨unit, frame⟩ :: (after.recorded table).1, (after.recorded table).2) := by
  rw [recorded_of_unit hu, CodeUnit.recorded_of_next hw h,
    recorded_of_unit (CodeUnit.currentUnit_of_turn h)]

theorem step_of_turn (hu : frame.currentUnit table = .ok unit)
    (h : unit.turn table frame = (.ok (.next next), after)) :
    frame.step table = (.ok (.next next), after) := by
  simp only [step, hu]
  exact (CodeUnit.of_turn h).1

/-- What a step that continues does, with the standard handlers: it counts one transfer and hands
back the unit at the cursor that it leaves. -/
structure StepsTo (table : DispatchTable) (frame : Frame) (next : CodeUnit) (after : Frame) :
    Prop where
  invoke : ∃ unit, frame.currentUnit table = .ok unit ∧
    unit.invoke table frame = (.ok (.next next), after)
  currentUnit : after.currentUnit table = .ok next
  code : after.code = frame.code
  cursor : frame.cursor < after.cursor
  transfers : after.stats.transfers = frame.stats.transfers + 1

theorem stepsTo_of_step (ht : table.IsStandard)
    (h : frame.step table = (.ok (.next next), after)) : StepsTo table frame next after := by
  have hgoes := exists_goes ht frame
  rw [h] at hgoes
  obtain ⟨kind, hgoes⟩ := hgoes
  cases hgoes with
  | @continued i _ opcode hc hs _ ho =>
    have hwidth : 0 < i.width := i.opcode.width_pos
    have hcursor := hc.cursor
    refine ⟨?_, by rw [currentUnit, ho]; exact ht opcode, hc.code, by omega, ?_⟩
    · unfold step at h
      cases hu : frame.currentUnit table with
      | error e =>
        rw [hu] at h
        cases h
      | ok unit =>
        rw [hu] at h
        exact ⟨unit, rfl, h⟩
    · simp only [Stats.transfers, hs, hc.returns]
      omega

namespace StepsTo

variable (h : StepsTo table frame next after)

include h

theorem overflows (hw : frame.Overflows frame.stats.transfers) :
    after.Overflows after.stats.transfers := by
  obtain ⟨hsize, hlimit⟩ := hw
  unfold Overflows
  rw [h.code, h.transfers]
  omega

/-- A step from a frame that can count its transfers is the first invocation of its run. If the
transfers cannot be counted behind it, the run ends there. -/
theorem recorded (hw : ¬frame.Overflows frame.stats.transfers) :
    ∃ unit, frame.recorded table =
      (⟨unit, frame⟩ :: (after.recorded table).1, (after.recorded table).2) := by
  obtain ⟨unit, hu, hinvoke⟩ := h.invoke
  refine ⟨unit, ?_⟩
  by_cases hafter : after.Overflows after.stats.transfers
  · have hturn : unit.turn table frame = (.error .overflow, after) := by
      simp only [CodeUnit.turn, hinvoke, if_pos hafter]
    rw [recorded_of_unit hu, CodeUnit.recorded_of_error hw hturn,
      recorded_of_overflow h.currentUnit hafter]
  · exact recorded_of_turn hw hu (CodeUnit.turn_of_ok hinvoke h.transfers hafter)

/-- After a step a run comes to the same, also if it cannot be counted. -/
theorem run_fst : (after.run table).1 = (frame.run table).1 := by
  rw [← recorded_snd, ← recorded_snd]
  by_cases hw : frame.Overflows frame.stats.transfers
  · obtain ⟨unit, hu, _⟩ := h.invoke
    rw [recorded_of_overflow hu hw, recorded_of_overflow h.currentUnit (h.overflows hw)]
  · obtain ⟨unit, hrecorded⟩ := h.recorded hw
    rw [hrecorded]

theorem paced (hp : frame.Paced) : after.Paced := by
  have htransfers := h.transfers
  have hcursor := h.cursor
  have hle := hp.transfers_le
  exact ⟨by omega, Nat.le_of_lt (cursor_lt_size_of_currentUnit h.currentUnit)⟩

end StepsTo

inductive Stepped (table : DispatchTable) : Nat → Frame → Frame → Prop
  | zero (frame : Frame) : Stepped table 0 frame frame
  | succ {k : Nat} {frame middle after : Frame} {unit : CodeUnit}
      (hs : frame.step table = (.ok (.next unit), middle)) (h : Stepped table k middle after) :
      Stepped table (k + 1) frame after

namespace Stepped

variable {k : Nat} (ht : table.IsStandard) (h : Stepped table k frame after)

include ht h

theorem overflows (hw : frame.Overflows frame.stats.transfers) :
    after.Overflows after.stats.transfers := by
  induction h with
  | zero frame => exact hw
  | succ hs _ ih => exact ih ((stepsTo_of_step ht hs).overflows hw)

theorem paced (hp : frame.Paced) : after.Paced := by
  induction h with
  | zero frame => exact hp
  | succ hs _ ih => exact ih ((stepsTo_of_step ht hs).paced hp)

theorem run_fst : (after.run table).1 = (frame.run table).1 := by
  induction h with
  | zero frame => rfl
  | succ hs _ ih => exact ih.trans (stepsTo_of_step ht hs).run_fst

/-- After some steps that can be counted, what is left of a run is a run. -/
theorem resumes (hw : ¬after.Overflows after.stats.transfers) :
    after.trail table = (frame.trail table).drop k ∧ after.run table = frame.run table := by
  induction h with
  | zero frame => exact ⟨rfl, rfl⟩
  | succ hs hrest ih =>
    have hstep := stepsTo_of_step ht hs
    have hfirst := fun hover => hw (hrest.overflows ht (hstep.overflows hover))
    obtain ⟨unit, hrecorded⟩ := hstep.recorded hfirst
    rw [(ih hw).1, (ih hw).2, trail, trail, ← recorded_snd, ← recorded_snd, hrecorded]
    exact ⟨rfl, rfl⟩

end Stepped

theorem getElem?_trail_zero {invocation : Invocation} :
    (frame.trail table)[0]? = some invocation ↔
      invocation.frame = frame ∧ invocation.frame.currentUnit table = .ok invocation.unit ∧
        ¬invocation.frame.Overflows invocation.frame.stats.transfers := by
  obtain ⟨unit', frame'⟩ := invocation
  cases hu : frame.currentUnit table with
  | error e =>
    rw [trail, recorded_of_fault hu]
    constructor
    · intro h
      cases h
    · rintro ⟨rfl, hunit, _⟩
      rw [hu] at hunit
      cases hunit
  | ok unit =>
    by_cases hw : frame.Overflows frame.stats.transfers
    · rw [trail, recorded_of_overflow hu hw]
      constructor
      · intro h
        cases h
      · rintro ⟨rfl, _, hnot⟩
        exact absurd hw hnot
    · obtain ⟨rest, hrest⟩ := CodeUnit.recorded_cons table unit hw
      rw [trail, recorded_of_unit hu, hrest]
      constructor
      · intro h
        cases h
        exact ⟨rfl, hu, hw⟩
      · rintro ⟨rfl, hunit, _⟩
        rw [hu] at hunit
        cases hunit
        rfl

/-- If a run makes another invocation after its first one, it does so as the run from where a step
has led. -/
theorem step_of_getElem?_trail {k : Nat} {invocation : Invocation}
    (h : (frame.trail table)[k + 1]? = some invocation) :
    ∃ next after, frame.step table = (.ok (.next next), after) ∧
      (after.trail table)[k]? = some invocation := by
  cases hu : frame.currentUnit table with
  | error e =>
    rw [trail, recorded_of_fault hu] at h
    cases h
  | ok unit =>
    by_cases hw : frame.Overflows frame.stats.transfers
    · rw [trail, recorded_of_overflow hu hw] at h
      cases h
    rcases hturn : unit.turn table frame with ⟨e | next | value, after⟩
    · rw [trail, recorded_of_unit hu, CodeUnit.recorded_of_error hw hturn] at h
      cases h
    · rw [trail, recorded_of_turn hw hu hturn] at h
      exact ⟨next, after, step_of_turn hu hturn, h⟩
    · rw [trail, recorded_of_unit hu, CodeUnit.recorded_of_returned hw hturn] at h
      cases h

theorem stepped_of_getElem?_trail {k : Nat} {invocation : Invocation}
    (h : (frame.trail table)[k]? = some invocation) :
    Stepped table k frame invocation.frame ∧
      invocation.frame.currentUnit table = .ok invocation.unit ∧
      ¬invocation.frame.Overflows invocation.frame.stats.transfers := by
  induction k generalizing frame with
  | zero =>
    obtain ⟨rfl, hunit⟩ := getElem?_trail_zero.mp h
    exact ⟨.zero _, hunit⟩
  | succ k ih =>
    obtain ⟨next, after, hs, hrest⟩ := step_of_getElem?_trail h
    obtain ⟨hstepped, hunit⟩ := ih hrest
    exact ⟨.succ hs hstepped, hunit⟩

/-- What a run invokes after `k` handlers is the frame that `k` steps lead to, with the unit of the
opcode at its cursor, if that frame can count its transfers. -/
theorem getElem?_trail_iff (ht : table.IsStandard) {k : Nat} {invocation : Invocation} :
    (frame.trail table)[k]? = some invocation ↔
      Stepped table k frame invocation.frame ∧
        invocation.frame.currentUnit table = .ok invocation.unit ∧
        ¬invocation.frame.Overflows invocation.frame.stats.transfers := by
  refine ⟨stepped_of_getElem?_trail, ?_⟩
  rintro ⟨hstepped, hunit, hw⟩
  have hfirst := getElem?_trail_zero.mpr ⟨rfl, hunit, hw⟩
  rwa [(hstepped.resumes ht hw).1, List.getElem?_drop, Nat.add_zero] at hfirst

/-- With the standard handlers, a run after any number of steps of a fresh frame comes to the same
value or fault as the run without them, and to the same frame. What a run invokes after `k` handlers
is the frame that `k` steps lead to, with the unit of the opcode at its cursor. The same holds from
any other frame as far as its transfers can be counted; where they cannot, both runs fault over
that. -/
theorem run_after_steps (ht : table.IsStandard) (frame : Frame) (k : Nat) :
    (∀ code, create code = .ok frame →
      (∀ after, Stepped table k frame after → after.run table = frame.run table) ∧
      ∀ invocation : Invocation, (frame.trail table)[k]? = some invocation ↔
        Stepped table k frame invocation.frame ∧
          invocation.frame.currentUnit table = .ok invocation.unit) ∧
    (∀ after, Stepped table k frame after →
      (after.run table).1 = (frame.run table).1 ∧
        (¬after.Overflows after.stats.transfers → after.run table = frame.run table)) ∧
    ∀ invocation : Invocation, (frame.trail table)[k]? = some invocation ↔
      Stepped table k frame invocation.frame ∧
        invocation.frame.currentUnit table = .ok invocation.unit ∧
        ¬invocation.frame.Overflows invocation.frame.stats.transfers := by
  refine ⟨fun code hcreate => ?_, fun after h => ⟨h.run_fst ht, fun hw => (h.resumes ht hw).2⟩,
    fun invocation => getElem?_trail_iff ht⟩
  have hroom : ∀ after, Stepped table k frame after → ¬after.Overflows after.stats.transfers := by
    intro after h
    obtain rfl := eq_start_of_create hcreate
    exact (h.paced ht (.start code)).not_overflows
  refine ⟨fun after h => (h.resumes ht (hroom after h)).2, fun invocation => ?_⟩
  rw [getElem?_trail_iff ht]
  exact ⟨fun ⟨h, hunit, _⟩ => ⟨h, hunit⟩, fun ⟨h, hunit⟩ => ⟨h, hunit, hroom _ h⟩⟩

/-- After one step the run still faults at the byte that is no opcode, in the middle of a
dispatch. -/
theorem run_after_steps_stranded :
    let code : Bytecode := ⟨#[1, 9, 9, 0, 200], 1, #[]⟩
    let frame : Frame := ⟨code, .undefined, #[.undefined], 0, {}⟩
    let after : Frame := { frame with accumulator := .small 9, cursor := 2, stats := ⟨1, 0⟩ }
    DispatchTable.standard.IsStandard ∧ create code = .ok frame ∧
      Stepped .standard 1 frame after ∧ after.run .standard = frame.run .standard ∧
      (frame.trail .standard)[1]? = some ⟨.standard .star, after⟩ := by
  intro code frame after
  have ht := DispatchTable.isStandard_standard
  have hcreate : create code = .ok frame := create_eq_start (by decide)
  have hstep : frame.step .standard = (.ok (.next (.standard .star)), after) := rfl
  have hstepped : Stepped .standard 1 frame after := .succ hstep (.zero after)
  obtain ⟨hrun, hinvokes⟩ := (run_after_steps ht frame 1).1 code hcreate
  exact ⟨ht, hcreate, hstepped, hrun after hstepped, (hinvokes ⟨_, after⟩).mpr ⟨hstepped, rfl⟩⟩

end Frame

end RegisterMachine
