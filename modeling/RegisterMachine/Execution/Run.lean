import RegisterMachine.Dispatch.Table

/-!
# Running handlers

A handler is carried out against a frame and a table. The trampoline invokes the unit of the opcode
at the cursor, and then whatever unit it is handed, until a value is returned.

Runs are those of the development profile. There the trampoline counts the transfers before and
after each unit, and a debug assertion demands that there is one more; and there a count that is no
word any more is a fault. A release build has neither: it compiles the assertion away, and its
counters wrap around.

Every unit that hands back another one has moved the cursor forward within the stream
(`invoke_next`), whatever its handler does, so the trampoline comes to an end.
-/

namespace RegisterMachine

variable (table : DispatchTable)

namespace Frame

/-- Continues: moves past the current instruction, counts that, and looks up the unit of the one
that follows. A fault at that instruction leaves the cursor on it. -/
def dispatch (frame : Frame) : Except Fault CodeUnit × Frame :=
  match frame.currentOpcode with
  | .error e => (.error e, frame)
  | .ok opcode =>
    if frame.Overflows (frame.stats.continues + 1) then (.error .overflow, frame.skip opcode.width)
    else
      let frame := frame.advance opcode.width
      (frame.currentOpcode.bind table.lookup, frame)

end Frame

namespace Handler

/-- Carries out a handler that holds some transfers. What was done before a fault stays done. -/
def exec : {held : Nat} → Handler held → Vector Transfer held → Frame →
    Except Fault Transfer × Frame
  | _, finish transfer, held, frame => (.ok held[transfer], frame)
  | _, inspect next, held, frame => (next frame).exec held frame
  | _, setAccumulator value next, held, frame =>
    next.exec held { frame with accumulator := value }
  | _, register r next, held, frame =>
    match frame.register r with
    | .ok value => (next value).exec held frame
    | .error e => (.error e, frame)
  | _, setRegister r value next, held, frame =>
    match frame.setRegister r value with
    | .ok frame => next.exec held frame
    | .error e => (.error e, frame)
  | _, currentOpcode next, held, frame =>
    match frame.currentOpcode with
    | .ok opcode => (next opcode).exec held frame
    | .error e => (.error e, frame)
  | _, operandByte operand next, held, frame =>
    match frame.operandByte operand with
    | .ok byte => (next byte).exec held frame
    | .error e => (.error e, frame)
  | _, constant index next, held, frame =>
    match frame.constant index with
    | .ok value => (next value).exec held frame
    | .error e => (.error e, frame)
  | _, dispatch next, held, frame =>
    match frame.dispatch table with
    | (.ok unit, frame) => (next unit.opcode).exec (held.push (.next unit)) frame
    | (.error e, frame) => (.error e, frame)
  | _, exit value next, held, frame =>
    match frame.leave with
    | .ok frame => next.exec (held.push (.returned value)) frame
    | .error e => (.error e, frame)

end Handler

/-- A transfer that continues has been given to its holder by a dispatch, since when the cursor lies
past `origin` and within the stream. -/
def Moved {held : Nat} (origin : Nat) (transfers : Vector Transfer held) (frame : Frame) : Prop :=
  ∀ i : Fin held, (transfers[i].next?).isSome →
    origin < frame.cursor ∧ frame.cursor < frame.code.size

namespace Frame

theorem setRegister_eq {frame after : Frame} {r : Register} {value : Value}
    (h : frame.setRegister r value = .ok after) :
    after.code = frame.code ∧ after.cursor = frame.cursor ∧ after.stats = frame.stats := by
  unfold setRegister fault at h
  split at h
  · cases h; exact ⟨rfl, rfl, rfl⟩
  · cases h

theorem eq_exit_of_leave {frame after : Frame} (h : frame.leave = .ok after) :
    after = frame.exit := by
  unfold leave at h
  split at h <;> cases h
  rfl

theorem dispatch_eq_ok {table : DispatchTable} {frame after : Frame} {unit : CodeUnit}
    (h : frame.dispatch table = (.ok unit, after)) :
    ∃ opcode, frame.currentOpcode = .ok opcode ∧ after = frame.advance opcode.width ∧
      after.currentOpcode.bind table.lookup = .ok unit := by
  unfold dispatch at h
  split at h
  · cases h
  · next opcode ho =>
    split at h
    · cases h
    · obtain ⟨h1, h2⟩ := Prod.mk.inj h
      exact ⟨opcode, ho, h2.symm, by rw [← h2]; exact h1⟩

theorem dispatch_moves {table : DispatchTable} {frame after : Frame} {unit : CodeUnit}
    (h : frame.dispatch table = (.ok unit, after)) :
    after.code = frame.code ∧ frame.cursor < after.cursor ∧ after.cursor < after.code.size := by
  obtain ⟨opcode, _, rfl, hu⟩ := dispatch_eq_ok h
  refine ⟨rfl, Nat.lt_add_of_pos_right opcode.width_pos, ?_⟩
  cases hn : (frame.advance opcode.width).currentOpcode with
  | error e => rw [hn] at hu; cases hu
  | ok next => exact cursor_lt_size_of_currentOpcode hn

end Frame

namespace Handler

theorem exec_next {table : DispatchTable} {held : Nat} (handler : Handler held) (origin : Nat)
    (transfers : Vector Transfer held) (frame : Frame) (ho : origin ≤ frame.cursor)
    (hm : Moved origin transfers frame) {unit : CodeUnit} {after : Frame}
    (h : handler.exec table transfers frame = (.ok (.next unit), after)) :
    after.code = frame.code ∧ origin < after.cursor ∧ after.cursor < after.code.size := by
  induction handler generalizing frame with
  | finish i =>
    obtain ⟨hi, rfl⟩ := Prod.mk.inj h
    have := Except.ok.inj hi
    exact ⟨rfl, hm i (by rw [this]; rfl)⟩
  | inspect next ih => exact ih frame transfers frame ho hm h
  | setAccumulator value next ih =>
    exact ih transfers { frame with accumulator := value } ho hm h
  | register r next ih =>
    unfold exec at h
    split at h
    · exact ih _ transfers frame ho hm h
    · cases h
  | setRegister r value next ih =>
    unfold exec at h
    split at h
    · next written hw =>
      obtain ⟨hc, hp, _⟩ := Frame.setRegister_eq hw
      have := ih transfers written (by omega) (by simpa only [Moved, hc, hp] using hm) h
      rwa [hc] at this
    · cases h
  | currentOpcode next ih =>
    unfold exec at h
    split at h
    · exact ih _ transfers frame ho hm h
    · cases h
  | operandByte operand next ih =>
    unfold exec at h
    split at h
    · exact ih _ transfers frame ho hm h
    · cases h
  | constant index next ih =>
    unfold exec at h
    split at h
    · exact ih _ transfers frame ho hm h
    · cases h
  | dispatch next ih =>
    unfold exec at h
    split at h
    · next moved hd =>
      obtain ⟨hc, hp, hl⟩ := Frame.dispatch_moves hd
      have := ih _ _ moved (by omega) (fun _ _ => ⟨by omega, hl⟩) h
      rwa [hc] at this
    · cases h
  | exit value next ih =>
    unfold exec at h
    split at h
    · next left hl =>
      obtain rfl := Frame.eq_exit_of_leave hl
      refine ih _ frame.exit ho (fun i hi => ?_) h
      by_cases hlt : i.val < transfers.size
      · exact hm ⟨i, hlt⟩ (by simpa [Vector.getElem_push, hlt] using hi)
      · simp [Vector.getElem_push, hlt, Transfer.next?] at hi
    · cases h

end Handler

namespace CodeUnit

def invoke (unit : CodeUnit) (frame : Frame) : Except Fault Transfer × Frame :=
  unit.body.exec table #v[] frame

/-- Invokes a unit and checks that its handler called exactly one dispatch primitive. This is the
debug assertion of the development profile. -/
def turn (unit : CodeUnit) (frame : Frame) : Except Fault Transfer × Frame :=
  match unit.invoke table frame with
  | (.error e, after) => (.error e, after)
  | (.ok transfer, after) =>
    -- A handler that comes back has counted something, so what is expected is a word if this is.
    if after.Overflows after.stats.transfers then (.error .overflow, after)
    else if after.stats.transfers = frame.stats.transfers + 1 then (.ok transfer, after)
    else
      (.error (.transferCount unit.opcode after.stats.transfers (frame.stats.transfers + 1)), after)

theorem invoke_next {table : DispatchTable} {unit next : CodeUnit} {frame after : Frame}
    (h : unit.invoke table frame = (.ok (.next next), after)) :
    after.code = frame.code ∧ frame.cursor < after.cursor ∧ after.cursor < after.code.size :=
  unit.body.exec_next frame.cursor #v[] frame (Nat.le_refl _) (fun i => i.elim0) h

theorem turn_next {table : DispatchTable} {unit next : CodeUnit} {frame after : Frame}
    (h : unit.turn table frame = (.ok (.next next), after)) :
    after.code = frame.code ∧ frame.cursor < after.cursor ∧ after.cursor < after.code.size := by
  unfold turn at h
  split at h
  · cases h
  · next transfer moved hi =>
    split at h
    · cases h
    split at h
    · obtain ⟨ht, rfl⟩ := Prod.mk.inj h
      exact invoke_next (by rw [hi, Except.ok.inj ht])
    · cases h

/-- Invokes a unit and the units that are handed back from then on, until one returns a value. The
transfers are counted before each of them. -/
def follow (unit : CodeUnit) (frame : Frame) : Except Fault Value × Frame :=
  if frame.Overflows frame.stats.transfers then (.error .overflow, frame)
  else
    match _ : unit.turn table frame with
    | (.error e, after) => (.error e, after)
    | (.ok (.returned value), after) => (.ok value, after)
    | (.ok (.next next), after) => next.follow after
termination_by frame.code.size - frame.cursor
decreasing_by
  obtain ⟨hc, hp, hl⟩ := turn_next ‹_›
  rw [hc] at hl ⊢
  omega

end CodeUnit

namespace Frame

def currentUnit (frame : Frame) : Except Fault CodeUnit := frame.currentOpcode.bind table.lookup

/-- Invokes the unit of the opcode at the cursor, and no other. -/
def step (frame : Frame) : Except Fault Transfer × Frame :=
  match frame.currentUnit table with
  | .error e => (.error e, frame)
  | .ok unit => unit.invoke table frame

def run (frame : Frame) : Except Fault Value × Frame :=
  match frame.currentUnit table with
  | .error e => (.error e, frame)
  | .ok unit => unit.follow table frame

end Frame

end RegisterMachine
