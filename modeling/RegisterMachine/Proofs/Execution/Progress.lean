import RegisterMachine.Proofs.Execution.Trail

/-!
# How far a run comes

A run comes to an end whatever its handlers do. No operation takes the cursor back, and a dispatch
that hands back a unit has brought it forward to an offset within the stream, so a run invokes at
most one handler for each byte from its first cursor on. `Handler.moves` lists what the operations
of a handler do to its frame, and `Leads` puts them end to end.
-/

namespace RegisterMachine

/-- What an operation does to a frame, with the unit that it hands back if it continues. -/
structure Move where
  before : Frame
  after : Frame
  unit? : Option CodeUnit

/-- The cursor is not taken back, and an operation that continues brings it forward within the
stream. -/
def Move.Forward (code : Bytecode) (move : Move) : Prop :=
  move.before.cursor ≤ move.after.cursor ∧
    ∀ unit, move.unit? = some unit →
      move.before.cursor < move.after.cursor ∧ move.after.cursor < code.size

/-- Moves, each of which begins where the one before has ended, from one frame to another. -/
inductive Leads : Frame → List Move → Frame → Prop
  | nil (frame : Frame) : Leads frame [] frame
  | cons {before after last : Frame} {unit? : Option CodeUnit} {rest : List Move}
      (h : Leads after rest last) : Leads before (⟨before, after, unit?⟩ :: rest) last

structure Course (code : Bytecode) (first : Frame) (moves : List Move) (last : Frame) : Prop where
  forward : ∀ move ∈ moves, move.Forward code
  leads : Leads first moves last

namespace Course

variable {code : Bytecode} {first middle last : Frame}

theorem nil (code : Bytecode) (frame : Frame) : Course code frame [] frame :=
  ⟨fun _ h => absurd h List.not_mem_nil, .nil frame⟩

theorem cons {unit? : Option CodeUnit} {rest : List Move}
    (hfirst : Move.Forward code ⟨first, middle, unit?⟩) (h : Course code middle rest last) :
    Course code first (⟨first, middle, unit?⟩ :: rest) last :=
  ⟨List.forall_mem_cons.mpr ⟨hfirst, h.forward⟩, .cons h.leads⟩

theorem append {front back : List Move} (h : Course code first front middle)
    (h' : Course code middle back last) : Course code first (front ++ back) last := by
  obtain ⟨hforward, hleads⟩ := h
  induction hleads with
  | nil => exact h'
  | cons _ ih =>
    obtain ⟨hfirst, hrest⟩ := List.forall_mem_cons.mp hforward
    exact cons hfirst (ih h' hrest)

end Course

variable (table : DispatchTable)

/-- What a handler does to its frame, up to a fault. What only reads the frame is left out, and a
dispatch that faults may have moved the cursor. -/
def Handler.moves : {held : Nat} → Handler held → Frame → List Move
  | _, finish _, _ => []
  | _, inspect next, frame => (next frame).moves frame
  | _, setAccumulator value next, frame =>
    let after := { frame with accumulator := value }
    ⟨frame, after, none⟩ :: next.moves after
  | _, register r next, frame =>
    match frame.register r with
    | .ok value => (next value).moves frame
    | .error _ => []
  | _, setRegister r value next, frame =>
    match frame.setRegister r value with
    | .ok after => ⟨frame, after, none⟩ :: next.moves after
    | .error _ => []
  | _, currentOpcode next, frame =>
    match frame.currentOpcode with
    | .ok opcode => (next opcode).moves frame
    | .error _ => []
  | _, operandByte operand next, frame =>
    match frame.operandByte operand with
    | .ok byte => (next byte).moves frame
    | .error _ => []
  | _, constant index next, frame =>
    match frame.constant index with
    | .ok value => (next value).moves frame
    | .error _ => []
  | _, dispatch next, frame =>
    match frame.dispatch table with
    | (.ok unit, after) => ⟨frame, after, some unit⟩ :: (next unit.opcode).moves after
    | (.error _, after) => [⟨frame, after, none⟩]
  | _, exit _ next, frame =>
    match frame.leave with
    | .ok after => ⟨frame, after, none⟩ :: next.moves after
    | .error _ => []

def Invocation.moves (invocation : Invocation) : List Move :=
  invocation.unit.body.moves table invocation.frame

def Frame.moves (frame : Frame) : List Move := (frame.trail table).flatMap (·.moves table)

/-- Invocations in one stream at increasing offsets, the first of them not before `offset`. -/
inductive Ascending (code : Bytecode) : Nat → List Invocation → Prop
  | nil (offset : Nat) : Ascending code offset []
  | cons {offset : Nat} {invocation : Invocation} {rest : List Invocation}
      (hcode : invocation.frame.code = code) (hle : offset ≤ invocation.frame.cursor)
      (hlt : invocation.frame.cursor < code.size)
      (h : Ascending code (invocation.frame.cursor + 1) rest) :
      Ascending code offset (invocation :: rest)

variable {table : DispatchTable} {code : Bytecode} {frame after : Frame}

namespace Ascending

variable {offset : Nat} {invocations : List Invocation}

theorem length_le (h : Ascending code offset invocations) :
    invocations.length ≤ code.size - offset := by
  induction h with
  | nil => exact Nat.zero_le _
  | cons _ hle hlt _ ih =>
    rw [List.length_cons]
    omega

theorem of_le {earlier : Nat} (hle : earlier ≤ offset) (h : Ascending code offset invocations) :
    Ascending code earlier invocations := by
  cases h with
  | nil => exact .nil earlier
  | cons hcode hle' hlt h => exact .cons hcode (Nat.le_trans hle hle') hlt h

end Ascending

namespace Frame

theorem forward_of_cursor_eq (h : after.cursor = frame.cursor) :
    Move.Forward code ⟨frame, after, none⟩ :=
  ⟨Nat.le_of_eq h.symm, nofun⟩

theorem forward_of_dispatch {unit : CodeUnit} (h : frame.dispatch table = (.ok unit, after)) :
    Move.Forward frame.code ⟨frame, after, some unit⟩ := by
  obtain ⟨hcode, hlt, hsize⟩ := dispatch_moves h
  rw [hcode] at hsize
  exact ⟨Nat.le_of_lt hlt, fun _ _ => ⟨hlt, hsize⟩⟩

/-- A dispatch that faults has moved the cursor past its instruction or not at all. -/
theorem forward_of_dispatch_error {e : Fault} (h : frame.dispatch table = (.error e, after)) :
    Move.Forward code ⟨frame, after, none⟩ := by
  unfold dispatch at h
  split at h
  · obtain ⟨_, rfl⟩ := Prod.mk.inj h
    exact forward_of_cursor_eq rfl
  · next opcode _ =>
    split at h <;> obtain ⟨_, rfl⟩ := Prod.mk.inj h
    all_goals exact ⟨Nat.le_add_right frame.cursor opcode.width, nofun⟩

end Frame

/-- The moves of a handler lead forward to the frame that it leaves. -/
theorem Handler.course_moves {held : Nat} {handler : Handler held}
    {transfers : Vector Transfer held} (hcode : frame.code = code) :
    Course code frame (handler.moves table frame) (handler.exec table transfers frame).2 := by
  induction handler generalizing frame with
  | finish i => exact .nil code frame
  | inspect next ih => exact ih frame hcode
  | setAccumulator value next ih =>
    rw [exec, moves]
    exact .cons (Frame.forward_of_cursor_eq rfl) (ih hcode)
  | register r next ih =>
    rw [exec, moves]
    cases frame.register r with
    | error e => exact .nil code frame
    | ok value => exact ih value hcode
  | setRegister r value next ih =>
    rw [exec, moves]
    cases hwrite : frame.setRegister r value with
    | error e => exact .nil code frame
    | ok written =>
      obtain ⟨hsame, hcursor, _⟩ := Frame.setRegister_eq hwrite
      exact .cons (Frame.forward_of_cursor_eq hcursor) (ih (hsame.trans hcode))
  | currentOpcode next ih =>
    rw [exec, moves]
    cases frame.currentOpcode with
    | error e => exact .nil code frame
    | ok opcode => exact ih opcode hcode
  | operandByte operand next ih =>
    rw [exec, moves]
    cases frame.operandByte operand with
    | error e => exact .nil code frame
    | ok byte => exact ih byte hcode
  | constant index next ih =>
    rw [exec, moves]
    cases frame.constant index with
    | error e => exact .nil code frame
    | ok value => exact ih value hcode
  | dispatch next ih =>
    rw [exec, moves]
    cases hdispatch : frame.dispatch table with
    | mk result moved =>
      cases result with
      | error e => exact .cons (Frame.forward_of_dispatch_error hdispatch) (.nil code moved)
      | ok unit =>
        have hsame := (Frame.dispatch_moves hdispatch).1
        have hfirst := hcode ▸ Frame.forward_of_dispatch hdispatch
        exact .cons hfirst (ih unit.opcode (hsame.trans hcode))
  | exit value next ih =>
    rw [exec, moves]
    cases hleave : frame.leave with
    | error e => exact .nil code frame
    | ok left =>
      obtain rfl := Frame.eq_exit_of_leave hleave
      exact .cons (Frame.forward_of_cursor_eq rfl) (ih hcode)

namespace CodeUnit

variable {unit : CodeUnit}

theorem course_of_turn {result : Except Fault Transfer} (hcode : frame.code = code)
    (h : unit.turn table frame = (result, after)) :
    Course code frame (unit.body.moves table frame) after := by
  have hcourse := @Handler.course_moves table code frame 0 unit.body #v[] hcode
  have hafter : (unit.invoke table frame).2 = after := by rw [← turn_snd, h]
  rwa [← hafter]

/-- From a unit on, a run invokes its handlers at increasing offsets, and their moves lead forward
to the frame in which it ends. -/
theorem course_of_recorded (hcode : frame.code = code) (hlt : frame.cursor < code.size) :
    Ascending code frame.cursor (unit.recorded table frame).1 ∧
      Course code frame ((unit.recorded table frame).1.flatMap (·.moves table))
        (unit.recorded table frame).2.2 := by
  induction unit, frame using recorded.induct table with
  | case1 unit frame hw =>
    rw [recorded_of_overflow hw]
    exact ⟨.nil _, .nil code frame⟩
  | case2 unit frame hw e after hturn =>
    rw [recorded_of_error hw hturn, List.flatMap_singleton]
    exact ⟨.cons hcode (Nat.le_refl _) hlt (.nil _), course_of_turn hcode hturn⟩
  | case3 unit frame hw value after hturn =>
    rw [recorded_of_returned hw hturn, List.flatMap_singleton]
    exact ⟨.cons hcode (Nat.le_refl _) hlt (.nil _), course_of_turn hcode hturn⟩
  | case4 unit frame hw next after hturn ih =>
    obtain ⟨hsame, hpast, hsize⟩ := turn_next hturn
    have hcode' := hsame.trans hcode
    obtain ⟨hascending, hcourse⟩ := ih hcode' (hcode' ▸ hsize)
    rw [recorded_of_next hw hturn, List.flatMap_cons]
    exact ⟨.cons hcode (Nat.le_refl _) hlt (hascending.of_le hpast),
      (course_of_turn hcode hturn).append hcourse⟩

end CodeUnit

namespace Frame

/-- A run ends with a value or a fault, whatever the units of the table do. It invokes its handlers
at increasing offsets of the stream, hence at most one for each byte from the cursor on. All that
the handlers do leads from the first frame to the last without taking the cursor back, and where a
dispatch continues it has brought the cursor forward to an offset within the stream. -/
theorem run_ends (table : DispatchTable) (frame : Frame) :
    (frame.recorded table).2 = frame.run table ∧
    Ascending frame.code frame.cursor (frame.trail table) ∧
    (frame.trail table).length ≤ frame.code.size - frame.cursor ∧
    Leads frame (frame.moves table) (frame.run table).2 ∧
    ∀ move ∈ frame.moves table, move.before.cursor ≤ move.after.cursor ∧
      ∀ unit, move.unit? = some unit →
        move.before.cursor < move.after.cursor ∧ move.after.cursor < frame.code.size := by
  have hend : Ascending frame.code frame.cursor (frame.trail table) ∧
      Course frame.code frame (frame.moves table) (frame.run table).2 := by
    rw [moves, trail, ← recorded_snd]
    cases hu : frame.currentUnit table with
    | error e =>
      rw [recorded_of_fault hu]
      exact ⟨.nil _, .nil _ frame⟩
    | ok unit =>
      rw [recorded_of_unit hu]
      exact CodeUnit.course_of_recorded rfl (cursor_lt_size_of_currentUnit hu)
  obtain ⟨hascending, hcourse⟩ := hend
  exact ⟨recorded_snd table frame, hascending, hascending.length_le, hcourse.leads,
    hcourse.forward⟩

end Frame

end RegisterMachine
