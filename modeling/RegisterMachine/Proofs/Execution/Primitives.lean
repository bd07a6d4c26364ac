import RegisterMachine.Execution.Run

/-!
# The primitives that a handler calls

A handler is free to call any number of dispatch primitives before it hands back one of the
transfers that they gave it. `Performs` tells what a handler that comes back has done. What it has
called is told by the statistics of the frame (`CodeUnit.of_invoke`): each primitive is counted
once, and nothing else counts.
-/

namespace RegisterMachine

inductive Primitive where
  | dispatch
  | exit
  deriving DecidableEq

def Transfer.primitive : Transfer → Primitive
  | next _ => .dispatch
  | returned _ => .exit

def Stats.plus (stats : Stats) (called : List Primitive) : Stats where
  continues := stats.continues + called.count .dispatch
  returns := stats.returns + called.count .exit

theorem Stats.transfers_plus (stats : Stats) (called : List Primitive) :
    (stats.plus called).transfers = stats.transfers + called.length := by
  have hlength : called.count .dispatch + called.count .exit = called.length := by
    induction called with
    | nil => rfl
    | cons primitive rest ih => cases primitive <;> simp [← ih] <;> omega
  simp only [plus, transfers]
  omega

theorem Stats.plus_cons (stats : Stats) (primitive : Primitive) (called : List Primitive) :
    (stats.plus [primitive]).plus called = stats.plus (primitive :: called) := by
  cases primitive <;> simp [plus, Nat.add_assoc, Nat.add_comm 1]

variable (table : DispatchTable)

/-- The primitives that a handler calls when it is carried out, in order and up to a fault. -/
def Handler.primitives : {held : Nat} → Handler held → Frame → List Primitive
  | _, finish _, _ => []
  | _, inspect next, frame => (next frame).primitives frame
  | _, setAccumulator value next, frame => next.primitives { frame with accumulator := value }
  | _, register r next, frame =>
    match frame.register r with
    | .ok value => (next value).primitives frame
    | .error _ => []
  | _, setRegister r value next, frame =>
    match frame.setRegister r value with
    | .ok frame => next.primitives frame
    | .error _ => []
  | _, currentOpcode next, frame =>
    match frame.currentOpcode with
    | .ok opcode => (next opcode).primitives frame
    | .error _ => []
  | _, operandByte operand next, frame =>
    match frame.operandByte operand with
    | .ok byte => (next byte).primitives frame
    | .error _ => []
  | _, constant index next, frame =>
    match frame.constant index with
    | .ok value => (next value).primitives frame
    | .error _ => []
  | _, dispatch next, frame =>
    .dispatch :: match frame.dispatch table with
    | (.ok unit, frame) => (next unit.opcode).primitives frame
    | (.error _, _) => []
  | _, exit _ next, frame =>
    .exit :: match frame.leave with
    | .ok frame => next.primitives frame
    | .error _ => []

/-- A transfer that one of the primitives has given; a unit comes from the table. -/
structure Transfer.GivenBy (transfer : Transfer) (called : List Primitive) : Prop where
  mem : transfer.primitive ∈ called
  looked : ∀ unit, transfer = .next unit → ∃ opcode, table.lookup opcode = .ok unit

variable {table : DispatchTable} {frame after : Frame} {transfer : Transfer}

theorem Frame.of_dispatch {unit : CodeUnit} (h : frame.dispatch table = (.ok unit, after)) :
    after.stats = frame.stats.plus [.dispatch] ∧ ∃ opcode, table.lookup opcode = .ok unit := by
  obtain ⟨opcode, _, rfl, hunit⟩ := Frame.dispatch_eq_ok h
  refine ⟨rfl, ?_⟩
  cases hnext : (frame.advance opcode.width).currentOpcode with
  | error e =>
    rw [hnext] at hunit
    cases hunit
  | ok next =>
    rw [hnext] at hunit
    exact ⟨next, hunit⟩

/-- A handler has called one primitive more than after its first one, which has given the last of
the transfers held from then on. -/
theorem Transfer.given_cons {held : Nat} {transfers : Vector Transfer held} {first : Transfer}
    {called : List Primitive}
    (hfirst : ∀ unit, first = .next unit → ∃ opcode, table.lookup opcode = .ok unit)
    (h : transfer ∈ transfers.push first ∨ transfer.GivenBy table called) :
    transfer ∈ transfers ∨ transfer.GivenBy table (first.primitive :: called) := by
  rcases h with hmem | hgiven
  · rcases Vector.mem_push.mp hmem with hold | rfl
    · exact Or.inl hold
    · exact Or.inr ⟨List.mem_cons_self, hfirst⟩
  · exact Or.inr ⟨List.mem_cons_of_mem _ hgiven.mem, hgiven.looked⟩

/-- What a handler that comes back has done, from the transfers that it held and its frame to the
transfer that it hands back and the frame that it leaves: it has written to the accumulator and the
registers, and called primitives, each of which gives it one transfer more to hold. -/
inductive Performs (table : DispatchTable) :
    {held : Nat} → Vector Transfer held → Frame → List Primitive → Transfer → Frame → Prop
  | finish {held : Nat} {transfers : Vector Transfer held} (frame : Frame) {transfer : Transfer}
      (hmem : transfer ∈ transfers) : Performs table transfers frame [] transfer frame
  | write {held : Nat} {transfers : Vector Transfer held} {frame written after : Frame}
      {called : List Primitive} {transfer : Transfer} (hcode : written.code = frame.code)
      (hcursor : written.cursor = frame.cursor) (hstats : written.stats = frame.stats)
      (h : Performs table transfers written called transfer after) :
      Performs table transfers frame called transfer after
  | dispatch {held : Nat} {transfers : Vector Transfer held} {frame moved after : Frame}
      {called : List Primitive} {transfer : Transfer} {unit : CodeUnit}
      (hd : frame.dispatch table = (.ok unit, moved))
      (h : Performs table (transfers.push (.next unit)) moved called transfer after) :
      Performs table transfers frame (.dispatch :: called) transfer after
  | exit {held : Nat} {transfers : Vector Transfer held} {frame after : Frame}
      {called : List Primitive} {transfer : Transfer} (value : Value)
      (h : Performs table (transfers.push (.returned value)) frame.exit called transfer after) :
      Performs table transfers frame (.exit :: called) transfer after

theorem Handler.performs_of_exec {held : Nat} {handler : Handler held}
    {transfers : Vector Transfer held}
    (h : handler.exec table transfers frame = (.ok transfer, after)) :
    Performs table transfers frame (handler.primitives table frame) transfer after := by
  induction handler generalizing frame with
  | finish i =>
    obtain ⟨hi, rfl⟩ := Prod.mk.inj h
    exact .finish frame (Except.ok.inj hi ▸ Vector.getElem_mem i.isLt)
  | inspect next ih => exact ih frame h
  | setAccumulator value next ih => refine .write ?_ ?_ ?_ (ih h) <;> rfl
  | register r next ih =>
    rw [exec] at h
    rw [primitives]
    cases hr : frame.register r with
    | error e => rw [hr] at h; cases h
    | ok value => rw [hr] at h; exact ih value h
  | setRegister r value next ih =>
    rw [exec] at h
    rw [primitives]
    cases hw : frame.setRegister r value with
    | error e => rw [hw] at h; cases h
    | ok written =>
      rw [hw] at h
      obtain ⟨hcode, hcursor, hstats⟩ := Frame.setRegister_eq hw
      exact .write hcode hcursor hstats (ih h)
  | currentOpcode next ih =>
    rw [exec] at h
    rw [primitives]
    cases ho : frame.currentOpcode with
    | error e => rw [ho] at h; cases h
    | ok opcode => rw [ho] at h; exact ih opcode h
  | operandByte operand next ih =>
    rw [exec] at h
    rw [primitives]
    cases hb : frame.operandByte operand with
    | error e => rw [hb] at h; cases h
    | ok byte => rw [hb] at h; exact ih byte h
  | constant index next ih =>
    rw [exec] at h
    rw [primitives]
    cases hc : frame.constant index with
    | error e => rw [hc] at h; cases h
    | ok value => rw [hc] at h; exact ih value h
  | dispatch next ih =>
    rw [exec] at h
    rw [primitives]
    cases hd : frame.dispatch table with
    | mk result moved =>
      rw [hd] at h
      cases result with
      | error e => cases h
      | ok unit => exact .dispatch hd (ih unit.opcode h)
  | exit value next ih =>
    rw [exec] at h
    rw [primitives]
    cases hl : frame.leave with
    | error e => rw [hl] at h; cases h
    | ok left =>
      rw [hl] at h
      obtain rfl := Frame.eq_exit_of_leave hl
      exact .exit value (ih h)

namespace Performs

variable {held : Nat} {transfers : Vector Transfer held} {called : List Primitive}

theorem stats_eq (h : Performs table transfers frame called transfer after) :
    after.stats = frame.stats.plus called := by
  induction h with
  | finish => rfl
  | write _ _ hstats _ ih => rw [ih, hstats]
  | dispatch hd _ ih => rw [ih, (Frame.of_dispatch hd).1, Stats.plus_cons]
  | @exit _ _ frame _ _ _ value _ ih =>
    have hexit : frame.exit.stats = frame.stats.plus [.exit] := rfl
    rw [ih, hexit, Stats.plus_cons]

/-- The transfer that is handed back was held, or one of the primitives has given it. -/
theorem mem_or_givenBy (h : Performs table transfers frame called transfer after) :
    transfer ∈ transfers ∨ transfer.GivenBy table called := by
  induction h with
  | finish _ hmem => exact Or.inl hmem
  | write _ _ _ _ ih => exact ih
  | dispatch hd _ ih =>
    refine Transfer.given_cons (fun other hother => ?_) ih
    cases hother
    exact (Frame.of_dispatch hd).2
  | exit value _ ih =>
    refine Transfer.given_cons (fun unit hunit => ?_) ih
    cases hunit

end Performs

/-- A unit that comes back has called the primitive that has given its transfer, and maybe others,
and the statistics have counted them. -/
theorem CodeUnit.of_invoke {unit : CodeUnit}
    (h : unit.invoke table frame = (.ok transfer, after)) :
    after.stats = frame.stats.plus (unit.body.primitives table frame) ∧
      transfer.GivenBy table (unit.body.primitives table frame) := by
  have hperforms := Handler.performs_of_exec h
  refine ⟨hperforms.stats_eq, ?_⟩
  rcases hperforms.mem_or_givenBy with hnone | hgiven
  · cases Vector.not_mem_empty _ hnone
  · exact hgiven

end RegisterMachine
