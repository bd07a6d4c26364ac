import RegisterMachine.Proofs.Execution.Primitives
import RegisterMachine.Proofs.Execution.Turn

/-!
# The trail of a run

A run invokes one unit after the other, each on the frame that the one before has left. `recorded`
carries out a run and writes its invocations down. Every handler in the trail but the last has
called one primitive, whatever the table holds; if the last one comes back having called more, that
is the fault the run ends with.
-/

namespace RegisterMachine

structure Invocation where
  unit : CodeUnit
  frame : Frame

variable (table : DispatchTable)

def Invocation.primitives (invocation : Invocation) : List Primitive :=
  invocation.unit.body.primitives table invocation.frame

/-- What `CodeUnit.follow` comes to, and its invocations in order. -/
def CodeUnit.recorded (unit : CodeUnit) (frame : Frame) :
    List Invocation × (Except Fault Value × Frame) :=
  if frame.Overflows frame.stats.transfers then ([], (.error .overflow, frame))
  else
    match _ : unit.turn table frame with
    | (.error e, after) => ([⟨unit, frame⟩], (.error e, after))
    | (.ok (.returned value), after) => ([⟨unit, frame⟩], (.ok value, after))
    | (.ok (.next next), after) =>
      let rest := next.recorded after
      (⟨unit, frame⟩ :: rest.1, rest.2)
termination_by frame.code.size - frame.cursor
decreasing_by
  obtain ⟨hc, hp, hl⟩ := turn_next ‹_›
  rw [hc] at hl ⊢
  omega

def Frame.recorded (frame : Frame) : List Invocation × (Except Fault Value × Frame) :=
  match frame.currentUnit table with
  | .error e => ([], (.error e, frame))
  | .ok unit => unit.recorded table frame

def Frame.trail (frame : Frame) : List Invocation := (frame.recorded table).1

variable {table : DispatchTable} {unit : CodeUnit} {frame after : Frame}

namespace CodeUnit

/-- A turn that is taken is that of a handler with one primitive, which has given the transfer. -/
theorem of_turn {transfer : Transfer} (h : unit.turn table frame = (.ok transfer, after)) :
    unit.invoke table frame = (.ok transfer, after) ∧
      unit.body.primitives table frame = [transfer.primitive] ∧
      after.stats = frame.stats.plus [transfer.primitive] := by
  unfold turn at h
  cases hinvoke : unit.invoke table frame with
  | mk result moved =>
    rw [hinvoke] at h
    cases result with
    | error e => cases h
    | ok given =>
      dsimp only at h
      split at h
      · cases h
      split at h
      · next hone =>
        cases h
        obtain ⟨hstats, hgiven⟩ := of_invoke hinvoke
        rw [hstats, Stats.transfers_plus] at hone
        obtain ⟨primitive, hcalled⟩ := List.length_eq_one_iff.mp (Nat.add_left_cancel hone)
        have hmem := hgiven.mem
        rw [hcalled, List.mem_singleton] at hmem
        rw [← hmem] at hcalled
        exact ⟨rfl, hcalled, hcalled ▸ hstats⟩
      · cases h

/-- A handler that comes back having called several primitives is caught, at the latest when its
transfers are counted. -/
theorem turn_of_many {transfer : Transfer}
    (h : unit.invoke table frame = (.ok transfer, after))
    (hmany : 1 < (unit.body.primitives table frame).length) :
    unit.turn table frame =
      (.error (if after.Overflows after.stats.transfers then .overflow
        else .transferCount unit.opcode after.stats.transfers (frame.stats.transfers + 1)),
        after) := by
  have htransfers := congrArg Stats.transfers (of_invoke h).1
  rw [Stats.transfers_plus] at htransfers
  have hne : after.stats.transfers ≠ frame.stats.transfers + 1 := by omega
  simp only [turn, h, if_neg hne]
  split <;> rfl

theorem recorded_of_overflow (hw : frame.Overflows frame.stats.transfers) :
    unit.recorded table frame = ([], (.error .overflow, frame)) := by
  rw [recorded, if_pos hw]

section

variable (hw : ¬frame.Overflows frame.stats.transfers)

include hw

theorem recorded_of_next {next : CodeUnit}
    (h : unit.turn table frame = (.ok (.next next), after)) :
    unit.recorded table frame =
      (⟨unit, frame⟩ :: (next.recorded table after).1, (next.recorded table after).2) := by
  rw [recorded, if_neg hw]
  split <;> simp_all

theorem recorded_of_returned {value : Value}
    (h : unit.turn table frame = (.ok (.returned value), after)) :
    unit.recorded table frame = ([⟨unit, frame⟩], (.ok value, after)) := by
  rw [recorded, if_neg hw]
  split <;> simp_all

theorem recorded_of_error {e : Fault} (h : unit.turn table frame = (.error e, after)) :
    unit.recorded table frame = ([⟨unit, frame⟩], (.error e, after)) := by
  rw [recorded, if_neg hw]
  split <;> simp_all

end

/-- Writing down what a run invokes does not change what it comes to. -/
theorem recorded_snd (unit : CodeUnit) (frame : Frame) :
    (unit.recorded table frame).2 = unit.follow table frame := by
  induction unit, frame using recorded.induct table with
  | case1 unit frame hw => rw [recorded_of_overflow hw, follow_of_overflow hw]
  | case2 unit frame hw e after h => rw [recorded_of_error hw h, follow_of_error hw h]
  | case3 unit frame hw value after h => rw [recorded_of_returned hw h, follow_of_returned hw h]
  | case4 unit frame hw next after h ih =>
    rw [recorded_of_next hw h, follow_of_next hw h, ← ih]

/-- From a unit on, a run that returns counts one return and one continue for each invocation but
the last. -/
theorem of_recorded_ok {value : Value}
    (h : (unit.recorded table frame).2 = (.ok value, after)) :
    ∃ n, (unit.recorded table frame).1.length = n + 1 ∧
      after.stats = ⟨frame.stats.continues + n, frame.stats.returns + 1⟩ ∧
      ∀ invocation ∈ (unit.recorded table frame).1, (invocation.primitives table).length = 1 := by
  induction unit, frame using recorded.induct table with
  | case1 unit frame hw =>
    rw [recorded_of_overflow hw] at h
    cases h
  | case2 unit frame hw e moved hturn =>
    rw [recorded_of_error hw hturn] at h
    cases h
  | case3 unit frame hw result moved hturn =>
    rw [recorded_of_returned hw hturn] at h ⊢
    cases h
    obtain ⟨_, hcalled, hstats⟩ := of_turn hturn
    exact ⟨0, rfl, hstats, List.forall_mem_singleton.mpr (congrArg List.length hcalled)⟩
  | case4 unit frame hw next moved hturn ih =>
    rw [recorded_of_next hw hturn] at h ⊢
    obtain ⟨n, hlength, hafter, hone⟩ := ih h
    obtain ⟨_, hcalled, hstats⟩ := of_turn hturn
    have hmoved : moved.stats = ⟨frame.stats.continues + 1, frame.stats.returns⟩ := hstats
    rw [hmoved, Nat.add_assoc, Nat.add_comm 1] at hafter
    refine ⟨n + 1, congrArg (· + 1) hlength, hafter, ?_⟩
    exact List.forall_mem_cons.mpr ⟨congrArg List.length hcalled, hone⟩

/-- From a unit on, a handler that comes back having called several primitives is the first such and
the last to be invoked, and its fault is what the run comes to. -/
theorem of_recorded_many {front rest : List Invocation} {invocation : Invocation}
    {transfer : Transfer}
    (h : (unit.recorded table frame).1 = front ++ invocation :: rest)
    (hback : invocation.unit.invoke table invocation.frame = (.ok transfer, after))
    (hmany : 1 < (invocation.primitives table).length) :
    (∀ earlier ∈ front, (earlier.primitives table).length = 1) ∧ rest = [] ∧
      (unit.recorded table frame).2 =
        (.error (if after.Overflows after.stats.transfers then .overflow
          else .transferCount invocation.unit.opcode after.stats.transfers
            (invocation.frame.stats.transfers + 1)), after) := by
  induction unit, frame using recorded.induct table generalizing front with
  | case1 unit frame hw =>
    rw [recorded_of_overflow hw] at h
    cases List.append_ne_nil_of_right_ne_nil _ (List.cons_ne_nil _ _) h.symm
  | case2 unit frame hw e moved hturn =>
    rw [recorded_of_error hw hturn] at h ⊢
    obtain ⟨rfl, hcons⟩ | ⟨_, hcons⟩ := List.append_eq_singleton_iff.mp h.symm
    · cases hcons
      rw [turn_of_many hback hmany] at hturn
      cases hturn
      exact ⟨nofun, rfl, rfl⟩
    · cases hcons
  | case3 unit frame hw result moved hturn =>
    rw [recorded_of_returned hw hturn] at h
    obtain ⟨rfl, hcons⟩ | ⟨_, hcons⟩ := List.append_eq_singleton_iff.mp h.symm
    · cases hcons
      rw [turn_of_many hback hmany] at hturn
      cases hturn
    · cases hcons
  | case4 unit frame hw next moved hturn ih =>
    rw [recorded_of_next hw hturn] at h ⊢
    cases front with
    | nil =>
      cases h
      rw [turn_of_many hback hmany] at hturn
      cases hturn
    | cons first front =>
      obtain ⟨rfl, htail⟩ := List.cons.inj h
      obtain ⟨hone, hlast, hfault⟩ := ih htail
      have hcalled := (of_turn hturn).2.1
      exact ⟨List.forall_mem_cons.mpr ⟨congrArg List.length hcalled, hone⟩, hlast, hfault⟩

end CodeUnit

namespace Frame

theorem recorded_of_unit (hu : frame.currentUnit table = .ok unit) :
    frame.recorded table = unit.recorded table frame := by
  simp only [recorded, hu]

theorem recorded_of_fault {e : Fault} (hu : frame.currentUnit table = .error e) :
    frame.recorded table = ([], (.error e, frame)) := by
  simp only [recorded, hu]

theorem recorded_snd (table : DispatchTable) (frame : Frame) :
    (frame.recorded table).2 = frame.run table := by
  cases hu : frame.currentUnit table with
  | error e => rw [recorded_of_fault hu, run_of_fault hu]
  | ok unit => rw [recorded_of_unit hu, run_of_unit hu, CodeUnit.recorded_snd]

/-- Each handler has to call one primitive, whatever the units of the table do. A run that returns
has counted one return and one continue for each invocation but the last. The first handler that
comes back having called several primitives is the last that the run invokes: the run ends with the
fault that tells the transfers counted after it, what they should be, and the opcode of its unit, or
in the overflow of that count, if it is no word any more. -/
theorem one_primitive_each (table : DispatchTable) (frame : Frame) :
    (frame.recorded table).2 = frame.run table ∧
    (∀ value after, frame.run table = (.ok value, after) →
      ∃ n, (frame.trail table).length = n + 1 ∧
        after.stats = ⟨frame.stats.continues + n, frame.stats.returns + 1⟩ ∧
        ∀ invocation ∈ frame.trail table, (invocation.primitives table).length = 1) ∧
    ∀ front invocation rest, frame.trail table = front ++ invocation :: rest →
      ∀ transfer after, invocation.unit.invoke table invocation.frame = (.ok transfer, after) →
        1 < (invocation.primitives table).length →
        (∀ earlier ∈ front, (earlier.primitives table).length = 1) ∧ rest = [] ∧
          frame.run table =
            (.error (if after.Overflows after.stats.transfers then .overflow
              else .transferCount invocation.unit.opcode after.stats.transfers
                (invocation.frame.stats.transfers + 1)), after) := by
  refine ⟨recorded_snd table frame, ?_, ?_⟩
  · intro value after h
    rw [← recorded_snd] at h
    cases hu : frame.currentUnit table with
    | error e =>
      rw [recorded_of_fault hu] at h
      cases h
    | ok unit =>
      rw [trail, recorded_of_unit hu]
      rw [recorded_of_unit hu] at h
      exact CodeUnit.of_recorded_ok h
  · intro front invocation rest h transfer after hback hmany
    rw [← recorded_snd]
    rw [trail] at h
    cases hu : frame.currentUnit table with
    | error e =>
      rw [recorded_of_fault hu] at h
      cases List.append_ne_nil_of_right_ne_nil _ (List.cons_ne_nil _ _) h.symm
    | ok unit =>
      rw [recorded_of_unit hu] at h ⊢
      exact CodeUnit.of_recorded_many h hback hmany

/-- A handler that returns twice. -/
example :
    let table : DispatchTable :=
      { slots := fun opcode => some ⟨opcode, .exit .null (.exit .hole (.finish 0))⟩, built := true }
    let frame : Frame := ⟨⟨#[14], 0, #[]⟩, .null, #[], 0, {}⟩
    frame.run table = (.error (.transferCount .ret 2 1), { frame with stats := ⟨0, 2⟩ }) := by
  intro table frame
  rw [run_of_unit rfl, CodeUnit.follow_of_error (by decide) rfl]
  rfl

/-- A handler that continues and returns, after which two counters come to more than a word. -/
example :
    let table : DispatchTable :=
      { slots := fun opcode => some ⟨opcode, .dispatch fun _ => .exit .null (.finish 0)⟩,
        built := true }
    let frame : Frame := ⟨⟨#[0, 14], 0, #[]⟩, .null, #[], 0, ⟨wordLimit - 2, 0⟩⟩
    frame.run table =
      (.error .overflow, { frame with cursor := 1, stats := ⟨wordLimit - 1, 1⟩ }) := by
  intro table frame
  rw [run_of_unit rfl, CodeUnit.follow_of_error (by decide) rfl]
  rfl

end Frame

end RegisterMachine
