import RegisterMachine.Proofs.Execution.Turn

/-!
# Runs along decoded instructions

A run visits the decoded instructions in order until one returns, one fails, or none is left. The
instructions before that form a path of the machine, and the frame in which the run arrives behind a
path is known exactly.
-/

namespace RegisterMachine

/-- Instructions carried out one after the other, none of which returns. -/
inductive Path (pool : Array Value) : Machine → List Placed → Machine → Prop
  | nil (m : Machine) : Path pool m [] m
  | cons {m next last : Machine} {placed : Placed} {rest : List Placed}
      (hr : placed.instruction.opcode ≠ .ret)
      (hm : m.step pool placed.instruction = .ok next) (hp : Path pool next rest last) :
      Path pool m (placed :: rest) last

namespace Path

variable {pool : Array Value} {m last : Machine} {path : List Placed}

theorem evaluate_eq (h : Path pool m path last) :
    m.evaluate pool (path.map (·.instruction)) = .ok last := by
  induction h with
  | nil m => rfl
  | cons hr hm _ ih => rw [List.map_cons, Machine.evaluate_cons_of_step hm, ih]

theorem opcode_ne (h : Path pool m path last) :
    ∀ placed ∈ path, placed.instruction.opcode ≠ .ret := by
  induction h with
  | nil m => intro placed hp; cases hp
  | cons hr _ _ ih =>
    intro placed hp
    rcases List.mem_cons.mp hp with rfl | hp
    · exact hr
    · exact ih placed hp

/-- Where a path ends: before an instruction that returns or one that fails, or with the list. -/
theorem exists_longest (pool : Array Value) (m : Machine) (placed : List Placed) :
    (∃ path final rest last value, placed = path ++ final :: rest ∧ Path pool m path last ∧
      final.instruction.opcode = .ret ∧ last.read ⟨0⟩ = .ok value) ∨
    (∃ path failing rest last detail, placed = path ++ failing :: rest ∧ Path pool m path last ∧
      last.step pool failing.instruction = .error detail) ∨
    ∃ last, Path pool m placed last := by
  induction placed generalizing m with
  | nil => exact Or.inr (Or.inr ⟨m, .nil m⟩)
  | cons head tail ih =>
    cases hm : m.step pool head.instruction with
    | error detail => exact Or.inr (Or.inl ⟨[], head, tail, m, detail, rfl, .nil m, hm⟩)
    | ok next =>
      by_cases hr : head.instruction.opcode = .ret
      · obtain ⟨value, hv⟩ := Machine.read_of_step hr hm
        exact Or.inl ⟨[], head, tail, m, value, rfl, .nil m, hr, hv⟩
      · rcases ih next with ⟨path, final, rest, last, value, rfl, hp, hf⟩ |
          ⟨path, failing, rest, last, detail, rfl, hp, hf⟩ | ⟨last, hp⟩
        · exact Or.inl ⟨head :: path, final, rest, last, value, rfl, .cons hr hm hp, hf⟩
        · exact Or.inr (Or.inl ⟨head :: path, failing, rest, last, detail, rfl, .cons hr hm hp, hf⟩)
        · exact Or.inr (Or.inr ⟨last, .cons hr hm hp⟩)

end Path

namespace Frame

/-- A frame after a number of turns that have brought it to an offset. -/
def arrive (frame : Frame) (m : Machine) (offset turns : Nat) : Frame :=
  { frame.withMachine m with
    cursor := offset
    stats := { frame.stats with continues := frame.stats.continues + turns } }

variable {table : DispatchTable}

/-- A run goes along a path and on from where the path ends. -/
theorem run_of_path (ht : table.IsStandard) {m last : Machine} {path : List Placed}
    {code : Bytecode} (hp : Path code.constants m path last) :
    ∀ {frame : Frame} {rest : List Placed}, frame.Paced → frame.code = code →
      frame.machine = m → (code.decodeAt frame.cursor).instructions = path ++ rest →
      ∃ offset, frame.run table = (frame.arrive last offset path.length).run table ∧
        (code.decodeAt offset).instructions = rest ∧
        (code.decodeAt offset).error? = (code.decodeAt frame.cursor).error? ∧
        (frame.arrive last offset path.length).Paced := by
  -- Along the path the frame changes, but its machine is the one that the path is at.
  induction hp with
  | nil m =>
    rintro frame rest hpaced rfl rfl hd
    exact ⟨frame.cursor, rfl, hd, rfl, hpaced⟩
  | @cons m next last placed path hr hm _ ih =>
    rintro frame rest hpaced rfl rfl hd
    obtain ⟨hc, hf, hrest, he⟩ := Bytecode.fetch_of_decodeAt hd
    let after := (frame.withMachine next).advance placed.instruction.width
    have hafter : after.Paced := hpaced.advance hf next
    obtain ⟨offset, hrun, hi, he', hend⟩ := @ih after rest hafter rfl rfl hrest
    have harrive : after.arrive last offset path.length =
        frame.arrive last offset (placed :: path).length := by
      simp only [after, arrive, withMachine, advance, List.length_cons, Nat.add_assoc,
        Nat.add_comm 1]
    rw [harrive] at hrun hend
    refine ⟨offset, ?_, hi, he'.trans he, hend⟩
    rw [run_of_step ht hpaced hf hr hm, hrun]

section

variable {frame : Frame} (hpaced : frame.Paced) {last : Machine} {path rest : List Placed}

include hpaced

theorem run_of_path_return (ht : table.IsStandard) {final : Placed} {value : Value}
    (hp : Path frame.code.constants frame.machine path last)
    (hd : (frame.code.decodeAt frame.cursor).instructions = path ++ final :: rest)
    (hr : final.instruction.opcode = .ret) (hv : last.read ⟨0⟩ = .ok value) :
    frame.run table = (.ok value, (frame.arrive last final.offset path.length).exit) := by
  obtain ⟨offset, hrun, hi, _, hend⟩ := run_of_path ht hp hpaced rfl rfl hd
  obtain ⟨rfl, hf, _⟩ := Bytecode.fetch_of_decodeAt hi
  rw [hrun]
  exact run_of_return ht hend hf hr hv

theorem run_of_path_error (ht : table.IsStandard) {failing : Placed} {detail : Inconsistency}
    (hp : Path frame.code.constants frame.machine path last)
    (hd : (frame.code.decodeAt frame.cursor).instructions = path ++ failing :: rest)
    (hm : last.step frame.code.constants failing.instruction = .error detail) :
    frame.run table = (.error (.inconsistent failing.offset detail),
      frame.arrive last failing.offset path.length) := by
  obtain ⟨offset, hrun, hi, _, hend⟩ := run_of_path ht hp hpaced rfl rfl hd
  obtain ⟨rfl, hf, _⟩ := Bytecode.fetch_of_decodeAt hi
  rw [hrun]
  exact run_of_step_error ht hend hf hm

theorem run_of_path_stop (ht : table.IsStandard)
    (hp : Path frame.code.constants frame.machine path last)
    (hd : (frame.code.decodeAt frame.cursor).instructions = path) :
    ∃ after, frame.run table = (.error (match (frame.code.decodeAt frame.cursor).error? with
      | some e => .inconsistent e.offset e.inconsistency
      | none => .inconsistent frame.code.size (.ranOffEnd frame.code.size)), after) := by
  obtain ⟨offset, hrun, hi, he, hend⟩ :=
    run_of_path ht hp hpaced rfl rfl (hd.trans (List.append_nil _).symm)
  refine ⟨frame.arrive last offset path.length, ?_⟩
  rw [hrun, ← he]
  rcases Bytecode.fetch_of_decodeAt_nil hi with ⟨hf, hn, hle⟩ | ⟨e, hf, hn, ho⟩
  · obtain rfl : offset = frame.code.size := Nat.le_antisymm hend.cursor_le hle
    rw [hn]
    exact run_of_end hf
  · subst ho
    rw [hn]
    exact run_of_decodeError ht hend hf

end

end Frame

end RegisterMachine
