import RegisterMachine.Dispatch.TableBuilder

/-!
# What a request to build a table comes to

`Ensures` lists the four things that a request can come to, whatever the emitter does. A table is
hidden as long as it is not built, and full when it is: `Whole` says that all that can be seen of it
agrees on which of the two it is. `Chronicle` is the life of a table, told by the answers to the
requests for it: the first request decides, and from then on nothing changes.
-/

namespace RegisterMachine

abbrev BuildAnswer := Except BuildError BuildOutcome

variable {σ : Type}

namespace Emitter

variable {emitter : Emitter σ} {state middle after : σ} {units : List CodeUnit}
  {layout : List UInt8}

theorem stage_of_supplied {opcode : Opcode} {unit : CodeUnit} {rest : List Opcode}
    {result : Except EmissionError (List CodeUnit × List UInt8)}
    (he : emitter.emit opcode (.of opcode) state = (.ok unit, middle)) (hl : unit.opcode = opcode)
    (hs : emitter.stage rest middle = (result, after)) :
    emitter.stage (opcode :: rest) state =
      (result.map fun staged => (unit :: staged.1, (Contract.of opcode).layout ++ staged.2),
        after) := by
  rw [stage, he]
  cases result with
  | error e => simp [hl, hs, Except.map]
  | ok staged => simp [hl, hs, Except.map]

/-- An emission pass that succeeds has emitted a unit with the label asked for and gone on. -/
theorem exists_of_stage_cons {opcode : Opcode} {rest : List Opcode}
    (h : emitter.stage (opcode :: rest) state = (.ok (units, layout), after)) :
    ∃ unit middle units' layout', emitter.emit opcode (.of opcode) state = (.ok unit, middle) ∧
      unit.opcode = opcode ∧ emitter.stage rest middle = (.ok (units', layout'), after) ∧
      units = unit :: units' := by
  rw [stage] at h
  split at h
  · cases h
  · next unit middle he =>
    by_cases hl : unit.opcode = opcode
    · rw [if_neg (not_not_intro hl)] at h
      split at h
      · cases h
      · next units' layout' last hs =>
        cases h
        exact ⟨unit, middle, units', layout', he, hl, hs, rfl⟩
    · rw [if_pos hl] at h
      cases h

/-- The units of an emission pass that succeeds are labelled with the opcodes asked for, in
order. -/
theorem labels_of_stage {opcodes : List Opcode}
    (h : emitter.stage opcodes state = (.ok (units, layout), after)) :
    units.map (·.opcode) = opcodes := by
  induction opcodes generalizing state units layout with
  | nil => cases h; rfl
  | cons opcode rest ih =>
    obtain ⟨unit, middle, units', layout', _, hl, hs, rfl⟩ := exists_of_stage_cons h
    rw [List.map_cons, ih hs, hl]

theorem length_of_stage (h : emitter.stage Opcode.all state = (.ok (units, layout), after)) :
    units.length = 15 := by
  rw [← List.length_map, labels_of_stage h]
  rfl

end Emitter

namespace TableBuilder

def fresh (emitter : Emitter σ) (state : σ) : TableBuilder σ := { emitter, state }

/-- The four things that a request to build a table can come to. -/
inductive Ensures (builder : TableBuilder σ) (table : DispatchTable) :
    BuildAnswer × TableBuilder σ × DispatchTable → Prop
  | alreadyBuilt (hb : table.built = true) :
      Ensures builder table (.ok .alreadyBuilt, builder, table)
  | previouslyFailed {e : EmissionError} (hb : table.built = false)
      (hf : table.failure? = some e) :
      Ensures builder table (.error (.previouslyFailed e), builder, table)
  | built {units : List CodeUnit} {layout : List UInt8} {state : σ} (hb : table.built = false)
      (hf : table.failure? = none)
      (hs : builder.emitter.stage Opcode.all builder.state = (.ok (units, layout), state)) :
      Ensures builder table (.ok (.built 15),
        { builder with state, passes := builder.passes + 1 },
        table.commit units (Digest.hash layout))
  | failed {e : EmissionError} {state : σ} (hb : table.built = false) (hf : table.failure? = none)
      (hs : builder.emitter.stage Opcode.all builder.state = (.error e, state)) :
      Ensures builder table (.error (.emission e),
        { builder with state, passes := builder.passes + 1 }, table.recordFailure e)

theorem ensures (builder : TableBuilder σ) (table : DispatchTable) :
    Ensures builder table (builder.ensureBuilt table) := by
  unfold ensureBuilt
  cases hb : table.built with
  | true => exact .alreadyBuilt hb
  | false =>
    rw [if_neg Bool.false_ne_true]
    cases hf : table.failure? with
    | some e => exact .previouslyFailed hb hf
    | none =>
      obtain ⟨result, state, hs⟩ : ∃ result state,
          builder.emitter.stage Opcode.all builder.state = (result, state) := ⟨_, _, rfl⟩
      rw [hs]
      cases result with
      | error e => exact .failed hb hf hs
      | ok staged =>
        obtain ⟨units, layout⟩ := staged
        have hbuilt := Ensures.built hb hf hs
        rwa [← Emitter.length_of_stage hs] at hbuilt

end TableBuilder

namespace DispatchTable

/-- The one emission pass of a table is over. -/
def Settled (table : DispatchTable) : Prop := table.built = true ∨ ∃ e, table.failure? = some e

/-- Of two units with one label the later is kept; slots without a unit stay as they were. -/
theorem slots_foldl_write (units : List CodeUnit) (table : DispatchTable) (opcode : Opcode) :
    (∃ unit ∈ units, unit.opcode = opcode ∧ (units.foldl write table).slots opcode = some unit) ∨
      (∀ unit ∈ units, unit.opcode ≠ opcode) ∧
        (units.foldl write table).slots opcode = table.slots opcode := by
  induction units generalizing table with
  | nil => exact Or.inr ⟨fun _ h => (List.not_mem_nil h).elim, rfl⟩
  | cons unit rest ih =>
    rw [List.foldl_cons]
    rcases ih (table.write unit) with ⟨later, hm, hl, hs⟩ | ⟨hn, hs⟩
    · exact Or.inl ⟨later, List.mem_cons_of_mem _ hm, hl, hs⟩
    · by_cases hl : unit.opcode = opcode
      · refine Or.inl ⟨unit, List.mem_cons_self, hl, ?_⟩
        rw [hs]
        exact if_pos hl.symm
      · refine Or.inr ⟨List.forall_mem_cons.mpr ⟨hl, hn⟩, ?_⟩
        rw [hs]
        exact if_neg (Ne.symm hl)

/-- Units labelled with the opcodes in order are written to slots that are still empty. -/
theorem slots_eq_none_of_labels {done todo : List CodeUnit} {unit : CodeUnit}
    (hl : (done ++ unit :: todo).map (·.opcode) = Opcode.all) :
    (done.foldl write .empty).slots unit.opcode = none := by
  rcases slots_foldl_write done .empty unit.opcode with ⟨other, hmem, hlabel, _⟩ | ⟨_, hs⟩
  · have hnodup : (done.map (·.opcode) ++ unit.opcode :: todo.map (·.opcode)).Nodup := by
      rw [← List.map_cons, ← List.map_append, hl]
      exact Opcode.nodup_all
    have hdisjoint := (List.nodup_append.mp hnodup).2.2
    exact absurd hlabel (hdisjoint _ (List.mem_map_of_mem hmem) _ List.mem_cons_self)
  · exact hs

/-- All that can be seen of a table agrees on whether it is built. -/
structure Whole (table : DispatchTable) : Prop where
  built_iff_filled : table.built = true ↔ table.filled = 15
  built_iff_get : table.built = true ↔ ∀ opcode, (table.get? opcode).isSome
  built_iff_fingerprint : table.built = true ↔ table.fingerprint?.isSome
  failure_of_built : table.built = true → table.failure? = none
  filled_of_hidden : table.built = false → table.filled = 0
  get_of_hidden : table.built = false → ∀ opcode, table.get? opcode = none
  fingerprint_of_hidden : table.built = false → table.fingerprint? = none

theorem whole_of_hidden {table : DispatchTable} (hb : table.built = false)
    (hf : table.fingerprint? = none) : table.Whole := by
  have hget : ∀ opcode, table.get? opcode = none := fun opcode => by rw [get?, hb]; rfl
  have hfilled : table.filled = 0 := by simp [filled, hget]
  constructor
  · simp [hb, hfilled]
  · rw [hb]
    exact ⟨nofun, fun h => absurd (h .ret) (by simp [hget])⟩
  · simp [hb, hf]
  · simp [hb]
  · exact fun _ => hfilled
  · exact fun _ => hget
  · exact fun _ => hf

theorem whole_of_full {table : DispatchTable} (hb : table.built = true)
    (hs : ∀ opcode, (table.slots opcode).isSome) (hf : table.fingerprint?.isSome)
    (hn : table.failure? = none) : table.Whole := by
  have hget : ∀ opcode, (table.get? opcode).isSome := fun opcode => by
    rw [get?, hb]
    exact hs opcode
  have hfilled : table.filled = 15 := by simp [filled, hget, Opcode.all]
  constructor
  · simp [hb, hfilled]
  · simp [hb, hget]
  · simp [hb, hf]
  · exact fun _ => hn
  · simp [hb]
  · simp [hb]
  · simp [hb]

variable {units : List CodeUnit} {fingerprint : Digest.ChainingValue}

theorem foldl_write_eq (units : List CodeUnit) (table : DispatchTable) :
    units.foldl write table = { table with slots := (units.foldl write table).slots } := by
  induction units generalizing table with
  | nil => rfl
  | cons unit rest ih => exact ih (table.write unit)

theorem failure_foldl_write (table : DispatchTable) :
    (units.foldl write table).failure? = table.failure? := by
  rw [foldl_write_eq]

theorem built_foldl_write (table : DispatchTable) :
    (units.foldl write table).built = table.built := by
  rw [foldl_write_eq]

theorem fingerprint_foldl_write (table : DispatchTable) :
    (units.foldl write table).fingerprint? = table.fingerprint? := by
  rw [foldl_write_eq]

theorem whole_commit (hl : units.map (·.opcode) = Opcode.all) :
    (DispatchTable.empty.commit units fingerprint).Whole := by
  apply whole_of_full rfl
  · intro opcode
    rcases slots_foldl_write units .empty opcode with ⟨unit, _, _, hs⟩ | ⟨hn, _⟩
    · exact Option.isSome_iff_exists.mpr ⟨unit, hs⟩
    · obtain ⟨unit, hm, ho⟩ := List.mem_map.mp (hl ▸ opcode.mem_all)
      exact absurd ho (hn unit hm)
  · rfl
  · exact failure_foldl_write .empty

end DispatchTable

namespace TableBuilder.Ensures

variable {builder : TableBuilder σ} {table : DispatchTable}
  {result : BuildAnswer × TableBuilder σ × DispatchTable}

theorem settles (h : Ensures builder table result) : result.2.2.Settled := by
  cases h with
  | alreadyBuilt hb => exact Or.inl hb
  | previouslyFailed hb hf => exact Or.inr ⟨_, hf⟩
  | built hb hf hs => exact Or.inl rfl
  | failed hb hf hs => exact Or.inr ⟨_, rfl⟩

/-- A table whose emission pass is over is not touched again, and neither is the builder. -/
theorem eq_of_settled (h : Ensures builder table result) (ht : table.Settled) :
    result.2 = (builder, table) := by
  cases h with
  | alreadyBuilt hb => rfl
  | previouslyFailed hb hf => rfl
  | built hb hf hs => simp [DispatchTable.Settled, hb, hf] at ht
  | failed hb hf hs => simp [DispatchTable.Settled, hb, hf] at ht

end TableBuilder.Ensures

namespace TableBuilder

theorem ensureBuilt_of_built (builder : TableBuilder σ) {table : DispatchTable}
    (hb : table.built = true) :
    builder.ensureBuilt table = (.ok .alreadyBuilt, builder, table) := by
  rw [ensureBuilt, if_pos hb]

theorem ensureBuilt_of_failure (builder : TableBuilder σ) {table : DispatchTable}
    {e : EmissionError} (hb : table.built = false) (hf : table.failure? = some e) :
    builder.ensureBuilt table = (.error (.previouslyFailed e), builder, table) := by
  rw [ensureBuilt, if_neg (by simp [hb]), hf]

theorem ensureBuilt_of_stage_ok (builder : TableBuilder σ) {units : List CodeUnit}
    {layout : List UInt8} {state : σ}
    (hs : builder.emitter.stage Opcode.all builder.state = (.ok (units, layout), state)) :
    builder.ensureBuilt .empty =
      (.ok (.built 15), { builder with state, passes := builder.passes + 1 },
        DispatchTable.empty.commit units (Digest.hash layout)) := by
  simp only [ensureBuilt, DispatchTable.empty, Bool.false_eq_true, if_false, hs,
    Emitter.length_of_stage hs]

theorem ensureBuilt_of_stage_error (builder : TableBuilder σ) {e : EmissionError} {state : σ}
    (hs : builder.emitter.stage Opcode.all builder.state = (.error e, state)) :
    builder.ensureBuilt .empty =
      (.error (.emission e), { builder with state, passes := builder.passes + 1 },
        DispatchTable.empty.recordFailure e) := by
  simp only [ensureBuilt, DispatchTable.empty, Bool.false_eq_true, if_false, hs]

/-- The first request for a table takes one emission pass, which decides what becomes of it. -/
theorem ensureBuilt_empty (builder : TableBuilder σ) :
    ∃ answer next table, builder.ensureBuilt .empty = (answer, next, table) ∧
      next.passes = builder.passes + 1 ∧
      (answer = .ok (.built 15) ∧ table.built = true ∨
        ∃ e, answer = .error (.emission e) ∧ table.built = false ∧ table.failure? = some e) := by
  have he := builder.ensures .empty
  revert he
  generalize builder.ensureBuilt .empty = result
  intro he
  cases he with
  | alreadyBuilt hb => cases hb
  | previouslyFailed hb hf => cases hf
  | built hb hf hs => exact ⟨_, _, _, rfl, rfl, Or.inl ⟨rfl, rfl⟩⟩
  | failed hb hf hs => exact ⟨_, _, _, rfl, rfl, Or.inr ⟨_, rfl, rfl, rfl⟩⟩

end TableBuilder

/-- The answers to the requests for one table, in order, and the table they leave. -/
inductive Chronicle : List BuildAnswer → DispatchTable → Prop
  | fresh : Chronicle [] .empty
  | built (units : List CodeUnit) (fingerprint : Digest.ChainingValue) (later : Nat)
      (hl : units.map (·.opcode) = Opcode.all) :
      Chronicle (.ok (.built 15) :: .replicate later (.ok .alreadyBuilt))
        (DispatchTable.empty.commit units fingerprint)
  | failed (e : EmissionError) (later : Nat) :
      Chronicle (.error (.emission e) :: .replicate later (.error (.previouslyFailed e)))
        (DispatchTable.empty.recordFailure e)

namespace Chronicle

variable {answers : List BuildAnswer} {table : DispatchTable}

theorem whole (h : Chronicle answers table) : table.Whole := by
  cases h with
  | fresh => exact DispatchTable.whole_of_hidden rfl rfl
  | built units fingerprint later hl => exact DispatchTable.whole_commit hl
  | failed e later => exact DispatchTable.whole_of_hidden rfl rfl

theorem failure_iff (h : Chronicle answers table) (e : EmissionError) :
    table.failure? = some e ↔ answers.head? = some (.error (.emission e)) := by
  cases h with
  | fresh => exact ⟨nofun, nofun⟩
  | built units fingerprint later hl =>
    rw [(DispatchTable.whole_commit hl).failure_of_built rfl]
    exact ⟨nofun, nofun⟩
  | failed e' later => simp [DispatchTable.recordFailure, DispatchTable.empty]

/-- One more request, by any builder. -/
theorem request (h : Chronicle answers table) {builder : TableBuilder σ}
    {result : BuildAnswer × TableBuilder σ × DispatchTable} (he : builder.Ensures table result) :
    Chronicle (answers ++ [result.1]) result.2.2 := by
  cases h with
  | fresh =>
    cases he with
    | alreadyBuilt hb => cases hb
    | previouslyFailed hb hf => cases hf
    | built hb hf hs => exact .built _ _ 0 (Emitter.labels_of_stage hs)
    | failed hb hf hs => exact .failed _ 0
  | built units fingerprint later hl =>
    cases he with
    | alreadyBuilt hb =>
      rw [List.cons_append, ← List.replicate_succ']
      exact .built units fingerprint (later + 1) hl
    | previouslyFailed hb hf => cases hb
    | built hb hf hs => cases hb
    | failed hb hf hs => cases hb
  | failed e later =>
    cases he with
    | alreadyBuilt hb => cases hb
    | previouslyFailed hb hf =>
      cases hf
      rw [List.cons_append]
      exact List.replicate_succ' ▸ .failed e (later + 1)
    | built hb hf hs => cases hf
    | failed hb hf hs => cases hf

theorem settled (h : Chronicle answers table) (hn : answers ≠ []) : table.Settled := by
  cases h with
  | fresh => exact absurd rfl hn
  | built units fingerprint later hl => exact Or.inl rfl
  | failed e later => exact Or.inr ⟨e, rfl⟩

theorem eq_empty (h : Chronicle [] table) : table = .empty := by
  cases h
  rfl

end Chronicle

end RegisterMachine
