import Mathlib.Logic.Function.Basic
import RegisterMachine.Proofs.Dispatch.Race

/-!
# What one access keeps

Callers differ in what they can be at while a table is new, in its emission pass, or done with. Each
kind of caller is kept by its own accesses; `Stage` puts them together for all callers of a table,
and `Stage.access` says that no access of any of them leads out of it.
-/

namespace RegisterMachine

namespace Race

section Access

variable {ι τ : Type} {i : ι} {phase phase' : Phase} {s s' : Shared ι τ} {mark? : Option Mark}

theorem inside_afterEmission (opcode : Opcode) (todo : List Opcode) (units : List CodeUnit)
    (layout : List UInt8) (result : Except EmissionError CodeUnit) :
    (Phase.afterEmission opcode todo units layout result).inside = true := by
  cases result with
  | error e => rfl
  | ok unit =>
    rw [Phase.afterEmission]
    split <;> rfl

/-- A caller is inside as long as it has the lock of the table, and leaves the lock of others
alone. -/
theorem Access.inside_iff (h : Access i phase s phase' s' mark?)
    (hl : phase.inside = true ↔ s.tableLock = some i) :
    (phase'.inside = true ↔ s'.tableLock = some i) ∧
      ∀ j, j ≠ i → (s'.tableLock = some j ↔ s.tableLock = some j) := by
  cases h with
  | lockTable hfree => simp [Phase.inside, hfree, eq_comm]
  | unlockTable =>
    have hlock : s.tableLock = some i := hl.mp rfl
    simp [Phase.inside, hlock, eq_comm]
  | emit he =>
    rw [inside_afterEmission]
    exact ⟨hl, fun _ _ => Iff.rfl⟩
  | _ => exact ⟨hl, fun _ _ => Iff.rfl⟩

inductive Idle : Phase → Prop
  | looking : Idle .looking
  | waiting : Idle .waiting

inductive Preparing : Phase → Prop
  | looking : Preparing .looking
  | waiting : Preparing .waiting
  | lookingAgain : Preparing .lookingAgain
  | recalling : Preparing .recalling
  | queueing : Preparing .queueing
  | entering : Preparing .entering

/-- A caller in the emission pass, and the table that is between its accesses. -/
inductive Passing : DispatchTable → Phase → Prop
  | emitting {todo : List Opcode} {units : List CodeUnit} {layout : List UInt8}
      (hl : units.map (·.opcode) ++ todo = Opcode.all) :
      Passing .empty (.emitting todo units layout)
  | writing (done : List CodeUnit) {todo : List CodeUnit} {fingerprint : Digest.ChainingValue}
      (hl : (done ++ todo).map (·.opcode) = Opcode.all) :
      Passing (done.foldl DispatchTable.write .empty) (.writing todo fingerprint)
  | publishing (units : List CodeUnit) (fingerprint : Digest.ChainingValue)
      (hl : units.map (·.opcode) = Opcode.all) :
      Passing { units.foldl DispatchTable.write .empty with fingerprint? := some fingerprint }
        .publishing
  | recording {e : EmissionError} : Passing .empty (.recording e)

/-- A table after its pass, the answer to the caller that took it and the answer to all others. -/
inductive Verdict : DispatchTable → BuildAnswer → BuildAnswer → Prop
  | built (units : List CodeUnit) (fingerprint : Digest.ChainingValue)
      (hl : units.map (·.opcode) = Opcode.all) :
      Verdict (DispatchTable.empty.commit units fingerprint) (.ok (.built 15)) (.ok .alreadyBuilt)
  | failed (e : EmissionError) :
      Verdict (DispatchTable.empty.recordFailure e) (.error (.emission e))
        (.error (.previouslyFailed e))

inductive Leaving (answer : BuildAnswer) : Phase → Prop
  | unlockingEmitter : Leaving answer (.unlockingEmitter answer)
  | unlockingTable : Leaving answer (.unlockingTable answer)
  | finished : Leaving answer (.finished answer)

/-- A caller that finds that the pass is over, or is about to. -/
inductive Following (table : DispatchTable) (answer : BuildAnswer) : Phase → Prop
  | looking : Following table answer .looking
  | waiting : Following table answer .waiting
  | lookingAgain : Following table answer .lookingAgain
  | recalling (hb : table.built = false) : Following table answer .recalling
  | unlockingTable : Following table answer (.unlockingTable answer)
  | finished : Following table answer (.finished answer)

theorem Preparing.idle (h : Preparing phase) (ho : phase.inside = false) : Idle phase := by
  cases h with
  | looking => exact .looking
  | waiting => exact .waiting
  | _ => cases ho

theorem Idle.following (h : Idle phase) (table : DispatchTable) (answer : BuildAnswer) :
    Following table answer phase := by
  cases h with
  | looking => exact .looking
  | waiting => exact .waiting

theorem Idle.preparing (h : Idle phase) : Preparing phase := by
  cases h with
  | looking => exact .looking
  | waiting => exact .waiting

theorem Preparing.access (h : Access i phase s phase' s' mark?) (hp : Preparing phase)
    (ht : s.table = .empty) :
    s'.table = .empty ∧
      (Preparing phase' ∧ mark? = none ∨
        phase.inside = true ∧ Passing .empty phase' ∧ mark? = some .entered) := by
  cases h with
  | seeBuilt hb =>
    rw [ht] at hb
    cases hb
  | seeUnbuilt hb => exact ⟨ht, Or.inl ⟨.waiting, rfl⟩⟩
  | lockTable hl => exact ⟨ht, Or.inl ⟨.lookingAgain, rfl⟩⟩
  | seeBuiltAgain hb =>
    rw [ht] at hb
    cases hb
  | seeUnbuiltAgain hb => exact ⟨ht, Or.inl ⟨.recalling, rfl⟩⟩
  | recallFailure hf =>
    rw [ht] at hf
    cases hf
  | recallNone hf => exact ⟨ht, Or.inl ⟨.queueing, rfl⟩⟩
  | lockEmitter hl => exact ⟨ht, Or.inl ⟨.entering, rfl⟩⟩
  | enter => exact ⟨ht, Or.inr ⟨rfl, .emitting rfl, rfl⟩⟩
  | _ => cases hp

theorem passing_afterEmission {opcode : Opcode} {todo : List Opcode} {units : List CodeUnit}
    (layout : List UInt8) (hl : units.map (·.opcode) ++ opcode :: todo = Opcode.all)
    (result : Except EmissionError CodeUnit) :
    Passing .empty (.afterEmission opcode todo units layout result) := by
  cases result with
  | error e => exact .recording
  | ok unit =>
    rw [Phase.afterEmission]
    split
    · exact .recording
    · next hlabel =>
      rw [not_not] at hlabel
      refine .emitting ?_
      rw [List.map_append, List.map_singleton, hlabel, List.append_assoc]
      exact hl

theorem Passing.slots_eq_none {table : DispatchTable} {unit : CodeUnit} {todo : List CodeUnit}
    {fingerprint : Digest.ChainingValue} (h : Passing table (.writing (unit :: todo) fingerprint)) :
    table.slots unit.opcode = none := by
  cases h with
  | writing done hl => exact DispatchTable.slots_eq_none_of_labels hl

theorem Passing.access (h : Access i phase s phase' s' mark?) (hp : Passing s.table phase) :
    mark? ≠ some .entered ∧
      (Passing s'.table phase' ∨
        ∃ first later, Verdict s'.table first later ∧ Leaving first phase') := by
  obtain ⟨table, builder, tableLock, emitterLock⟩ := s
  dsimp only at hp
  cases hp with
  | @emitting todo units layout hl =>
    cases h with
    | emit he => exact ⟨nofun, Or.inl (passing_afterEmission layout hl _)⟩
    | hash =>
      rw [List.append_nil] at hl
      exact ⟨nofun, Or.inl (.writing [] hl)⟩
  | @writing done todo fingerprint hl =>
    cases h with
    | @write _ unit todo _ hs =>
      rw [List.append_cons] at hl
      have hnext := @Passing.writing (done ++ [unit]) todo fingerprint hl
      rw [List.foldl_append] at hnext
      exact ⟨nofun, Or.inl hnext⟩
    | abort hs => exact absurd (Passing.slots_eq_none (@Passing.writing done _ fingerprint hl)) hs
    | setFingerprint =>
      rw [List.append_nil] at hl
      dsimp only
      rw [DispatchTable.fingerprint_foldl_write]
      exact ⟨nofun, Or.inl (.publishing done fingerprint hl)⟩
  | publishing units fingerprint hl =>
    cases h with
    | publish => exact ⟨nofun, Or.inr ⟨_, _, .built units fingerprint hl, .unlockingEmitter⟩⟩
  | recording =>
    cases h with
    | record => exact ⟨nofun, Or.inr ⟨_, _, .failed _, .unlockingEmitter⟩⟩

theorem Idle.access (h : Access i phase s phase' s' mark?) (hp : Idle phase)
    (hb : s.table.built = false) (hl : s.tableLock ≠ none) :
    Idle phase' ∧ s'.table = s.table ∧ mark? = none := by
  cases hp with
  | looking =>
    cases h with
    | seeBuilt hb' =>
      rw [hb] at hb'
      cases hb'
    | seeUnbuilt hb' => exact ⟨.waiting, rfl, rfl⟩
  | waiting =>
    cases h with
    | lockTable hfree => exact absurd hfree hl

theorem Leaving.access (h : Access i phase s phase' s' mark?) {answer : BuildAnswer}
    (hp : Leaving answer phase) : Leaving answer phase' ∧ s'.table = s.table ∧ mark? = none := by
  cases hp with
  | unlockingEmitter =>
    cases h with
    | unlockEmitter => exact ⟨.unlockingTable, rfl, rfl⟩
  | unlockingTable =>
    cases h with
    | unlockTable => exact ⟨.finished, rfl, rfl⟩
  | finished => cases h

theorem Verdict.answers {table : DispatchTable} {first later : BuildAnswer}
    (hv : Verdict table first later) :
    first = .ok (.built 15) ∧ later = .ok .alreadyBuilt ∨
      ∃ e, first = .error (.emission e) ∧ later = .error (.previouslyFailed e) := by
  cases hv with
  | built units fingerprint hl => exact Or.inl ⟨rfl, rfl⟩
  | failed e => exact Or.inr ⟨e, rfl, rfl⟩

theorem Verdict.later_of_built {table : DispatchTable} {first later : BuildAnswer}
    (hv : Verdict table first later) (hb : table.built = true) : later = .ok .alreadyBuilt := by
  cases hv with
  | built units fingerprint hl => rfl
  | failed e => cases hb

theorem Verdict.later_of_unbuilt {table : DispatchTable} {first later : BuildAnswer}
    (hv : Verdict table first later) (hb : table.built = false) :
    ∃ e, table.failure? = some e ∧ later = .error (.previouslyFailed e) := by
  cases hv with
  | built units fingerprint hl => cases hb
  | failed e => exact ⟨e, rfl, rfl⟩

theorem Following.access (h : Access i phase s phase' s' mark?) {first later : BuildAnswer}
    (hv : Verdict s.table first later) (hp : Following s.table later phase) :
    Following s.table later phase' ∧ s'.table = s.table ∧ mark? = none := by
  cases h with
  | seeBuilt hb =>
    rw [hv.later_of_built hb]
    exact ⟨.finished, rfl, rfl⟩
  | seeUnbuilt hb => exact ⟨.waiting, rfl, rfl⟩
  | lockTable hl => exact ⟨.lookingAgain, rfl, rfl⟩
  | seeBuiltAgain hb =>
    rw [hv.later_of_built hb]
    exact ⟨.unlockingTable, rfl, rfl⟩
  | seeUnbuiltAgain hb => exact ⟨.recalling hb, rfl, rfl⟩
  | recallFailure hf =>
    cases hp with
    | recalling hb =>
      obtain ⟨e, he, rfl⟩ := hv.later_of_unbuilt hb
      obtain rfl := Option.some.inj (he.symm.trans hf)
      exact ⟨.unlockingTable, rfl, rfl⟩
  | recallNone hf =>
    cases hp with
    | recalling hb =>
      obtain ⟨e, he, _⟩ := hv.later_of_unbuilt hb
      rw [he] at hf
      cases hf
  | unlockTable =>
    cases hp with
    | unlockingTable => exact ⟨.finished, rfl, rfl⟩
  | _ => cases hp

/-- Slots change only where a unit is written. -/
theorem Access.slots_eq (h : Access i phase s phase' s' mark?) :
    ((∀ opcode, mark? ≠ some (.wrote opcode)) ∧ s'.table.slots = s.table.slots) ∨
      ∃ unit todo fingerprint, phase = .writing (unit :: todo) fingerprint ∧
        mark? = some (.wrote unit.opcode) ∧
        (s.table.slots unit.opcode = none → s'.table = s.table.write unit) := by
  cases h with
  | @write _ unit todo fingerprint hs =>
    exact Or.inr ⟨unit, todo, fingerprint, rfl, rfl, fun _ => rfl⟩
  | @abort _ unit todo fingerprint hs =>
    exact Or.inr ⟨unit, todo, fingerprint, rfl, rfl, fun hnone => absurd hnone hs⟩
  | _ => exact Or.inl ⟨nofun, rfl⟩

end Access

/-! ### How far the table is -/

/-- How far the table is, what each caller can be at, and how often the emission pass has been
entered. -/
inductive Stage {ι : Type} (callers : ι → Phase) : DispatchTable → Nat → Prop
  | quiet (hp : ∀ j, Preparing (callers j)) : Stage callers .empty 0
  | passing {table : DispatchTable} (winner : ι) (hw : Passing table (callers winner))
      (ho : ∀ j, j ≠ winner → Idle (callers j)) : Stage callers table 1
  | settled {table : DispatchTable} {first later : BuildAnswer} (winner : ι)
      (hv : Verdict table first later) (hw : Leaving first (callers winner))
      (ho : ∀ j, j ≠ winner → Following table later (callers j)) : Stage callers table 1

def Mark.entries : Option Mark → Nat
  | some .entered => 1
  | _ => 0

section Stage

variable {ι : Type} {callers : ι → Phase} {table : DispatchTable} {n : Nat}

theorem Passing.built_eq_false {phase : Phase} (h : Passing table phase) :
    table.built = false := by
  cases h with
  | emitting hl => rfl
  | writing done hl => exact DispatchTable.built_foldl_write .empty
  | publishing units fingerprint hl => exact @DispatchTable.built_foldl_write units .empty
  | recording => rfl

theorem Passing.inside {phase : Phase} (h : Passing table phase) : phase.inside = true := by
  cases h <;> rfl

theorem Stage.entries_le (h : Stage callers table n) : n ≤ 1 := by
  cases h with
  | quiet hp => exact Nat.zero_le 1
  | passing winner hw ho => exact Nat.le_refl 1
  | settled winner hv hw ho => exact Nat.le_refl 1

theorem Stage.whole_of_built (h : Stage callers table n) (hb : table.built = true) :
    table.Whole := by
  cases h with
  | quiet hp => cases hb
  | passing winner hw ho =>
    rw [hw.built_eq_false] at hb
    cases hb
  | settled winner hv hw ho =>
    cases hv with
    | built units fingerprint hl => exact DispatchTable.whole_commit hl
    | failed e => cases hb

/-- What any one caller can be at. -/
theorem Stage.caller (h : Stage callers table n) (i : ι) :
    (Preparing (callers i) ∧ table.built = false) ∨ Passing table (callers i) ∨
      ∃ first later, Verdict table first later ∧
        (Leaving first (callers i) ∨ Following table later (callers i)) := by
  cases h with
  | quiet hp => exact Or.inl ⟨hp i, rfl⟩
  | passing winner hw ho =>
    by_cases hi : i = winner
    · subst hi
      exact Or.inr (Or.inl hw)
    · exact Or.inl ⟨(ho i hi).preparing, hw.built_eq_false⟩
  | settled winner hv hw ho =>
    right
    right
    by_cases hi : i = winner
    · subst hi
      exact ⟨_, _, hv, Or.inl hw⟩
    · exact ⟨_, _, hv, Or.inr (ho i hi)⟩

theorem Stage.ne_aborted (h : Stage callers table n) (i : ι) (opcode : Opcode) :
    callers i ≠ .aborted opcode := by
  intro hi
  have hcaller := h.caller i
  rw [hi] at hcaller
  rcases hcaller with ⟨hp, _⟩ | hp | ⟨_, _, _, hp | hp⟩
  all_goals cases hp

theorem Stage.slots_eq_none (h : Stage callers table n) {i : ι} {unit : CodeUnit}
    {todo : List CodeUnit} {fingerprint : Digest.ChainingValue}
    (hi : callers i = .writing (unit :: todo) fingerprint) : table.slots unit.opcode = none := by
  have hcaller := h.caller i
  rw [hi] at hcaller
  rcases hcaller with ⟨hp, _⟩ | hp | ⟨_, _, _, hp | hp⟩
  · cases hp
  · exact hp.slots_eq_none
  · cases hp
  · cases hp

/-- Once all callers have finished, one has the first answer and all others have the other. -/
theorem Stage.answers [Nonempty ι] (h : Stage callers table n)
    (hf : ∀ i, ∃ answer, callers i = .finished answer) :
    ∃ winner first later, Verdict table first later ∧ callers winner = .finished first ∧
      ∀ i, i ≠ winner → callers i = .finished later := by
  cases h with
  | quiet hp =>
    obtain ⟨i⟩ := ‹Nonempty ι›
    obtain ⟨answer, hi⟩ := hf i
    have hpi := hp i
    rw [hi] at hpi
    cases hpi
  | passing winner hw ho =>
    obtain ⟨answer, hi⟩ := hf winner
    rw [hi] at hw
    cases hw
  | @settled _ first later winner hv hw ho =>
    refine ⟨winner, first, later, hv, ?_, ?_⟩
    · obtain ⟨answer, hi⟩ := hf winner
      rw [hi] at hw ⊢
      cases hw
      rfl
    · intro i hne
      obtain ⟨answer, hi⟩ := hf i
      have hoi := ho i hne
      rw [hi] at hoi ⊢
      cases hoi
      rfl

variable {i : ι} {phase' : Phase} {τ : Type} {s s' : Shared ι τ} {mark? : Option Mark}

/-- A table that is built is not changed any more. -/
theorem Stage.table_eq_of_built (hs : Stage callers s.table n) (hb : s.table.built = true)
    (h : Access i (callers i) s phase' s' mark?) : s'.table = s.table := by
  rcases hs.caller i with ⟨_, hb'⟩ | hp | ⟨first, later, hv, hp | hp⟩
  · rw [hb] at hb'
    cases hb'
  · rw [hp.built_eq_false] at hb
    cases hb
  · exact (hp.access h).2.1
  · exact (hp.access h hv).2.1

theorem entries_eq_zero (h : mark? ≠ some .entered) : Mark.entries mark? = 0 := by
  cases mark? with
  | none => rfl
  | some mark =>
    cases mark with
    | entered => exact absurd rfl h
    | wrote opcode => rfl

variable [DecidableEq ι]

theorem others_update {P : Phase → Prop} {winner : ι} (ho : ∀ j, j ≠ winner → P (callers j))
    (hi : i ≠ winner → P phase') (j : ι) (hj : j ≠ winner) :
    P (Function.update callers i phase' j) :=
  (Function.forall_update_iff callers fun j phase => j ≠ winner → P phase).mpr
    ⟨hi, fun j _ => ho j⟩ j hj

/-- Every access leads from one stage to one. -/
theorem Stage.access (hx : ∀ j, (callers j).inside = true ↔ s.tableLock = some j)
    (hs : Stage callers s.table n) (h : Access i (callers i) s phase' s' mark?) :
    Stage (Function.update callers i phase') s'.table (n + Mark.entries mark?) := by
  obtain ⟨table, builder, tableLock, emitterLock⟩ := s
  dsimp only at hx hs
  -- Only an access of the caller that has the pass, or takes it, leads to the next stage.
  cases hs with
  | quiet hp =>
    obtain ⟨ht, ⟨hp', rfl⟩ | ⟨hinside, hpass, rfl⟩⟩ := (hp i).access h rfl
    · rw [ht]
      exact .quiet ((Function.forall_update_iff callers fun _ => Preparing).mpr
        ⟨hp', fun j _ => hp j⟩)
    · rw [ht]
      refine .passing i ?_ ?_
      · rw [Function.update_self]
        exact hpass
      · intro j hj
        rw [Function.update_of_ne hj]
        apply (hp j).idle
        -- The lock is with the caller that has entered, so this one is outside.
        rw [← Bool.not_eq_true, hx, (hx i).mp hinside]
        exact fun heq => hj (Option.some.inj heq).symm
  | passing winner hw ho =>
    by_cases hi : i = winner
    · subst hi
      have hself : Function.update callers i phase' i = phase' := Function.update_self ..
      have hothers : ∀ j, j ≠ i → Idle (Function.update callers i phase' j) :=
        others_update ho fun hne => absurd rfl hne
      obtain ⟨hmark, hpass | ⟨first, later, hv, hleave⟩⟩ := Passing.access h hw
      · rw [entries_eq_zero hmark]
        exact .passing i (hself.symm ▸ hpass) hothers
      · rw [entries_eq_zero hmark]
        exact .settled i hv (hself.symm ▸ hleave) fun j hj => (hothers j hj).following _ _
    · have htaken : tableLock ≠ none := by
        rw [(hx winner).mp hw.inside]
        exact nofun
      obtain ⟨hidle, ht, rfl⟩ := (ho i hi).access h hw.built_eq_false htaken
      rw [ht]
      refine .passing winner ?_ (others_update ho fun _ => hidle)
      rw [Function.update_of_ne (Ne.symm hi)]
      exact hw
  | settled winner hv hw ho =>
    by_cases hi : i = winner
    · subst hi
      obtain ⟨hleave, ht, rfl⟩ := hw.access h
      rw [ht]
      refine .settled i hv ?_ (others_update ho fun hne => absurd rfl hne)
      rw [Function.update_self]
      exact hleave
    · obtain ⟨hfollow, ht, rfl⟩ := (ho i hi).access h hv
      rw [ht]
      refine .settled winner hv ?_ (others_update ho fun _ => hfollow)
      rw [Function.update_of_ne (Ne.symm hi)]
      exact hw

end Stage

end Race

end RegisterMachine
