import Mathlib.Logic.Relation
import RegisterMachine.Proofs.Dispatch.Building

/-!
# Requests that overlap

A request to build a table, taken apart into its accesses to what callers share: the sentinel, the
lock of the table, the failure, the lock of the emitter, the emitter, the slots, the fingerprint.
Between two accesses of a caller others may go on, and readers may look at the table. A caller that
is not disturbed comes to what `TableBuilder.ensureBuilt` answers: `Race.goesTo_ensureBuilt`.
-/

namespace RegisterMachine

namespace Race

/-! ### Callers -/

/-- What a caller does next, with what it has in hand. -/
inductive Phase where
  | looking
  /-- About to take the lock of the table. -/
  | waiting
  | lookingAgain
  /-- About to see whether a build has failed before. -/
  | recalling
  /-- About to take the lock of the emitter. -/
  | queueing
  | entering
  | emitting (todo : List Opcode) (units : List CodeUnit) (layout : List UInt8)
  /-- When no unit is left, the fingerprint is set. -/
  | writing (todo : List CodeUnit) (fingerprint : Digest.ChainingValue)
  | publishing
  | recording (error : EmissionError)
  | unlockingEmitter (answer : BuildAnswer)
  | unlockingTable (answer : BuildAnswer)
  | finished (answer : BuildAnswer)
  /-- A slot was to be written that is not empty. -/
  | aborted (opcode : Opcode)

structure Shared (ι σ : Type) where
  table : DispatchTable
  builder : TableBuilder σ
  tableLock : Option ι
  emitterLock : Option ι

/-- What is told of an access. A slot counts as written even if it was not empty. -/
inductive Mark where
  | entered
  | wrote (opcode : Opcode)

namespace Phase

def afterEmission (opcode : Opcode) (todo : List Opcode) (units : List CodeUnit)
    (layout : List UInt8) : Except EmissionError CodeUnit → Phase
  | .error e => recording e
  | .ok unit =>
    if unit.opcode ≠ opcode then recording (.contractMismatch opcode unit.opcode)
    else emitting todo (units ++ [unit]) (layout ++ (Contract.of opcode).layout)

def inside : Phase → Bool
  | looking | waiting | finished _ => false
  | _ => true

end Phase

/-- One access of caller `i` to what it shares, and what is told of it. A caller that finds a lock
taken has no access until the lock is free. -/
inductive Access {ι σ : Type} (i : ι) :
    Phase → Shared ι σ → Phase → Shared ι σ → Option Mark → Prop
  | seeBuilt {s : Shared ι σ} (hb : s.table.built = true) :
      Access i .looking s (.finished (.ok .alreadyBuilt)) s none
  | seeUnbuilt {s : Shared ι σ} (hb : s.table.built = false) : Access i .looking s .waiting s none
  | lockTable {s : Shared ι σ} (hl : s.tableLock = none) :
      Access i .waiting s .lookingAgain { s with tableLock := some i } none
  | seeBuiltAgain {s : Shared ι σ} (hb : s.table.built = true) :
      Access i .lookingAgain s (.unlockingTable (.ok .alreadyBuilt)) s none
  | seeUnbuiltAgain {s : Shared ι σ} (hb : s.table.built = false) :
      Access i .lookingAgain s .recalling s none
  | recallFailure {s : Shared ι σ} {e : EmissionError} (hf : s.table.failure? = some e) :
      Access i .recalling s (.unlockingTable (.error (.previouslyFailed e))) s none
  | recallNone {s : Shared ι σ} (hf : s.table.failure? = none) :
      Access i .recalling s .queueing s none
  | lockEmitter {s : Shared ι σ} (hl : s.emitterLock = none) :
      Access i .queueing s .entering { s with emitterLock := some i } none
  | enter {s : Shared ι σ} :
      Access i .entering s (.emitting Opcode.all [] [])
        { s with builder := { s.builder with passes := s.builder.passes + 1 } } (some .entered)
  | emit {s : Shared ι σ} {opcode : Opcode} {todo : List Opcode} {units : List CodeUnit}
      {layout : List UInt8} {result : Except EmissionError CodeUnit} {state : σ}
      (he : s.builder.emitter.emit opcode (.of opcode) s.builder.state = (result, state)) :
      Access i (.emitting (opcode :: todo) units layout) s
        (.afterEmission opcode todo units layout result)
        { s with builder := { s.builder with state } } none
  | hash {s : Shared ι σ} {units : List CodeUnit} {layout : List UInt8} :
      Access i (.emitting [] units layout) s (.writing units (Digest.hash layout)) s none
  | write {s : Shared ι σ} {unit : CodeUnit} {todo : List CodeUnit}
      {fingerprint : Digest.ChainingValue} (hs : s.table.slots unit.opcode = none) :
      Access i (.writing (unit :: todo) fingerprint) s (.writing todo fingerprint)
        { s with table := s.table.write unit } (some (.wrote unit.opcode))
  | abort {s : Shared ι σ} {unit : CodeUnit} {todo : List CodeUnit}
      {fingerprint : Digest.ChainingValue} (hs : s.table.slots unit.opcode ≠ none) :
      Access i (.writing (unit :: todo) fingerprint) s (.aborted unit.opcode) s
        (some (.wrote unit.opcode))
  | setFingerprint {s : Shared ι σ} {fingerprint : Digest.ChainingValue} :
      Access i (.writing [] fingerprint) s .publishing
        { s with table := { s.table with
          fingerprint? := some (s.table.fingerprint?.getD fingerprint) } } none
  | publish {s : Shared ι σ} :
      Access i .publishing s (.unlockingEmitter (.ok (.built 15)))
        { s with table := { s.table with built := true } } none
  | record {s : Shared ι σ} {e : EmissionError} :
      Access i (.recording e) s (.unlockingEmitter (.error (.emission e)))
        { s with table := s.table.recordFailure e } none
  | unlockEmitter {s : Shared ι σ} {answer : BuildAnswer} :
      Access i (.unlockingEmitter answer) s (.unlockingTable answer)
        { s with emitterLock := none } none
  | unlockTable {s : Shared ι σ} {answer : BuildAnswer} :
      Access i (.unlockingTable answer) s (.finished answer) { s with tableLock := none } none

/-! ### Readers -/

inductive Query where
  | get (opcode : Opcode)
  | lookup (opcode : Opcode)
  | filled
  | isBuilt

inductive Reply where
  | get (unit? : Option CodeUnit)
  | lookup (unit : Except Fault CodeUnit)
  | filled (count : Nat)
  | isBuilt (built : Bool)

namespace Query

/-- The answer of a table that nobody changes meanwhile. -/
def answer (table : DispatchTable) : Query → Reply
  | get opcode => .get (table.get? opcode)
  | lookup opcode => .lookup (table.lookup opcode)
  | filled => .filled table.filled
  | isBuilt => .isBuilt table.built

def slots : Query → List Opcode
  | get opcode | lookup opcode => [opcode]
  | filled => Opcode.all
  | isBuilt => []

def reply (found? : Option (List (Option CodeUnit))) : Query → Reply
  | get _ => .get (found?.bind fun found => found.head?.join)
  | lookup opcode =>
    .lookup ((found?.bind fun found => found.head?.join).elim (.error (.unbuilt opcode)) .ok)
  | filled => .filled (found?.elim 0 fun found => found.countP Option.isSome)
  | isBuilt => .isBuilt found?.isSome

/-- A reader that is not disturbed answers as the table does. -/
theorem reply_eq_answer (table : DispatchTable) (query : Query) :
    query.reply (if table.built then some (query.slots.map table.slots) else none) =
      query.answer table := by
  cases hb : table.built with
  | false =>
    cases query with
    | get opcode => simp [reply, answer, DispatchTable.get?, hb]
    | lookup opcode => simp [reply, answer, DispatchTable.lookup, DispatchTable.get?, hb]
    | filled => simp [reply, answer, DispatchTable.filled, DispatchTable.get?, hb]
    | isBuilt => simp [reply, answer, hb]
  | true =>
    cases query with
    | get opcode => simp [reply, answer, slots, DispatchTable.get?, hb]
    | lookup opcode =>
      simp only [reply, answer, slots, DispatchTable.lookup, DispatchTable.get?, hb, if_true]
      cases hs : table.slots opcode <;> simp [hs]
    | filled =>
      simp only [reply, answer, slots, DispatchTable.filled, DispatchTable.get?, hb, if_true,
        Option.elim_some, List.countP_map]
      rfl
    | isBuilt => simp [reply, answer, hb]

end Query

inductive Reading where
  | idle
  | loading (query : Query) (todo : List Opcode) (found : List (Option CodeUnit))

/-! ### A caller that is not disturbed -/

section Alone

variable {ι σ : Type} (i : ι)

def Goes (before after : Phase × Shared ι σ) : Prop :=
  ∃ mark?, Access i before.1 before.2 after.1 after.2 mark?

/-- Any number of accesses, with nobody else between them. -/
def GoesTo : Phase × Shared ι σ → Phase × Shared ι σ → Prop := Relation.ReflTransGen (Goes i)

variable {i}

theorem GoesTo.refl {now : Phase × Shared ι σ} : GoesTo i now now := Relation.ReflTransGen.refl

theorem GoesTo.trans {first second third : Phase × Shared ι σ} (h : GoesTo i first second)
    (h' : GoesTo i second third) : GoesTo i first third :=
  Relation.ReflTransGen.trans h h'

theorem GoesTo.step {phase next : Phase} {shared shared' : Shared ι σ} {mark? : Option Mark}
    {last : Phase × Shared ι σ} (h : Access i phase shared next shared' mark?)
    (hl : GoesTo i (next, shared') last) : GoesTo i (phase, shared) last :=
  Relation.ReflTransGen.head ⟨mark?, h⟩ hl

variable {table : DispatchTable} {builder : TableBuilder σ}

/-- Emission by accesses is the staging of the builder. -/
theorem goesTo_stage (todo : List Opcode) (units : List CodeUnit) (layout : List UInt8)
    (builder : TableBuilder σ) :
    GoesTo i (.emitting todo units layout, ⟨table, builder, some i, some i⟩)
      (match (builder.emitter.stage todo builder.state).1 with
        | .ok (units', layout') => .emitting [] (units ++ units') (layout ++ layout')
        | .error e => .recording e,
      ⟨table, { builder with state := (builder.emitter.stage todo builder.state).2 }, some i,
        some i⟩) := by
  induction todo generalizing units layout builder with
  | nil =>
    rw [Emitter.stage]
    dsimp only
    rw [List.append_nil, List.append_nil]
    exact .refl
  | cons opcode rest ih =>
    obtain ⟨result, state, he⟩ : ∃ result state,
        builder.emitter.emit opcode (.of opcode) builder.state = (result, state) := ⟨_, _, rfl⟩
    refine GoesTo.step (.emit he) ?_
    rw [Emitter.stage, he]
    cases result with
    | error e => exact .refl
    | ok unit =>
      by_cases hl : unit.opcode = opcode
      · have hrest := ih (units ++ [unit]) (layout ++ (Contract.of opcode).layout)
          { builder with state }
        rw [Phase.afterEmission, if_neg (not_not_intro hl)]
        dsimp only at hrest ⊢
        rw [if_neg (not_not_intro hl)]
        rcases hs : builder.emitter.stage rest state with ⟨e | ⟨units', layout'⟩, state'⟩
        · rw [hs] at hrest
          exact hrest
        · rw [hs] at hrest
          simpa only [List.append_assoc, List.singleton_append] using hrest
      · rw [Phase.afterEmission, if_pos hl]
        dsimp only
        rw [if_pos hl]
        exact .refl

theorem goesTo_write (todo : List CodeUnit) (fingerprint : Digest.ChainingValue)
    (hfree : ∀ unit ∈ todo, table.slots unit.opcode = none)
    (hnodup : (todo.map (·.opcode)).Nodup) :
    GoesTo i (.writing todo fingerprint, ⟨table, builder, some i, some i⟩)
      (.writing [] fingerprint,
        ⟨todo.foldl DispatchTable.write table, builder, some i, some i⟩) := by
  induction todo generalizing table with
  | nil => exact .refl
  | cons unit rest ih =>
    obtain ⟨hunit, hrest⟩ := List.forall_mem_cons.mp hfree
    rw [List.map_cons, List.nodup_cons] at hnodup
    refine GoesTo.step (.write hunit) (ih ?_ hnodup.2)
    intro other hother
    have hne : other.opcode ≠ unit.opcode := by
      intro heq
      exact hnodup.1 (heq ▸ List.mem_map_of_mem hother)
    exact (if_neg hne).trans (hrest other hother)

/-- Writing by accesses is the commit of the table. -/
theorem goesTo_commit {units : List CodeUnit} (fingerprint : Digest.ChainingValue)
    (hnodup : (units.map (·.opcode)).Nodup) :
    GoesTo i (.writing units fingerprint, ⟨.empty, builder, some i, some i⟩)
      (.unlockingEmitter (.ok (.built 15)),
        ⟨DispatchTable.empty.commit units fingerprint, builder, some i, some i⟩) := by
  have hpublish : GoesTo i
      (.writing [] fingerprint, ⟨units.foldl DispatchTable.write .empty, builder, some i, some i⟩)
      (.unlockingEmitter (.ok (.built 15)),
        ⟨{ units.foldl DispatchTable.write .empty with
            fingerprint? :=
              some ((units.foldl DispatchTable.write .empty).fingerprint?.getD fingerprint)
            built := true }, builder, some i, some i⟩) :=
    .step .setFingerprint (.step .publish .refl)
  rw [DispatchTable.fingerprint_foldl_write] at hpublish
  exact (goesTo_write units fingerprint (fun _ _ => rfl) hnodup).trans hpublish

theorem goesTo_recalling (hb : table.built = false) :
    GoesTo i (.looking, ⟨table, builder, none, none⟩)
      (.recalling, ⟨table, builder, some i, none⟩) := by
  exact .step (.seeUnbuilt hb) (.step (.lockTable rfl) (.step (.seeUnbuiltAgain hb) .refl))

theorem goesTo_emitting (hb : table.built = false) (hf : table.failure? = none) :
    GoesTo i (.looking, ⟨table, builder, none, none⟩)
      (.emitting Opcode.all [] [],
        ⟨table, { builder with passes := builder.passes + 1 }, some i, some i⟩) := by
  exact (goesTo_recalling hb).trans
    (.step (.recallNone hf) (.step (.lockEmitter rfl) (.step .enter .refl)))

theorem goesTo_finished (answer : BuildAnswer) :
    GoesTo i (.unlockingEmitter answer, ⟨table, builder, some i, some i⟩)
      (.finished answer, ⟨table, builder, none, none⟩) :=
  .step .unlockEmitter (.step .unlockTable .refl)

/-- A caller that finds both locks free and is not disturbed comes to what `ensureBuilt` answers,
and leaves the table and the builder as it does. -/
theorem goesTo_ensureBuilt (ht : table = .empty ∨ table.Settled) :
    GoesTo i (.looking, ⟨table, builder, none, none⟩)
      (.finished (builder.ensureBuilt table).1,
        ⟨(builder.ensureBuilt table).2.2, (builder.ensureBuilt table).2.1, none, none⟩) := by
  have hensures := builder.ensures table
  revert hensures
  generalize builder.ensureBuilt table = result
  intro hensures
  cases hensures with
  | alreadyBuilt hb =>
    exact .step (.seeBuilt hb) .refl
  | previouslyFailed hb hf =>
    exact (goesTo_recalling hb).trans (.step (.recallFailure hf) (.step .unlockTable .refl))
  | @built units layout state hb hf hs =>
    obtain rfl : table = .empty := by
      refine ht.resolve_right ?_
      simp [DispatchTable.Settled, hb, hf]
    have hnodup : (units.map (·.opcode)).Nodup := Emitter.labels_of_stage hs ▸ Opcode.nodup_all
    have hstage := @goesTo_stage _ _ i .empty Opcode.all [] []
      { builder with passes := builder.passes + 1 }
    dsimp only at hstage
    rw [hs] at hstage
    exact (goesTo_emitting hb hf).trans (hstage.trans (.step .hash
      ((goesTo_commit (Digest.hash layout) hnodup).trans (goesTo_finished _))))
  | @failed e state hb hf hs =>
    have hstage := @goesTo_stage _ _ i table Opcode.all [] []
      { builder with passes := builder.passes + 1 }
    dsimp only at hstage
    rw [hs] at hstage
    exact (goesTo_emitting hb hf).trans (hstage.trans (.step .record (goesTo_finished _)))

end Alone

end Race

end RegisterMachine
