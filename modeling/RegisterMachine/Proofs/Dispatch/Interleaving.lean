import RegisterMachine.Proofs.Dispatch.Direct
import RegisterMachine.Proofs.Dispatch.Stage

/-!
# One pass, however requests overlap

Any number of callers ask for one fresh table, each with one of any number of builders, and readers
look at it. The moves of all of them follow each other in any order that the locks leave. What holds
of every race that is reached so (`Inv`) decides what callers are answered and what readers see.
-/

namespace RegisterMachine

structure Race (ι β ρ : Type) (σ : β → Type) where
  table : DispatchTable
  tableLock : Option ι
  builders : (b : β) → TableBuilder (σ b)
  emitterLocks : β → Option ι
  callers : ι → Race.Phase
  readers : ρ → Race.Reading

namespace Race

inductive Event (ι ρ : Type) where
  /-- A caller has begun an emission pass. -/
  | entered (caller : ι)
  | wrote (caller : ι) (opcode : Opcode)
  | answered (reader : ρ) (query : Query) (reply : Reply)

namespace Event

variable {ι ρ : Type}

def ofMark (i : ι) : Mark → Event ι ρ
  | .entered => entered i
  | .wrote opcode => wrote i opcode

def isEntry : Event ι ρ → Bool
  | entered _ => true
  | _ => false

def isWrite (opcode : Opcode) : Event ι ρ → Bool
  | wrote _ other => other = opcode
  | _ => false

end Event

variable {ι β ρ : Type} {σ : β → Type}

def told (i : ι) (mark? : Option Mark) : List (Event ι ρ) := mark?.toList.map (.ofMark i)

theorem answered_not_mem_told (i : ι) (mark? : Option Mark) (r : ρ) (query : Query)
    (reply : Reply) : .answered r query reply ∉ told i mark? := by
  intro hmem
  obtain ⟨mark, _, heq⟩ := List.mem_map.mp hmem
  cases mark <;> cases heq

def opening (builders : (b : β) → TableBuilder (σ b)) : Race ι β ρ σ where
  table := .empty
  tableLock := none
  builders := builders
  emitterLocks _ := none
  callers _ := .looking
  readers _ := .idle

def shared (race : Race ι β ρ σ) (b : β) : Shared ι (σ b) :=
  ⟨race.table, race.builders b, race.tableLock, race.emitterLocks b⟩

/-- A reader that has found the sentinel set sees the slots of the table. -/
def Reading.Sees (table : DispatchTable) : Reading → Prop
  | .idle => True
  | .loading query todo found =>
    table.built = true ∧ query.slots.map table.slots = found ++ todo.map table.slots

/-- An answer that told of nothing, or that a table that is built still gives. -/
def Holds (table : DispatchTable) (query : Query) (reply : Reply) : Prop :=
  reply = query.reply none ∨ table.built = true ∧ reply = query.answer table

structure Inv (events : List (Event ι ρ)) (race : Race ι β ρ σ) : Prop where
  exclusive : ∀ i, (race.callers i).inside = true ↔ race.tableLock = some i
  stage : Stage race.callers race.table (events.countP Event.isEntry)
  written : ∀ opcode, events.countP (Event.isWrite opcode) =
    if (race.table.slots opcode).isSome then 1 else 0
  sees : ∀ r, (race.readers r).Sees race.table
  answered : ∀ r query reply, .answered r query reply ∈ events → Holds race.table query reply

section Inv

variable {events : List (Event ι ρ)} {race : Race ι β ρ σ}

theorem inv_opening (builders : (b : β) → TableBuilder (σ b)) :
    Inv [] (opening builders : Race ι β ρ σ) where
  exclusive _ := ⟨nofun, nofun⟩
  stage := .quiet fun _ => .looking
  written _ := rfl
  sees _ := trivial
  answered _ _ _ h := absurd h List.not_mem_nil

theorem Reading.Sees.of_table {table table' : DispatchTable} {reading : Reading}
    (h : reading.Sees table) (ht : table.built = true → table' = table) : reading.Sees table' := by
  cases reading with
  | idle => trivial
  | loading query todo found => exact (ht h.1).symm ▸ h

theorem Holds.of_table {table table' : DispatchTable} {query : Query} {reply : Reply}
    (h : Holds table query reply) (ht : table.built = true → table' = table) :
    Holds table' query reply := by
  rcases h with h | h
  · exact Or.inl h
  · exact Or.inr ((ht h.1).symm ▸ h)

/-- A reader that has loaded all slots answers as the table does. -/
theorem Inv.reply_eq_answer (h : Inv events race) {r : ρ} {query : Query}
    {found : List (Option CodeUnit)} (hr : race.readers r = .loading query [] found) :
    race.table.built = true ∧ query.reply (some found) = query.answer race.table := by
  have hsees := h.sees r
  rw [hr] at hsees
  obtain ⟨hb, hfound⟩ := hsees
  rw [List.map_nil, List.append_nil] at hfound
  have hanswer := query.reply_eq_answer race.table
  rw [hb, if_pos rfl, hfound] at hanswer
  exact ⟨hb, hanswer⟩

theorem Inv.answer (h : Inv events race) {r : ρ} {query : Query} {reply : Reply}
    (hreply : Holds race.table query reply) :
    Inv (events ++ [.answered r query reply]) race where
  exclusive := h.exclusive
  stage := by
    rw [List.countP_append]
    exact h.stage
  written opcode := by
    rw [List.countP_append]
    exact h.written opcode
  sees := h.sees
  answered r' query' reply' hmem := by
    rcases List.mem_append.mp hmem with hmem | hmem
    · exact h.answered r' query' reply' hmem
    · cases List.mem_singleton.mp hmem
      exact hreply

theorem Inv.written_access (h : Inv events race) {b : β} {i : ι} {phase : Phase}
    {s : Shared ι (σ b)} {mark? : Option Mark}
    (ha : Access i (race.callers i) (race.shared b) phase s mark?) (opcode : Opcode) :
    (events ++ told i mark?).countP (Event.isWrite opcode) =
      if (s.table.slots opcode).isSome then 1 else 0 := by
  rw [List.countP_append, h.written opcode]
  rcases ha.slots_eq with ⟨hmark, hslots⟩ | ⟨unit, todo, fingerprint, hphase, rfl, hwrite⟩
  · have hnone : (told i mark? : List (Event ι ρ)).countP (Event.isWrite opcode) = 0 := by
      cases mark? with
      | none => rfl
      | some mark =>
        cases mark with
        | entered => rfl
        | wrote other => exact absurd rfl (hmark other)
    rw [hnone, hslots]
    rfl
  · have hfree := h.stage.slots_eq_none hphase
    rw [hwrite hfree]
    by_cases hopcode : opcode = unit.opcode
    · subst hopcode
      rw [hfree]
      simp [told, Event.ofMark, Event.isWrite, DispatchTable.write]
    · simp [told, Event.ofMark, Event.isWrite, DispatchTable.write, shared, hopcode,
        Ne.symm hopcode]

theorem Inv.filled_eq (h : Inv events race) {r : ρ} {reply : Reply}
    (hmem : .answered r .filled reply ∈ events) : reply = .filled 0 ∨ reply = .filled 15 := by
  rcases h.answered r .filled reply hmem with rfl | ⟨hb, rfl⟩
  · exact Or.inl rfl
  · right
    rw [Query.answer, (h.stage.whole_of_built hb).built_iff_filled.mp hb]

end Inv

/-! ### Moves -/

section Reader

variable [DecidableEq ρ] {events : List (Event ι ρ)} {race : Race ι β ρ σ} {r : ρ}

def afterLoad (race : Race ι β ρ σ) (r : ρ) (reading : Reading) : Race ι β ρ σ :=
  { race with readers := Function.update race.readers r reading }

theorem Inv.afterLoad (h : Inv events race) {reading : Reading} (hr : reading.Sees race.table) :
    Inv events (race.afterLoad r reading) where
  exclusive := h.exclusive
  stage := h.stage
  written := h.written
  sees := (Function.forall_update_iff race.readers fun _ reading => reading.Sees race.table).mpr
    ⟨hr, fun j _ => h.sees j⟩
  answered := h.answered

end Reader

section Caller

variable [DecidableEq ι] [DecidableEq β] {events : List (Event ι ρ)} {race : Race ι β ρ σ}
  {b : β} {i : ι} {phase : Phase} {s : Shared ι (σ b)} {mark? : Option Mark}

def afterAccess (race : Race ι β ρ σ) (b : β) (i : ι) (phase : Phase) (s : Shared ι (σ b)) :
    Race ι β ρ σ where
  table := s.table
  tableLock := s.tableLock
  builders := Function.update race.builders b s.builder
  emitterLocks := Function.update race.emitterLocks b s.emitterLock
  callers := Function.update race.callers i phase
  readers := race.readers

theorem callers_afterAccess (race : Race ι β ρ σ) (b : β) (i : ι) (phase : Phase)
    (s : Shared ι (σ b)) : (race.afterAccess b i phase s).callers i = phase :=
  Function.update_self ..

theorem shared_afterAccess (race : Race ι β ρ σ) (b : β) (i : ι) (phase : Phase)
    (s : Shared ι (σ b)) : (race.afterAccess b i phase s).shared b = s := by
  simp [afterAccess, shared]

theorem afterAccess_eq_self (race : Race ι β ρ σ) (b : β) (i : ι) :
    race.afterAccess b i (race.callers i) (race.shared b) = race := by
  simp [afterAccess, shared]

theorem afterAccess_afterAccess (race : Race ι β ρ σ) (b : β) (i : ι) (phase phase' : Phase)
    (s s' : Shared ι (σ b)) :
    (race.afterAccess b i phase s).afterAccess b i phase' s' = race.afterAccess b i phase' s' := by
  simp [afterAccess]

theorem exclusive_afterAccess (h : Inv events race)
    (ha : Access i (race.callers i) (race.shared b) phase s mark?) (j : ι) :
    ((race.afterAccess b i phase s).callers j).inside = true ↔ s.tableLock = some j := by
  obtain ⟨hself, hothers⟩ := ha.inside_iff (h.exclusive i)
  exact (Function.forall_update_iff race.callers
    fun j phase => phase.inside = true ↔ s.tableLock = some j).mpr
      ⟨hself, fun j hj => (h.exclusive j).trans (hothers j hj).symm⟩ j

theorem Inv.access (h : Inv events race)
    (ha : Access i (race.callers i) (race.shared b) phase s mark?) :
    Inv (events ++ told i mark?) (race.afterAccess b i phase s) := by
  have ht : race.table.built = true → s.table = race.table := fun hb =>
    Stage.table_eq_of_built h.stage hb ha
  constructor
  · exact exclusive_afterAccess h ha
  · have hentries :
        (told i mark? : List (Event ι ρ)).countP Event.isEntry = Mark.entries mark? := by
      cases mark? with
      | none => rfl
      | some mark => cases mark <;> rfl
    rw [List.countP_append, hentries]
    exact Stage.access h.exclusive h.stage ha
  · exact h.written_access ha
  · exact fun r => (h.sees r).of_table ht
  · intro r query reply hmem
    rcases List.mem_append.mp hmem with hmem | hmem
    · exact (h.answered r query reply hmem).of_table ht
    · exact absurd hmem (answered_not_mem_told i mark? r query reply)

end Caller

variable [DecidableEq ι] [DecidableEq β] [DecidableEq ρ]

/-- One access of one caller or reader, with what is told of it. Caller `i` calls builder
`serves i`. -/
inductive Move (serves : ι → β) (race : Race ι β ρ σ) : List (Event ι ρ) → Race ι β ρ σ → Prop
  | access {i : ι} {phase : Phase} {s : Shared ι (σ (serves i))} {mark? : Option Mark}
      (ha : Access i (race.callers i) (race.shared (serves i)) phase s mark?) :
      Move serves race (told i mark?) (race.afterAccess (serves i) i phase s)
  | seeUnbuilt {r : ρ} (query : Query) (hr : race.readers r = .idle)
      (hb : race.table.built = false) :
      Move serves race [.answered r query (query.reply none)] race
  | seeBuilt {r : ρ} (query : Query) (hr : race.readers r = .idle) (hb : race.table.built = true) :
      Move serves race [] (race.afterLoad r (.loading query query.slots []))
  | load {r : ρ} {query : Query} {opcode : Opcode} {todo : List Opcode}
      {found : List (Option CodeUnit)}
      (hr : race.readers r = .loading query (opcode :: todo) found) :
      Move serves race []
        (race.afterLoad r (.loading query todo (found ++ [race.table.slots opcode])))
  | answer {r : ρ} {query : Query} {found : List (Option CodeUnit)}
      (hr : race.readers r = .loading query [] found) :
      Move serves race [.answered r query (query.reply (some found))] (race.afterLoad r .idle)

/-- What the moves up to now have told, in order, and what they have led to. -/
inductive Reached (serves : ι → β) (builders : (b : β) → TableBuilder (σ b)) :
    List (Event ι ρ) → Race ι β ρ σ → Prop
  | opening : Reached serves builders [] (opening builders)
  | move {events new : List (Event ι ρ)} {race next : Race ι β ρ σ}
      (h : Reached serves builders events race) (hm : Move serves race new next) :
      Reached serves builders (events ++ new) next

variable {serves : ι → β} {builders : (b : β) → TableBuilder (σ b)}
  {events new : List (Event ι ρ)} {race next : Race ι β ρ σ}

theorem Inv.move (h : Inv events race) (hm : Move serves race new next) :
    Inv (events ++ new) next := by
  cases hm with
  | access ha => exact h.access ha
  | seeUnbuilt query hr hb => exact h.answer (Or.inl rfl)
  | @seeBuilt r query hr hb =>
    rw [List.append_nil]
    exact h.afterLoad ⟨hb, rfl⟩
  | @load r query opcode todo found hr =>
    have hsees := h.sees r
    rw [hr] at hsees
    rw [List.append_nil]
    refine h.afterLoad ⟨hsees.1, ?_⟩
    rw [hsees.2, List.map_cons, List.append_cons]
  | answer hr => exact (h.answer (Or.inr (h.reply_eq_answer hr))).afterLoad trivial

theorem inv_of_reached (h : Reached serves builders events race) : Inv events race := by
  induction h with
  | opening => exact inv_opening builders
  | move _ hm ih => exact ih.move hm

theorem Move.length_le (hm : Move serves race new next) : new.length ≤ 1 := by
  cases hm with
  | @access i phase s mark? ha =>
    rw [told, List.length_map]
    cases mark? with
    | none => exact Nat.zero_le 1
    | some mark => exact Nat.le_refl 1
  | seeUnbuilt query hr hb => exact Nat.le_refl 1
  | seeBuilt query hr hb => exact Nat.zero_le 1
  | load hr => exact Nat.zero_le 1
  | answer hr => exact Nat.le_refl 1

/-- An answer that tells of no unit is given before any that tells of one. -/
theorem Inv.isSome_of_move (h : Inv events race) (hm : Move serves race new next) {r r' : ρ}
    {opcode opcode' : Opcode} {unit : CodeUnit} {reply : Reply}
    (hgot : .answered r (.get opcode) (.get (some unit)) ∈ events)
    (hnew : .answered r' (.get opcode') reply ∈ new) : ∃ unit', reply = .get (some unit') := by
  have hb : race.table.built = true := by
    rcases h.answered r _ _ hgot with hreply | ⟨hb, _⟩
    · cases hreply
    · exact hb
  cases hm with
  | access ha => exact absurd hnew (answered_not_mem_told _ _ _ _ _)
  | seeUnbuilt query hr hb' =>
    rw [hb] at hb'
    cases hb'
  | seeBuilt query hr hb' => cases hnew
  | load hr => cases hnew
  | answer hr =>
    cases List.mem_singleton.mp hnew
    have hget := (h.stage.whole_of_built hb).built_iff_get.mp hb opcode'
    obtain ⟨unit', hunit⟩ := Option.isSome_iff_exists.mp hget
    refine ⟨unit', ?_⟩
    rw [(h.reply_eq_answer hr).2, Query.answer, hunit]

/-- Once a slot has been got, every slot is got. -/
theorem get_after_get (h : Reached serves builders events race) {r r' : ρ}
    {opcode opcode' : Opcode} {unit : CodeUnit} {reply : Reply}
    (hlater : [.answered r (.get opcode) (.get (some unit)),
      .answered r' (.get opcode') reply].Sublist events) : ∃ unit', reply = .get (some unit') := by
  induction h with
  | opening => cases hlater
  | @move events new race next hreached hm ih =>
    obtain ⟨before, after, heq, hbefore, hafter⟩ := List.sublist_append_iff.mp hlater
    cases before with
    | nil =>
      -- A single move does not answer twice.
      rw [List.nil_append] at heq
      have hlength := Nat.le_trans hafter.length_le hm.length_le
      rw [← heq] at hlength
      exact absurd hlength (Nat.not_succ_le_self 1)
    | cons first before =>
      cases before with
      | nil =>
        -- The slot was got before the move, which gives the other answer.
        cases heq
        exact (inv_of_reached hreached).isSome_of_move hm
          (hbefore.subset List.mem_cons_self) (hafter.subset List.mem_cons_self)
      | cons second before =>
        obtain ⟨rfl, hrest⟩ := List.cons.inj heq
        obtain ⟨rfl, hnil⟩ := List.cons.inj hrest
        obtain ⟨rfl, rfl⟩ := List.append_eq_nil_iff.mp hnil.symm
        exact ih hbefore

/-- What is true of a race after each of its moves is true after one caller has gone on
undisturbed. -/
theorem GoesTo.afterAccess (P : Race ι β ρ σ → Prop)
    (hmove : ∀ {race next new}, P race → Move serves race new next → P next) (h : P race) {i : ι}
    {phase : Phase} {s : Shared ι (σ (serves i))}
    (hg : GoesTo i (race.callers i, race.shared (serves i)) (phase, s)) :
    P (race.afterAccess (serves i) i phase s) := by
  generalize hlast : (phase, s) = last at hg
  induction hg generalizing phase s with
  | refl =>
    cases hlast
    rw [afterAccess_eq_self]
    exact h
  | @tail middle last _ hgoes ih =>
    subst hlast
    obtain ⟨mark?, ha⟩ := hgoes
    have hnext : Access i ((race.afterAccess (serves i) i middle.1 middle.2).callers i)
        ((race.afterAccess (serves i) i middle.1 middle.2).shared (serves i)) phase s mark? := by
      rw [callers_afterAccess, shared_afterAccess]
      exact ha
    have hall := hmove (ih rfl) (.access hnext)
    rwa [afterAccess_afterAccess] at hall

theorem Reached.goesTo (h : Reached serves builders events race) {i : ι} {phase : Phase}
    {s : Shared ι (σ (serves i))}
    (hg : GoesTo i (race.callers i, race.shared (serves i)) (phase, s)) :
    ∃ events, Reached serves builders events (race.afterAccess (serves i) i phase s) := by
  refine GoesTo.afterAccess (∃ events, Reached serves builders events ·) ?_ ⟨events, h⟩ hg
  rintro race next new ⟨events, hreached⟩ hm
  exact ⟨_, hreached.move hm⟩

/-- However the requests for a fresh table overlap, the emission pass is entered once at most, and
no slot is written twice. When all callers have finished, either one has built the table and all
others have found it built, or one has failed and all others are reminded of that failure. Readers
see all slots filled or none, and all of them once they have seen one. -/
theorem overlapping_requests [Nonempty ι] (h : Reached serves builders events race) :
    events.countP Event.isEntry ≤ 1 ∧
    (∀ opcode, events.countP (Event.isWrite opcode) ≤ 1) ∧
    (∀ i opcode, race.callers i ≠ .aborted opcode) ∧
    ((∀ i, ∃ answer, race.callers i = .finished answer) → ∃ winner,
      (race.callers winner = .finished (.ok (.built 15)) ∧
        ∀ i, i ≠ winner → race.callers i = .finished (.ok .alreadyBuilt)) ∨
      ∃ e, race.callers winner = .finished (.error (.emission e)) ∧
        ∀ i, i ≠ winner → race.callers i = .finished (.error (.previouslyFailed e))) ∧
    (∀ r reply, .answered r .filled reply ∈ events → reply = .filled 0 ∨ reply = .filled 15) ∧
    ∀ r r' opcode opcode' unit reply,
      [.answered r (.get opcode) (.get (some unit)),
        .answered r' (.get opcode') reply].Sublist events →
      ∃ unit', reply = .get (some unit') := by
  have hinv := inv_of_reached h
  refine ⟨hinv.stage.entries_le, ?_, hinv.stage.ne_aborted, ?_, fun _ _ => hinv.filled_eq,
    fun _ _ _ _ _ _ => get_after_get h⟩
  · intro opcode
    rw [hinv.written opcode]
    split
    · exact Nat.le_refl 1
    · exact Nat.zero_le 1
  · intro hfinished
    obtain ⟨winner, first, later, hverdict, hwinner, hothers⟩ := hinv.stage.answers hfinished
    refine ⟨winner, ?_⟩
    rcases hverdict.answers with ⟨rfl, rfl⟩ | ⟨e, rfl, rfl⟩
    · exact Or.inl ⟨hwinner, hothers⟩
    · exact Or.inr ⟨e, hwinner, hothers⟩

/-- Two callers with builders of their own. The second has seen that the table is not built before
the first builds it. -/
theorem overlapping_requests_two :
    ∃ (events : List (Event Bool Unit)) (race : Race Bool Bool Unit fun _ => CodeSpace),
      Reached id (fun _ => .direct none) events race ∧
      race.callers false = .finished (.ok (.built 15)) ∧
      race.callers true = .finished (.ok .alreadyBuilt) ∧
      events.countP Event.isEntry ≤ 1 := by
  obtain ⟨after, hbuilt⟩ := TableBuilder.ensureBuilt_unlimited
  have hlooks : Access true .looking
      ((opening fun _ => .direct none : Race Bool Bool Unit fun _ => CodeSpace).shared (id true))
      .waiting _ none := .seeUnbuilt rfl
  have hfirst := Reached.opening.move (.access hlooks)
  have hbuilds := @goesTo_ensureBuilt _ _ false .empty (.direct none) (Or.inl rfl)
  rw [hbuilt] at hbuilds
  obtain ⟨_, hsecond⟩ := hfirst.goesTo hbuilds
  have hfinds : GoesTo true (.waiting, ⟨.standard, .direct none, none, none⟩)
      (.finished (.ok .alreadyBuilt), ⟨.standard, .direct none, none, none⟩) :=
    .step (.lockTable rfl) (.step (.seeBuiltAgain DispatchTable.built_standard)
      (.step .unlockTable .refl))
  obtain ⟨events, hthird⟩ := @Reached.goesTo _ _ _ _ _ _ _ _ _ _ _ hsecond true _ _ hfinds
  exact ⟨events, _, hthird, rfl, rfl, (overlapping_requests hthird).1⟩

end Race

end RegisterMachine
