import RegisterMachine.Proofs.Dispatch.Interleaving

/-!
# Listings that a build overtakes

A listing looks at one slot after the other, and before each of them at the sentinel again. Alone
with the table it lists the entries of the table (`looks_entries`), but others may go on between its
looks. A build that is published meanwhile shows up in the middle of the listing: up to there no
unit is listed, from there on every one (`listing_changes_once`).
-/

namespace RegisterMachine

namespace Race

/-- A listing under way: the entries it has given, and the opcodes still to come. -/
structure Listing where
  entries : List (Opcode × Option CodeUnit) := []
  todo : List Opcode := Opcode.all
  /-- Whether the sentinel has been found set for the next opcode, whose slot is still to be
  loaded. -/
  loading : Bool := false

inductive Listing.Look (table : DispatchTable) : Listing → Listing → Prop
  | seeUnbuilt {entries : List (Opcode × Option CodeUnit)} {opcode : Opcode} {todo : List Opcode}
      (hb : table.built = false) :
      Look table ⟨entries, opcode :: todo, false⟩ ⟨entries ++ [(opcode, none)], todo, false⟩
  | seeBuilt {entries : List (Opcode × Option CodeUnit)} {opcode : Opcode} {todo : List Opcode}
      (hb : table.built = true) :
      Look table ⟨entries, opcode :: todo, false⟩ ⟨entries, opcode :: todo, true⟩
  | load {entries : List (Opcode × Option CodeUnit)} {opcode : Opcode} {todo : List Opcode} :
      Look table ⟨entries, opcode :: todo, true⟩
        ⟨entries ++ [(opcode, table.slots opcode)], todo, false⟩

/-- The entries are those of a table that is not built, or of one that is. -/
def IsSnapshot (entries : List (Opcode × Option CodeUnit)) : Prop :=
  (∀ entry ∈ entries, entry.2 = none) ∨ ∀ entry ∈ entries, entry.2.isSome

section Alone

variable {table : DispatchTable}

theorem looks_rest (entries : List (Opcode × Option CodeUnit)) (todo : List Opcode) :
    Relation.ReflTransGen (Listing.Look table) ⟨entries, todo, false⟩
      ⟨entries ++ todo.map fun opcode => (opcode, table.get? opcode), [], false⟩ := by
  induction todo generalizing entries with
  | nil =>
    rw [List.map_nil, List.append_nil]
  | cons opcode rest ih =>
    have hrest := ih (entries ++ [(opcode, table.get? opcode)])
    rw [List.append_assoc, List.singleton_append] at hrest
    refine Relation.ReflTransGen.trans ?_ hrest
    unfold DispatchTable.get?
    cases hb : table.built with
    | false => exact .single (.seeUnbuilt hb)
    | true => exact .tail (.single (.seeBuilt hb)) .load

theorem looks_entries :
    Relation.ReflTransGen (Listing.Look table) {} ⟨table.entries, [], false⟩ :=
  looks_rest [] Opcode.all

end Alone

/-! ### Listings among others -/

variable {ι β ρ : Type} {σ : β → Type} [DecidableEq ι] [DecidableEq β] [DecidableEq ρ]

/-- A listing that is started at one moment of a race, and how far it is at another. -/
inductive Listed (serves : ι → β) (before : Race ι β ρ σ) : Race ι β ρ σ → Listing → Prop
  | start : Listed serves before before {}
  | move {race next : Race ι β ρ σ} {new : List (Event ι ρ)} {listing : Listing}
      (h : Listed serves before race listing) (hm : Move serves race new next) :
      Listed serves before next listing
  | look {race : Race ι β ρ σ} {listing next : Listing} (h : Listed serves before race listing)
      (hl : listing.Look race.table next) : Listed serves before race next

/-- What a listing shows: no unit for some opcodes, then the units of the table. -/
structure Listing.Shows (before table : DispatchTable) (listing : Listing)
    (unseen seen : List Opcode) : Prop where
  order : unseen ++ seen ++ listing.todo = Opcode.all
  entries : listing.entries =
    unseen.map (·, none) ++ seen.map fun opcode => (opcode, table.get? opcode)
  built : seen ≠ [] ∨ listing.loading = true → table.built = true
  /-- A table that was built at the start has not changed. -/
  kept : before.built = true → unseen = [] ∧ table = before

section Shows

variable {before table table' : DispatchTable} {listing next : Listing} {unseen seen : List Opcode}

theorem Listing.shows_start : Shows table table {} [] [] where
  order := rfl
  entries := rfl
  built h := h.elim (absurd rfl) nofun
  kept _ := ⟨rfl, rfl⟩

theorem Listing.Shows.of_table (h : listing.Shows before table unseen seen)
    (ht : table.built = true → table' = table) : listing.Shows before table' unseen seen where
  order := h.order
  entries := by
    rw [h.entries]
    by_cases hseen : seen = []
    · rw [hseen, List.map_nil, List.map_nil]
    · rw [ht (h.built (Or.inl hseen))]
  built hs := by
    have hb := h.built hs
    rw [ht hb, hb]
  kept hb := by
    obtain ⟨hunseen, heq⟩ := h.kept hb
    exact ⟨hunseen, (ht (heq ▸ hb)).trans heq⟩

theorem Listing.Shows.look (h : listing.Shows before table unseen seen)
    (hl : listing.Look table next) : ∃ unseen seen, next.Shows before table unseen seen := by
  cases hl with
  | @seeUnbuilt entries opcode todo hb =>
    -- Nothing has been seen of a table that is not built.
    obtain rfl : seen = [] := by
      by_contra hseen
      exact Bool.false_ne_true (hb.symm.trans (h.built (Or.inl hseen)))
    refine ⟨unseen ++ [opcode], [], ?_, ?_, fun hs => hs.elim (absurd rfl) nofun, fun hbefore => ?_⟩
    · simpa using h.order
    · rw [List.map_append, List.map_singleton, List.map_nil, List.append_nil]
      exact congrArg (· ++ _) (h.entries.trans (List.append_nil _))
    · rw [(h.kept hbefore).2, hbefore] at hb
      cases hb
  | seeBuilt hb => exact ⟨unseen, seen, h.order, h.entries, fun _ => hb, h.kept⟩
  | @load entries opcode todo =>
    have hb : table.built = true := h.built (Or.inr rfl)
    have hget : table.get? opcode = table.slots opcode := by rw [DispatchTable.get?, hb, if_pos rfl]
    refine ⟨unseen, seen ++ [opcode], ?_, ?_, fun _ => hb, h.kept⟩
    · simpa using h.order
    · rw [List.map_append, List.map_singleton, hget, ← List.append_assoc]
      exact congrArg (· ++ _) h.entries

end Shows

variable {serves : ι → β} {builders : (b : β) → TableBuilder (σ b)} {events new : List (Event ι ρ)}
  {before race next : Race ι β ρ σ} {listing : Listing}

theorem Inv.table_eq_of_built (h : Inv events race) (hm : Move serves race new next)
    (hb : race.table.built = true) : next.table = race.table := by
  cases hm with
  | access ha => exact Stage.table_eq_of_built h.stage hb ha
  | _ => rfl

theorem Listed.reached (hl : Listed serves before race listing)
    (h : Reached serves builders events before) :
    ∃ events, Reached serves builders events race := by
  induction hl with
  | start => exact ⟨_, h⟩
  | move _ hm ih =>
    obtain ⟨events, hreached⟩ := ih
    exact ⟨_, hreached.move hm⟩
  | look _ _ ih => exact ih

/-- A listing shows nothing of the table and then all that is left of it. -/
theorem Listed.shows (hl : Listed serves before race listing)
    (h : Reached serves builders events before) :
    ∃ unseen seen, listing.Shows before.table race.table unseen seen := by
  induction hl with
  | start => exact ⟨[], [], Listing.shows_start⟩
  | move hlisted hm ih =>
    obtain ⟨unseen, seen, hshows⟩ := ih
    obtain ⟨events, hreached⟩ := hlisted.reached h
    exact ⟨unseen, seen, hshows.of_table ((inv_of_reached hreached).table_eq_of_built hm)⟩
  | look _ hlook ih =>
    obtain ⟨unseen, seen, hshows⟩ := ih
    exact hshows.look hlook

/-- Others may go on undisturbed between two looks of a listing. -/
theorem Listed.goesTo (hl : Listed serves before race listing) {i : ι} {phase : Phase}
    {s : Shared ι (σ (serves i))}
    (hg : GoesTo i (race.callers i, race.shared (serves i)) (phase, s)) :
    Listed serves before (race.afterAccess (serves i) i phase s) listing :=
  GoesTo.afterAccess (Listed serves before · listing) Listed.move hl hg

theorem Listed.looks {next : Listing} (hl : Listed serves before race listing)
    (hlooks : Relation.ReflTransGen (Listing.Look race.table) listing next) :
    Listed serves before race next := by
  induction hlooks with
  | refl => exact hl
  | tail _ hlook ih => exact ih.look hlook

theorem isSnapshot_iff {table : DispatchTable} {unseen seen : List Opcode}
    (hseen : ∀ opcode ∈ seen, (table.get? opcode).isSome) :
    IsSnapshot (unseen.map (·, none) ++ seen.map fun opcode => (opcode, table.get? opcode)) ↔
      unseen = [] ∨ seen = [] := by
  constructor
  · rintro (hnone | hsome)
    · right
      rw [List.eq_nil_iff_forall_not_mem]
      intro opcode hmem
      have hget := hnone _ (List.mem_append_right _ (List.mem_map_of_mem hmem))
      exact Option.ne_none_iff_isSome.mpr (hseen opcode hmem) hget
    · left
      rw [List.eq_nil_iff_forall_not_mem]
      intro opcode hmem
      cases hsome _ (List.mem_append_left _ (List.mem_map_of_mem hmem))
  · rintro (rfl | rfl)
    · right
      simpa using hseen
    · left
      simp

/-- A listing that has come to its end lists all opcodes in order: the first of them without a unit,
all others with the unit of the table. It is the listing of one moment unless a build is published
between its looks; a table that was built before it started, or is not built after it, is listed
as it is. -/
theorem listing_changes_once (h : Reached serves builders events before)
    (hl : Listed serves before race listing) (hdone : listing.todo = []) :
    ∃ unseen seen, unseen ++ seen = Opcode.all ∧
      listing.entries =
        unseen.map (·, none) ++ seen.map (fun opcode => (opcode, race.table.get? opcode)) ∧
      (∀ opcode ∈ seen, (race.table.get? opcode).isSome) ∧
      (IsSnapshot listing.entries ↔ unseen = [] ∨ seen = []) ∧
      (before.table.built = true → unseen = []) ∧ (race.table.built = false → seen = []) := by
  obtain ⟨unseen, seen, hshows⟩ := hl.shows h
  obtain ⟨events', hreached⟩ := hl.reached h
  have horder : unseen ++ seen = Opcode.all := by
    rw [← hshows.order, hdone, List.append_nil]
  have hsome : ∀ opcode ∈ seen, (race.table.get? opcode).isSome := by
    intro opcode hmem
    have hb := hshows.built (Or.inl (List.ne_nil_of_mem hmem))
    exact ((inv_of_reached hreached).stage.whole_of_built hb).built_iff_get.mp hb opcode
  refine ⟨unseen, seen, horder, hshows.entries, hsome, ?_, fun hb => (hshows.kept hb).1, ?_⟩
  · rw [hshows.entries]
    exact isSnapshot_iff hsome
  · intro hb
    by_contra hseen
    exact Bool.false_ne_true (hb.symm.trans (hshows.built (Or.inl hseen)))

theorem get?_standard (opcode : Opcode) :
    DispatchTable.standard.get? opcode = some (.standard opcode) := by
  have hlookup := DispatchTable.isStandard_standard opcode
  unfold DispatchTable.lookup at hlookup
  split at hlookup
  · next hget => rw [hget, Except.ok.inj hlookup]
  · cases hlookup

theorem exists_overtaken :
    ∃ race : Race Unit Unit Unit fun _ => CodeSpace,
      Listed id (opening fun _ => .direct none) race
        ⟨(.ldaZero, none) :: Opcode.all.tail.map fun opcode => (opcode, some (.standard opcode)), [],
          false⟩ := by
  obtain ⟨after, hbuilt⟩ := TableBuilder.ensureBuilt_unlimited
  have hbuilds := @goesTo_ensureBuilt _ _ () .empty (.direct none) (Or.inl rfl)
  rw [hbuilt] at hbuilds
  have hfirst : Listed id (opening fun _ => .direct none : Race Unit Unit Unit fun _ => CodeSpace)
      (opening fun _ => .direct none) ⟨[(.ldaZero, none)], Opcode.all.tail, false⟩ :=
    .look .start (.seeUnbuilt rfl)
  have hrest := @looks_rest .standard [(.ldaZero, none)] Opcode.all.tail
  simp only [get?_standard] at hrest
  exact ⟨_, (hfirst.goesTo hbuilds).looks hrest⟩

/-- The listing tells of a unit for every opcode but the first. -/
theorem listing_overtaken :
    ∃ (before race : Race Unit Unit Unit fun _ => CodeSpace) (listing : Listing),
      Reached id (fun _ => .direct none) [] before ∧ Listed id before race listing ∧
        listing.todo = [] ∧ listing.entries.map (·.2.isSome) = false :: List.replicate 14 true ∧
        ¬IsSnapshot listing.entries := by
  obtain ⟨race, hlisted⟩ := exists_overtaken
  refine ⟨_, race, _, .opening, hlisted, rfl, rfl, ?_⟩
  rintro (hnone | hsome)
  · cases hnone (.ldaSmi8, some (.standard .ldaSmi8)) (by simp [Opcode.all])
  · cases hsome _ List.mem_cons_self

theorem listing_changes_once_overtaken :
    ∃ (before race : Race Unit Unit Unit fun _ => CodeSpace) (listing : Listing),
      Reached id (fun _ => .direct none) [] before ∧ Listed id before race listing ∧
        listing.todo = [] ∧ ∃ unseen seen, unseen ++ seen = Opcode.all ∧
          listing.entries = unseen.map (·, none) ++
            seen.map (fun opcode => (opcode, race.table.get? opcode)) ∧
          (IsSnapshot listing.entries ↔ unseen = [] ∨ seen = []) := by
  obtain ⟨race, hlisted⟩ := exists_overtaken
  obtain ⟨unseen, seen, horder, hentries, -, hsnapshot, -⟩ :=
    listing_changes_once .opening hlisted rfl
  exact ⟨_, race, _, .opening, hlisted, rfl, unseen, seen, horder, hentries, hsnapshot⟩

end Race

end RegisterMachine
