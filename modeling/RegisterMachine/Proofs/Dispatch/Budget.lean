import RegisterMachine.Proofs.Dispatch.Direct
import RegisterMachine.Proofs.Dispatch.Workshop

/-!
# A budget of units

A builder over the direct emitter with room for `n` units shares its tables with other builders.
Only fresh tables cost it anything. Each of its passes takes fifteen units as long as there are so
many; the pass that finds fewer takes those that are left and fails at the opcode whose unit is
missing, and every later pass fails at the first opcode. `Budgeted` is what one request keeps.
-/

namespace RegisterMachine

def DispatchTable.Fresh (table : DispatchTable) : Prop :=
  table.built = false ∧ table.failure? = none

instance (table : DispatchTable) : Decidable table.Fresh :=
  inferInstanceAs (Decidable (table.built = false ∧ table.failure? = none))

theorem DispatchTable.settled_of_not_fresh {table : DispatchTable} (h : ¬ table.Fresh) :
    table.Settled := by
  cases hb : table.built with
  | true => exact Or.inl hb
  | false =>
    cases hf : table.failure? with
    | some e => exact Or.inr ⟨e, hf⟩
    | none => exact absurd ⟨hb, hf⟩ h

/-- What the pass after `passes` others comes to, with room for `n` units in all. -/
def budgetAnswer (n passes : Nat) : BuildAnswer :=
  if passes < n / 15 then .ok (.built 15)
  else if passes = n / 15 then
    .error (.emission (.codeSpaceExhausted (Opcode.all.get ⟨n % 15, Nat.mod_lt n (by decide)⟩) n))
  else .error (.emission (.codeSpaceExhausted .ldaZero n))

theorem le_of_budgetAnswer {n passes : Nat} {e : BuildError}
    (h : budgetAnswer n passes = .error e) : n / 15 ≤ passes := by
  unfold budgetAnswer at h
  split at h
  · cases h
  · next hlt => exact Nat.not_lt.mp hlt

def passAnswer {α : Type} : Except EmissionError α → BuildAnswer
  | .ok _ => .ok (.built 15)
  | .error e => .error (.emission e)

namespace Emitter

variable {space : CodeSpace} {n : Nat}

theorem direct_emit_exhausted (opcode : Opcode) (hn : space.capacity? = some n)
    (he : n ≤ space.emitted) :
    Emitter.direct.emit opcode (.of opcode) space =
      (.error (.codeSpaceExhausted opcode n), space) := by
  have hx : space.exhausted? = some n := by simp [CodeSpace.exhausted?, hn, he]
  simp only [direct, Contract.of, ne_eq, not_true_eq_false, if_false, hx]

theorem direct_emit_within (opcode : Opcode) (hn : space.capacity? = some n)
    (he : space.emitted < n) :
    Emitter.direct.emit opcode (.of opcode) space =
      (.ok (.standard opcode), { space with emitted := space.emitted + 1 }) := by
  have hx : space.exhausted? = none := by simp [CodeSpace.exhausted?, hn, he]
  exact direct_emit_of_room opcode hx

/-- A pass for which there is room. -/
theorem direct_stage_within {opcodes : List Opcode} (hn : space.capacity? = some n)
    (he : space.emitted + opcodes.length ≤ n) :
    ∃ staged, Emitter.direct.stage opcodes space =
      (.ok staged, { space with emitted := space.emitted + opcodes.length }) := by
  induction opcodes generalizing space with
  | nil => exact ⟨([], []), rfl⟩
  | cons opcode rest ih =>
    rw [List.length_cons] at he
    obtain ⟨staged, hs⟩ := @ih { space with emitted := space.emitted + 1 } hn (by simp only; omega)
    have hcons := stage_of_supplied (direct_emit_within opcode hn (by omega)) rfl hs
    rw [Nat.add_assoc, Nat.add_comm 1] at hcons
    exact ⟨_, hcons⟩

/-- A pass whose room ends before one of its opcodes. -/
theorem direct_stage_exhausted {opcodes : List Opcode} {i : Nat} {opcode : Opcode}
    (hn : space.capacity? = some n) (hi : opcodes[i]? = some opcode) (he : space.emitted + i = n) :
    Emitter.direct.stage opcodes space =
      (.error (.codeSpaceExhausted opcode n), { space with emitted := n }) := by
  induction opcodes generalizing space i with
  | nil => cases hi
  | cons first rest ih =>
    cases i with
    | zero =>
      obtain rfl : first = opcode := Option.some.inj hi
      obtain rfl : space.emitted = n := he
      rw [stage, direct_emit_exhausted first hn (Nat.le_refl _)]
    | succ i =>
      have hs := @ih { space with emitted := space.emitted + 1 } i hn hi (by simp only; omega)
      exact stage_of_supplied (direct_emit_within first hn (by omega)) rfl hs

/-- No emission takes more than the room that there is. -/
theorem emitted_direct_stage_le (opcodes : List Opcode) (hn : space.capacity? = some n)
    (he : space.emitted ≤ n) : (Emitter.direct.stage opcodes space).2.emitted ≤ n := by
  by_cases hroom : space.emitted + opcodes.length ≤ n
  · obtain ⟨staged, hs⟩ := direct_stage_within hn hroom
    rw [hs]
    exact hroom
  · have hlt : n - space.emitted < opcodes.length := by omega
    rw [direct_stage_exhausted hn (List.getElem?_eq_getElem hlt) (by omega)]

/-- A pass over all opcodes, with what `passes` others have left of the room. -/
theorem direct_stage_all (hn : space.capacity? = some n) {passes : Nat}
    (he : space.emitted = min n (15 * passes)) :
    ∃ result, Emitter.direct.stage Opcode.all space =
        (result, { space with emitted := min n (15 * (passes + 1)) }) ∧
      passAnswer result = budgetAnswer n passes := by
  unfold budgetAnswer
  rcases Nat.lt_trichotomy passes (n / 15) with hlt | heq | hgt
  · have hafter : min n (15 * (passes + 1)) = space.emitted + Opcode.all.length := by
      change _ = space.emitted + 15
      omega
    obtain ⟨staged, hs⟩ := direct_stage_within hn (hafter ▸ Nat.min_le_left _ _)
    rw [if_pos hlt, hafter]
    exact ⟨_, hs, rfl⟩
  · have hafter : min n (15 * (passes + 1)) = n := by omega
    have hs := @direct_stage_exhausted space n Opcode.all (n % 15) _ hn
      (List.getElem?_eq_getElem (Nat.mod_lt n (by decide))) (by omega)
    rw [if_neg (by omega), if_pos heq, hafter]
    exact ⟨_, hs, rfl⟩
  · have hafter : min n (15 * (passes + 1)) = n := by omega
    have hs := @direct_stage_exhausted space n Opcode.all 0 _ hn rfl (by omega)
    rw [if_neg (by omega), if_neg (by omega), hafter]
    exact ⟨_, hs, rfl⟩

end Emitter

namespace TableBuilder

variable {σ : Type} {builder : TableBuilder σ} {table : DispatchTable} {state : σ}

/-- A fresh table costs one pass, and the pass decides the answer. -/
theorem ensureBuilt_of_fresh {result : Except EmissionError (List CodeUnit × List UInt8)}
    (hf : table.Fresh)
    (hs : builder.emitter.stage Opcode.all builder.state = (result, state)) :
    ∃ next, builder.ensureBuilt table =
      (passAnswer result, { builder with state, passes := builder.passes + 1 }, next) := by
  have he := builder.ensures table
  generalize builder.ensureBuilt table = answered at he
  cases he with
  | alreadyBuilt hb => simp [hf.1] at hb
  | previouslyFailed hb hf' => simp [hf.2] at hf'
  | built hb hf' hs' =>
    cases hs.symm.trans hs'
    exact ⟨_, rfl⟩
  | failed hb hf' hs' =>
    cases hs.symm.trans hs'
    exact ⟨_, rfl⟩

/-- A builder over the direct emitter that had room for `n` units and has spent it on passes. -/
structure Budgeted (n : Nat) (builder : TableBuilder CodeSpace) : Prop where
  emitter : builder.emitter = .direct
  capacity : builder.state.capacity? = some n
  emitted : builder.state.emitted = min n (15 * builder.passes)

theorem Budgeted.request {n : Nat} {builder : TableBuilder CodeSpace} (h : builder.Budgeted n)
    (hf : table.Fresh) :
    (builder.ensureBuilt table).1 = budgetAnswer n builder.passes ∧
      (builder.ensureBuilt table).2.1.Budgeted n ∧
      (builder.ensureBuilt table).2.1.passes = builder.passes + 1 := by
  obtain ⟨result, hs, hanswer⟩ := Emitter.direct_stage_all h.capacity h.emitted
  rw [← h.emitter] at hs
  obtain ⟨next, he⟩ := ensureBuilt_of_fresh hf hs
  rw [he]
  exact ⟨hanswer, ⟨h.emitter, h.capacity, rfl⟩, rfl⟩

end TableBuilder

namespace Workshop

variable {β τ : Type} [DecidableEq β] [DecidableEq τ] {σ : β → Type}

/-- The answers of one builder to the requests that reach it for tables that are fresh then. -/
def passAnswers (w : Workshop β τ σ) (b : β) : List (Request β τ) → List BuildAnswer
  | [] => []
  | r :: rest =>
    if r.builder = b ∧ (w.tables r.table).Fresh then
      (w.request r).1 :: (w.request r).2.passAnswers b rest
    else (w.request r).2.passAnswers b rest

theorem builders_request_self (w : Workshop β τ σ) (r : Request β τ) :
    (w.request r).2.builders r.builder =
      ((w.builders r.builder).ensureBuilt (w.tables r.table)).2.1 :=
  Function.update_self ..

/-- A builder is left as it is by what others are asked, and by requests for tables that are not
fresh. -/
theorem builders_request_of_not {w : Workshop β τ σ} {r : Request β τ} {b : β}
    (h : ¬ (r.builder = b ∧ (w.tables r.table).Fresh)) :
    (w.request r).2.builders b = w.builders b := by
  by_cases hb : r.builder = b
  · rw [request_eq (DispatchTable.settled_of_not_fresh fun hf => h ⟨hb, hf⟩)]
  · exact Function.update_of_ne (Ne.symm hb) ..

/-- What each pass of a builder keeps and answers, told by the number of its passes, its passes keep
and answer along any requests. -/
theorem passAnswers_eq {b : β} {kept : TableBuilder (σ b) → Prop} {answer : Nat → BuildAnswer}
    (hpass : ∀ builder table, kept builder → table.Fresh →
      (builder.ensureBuilt table).1 = answer builder.passes ∧
        kept (builder.ensureBuilt table).2.1 ∧
        (builder.ensureBuilt table).2.1.passes = builder.passes + 1)
    {w : Workshop β τ σ} (h : kept (w.builders b)) (requests : List (Request β τ)) :
    w.passAnswers b requests =
        (List.range' (w.builders b).passes (w.passAnswers b requests).length).map answer ∧
      kept ((w.after requests).builders b) ∧
      ((w.after requests).builders b).passes =
        (w.builders b).passes + (w.passAnswers b requests).length := by
  induction requests generalizing w with
  | nil => exact ⟨rfl, h, rfl⟩
  | cons r rest ih =>
    rw [passAnswers]
    by_cases hr : r.builder = b ∧ (w.tables r.table).Fresh
    · obtain ⟨rfl, hfresh⟩ := hr
      obtain ⟨hanswer, hnext, hpasses⟩ := hpass _ _ h hfresh
      rw [← builders_request_self] at hnext hpasses
      obtain ⟨hrest, hafter, hcount⟩ := ih hnext
      rw [hpasses] at hrest hcount
      rw [if_pos ⟨rfl, hfresh⟩, List.length_cons, List.range'_succ, List.map_cons]
      exact ⟨congrArg₂ _ hanswer hrest, hafter, hcount.trans (Nat.add_right_comm ..)⟩
    · rw [if_neg hr, ← builders_request_of_not hr]
      rw [← builders_request_of_not hr] at h
      exact ih h

abbrev Besides (σ : β → Type) (b : Option β) : Type := b.elim CodeSpace σ

def openingBesides (n : Nat) (emitters : (b : β) → Emitter (σ b)) (states : (b : β) → σ b) :
    Workshop (Option β) τ (Besides σ) :=
  opening
    (fun
      | none => .direct
      | some b => emitters b)
    fun
      | none => ({ capacity? := some n } : CodeSpace)
      | some b => states b

/-- A budget of `n` units lasts for `n / 15` tables, whatever other builders do with the same
tables. Of the requests that find their table fresh the first ones build it; the next fails at the
opcode whose number is what is left of the budget, and all later ones at the first opcode. No more
than `n` units are emitted, not even in the middle of a pass, and all of them once a pass has
failed. A request that does not find its table fresh costs nothing. -/
theorem budget_exact (n : Nat) (emitters : (b : β) → Emitter (σ b)) (states : (b : β) → σ b)
    (requests : List (Request (Option β) τ)) :
    let first : Workshop (Option β) τ (Besides σ) := openingBesides n emitters states
    let now := first.after requests
    let builder : TableBuilder CodeSpace := now.builders none
    let answers := first.passAnswers none requests
    answers = (List.range answers.length).map (budgetAnswer n) ∧
    builder.passes = answers.length ∧
    builder.state.emitted ≤ n ∧
    (∀ opcodes, (builder.emitter.stage opcodes builder.state).2.emitted ≤ n) ∧
    ((∃ e, .error e ∈ answers) → builder.state.emitted = n) ∧
    ∀ r, r.builder = none → ¬ (now.tables r.table).Fresh →
      (now.request r).2.builders none = builder := by
  intro first now builder answers
  have hopening : TableBuilder.Budgeted n (first.builders none) :=
    ⟨rfl, rfl, (Nat.min_zero n).symm⟩
  obtain ⟨hanswers, hbudget, hcount⟩ := passAnswers_eq
    (fun _ _ => TableBuilder.Budgeted.request) hopening requests
  have hzero : (first.builders none).passes = 0 := rfl
  rw [hzero, ← List.range_eq_range'] at hanswers
  have hpasses : builder.passes = answers.length := hcount.trans (Nat.zero_add _)
  have hle : builder.state.emitted ≤ n := hbudget.emitted ▸ Nat.min_le_left _ _
  refine ⟨hanswers, hpasses, hle, fun opcodes => ?_, ?_, fun r _ hf => ?_⟩
  · rw [hbudget.emitter]
    exact Emitter.emitted_direct_stage_le opcodes hbudget.capacity hle
  · rintro ⟨e, he⟩
    have hmem : .error e ∈ (List.range answers.length).map (budgetAnswer n) := hanswers ▸ he
    obtain ⟨passes, hlt, hanswer⟩ := List.mem_map.mp hmem
    have hlt := List.mem_range.mp hlt
    have hfailed := le_of_budgetAnswer hanswer
    have hspent : n ≤ 15 * builder.passes := by omega
    exact hbudget.emitted.trans (Nat.min_eq_left hspent)
  · exact builders_request_of_not fun h => hf h.2

end Workshop

end RegisterMachine
