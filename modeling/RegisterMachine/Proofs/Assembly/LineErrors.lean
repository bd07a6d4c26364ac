import RegisterMachine.Assembly.Program

/-!
# The first bad line

Reading a text ends with the statements of all its lines or with the error of one line. The lines
that declare the register count are the only ones that bear on others: of two declarations the
second is an error. `lineError?_readLines_append` says what reading some lines after others comes
to, and `readLines_of_no_error` that without an error the statements are those of the lines one by
one.
-/

namespace RegisterMachine.Assembly

/-- The bad line that an error reports: its number and what is wrong with it. -/
def lineError? {α : Type} : Except Error α → Option (Nat × LineError)
  | .error (.line number e) => some (number, e)
  | _ => none

/-- The statement of a line that is neither blank nor bad. -/
def statement? (line : List Char) : Option Statement :=
  match Statement.ofLine line with
  | .ok statement? => statement?
  | .error _ => none

def Statement.registerCount? : Statement → Option Nat
  | registers count => some count
  | _ => none

def declaredOn? (line : List Char) : Option Nat := (statement? line).bind Statement.registerCount?

/-- A line that is no statement by itself. -/
def IsBad (line : List Char) : Prop := ∃ e, Statement.ofLine line = .error e

/-- What is wrong with a line, where the register count is declared before it or is not. -/
def wrong? (declared : Bool) (line : List Char) : Option LineError :=
  match Statement.ofLine line with
  | .error e => some e
  | .ok _ => if declared && (declaredOn? line).isSome then some .duplicateRegisters else none

/-- The declarations among lines that are numbered from `number`: the number of the line and the
register count. -/
def declarationsFrom (number : Nat) : List (List Char) → List (Nat × Nat)
  | [] => []
  | line :: rest =>
    ((declaredOn? line).map (number, ·)).toList ++ declarationsFrom (number + 1) rest

def duplicate (declaration : Nat × Nat) : Nat × LineError := (declaration.1, .duplicateRegisters)

def earlier : Option (Nat × LineError) → Option (Nat × LineError) → Option (Nat × LineError)
  | some e, some e' => if e'.1 < e.1 then some e' else some e
  | some e, none => some e
  | none, e' => e'

/-- What stands on a line, when `k` lines are put in front of it. -/
def moved {α : Type} (k : Nat) (e : Nat × α) : Nat × α := (k + e.1, e.2)

@[simp] theorem earlier_none (e : Option (Nat × LineError)) : earlier e none = e := by
  cases e <;> rfl

theorem earlier_of_le {e : Nat × LineError} {e' : Option (Nat × LineError)}
    (h : ∀ d ∈ e', e.1 ≤ d.1) : earlier (some e) e' = some e := by
  cases e' with
  | none => rfl
  | some d => exact if_neg (Nat.not_lt.mpr (h d rfl))

theorem earlier_of_lt {e : Option (Nat × LineError)} {e' : Nat × LineError}
    (h : ∀ d ∈ e, e'.1 < d.1) : earlier e (some e') = some e' := by
  cases e with
  | none => rfl
  | some d => exact if_pos (h d rfl)

theorem isSome_earlier (e e' : Option (Nat × LineError)) :
    (earlier e e').isSome ↔ e.isSome ∨ e'.isSome := by
  fun_cases earlier <;> simp

theorem map_earlier (k : Nat) (e e' : Option (Nat × LineError)) :
    (earlier e e').map (moved k) = earlier (e.map (moved k)) (e'.map (moved k)) := by
  cases e with
  | none => rfl
  | some e =>
    cases e' with
    | none => rfl
    | some e' =>
      simp only [earlier, Option.map_some, moved, Nat.add_lt_add_iff_left]
      split <;> rfl

section Line

variable {line : List Char}

theorem isRegisters_eq (statement : Statement) :
    statement.isRegisters = statement.registerCount?.isSome := by
  cases statement <;> rfl

theorem declaredOn?_of_isBad (h : IsBad line) : declaredOn? line = none := by
  obtain ⟨e, he⟩ := h
  rw [declaredOn?, statement?, he]
  rfl

theorem isSome_wrong?_false : (wrong? false line).isSome ↔ IsBad line := by
  rw [wrong?, IsBad]
  cases Statement.ofLine line with
  | error e => simp
  | ok statement? => simp

/-- A declaration that comes too late is all that an earlier declaration makes wrong. -/
theorem wrong?_true :
    wrong? true line =
      (wrong? false line).or ((declaredOn? line).map fun _ => .duplicateRegisters) := by
  unfold wrong?
  cases Statement.ofLine line with
  | error e => rfl
  | ok statement? => cases declaredOn? line <;> rfl

theorem isSome_wrong?_true :
    (wrong? true line).isSome ↔ IsBad line ∨ (declaredOn? line).isSome := by
  rw [wrong?_true, Option.isSome_or, Bool.or_eq_true, isSome_wrong?_false, Option.isSome_map]

end Line

variable {number : Nat} {declared : Bool} {ls ls' : List (List Char)}

/-- Reading stops at a line that is wrong and keeps the statement of another. -/
theorem readLines_cons (number : Nat) (declared : Bool) (line : List Char)
    (ls : List (List Char)) :
    readLines number declared (line :: ls) =
      match wrong? declared line with
      | some e => .error (.line number e)
      | none =>
        ((statement? line).toList ++ ·) <$>
          readLines (number + 1) (declared || (declaredOn? line).isSome) ls := by
  rw [readLines, wrong?, declaredOn?, statement?]
  cases Statement.ofLine line with
  | error e => rfl
  | ok statement? =>
    cases statement? with
    | none =>
      simp only [Option.bind_none, Option.isSome_none, Bool.and_false, Bool.or_false]
      cases readLines (number + 1) declared ls <;> rfl
    | some statement =>
      simp only [Option.bind_some, ← isRegisters_eq, Bool.and_comm declared]
      cases statement.isRegisters && declared with
      | true => rfl
      | false => cases readLines (number + 1) (declared || statement.isRegisters) ls <;> rfl

theorem lineError?_map {α β : Type} (f : α → β) (result : Except Error α) :
    lineError? (f <$> result) = lineError? result := by
  cases result with
  | ok a => rfl
  | error e => cases e <;> rfl

@[simp] theorem lineError?_readLines_nil : lineError? (readLines number declared []) = none := rfl

theorem lineError?_readLines_cons (number : Nat) (declared : Bool) (line : List Char)
    (ls : List (List Char)) :
    lineError? (readLines number declared (line :: ls)) =
      ((wrong? declared line).map (number, ·)).or
        (lineError? (readLines (number + 1) (declared || (declaredOn? line).isSome) ls)) := by
  rw [readLines_cons]
  cases wrong? declared line with
  | some e => rfl
  | none => exact lineError?_map _ _

/-- Without a bad line the statements of all lines are read, and no error is left. -/
theorem readLines_of_no_error (h : lineError? (readLines number declared ls) = none) :
    readLines number declared ls = .ok (ls.filterMap statement?) := by
  induction ls generalizing number declared with
  | nil => rfl
  | cons line rest ih =>
    rw [lineError?_readLines_cons, Option.or_eq_none_iff, Option.map_eq_none_iff] at h
    rw [readLines_cons, h.1, ih h.2, List.filterMap_cons]
    cases statement? line <;> rfl

/-! ### Lines put in front -/

theorem lineError?_readLines_add (k number : Nat) (declared : Bool) (ls : List (List Char)) :
    lineError? (readLines (k + number) declared ls) =
      (lineError? (readLines number declared ls)).map (moved k) := by
  induction ls generalizing number declared with
  | nil => rfl
  | cons line rest ih =>
    rw [lineError?_readLines_cons, lineError?_readLines_cons, Nat.add_assoc, ih]
    cases wrong? declared line <;> rfl

theorem declarationsFrom_add (k number : Nat) (ls : List (List Char)) :
    declarationsFrom (k + number) ls = (declarationsFrom number ls).map (moved k) := by
  induction ls generalizing number with
  | nil => rfl
  | cons line rest ih =>
    rw [declarationsFrom, declarationsFrom, Nat.add_assoc, ih]
    cases declaredOn? line <;> rfl

theorem le_of_lineError? {e : Nat × LineError}
    (h : lineError? (readLines number declared ls) = some e) : number ≤ e.1 := by
  rw [← Nat.add_zero number, lineError?_readLines_add, Option.map_eq_some_iff] at h
  obtain ⟨e', _, rfl⟩ := h
  exact Nat.le_add_right _ _

theorem le_of_mem_declarationsFrom {d : Nat × Nat} (h : d ∈ declarationsFrom number ls) :
    number ≤ d.1 := by
  rw [← Nat.add_zero number, declarationsFrom_add, List.mem_map] at h
  obtain ⟨d', _, rfl⟩ := h
  exact Nat.le_add_right _ _

/-- An earlier declaration makes an error of the first declaration among the lines, unless a line
before it is bad. -/
theorem lineError?_readLines_true (number : Nat) (ls : List (List Char)) :
    lineError? (readLines number true ls) =
      earlier (lineError? (readLines number false ls))
        ((declarationsFrom number ls).head?.map duplicate) := by
  induction ls generalizing number with
  | nil => rfl
  | cons line rest ih =>
    have hlate : ∀ d ∈ (declarationsFrom (number + 1) rest).head?, number + 1 ≤ d.1 :=
      fun d hd => le_of_mem_declarationsFrom (List.mem_of_head? hd)
    rw [lineError?_readLines_cons, lineError?_readLines_cons, wrong?_true, declarationsFrom]
    cases hwrong : wrong? false line with
    | some e =>
      have hdeclared : declaredOn? line = none :=
        declaredOn?_of_isBad (isSome_wrong?_false.mp (hwrong ▸ rfl))
      -- All declarations stand behind the bad line.
      rw [hdeclared]
      refine (earlier_of_le ?_).symm
      intro d hd
      obtain ⟨d', hd', rfl⟩ := Option.map_eq_some_iff.mp hd
      exact Nat.le_of_succ_le (hlate d' hd')
    | none =>
      cases hdeclared : declaredOn? line with
      | none => exact ih (number + 1)
      | some count =>
        -- The declaration comes too late, whatever stands behind it.
        refine (earlier_of_lt ?_).symm
        intro e he
        exact le_of_lineError? he

/-- Lines read after others: the first bad line among those in front, or else the first of the
others, which may come too late to declare the register count. -/
theorem lineError?_readLines_append (number : Nat) (declared : Bool)
    (ls ls' : List (List Char)) :
    lineError? (readLines number declared (ls ++ ls')) =
      (lineError? (readLines number declared ls)).or
        (lineError? (readLines (number + ls.length)
          (declared || !(declarationsFrom number ls).isEmpty) ls')) := by
  induction ls generalizing number declared with
  | nil => rw [declarationsFrom, List.isEmpty_nil, Bool.not_true, Bool.or_false]; rfl
  | cons line rest ih =>
    rw [List.cons_append, lineError?_readLines_cons, lineError?_readLines_cons, ih,
      Option.or_assoc, List.length_cons, Nat.add_assoc, Nat.add_comm 1, declarationsFrom,
      Bool.or_assoc]
    cases declaredOn? line <;> rfl

/-- Lines have a bad one exactly if one is bad by itself or two declare the register count. -/
theorem isSome_lineError?_readLines :
    (lineError? (readLines number declared ls)).isSome ↔
      (∃ line ∈ ls, IsBad line) ∨ 2 ≤ (declarationsFrom number ls).length + declared.toNat := by
  induction ls generalizing number declared with
  | nil => cases declared <;> simp [declarationsFrom]
  | cons line rest ih =>
    have hbad : (∃ line' ∈ line :: rest, IsBad line') ↔
        IsBad line ∨ ∃ line' ∈ rest, IsBad line' := by
      simp
    rw [lineError?_readLines_cons, Option.isSome_or, Option.isSome_map, Bool.or_eq_true, ih, hbad,
      declarationsFrom, List.length_append]
    cases declared with
    | false =>
      rw [isSome_wrong?_false, or_assoc]
      cases declaredOn? line <;> simp [Nat.add_comm]
    | true =>
      rw [isSome_wrong?_true]
      cases declaredOn? line with
      | none => simp [or_assoc]
      | some count =>
        refine iff_of_true (Or.inl (Or.inr rfl)) (Or.inr ?_)
        simp only [Option.map_some, Option.toList_some, List.length_singleton, Bool.toNat_true]
        omega

end RegisterMachine.Assembly
