import RegisterMachine.Proofs.Assembly.Drafting
import RegisterMachine.Proofs.Assembly.LineErrors
import RegisterMachine.Proofs.Text.Words

/-!
# Texts put together

A text of two texts, with a line feed between them, assembles to the code of the first followed by
the code of the second. A bad line of the first is the error of the whole whatever comes after it.
The two meet in three things only: line numbers go on, the register count is declared once, and the
limits of the encoding are checked when all lines have been read.
-/

namespace RegisterMachine.Assembly

/-- The lines of a text that declare the register count, with the count. -/
def declarations (text : String) : List (Nat × Nat) := declarationsFrom 1 (Text.lines text.toList)

/-- The register count that a text declares; only a text with a bad line declares more than one. -/
def declaredCount? (text : String) : Option Nat := (declarations text).getLast?.map Prod.snd

/-- The statements of the lines of a text that are not bad. -/
def programOf (text : String) : List Statement := (Text.lines text.toList).filterMap statement?

def joined (first second : String) : String := first ++ "\n" ++ second

/-- How many lines are in front of a text that comes after another. -/
def linesOf (text : String) : Nat := 1 + text.toList.count '\n'

variable {first second text : String} {code more : Bytecode}

theorem lines_joined (first second : String) :
    Text.lines (joined first second).toList =
      Text.lines first.toList ++ Text.lines second.toList := by
  rw [joined, String.toList_append, String.toList_append, List.append_assoc]
  exact Text.lines_append _ _

theorem programOf_joined (first second : String) :
    programOf (joined first second) = programOf first ++ programOf second := by
  rw [programOf, lines_joined, List.filterMap_append]
  rfl

theorem lineError?_assemble (text : String) :
    lineError? (assemble text) = lineError? (readLines 1 false (Text.lines text.toList)) := by
  rw [assemble, statements]
  cases readLines 1 false (Text.lines text.toList) with
  | error e => cases e <;> rfl
  | ok program =>
    change lineError? ((draftOf program).finish.mapError Error.encode) = none
    cases (draftOf program).finish <;> rfl

theorem assemble_of_lineError? {e : Nat × LineError} (h : lineError? (assemble text) = some e) :
    assemble text = .error (.line e.1 e.2) := by
  cases hassemble : assemble text with
  | ok code =>
    rw [hassemble] at h
    cases h
  | error e' =>
    rw [hassemble] at h
    cases e' with
    | line number error =>
      cases h
      rfl
    | encode error => cases h

theorem assemble_of_no_lineError (h : lineError? (assemble text) = none) :
    assemble text = (draftOf (programOf text)).finish.mapError .encode := by
  rw [lineError?_assemble] at h
  rw [assemble, statements, readLines_of_no_error h]
  rfl

theorem lineError?_of_ok (h : assemble text = .ok code) : lineError? (assemble text) = none := by
  rw [h]
  rfl

theorem finish_of_ok (h : assemble text = .ok code) :
    (draftOf (programOf text)).finish = .ok code := by
  rw [assemble_of_no_lineError (lineError?_of_ok h)] at h
  cases hfinish : (draftOf (programOf text)).finish with
  | ok code' =>
    rw [hfinish] at h
    exact congrArg _ (Except.ok.inj h)
  | error e =>
    rw [hfinish] at h
    cases h

theorem lineError?_joined (first second : String) :
    lineError? (assemble (joined first second)) =
      (lineError? (assemble first)).or
        ((lineError? (readLines 1 (!(declarations first).isEmpty)
          (Text.lines second.toList))).map (moved (linesOf first))) := by
  rw [lineError?_assemble, lineError?_assemble, lines_joined, lineError?_readLines_append,
    Bool.false_or, Text.length_lines, Nat.add_comm 1, lineError?_readLines_add]
  rfl

/-- A text has a bad line exactly if a line is bad by itself or two lines declare the register
count. -/
theorem isSome_lineError?_assemble (text : String) :
    (lineError? (assemble text)).isSome ↔
      (∃ line ∈ Text.lines text.toList, IsBad line) ∨ 2 ≤ (declarations text).length := by
  rw [lineError?_assemble, isSome_lineError?_readLines, Bool.toNat_false, Nat.add_zero]
  rfl

/-- The error of the second text in its place, or a declaration there that comes after one of the
first text. -/
theorem lineError?_joined_of_none (h : lineError? (assemble first) = none) :
    lineError? (assemble (joined first second)) =
      earlier ((lineError? (assemble second)).map (moved (linesOf first)))
        (if declarations first = [] then none
          else (declarations second).head?.map (duplicate ∘ moved (linesOf first))) := by
  rw [lineError?_joined, h, Option.none_or, lineError?_assemble second]
  cases declarations first with
  | nil =>
    rw [if_pos rfl, earlier_none]
    rfl
  | cons d rest =>
    rw [if_neg (List.cons_ne_nil d rest), List.isEmpty_cons, Bool.not_false,
      lineError?_readLines_true, map_earlier, Option.map_map]
    rfl

theorem isSome_lineError?_joined (h : lineError? (assemble first) = none) :
    (lineError? (assemble (joined first second))).isSome ↔
      (lineError? (assemble second)).isSome ∨
        (declarations first ≠ [] ∧ declarations second ≠ []) := by
  rw [lineError?_joined_of_none h, isSome_earlier, Option.isSome_map]
  by_cases hfirst : declarations first = []
  · simp [hfirst]
  · simp [hfirst]

/-- The register count that lines declare last is the one that their statements declare. -/
theorem declared?_draftOf (number : Nat) (ls : List (List Char)) :
    (draftOf (ls.filterMap statement?)).declared? =
      (declarationsFrom number ls).getLast?.map Prod.snd := by
  induction ls generalizing number with
  | nil => rfl
  | cons line rest ih =>
    rw [List.filterMap_cons, declarationsFrom, List.getLast?_append, Option.map_or, ← ih,
      declaredOn?]
    cases statement? line with
    | none => exact (Option.or_none).symm
    | some statement =>
      dsimp only
      rw [draftOf_cons]
      change (draftOf (rest.filterMap statement?)).declared?.or
        (Statement.addTo .empty statement).declared? = _
      cases statement <;> rfl

theorem declared?_programOf (text : String) :
    (draftOf (programOf text)).declared? = declaredCount? text :=
  declared?_draftOf 1 _

theorem assemble_joined_of_ok (hfirst : assemble first = .ok code)
    (hsecond : assemble second = .ok more)
    (hone : declarations first = [] ∨ declarations second = []) :
    assemble (joined first second) =
      if code.constants.size + more.constants.size > maxConstants then
        .error (.encode (.constantPoolFull maxConstants))
      else
        .ok ⟨code.bytes ++ more.bytes,
          ((declaredCount? first).or (declaredCount? second)).getD
            (max code.registerCount more.registerCount),
          code.constants ++ more.constants⟩ := by
  have hjoined : lineError? (assemble (joined first second)) = none := by
    rw [← Option.not_isSome_iff_eq_none, isSome_lineError?_joined (lineError?_of_ok hfirst),
      lineError?_of_ok hsecond]
    rintro (hnone | ⟨hdeclares, hdeclares'⟩)
    · cases hnone
    · exact hone.elim hdeclares hdeclares'
  have hdeclared : (draftOf (programOf first)).declared? = none ∨
      (draftOf (programOf second)).declared? = none := by
    rw [declared?_programOf, declared?_programOf, declaredCount?, declaredCount?]
    refine hone.imp ?_ ?_
    · rintro h
      rw [h]
      rfl
    · rintro h
      rw [h]
      rfl
  rw [assemble_of_no_lineError hjoined, programOf_joined, draftOf_append,
    Draft.finish_followedBy (finish_of_ok hfirst) (finish_of_ok hsecond) hdeclared,
    declared?_programOf, declared?_programOf]
  split <;> rfl

/-- Assembling two texts that are put together. A bad line of the first is the error of both. After
a first text without one, the error is that of the second text in its place or, if it is earlier and
the first text declares the register count, the first declaration in the second. A text with a bad
line is never found to exceed a limit instead. Otherwise the code of the second text is put behind
that of the first. -/
theorem assemble_joined (first second : String) :
    (∀ number e, assemble first = .error (.line number e) →
      assemble (joined first second) = .error (.line number e)) ∧
    (lineError? (assemble first) = none →
      ((lineError? (assemble (joined first second))).isSome ↔
        (lineError? (assemble second)).isSome ∨
          (declarations first ≠ [] ∧ declarations second ≠ [])) ∧
      lineError? (assemble (joined first second)) =
        earlier ((lineError? (assemble second)).map (moved (linesOf first)))
          (if declarations first = [] then none
            else (declarations second).head?.map (duplicate ∘ moved (linesOf first)))) ∧
    (∀ text, (lineError? (assemble text)).isSome ↔
      (∃ line ∈ Text.lines text.toList, IsBad line) ∨ 2 ≤ (declarations text).length) ∧
    ∀ code more, assemble first = .ok code → assemble second = .ok more →
      declarations first = [] ∨ declarations second = [] →
      assemble (joined first second) =
        if code.constants.size + more.constants.size > maxConstants then
          .error (.encode (.constantPoolFull maxConstants))
        else
          .ok ⟨code.bytes ++ more.bytes,
            ((declaredCount? first).or (declaredCount? second)).getD
              (max code.registerCount more.registerCount),
            code.constants ++ more.constants⟩ := by
  refine ⟨?_, ?_, isSome_lineError?_assemble, ?_⟩
  · intro number e h
    have herror : lineError? (assemble (joined first second)) = some (number, e) := by
      rw [lineError?_joined, h]
      rfl
    exact assemble_of_lineError? herror
  · exact fun h => ⟨isSome_lineError?_joined h, lineError?_joined_of_none h⟩
  · exact fun code more => assemble_joined_of_ok

/-- Both texts declare the register count; the second declaration is on the fourth line. -/
example :
    declarations ".registers 2\nReturn" = [(1, 2)] ∧
      declarations "; three\n.registers 3" = [(2, 3)] ∧
      lineError? (assemble (joined ".registers 2\nReturn" "; three\n.registers 3")) =
        some (4, .duplicateRegisters) := by
  decide +kernel

/-- The second line of the second text is bad. -/
example :
    IsBad "Ldar".toList ∧
      lineError? (assemble (joined "LdaZero" "Return\nLdar")) =
        some (3, .missingOperand "Ldar" 1) :=
  ⟨⟨_, rfl⟩, by decide +kernel⟩

end RegisterMachine.Assembly
