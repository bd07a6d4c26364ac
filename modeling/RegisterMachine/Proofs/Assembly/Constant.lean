import RegisterMachine.Assembly.Statement
import RegisterMachine.Proofs.Assembly.Token
import RegisterMachine.Proofs.Binary64.Literal

/-!
# Literals of constants

The literal of a constant is one word, and the assembler reads the constant back from it, a double
bit by bit. Only NaNs are not told apart: all of them are read as the quiet one without payload.
-/

namespace RegisterMachine

open Text Assembly

/-- A value with the quiet NaN without payload in place of any other NaN. -/
def Value.mergeNaN : Value → Value
  | number x => if x.isNaN then number .nan else number x
  | value => value

namespace Assembly

theorem signed?_eq_none {bits : Nat} {word : List Char} (h : Numeral.integer? word = none) :
    Numeral.signed? bits word = none := by
  rw [Numeral.signed?, h]
  rfl

theorem numericConstant?_of_isNumeral {word : List Char} {d : Decimal}
    (h : Decimal.IsNumeral word d) :
    numericConstant? word = some (.number ⟨false, d.magnitude⟩) ∧
      numericConstant? ('-' :: word) = some (.number ⟨true, d.magnitude⟩) := by
  obtain ⟨hplus, hminus⟩ := Binary64.ofText?_of_isNumeral h
  have hdecimal := h.decimal?_eq_none
  have hword : Numeral.integer? word = none := by
    obtain ⟨first, rest, rfl, hfirst⟩ := h.exists_digit
    rw [Numeral.integer?_of_isDigit hfirst, hdecimal, Option.map_none]
  have hsigned : Numeral.integer? ('-' :: word) = none := by
    rw [Numeral.integer?, hdecimal, Option.map_none]
  constructor
  · rw [numericConstant?, signed?_eq_none hword]
    dsimp only
    rw [hplus, Option.map_some]
  · rw [numericConstant?, signed?_eq_none hsigned]
    dsimp only
    rw [hminus, Option.map_some]

def ReadsAs (word : List Char) (value : Value) : Prop :=
  IsWord word ∧ ∃ token, Token.ofWord word = .ok token ∧ constantOf token = .ok value

theorem readsAs_number {word : List Char} {value : Value} (hword : IsWord word)
    (htoken : Token.ofWord word = .ok (.number word))
    (hvalue : numericConstant? word = some value) : ReadsAs word value := by
  refine ⟨hword, _, htoken, ?_⟩
  rw [constantOf, hvalue, Option.elim_some]

theorem readsAs_name {word : List Char} {value : Value} (hne : word ≠ [])
    (hplain : word.all isPlain = true) (htoken : Token.ofWord word = .ok (.name word))
    (hvalue : namedConstant? word = some value) : ReadsAs word value := by
  refine ⟨isWord_of_all hne hplain, _, htoken, ?_⟩
  rw [constantOf, hvalue, Option.elim_some]

theorem readsAs_small (n : Int32) : ReadsAs (toString n.toInt).toList (.small n) := by
  have hsigned : Numeral.signed? 32 (toString n.toInt).toList = some n.toInt :=
    Numeral.signed?_toString ⟨n.le_toInt, n.toInt_lt⟩
  refine readsAs_number (Numeral.isWord_toString_int _) (Token.ofWord_toString_int _) ?_
  rw [numericConstant?, hsigned]
  dsimp only
  rw [Int32.ofInt_toInt]

theorem readsAs_infinity (negative : Bool) :
    ReadsAs ((if negative then "-" else "") ++ "inf").toList (.number (.infinity negative)) := by
  cases negative with
  | false => exact readsAs_name (by decide) (by decide) rfl (by decide)
  | true =>
    exact readsAs_number (isWord_of_all (by decide) (by decide))
      (Token.ofWord_number (Or.inr rfl)) (by decide)

theorem readsAs_finite {x : Binary64} (h : x.isFinite) :
    ReadsAs ((if x.negative then "-" else "") ++ String.ofList x.shortest.literal).toList
      (.number x) := by
  obtain ⟨d, hnumeral, hmagnitude⟩ := Decimal.isNumeral_literal (Binary64.order_shortest h)
  rw [Binary64.magnitude_shortest h] at hmagnitude
  obtain ⟨hplus, hminus⟩ := numericConstant?_of_isNumeral hnumeral
  rw [hmagnitude] at hplus hminus
  obtain ⟨first, rest, heq, hfirst⟩ := hnumeral.exists_digit
  have hplain := hnumeral.plain
  rw [String.toList_append, String.toList_ofList]
  rw [heq] at hplain hplus hminus ⊢
  obtain ⟨negative, magnitude⟩ := x
  cases negative with
  | false =>
    exact readsAs_number ⟨List.cons_ne_nil _ _, hplain⟩ (Token.ofWord_number (Or.inl hfirst)) hplus
  | true =>
    have hsign : "-".toList = ['-'] := rfl
    rw [if_pos rfl, hsign]
    exact readsAs_number (isWord_cons (by decide) hplain) (Token.ofWord_number (Or.inr rfl)) hminus

theorem readsAs_literal (value : Value) : ReadsAs value.literal.toList value.mergeNaN := by
  cases value with
  | undefined => exact readsAs_name (by decide) (by decide) rfl (by decide)
  | null => exact readsAs_name (by decide) (by decide) rfl (by decide)
  | hole => exact readsAs_name (by decide) (by decide) rfl (by decide)
  | boolean b =>
    cases b with
    | false => exact readsAs_name (by decide) (by decide) rfl (by decide)
    | true => exact readsAs_name (by decide) (by decide) rfl (by decide)
  | small n => exact readsAs_small n
  | number x =>
    unfold Value.literal Value.mergeNaN
    dsimp only
    split
    · exact readsAs_name (by decide) (by decide) rfl (by decide)
    · next hnan =>
      split
      · next hinfinite =>
        have hx : x = .infinity x.negative :=
          congrArg (Binary64.mk x.negative) (Fin.ext (beq_iff_eq.mp hinfinite))
        have hread := readsAs_infinity x.negative
        rwa [← hx] at hread
      · next hinfinite =>
        have hfinite : x.isFinite := by
          simp only [Binary64.isNaN, Binary64.isInfinite, Binary64.isFinite, decide_eq_true_eq,
            beq_iff_eq] at hnan hinfinite ⊢
          omega
        exact readsAs_finite hfinite

end Assembly

end RegisterMachine
