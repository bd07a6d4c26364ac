import RegisterMachine.Proofs.Assembly.Ranges

/-!
# Signs before constants

A sign before a numeral makes the constant the negated one or leaves it as it is. A word that begins
with a point is a directive, though numbers begin with points as well, so a fraction without digits
before its point is a constant behind a sign only (`constant_signs`).
-/

namespace RegisterMachine

open Text

namespace Assembly

open Numeral (Digits Sign)

variable {first : Char} {rest word : List Char} {x : Binary64} {value : Value}

/-- A word that begins with a point is a directive, and no constant. -/
theorem assemble_constant_point (hrest : ∀ c ∈ rest, isPlain c) :
    assemble (".constant " ++ String.ofList ('.' :: rest)) =
      .error (.line 1 (.invalidConstant (String.ofList ('.' :: lowered rest)))) := by
  have hstart : ".constant " = ".constant" ++ " " := rfl
  have hword : IsWord ('.' :: rest) := isWord_cons (by decide) hrest
  have htoken : Token.ofWord ('.' :: rest) = .ok (.directive (lowered rest)) := rfl
  rw [assemble_pair hstart Statement.isWord_constant hword,
    Statement.ofLine_constant hword htoken]
  rfl

/-- What a word of a double is as a constant, with and without a sign. -/
structure SignedConstants (word : List Char) (x : Binary64) (c c' : Value) : Prop where
  read (s : Sign) : numericConstant? (s.chars ++ word) = some (if s = .minus then c' else c)
  value : c.toDouble = x
  negated : if word.all (· == '0') then c = .small 0 ∧ c' = .small 0 else c'.toDouble = -x

theorem numericConstant?_signed (s : Sign) (hfirst : first.isDigit ∨ first = '.')
    (hdecimal : Numeral.decimal? (first :: rest) = none) :
    numericConstant? (s.chars ++ first :: rest) =
      (Binary64.ofText? (s.chars ++ first :: rest)).map .number := by
  have hinteger : Numeral.integer? (s.chars ++ first :: rest) = none := by
    rw [Numeral.integer?_signed s hfirst, hdecimal, Option.map_none]
  rw [numericConstant?, signed?_eq_none hinteger]

/-- A word of digits is the constant of its value, behind a minus sign of the negated value. -/
theorem signedConstants_of_chars (d : Digits) (hx : Binary64.ofText? d.chars = some x) :
    SignedConstants d.chars x (integerConstant d.value) (integerConstant (-d.value)) := by
  have hread := Binary64.ofText?_chars d .missing (by rintro ⟨⟩)
  have hvalue : x = .ofInt d.value := Option.some.inj (hx.symm.trans hread)
  refine ⟨?_, ?_, ?_⟩
  · intro s
    rw [numericConstant?_chars]
    cases s with
    | missing => rw [if_neg (by decide), Sign.apply]
    | plus => rw [if_neg (by decide), Sign.apply]
    | minus => rw [if_pos rfl, Sign.apply]
  · rw [toDouble_integerConstant, hvalue]
  · by_cases hzero : d.chars.all (· == '0') = true
    · rw [if_pos hzero, d.value_eq_zero_iff.mpr hzero]
      exact ⟨rfl, rfl⟩
    · have hpos : d.value ≠ 0 := mt d.value_eq_zero_iff.mp hzero
      rw [if_neg hzero, toDouble_integerConstant, hvalue, Binary64.ofInt_neg (by omega)]

/-- A word with a point or an exponent is the constant of its double. -/
theorem signedConstants_of_decimal?_eq_none (hfirst : first.isDigit ∨ first = '.')
    (hdecimal : Numeral.decimal? (first :: rest) = none)
    (hx : Binary64.ofText? (first :: rest) = some x) :
    SignedConstants (first :: rest) x (.number x) (.number (-x)) := by
  have hread := @Binary64.ofText?_signed .missing first rest hfirst
  obtain ⟨decimal, hmagnitude, hvalue⟩ := Option.map_eq_some_iff.mp (hread.symm.trans hx)
  have hnonzero : ¬(first :: rest).all (· == '0') = true := by
    intro hall
    have hdigits : (first :: rest).all Char.isDigit = true :=
      List.all_eq_true.mpr fun a ha => beq_iff_eq.mp (List.all_eq_true.mp hall a ha) ▸ rfl
    rw [Numeral.decimal?, hdigits] at hdecimal
    cases hdecimal
  refine ⟨?_, rfl, ?_⟩
  · intro s
    rw [numericConstant?_signed s hfirst hdecimal, Binary64.ofText?_signed s hfirst, hmagnitude,
      ← hvalue]
    cases s <;> rfl
  · rw [if_neg hnonzero]
    rfl

theorem exists_signedConstants (hfirst : first.isDigit ∨ first = '.')
    (hx : Binary64.ofText? (first :: rest) = some x) :
    ∃ c c', SignedConstants (first :: rest) x c c' := by
  rcases Numeral.decimal?_eq_none_or_chars (List.cons_ne_nil first rest) with hnone | ⟨d, hd⟩
  · exact ⟨_, _, signedConstants_of_decimal?_eq_none hfirst hnone hx⟩
  · rw [← hd] at hx ⊢
    exact ⟨_, _, signedConstants_of_chars d hx⟩

/-- Where a word that begins with a digit or a point is read as a double, it is a constant behind
either sign: behind a plus sign that double, behind a minus sign the negated one, and zero for a
word of zeros alone. Without a sign it is the constant that it is behind a plus sign, unless it
begins with a point: then it is refused. -/
theorem constant_signs (hfirst : first.isDigit ∨ first = '.')
    (hx : Binary64.ofText? (first :: rest) = some x) :
    ∃ c c' : Value,
      assemble (".constant " ++ String.ofList ('+' :: first :: rest)) = .ok ⟨#[], 0, #[c]⟩ ∧
      assemble (".constant " ++ String.ofList ('-' :: first :: rest)) = .ok ⟨#[], 0, #[c']⟩ ∧
      assemble (".constant " ++ String.ofList (first :: rest)) =
        (if first = '.' then
          .error (.line 1 (.invalidConstant (String.ofList ('.' :: lowered rest))))
        else .ok ⟨#[], 0, #[c]⟩) ∧
      c.toDouble = x ∧
      if (first :: rest).all (· == '0') then c = .small 0 ∧ c' = .small 0
      else c'.toDouble = -x := by
  have hread := @Binary64.ofText?_signed .missing first rest hfirst
  obtain ⟨decimal, hdecimal, -⟩ := Option.map_eq_some_iff.mp (hread.symm.trans hx)
  have hplain := Decimal.plain_of_ofText? hdecimal
  obtain ⟨c, c', hconstants⟩ := exists_signedConstants hfirst hx
  refine ⟨c, c', ?_, ?_, ?_, hconstants.value, hconstants.negated⟩
  · exact assemble_constant (isWord_cons (by decide) hplain)
      (Token.ofWord_of_startsNumber (by decide) (by decide)) (hconstants.read .plus)
  · exact assemble_constant (isWord_cons (by decide) hplain)
      (Token.ofWord_of_startsNumber (by decide) (by decide)) (hconstants.read .minus)
  · split_ifs with hpoint
    · rw [hpoint]
      exact assemble_constant_point (List.forall_mem_cons.mp hplain).2
    · exact assemble_constant ⟨List.cons_ne_nil _ _, hplain⟩
        (Token.ofWord_number (Or.inl (hfirst.resolve_right hpoint))) (hconstants.read .missing)

theorem constant_signs_fraction :
    Binary64.ofText? "2.5".toList = some ⟨false, 0x4004000000000000⟩ ∧
      ∃ c c' : Value,
        assemble ".constant +2.5" = .ok ⟨#[], 0, #[c]⟩ ∧
        assemble ".constant -2.5" = .ok ⟨#[], 0, #[c']⟩ ∧
        assemble ".constant 2.5" = .ok ⟨#[], 0, #[c]⟩ ∧
        c.toDouble = ⟨false, 0x4004000000000000⟩ ∧ c'.toDouble = -c.toDouble := by
  have hx : Binary64.ofText? ['2', '.', '5'] = some ⟨false, 0x4004000000000000⟩ := by
    decide +kernel
  obtain ⟨c, c', hplus, hminus, hbare, hc, hnegated⟩ :=
    @constant_signs '2' ['.', '5'] _ (Or.inl rfl) hx
  rw [if_neg (by decide)] at hbare hnegated
  exact ⟨hx, c, c', hplus, hminus, hbare, hc, hc ▸ hnegated⟩

/-- A half without a digit before the point is a double, and a constant behind a sign only. -/
theorem constant_point_refused :
    Binary64.ofText? ".5".toList = some ⟨false, 0x3fe0000000000000⟩ ∧
      assemble ".constant +.5" = .ok ⟨#[], 0, #[.number ⟨false, 0x3fe0000000000000⟩]⟩ ∧
      assemble ".constant -.5" = .ok ⟨#[], 0, #[.number ⟨true, 0x3fe0000000000000⟩]⟩ ∧
      assemble ".constant .5" = .error (.line 1 (.invalidConstant ".5")) := by
  decide +kernel

end Assembly

end RegisterMachine
