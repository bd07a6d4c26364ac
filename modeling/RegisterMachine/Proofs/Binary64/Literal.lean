import RegisterMachine.Assembly.Listing
import RegisterMachine.Proofs.Binary64.Shortest
import RegisterMachine.Proofs.Text.LetterCase
import RegisterMachine.Proofs.Text.Numeral
import RegisterMachine.Proofs.Text.Words

/-!
# Literals of doubles read back

`IsNumeral` says which decimal a numeral with a point or an exponent stands for; the reader finds
that decimal (`ofText?_of_isNumeral`). The literal of a decimal is such a numeral, for a decimal of
the same magnitude (`isNumeral_literal`), so the literal of a finite double reads back as that
double.
-/

namespace RegisterMachine

namespace Decimal

def AreDigits (digits : List Char) : Prop := ∀ c ∈ digits, c.isDigit

theorem areDigits_toDigits (n : Nat) : AreDigits (Nat.toDigits 10 n) :=
  fun _ hc => Numeral.isDigit_of_mem hc

theorem AreDigits.append {whole fraction : List Char} (hwhole : AreDigits whole)
    (hfraction : AreDigits fraction) : AreDigits (whole ++ fraction) :=
  fun c hc => (List.mem_append.mp hc).elim (hwhole c) (hfraction c)

theorem areDigits_replicate (n : Nat) : AreDigits (List.replicate n '0') := by
  intro c hc
  rw [List.eq_of_mem_replicate hc]
  decide

/-- The numerals of the listing: digits, then a point with digits or an exponent or both. -/
inductive IsNumeral : List Char → Decimal → Prop
  | point {whole fraction : List Char} (hne : whole ≠ []) (hwhole : AreDigits whole)
      (hfraction : AreDigits fraction) :
      IsNumeral (whole ++ '.' :: fraction)
        ⟨Nat.ofDigitChars 10 (whole ++ fraction) 0, -fraction.length⟩
  | exponent {whole : List Char} {e : Int} (hne : whole ≠ []) (hwhole : AreDigits whole)
      (he : e.natAbs < 65536) :
      IsNumeral (whole ++ 'e' :: (toString e).toList) ⟨Nat.ofDigitChars 10 whole 0, e⟩
  | both {whole fraction : List Char} {e : Int} (hne : whole ≠ []) (hwhole : AreDigits whole)
      (hfraction : AreDigits fraction) (he : e.natAbs < 65536) :
      IsNumeral (whole ++ '.' :: (fraction ++ 'e' :: (toString e).toList))
        ⟨Nat.ofDigitChars 10 (whole ++ fraction) 0, e - fraction.length⟩

theorem takeWhile_digits {digits : List Char} (h : AreDigits digits) (stop : Char)
    (hstop : stop.isDigit = false) (rest : List Char) :
    (digits ++ stop :: rest).takeWhile Char.isDigit = digits ∧
      (digits ++ stop :: rest).dropWhile Char.isDigit = stop :: rest := by
  have hnot : ¬stop.isDigit = true := by simp [hstop]
  constructor
  · rw [List.takeWhile_append_of_pos h, List.takeWhile_cons_of_neg hnot, List.append_nil]
  · rw [List.dropWhile_append_of_pos h, List.dropWhile_cons_of_neg hnot]

theorem takeWhile_all {digits : List Char} (h : AreDigits digits) :
    digits.takeWhile Char.isDigit = digits ∧ digits.dropWhile Char.isDigit = [] := by
  constructor
  · simpa using @List.takeWhile_append_of_pos _ _ digits [] h
  · simpa using @List.dropWhile_append_of_pos _ _ digits [] h

theorem le_ofDigitChars (digits : List Char) (n : Nat) : n ≤ Nat.ofDigitChars 10 digits n := by
  rw [Nat.ofDigitChars_eq_ofDigitChars_zero]
  exact Nat.le_add_right_of_le (Nat.le_mul_of_pos_left _ (ten_pow_pos _))

/-- An exponent within the bound of the reader keeps all its digits. -/
theorem exponentValue_eq {digits : List Char} (h : Nat.ofDigitChars 10 digits 0 < 65536) :
    exponentValue digits = Nat.ofDigitChars 10 digits 0 := by
  unfold exponentValue
  -- Digits only make the value grow, so one that ends below the bound is below it throughout.
  generalize 0 = n at h ⊢
  induction digits generalizing n with
  | nil => rw [List.foldl_nil, Nat.ofDigitChars_nil]
  | cons c rest ih =>
    have hn : n < 65536 := Nat.lt_of_le_of_lt (le_ofDigitChars (c :: rest) n) h
    rw [Nat.ofDigitChars_cons] at h ⊢
    rw [List.foldl_cons, if_pos hn]
    exact ih _ h

theorem exponentSize?_toDigits {n : Nat} (h : n < 65536) :
    exponentSize? (Nat.toDigits 10 n) = some n := by
  have hne : (Nat.toDigits 10 n).isEmpty = false := by
    simpa only [List.isEmpty_eq_false_iff] using Nat.toDigits_ne_nil
  have hall : (Nat.toDigits 10 n).all Char.isDigit = true :=
    List.all_eq_true.mpr (areDigits_toDigits n)
  have hvalue := Nat.ofDigitChars_ten_toDigits (n := n)
  rw [exponentSize?, hne, hall, exponentValue_eq (by omega), hvalue]
  rfl

theorem exponent?_cons (c : Char) (rest : List Char) :
    exponent? (c :: rest) =
      if c = 'e' ∨ c = 'E' then
        (exponentSize? (Numeral.splitSign rest).2).map
          (Numeral.withSign (Numeral.splitSign rest).1)
      else none := by
  by_cases hminus : ∃ digits, rest = '-' :: digits
  · obtain ⟨digits, rfl⟩ := hminus
    rfl
  · have hne : ∀ digits, rest ≠ '-' :: digits := not_exists.mp hminus
    rw [Numeral.splitSign_of_ne hne, exponent?]
    · rfl
    · exact hne

theorem exponent?_toString {e : Int} (he : e.natAbs < 65536) :
    exponent? ('e' :: (toString e).toList) = some e := by
  rw [exponent?_cons, if_pos (Or.inl rfl), Numeral.splitSign_toString, exponentSize?_toDigits he,
    Option.map_some, Numeral.withSign_natAbs]

/-- The reader cuts a numeral after its leading digits and after the digits that follow a point. -/
theorem ofText?_append {whole tail fraction rest : List Char} {e : Int} (hne : whole ≠ [])
    (htake : (whole ++ tail).takeWhile Char.isDigit = whole)
    (hdrop : (whole ++ tail).dropWhile Char.isDigit = tail)
    (hfraction : fractionAndRest tail = (fraction, rest)) (he : exponent? rest = some e) :
    ofText? (whole ++ tail) =
      some ⟨Nat.ofDigitChars 10 (whole ++ fraction) 0, e - fraction.length⟩ := by
  have hempty : whole.isEmpty = false := by simpa using hne
  rw [ofText?, htake, hdrop, hfraction]
  dsimp only
  rw [hempty, Bool.false_and, if_neg Bool.false_ne_true, he, Option.map_some]

/-- A numeral reads as the decimal it stands for. -/
theorem ofText?_of_isNumeral {word : List Char} {d : Decimal} (h : IsNumeral word d) :
    ofText? word = some d := by
  cases h with
  | @point whole fraction hne hwhole hfraction =>
    obtain ⟨htake, hdrop⟩ := takeWhile_digits hwhole '.' (by decide) fraction
    obtain ⟨hftake, hfdrop⟩ := takeWhile_all hfraction
    have hcut : fractionAndRest ('.' :: fraction) = (fraction, []) := by
      rw [fractionAndRest, hftake, hfdrop]
    rw [ofText?_append hne htake hdrop hcut rfl, Int.zero_sub]
  | @exponent whole e hne hwhole he =>
    obtain ⟨htake, hdrop⟩ := takeWhile_digits hwhole 'e' (by decide) (toString e).toList
    have hcut : fractionAndRest ('e' :: (toString e).toList) = ([], 'e' :: (toString e).toList) :=
      rfl
    rw [ofText?_append hne htake hdrop hcut (exponent?_toString he), List.append_nil,
      List.length_nil, Int.natCast_zero, Int.sub_zero]
  | @both whole fraction e hne hwhole hfraction he =>
    obtain ⟨htake, hdrop⟩ := takeWhile_digits hwhole '.' (by decide)
      (fraction ++ 'e' :: (toString e).toList)
    obtain ⟨hftake, hfdrop⟩ :=
      takeWhile_digits hfraction 'e' (by decide) (toString e).toList
    have hcut : fractionAndRest ('.' :: (fraction ++ 'e' :: (toString e).toList)) =
        (fraction, 'e' :: (toString e).toList) := by
      rw [fractionAndRest, hftake, hfdrop]
    exact ofText?_append hne htake hdrop hcut (exponent?_toString he)

theorem isNumeral_positional {d : Decimal} (h : d.exponent < 0) : IsNumeral d.positional d := by
  have hdigits := areDigits_toDigits d.digits
  unfold positional
  dsimp only
  rw [if_neg (by omega)]
  split
  · next hlt =>
    have hnumeral := @IsNumeral.point
      ((Nat.toDigits 10 d.digits).take ((Nat.toDigits 10 d.digits).length - (-d.exponent).toNat))
      ((Nat.toDigits 10 d.digits).drop ((Nat.toDigits 10 d.digits).length - (-d.exponent).toNat))
      (by rw [ne_eq, List.take_eq_nil_iff]; exact not_or.mpr ⟨by omega, Nat.toDigits_ne_nil⟩)
      (fun c hc => hdigits c (List.mem_of_mem_take hc))
      (fun c hc => hdigits c (List.mem_of_mem_drop hc))
    have hlength : -((((Nat.toDigits 10 d.digits).drop
        ((Nat.toDigits 10 d.digits).length - (-d.exponent).toNat)).length : Nat) : Int) =
        d.exponent := by
      rw [List.length_drop]
      omega
    rwa [List.take_append_drop, Nat.ofDigitChars_ten_toDigits, hlength] at hnumeral
  · next hge =>
    have hnumeral := @IsNumeral.point ['0']
      (List.replicate ((-d.exponent).toNat - (Nat.toDigits 10 d.digits).length) '0' ++
        Nat.toDigits 10 d.digits)
      (List.cons_ne_nil _ _) (areDigits_replicate 1) ((areDigits_replicate _).append hdigits)
    have hvalue : Nat.ofDigitChars 10 (['0'] ++
        (List.replicate ((-d.exponent).toNat - (Nat.toDigits 10 d.digits).length) '0' ++
          Nat.toDigits 10 d.digits)) 0 = d.digits := by
      rw [Nat.ofDigitChars_append, Nat.ofDigitChars_append, Nat.ofDigitChars_replicate_zero]
      exact Nat.ofDigitChars_ten_toDigits
    have hlength : -(((List.replicate
        ((-d.exponent).toNat - (Nat.toDigits 10 d.digits).length) '0' ++
          Nat.toDigits 10 d.digits).length : Nat) : Int) = d.exponent := by
      rw [List.length_append, List.length_replicate]
      omega
    rwa [hvalue, hlength] at hnumeral

theorem isNumeral_scientific {d : Decimal} (h : (d.order - 1).natAbs < 65536) :
    IsNumeral d.scientific d := by
  have hdigits := areDigits_toDigits d.digits
  have hvalue := Nat.ofDigitChars_ten_toDigits (n := d.digits)
  have hcount : (Nat.toDigits 10 d.digits).length = digitCount d.digits := rfl
  have horder : d.order = d.exponent + digitCount d.digits := rfl
  obtain ⟨first, rest, heq, hfirst⟩ := Numeral.exists_toDigits d.digits
  unfold scientific
  rw [heq] at hdigits hvalue hcount ⊢
  cases rest with
  | nil =>
    have hnumeral := IsNumeral.exponent (List.cons_ne_nil first []) hdigits h
    have hd : (⟨d.digits, d.order - 1⟩ : Decimal) = d := by
      have hexponent : d.order - 1 = d.exponent := by
        rw [List.length_singleton] at hcount
        omega
      rw [hexponent]
    rwa [hvalue, hd] at hnumeral
  | cons second rest =>
    have hnumeral := IsNumeral.both (List.cons_ne_nil first [])
      (fun c hc => (List.mem_singleton.mp hc) ▸ hfirst)
      (fun c hc => hdigits c (List.mem_cons_of_mem _ hc)) h
    have hd : (⟨d.digits, d.order - 1 - ((second :: rest).length : Nat)⟩ : Decimal) = d := by
      have hexponent : d.order - 1 - ((second :: rest).length : Nat) = d.exponent := by
        rw [List.length_cons] at hcount
        omega
      rw [hexponent]
    rwa [List.singleton_append, List.singleton_append, hvalue, hd] at hnumeral

theorem isNumeral_whole {d : Decimal} (h : 0 ≤ d.exponent) :
    IsNumeral (d.positional ++ ['.', '0']) ⟨10 * (d.digits * 10 ^ d.exponent.toNat), -1⟩ := by
  have hnumeral := @IsNumeral.point
    (Nat.toDigits 10 d.digits ++ List.replicate d.exponent.toNat '0') ['0']
    (List.append_ne_nil_of_left_ne_nil Nat.toDigits_ne_nil _)
    ((areDigits_toDigits d.digits).append (areDigits_replicate _)) (areDigits_replicate 1)
  have hpositional :
      d.positional = Nat.toDigits 10 d.digits ++ List.replicate d.exponent.toNat '0' := by
    rw [positional, if_pos h]
  have hvalue : Nat.ofDigitChars 10
      (Nat.toDigits 10 d.digits ++ List.replicate d.exponent.toNat '0' ++ ['0']) 0 =
      10 * (d.digits * 10 ^ d.exponent.toNat) := by
    rw [Nat.ofDigitChars_append, Nat.ofDigitChars_append, Nat.ofDigitChars_ten_toDigits,
      Nat.ofDigitChars_replicate_zero, Nat.mul_comm (10 ^ d.exponent.toNat)]
    rfl
  rwa [hvalue, ← hpositional] at hnumeral

/-- The literal of a decimal of moderate order is a numeral of the same magnitude. -/
theorem isNumeral_literal {d : Decimal} (h : -2000 ≤ d.order ∧ d.order ≤ 5000) :
    ∃ read, IsNumeral d.literal read ∧ read.magnitude = d.magnitude := by
  unfold literal
  split
  · next horder =>
    split
    · next hpos =>
      refine ⟨_, isNumeral_whole hpos, ?_⟩
      have hcount := digitCount_pos d.digits
      have hzeros : d.exponent.toNat ≤ 1100 := by
        unfold order at horder
        omega
      have hexponent : (d.exponent.toNat : Int) = d.exponent := Int.toNat_of_nonneg hpos
      have hd := @magnitude_ofNat d.digits d.exponent.toNat hzeros
      have hread := @magnitude_neg (10 * (d.digits * 10 ^ d.exponent.toNat)) 1 (by decide)
        (Nat.le_add_right_of_le (by decide))
      rw [hexponent] at hd
      -- The zero after the point gives ten times the digits over ten times the denominator.
      have hmul := Binary64.nearest_mul (ten_pow_pos 1)
        (d.digits * 10 ^ d.exponent.toNat * Binary64.unitsPerOne) 1
      rw [Nat.mul_assoc] at hread
      exact hread.trans (hmul.trans hd.symm)
    · next hneg => exact ⟨d, isNumeral_positional (by omega), rfl⟩
  · exact ⟨d, isNumeral_scientific (by omega), rfl⟩

variable {word : List Char} {d : Decimal}

theorem IsNumeral.exists_digit (h : IsNumeral word d) :
    ∃ first rest, word = first :: rest ∧ first.isDigit := by
  have hcons : ∀ {whole : List Char} (tail : List Char), whole ≠ [] → AreDigits whole →
      ∃ first rest, whole ++ tail = first :: rest ∧ first.isDigit := by
    intro whole tail hne hwhole
    obtain ⟨first, rest, rfl⟩ := List.exists_cons_of_ne_nil hne
    exact ⟨first, rest ++ tail, rfl, hwhole first List.mem_cons_self⟩
  cases h with
  | point hne hwhole _ => exact hcons _ hne hwhole
  | exponent hne hwhole _ => exact hcons _ hne hwhole
  | both hne hwhole _ _ => exact hcons _ hne hwhole

theorem IsNumeral.plain (h : IsNumeral word d) : ∀ c ∈ word, Text.isPlain c := by
  have hdigits : ∀ {digits : List Char}, AreDigits digits → ∀ c ∈ digits, Text.isPlain c :=
    fun h c hc => Text.isPlain_of_isDigit (h c hc)
  cases h with
  | point _ hwhole hfraction =>
    rw [List.forall_mem_append, List.forall_mem_cons]
    exact ⟨hdigits hwhole, by decide, hdigits hfraction⟩
  | exponent _ hwhole _ =>
    rw [List.forall_mem_append, List.forall_mem_cons]
    exact ⟨hdigits hwhole, by decide, (Numeral.isWord_toString_int _).plain⟩
  | both _ hwhole hfraction _ =>
    rw [List.forall_mem_append, List.forall_mem_cons, List.forall_mem_append,
      List.forall_mem_cons]
    exact ⟨hdigits hwhole, by decide, hdigits hfraction, by decide,
      (Numeral.isWord_toString_int _).plain⟩

theorem IsNumeral.decimal?_eq_none (h : IsNumeral word d) : Numeral.decimal? word = none := by
  cases h with
  | point => exact Numeral.decimal?_eq_none (List.mem_append_cons_self) (c := '.') (by decide)
  | exponent => exact Numeral.decimal?_eq_none (List.mem_append_cons_self) (c := 'e') (by decide)
  | both => exact Numeral.decimal?_eq_none (List.mem_append_cons_self) (c := '.') (by decide)

end Decimal

namespace Binary64

variable {word : List Char} {d : Decimal}

/-- A word that begins with a digit is none of the names of doubles. -/
theorem lowered_ne {first letter : Char} {rest name : List Char} (h : first.isDigit)
    (hletter : letter.isDigit = false) : Text.lowered (first :: rest) ≠ letter :: name := by
  intro heq
  have hhead : first.toLower = letter := (List.cons.inj heq).1
  rw [Text.toLower_of_isDigit h] at hhead
  exact Numeral.ne_of_isDigit h letter hletter hhead

theorem ofText?_eq (word : List Char) :
    ofText? word =
      if Text.lowered (Numeral.splitSign word).2 ∈ ["inf".toList, "infinity".toList] then
        some (infinity (Numeral.splitSign word).1)
      else if Text.lowered (Numeral.splitSign word).2 = "nan".toList then
        some { nan with negative := (Numeral.splitSign word).1 }
      else (Decimal.ofText? (Numeral.splitSign word).2).map fun d =>
        ⟨(Numeral.splitSign word).1, d.magnitude⟩ := by
  by_cases hminus : ∃ rest, word = '-' :: rest
  · obtain ⟨rest, rfl⟩ := hminus
    rfl
  · have hne : ∀ rest, word ≠ '-' :: rest := not_exists.mp hminus
    rw [Numeral.splitSign_of_ne hne, ofText?]
    exact hne

theorem ofText?_of_isNumeral (h : Decimal.IsNumeral word d) :
    ofText? word = some ⟨false, d.magnitude⟩ ∧
      ofText? ('-' :: word) = some ⟨true, d.magnitude⟩ := by
  have hread := Decimal.ofText?_of_isNumeral h
  obtain ⟨first, rest, rfl, hfirst⟩ := h.exists_digit
  have hinf : Text.lowered (first :: rest) ∉ ["inf".toList, "infinity".toList] := by
    simp only [List.mem_cons, List.not_mem_nil, or_false, not_or]
    exact ⟨lowered_ne hfirst (by decide), lowered_ne hfirst (by decide)⟩
  have hnan : Text.lowered (first :: rest) ≠ "nan".toList := lowered_ne hfirst (by decide)
  have hplus : Numeral.splitSign (first :: rest) = (false, first :: rest) :=
    Numeral.splitSign_of_isDigit hfirst
  have hminus : Numeral.splitSign ('-' :: first :: rest) = (true, first :: rest) := rfl
  constructor
  · rw [ofText?_eq, hplus, if_neg hinf, if_neg hnan, hread, Option.map_some]
  · rw [ofText?_eq, hminus, if_neg hinf, if_neg hnan, hread, Option.map_some]

end Binary64

end RegisterMachine
