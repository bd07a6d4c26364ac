import Mathlib.Data.List.TakeWhile
import RegisterMachine.Binary64.Arithmetic
import RegisterMachine.Proofs.Binary64.Literal
import RegisterMachine.Proofs.Text.Digits

/-!
# Doubles behind a sign

A sign before a numeral decides the sign of the double and nothing else, and what is read as a
double is one word. A string of digits is read as the double of its value.
-/

namespace RegisterMachine

open Text

namespace Decimal

theorem plain_of_exponentSize? {digits : List Char} {n : Nat} (h : exponentSize? digits = some n) :
    ∀ c ∈ digits, isPlain c := by
  rw [exponentSize?] at h
  split at h
  · cases h
  · next hcond =>
    have hall : digits.all Char.isDigit = true := by
      simpa using (not_or.mp (mt Bool.or_eq_true_iff.mpr hcond)).2
    exact fun c hc => isPlain_of_isDigit (List.all_eq_true.mp hall c hc)

theorem plain_of_splitSign {word : List Char} (h : ∀ c ∈ (Numeral.splitSign word).2, isPlain c) :
    ∀ c ∈ word, isPlain c := by
  unfold Numeral.splitSign at h
  split at h
  · exact List.forall_mem_cons.mpr ⟨by decide, h⟩
  · unfold Numeral.afterPlus at h
    split at h
    · exact List.forall_mem_cons.mpr ⟨by decide, h⟩
    · exact h

theorem plain_of_exponent? {word : List Char} {e : Int} (h : exponent? word = some e) :
    ∀ c ∈ word, isPlain c := by
  cases word with
  | nil => exact List.forall_mem_nil _
  | cons letter rest =>
    rw [exponent?_cons] at h
    split at h
    · next hletter =>
      obtain ⟨n, hsize, -⟩ := Option.map_eq_some_iff.mp h
      have hplain : isPlain letter := by rcases hletter with rfl | rfl <;> decide
      exact List.forall_mem_cons.mpr
        ⟨hplain, plain_of_splitSign (plain_of_exponentSize? hsize)⟩
    · cases h

theorem plain_takeWhile (word : List Char) :
    ∀ c ∈ word.takeWhile Char.isDigit, isPlain c :=
  fun _ hc => isPlain_of_isDigit (List.mem_takeWhile_imp hc)

theorem plain_of_fractionAndRest {word : List Char}
    (h : ∀ c ∈ (fractionAndRest word).2, isPlain c) : ∀ c ∈ word, isPlain c := by
  unfold fractionAndRest at h
  split at h
  · next rest =>
    rw [← List.takeWhile_append_dropWhile (p := Char.isDigit) (l := rest)]
    exact List.forall_mem_cons.mpr
      ⟨by decide, List.forall_mem_append.mpr ⟨plain_takeWhile rest, h⟩⟩
  · exact h

/-- What is read as a decimal is digits, a point and an exponent, and has no blank in it. -/
theorem plain_of_ofText? {word : List Char} {decimal : Decimal} (h : ofText? word = some decimal) :
    ∀ c ∈ word, isPlain c := by
  unfold ofText? at h
  dsimp only at h
  split at h
  · cases h
  · obtain ⟨e, he, -⟩ := Option.map_eq_some_iff.mp h
    rw [← List.takeWhile_append_dropWhile (p := Char.isDigit) (l := word)]
    exact List.forall_mem_append.mpr
      ⟨plain_takeWhile word, plain_of_fractionAndRest (plain_of_exponent? he)⟩

end Decimal

open Numeral (Digits Sign)

variable (d : Digits) (s : Sign)

/-- A digit other than zero makes the value of its numeral positive. -/
theorem Numeral.Digits.value_eq_zero_iff : d.value = 0 ↔ d.chars.all (· == '0') = true := by
  have hdigits := d.isDigit
  simp only [List.all_eq_true, beq_iff_eq]
  unfold Digits.value
  generalize d.chars = word at hdigits ⊢
  constructor
  · intro hzero
    induction word with
    | nil => exact List.forall_mem_nil _
    | cons c rest ih =>
      obtain ⟨hc, hrest⟩ := List.forall_mem_cons.mp hdigits
      obtain ⟨hlow, hhigh⟩ := Char.isDigit_iff_toNat.mp hc
      rw [Nat.ofDigitChars_cons] at hzero
      have hle := Decimal.le_ofDigitChars rest (10 * 0 + (c.toNat - '0'.toNat))
      have hhead : c.toNat = '0'.toNat := by
        change 48 ≤ c.toNat at hlow
        have : '0'.toNat = 48 := rfl
        omega
      have hsame : c = '0' := by
        rw [← Char.ofNat_toNat c, hhead]
        rfl
      rw [hsame] at hzero
      exact List.forall_mem_cons.mpr ⟨hsame, ih hrest hzero⟩
  · intro hall
    rw [List.eq_replicate_of_mem hall, Nat.ofDigitChars_replicate_zero, Nat.mul_zero]

theorem Decimal.ofText?_chars : ofText? d.chars = some ⟨d.value, 0⟩ := by
  obtain ⟨htake, hdrop⟩ := takeWhile_all d.isDigit
  have hread := @ofText?_append d.chars [] [] [] 0 d.ne_nil
  rw [List.append_nil] at hread
  rw [hread htake hdrop rfl rfl, Digits.value]
  rfl

namespace Binary64

variable {first : Char} {rest : List Char}

/-- A numeral without its sign begins with a digit or with a point. -/
theorem ofText?_signed (h : first.isDigit ∨ first = '.') :
    ofText? (s.chars ++ first :: rest) =
      (Decimal.ofText? (first :: rest)).map fun decimal =>
        ⟨decide (s = .minus), decimal.magnitude⟩ := by
  have hne : ∀ {letter : Char} {name : List Char}, letter.isDigit = false → letter ≠ '.' →
      lowered (first :: rest) ≠ letter :: name := by
    intro letter name hletter hpoint
    rcases h with h | rfl
    · exact lowered_ne h hletter
    · exact fun heq => hpoint (List.cons.inj heq).1.symm
  have hinf : lowered (first :: rest) ∉ ["inf".toList, "infinity".toList] := by
    simp only [List.mem_cons, List.not_mem_nil, or_false, not_or]
    exact ⟨hne (by decide) (by decide), hne (by decide) (by decide)⟩
  have hnan : lowered (first :: rest) ≠ "nan".toList := hne (by decide) (by decide)
  rw [ofText?_eq, Numeral.splitSign_signed s h, if_neg hinf, if_neg hnan]

theorem ofInt_neg {n : Int} (h : n ≠ 0) : ofInt (-n) = -ofInt n := by
  have hsign : decide (-n < 0) = !decide (n < 0) := by
    rw [← decide_not, decide_eq_decide]
    omega
  rw [ofInt, Int.natAbs_neg, hsign]
  rfl

/-- Digits are read as the double of their value; only the negative zero is no integer. -/
theorem ofText?_chars (h : s = .minus → d.value ≠ 0) :
    ofText? (s.chars ++ d.chars) = some (ofInt (s.apply d.value)) := by
  have hread := Decimal.ofText?_chars d
  have hmagnitude : (⟨d.value, 0⟩ : Decimal).magnitude = nearest (d.value * unitsPerOne) 1 := by
    have hmag := @Decimal.magnitude_ofNat d.value 0 (by decide)
    rwa [Nat.pow_zero, Nat.mul_one] at hmag
  have hint : ofInt (s.apply d.value) =
      ⟨decide (s = .minus), nearest (d.value * unitsPerOne) 1⟩ := by
    cases s with
    | minus =>
      have hneg : -(d.value : Int) < 0 := by
        have := h rfl
        omega
      rw [Sign.apply, ofInt, Int.natAbs_neg, Int.natAbs_natCast, decide_eq_true hneg]
      rfl
    | missing => rfl
    | plus => rfl
  obtain ⟨first, rest, hcons, hfirst⟩ := d.exists_cons
  rw [hcons] at hread ⊢
  rw [ofText?_signed s (Or.inl hfirst), hread, Option.map_some, hmagnitude, hint]

end Binary64

end RegisterMachine
