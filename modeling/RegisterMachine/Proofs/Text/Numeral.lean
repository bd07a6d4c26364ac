import RegisterMachine.Proofs.Text.Words
import RegisterMachine.Text.Numeral

/-!
# Numerals read back

The decimal digits of a natural number, an integer as the library writes it and a byte in
hexadecimal are numerals for the number that was written.
-/

namespace RegisterMachine.Numeral

theorem isDigit_of_mem {n : Nat} {c : Char} (h : c ∈ Nat.toDigits 10 n) : c.isDigit :=
  Nat.isDigit_of_mem_toDigits (by decide) (by decide) h

theorem exists_toDigits (n : Nat) :
    ∃ first rest, Nat.toDigits 10 n = first :: rest ∧ first.isDigit := by
  obtain ⟨first, rest, h⟩ := List.exists_cons_of_ne_nil (@Nat.toDigits_ne_nil n 10)
  exact ⟨first, rest, h, isDigit_of_mem (h ▸ List.mem_cons_self)⟩

theorem ne_of_isDigit {c : Char} (h : c.isDigit) (sign : Char) (hs : sign.isDigit = false) :
    c ≠ sign := by
  rintro rfl
  rw [hs] at h
  cases h

theorem afterPlus_cons (c : Char) (rest : List Char) :
    afterPlus (c :: rest) = if c = '+' then rest else c :: rest := by
  split
  · next h => rw [h, afterPlus]
  · next h => exact afterPlus.eq_2 _ fun _ heq => h (List.cons.inj heq).1

theorem afterPlus_of_isDigit {first : Char} {rest : List Char} (h : first.isDigit) :
    afterPlus (first :: rest) = first :: rest := by
  rw [afterPlus_cons, if_neg (ne_of_isDigit h '+' (by decide))]

@[simp] theorem afterPlus_toDigits (n : Nat) :
    afterPlus (Nat.toDigits 10 n) = Nat.toDigits 10 n := by
  obtain ⟨first, rest, h, hdigit⟩ := exists_toDigits n
  rw [h, afterPlus_of_isDigit hdigit]

@[simp] theorem decimal?_toDigits (n : Nat) : decimal? (Nat.toDigits 10 n) = some n := by
  have hne : (Nat.toDigits 10 n).isEmpty = false := by
    simpa only [List.isEmpty_eq_false_iff] using Nat.toDigits_ne_nil
  have hall : (Nat.toDigits 10 n).all Char.isDigit = true :=
    List.all_eq_true.mpr fun _ hc => isDigit_of_mem hc
  simp [decimal?, hne, hall]

theorem decimal?_eq_none {word : List Char} {c : Char} (hc : c ∈ word) (h : c.isDigit = false) :
    decimal? word = none := by
  have hall : word.all Char.isDigit = false :=
    List.all_eq_false.mpr ⟨c, hc, by simp [h]⟩
  rw [decimal?, hall, Bool.not_false, Bool.or_true, if_pos rfl]

theorem isWord_toDigits (n : Nat) : Text.IsWord (Nat.toDigits 10 n) where
  ne_nil := Nat.toDigits_ne_nil
  plain _ hc := Text.isPlain_of_isDigit (isDigit_of_mem hc)

theorem unsigned?_toDigits {limit n : Nat} (h : n < limit) :
    unsigned? limit (Nat.toDigits 10 n) = some n := by
  simp [unsigned?, h]

theorem byte?_toDigits (byte : UInt8) : byte? (Nat.toDigits 10 byte.toNat) = some byte := by
  rw [byte?, unsigned?_toDigits byte.toNat_lt, Option.map_some, UInt8.ofNat_toNat]

/-- The sign of a word, where one is meant, and what follows it. -/
def splitSign : List Char → Bool × List Char
  | '-' :: rest => (true, rest)
  | word => (false, afterPlus word)

theorem splitSign_of_ne {word : List Char} (h : ∀ rest, word ≠ '-' :: rest) :
    splitSign word = (false, afterPlus word) :=
  splitSign.eq_2 word h

def withSign (negative : Bool) (n : Nat) : Int := if negative then -Int.ofNat n else Int.ofNat n

theorem integer?_eq (word : List Char) :
    integer? word = (decimal? (splitSign word).2).map (withSign (splitSign word).1) := by
  unfold integer?
  split
  · rfl
  · next h =>
    rw [splitSign_of_ne h]
    rfl

theorem splitSign_of_isDigit {first : Char} {rest : List Char} (h : first.isDigit) :
    splitSign (first :: rest) = (false, first :: rest) := by
  have hne : ∀ digits, first :: rest ≠ '-' :: digits := fun _ heq =>
    ne_of_isDigit h '-' (by decide) (List.cons.inj heq).1
  rw [splitSign_of_ne hne, afterPlus_of_isDigit h]

/-- What is no decimal numeral after its sign is no integer. -/
theorem integer?_of_isDigit {first : Char} {rest : List Char} (h : first.isDigit) :
    integer? (first :: rest) = (decimal? (first :: rest)).map Int.ofNat := by
  rw [integer?_eq, splitSign_of_isDigit h]
  rfl

theorem toList_toString_int (n : Int) :
    (toString n).toList =
      if 0 ≤ n then Nat.toDigits 10 n.toNat else '-' :: Nat.toDigits 10 (-n).toNat := by
  rw [Int.toString_eq_repr, Int.repr_eq_if]
  split
  · exact Nat.toList_repr
  · rw [String.toList_append, Nat.toList_repr]
    rfl

theorem isWord_toString_int (n : Int) : Text.IsWord (toString n).toList := by
  rw [toList_toString_int]
  split
  · exact isWord_toDigits _
  · exact Text.isWord_cons (by decide) (isWord_toDigits _).plain

theorem splitSign_toString (n : Int) :
    splitSign (toString n).toList = (decide (n < 0), Nat.toDigits 10 n.natAbs) := by
  rw [toList_toString_int]
  split
  · next h =>
    obtain ⟨first, rest, heq, hdigit⟩ := exists_toDigits n.natAbs
    have habs : n.toNat = n.natAbs := by omega
    rw [habs, heq, splitSign_of_isDigit hdigit, decide_eq_false (by omega)]
  · next h =>
    have habs : (-n).toNat = n.natAbs := by omega
    rw [habs, splitSign, decide_eq_true (by omega)]

theorem withSign_natAbs (n : Int) : withSign (decide (n < 0)) n.natAbs = n := by
  rw [withSign, Int.ofNat_eq_natCast]
  split
  · next h =>
    have hneg := of_decide_eq_true h
    omega
  · next h =>
    have hnonneg := mt decide_eq_true h
    omega

theorem integer?_toString (n : Int) : integer? (toString n).toList = some n := by
  rw [integer?_eq, splitSign_toString, decimal?_toDigits, Option.map_some, withSign_natAbs]

theorem signed?_toString {bits : Nat} {n : Int} (h : -2 ^ (bits - 1) ≤ n ∧ n < 2 ^ (bits - 1)) :
    signed? bits (toString n).toList = some n := by
  rw [signed?, integer?_toString, Option.filter_some, if_pos (decide_eq_true h)]

theorem hexDigit?_digitChar {d : Nat} (h : d < 16) : hexDigit? d.digitChar = some d := by
  have hall : ∀ d : Fin 16, hexDigit? d.val.digitChar = some d.val := by decide
  exact hall ⟨d, h⟩

theorem hexByte?_digits (byte : UInt8) :
    hexByte? [(byte.toNat / 16).digitChar, (byte.toNat % 16).digitChar] = some byte := by
  have hlow : byte.toNat % 16 < 16 := Nat.mod_lt _ (by decide)
  have hhigh : byte.toNat / 16 < 16 := Nat.div_lt_of_lt_mul byte.toNat_lt
  have hplus : (byte.toNat / 16).digitChar ≠ '+' := by
    intro heq
    have hdigit := hexDigit?_digitChar hhigh
    rw [heq] at hdigit
    cases hdigit
  have hdigits : [(byte.toNat / 16).digitChar, (byte.toNat % 16).digitChar].mapM hexDigit? =
      some [byte.toNat / 16, byte.toNat % 16] := by
    simp [hexDigit?_digitChar hhigh, hexDigit?_digitChar hlow]
  have hvalue : hexadecimal? [(byte.toNat / 16).digitChar, (byte.toNat % 16).digitChar] =
      some byte.toNat := by
    simp only [hexadecimal?, hdigits, List.isEmpty_cons, Bool.false_eq_true, if_false,
      Option.map_some, List.foldl_cons, List.foldl_nil, Nat.mul_zero, Nat.zero_add,
      Nat.div_add_mod]
  rw [hexByte?, afterPlus_cons, if_neg hplus, hvalue, Option.filter_some,
    if_pos (decide_eq_true byte.toNat_lt), Option.map_some, UInt8.ofNat_toNat]

end RegisterMachine.Numeral
