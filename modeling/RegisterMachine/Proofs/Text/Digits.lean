import Mathlib.Tactic.SplitIfs
import RegisterMachine.Proofs.Text.LetterCase

/-!
# The ranges of numerals

A numeral of any length, with any number of leading zeros, is read as its value in the places whose
range the value lies in, and as nothing in the others.
-/

namespace RegisterMachine.Numeral

structure Digits where
  chars : List Char
  ne_nil : chars ≠ []
  isDigit : ∀ c ∈ chars, c.isDigit

/-- The hexadecimal digits in the order of their values, the letters small. -/
def hexAlphabet : List Char := "0123456789abcdef".toList

/-- A string of hexadecimal digits, the letters in either case. -/
structure HexDigits where
  chars : List Char
  ne_nil : chars ≠ []
  mem_alphabet : ∀ c ∈ chars, c.toLower ∈ hexAlphabet

inductive Sign where
  | missing
  | plus
  | minus
  deriving DecidableEq

def Digits.value (d : Digits) : Nat := Nat.ofDigitChars 10 d.chars 0

def HexDigits.value (h : HexDigits) : Nat :=
  h.chars.foldl (fun n c => 16 * n + hexAlphabet.idxOf c.toLower) 0

namespace Sign

def chars : Sign → List Char
  | missing => []
  | plus => ['+']
  | minus => ['-']

def apply : Sign → Nat → Int
  | missing, n => n
  | plus, n => n
  | minus, n => -n

theorem apply_eq (s : Sign) (n : Nat) : s.apply n = withSign (s = minus) n := by
  cases s <;> rfl

theorem plain (s : Sign) : ∀ c ∈ s.chars, Text.isPlain c := by
  have hall : s.chars.all Text.isPlain = true := by cases s <;> rfl
  exact List.all_eq_true.mp hall

end Sign

variable (d : Digits) (h : HexDigits) (s : Sign)

theorem Digits.exists_cons : ∃ first rest, d.chars = first :: rest ∧ first.isDigit := by
  obtain ⟨first, rest, hcons⟩ := List.exists_cons_of_ne_nil d.ne_nil
  exact ⟨first, rest, hcons, d.isDigit first (hcons ▸ List.mem_cons_self)⟩

theorem Digits.plain : ∀ c ∈ d.chars, Text.isPlain c :=
  fun c hc => Text.isPlain_of_isDigit (d.isDigit c hc)

theorem HexDigits.plain : ∀ c ∈ h.chars, Text.isPlain c := by
  have hall : hexAlphabet.all Text.isPlain = true := by decide
  intro c hc
  have hlower : Text.isPlain c.toLower = Text.isPlain c := Text.apply_toLower (by decide) c
  exact hlower ▸ List.all_eq_true.mp hall _ (h.mem_alphabet c hc)

theorem isWord_signed : Text.IsWord (s.chars ++ d.chars) where
  ne_nil := List.append_ne_nil_of_right_ne_nil _ d.ne_nil
  plain := List.forall_mem_append.mpr ⟨s.plain, d.plain⟩

theorem decimal?_chars : decimal? d.chars = some d.value := by
  have hne : d.chars.isEmpty = false := List.isEmpty_eq_false_iff.mpr d.ne_nil
  have hall : d.chars.all Char.isDigit = true := List.all_eq_true.mpr d.isDigit
  rw [decimal?, hne, hall, Digits.value]
  rfl

theorem afterPlus_chars : afterPlus d.chars = d.chars := by
  obtain ⟨first, rest, hcons, hfirst⟩ := d.exists_cons
  rw [hcons, afterPlus_of_isDigit hfirst]

theorem splitSign_signed {first : Char} {rest : List Char} (h : first.isDigit ∨ first = '.') :
    splitSign (s.chars ++ first :: rest) = (decide (s = .minus), first :: rest) := by
  have hsign : ∀ c : Char, c.isDigit = false → c ≠ '.' → first ≠ c := by
    rintro c hc hpoint rfl
    rcases h with h | h
    · exact Bool.false_ne_true (hc.symm.trans h)
    · exact hpoint h
  cases s with
  | missing =>
    have hminus : ∀ digits, first :: rest ≠ '-' :: digits :=
      fun _ heq => hsign '-' (by decide) (by decide) (List.cons.inj heq).1
    rw [Sign.chars, List.nil_append, splitSign_of_ne hminus, afterPlus_cons,
      if_neg (hsign '+' (by decide) (by decide))]
    rfl
  | plus => rfl
  | minus => rfl

theorem integer?_signed {first : Char} {rest : List Char} (h : first.isDigit ∨ first = '.') :
    integer? (s.chars ++ first :: rest) = (decimal? (first :: rest)).map s.apply := by
  have hsign : withSign (decide (s = .minus)) = s.apply := (funext s.apply_eq).symm
  rw [integer?_eq, splitSign_signed s h, hsign]

theorem integer?_chars : integer? (s.chars ++ d.chars) = some (s.apply d.value) := by
  have hread := decimal?_chars d
  obtain ⟨first, rest, hcons, hfirst⟩ := d.exists_cons
  rw [hcons] at hread ⊢
  rw [integer?_signed s (Or.inl hfirst), hread, Option.map_some]

theorem signed?_chars (bits : Nat) :
    signed? bits (s.chars ++ d.chars) =
      if -2 ^ (bits - 1) ≤ s.apply d.value ∧ s.apply d.value < 2 ^ (bits - 1) then
        some (s.apply d.value)
      else none := by
  rw [signed?, integer?_chars, Option.filter_some]
  simp only [decide_eq_true_eq]

theorem decimal?_eq_none_or_chars {word : List Char} (hne : word ≠ []) :
    decimal? word = none ∨ ∃ d : Digits, d.chars = word := by
  cases hall : word.all Char.isDigit with
  | true => exact Or.inr ⟨⟨word, hne, List.all_eq_true.mp hall⟩, rfl⟩
  | false =>
    obtain ⟨c, hc, hdigit⟩ := List.all_eq_false.mp hall
    exact Or.inl (decimal?_eq_none hc (by simpa using hdigit))

variable {d} {word : List Char}

/-- Where no minus sign is meant, a plus sign before the digits does not matter. -/
theorem unsigned?_of_afterPlus (hword : afterPlus word = d.chars) (limit : Nat) :
    unsigned? limit word = if d.value < limit then some d.value else none := by
  rw [unsigned?, hword, decimal?_chars, Option.filter_some]
  simp only [decide_eq_true_eq]

theorem byte?_of_afterPlus (hword : afterPlus word = d.chars) :
    byte? word = if d.value ≤ 255 then some (.ofNat d.value) else none := by
  rw [byte?, unsigned?_of_afterPlus hword]
  simp only [Nat.lt_succ_iff]
  split_ifs <;> rfl

theorem hexDigit?_of_mem {c : Char} (hc : c.toLower ∈ hexAlphabet) :
    hexDigit? c = some (hexAlphabet.idxOf c.toLower) := by
  have hall : (hexAlphabet.all fun c => hexDigit? c == some (hexAlphabet.idxOf c)) = true := by
    decide
  rw [← hexDigit?_toLower]
  exact beq_iff_eq.mp (List.all_eq_true.mp hall _ hc)

theorem hexadecimal?_chars : hexadecimal? h.chars = some h.value := by
  have hne : h.chars.isEmpty = false := List.isEmpty_eq_false_iff.mpr h.ne_nil
  have hdigits : h.chars.mapM hexDigit? =
      some (h.chars.map fun c => hexAlphabet.idxOf c.toLower) := by
    have hread := h.mem_alphabet
    generalize h.chars = word at hread ⊢
    induction word with
    | nil => rfl
    | cons c rest ih =>
      obtain ⟨hc, hrest⟩ := List.forall_mem_cons.mp hread
      rw [List.mapM_cons, hexDigit?_of_mem hc, ih hrest]
      rfl
  rw [hexadecimal?, hne, hdigits, Option.map_some, List.foldl_map, HexDigits.value]
  rfl

theorem hexByte?_chars :
    hexByte? h.chars = if h.value ≤ 255 then some (.ofNat h.value) else none := by
  have hplus : afterPlus h.chars = h.chars := by
    obtain ⟨first, rest, hcons⟩ := List.exists_cons_of_ne_nil h.ne_nil
    have hfirst := h.mem_alphabet first (hcons ▸ List.mem_cons_self)
    have hne : first ≠ '+' := by
      rintro rfl
      exact absurd hfirst (by decide)
    rw [hcons, afterPlus_cons, if_neg hne]
  rw [hexByte?, hplus, hexadecimal?_chars, Option.filter_some]
  simp only [decide_eq_true_eq, Nat.lt_succ_iff]
  split_ifs <;> rfl

end RegisterMachine.Numeral
