import RegisterMachine.Proofs.Binary64.Overflow
import RegisterMachine.Proofs.Assembly.LetterCase
import RegisterMachine.Proofs.Assembly.SingleLine
import RegisterMachine.Proofs.Binary64.Signed

/-!
# The ranges of the places of numerals

A numeral is written as a register, as a constant index, as the operand of `LdaSmi8`, as a byte, as
a register count or as a constant. Each place takes the numerals whose value lies in its range, of
whatever length, and no others (`numerals_in_range`).
-/

namespace RegisterMachine

open Text

namespace Assembly

open Numeral (Digits HexDigits Sign)

/-- A value that lies in the range of its place, or the error that the word is no number. -/
def inRange {α : Type} (word : List Char) (p : Prop) [Decidable p] (value : α) :
    Except LineError α :=
  if p then .ok value else .error (.invalidNumber (String.ofList word))

section inRange

variable {α β : Type} (word : List Char) (p : Prop) [Decidable p] (value : α)

theorem numberOr_ite : numberOr word (if p then some value else none) = inRange word p value := by
  unfold inRange
  split_ifs <;> rfl

theorem map_inRange (f : α → β) : f <$> inRange word p value = inRange word p (f value) := by
  unfold inRange
  split_ifs <;> rfl

end inRange

variable (d : Digits) (h : HexDigits) (s : Sign)

namespace Token

theorem ofWord_register_chars {letter : Char} (hletter : letter = 'r' ∨ letter = 'R') :
    ofWord (letter :: d.chars) =
      inRange (letter :: d.chars) (d.value ≤ 255) (.register ⟨.ofNat d.value⟩) := by
  have hall : d.chars.all Char.isDigit = true := List.all_eq_true.mpr d.isDigit
  have hne : ∀ c, c ≠ 'r' → c ≠ 'R' → letter ≠ c := by
    rintro c hsmall hcapital rfl
    exact hletter.elim hsmall hcapital
  unfold ofWord
  dsimp only
  rw [if_neg (hne '.' (by decide) (by decide)), if_neg (hne '[' (by decide) (by decide)),
    if_pos ⟨hletter, d.ne_nil, hall⟩, Numeral.byte?_of_afterPlus (Numeral.afterPlus_chars d),
    inRange]
  split_ifs <;> rfl

theorem ofWord_index_of_afterPlus {digits : List Char}
    (hdigits : Numeral.afterPlus digits = d.chars) :
    ofWord ('[' :: (digits ++ [']'])) =
      inRange ('[' :: (digits ++ [']'])) (d.value ≤ 255) (.index (.ofNat d.value)) := by
  unfold ofWord
  dsimp only
  rw [if_neg (by decide), if_pos rfl, bracketed?, List.getLast?_concat, if_pos rfl,
    List.dropLast_concat, Numeral.byte?_of_afterPlus hdigits, inRange]
  split_ifs <;> rfl

theorem ofWord_signed : ofWord (s.chars ++ d.chars) = .ok (.number (s.chars ++ d.chars)) := by
  cases s with
  | missing =>
    obtain ⟨first, rest, hcons, hfirst⟩ := d.exists_cons
    rw [Sign.chars, List.nil_append, hcons, ofWord_number (Or.inl hfirst)]
  | plus => exact ofWord_of_startsNumber (by decide) (by decide)
  | minus => exact ofWord_of_startsNumber (by decide) (by decide)

end Token

/-- A byte without the letter x is read in decimal. -/
theorem byteOf_number {word : List Char} (hsmall : 'x' ∉ word) (hcapital : 'X' ∉ word) :
    byteOf (.number word) = numberOr word (Numeral.byte? word) := by
  match word with
  | [] => rfl
  | [c] => exact byteOf_number_of_short Nat.one_lt_two
  | first :: second :: rest =>
    rw [byteOf_number_cons, if_neg]
    rintro ⟨-, rfl | rfl⟩
    · exact hsmall (by simp)
    · exact hcapital (by simp)

theorem isWord_hexadecimal : IsWord ('0' :: 'x' :: h.chars) :=
  isWord_cons (by decide) (List.forall_mem_cons.mpr ⟨by decide, h.plain⟩)

namespace Statement

theorem ofLine_ldaSmi8_signed :
    ofLine (lineOf ["LdaSmi8".toList, s.chars ++ d.chars]) =
      inRange (s.chars ++ d.chars) (-128 ≤ s.apply d.value ∧ s.apply d.value ≤ 127)
        (some (.instruction ⟨.ldaSmi8, some (.imm (.ofInt (s.apply d.value))), rfl⟩)) := by
  have hrange : (-2 ^ (8 - 1) ≤ s.apply d.value ∧ s.apply d.value < 2 ^ (8 - 1)) ↔
      (-128 ≤ s.apply d.value ∧ s.apply d.value ≤ 127) := by omega
  have hline := @ofLine_operand _ _ .ldaSmi8 .imm8 rfl (Numeral.isWord_signed d s)
    (Token.ofWord_signed d s)
  rw [operandByteOf, Numeral.signed?_chars] at hline
  simp only [hrange, Option.map_if, numberOr_ite, map_inRange] at hline
  exact hline

/-- A plus sign before the digits of a byte does not matter. -/
theorem ofLine_byte_decimal (hs : s ≠ .minus) :
    ofLine (lineOf [".bytes".toList, s.chars ++ d.chars]) =
      inRange (s.chars ++ d.chars) (d.value ≤ 255) (some (.bytes [.ofNat d.value])) := by
  have hplus : Numeral.afterPlus (s.chars ++ d.chars) = d.chars := by
    cases s with
    | missing => exact Numeral.afterPlus_chars d
    | plus => rfl
    | minus => exact absurd rfl hs
  have hnot : ∀ c : Char, c.isDigit = false → c ∉ s.chars → c ∉ s.chars ++ d.chars := by
    intro c hc hsign hmem
    rcases List.mem_append.mp hmem with hmem | hmem
    · exact hsign hmem
    · exact Bool.false_ne_true (hc.symm.trans (d.isDigit c hmem))
  have hsmall := hnot 'x' (by decide) (by cases s <;> decide)
  have hcapital := hnot 'X' (by decide) (by cases s <;> decide)
  rw [ofLine_byte (Numeral.isWord_signed d s) (Token.ofWord_signed d s),
    byteOf_number hsmall hcapital, Numeral.byte?_of_afterPlus hplus, numberOr_ite, map_inRange]

theorem ofLine_byte_hexadecimal :
    ofLine (lineOf [".bytes".toList, '0' :: 'x' :: h.chars]) =
      inRange ('0' :: 'x' :: h.chars) (h.value ≤ 255) (some (.bytes [.ofNat h.value])) := by
  have hword := isWord_hexadecimal h
  have htoken : Token.ofWord ('0' :: 'x' :: h.chars) = .ok (.number ('0' :: 'x' :: h.chars)) :=
    Token.ofWord_number (Or.inl (by decide))
  rw [ofLine_byte hword htoken, byteOf_number_cons, if_pos ⟨rfl, Or.inl rfl⟩,
    Numeral.hexByte?_chars, numberOr_ite, map_inRange]

end Statement

section

variable {start label : String} {word : List Char} {p : Prop} [Decidable p] {statement : Statement}
  (hstart : start = label ++ " ") (hlabel : IsWord label.toList) (hword : IsWord word)
  (hread : Statement.ofLine (lineOf [label.toList, word]) = inRange word p (some statement))

include hstart hlabel hword hread

/-- A text of one statement that a numeral decides on is drafted where the numeral is in its
range. -/
theorem assemble_pair_inRange :
    assemble (start ++ String.ofList word) =
      if p then (draftOf [statement]).finish.mapError .encode
      else .error (.line 1 (.invalidNumber (String.ofList word))) := by
  rw [assemble_pair hstart hlabel hword, hread, inRange]
  split_ifs <;> rfl

theorem assemble_pair_of_finish {code : Bytecode}
    (hfinish : (draftOf [statement]).finish = .ok code) :
    assemble (start ++ String.ofList word) =
      if p then .ok code else .error (.line 1 (.invalidNumber (String.ofList word))) := by
  rw [assemble_pair_inRange hstart hlabel hword hread, hfinish]
  rfl

end

theorem assemble_ldaSmi8_signed :
    assemble ("LdaSmi8 " ++ String.ofList (s.chars ++ d.chars)) =
      if -128 ≤ s.apply d.value ∧ s.apply d.value ≤ 127 then
        .ok ⟨#[1, (Int8.ofInt (s.apply d.value)).toUInt8], 0, #[]⟩
      else .error (.line 1 (.invalidNumber (String.ofList (s.chars ++ d.chars)))) :=
  assemble_pair_of_finish rfl (Statement.isWord_mnemonic .ldaSmi8) (Numeral.isWord_signed d s)
    (Statement.ofLine_ldaSmi8_signed d s) rfl

theorem assemble_byte_decimal (hs : s ≠ .minus) :
    assemble (".bytes " ++ String.ofList (s.chars ++ d.chars)) =
      if d.value ≤ 255 then .ok ⟨#[.ofNat d.value], 0, #[]⟩
      else .error (.line 1 (.invalidNumber (String.ofList (s.chars ++ d.chars)))) :=
  assemble_pair_of_finish rfl Statement.isWord_bytes (Numeral.isWord_signed d s)
    (Statement.ofLine_byte_decimal d s hs) rfl

theorem assemble_byte_hexadecimal :
    assemble (".bytes " ++ String.ofList ('0' :: 'x' :: h.chars)) =
      if h.value ≤ 255 then .ok ⟨#[.ofNat h.value], 0, #[]⟩
      else .error (.line 1 (.invalidNumber (String.ofList ('0' :: 'x' :: h.chars)))) :=
  assemble_pair_of_finish rfl Statement.isWord_bytes (isWord_hexadecimal h)
    (Statement.ofLine_byte_hexadecimal h) rfl

theorem finish_registers (count : Nat) :
    (draftOf [.registers count]).finish =
      if count ≤ 256 then .ok ⟨#[], count, #[]⟩ else .error (.tooManyRegisters count 256) := by
  have hfinish : (draftOf [.registers count]).finish =
      if count > 256 then .error (.tooManyRegisters count 256) else .ok ⟨#[], count, #[]⟩ := rfl
  rw [hfinish]
  by_cases hle : count ≤ 256
  · rw [if_neg (Nat.not_lt.mpr hle), if_pos hle]
  · rw [if_pos (Nat.not_le.mp hle), if_neg hle]

theorem assemble_registers_chars :
    assemble (".registers " ++ String.ofList d.chars) =
      if d.value ≤ 256 then .ok ⟨#[], d.value, #[]⟩
      else if d.value < 2 ^ 64 then .error (.encode (.tooManyRegisters d.value 256))
      else .error (.line 1 (.invalidNumber (String.ofList d.chars))) := by
  have hword : IsWord d.chars := Numeral.isWord_signed d .missing
  have htoken : Token.ofWord d.chars = .ok (.number d.chars) := Token.ofWord_signed d .missing
  have hread : Statement.ofLine (lineOf [".registers".toList, d.chars]) =
      inRange d.chars (d.value < 2 ^ 64) (some (.registers d.value)) := by
    rw [Statement.ofLine_registers hword htoken, registerCountOf,
      Numeral.unsigned?_of_afterPlus (Numeral.afterPlus_chars d), numberOr_ite, map_inRange]
    rfl
  have hstart : ".registers " = ".registers" ++ " " := rfl
  rw [assemble_pair_inRange hstart Statement.isWord_registers hword hread, finish_registers]
  by_cases hlimit : d.value < 2 ^ 64
  · rw [if_pos hlimit, if_pos hlimit]
    split_ifs <;> rfl
  · have hbeyond : ¬d.value ≤ 256 := by omega
    rw [if_neg hlimit, if_neg hbeyond, if_neg hlimit]

def integerConstant (n : Int) : Value :=
  if Value.FitsSmall n then .small (.ofInt n) else .number (.ofInt n)

theorem toDouble_integerConstant (n : Int) : (integerConstant n).toDouble = .ofInt n := by
  unfold integerConstant
  split_ifs with hfits
  · rw [Value.toDouble, Int32.toInt_ofInt_of_le hfits.1 hfits.2]
  · rfl

theorem numericConstant?_chars :
    numericConstant? (s.chars ++ d.chars) = some (integerConstant (s.apply d.value)) := by
  have hsigned : Numeral.signed? 32 (s.chars ++ d.chars) =
      if Value.FitsSmall (s.apply d.value) then some (s.apply d.value) else none :=
    Numeral.signed?_chars d s 32
  rw [numericConstant?, hsigned, integerConstant]
  by_cases hfits : Value.FitsSmall (s.apply d.value)
  · rw [if_pos hfits, if_pos hfits]
  · have hminus : s = .minus → d.value ≠ 0 := by
      rintro rfl hzero
      rw [hzero] at hfits
      exact hfits (by decide)
    rw [if_neg hfits, if_neg hfits]
    dsimp only
    rw [Binary64.ofText?_chars d s hminus, Option.map_some]

theorem Statement.ofLine_constant_signed :
    ofLine (lineOf [".constant".toList, s.chars ++ d.chars]) =
      .ok (some (.constant (integerConstant (s.apply d.value)))) := by
  rw [ofLine_constant (Numeral.isWord_signed d s) (Token.ofWord_signed d s), constantOf,
    numericConstant?_chars]
  rfl

theorem assemble_constant_signed :
    assemble (".constant " ++ String.ofList (s.chars ++ d.chars)) =
      .ok ⟨#[], 0, #[integerConstant (s.apply d.value)]⟩ :=
  assemble_constant (Numeral.isWord_signed d s) (Token.ofWord_signed d s)
    (numericConstant?_chars d s)

/-- Each place of a numeral takes exactly the numerals whose value is in its range. A register or an
index is refused as a word, an operand or a byte in its line. A register count is refused as a word
from 2 ^ 64 on, and below that where the code is finished. Every integer is a constant: a small
integer in the range of these, else the nearest double, which is an infinity beyond their range.
What is taken is what the assembled code holds. -/
theorem numerals_in_range (d : Digits) (h : HexDigits) (s : Sign) :
    Token.ofWord ('r' :: d.chars) =
        inRange ('r' :: d.chars) (d.value ≤ 255) (.register ⟨.ofNat d.value⟩) ∧
      Token.ofWord ('R' :: d.chars) =
        inRange ('R' :: d.chars) (d.value ≤ 255) (.register ⟨.ofNat d.value⟩) ∧
      Token.ofWord ('[' :: (d.chars ++ [']'])) =
        inRange ('[' :: (d.chars ++ [']'])) (d.value ≤ 255) (.index (.ofNat d.value)) ∧
      Token.ofWord ('[' :: ('+' :: d.chars ++ [']'])) =
        inRange ('[' :: ('+' :: d.chars ++ [']'])) (d.value ≤ 255) (.index (.ofNat d.value)) ∧
      Statement.ofLine (lineOf ["LdaSmi8".toList, s.chars ++ d.chars]) =
        inRange (s.chars ++ d.chars) (-128 ≤ s.apply d.value ∧ s.apply d.value ≤ 127)
          (some (.instruction ⟨.ldaSmi8, some (.imm (.ofInt (s.apply d.value))), rfl⟩)) ∧
      assemble ("LdaSmi8 " ++ String.ofList (s.chars ++ d.chars)) =
        (if -128 ≤ s.apply d.value ∧ s.apply d.value ≤ 127 then
          .ok ⟨#[1, (Int8.ofInt (s.apply d.value)).toUInt8], 0, #[]⟩
        else .error (.line 1 (.invalidNumber (String.ofList (s.chars ++ d.chars))))) ∧
      Statement.ofLine (lineOf [".bytes".toList, d.chars]) =
        inRange d.chars (d.value ≤ 255) (some (.bytes [.ofNat d.value])) ∧
      assemble (".bytes " ++ String.ofList d.chars) =
        (if d.value ≤ 255 then .ok ⟨#[.ofNat d.value], 0, #[]⟩
        else .error (.line 1 (.invalidNumber (String.ofList d.chars)))) ∧
      Statement.ofLine (lineOf [".bytes".toList, '+' :: d.chars]) =
        inRange ('+' :: d.chars) (d.value ≤ 255) (some (.bytes [.ofNat d.value])) ∧
      assemble (".bytes " ++ String.ofList ('+' :: d.chars)) =
        (if d.value ≤ 255 then .ok ⟨#[.ofNat d.value], 0, #[]⟩
        else .error (.line 1 (.invalidNumber (String.ofList ('+' :: d.chars))))) ∧
      Statement.ofLine (lineOf [".bytes".toList, '0' :: 'x' :: h.chars]) =
        inRange ('0' :: 'x' :: h.chars) (h.value ≤ 255) (some (.bytes [.ofNat h.value])) ∧
      assemble (".bytes " ++ String.ofList ('0' :: 'x' :: h.chars)) =
        (if h.value ≤ 255 then .ok ⟨#[.ofNat h.value], 0, #[]⟩
        else .error (.line 1 (.invalidNumber (String.ofList ('0' :: 'x' :: h.chars))))) ∧
      assemble (".registers " ++ String.ofList d.chars) =
        (if d.value ≤ 256 then .ok ⟨#[], d.value, #[]⟩
        else if d.value < 2 ^ 64 then .error (.encode (.tooManyRegisters d.value 256))
        else .error (.line 1 (.invalidNumber (String.ofList d.chars)))) ∧
      Statement.ofLine (lineOf [".constant".toList, s.chars ++ d.chars]) =
        .ok (some (.constant (integerConstant (s.apply d.value)))) ∧
      assemble (".constant " ++ String.ofList (s.chars ++ d.chars)) =
        .ok ⟨#[], 0, #[integerConstant (s.apply d.value)]⟩ ∧
      Binary64.RoundsTo (s.apply d.value) (.ofInt (s.apply d.value)) := by
  have hdigits := Numeral.afterPlus_chars d
  refine ⟨Token.ofWord_register_chars d (Or.inl rfl), Token.ofWord_register_chars d (Or.inr rfl),
    Token.ofWord_index_of_afterPlus d hdigits, Token.ofWord_index_of_afterPlus d rfl,
    Statement.ofLine_ldaSmi8_signed d s, assemble_ldaSmi8_signed d s, ?_, ?_, ?_, ?_,
    Statement.ofLine_byte_hexadecimal h, assemble_byte_hexadecimal h, assemble_registers_chars d,
    Statement.ofLine_constant_signed d s, assemble_constant_signed d s, Binary64.roundsTo_ofInt _⟩
  · exact Statement.ofLine_byte_decimal d .missing (by decide)
  · exact assemble_byte_decimal d .missing (by decide)
  · exact Statement.ofLine_byte_decimal d .plus (by decide)
  · exact assemble_byte_decimal d .plus (by decide)

end Assembly

end RegisterMachine
