import RegisterMachine.Assembly.Listing
import RegisterMachine.Assembly.Token
import RegisterMachine.Proofs.Text.Numeral

/-!
# Tokens of a listing

Each word that a listing puts on a line is one token, and the lexer tells it by its first characters
as it was written.
-/

namespace RegisterMachine

open Text

namespace Assembly

theorem mapM_ok {ε α β γ : Type} {read : β → Except ε γ} {write : α → β} {value : α → γ}
    {l : List α} (h : ∀ a ∈ l, read (write a) = .ok (value a)) :
    (l.map write).mapM read = .ok (l.map value) := by
  induction l with
  | nil => rfl
  | cons a rest ih =>
    have hrest := ih fun b hb => h b (List.mem_cons_of_mem _ hb)
    rw [List.map_cons, List.mapM_cons, h a List.mem_cons_self, hrest]
    rfl

theorem Token.ofLine_lineOf {ws : List (List Char)} (h : ∀ word ∈ ws, IsWord word) :
    Token.ofLine (lineOf ws) = ws.mapM Token.ofWord := by
  rw [Token.ofLine, withoutComment_lineOf h, words_lineOf h]

namespace Token

/-- A word that begins as numbers do is one, unless it begins with a point. -/
theorem ofWord_of_startsNumber {first : Char} {rest : List Char} (h : startsNumber first = true)
    (hpoint : first ≠ '.') : ofWord (first :: rest) = .ok (number (first :: rest)) := by
  have hne : ∀ c, startsNumber c = false → first ≠ c := by
    rintro c hc rfl
    rw [hc] at h
    cases h
  have hregister : ¬((first = 'r' ∨ first = 'R') ∧ rest ≠ [] ∧ rest.all Char.isDigit) := by
    rintro ⟨h | h, _⟩
    · exact hne 'r' (by decide) h
    · exact hne 'R' (by decide) h
  unfold ofWord
  dsimp only
  rw [if_neg hpoint, if_neg (hne '[' (by decide)), if_neg hregister, if_pos h]

theorem ofWord_number {first : Char} {rest : List Char} (h : first.isDigit ∨ first = '-') :
    ofWord (first :: rest) = .ok (number (first :: rest)) := by
  rcases h with h | rfl
  · exact ofWord_of_startsNumber (by simp [startsNumber, h])
      (Numeral.ne_of_isDigit h '.' (by decide))
  · exact ofWord_of_startsNumber (by decide) (by decide)

theorem ofWord_toDigits (n : Nat) :
    ofWord (Nat.toDigits 10 n) = .ok (number (Nat.toDigits 10 n)) := by
  obtain ⟨first, rest, heq, hdigit⟩ := Numeral.exists_toDigits n
  rw [heq, ofWord_number (Or.inl hdigit)]

theorem ofWord_toString_int (n : Int) :
    ofWord (toString n).toList = .ok (number (toString n).toList) := by
  rw [Numeral.toList_toString_int]
  split
  · exact ofWord_toDigits _
  · exact ofWord_number (Or.inr rfl)

theorem ofWord_byteText (byte : UInt8) :
    ofWord (Numeral.byteText byte).toList = .ok (number (Numeral.byteText byte).toList) := by
  rw [Numeral.byteText, String.toList_append]
  exact ofWord_number (Or.inl (by decide))

theorem toList_registerText (r : Register) :
    r.text.toList = 'r' :: Nat.toDigits 10 r.index.toNat := by
  rw [Register.text, String.toList_append, Nat.toString_eq_repr, Nat.toList_repr]
  rfl

theorem ofWord_register (r : Register) : ofWord r.text.toList = .ok (register r) := by
  have hall : (Nat.toDigits 10 r.index.toNat).all Char.isDigit = true :=
    List.all_eq_true.mpr fun _ hc => Numeral.isDigit_of_mem hc
  rw [toList_registerText]
  unfold ofWord
  dsimp only
  rw [if_neg (by decide), if_neg (by decide),
    if_pos ⟨Or.inl rfl, Nat.toDigits_ne_nil, hall⟩, Numeral.byte?_toDigits]
  rfl

theorem toList_indexText (index : UInt8) :
    ("[" ++ toString index.toNat ++ "]").toList =
      '[' :: (Nat.toDigits 10 index.toNat ++ [']']) := by
  rw [String.toList_append, String.toList_append, Nat.toString_eq_repr, Nat.toList_repr]
  rfl

theorem ofWord_index (i : UInt8) :
    ofWord ("[" ++ toString i.toNat ++ "]").toList = .ok (index i) := by
  rw [toList_indexText]
  unfold ofWord
  dsimp only
  rw [if_neg (by decide), if_pos rfl, bracketed?, List.getLast?_concat, if_pos rfl,
    List.dropLast_concat, Numeral.byte?_toDigits]
  rfl

theorem ofWord_mnemonic (opcode : Opcode) :
    ofWord opcode.mnemonic.toList = .ok (name opcode.mnemonic.toList) := by
  cases opcode <;> rfl

end Token

end Assembly

end RegisterMachine
