import RegisterMachine.Proofs.Text.Numeral

/-!
# Letter case in texts and numerals

The readers of a text do not tell a capital from its small letter: the lines, words and comments of
a text in small letters are those of the text, put in small letters, and a numeral in small letters
has the same value.
-/

namespace RegisterMachine

namespace Text

theorem toLower_cases (c : Char) :
    c.toLower = c ∨ 65 ≤ c.toNat ∧ c.toNat ≤ 90 ∧ c.toLower.toNat = c.toNat + 32 := by
  unfold Char.toLower
  split
  · next hcap =>
    have hlow : 65 ≤ c.toNat := hcap.1
    have hhigh : c.toNat ≤ 90 := hcap.2
    refine Or.inr ⟨hlow, hhigh, ?_⟩
    change (c.toNat + 32) % 4294967296 = c.toNat + 32
    omega
  · exact Or.inl rfl

/-- A property of characters that does not tell the capitals from their small letters. -/
theorem apply_toLower {α : Type} {f : Char → α}
    (h : ∀ n : Fin 26, f (Char.ofNat (n + 97)) = f (Char.ofNat (n + 65))) (c : Char) :
    f c.toLower = f c := by
  rcases toLower_cases c with hsame | ⟨hlow, hhigh, hsmall⟩
  · rw [hsame]
  · have hletter := h ⟨c.toNat - 65, by omega⟩
    have hcapital : c.toNat - 65 + 65 = c.toNat := by omega
    have hlower : c.toNat - 65 + 97 = c.toLower.toNat := by omega
    rwa [hcapital, hlower, Char.ofNat_toNat, Char.ofNat_toNat] at hletter

theorem iff_toLower {p : Char → Prop}
    (h : ∀ n : Fin 26, p (Char.ofNat (n + 97)) ↔ p (Char.ofNat (n + 65))) (c : Char) :
    p c.toLower ↔ p c :=
  Iff.of_eq (apply_toLower (fun n => propext (h n)) c)

@[simp] theorem isBlank_toLower (c : Char) : isBlank c.toLower = isBlank c :=
  apply_toLower (by decide) c

@[simp] theorem isDigit_toLower (c : Char) : c.toLower.isDigit = c.isDigit :=
  apply_toLower (by decide) c

theorem toLower_of_isDigit {c : Char} (h : c.isDigit) : c.toLower = c := by
  have hhigh : c.toNat ≤ 57 := (Char.isDigit_iff_toNat.mp h).2
  rcases toLower_cases c with hsame | ⟨hlow, -, -⟩
  · exact hsame
  · omega

theorem all_isDigit_lowered (word : List Char) :
    (lowered word).all Char.isDigit = word.all Char.isDigit := by
  rw [lowered, List.all_map]
  exact congrArg _ (funext isDigit_toLower)

theorem lowered_of_isDigit {word : List Char} (h : ∀ c ∈ word, c.isDigit) : lowered word = word :=
  (List.map_congr_left fun c hc => toLower_of_isDigit (h c hc)).trans (List.map_id word)

theorem lowered_cons (c : Char) (rest : List Char) :
    lowered (c :: rest) = c.toLower :: lowered rest := rfl

@[simp] theorem lowered_lowered (text : List Char) : lowered (lowered text) = lowered text := by
  rw [lowered, lowered, List.map_map]
  exact List.map_congr_left fun c _ => apply_toLower (f := Char.toLower) (by decide) c

theorem splitOnP_lowered {p : Char → Bool} (h : ∀ c : Char, p c.toLower = p c)
    (text : List Char) : (lowered text).splitOnP p = (text.splitOnP p).map lowered := by
  induction text with
  | nil => rfl
  | cons c rest ih =>
    rw [lowered] at ih ⊢
    rw [List.map_cons, List.splitOnP_cons_eq_if_modifyHead, List.splitOnP_cons_eq_if_modifyHead, h,
      ih]
    cases hc : p c with
    | true => rfl
    | false =>
      cases rest.splitOnP p with
      | nil => rfl
      | cons first others => rfl

theorem lines_lowered (text : List Char) : lines (lowered text) = (lines text).map lowered := by
  rw [lines, lines, List.splitOn_eq_splitOnP, List.splitOn_eq_splitOnP]
  exact splitOnP_lowered (fun c => apply_toLower (by decide) c) text

theorem withoutComment_lowered (line : List Char) :
    withoutComment (lowered line) = lowered (withoutComment line) := by
  rw [withoutComment, lowered, List.takeWhile_map]
  refine congrArg _ (congrArg (List.takeWhile · line) (funext fun c => ?_))
  exact apply_toLower (f := (· != ';')) (by decide) c

theorem words_lowered (line : List Char) : words (lowered line) = (words line).map lowered := by
  rw [words, splitOnP_lowered isBlank_toLower, List.filter_map, words]
  refine congrArg _ (congrArg (List.filter · _) (funext fun word => ?_))
  simp [lowered]

end Text

namespace Numeral

open Text

theorem afterPlus_lowered (word : List Char) :
    afterPlus (lowered word) = lowered (afterPlus word) := by
  cases word with
  | nil => rfl
  | cons c rest =>
    have hplus : c.toLower = '+' ↔ c = '+' := iff_toLower (p := (· = '+')) (by decide) c
    rw [lowered_cons, afterPlus_cons, afterPlus_cons]
    simp only [hplus]
    split
    · rfl
    · rw [lowered_cons]

/-- A reader of digits alone reads no letter. -/
theorem read_lowered {α : Type} {read : List Char → Option α}
    (h : ∀ word, word.all Char.isDigit = false → read word = none) (word : List Char) :
    read (lowered word) = read word := by
  cases hall : word.all Char.isDigit with
  | true => rw [lowered_of_isDigit (List.all_eq_true.mp hall)]
  | false => rw [h word hall, h (lowered word) ((all_isDigit_lowered word).trans hall)]

theorem decimal?_lowered (digits : List Char) : decimal? (lowered digits) = decimal? digits :=
  read_lowered (fun _ h => by rw [decimal?, h, Bool.not_false, Bool.or_true, if_pos rfl]) digits

theorem hexDigit?_toLower (c : Char) : hexDigit? c.toLower = hexDigit? c :=
  apply_toLower (by decide) c

theorem hexadecimal?_lowered (digits : List Char) :
    hexadecimal? (lowered digits) = hexadecimal? digits := by
  have hdigits : hexDigit? ∘ Char.toLower = hexDigit? := funext hexDigit?_toLower
  rw [hexadecimal?, lowered, List.isEmpty_map, List.mapM_map, hdigits, hexadecimal?]

theorem unsigned?_lowered (limit : Nat) (word : List Char) :
    unsigned? limit (lowered word) = unsigned? limit word := by
  rw [unsigned?, afterPlus_lowered, decimal?_lowered, unsigned?]

theorem hexByte?_lowered (word : List Char) : hexByte? (lowered word) = hexByte? word := by
  rw [hexByte?, afterPlus_lowered, hexadecimal?_lowered, hexByte?]

theorem byte?_lowered (word : List Char) : byte? (lowered word) = byte? word := by
  rw [byte?, unsigned?_lowered, byte?]

theorem splitSign_lowered (word : List Char) :
    splitSign (lowered word) = ((splitSign word).1, lowered (splitSign word).2) := by
  by_cases hminus : ∃ rest, word = '-' :: rest
  · obtain ⟨rest, rfl⟩ := hminus
    rfl
  · have hne : ∀ rest, word ≠ '-' :: rest := not_exists.mp hminus
    have hlower : ∀ rest, lowered word ≠ '-' :: rest := by
      intro rest heq
      cases word with
      | nil => cases heq
      | cons c others =>
        have hc := (iff_toLower (p := (· = '-')) (by decide) c).mp (List.cons.inj heq).1
        exact hne others (hc ▸ rfl)
    rw [splitSign_of_ne hlower, splitSign_of_ne hne, afterPlus_lowered]

theorem integer?_lowered (word : List Char) : integer? (lowered word) = integer? word := by
  rw [integer?_eq, integer?_eq, splitSign_lowered, decimal?_lowered]

theorem signed?_lowered (bits : Nat) (word : List Char) :
    signed? bits (lowered word) = signed? bits word := by
  rw [signed?, integer?_lowered, signed?]

end Numeral

end RegisterMachine
