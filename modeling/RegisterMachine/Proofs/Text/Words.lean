import RegisterMachine.Text.Words

/-!
# Words put on a line, lines put in a text

Words that are set apart by spaces are the words of their line, and lines that are each closed by a
line feed are the lines of their text, before one empty line.
-/

namespace RegisterMachine.Text

/-- A character that a word may have outside a comment. -/
def isPlain (c : Char) : Bool := !isBlank c && c != ';'

structure IsWord (word : List Char) : Prop where
  ne_nil : word ≠ []
  plain : ∀ c ∈ word, isPlain c

theorem isBlank_of_isPlain {c : Char} (h : isPlain c) : isBlank c = false := by
  simpa using (Bool.and_eq_true_iff.mp h).1

theorem isPlain_of_isDigit {c : Char} (h : c.isDigit) : isPlain c := by
  obtain ⟨hlow, hhigh⟩ := Char.isDigit_iff_toNat.mp h
  change 48 ≤ c.toNat at hlow
  change c.toNat ≤ 57 at hhigh
  have hblank : isBlank c = false := by
    simp [isBlank]
    omega
  have hsemicolon : c ≠ ';' := by
    rintro rfl
    exact absurd hhigh (by decide)
  simp [isPlain, hblank, hsemicolon]

theorem isWord_of_all {word : List Char} (hne : word ≠ []) (h : word.all isPlain = true) :
    IsWord word :=
  ⟨hne, List.all_eq_true.mp h⟩

theorem isWord_cons {first : Char} {rest : List Char} (h : isPlain first)
    (hrest : ∀ c ∈ rest, isPlain c) : IsWord (first :: rest) where
  ne_nil := List.cons_ne_nil _ _
  plain _ hc := (List.mem_cons.mp hc).elim (fun heq => heq ▸ h) (hrest _)

/-- A blank parts the words before it from those after it. -/
theorem words_append_cons {c : Char} (h : isBlank c = true) (p s : List Char) :
    words (p ++ c :: s) = words p ++ words s := by
  rw [words, List.splitOnP_append_cons p s h, List.filter_append, words, words]

theorem words_of_isWord {word : List Char} (h : IsWord word) : words word = [word] := by
  have hblank : ∀ c ∈ word, isBlank c = false := fun c hc => isBlank_of_isPlain (h.plain c hc)
  have hempty : (!word.isEmpty) = true := by simpa using h.ne_nil
  rw [words, List.splitOnP_eq_singleton hblank, List.filter_cons, if_pos hempty, List.filter_nil]

theorem withoutComment_append {p : List Char} (h : ';' ∉ p) (s : List Char) :
    withoutComment (p ++ s) = p ++ withoutComment s := by
  refine List.takeWhile_append_of_pos fun c hc => ?_
  simpa using fun heq : c = ';' => h (heq ▸ hc)

theorem withoutComment_of_not_mem {p : List Char} (h : ';' ∉ p) : withoutComment p = p := by
  simpa [withoutComment] using withoutComment_append h []

def lineOf (words : List (List Char)) : List Char := [' '].intercalate words

@[simp] theorem lineOf_singleton (word : List Char) : lineOf [word] = word :=
  List.intercalate_singleton

theorem lineOf_cons_cons (word next : List Char) (rest : List (List Char)) :
    lineOf (word :: next :: rest) = word ++ ' ' :: lineOf (next :: rest) := by
  rw [lineOf, List.intercalate_cons_cons, List.append_assoc]
  rfl

variable {ws : List (List Char)}

theorem mem_lineOf {c : Char} (h : c ∈ lineOf ws) : c = ' ' ∨ ∃ word ∈ ws, c ∈ word := by
  induction ws with
  | nil => cases h
  | cons word rest ih =>
    cases rest with
    | nil => exact Or.inr ⟨word, List.mem_cons_self, by simpa using h⟩
    | cons next rest =>
      rw [lineOf_cons_cons, List.mem_append, List.mem_cons] at h
      rcases h with h | h | h
      · exact Or.inr ⟨word, List.mem_cons_self, h⟩
      · exact Or.inl h
      · rcases ih h with h | ⟨word, hword, hc⟩
        · exact Or.inl h
        · exact Or.inr ⟨word, List.mem_cons_of_mem _ hword, hc⟩

theorem not_mem_lineOf (h : ∀ word ∈ ws, IsWord word) {c : Char} (hspace : c ≠ ' ')
    (hplain : isPlain c = false) : c ∉ lineOf ws := by
  intro hc
  rcases mem_lineOf hc with heq | ⟨word, hword, hc⟩
  · exact hspace heq
  · exact Bool.false_ne_true (hplain.symm.trans ((h word hword).plain c hc))

theorem withoutComment_lineOf (h : ∀ word ∈ ws, IsWord word) :
    withoutComment (lineOf ws) = lineOf ws :=
  withoutComment_of_not_mem (not_mem_lineOf h (by decide) (by decide))

theorem words_lineOf (h : ∀ word ∈ ws, IsWord word) : words (lineOf ws) = ws := by
  induction ws with
  | nil => rfl
  | cons word rest ih =>
    have hword := words_of_isWord (h word List.mem_cons_self)
    cases rest with
    | nil => rw [lineOf_singleton, hword]
    | cons next rest =>
      have hrest := ih fun word hw => h word (List.mem_cons_of_mem _ hw)
      rw [lineOf_cons_cons, words_append_cons (by decide), hword, hrest, List.singleton_append]

theorem newline_not_mem_lineOf (h : ∀ word ∈ ws, IsWord word) : '\n' ∉ lineOf ws :=
  not_mem_lineOf h (by decide) (by decide)

theorem lines_append (first second : List Char) :
    lines (first ++ '\n' :: second) = lines first ++ lines second := by
  simp only [lines, List.splitOn_eq_splitOnP]
  exact List.splitOnP_append_cons first second (by decide)

theorem lines_of_not_mem {line : List Char} (h : '\n' ∉ line) : lines line = [line] := by
  rw [lines, List.splitOn_eq_splitOnP]
  refine List.splitOnP_eq_singleton fun c hc => ?_
  simpa using fun heq : c = '\n' => h (heq ▸ hc)

def closed (ls : List (List Char)) : List Char := ls.flatMap (· ++ ['\n'])

theorem lines_closed {ls : List (List Char)} (h : ∀ line ∈ ls, '\n' ∉ line) :
    lines (closed ls) = ls ++ [[]] := by
  induction ls with
  | nil => rfl
  | cons line rest ih =>
    obtain ⟨hline, hrest⟩ := List.forall_mem_cons.mp h
    rw [closed, List.flatMap_cons, List.append_assoc, List.singleton_append, lines_append,
      lines_of_not_mem hline, ← closed, ih hrest, List.cons_append, List.nil_append,
      List.cons_append]

theorem length_lines (text : List Char) : (lines text).length = 1 + text.count '\n' := by
  simp only [lines, List.splitOn_eq_splitOnP]
  induction text with
  | nil => rfl
  | cons c rest ih =>
    rw [List.splitOnP_cons_eq_if_modifyHead, List.count_cons]
    by_cases hc : (c == '\n') = true
    · rw [if_pos hc, if_pos hc, List.length_cons, ih, Nat.add_assoc]
    · rw [if_neg hc, if_neg hc, List.length_modifyHead, ih, Nat.add_zero]

end RegisterMachine.Text
