import Mathlib.Data.List.Induction
import Mathlib.Logic.Relation
import RegisterMachine.Proofs.Text.LetterCase
import RegisterMachine.Proofs.Text.Words

/-!
# Texts laid out anew

`Edit` lists the changes to a text that are no changes to what it says: letters change case, blanks
between words become other blanks, lines are set in and get other ends, and comments come and go.
`contents` is what all of these leave alone (`contents_of_relaid`): line by line, the words in small
letters.
-/

namespace RegisterMachine.Text

def IsGap (run : List Char) : Prop := ∀ c ∈ run, isBlank c = true ∧ c ≠ '\n'

instance (run : List Char) : Decidable (IsGap run) :=
  List.decidableBAll (fun c => isBlank c = true ∧ c ≠ '\n') run

/-- A comment within a line, or nothing in its place. -/
def IsRemark (remark : List Char) : Prop :=
  '\n' ∉ remark ∧ (remark = [] ∨ ∃ note, remark = ';' :: note)

def LineStart (before : List Char) : Prop := before = [] ∨ ∃ rest, before = rest ++ ['\n']

def LineEnd (after : List Char) : Prop := after = [] ∨ ∃ rest, after = '\n' :: rest

/-- One change of the letter case or the layout of a text. -/
inductive Edit : List Char → List Char → Prop
  | recase {text text' : List Char} (h : lowered text = lowered text') : Edit text text'
  /-- Other blanks in the place of blanks. -/
  | space (before after : List Char) {run run' : List Char} (hrun : IsGap run)
      (hrun' : IsGap run') (hne : run ≠ []) (hne' : run' ≠ []) :
      Edit (before ++ run ++ after) (before ++ run' ++ after)
  /-- Other blanks, more or none at an end of a line. -/
  | margin {before after : List Char} {run run' : List Char} (hrun : IsGap run)
      (hrun' : IsGap run') (hedge : LineStart before ∨ LineEnd after) :
      Edit (before ++ run ++ after) (before ++ run' ++ after)
  /-- Another comment, a new one or none at the end of a line. -/
  | remark (before : List Char) {after : List Char} {remark remark' : List Char}
      (hremark : IsRemark remark) (hremark' : IsRemark remark') (hend : LineEnd after) :
      Edit (before ++ remark ++ after) (before ++ remark' ++ after)

def Relaid : List Char → List Char → Prop := Relation.ReflTransGen Edit

def lineWords (line : List Char) : List (List Char) := words (withoutComment line)

def contents (text : List Char) : List (List (List Char)) :=
  (lines text).map fun line => (lineWords line).map lowered

@[simp] theorem lineWords_nil : lineWords [] = [] := rfl

theorem words_gap_append {run : List Char} (h : IsGap run) (s : List Char) :
    words (run ++ s) = words s := by
  induction run with
  | nil => rfl
  | cons c rest ih =>
    obtain ⟨hc, hrest⟩ := List.forall_mem_cons.mp h
    exact (words_append_cons hc.1 [] (rest ++ s)).trans (ih hrest)

theorem words_gap {run : List Char} (h : IsGap run) (hne : run ≠ []) (p s : List Char) :
    words (p ++ run ++ s) = words p ++ words s := by
  obtain ⟨c, rest, rfl⟩ := List.exists_cons_of_ne_nil hne
  obtain ⟨hc, hrest⟩ := List.forall_mem_cons.mp h
  rw [List.append_assoc, List.cons_append, words_append_cons hc.1, words_gap_append hrest]

theorem withoutComment_remark (p note : List Char) :
    withoutComment (p ++ ';' :: note) = withoutComment p := by
  induction p with
  | nil => rfl
  | cons c rest ih =>
    rw [withoutComment] at ih ⊢
    rw [List.cons_append, List.takeWhile_cons, ih, withoutComment, withoutComment,
      List.takeWhile_cons]

theorem withoutComment_append_of_mem {p : List Char} (h : ';' ∈ p) (s : List Char) :
    withoutComment (p ++ s) = withoutComment p := by
  obtain ⟨code, note, rfl, -⟩ := List.eq_append_cons_of_mem h
  rw [List.append_assoc, List.cons_append, withoutComment_remark, withoutComment_remark]

/-- Blanks on a line part its words, unless they stand in its comment. -/
theorem lineWords_gap {run : List Char} (h : IsGap run) (hne : run ≠ []) (p s : List Char) :
    lineWords (p ++ run ++ s) = lineWords p ++ if ';' ∈ p then [] else lineWords s := by
  by_cases hp : ';' ∈ p
  · rw [if_pos hp, List.append_nil, lineWords, List.append_assoc, withoutComment_append_of_mem hp,
      lineWords]
  · have hrun : ';' ∉ run := fun hc => absurd (h _ hc).1 (by decide)
    rw [if_neg hp, lineWords, List.append_assoc, withoutComment_append hp,
      withoutComment_append hrun, ← List.append_assoc, words_gap h hne, lineWords,
      withoutComment_of_not_mem hp, lineWords]

theorem lineWords_gap_append {run : List Char} (h : IsGap run) (s : List Char) :
    lineWords (run ++ s) = lineWords s := by
  rcases eq_or_ne run [] with rfl | hne
  · rfl
  · simpa using lineWords_gap h hne [] s

theorem lineWords_append_gap {run : List Char} (h : IsGap run) (p : List Char) :
    lineWords (p ++ run) = lineWords p := by
  rcases eq_or_ne run [] with rfl | hne
  · rw [List.append_nil]
  · simpa using lineWords_gap h hne p []

theorem lineWords_append_remark {remark : List Char} (h : IsRemark remark) (p : List Char) :
    lineWords (p ++ remark) = lineWords p := by
  obtain ⟨-, rfl | ⟨note, rfl⟩⟩ := h
  · rw [List.append_nil]
  · rw [lineWords, withoutComment_remark, lineWords]

/-- What a text in front of another one adds to its lines: whole lines, and the start of the
first. -/
theorem exists_lines_append (before : List Char) :
    ∃ front p, '\n' ∉ p ∧ (LineStart before → p = []) ∧
      ∀ text, lines (before ++ text) = front ++ lines (p ++ text) := by
  -- From the right: the last line feed in front is where the line of the change starts.
  induction before using List.reverseRecOn with
  | nil => exact ⟨[], [], List.not_mem_nil, fun _ => rfl, fun _ => rfl⟩
  | append_singleton before c ih =>
    by_cases hc : c = '\n'
    · refine ⟨lines before, [], List.not_mem_nil, fun _ => rfl, fun text => ?_⟩
      rw [hc, List.append_assoc, List.singleton_append, lines_append, List.nil_append]
    · obtain ⟨front, p, hp, -, hlines⟩ := ih
      refine ⟨front, p ++ [c], ?_, fun hstart => ?_, fun text => ?_⟩
      · simpa [hp] using Ne.symm hc
      · obtain hnil | ⟨rest, hrest⟩ := hstart
        · simp at hnil
        · exact absurd (List.append_inj' hrest rfl).2 (by simpa using hc)
      · rw [List.append_assoc, hlines, List.append_assoc]

/-- What a text behind a line adds to it: the end of the line, and lines. -/
theorem exists_lines_prepend (after : List Char) :
    ∃ s back, (LineEnd after → s = []) ∧
      ∀ line, '\n' ∉ line → lines (line ++ after) = (line ++ s) :: back := by
  by_cases h : '\n' ∈ after
  · obtain ⟨s, rest, rfl, hs⟩ := List.eq_append_cons_of_mem h
    refine ⟨s, lines rest, fun hend => ?_, fun line hline => ?_⟩
    · obtain hnil | ⟨rest', hrest⟩ := hend
      · simp at hnil
      · cases s with
        | nil => rfl
        | cons c s => exact absurd (List.cons.inj hrest).1 (fun heq => hs (heq ▸ List.mem_cons_self))
    · rw [← List.append_assoc, lines_append, lines_of_not_mem (by simp [hline, hs])]
      rfl
  · refine ⟨after, [], fun hend => ?_, fun line hline => lines_of_not_mem (by simp [hline, h])⟩
    obtain hnil | ⟨rest, hrest⟩ := hend
    · exact hnil
    · exact absurd (hrest ▸ List.mem_cons_self) h

/-- A change within a line counts only as far as it changes the words of that line. -/
theorem contents_congr {before after x x' : List Char} (hx : '\n' ∉ x) (hx' : '\n' ∉ x')
    (h : ∀ p s, (LineStart before → p = []) → (LineEnd after → s = []) →
      lineWords (p ++ x ++ s) = lineWords (p ++ x' ++ s)) :
    contents (before ++ x ++ after) = contents (before ++ x' ++ after) := by
  obtain ⟨front, p, hp, hstart, hfront⟩ := exists_lines_append before
  obtain ⟨s, back, hend, hback⟩ := exists_lines_prepend after
  have hlines : ∀ y, '\n' ∉ y →
      lines (before ++ y ++ after) = front ++ (p ++ y ++ s) :: back := by
    intro y hy
    rw [List.append_assoc, hfront, ← List.append_assoc, hback _ (by simp [hp, hy])]
  rw [contents, contents, hlines x hx, hlines x' hx', List.map_append, List.map_append,
    List.map_cons, List.map_cons, h p s hstart hend]

theorem IsGap.newline_not_mem {run : List Char} (h : IsGap run) : '\n' ∉ run :=
  fun hc => (h _ hc).2 rfl

theorem contents_lowered (text : List Char) : contents (lowered text) = contents text := by
  rw [contents, lines_lowered, List.map_map]
  refine List.map_congr_left fun line _ => ?_
  have hwords : lineWords (lowered line) = (lineWords line).map lowered := by
    rw [lineWords, withoutComment_lowered, words_lowered, lineWords]
  rw [Function.comp_apply, hwords, List.map_map]
  exact List.map_congr_left fun word _ => lowered_lowered word

theorem contents_of_edit {text text' : List Char} (h : Edit text text') :
    contents text' = contents text := by
  cases h with
  | recase h => rw [← contents_lowered text', ← h, contents_lowered]
  | space before after hrun hrun' hne hne' =>
    refine contents_congr hrun'.newline_not_mem hrun.newline_not_mem fun p s _ _ => ?_
    rw [lineWords_gap hrun' hne', lineWords_gap hrun hne]
  | margin hrun hrun' hedge =>
    refine contents_congr hrun'.newline_not_mem hrun.newline_not_mem fun p s hp hs => ?_
    rcases hedge with hstart | hend
    · rw [hp hstart, List.nil_append, List.nil_append, lineWords_gap_append hrun',
        lineWords_gap_append hrun]
    · rw [hs hend, List.append_nil, List.append_nil, lineWords_append_gap hrun',
        lineWords_append_gap hrun]
  | remark before hremark hremark' hend =>
    refine contents_congr hremark'.1 hremark.1 fun p s _ hs => ?_
    rw [hs hend, List.append_nil, List.append_nil, lineWords_append_remark hremark',
      lineWords_append_remark hremark]

theorem contents_of_relaid {text text' : List Char} (h : Relaid text text') :
    contents text' = contents text := by
  induction h with
  | refl => rfl
  | tail _ hedit ih => rw [contents_of_edit hedit, ih]

end RegisterMachine.Text
