import RegisterMachine.Assembly.Program
import RegisterMachine.Proofs.Assembly.Token

/-!
# Reading lines one by one

A line reads as a statement if its words have tokens that make up the statement. A text of lines
that each read as a statement reads as the program of these statements, if only its first line
declares the register count.
-/

namespace RegisterMachine.Assembly

open Text

structure Reads (line : String) (statement : Statement) : Prop where
  single : '\n' ∉ line.toList
  parses : Statement.ofLine line.toList = .ok (some statement)

theorem reads_of_words {line : String} {ws : List (List Char)} {tokens : List Token}
    {statement : Statement} (hline : line.toList = lineOf ws) (hws : ∀ word ∈ ws, IsWord word)
    (htokens : ws.mapM Token.ofWord = .ok tokens)
    (hstatement : Statement.ofTokens tokens = .ok (some statement)) : Reads line statement where
  single := hline ▸ newline_not_mem_lineOf hws
  parses := by
    rw [hline, Statement.ofLine, Token.ofLine_lineOf hws, htokens]
    exact hstatement

inductive ReadAll : List String → List Statement → Prop
  | nil : ReadAll [] []
  | cons {line : String} {statement : Statement} {ls : List String} {program : List Statement}
      (head : Reads line statement) (tail : ReadAll ls program) :
      ReadAll (line :: ls) (statement :: program)

namespace ReadAll

variable {ls ls' : List String} {program program' : List Statement}

theorem map {α : Type} {line : α → String} {statement : α → Statement} {l : List α}
    (h : ∀ a ∈ l, Reads (line a) (statement a)) : ReadAll (l.map line) (l.map statement) := by
  induction l with
  | nil => exact .nil
  | cons a rest ih =>
    exact .cons (h a List.mem_cons_self) (ih fun b hb => h b (List.mem_cons_of_mem _ hb))

theorem append (h : ReadAll ls program) (h' : ReadAll ls' program') :
    ReadAll (ls ++ ls') (program ++ program') := by
  induction h with
  | nil => exact h'
  | cons head _ ih => exact .cons head ih

theorem single (h : ReadAll ls program) : ∀ line ∈ ls.map String.toList, '\n' ∉ line := by
  induction h with
  | nil => exact fun _ hl => absurd hl List.not_mem_nil
  | cons head _ ih => exact List.forall_mem_cons.mpr ⟨head.single, ih⟩

/-- Lines that declare no register count read as their program, before the empty line that ends a
text. -/
theorem readLines (h : ReadAll ls program)
    (hregisters : ∀ statement ∈ program, statement.isRegisters = false) (number : Nat)
    (declared : Bool) :
    Assembly.readLines number declared (ls.map String.toList ++ [[]]) = .ok program := by
  induction h generalizing number with
  | nil => rfl
  | @cons line statement ls program head tail ih =>
    obtain ⟨hplain, hrest⟩ := List.forall_mem_cons.mp hregisters
    rw [List.map_cons, List.cons_append, Assembly.readLines, head.parses]
    dsimp only
    rw [hplain, Bool.false_and, if_neg Bool.false_ne_true, Bool.or_false, ih hrest]
    rfl

theorem statements {first : String} {count : Nat} (hfirst : Reads first (.registers count))
    (h : ReadAll ls program)
    (hregisters : ∀ statement ∈ program, statement.isRegisters = false) :
    Assembly.statements (String.join ((first :: ls).map (· ++ "\n"))) =
      .ok (.registers count :: program) := by
  have htext : (String.join ((first :: ls).map (· ++ "\n"))).toList =
      closed ((first :: ls).map String.toList) := by
    simp only [String.toList_join, closed, List.flatMap_map, String.toList_append]
    rfl
  have hlines := lines_closed (ReadAll.cons hfirst h).single
  rw [Assembly.statements, htext, hlines, List.map_cons, List.cons_append, Assembly.readLines,
    hfirst.parses]
  dsimp only
  rw [Bool.and_false, if_neg Bool.false_ne_true, h.readLines hregisters]
  rfl

end ReadAll

end RegisterMachine.Assembly
