import Mathlib.Tactic.SplitIfs
import RegisterMachine.Assembly.Program
import RegisterMachine.Proofs.Binary64.LetterCase
import RegisterMachine.Proofs.Text.Layout

/-!
# Letter case and layout in programs

A word in small letters is the same token as the word, in small letters (`ofWord_lowered`), and
tokens in small letters make up the same statement, or the error they make quotes a word in other
letters. So the contents of a text, its words line by line in small letters, decide what it is
assembled to (`sameUpTo_of_contents`).
-/

namespace RegisterMachine

/-- Two computations come to the same result, or to errors that are the same after `fold`. -/
inductive SameUpTo {ε α : Type} (fold : ε → ε) : Except ε α → Except ε α → Prop
  | ok (a : α) : SameUpTo fold (.ok a) (.ok a)
  | error {e e' : ε} (h : fold e = fold e') : SameUpTo fold (.error e) (.error e')

namespace SameUpTo

variable {ε α β : Type} {fold : ε → ε} {r r' r'' : Except ε α}

theorem refl (r : Except ε α) : SameUpTo fold r r := by
  cases r with
  | error e => exact .error rfl
  | ok a => exact .ok a

theorem symm (h : SameUpTo fold r r') : SameUpTo fold r' r := by
  cases h with
  | error h => exact .error h.symm
  | ok a => exact .ok a

theorem trans (h : SameUpTo fold r r') (h' : SameUpTo fold r' r'') : SameUpTo fold r r'' := by
  cases h with
  | error h =>
    cases h' with
    | error h' => exact .error (h.trans h')
  | ok a => exact h'

theorem bind {next next' : α → Except ε β} (h : SameUpTo fold r r')
    (hnext : ∀ a, SameUpTo fold (next a) (next' a)) :
    SameUpTo fold (r >>= next) (r' >>= next') := by
  cases h with
  | error h => exact .error h
  | ok a => exact hnext a

theorem map (f : α → β) (h : SameUpTo fold r r') : SameUpTo fold (f <$> r) (f <$> r') := by
  cases h with
  | error h => exact .error h
  | ok a => exact .ok (f a)

theorem mapM {γ : Type} {write : γ → γ} {read : γ → Except ε α}
    (h : ∀ c, SameUpTo fold (read (write c)) (read c)) (l : List γ) :
    SameUpTo fold ((l.map write).mapM read) (l.mapM read) := by
  induction l with
  | nil => exact .ok []
  | cons c rest ih =>
    rw [List.map_cons, List.mapM_cons, List.mapM_cons]
    exact (h c).bind fun _ => ih.bind fun _ => .refl _

end SameUpTo

open Text

namespace Assembly

def inSmall (word : String) : String := String.ofList (lowered word.toList)

def LineError.lowered : LineError → LineError
  | unknownOpcode word => unknownOpcode (inSmall word)
  | unknownDirective word => unknownDirective (inSmall word)
  | missingOperand name expected => missingOperand name expected
  | invalidNumber word => invalidNumber (inSmall word)
  | invalidConstant word => invalidConstant (inSmall word)
  | unexpectedToken word => unexpectedToken (inSmall word)
  | duplicateRegisters => duplicateRegisters

def Error.lowered : Error → Error
  | line number e => line number e.lowered
  | encode e => encode e

def Token.lowered : Token → Token
  | name word => name (Text.lowered word)
  | number word => number (Text.lowered word)
  | token => token

theorem inSmall_ofList (word : List Char) :
    inSmall (String.ofList word) = String.ofList (lowered word) := by
  rw [inSmall, String.toList_ofList]

theorem inSmall_ofList_lowered (word : List Char) :
    inSmall (String.ofList (lowered word)) = inSmall (String.ofList word) := by
  rw [inSmall_ofList, inSmall_ofList, lowered_lowered]

theorem inSmall_inSmall (word : String) : inSmall (inSmall word) = inSmall word := by
  rw [inSmall, inSmall, String.toList_ofList, lowered_lowered]

theorem LineError.lowered_lowered (e : LineError) : e.lowered.lowered = e.lowered := by
  cases e with
  | unknownOpcode word => exact congrArg unknownOpcode (inSmall_inSmall word)
  | unknownDirective word => exact congrArg unknownDirective (inSmall_inSmall word)
  | missingOperand name expected => rfl
  | invalidNumber word => exact congrArg invalidNumber (inSmall_inSmall word)
  | invalidConstant word => exact congrArg invalidConstant (inSmall_inSmall word)
  | unexpectedToken word => exact congrArg unexpectedToken (inSmall_inSmall word)
  | duplicateRegisters => rfl

theorem Token.inSmall_text_lowered (token : Token) :
    inSmall token.lowered.text = inSmall token.text := by
  cases token with
  | name word => exact inSmall_ofList_lowered word
  | number word => exact inSmall_ofList_lowered word
  | directive label => rfl
  | register r => rfl
  | index i => rfl

theorem bracketed?_lowered (rest : List Char) :
    Token.bracketed? (lowered rest) = Token.bracketed? rest := by
  have hlast : (lowered rest).getLast? = some ']' ↔ rest.getLast? = some ']' := by
    rw [lowered, List.getLast?_map]
    cases rest.getLast? with
    | none => exact Iff.rfl
    | some c =>
      rw [Option.map_some, Option.some_inj, Option.some_inj]
      exact iff_toLower (p := (· = ']')) (by decide) c
  have hbyte : Numeral.byte? (lowered rest).dropLast = Numeral.byte? rest.dropLast := by
    rw [lowered, ← List.map_dropLast, ← lowered, Numeral.byte?_lowered]
  simp only [Token.bracketed?, hlast, hbyte]

theorem numberOr_token_lowered (word : List Char) {token? : Option Token}
    (h : token?.map Token.lowered = token?) :
    numberOr (lowered word) token? =
      ((numberOr word token?).map Token.lowered).mapError LineError.lowered := by
  cases token? with
  | none => exact congrArg (Except.error ∘ LineError.invalidNumber) (inSmall_ofList word).symm
  | some token => exact congrArg Except.ok (Option.some.inj h).symm

theorem ofWord_lowered (word : List Char) :
    Token.ofWord (lowered word) =
      ((Token.ofWord word).map Token.lowered).mapError LineError.lowered := by
  cases word with
  | nil => rfl
  | cons first rest =>
    have hpoint : first.toLower = '.' ↔ first = '.' := iff_toLower (p := (· = '.')) (by decide) _
    have hbracket : first.toLower = '[' ↔ first = '[' := iff_toLower (p := (· = '[')) (by decide) _
    have hletter : (first.toLower = 'r' ∨ first.toLower = 'R') ↔ (first = 'r' ∨ first = 'R') :=
      iff_toLower (p := fun c => c = 'r' ∨ c = 'R') (by decide) _
    have hnumber : Token.startsNumber first.toLower = Token.startsNumber first :=
      apply_toLower (by decide) _
    have hempty : lowered rest ≠ [] ↔ rest ≠ [] := by simp [lowered]
    -- The tests that tell the kinds of words apart come out alike, so the cases are the same.
    rw [lowered_cons]
    unfold Token.ofWord
    simp only [hpoint, hbracket, hletter, hnumber, hempty, all_isDigit_lowered,
      bracketed?_lowered, Numeral.byte?_lowered]
    split_ifs
    · rw [Text.lowered_lowered]
      rfl
    · exact numberOr_token_lowered (first :: rest) (by cases Token.bracketed? rest <;> rfl)
    · exact numberOr_token_lowered (first :: rest) (by cases Numeral.byte? rest <;> rfl)
    · rfl
    · rfl

theorem mapM_ofWord_lowered (ws : List (List Char)) :
    (ws.map lowered).mapM Token.ofWord =
      ((ws.mapM Token.ofWord).map (List.map Token.lowered)).mapError LineError.lowered := by
  induction ws with
  | nil => rfl
  | cons word rest ih =>
    rw [List.map_cons, List.mapM_cons, List.mapM_cons, ofWord_lowered, ih]
    cases Token.ofWord word with
    | error e => rfl
    | ok token => cases rest.mapM Token.ofWord <;> rfl

theorem unexpected_lowered {α : Type} (token : Token) :
    SameUpTo LineError.lowered (unexpected token.lowered : Except LineError α)
      (unexpected token) :=
  .error (congrArg LineError.unexpectedToken token.inSmall_text_lowered)

theorem numberOr_lowered {α : Type} (word : List Char) (value? : Option α) :
    SameUpTo LineError.lowered (numberOr (lowered word) value?) (numberOr word value?) := by
  cases value? with
  | none => exact .error (congrArg LineError.invalidNumber (inSmall_ofList_lowered word))
  | some value => exact .ok value

theorem expectEnd_lowered (tokens : List Token) :
    SameUpTo LineError.lowered (expectEnd (tokens.map Token.lowered)) (expectEnd tokens) := by
  cases tokens with
  | nil => exact .ok ()
  | cons token rest => exact unexpected_lowered token

theorem registerCountOf_lowered (token : Token) :
    SameUpTo LineError.lowered (registerCountOf token.lowered) (registerCountOf token) := by
  cases token
  case number word =>
    rw [Token.lowered, registerCountOf, Numeral.unsigned?_lowered]
    exact numberOr_lowered word _
  all_goals exact unexpected_lowered _

theorem byteOf_number_of_short {word : List Char} (h : word.length < 2) :
    byteOf (.number word) = numberOr word (Numeral.byte? word) := by
  unfold byteOf
  dsimp only
  split
  · exact absurd h (by simp)
  · exact absurd h (by simp)
  · rfl

theorem byteOf_number_cons (first second : Char) (rest : List Char) :
    byteOf (.number (first :: second :: rest)) = numberOr (first :: second :: rest)
      (if first = '0' ∧ (second = 'x' ∨ second = 'X') then Numeral.hexByte? rest
        else Numeral.byte? (first :: second :: rest)) := by
  unfold byteOf
  dsimp only
  split
  · next heq =>
    obtain ⟨rfl, rfl, rfl⟩ := heq
    rfl
  · next heq =>
    obtain ⟨rfl, rfl, rfl⟩ := heq
    rfl
  · next hsmall hcapital =>
    rw [if_neg]
    rintro ⟨rfl, rfl | rfl⟩
    · exact hsmall rest rfl
    · exact hcapital rest rfl

theorem byteOf_lowered (token : Token) :
    SameUpTo LineError.lowered (byteOf token.lowered) (byteOf token) := by
  cases token
  case number word =>
    rw [Token.lowered]
    match word with
    | [] => exact .refl _
    | [c] =>
      have hshort : [c].length < 2 := Nat.one_lt_two
      have hshort' : (lowered [c]).length < 2 := Nat.one_lt_two
      rw [byteOf_number_of_short hshort, byteOf_number_of_short hshort', Numeral.byte?_lowered]
      exact numberOr_lowered [c] _
    | first :: second :: rest =>
      have hzero : first.toLower = '0' ↔ first = '0' := iff_toLower (p := (· = '0')) (by decide) _
      have hx : (second.toLower = 'x' ∨ second.toLower = 'X') ↔ (second = 'x' ∨ second = 'X') :=
        iff_toLower (p := fun c => c = 'x' ∨ c = 'X') (by decide) _
      rw [lowered_cons, lowered_cons, byteOf_number_cons, byteOf_number_cons, ← lowered_cons,
        ← lowered_cons, Numeral.byte?_lowered, Numeral.hexByte?_lowered]
      simp only [hzero, hx]
      exact numberOr_lowered _ _
  all_goals exact unexpected_lowered _

theorem numericConstant?_lowered (word : List Char) :
    numericConstant? (lowered word) = numericConstant? word := by
  rw [numericConstant?, Numeral.signed?_lowered, Binary64.ofText?_lowered, numericConstant?]

theorem namedConstant?_lowered (word : List Char) :
    namedConstant? (lowered word) = namedConstant? word := by
  rw [namedConstant?, lowered_lowered, namedConstant?]

theorem constantOf_lowered (token : Token) :
    SameUpTo LineError.lowered (constantOf token.lowered) (constantOf token) := by
  have hor : ∀ value? : Option Value,
      SameUpTo LineError.lowered
        (value?.elim (.error (.invalidConstant token.lowered.text)) .ok : Except LineError Value)
        (value?.elim (.error (.invalidConstant token.text)) .ok) := by
    intro value?
    cases value? with
    | none => exact .error (congrArg LineError.invalidConstant token.inSmall_text_lowered)
    | some value => exact .ok value
  cases token with
  | name word =>
    rw [Token.lowered, constantOf, constantOf, namedConstant?_lowered]
    exact hor _
  | number word =>
    rw [Token.lowered, constantOf, constantOf, numericConstant?_lowered]
    exact hor _
  | directive label => exact hor none
  | register r => exact hor none
  | index i => exact hor none

theorem operandByteOf_lowered (kind : OperandKind) (token : Token) :
    SameUpTo LineError.lowered (operandByteOf kind token.lowered) (operandByteOf kind token) := by
  cases kind <;> cases token
  case imm8.number word =>
    rw [Token.lowered, operandByteOf, operandByteOf, Numeral.signed?_lowered]
    exact numberOr_lowered word _
  case reg8.register r => exact .ok _
  case idx8.index i => exact .ok _
  all_goals exact unexpected_lowered _

theorem oneArgument_lowered {α : Type} (name : String) {read : Token → Except LineError α}
    (h : ∀ token, SameUpTo LineError.lowered (read token.lowered) (read token))
    (arguments : List Token) :
    SameUpTo LineError.lowered (oneArgument name read (arguments.map Token.lowered))
      (oneArgument name read arguments) := by
  cases arguments with
  | nil => exact .error rfl
  | cons token rest =>
    exact (h token).bind fun _ => (expectEnd_lowered rest).bind fun _ => .refl _

theorem ofDirective_lowered (name : List Char) (arguments : List Token) :
    SameUpTo LineError.lowered (Statement.ofDirective name (arguments.map Token.lowered))
      (Statement.ofDirective name arguments) := by
  unfold Statement.ofDirective
  rw [List.isEmpty_map]
  split_ifs
  · exact (oneArgument_lowered _ registerCountOf_lowered arguments).map _
  · exact (oneArgument_lowered _ constantOf_lowered arguments).map _
  · exact .refl _
  · exact (SameUpTo.mapM byteOf_lowered arguments).map _
  · exact .refl _

theorem ofOpcode_lowered (opcode : Opcode) (arguments : List Token) :
    SameUpTo LineError.lowered (Statement.ofOpcode opcode (arguments.map Token.lowered))
      (Statement.ofOpcode opcode arguments) := by
  unfold Statement.ofOpcode
  split
  · exact (expectEnd_lowered arguments).bind fun _ => .refl _
  · next kind _ =>
    exact (oneArgument_lowered _ (operandByteOf_lowered kind) arguments).bind fun _ => .refl _

theorem ofMnemonic?_lowered (word : List Char) :
    Opcode.ofMnemonic? (lowered word) = Opcode.ofMnemonic? word := by
  rw [Opcode.ofMnemonic?, lowered_lowered, Opcode.ofMnemonic?]

theorem ofTokens_lowered (tokens : List Token) :
    SameUpTo LineError.lowered (Statement.ofTokens (tokens.map Token.lowered))
      (Statement.ofTokens tokens) := by
  cases tokens with
  | nil => exact .ok none
  | cons token arguments =>
    rw [List.map_cons]
    cases token with
    | directive name => exact (ofDirective_lowered name arguments).map some
    | name word =>
      rw [Token.lowered, Statement.ofTokens, Statement.ofTokens, ofMnemonic?_lowered]
      cases Opcode.ofMnemonic? word with
      | none => exact .error (congrArg LineError.unknownOpcode (inSmall_ofList_lowered word))
      | some opcode => exact (ofOpcode_lowered opcode arguments).map some
    | register r => exact unexpected_lowered (.register r)
    | index i => exact unexpected_lowered (.index i)
    | number word => exact unexpected_lowered (.number word)

def statementOf (ws : List (List Char)) : Except LineError (Option Statement) :=
  ws.mapM Token.ofWord >>= Statement.ofTokens

theorem statementOf_lowered (ws : List (List Char)) :
    SameUpTo LineError.lowered (statementOf (ws.map lowered)) (statementOf ws) := by
  rw [statementOf, statementOf, mapM_ofWord_lowered]
  cases ws.mapM Token.ofWord with
  | error e => exact .error e.lowered_lowered
  | ok tokens => exact ofTokens_lowered tokens

/-- Lines of the same words, but for the case of their letters. -/
theorem ofLine_of_lineWords {line line' : List Char}
    (h : (lineWords line).map lowered = (lineWords line').map lowered) :
    SameUpTo LineError.lowered (Statement.ofLine line) (Statement.ofLine line') := by
  have hline := (statementOf_lowered (lineWords line)).symm
  rw [h] at hline
  exact hline.trans (statementOf_lowered (lineWords line'))

/-- Line by line the readers go the same way: what a line declares does not depend on its case. -/
theorem readLines_of_lineWords {ls ls' : List (List Char)}
    (h : ls.map (fun line => (lineWords line).map lowered) =
      ls'.map fun line => (lineWords line).map lowered) (number : Nat) (declared : Bool) :
    SameUpTo Error.lowered (readLines number declared ls) (readLines number declared ls') := by
  induction ls generalizing ls' number declared with
  | nil =>
    obtain rfl := List.map_eq_nil_iff.mp h.symm
    exact .ok []
  | cons line rest ih =>
    obtain ⟨line', rest', rfl, hline, hrest⟩ := List.map_eq_cons_iff.mp h.symm
    have hstatement := ofLine_of_lineWords hline.symm
    rw [readLines, readLines]
    generalize Statement.ofLine line = r at hstatement ⊢
    generalize Statement.ofLine line' = r' at hstatement ⊢
    cases hstatement with
    | error he => exact .error (congrArg (Error.line number) he)
    | ok statement? =>
      cases statement? with
      | none => exact ih hrest.symm (number + 1) declared
      | some statement =>
        dsimp only
        split
        · exact .refl _
        · exact (ih hrest.symm (number + 1) _).bind fun _ => .refl _

/-- The contents of a text decide what it is assembled to. -/
theorem sameUpTo_of_contents {text text' : String}
    (h : contents text.toList = contents text'.toList) :
    SameUpTo Error.lowered (assemble text) (assemble text') :=
  (readLines_of_lineWords h 1 false).bind fun _ => .refl _

/-- Neither layout nor letter case matters: texts that differ in nothing else are assembled to the
same bytecode, or have the same error on the same line, quoting the same word up to letter case. -/
theorem assemble_relaid {text text' : String} (h : Relaid text.toList text'.toList) :
    SameUpTo Error.lowered (assemble text) (assemble text') :=
  sameUpTo_of_contents (contents_of_relaid h).symm

theorem assemble_relaid_spaced :
    Relaid ".bytes 0xFf\nLdar r1".toList ".BYTES\t 0XfF;pad\n ldar R1".toList ∧
      SameUpTo Error.lowered (assemble ".bytes 0xFf\nLdar r1")
        (assemble ".BYTES\t 0XfF;pad\n ldar R1") := by
  have hcase : Edit ".bytes 0xFf\nLdar r1".toList ".BYTES 0XfF\nldar R1".toList :=
    .recase (by decide)
  have hspace : Edit ".BYTES 0XfF\nldar R1".toList ".BYTES\t 0XfF\nldar R1".toList :=
    @Edit.space ".BYTES".toList "0XfF\nldar R1".toList [' '] ['\t', ' '] (by decide) (by decide)
      (by decide) (by decide)
  have hmargin : Edit ".BYTES\t 0XfF\nldar R1".toList ".BYTES\t 0XfF\n ldar R1".toList :=
    @Edit.margin ".BYTES\t 0XfF\n".toList "ldar R1".toList [] [' '] (by decide) (by decide)
      (Or.inl (Or.inr ⟨".BYTES\t 0XfF".toList, rfl⟩))
  have hremark : Edit ".BYTES\t 0XfF\n ldar R1".toList ".BYTES\t 0XfF;pad\n ldar R1".toList :=
    @Edit.remark ".BYTES\t 0XfF".toList "\n ldar R1".toList [] ";pad".toList
      ⟨by decide, Or.inl rfl⟩ ⟨by decide, Or.inr ⟨"pad".toList, rfl⟩⟩ (Or.inr ⟨_, rfl⟩)
  have h : Relaid ".bytes 0xFf\nLdar r1".toList ".BYTES\t 0XfF;pad\n ldar R1".toList :=
    (((Relation.ReflTransGen.single hcase).tail hspace).tail hmargin).tail hremark
  exact ⟨h, assemble_relaid h⟩

end Assembly

end RegisterMachine
