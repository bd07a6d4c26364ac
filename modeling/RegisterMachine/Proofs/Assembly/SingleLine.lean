import RegisterMachine.Proofs.Assembly.Line

/-!
# Lines of two words, texts of one line

A directive or an opcode with one argument is read by the reader of that argument, and a text of one
line is assembled to what the line stands for.
-/

namespace RegisterMachine

open Text

namespace Assembly

theorem oneArgument_singleton {α : Type} (name : String) (read : Token → Except LineError α)
    (token : Token) : oneArgument name read [token] = read token := by
  rw [oneArgument]
  cases read token <;> rfl

namespace Statement

variable {word : List Char} {token : Token}

theorem ofLine_pair {label : List Char} {head : Token} (hlabel : IsWord label)
    (hhead : Token.ofWord label = .ok head) (hword : IsWord word)
    (htoken : Token.ofWord word = .ok token) :
    ofLine (lineOf [label, word]) = ofTokens [head, token] := by
  have hwords : ∀ w ∈ [label, word], IsWord w :=
    List.forall_mem_cons.mpr ⟨hlabel, List.forall_mem_singleton.mpr hword⟩
  have htokens : [label, word].mapM Token.ofWord = .ok [head, token] := by
    rw [List.mapM_cons, hhead, List.mapM_cons, htoken]
    rfl
  rw [ofLine, Token.ofLine_lineOf hwords, htokens]
  rfl

theorem ofLine_directive {label name : List Char} (hlabel : IsWord label)
    (hname : Token.ofWord label = .ok (.directive name)) (hword : IsWord word)
    (htoken : Token.ofWord word = .ok token) :
    ofLine (lineOf [label, word]) = some <$> ofDirective name [token] := by
  rw [ofLine_pair hlabel hname hword htoken, ofTokens]

theorem ofLine_registers (hword : IsWord word) (htoken : Token.ofWord word = .ok token) :
    ofLine (lineOf [".registers".toList, word]) =
      (some ∘ registers) <$> registerCountOf token := by
  have hname : Token.ofWord ".registers".toList = .ok (.directive "registers".toList) := rfl
  rw [ofLine_directive isWord_registers hname hword htoken, ofDirective, if_pos rfl,
    oneArgument_singleton, comp_map]

theorem ofLine_constant (hword : IsWord word) (htoken : Token.ofWord word = .ok token) :
    ofLine (lineOf [".constant".toList, word]) = (some ∘ constant) <$> constantOf token := by
  have hname : Token.ofWord ".constant".toList = .ok (.directive "constant".toList) := rfl
  rw [ofLine_directive isWord_constant hname hword htoken, ofDirective, if_neg (by decide),
    if_pos rfl, oneArgument_singleton, comp_map]

theorem ofLine_byte (hword : IsWord word) (htoken : Token.ofWord word = .ok token) :
    ofLine (lineOf [".bytes".toList, word]) =
      (fun byte => some (bytes [byte])) <$> byteOf token := by
  have hname : Token.ofWord ".bytes".toList = .ok (.directive "bytes".toList) := rfl
  rw [ofLine_directive isWord_bytes hname hword htoken, ofDirective, if_neg (by decide),
    if_neg (by decide), if_pos rfl, List.isEmpty_cons, if_neg Bool.false_ne_true, List.mapM_cons]
  cases byteOf token <;> rfl

theorem ofLine_operand {opcode : Opcode} {kind : OperandKind}
    (hkind : opcode.operandKind? = some kind) (hword : IsWord word)
    (htoken : Token.ofWord word = .ok token) :
    ofLine (lineOf [opcode.mnemonic.toList, word]) =
      (fun byte => some (instruction (.ofOperandByte opcode kind hkind byte))) <$>
        operandByteOf kind token := by
  have hargument : ofOpcode opcode [token] =
      (fun byte => instruction (.ofOperandByte opcode kind hkind byte)) <$>
        operandByteOf kind token := by
    unfold ofOpcode
    split
    · next h =>
      rw [h] at hkind
      cases hkind
    · next kind' h =>
      obtain rfl : kind = kind' := Option.some.inj (hkind.symm.trans h)
      rw [oneArgument_singleton]
      cases operandByteOf kind token <;> rfl
  rw [ofLine_pair (isWord_mnemonic opcode) (Token.ofWord_mnemonic opcode) hword htoken, ofTokens,
    ofMnemonic?_mnemonic]
  dsimp only
  rw [hargument]
  cases operandByteOf kind token <;> rfl

end Statement

/-- A text of one line has at most one statement, and declares no register count before it. -/
theorem assemble_of_line {line : String} (h : '\n' ∉ line.toList) :
    assemble line =
      ((Statement.ofLine line.toList).mapError (.line 1) >>= fun statement? =>
        (draftOf statement?.toList).finish.mapError .encode) := by
  rw [assemble, statements, lines_of_not_mem h, readLines]
  cases Statement.ofLine line.toList with
  | error e => rfl
  | ok statement? =>
    cases statement? with
    | none => rfl
    | some statement =>
      dsimp only
      rw [Bool.and_false, if_neg Bool.false_ne_true]
      rfl

theorem assemble_pair {start label : String} {word : List Char} (hstart : start = label ++ " ")
    (hlabel : IsWord label.toList) (hword : IsWord word) :
    assemble (start ++ String.ofList word) =
      ((Statement.ofLine (lineOf [label.toList, word])).mapError (.line 1) >>= fun statement? =>
        (draftOf statement?.toList).finish.mapError .encode) := by
  have hline : (start ++ String.ofList word).toList = lineOf [label.toList, word] := by
    rw [hstart, String.append_assoc]
    exact Statement.toList_append_space label (String.ofList word) (List.cons_ne_nil _ _)
      (String.toList_ofList.trans (lineOf_singleton word).symm)
  have hwords : ∀ w ∈ [label.toList, word], IsWord w :=
    List.forall_mem_cons.mpr ⟨hlabel, List.forall_mem_singleton.mpr hword⟩
  have hnewline : '\n' ∉ (start ++ String.ofList word).toList := by
    rw [hline]
    exact newline_not_mem_lineOf hwords
  rw [assemble_of_line hnewline, hline]

theorem assemble_constant {word : List Char} {value : Value} (hword : IsWord word)
    (htoken : Token.ofWord word = .ok (.number word))
    (hvalue : numericConstant? word = some value) :
    assemble (".constant " ++ String.ofList word) = .ok ⟨#[], 0, #[value]⟩ := by
  have hstart : ".constant " = ".constant" ++ " " := rfl
  rw [assemble_pair hstart Statement.isWord_constant hword,
    Statement.ofLine_constant hword htoken, constantOf, hvalue]
  rfl

end Assembly

end RegisterMachine
