import RegisterMachine.Proofs.Assembly.Constant
import RegisterMachine.Proofs.Assembly.Reading

/-!
# Lines of a listing

Each line of a listing parses as the statement it was written for: the register count, a constant,
an instruction, the bytes that do not decode.
-/

namespace RegisterMachine

open Text Assembly

def Operand.token : Operand → Token
  | imm value => .number (toString value.toInt).toList
  | reg register => .register register
  | idx index => .index index

namespace Operand

theorem ofWord_text (operand : Operand) : Token.ofWord operand.text.toList = .ok operand.token := by
  cases operand with
  | imm value => exact Token.ofWord_toString_int _
  | reg register => exact Token.ofWord_register register
  | idx index => exact Token.ofWord_index index

theorem isWord_text (operand : Operand) : IsWord operand.text.toList := by
  cases operand with
  | imm value => exact Numeral.isWord_toString_int _
  | reg register =>
    rw [text, Token.toList_registerText]
    exact isWord_cons (by decide) (Numeral.isWord_toDigits _).plain
  | idx index =>
    rw [text, Token.toList_indexText]
    refine isWord_cons (by decide) ?_
    rw [List.forall_mem_append, List.forall_mem_singleton]
    exact ⟨(Numeral.isWord_toDigits _).plain, by decide⟩

theorem operandByteOf_token (operand : Operand) :
    operandByteOf operand.kind operand.token = .ok operand.toByte := by
  cases operand with
  | imm value =>
    have hsigned : Numeral.signed? 8 (toString value.toInt).toList = some value.toInt :=
      Numeral.signed?_toString ⟨value.le_toInt, value.toInt_lt⟩
    rw [kind, token, operandByteOf, hsigned, Option.map_some, Int8.ofInt_toInt]
    rfl
  | reg register => rfl
  | idx index => rfl

end Operand

namespace Assembly.Statement

theorem isWord_mnemonic (opcode : Opcode) : IsWord opcode.mnemonic.toList := by
  have hall : opcode.mnemonic.toList ≠ [] ∧ opcode.mnemonic.toList.all isPlain = true := by
    cases opcode <;> decide
  exact isWord_of_all hall.1 hall.2

theorem ofMnemonic?_mnemonic (opcode : Opcode) :
    Opcode.ofMnemonic? opcode.mnemonic.toList = some opcode := by
  cases opcode <;> decide

theorem ofOpcode_operand (i : Instruction) :
    ofOpcode i.opcode (i.operand?.toList.map Operand.token) = .ok (instruction i) := by
  obtain ⟨opcode, operand?, hkind⟩ := i
  cases operand? with
  | none =>
    unfold ofOpcode
    split
    · rfl
    · next kind h =>
      rw [h] at hkind
      cases hkind
  | some operand =>
    unfold ofOpcode
    split
    · next h =>
      rw [h] at hkind
      cases hkind
    · next kind h =>
      obtain rfl : operand.kind = kind := Option.some.inj (hkind.trans h)
      have hbyte := operand.operandByteOf_token
      have hargument : oneArgument opcode.mnemonic (operandByteOf operand.kind)
          [operand.token] = .ok operand.toByte := by
        rw [oneArgument, hbyte]
        rfl
      have hoperand : Instruction.ofOperandByte opcode operand.kind h operand.toByte =
          ⟨opcode, some operand, hkind⟩ := by
        simp [Instruction.ofOperandByte]
      rw [Option.toList_some, List.map_singleton, hargument]
      exact congrArg (fun i => Except.ok (instruction i)) hoperand

theorem toList_append_space (first rest : String) {ws : List (List Char)} (hne : ws ≠ [])
    (h : rest.toList = lineOf ws) :
    (first ++ (" " ++ rest)).toList = lineOf (first.toList :: ws) := by
  obtain ⟨next, ws, rfl⟩ := List.exists_cons_of_ne_nil hne
  rw [String.toList_append, String.toList_append, h, lineOf_cons_cons]
  rfl

theorem toList_instructionText (i : Instruction) :
    i.text.toList =
      lineOf (i.opcode.mnemonic.toList :: i.operand?.toList.map (·.text.toList)) := by
  unfold Instruction.text
  cases i.operand? with
  | none =>
    rw [Option.elim_none, String.append_empty, Option.toList_none, List.map_nil, lineOf_singleton]
  | some operand =>
    rw [Option.elim_some, Option.toList_some, List.map_singleton]
    exact toList_append_space _ _ (List.cons_ne_nil _ _) (lineOf_singleton _).symm

theorem reads_instruction (i : Instruction) : Reads i.text (instruction i) := by
  have hwords : ∀ word ∈ i.opcode.mnemonic.toList :: i.operand?.toList.map (·.text.toList),
      IsWord word := by
    rw [List.forall_mem_cons, List.forall_mem_map]
    exact ⟨isWord_mnemonic i.opcode, fun operand _ => operand.isWord_text⟩
  have htokens : (i.opcode.mnemonic.toList :: i.operand?.toList.map (·.text.toList)).mapM
      Token.ofWord =
      .ok (.name i.opcode.mnemonic.toList :: i.operand?.toList.map Operand.token) := by
    rw [List.mapM_cons, Token.ofWord_mnemonic, mapM_ok fun operand _ => operand.ofWord_text]
    rfl
  refine reads_of_words (toList_instructionText i) hwords htokens ?_
  rw [ofTokens, ofMnemonic?_mnemonic]
  dsimp only
  rw [ofOpcode_operand]
  rfl

theorem isWord_registers : IsWord ".registers".toList := isWord_of_all (by decide) (by decide)

theorem isWord_constant : IsWord ".constant".toList := isWord_of_all (by decide) (by decide)

theorem isWord_bytes : IsWord ".bytes".toList := isWord_of_all (by decide) (by decide)

theorem reads_directive {label start argument : String} {name : List Char}
    {ws : List (List Char)} {tokens : List Token} {statement : Statement}
    (hlabel : IsWord label.toList) (hstart : start = label ++ " ")
    (htoken : Token.ofWord label.toList = .ok (.directive name)) (hne : ws ≠ [])
    (hargument : argument.toList = lineOf ws) (hws : ∀ word ∈ ws, IsWord word)
    (htokens : ws.mapM Token.ofWord = .ok tokens)
    (hdirective : ofDirective name tokens = .ok statement) :
    Reads (start ++ argument) statement := by
  have hwords : ∀ word ∈ label.toList :: ws, IsWord word :=
    List.forall_mem_cons.mpr ⟨hlabel, hws⟩
  have hall : (label.toList :: ws).mapM Token.ofWord = .ok (.directive name :: tokens) := by
    rw [List.mapM_cons, htoken, htokens]
    rfl
  have hline : (start ++ argument).toList = lineOf (label.toList :: ws) := by
    rw [hstart, String.append_assoc, toList_append_space label argument hne hargument]
  refine reads_of_words hline hwords hall ?_
  rw [ofTokens, hdirective]
  rfl

theorem reads_registers {count : Nat} (h : count < registerCountLimit) :
    Reads (".registers " ++ toString count) (registers count) := by
  have hargument : (toString count).toList = lineOf [Nat.toDigits 10 count] := by
    rw [Nat.toString_eq_repr, Nat.toList_repr, lineOf_singleton]
  have htokens : [Nat.toDigits 10 count].mapM Token.ofWord =
      .ok [.number (Nat.toDigits 10 count)] := by
    rw [List.mapM_cons, Token.ofWord_toDigits]
    rfl
  have hcount : registerCountOf (.number (Nat.toDigits 10 count)) = .ok count := by
    rw [registerCountOf, Numeral.unsigned?_toDigits h]
    rfl
  have hdirective : ofDirective "registers".toList [.number (Nat.toDigits 10 count)] =
      .ok (registers count) := by
    rw [ofDirective, if_pos rfl, oneArgument, hcount]
    rfl
  exact reads_directive isWord_registers rfl rfl (List.cons_ne_nil _ _) hargument
    (List.forall_mem_singleton.mpr (Numeral.isWord_toDigits count)) htokens hdirective

theorem reads_constant (value : Value) :
    Reads (".constant " ++ value.literal) (constant value.mergeNaN) := by
  obtain ⟨hword, token, htoken, hvalue⟩ := readsAs_literal value
  have htokens : [value.literal.toList].mapM Token.ofWord = .ok [token] := by
    rw [List.mapM_cons, htoken]
    rfl
  have hdirective : ofDirective "constant".toList [token] = .ok (constant value.mergeNaN) := by
    rw [ofDirective, if_neg (by decide), if_pos rfl, oneArgument, hvalue]
    rfl
  exact reads_directive isWord_constant rfl rfl (List.cons_ne_nil _ _) (lineOf_singleton _).symm
    (List.forall_mem_singleton.mpr hword) htokens hdirective

theorem toList_byteText (byte : UInt8) :
    (Numeral.byteText byte).toList =
      ['0', 'x', (byte.toNat / 16).digitChar, (byte.toNat % 16).digitChar] := by
  have hprefix : "0x".toList = ['0', 'x'] := rfl
  rw [Numeral.byteText, String.toList_append, hprefix, String.toList_ofList]
  rfl

theorem byteOf_byteText (byte : UInt8) :
    byteOf (.number (Numeral.byteText byte).toList) = .ok byte := by
  rw [toList_byteText, byteOf, Numeral.hexByte?_digits]
  rfl

theorem isWord_byteText (byte : UInt8) : IsWord (Numeral.byteText byte).toList := by
  have hall : ∀ n : Fin 16, isPlain n.val.digitChar = true := by decide
  have hlow : byte.toNat % 16 < 16 := Nat.mod_lt _ (by decide)
  have hhigh : byte.toNat / 16 < 16 := Nat.div_lt_of_lt_mul byte.toNat_lt
  rw [toList_byteText]
  refine isWord_cons (by decide) ?_
  rw [List.forall_mem_cons, List.forall_mem_cons, List.forall_mem_singleton]
  exact ⟨by decide, hall ⟨_, hhigh⟩, hall ⟨_, hlow⟩⟩

theorem reads_bytes {payload : List UInt8} (h : payload ≠ []) :
    Reads (".bytes " ++ String.intercalate " " (payload.map Numeral.byteText))
      (bytes payload) := by
  have hargument : (String.intercalate " " (payload.map Numeral.byteText)).toList =
      lineOf (payload.map fun byte => (Numeral.byteText byte).toList) := by
    rw [String.toList_intercalate, List.map_map]
    rfl
  have hne : (payload.map fun byte => (Numeral.byteText byte).toList) ≠ [] := by simpa using h
  have hempty : (payload.map fun byte => Token.number (Numeral.byteText byte).toList).isEmpty =
      false := by simpa using h
  have hdirective : ofDirective "bytes".toList
      (payload.map fun byte => .number (Numeral.byteText byte).toList) = .ok (bytes payload) := by
    rw [ofDirective, if_neg (by decide), if_neg (by decide), if_pos rfl, hempty,
      if_neg Bool.false_ne_true, mapM_ok fun byte _ => byteOf_byteText byte, List.map_id']
    rfl
  exact reads_directive isWord_bytes rfl rfl hne hargument
    (List.forall_mem_map.mpr fun byte _ => isWord_byteText byte)
    (mapM_ok fun byte _ => Token.ofWord_byteText byte) hdirective

end Assembly.Statement

end RegisterMachine
