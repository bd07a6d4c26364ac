import Mathlib.Algebra.GroupWithZero.Nat
import Mathlib.Tactic.SplitIfs
import RegisterMachine.Assembly.Program

/-!
# Assembling with guards

The assembler once more, the way a machine carries it out: a comment is cut off at an offset in
bytes, arguments are sliced from a position on, operands are a list of any length and any kinds, and
each line extends the draft before the next one is read. A cut inside a character, a slice from
behind the end and an operand too many or too few would each be a panic here. No text leads to one
(`assembleGuarded_eq`), and what is assembled is the same.
-/

namespace RegisterMachine.Assembly

/-- What stops a program that has not made sure of what it does. -/
inductive Panic where
  /-- A text cut elsewhere than between two of its characters. -/
  | cut (offset : Nat)
  | slice (start length : Nat)
  | operandCount (mismatch : OperandCountMismatch)
  deriving DecidableEq

/-- What may end in a panic, in an error that is reported, or in a result. -/
abbrev Guarded (ε : Type) := Except (Panic ⊕ ε)

def safely {ε α : Type} (result : Except ε α) : Guarded ε α := result.mapError .inr

/-! ### Lines -/

def byteLength (text : List Char) : Nat := (text.map Char.utf8Size).sum

def semicolon? (line : List Char) : Option Nat :=
  if ';' ∈ line then some (byteLength (line.takeWhile (· != ';'))) else none

def cut {ε : Type} : Nat → List Char → Guarded ε (List Char)
  | 0, _ => .ok []
  | offset + 1, [] => .error (.inl (.cut (offset + 1)))
  | offset + 1, c :: rest =>
    if c.utf8Size ≤ offset + 1 then (c :: ·) <$> cut (offset + 1 - c.utf8Size) rest
    else .error (.inl (.cut (offset + 1)))

def guardedTokens (line : List Char) : Guarded LineError (List Token) := do
  let line ← (semicolon? line).elim (.ok line) (cut · line)
  safely ((Text.words line).mapM Token.ofWord)

/-! ### Statements -/

def slice {ε α : Type} (start : Nat) (l : List α) : Guarded ε (List α) :=
  if start ≤ l.length then .ok (l.drop start) else .error (.inl (.slice start l.length))

def guardedArgument {α : Type} (name : String) (read : Token → Except LineError α)
    (arguments : List Token) : Guarded LineError α := do
  let token ← safely (arguments.head?.elim (.error (.missingOperand name 1)) .ok)
  let value ← safely (read token)
  let rest ← slice 1 arguments
  safely (expectEnd rest)
  return value

def operandOf : OperandKind × Token → Except LineError Operand
  | (.imm8, .number word) =>
    numberOr word ((Numeral.signed? 8 word).map fun n => .imm (.ofInt n))
  | (.reg8, .register register) => .ok (.reg register)
  | (.idx8, .index index) => .ok (.idx index)
  | (_, token) => unexpected token

def guardedOperands (opcode : Opcode) (arguments : List Token) :
    Guarded LineError (List Operand) := do
  let kinds := opcode.operandKind?.toList
  if arguments.length < kinds.length then
    safely (.error (.missingOperand opcode.mnemonic kinds.length))
  else
    let operands ← safely ((kinds.zip arguments).mapM operandOf)
    let rest ← slice kinds.length arguments
    safely (expectEnd rest)
    return operands

def guardedDirective (name : List Char) (arguments : List Token) :
    Guarded LineError Draft.Call :=
  if name = "registers".toList then
    .declareRegisters <$> guardedArgument ".registers" registerCountOf arguments
  else if name = "constant".toList then
    .pushConstant <$> guardedArgument ".constant" constantOf arguments
  else if name = "bytes".toList then
    if arguments.isEmpty then safely (.error (.missingOperand ".bytes" 1))
    else .raw <$> safely (arguments.mapM byteOf)
  else safely (.error (.unknownDirective (String.ofList ('.' :: name))))

/-- The call that the tokens of a line make on the draft; a blank line makes none. -/
def guardedStatement : List Token → Guarded LineError (Option Draft.Call)
  | [] => .ok none
  | .directive name :: arguments => some <$> guardedDirective name arguments
  | .name word :: arguments =>
    match Opcode.ofMnemonic? word with
    | none => safely (.error (.unknownOpcode (String.ofList word)))
    | some opcode => (some ∘ .emit opcode) <$> guardedOperands opcode arguments
  | token :: _ => safely (unexpected token)

def guardedCall (line : List Char) : Guarded LineError (Option Draft.Call) :=
  guardedTokens line >>= guardedStatement

/-! ### Programs -/

def isDeclaration : Draft.Call → Bool
  | .declareRegisters _ => true
  | _ => false

def guardedLines (number : Nat) (declared : Bool) (draft : Draft) :
    List (List Char) → Guarded Error Draft
  | [] => .ok draft
  | line :: rest =>
    match guardedCall line with
    | .error (.inl panic) => .error (.inl panic)
    | .error (.inr e) => .error (.inr (.line number e))
    | .ok none => guardedLines (number + 1) declared draft rest
    | .ok (some call) =>
      if isDeclaration call && declared then .error (.inr (.line number .duplicateRegisters))
      else
        match draft.perform call with
        | (.error mismatch, _) => .error (.inl (.operandCount mismatch))
        | (.ok _, draft) => guardedLines (number + 1) (declared || isDeclaration call) draft rest

def assembleGuarded (text : String) : Guarded Error Bytecode := do
  let draft ← guardedLines 1 false .empty (Text.lines text.toList)
  safely (draft.finish.mapError .encode)

/-! ### No guard is needed -/

theorem safely_map {ε α β : Type} (f : α → β) (result : Except ε α) :
    f <$> safely result = safely (f <$> result) := by
  cases result <;> rfl

theorem cut_byteLength {ε : Type} (front rest : List Char) :
    cut (byteLength front) (front ++ rest) = (.ok front : Guarded ε (List Char)) := by
  induction front with
  | nil => rw [byteLength, List.map_nil, List.sum_nil, cut]
  | cons c front ih =>
    have hpos := c.utf8Size_pos
    have hlength : byteLength (c :: front) = c.utf8Size + byteLength front := List.sum_cons
    obtain ⟨n, hn⟩ := Nat.exists_eq_succ_of_ne_zero (n := byteLength (c :: front)) (by omega)
    rw [hn, List.cons_append, cut, if_pos (by omega), ← Nat.succ_eq_add_one, ← hn, hlength,
      Nat.add_sub_cancel_left, ih]
    rfl

theorem guardedTokens_eq (line : List Char) : guardedTokens line = safely (Token.ofLine line) := by
  have hcomment : (semicolon? line).elim (.ok line) (cut · line) =
      (.ok (Text.withoutComment line) : Guarded LineError (List Char)) := by
    unfold semicolon? Text.withoutComment
    split
    · have hcut := @cut_byteLength LineError (line.takeWhile (· != ';')) (line.dropWhile (· != ';'))
      rwa [List.takeWhile_append_dropWhile] at hcut
    · next h =>
      have hplain : ∀ c ∈ line, (c != ';') = true := fun c hc =>
        bne_iff_ne.mpr fun he => h (he ▸ hc)
      have hall := @List.takeWhile_append_of_pos _ _ _ [] hplain
      rw [List.append_nil, List.takeWhile_nil, List.append_nil] at hall
      rw [hall]
      rfl
  rw [guardedTokens, hcomment]
  rfl

theorem slice_one {ε α : Type} (first : α) (rest : List α) :
    slice 1 (first :: rest) = (.ok rest : Guarded ε (List α)) :=
  if_pos (Nat.succ_le_succ (Nat.zero_le _))

theorem guardedArgument_cons {α : Type} (name : String) (read : Token → Except LineError α)
    (token : Token) (rest : List Token) :
    guardedArgument name read (token :: rest) = (do
      let value ← safely (read token)
      safely (expectEnd rest)
      return value) := by
  change (do
    let value ← safely (read token)
    let rest ← slice 1 (token :: rest)
    safely (expectEnd rest)
    return value) = _
  rw [slice_one]
  rfl

theorem guardedArgument_eq {α : Type} (name : String) (read : Token → Except LineError α)
    (arguments : List Token) :
    guardedArgument name read arguments = safely (oneArgument name read arguments) := by
  cases arguments with
  | nil => rfl
  | cons token rest =>
    rw [guardedArgument_cons, oneArgument]
    cases read token with
    | error e => rfl
    | ok value => cases rest <;> rfl

theorem operandOf_eq (kind : OperandKind) (token : Token) :
    operandOf (kind, token) = (operandByteOf kind token).map (Operand.ofByte kind) := by
  cases kind <;> cases token <;> try rfl
  next word =>
    rw [operandOf, operandByteOf]
    cases Numeral.signed? 8 word with
    | none => rfl
    | some n => simp [numberOr, Operand.ofByte, Except.map]

def Statement.call : Statement → Draft.Call
  | registers count => .declareRegisters count
  | constant value => .pushConstant value
  | bytes payload => .raw payload
  | instruction i => .emit i.opcode i.operand?.toList

theorem guardedOperands_of_none {opcode : Opcode} (h : opcode.operandKind? = none)
    (arguments : List Token) :
    guardedOperands opcode arguments = safely ((fun _ => []) <$> expectEnd arguments) := by
  rw [guardedOperands, h]
  cases arguments <;> rfl

theorem guardedOperands_of_some {opcode : Opcode} {kind : OperandKind}
    (h : opcode.operandKind? = some kind) (arguments : List Token) :
    guardedOperands opcode arguments =
      (fun byte => [.ofByte kind byte]) <$>
        guardedArgument opcode.mnemonic (operandByteOf kind) arguments := by
  rw [guardedOperands, h]
  cases arguments with
  | nil => rfl
  | cons token rest =>
    have hmany : ¬(token :: rest).length < (some kind).toList.length := by simp
    have hread : ((some kind).toList.zip (token :: rest)).mapM operandOf =
        (operandByteOf kind token).map fun byte => [.ofByte kind byte] := by
      rw [Option.toList_some, List.zip_cons_cons, List.zip_nil_left, List.mapM_cons, operandOf_eq]
      cases operandByteOf kind token <;> rfl
    rw [if_neg hmany, hread, guardedArgument_cons]
    change (safely _ >>= fun operands => slice 1 (token :: rest) >>= fun rest =>
      safely (expectEnd rest) >>= fun _ => pure operands) = _
    rw [slice_one]
    cases operandByteOf kind token with
    | error e => rfl
    | ok byte => cases rest <;> rfl

theorem emit_guardedOperands (opcode : Opcode) (arguments : List Token) :
    Draft.Call.emit opcode <$> guardedOperands opcode arguments =
      safely (Statement.call <$> Statement.ofOpcode opcode arguments) := by
  unfold Statement.ofOpcode
  split
  · next h =>
    rw [guardedOperands_of_none h]
    cases expectEnd arguments <;> rfl
  · next kind h =>
    rw [guardedOperands_of_some h, guardedArgument_eq]
    cases oneArgument opcode.mnemonic (operandByteOf kind) arguments <;> rfl

theorem guardedDirective_eq (name : List Char) (arguments : List Token) :
    guardedDirective name arguments =
      safely (Statement.call <$> Statement.ofDirective name arguments) := by
  unfold guardedDirective Statement.ofDirective
  simp only [guardedArgument_eq, safely_map]
  split_ifs
  · cases oneArgument ".registers" registerCountOf arguments <;> rfl
  · cases oneArgument ".constant" constantOf arguments <;> rfl
  · rfl
  · cases arguments.mapM byteOf <;> rfl
  · rfl

theorem guardedStatement_eq (tokens : List Token) :
    guardedStatement tokens = safely ((·.map Statement.call) <$> Statement.ofTokens tokens) := by
  cases tokens with
  | nil => rfl
  | cons token arguments =>
    cases token with
    | directive name =>
      rw [guardedStatement, Statement.ofTokens, guardedDirective_eq]
      cases Statement.ofDirective name arguments <;> rfl
    | name word =>
      rw [guardedStatement, Statement.ofTokens]
      cases Opcode.ofMnemonic? word with
      | none => rfl
      | some opcode =>
        dsimp only
        rw [comp_map, emit_guardedOperands]
        cases Statement.ofOpcode opcode arguments <;> rfl
    | register r => rfl
    | index i => rfl
    | number word => rfl

theorem guardedCall_eq (line : List Char) :
    guardedCall line = safely ((·.map Statement.call) <$> Statement.ofLine line) := by
  rw [guardedCall, guardedTokens_eq, Statement.ofLine]
  cases Token.ofLine line with
  | error e => rfl
  | ok tokens => exact guardedStatement_eq tokens

theorem isDeclaration_call (statement : Statement) :
    isDeclaration statement.call = statement.isRegisters := by
  cases statement <;> rfl

/-- No call of a statement trips over the number of its operands. -/
theorem perform_call (draft : Draft) (statement : Statement) :
    ∃ answer, draft.perform statement.call = (.ok answer, statement.addTo draft) := by
  cases statement with
  | registers count => exact ⟨_, rfl⟩
  | constant value => exact ⟨_, rfl⟩
  | bytes payload => exact ⟨_, rfl⟩
  | instruction i =>
    refine ⟨none, ?_⟩
    rw [Statement.call, Draft.perform, Draft.emit_instruction]
    rfl

theorem guardedLines_eq (number : Nat) (declared : Bool) (draft : Draft) (ls : List (List Char)) :
    guardedLines number declared draft ls =
      safely ((·.foldl Statement.addTo draft) <$> readLines number declared ls) := by
  induction ls generalizing number declared draft with
  | nil => rfl
  | cons line rest ih =>
    rw [guardedLines, guardedCall_eq, readLines]
    cases Statement.ofLine line with
    | error e => rfl
    | ok statement? =>
      cases statement? with
      | none => exact ih (number + 1) declared draft
      | some statement =>
        obtain ⟨answer, hperform⟩ := perform_call draft statement
        change (if isDeclaration statement.call && declared then _ else
          match draft.perform statement.call with
          | (.error mismatch, _) => _
          | (.ok _, draft) => _) = _
        simp only [isDeclaration_call, hperform, ih]
        split
        · rfl
        · cases readLines (number + 1) (declared || statement.isRegisters) rest <;> rfl

/-- Assembling with guards never panics, and comes to the same result. -/
theorem assembleGuarded_eq (text : String) : assembleGuarded text = safely (assemble text) := by
  rw [assembleGuarded, guardedLines_eq, assemble, statements]
  cases readLines 1 false (Text.lines text.toList) <;> rfl

end RegisterMachine.Assembly
