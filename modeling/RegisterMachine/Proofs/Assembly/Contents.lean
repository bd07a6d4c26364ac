import Mathlib.Data.List.Forall2
import RegisterMachine.Proofs.Assembly.Guarded
import RegisterMachine.Proofs.Assembly.Joining
import RegisterMachine.Proofs.Verification.Report

/-!
# What assembled code holds

The code of a text is what its lines say, in their order: the encodings of the instructions and the
bytes that are given as such make up the stream, and the constants the pool. `Says` tells what the
tokens of a line say. Instructions alone decode as they are written, and unless the text declares
another register count their registers are within the register file.
-/

namespace RegisterMachine

namespace Assembly

inductive Token.Denotes : Token → Operand → Prop
  | imm {word : List Char} {n : Int} (h : Numeral.signed? 8 word = some n) :
      Denotes (.number word) (.imm (.ofInt n))
  | reg (register : Register) : Denotes (.register register) (.reg register)
  | idx (index : UInt8) : Denotes (.index index) (.idx index)

/-- What the tokens of a line say. An instruction takes its mnemonic and as many operands as its
opcode, each written as one of its kind. -/
inductive Says : List Token → Option Statement → Prop
  | blank : Says [] none
  | registers {word : List Char} {count : Nat} (h : Numeral.unsigned? (2 ^ 64) word = some count) :
      Says [.directive "registers".toList, .number word] (some (.registers count))
  | constant {token : Token} {value : Value} (h : constantOf token = .ok value) :
      Says [.directive "constant".toList, token] (some (.constant value))
  | bytes {arguments : List Token} {payload : List UInt8} (hne : arguments ≠ [])
      (h : List.Forall₂ (fun token byte => byteOf token = .ok byte) arguments payload) :
      Says (.directive "bytes".toList :: arguments) (some (.bytes payload))
  | instruction {word : List Char} {arguments : List Token} {i : Instruction}
      (hm : Opcode.ofMnemonic? word = some i.opcode)
      (h : List.Forall₂ Token.Denotes arguments i.operand?.toList) :
      Says (.name word :: arguments) (some (.instruction i))

def Statement.instruction? : Statement → Option Instruction
  | instruction i => some i
  | _ => none

theorem bind_eq_ok {ε α β : Type} {result : Except ε α} {next : α → Except ε β} {b : β}
    (h : result >>= next = .ok b) : ∃ a, result = .ok a ∧ next a = .ok b := by
  cases result with
  | error e => cases h
  | ok a => exact ⟨a, rfl, h⟩

theorem map_eq_ok {ε α β : Type} {f : α → β} {result : Except ε α} {b : β}
    (h : f <$> result = .ok b) : ∃ a, result = .ok a ∧ f a = b := by
  cases result with
  | error e => cases h
  | ok a => exact ⟨a, rfl, Except.ok.inj h⟩

theorem forall₂_of_mapM {ε α β : Type} {read : α → Except ε β} {l : List α} {values : List β}
    (h : l.mapM read = .ok values) :
    List.Forall₂ (fun a value => read a = .ok value) l values := by
  induction l generalizing values with
  | nil =>
    cases h
    exact .nil
  | cons a rest ih =>
    rw [List.mapM_cons] at h
    obtain ⟨value, hvalue, h⟩ := bind_eq_ok h
    obtain ⟨others, hothers, h⟩ := bind_eq_ok h
    cases h
    exact .cons hvalue (ih hothers)

theorem oneArgument_eq_ok {α : Type} {name : String} {read : Token → Except LineError α}
    {arguments : List Token} {value : α} (h : oneArgument name read arguments = .ok value) :
    ∃ token, arguments = [token] ∧ read token = .ok value := by
  cases arguments with
  | nil => cases h
  | cons token rest =>
    rw [oneArgument] at h
    obtain ⟨result, hresult, h⟩ := bind_eq_ok h
    obtain ⟨_, hend, h⟩ := bind_eq_ok h
    cases h
    cases rest with
    | nil => exact ⟨token, rfl, hresult⟩
    | cons next rest => cases hend

theorem numberOr_eq_ok {α : Type} {word : List Char} {value? : Option α} {value : α}
    (h : numberOr word value? = .ok value) : value? = some value := by
  cases value? with
  | none => cases h
  | some found => exact congrArg some (Except.ok.inj h)

theorem unsigned?_of_registerCountOf {token : Token} {count : Nat}
    (h : registerCountOf token = .ok count) :
    ∃ word, token = .number word ∧ Numeral.unsigned? registerCountLimit word = some count := by
  cases token with
  | number word => exact ⟨word, rfl, numberOr_eq_ok h⟩
  | directive name => cases h
  | name word => cases h
  | register r => cases h
  | index i => cases h

theorem denotes_of_operandByteOf {kind : OperandKind} {token : Token} {byte : UInt8}
    (h : operandByteOf kind token = .ok byte) : token.Denotes (.ofByte kind byte) := by
  cases kind <;> cases token <;> try cases h
  · next word =>
    obtain ⟨n, hn, rfl⟩ := Option.map_eq_some_iff.mp (numberOr_eq_ok h)
    simpa [Operand.ofByte] using Token.Denotes.imm hn
  · exact .reg _
  · exact .idx _

theorem says_of_ofOpcode {word : List Char} {opcode : Opcode} {arguments : List Token}
    {statement : Statement} (hm : Opcode.ofMnemonic? word = some opcode)
    (h : Statement.ofOpcode opcode arguments = .ok statement) :
    Says (.name word :: arguments) (some statement) := by
  unfold Statement.ofOpcode at h
  split at h
  · next hk =>
    cases arguments with
    | nil =>
      cases h
      exact .instruction hm .nil
    | cons token rest => cases h
  · next kind hk =>
    obtain ⟨byte, hb, h⟩ := bind_eq_ok h
    cases h
    obtain ⟨token, rfl, hbyte⟩ := oneArgument_eq_ok hb
    exact .instruction hm (.cons (denotes_of_operandByteOf hbyte) .nil)

theorem says_of_ofDirective {name : List Char} {arguments : List Token} {statement : Statement}
    (h : Statement.ofDirective name arguments = .ok statement) :
    Says (.directive name :: arguments) (some statement) := by
  unfold Statement.ofDirective at h
  split_ifs at h with hregisters hconstant hbytes hempty
  · obtain ⟨count, hcount, rfl⟩ := map_eq_ok h
    obtain ⟨token, rfl, hread⟩ := oneArgument_eq_ok hcount
    obtain ⟨word, rfl, hword⟩ := unsigned?_of_registerCountOf hread
    subst hregisters
    exact .registers hword
  · obtain ⟨value, hvalue, rfl⟩ := map_eq_ok h
    obtain ⟨token, rfl, hread⟩ := oneArgument_eq_ok hvalue
    subst hconstant
    exact .constant hread
  · obtain ⟨payload, hpayload, rfl⟩ := map_eq_ok h
    subst hbytes
    exact .bytes (by simpa using hempty) (forall₂_of_mapM hpayload)

theorem says_of_ofTokens {tokens : List Token} {statement? : Option Statement}
    (h : Statement.ofTokens tokens = .ok statement?) : Says tokens statement? := by
  cases tokens with
  | nil =>
    cases h
    exact .blank
  | cons token arguments =>
    cases token with
    | directive name =>
      obtain ⟨statement, hstatement, rfl⟩ := map_eq_ok h
      exact says_of_ofDirective hstatement
    | name word =>
      rw [Statement.ofTokens] at h
      cases hm : Opcode.ofMnemonic? word with
      | none =>
        rw [hm] at h
        cases h
      | some opcode =>
        rw [hm] at h
        obtain ⟨statement, hstatement, rfl⟩ := map_eq_ok h
        exact says_of_ofOpcode hm hstatement
    | register r => cases h
    | index i => cases h
    | number word => cases h

theorem says_of_not_isBad {line : List Char} (h : ¬IsBad line) :
    ∃ tokens, Token.ofLine line = .ok tokens ∧ Says tokens (statement? line) := by
  cases hline : Statement.ofLine line with
  | error e => exact absurd ⟨e, hline⟩ h
  | ok said? =>
    have hsaid : statement? line = said? := by rw [statement?, hline]
    obtain ⟨tokens, htokens, hline⟩ := bind_eq_ok hline
    exact ⟨tokens, htokens, hsaid ▸ says_of_ofTokens hline⟩

/-! ### The code of a program -/

section Program

variable {program : List Statement} {draft : Draft} {instructions : List Instruction}

/-- Without bytes that are given as such, the encodings of the instructions make up the stream. -/
theorem flatMap_encoding (h : ∀ payload, .bytes payload ∉ program) :
    program.flatMap Statement.encoding =
      (program.filterMap Statement.instruction?).flatMap Instruction.toBytes := by
  induction program with
  | nil => rfl
  | cons statement rest ih =>
    have hrest := ih fun payload hmem => h payload (List.mem_cons_of_mem _ hmem)
    rw [List.flatMap_cons, hrest]
    cases statement with
    | registers count => rfl
    | constant value => rfl
    | bytes payload => exact absurd List.mem_cons_self (h payload)
    | instruction i => rfl

/-- Without bytes that are given as such and without a declaration, a program leaves its draft with
a register file that its instructions need. -/
theorem holds_foldl_addTo (hdraft : draft.Holds instructions)
    (hbytes : ∀ payload, .bytes payload ∉ program)
    (hregisters : ∀ count, .registers count ∉ program) :
    (program.foldl Statement.addTo draft).Holds
      (instructions ++ program.filterMap Statement.instruction?) := by
  induction program generalizing draft instructions with
  | nil =>
    rw [List.filterMap_nil, List.append_nil]
    exact hdraft
  | cons statement rest ih =>
    have hbytes' : ∀ payload, .bytes payload ∉ rest := fun payload hmem =>
      hbytes payload (List.mem_cons_of_mem _ hmem)
    have hregisters' : ∀ count, .registers count ∉ rest := fun count hmem =>
      hregisters count (List.mem_cons_of_mem _ hmem)
    cases statement with
    | registers count => exact absurd List.mem_cons_self (hregisters count)
    | constant value => exact ih (hdraft.pushConstant value) hbytes' hregisters'
    | bytes payload => exact absurd List.mem_cons_self (hbytes payload)
    | instruction i =>
      have hrest := ih (hdraft.instruction i) hbytes' hregisters'
      rwa [List.append_assoc] at hrest

end Program

/-- A finished draft keeps the limits, and if it holds instructions alone, its registers are within
the register file. -/
theorem not_mem_violations_of_finish {draft : Draft} {code : Bytecode}
    (h : draft.finish = .ok code) :
    (∀ count limit, .tooManyRegisters count limit ∉ code.violations) ∧
    (∀ count limit, .tooManyConstants count limit ∉ code.violations) ∧
    ∀ instructions, draft.Holds instructions →
      ∀ offset r count, .registerOutOfBounds offset r count ∉ code.violations := by
  obtain ⟨hconstants, hregisters, rfl⟩ := Draft.finish_eq_ok_iff.mp h
  have hlimits : (⟨draft.bytes, draft.registerCount, draft.constants⟩ :
      Bytecode).limitViolations = [] :=
    Bytecode.limitViolations_eq_nil_iff.mpr ⟨hregisters, hconstants⟩
  refine ⟨fun count limit hv => ?_, fun count limit hv => ?_, ?_⟩
  · have hmem := (Bytecode.mem_of_mem_violations hv).1 rfl
    rw [hlimits] at hmem
    cases hmem
  · have hmem := (Bytecode.mem_of_mem_violations hv).1 rfl
    rw [hlimits] at hmem
    cases hmem
  · intro instructions hholds offset r count hv
    have hmem := (Bytecode.mem_of_mem_violations hv).2 rfl
    obtain ⟨placed, hplaced, hobjection⟩ := Bytecode.objection_of_mem_operandViolations hmem
    cases hobjection with
    | register hr hle =>
      have hi : placed.instruction ∈ instructions := by
        rw [Bytecode.decode_of_bytes hholds.bytes] at hplaced
        have hmap := List.mem_map_of_mem (f := Placed.instruction) hplaced
        rwa [map_instruction_placeFrom] at hmap
      have hlt := lt_fileSize (List.mem_filterMap.mpr ⟨_, hi, hr⟩)
      have hcount : draft.registerCount =
          fileSize (instructions.filterMap Instruction.register?) := by
        rw [Draft.registerCount, hholds.declared, hholds.registers]
        rfl
      exact absurd (hcount ▸ hle) (Nat.not_le.mpr hlt)

/-- The code of a text is what its lines say. Assembling stops at no guard, whatever the text. Where
it succeeds, every line says its statement; the encodings of the instructions and the bytes given as
such are the stream and the constants the pool, all in the order of the lines. Instructions alone
decode as they are written, and the register file they need is large enough for them. -/
theorem assemble_contents (text : String) :
    assembleGuarded text = safely (assemble text) ∧
    ∀ code, assemble text = .ok code →
      (∀ line ∈ Text.lines text.toList,
        ∃ tokens, Token.ofLine line = .ok tokens ∧ Says tokens (statement? line)) ∧
      code.bytes.toList = (programOf text).flatMap Statement.encoding ∧
      code.constants.toList = (programOf text).filterMap Statement.constant? ∧
      ((∀ payload, .bytes payload ∉ programOf text) →
        code.decode = ⟨placeFrom 0 ((programOf text).filterMap Statement.instruction?), none⟩ ∧
        ((∀ count, .registers count ∉ programOf text) →
          (∀ offset r count, .registerOutOfBounds offset r count ∉ code.violations) ∧
          (∀ count limit, .tooManyRegisters count limit ∉ code.violations) ∧
          ∀ count limit, .tooManyConstants count limit ∉ code.violations)) := by
  refine ⟨assembleGuarded_eq text, fun code hcode => ?_⟩
  have hfinish := finish_of_ok hcode
  obtain ⟨_, _, hparts⟩ := Draft.finish_eq_ok_iff.mp hfinish
  have hbytes : code.bytes.toList = (programOf text).flatMap Statement.encoding := by
    rw [hparts]
    exact bytes_foldl _ .empty
  have hconstants : code.constants.toList = (programOf text).filterMap Statement.constant? := by
    rw [hparts]
    exact constants_foldl _ .empty
  have hlines : ∀ line ∈ Text.lines text.toList, ¬IsBad line := by
    intro line hline hbad
    have hsome := (isSome_lineError?_assemble text).mpr (Or.inl ⟨line, hline, hbad⟩)
    rw [lineError?_of_ok hcode] at hsome
    cases hsome
  refine ⟨fun line hline => says_of_not_isBad (hlines line hline), hbytes, hconstants, ?_⟩
  intro hno
  refine ⟨Bytecode.decode_of_bytes (hbytes.trans (flatMap_encoding hno)), fun hundeclared => ?_⟩
  obtain ⟨hregisters, hpool, hfile⟩ := not_mem_violations_of_finish hfinish
  have hholds : (draftOf (programOf text)).Holds
      ((programOf text).filterMap Statement.instruction?) :=
    holds_foldl_addTo Draft.holds_empty hno hundeclared
  exact ⟨hfile _ hholds, hregisters, hpool⟩

/-- A text of an instruction, bytes and a constant. -/
example :
    let text := "Ldar r2\n.bytes 0xff 7\n.constant null"
    (Text.lines text.toList).mapM Token.ofLine =
        .ok [[.name "Ldar".toList, .register ⟨2⟩],
          [.directive "bytes".toList, .number "0xff".toList, .number "7".toList],
          [.directive "constant".toList, .name "null".toList]] ∧
      programOf text =
        [.instruction ⟨.ldar, some (.reg ⟨2⟩), rfl⟩, .bytes [255, 7], .constant .null] ∧
      assemble text = .ok ⟨#[8, 2, 255, 7], 3, #[.null]⟩ := by
  decide +kernel

/-- What its lines say. -/
example :
    Says [.name "Ldar".toList, .register ⟨2⟩]
        (some (.instruction ⟨.ldar, some (.reg ⟨2⟩), rfl⟩)) ∧
      Says [.directive "bytes".toList, .number "0xff".toList, .number "7".toList]
        (some (.bytes [255, 7])) ∧
      Says [.directive "constant".toList, .name "null".toList] (some (.constant .null)) :=
  ⟨.instruction rfl (.cons (.reg ⟨2⟩) .nil), .bytes (by decide) (.cons rfl (.cons rfl .nil)),
    .constant rfl⟩

end Assembly

end RegisterMachine
