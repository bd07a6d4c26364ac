import RegisterMachine.CommandLine
import RegisterMachine.Proofs.Assembly.Line
import RegisterMachine.Proofs.Engine.Policy
import RegisterMachine.Proofs.Verification.Soundness

/-!
# What the commands agree on

Running a program and verifying it end with the same exit code, since a program that is accepted
comes to its end. The policy of the engine cannot be told from the answer, and a run that went well
goes as well without verification.
-/

namespace RegisterMachine

/-! ### Messages of one line -/

def OneLine (text : String) : Prop := '\n' ∉ text.toList

instance : DecidablePred OneLine := fun text => inferInstanceAs (Decidable ('\n' ∉ text.toList))

@[simp] theorem oneLine_append (first second : String) :
    OneLine (first ++ second) ↔ OneLine first ∧ OneLine second := by
  rw [OneLine, String.toList_append, List.mem_append, not_or]
  rfl

theorem oneLine_of_isWord {text : String} (h : Text.IsWord text.toList) : OneLine text := by
  intro hmem
  exact absurd (h.plain _ hmem) (by decide)

@[simp] theorem oneLine_nat (n : Nat) : OneLine (toString n) := by
  apply oneLine_of_isWord
  change Text.IsWord (Nat.repr n).toList
  rw [Nat.toList_repr]
  exact Numeral.isWord_toDigits n

@[simp] theorem oneLine_mnemonic (opcode : Opcode) : OneLine opcode.mnemonic :=
  oneLine_of_isWord (Assembly.Statement.isWord_mnemonic opcode)

@[simp] theorem oneLine_byteText (byte : UInt8) : OneLine (Numeral.byteText byte) :=
  oneLine_of_isWord (Assembly.Statement.isWord_byteText byte)

@[simp] theorem oneLine_register (r : Register) : OneLine r.text := by
  rw [Register.text, oneLine_append]
  exact ⟨by decide, oneLine_nat _⟩

theorem DecodeError.oneLine_message (e : DecodeError) : OneLine e.message := by
  unfold message
  cases e with
  | invalidOpcode offset byte =>
    simp only [oneLine_append, oneLine_byteText, oneLine_nat, and_true]
    decide
  | truncatedOperand offset opcode =>
    simp only [oneLine_append, oneLine_mnemonic, oneLine_nat, and_true, true_and]
    decide

theorem Violation.oneLine_message (v : Violation) : OneLine v.message := by
  unfold message
  cases v with
  | undecodable e => exact e.oneLine_message
  | missingReturn => decide
  | registerOutOfBounds offset register count =>
    simp only [oneLine_append, oneLine_nat, oneLine_register, and_true]
    decide
  | _ =>
    simp only [oneLine_append, oneLine_nat, and_true]
    decide

/-! ### Outcomes -/

variable {code : Bytecode} {table : DispatchTable}

/-- Bytecode without violations holds a return at least. -/
theorem Bytecode.size_ne_zero (hv : code.violations = []) : code.size ≠ 0 := by
  obtain ⟨frame, m, value, path, final, _, _, _, _, hsize, _⟩ :=
    Bytecode.run_of_nil hv DispatchTable.isStandard_standard
  rw [← hsize]
  exact Nat.succ_ne_zero _

/-- What a run that returns has returned is left in register 0. -/
theorem Frame.registers_of_run {frame final : Frame} {value : Value}
    (hcreate : Frame.create code = .ok frame) (h : frame.run .standard = (.ok value, final)) :
    final.registers[0]? = some value := by
  obtain ⟨path, placed, rest, last, _, _, _, hread, rfl⟩ :=
    Bytecode.exists_path_of_run DispatchTable.isStandard_standard hcreate h
  exact Machine.read_eq_ok_iff.mp hread

namespace Engine

/-- Bytecode without violations is completed, whether it is verified or not. -/
theorem outcomeOf_of_nil (hv : code.violations = []) (config : EngineConfig) :
    ∃ completion, outcomeOf config .standard code = .completed completion := by
  obtain ⟨frame, m, value, path, final, hcreate, _, _, _, _, hrun⟩ :=
    Bytecode.run_of_nil hv DispatchTable.isStandard_standard
  rw [outcomeOf, if_neg fun h => h.2 hv, if_neg (Bytecode.size_ne_zero hv),
    DispatchTable.runFresh, hcreate]
  dsimp only
  rw [hrun]
  exact ⟨_, rfl⟩

theorem outcomeOf_of_violations (h : code.violations ≠ []) {config : EngineConfig}
    (hverify : config.verify = true) (table : DispatchTable) :
    outcomeOf config table code = .refused (.rejected code.violations) :=
  if_pos ⟨hverify, h⟩

theorem outcomeOf_without_verification {config : EngineConfig} {completion : Completion}
    (h : outcomeOf config table code = .completed completion) :
    outcomeOf { config with verify := false } table code = .completed completion := by
  rw [outcomeOf] at h ⊢
  split at h
  · cases h
  · rw [if_neg fun hverify => Bool.false_ne_true hverify.1]
    exact h

theorem run_of_completed {config : EngineConfig} {completion : Completion}
    (h : outcomeOf config .standard code = .completed completion) :
    ∃ frame final, Frame.create code = .ok frame ∧
      frame.run .standard = (.ok completion.value, final) := by
  rw [outcomeOf] at h
  split at h
  · cases h
  split at h
  · cases h
  rw [DispatchTable.runFresh] at h
  split at h
  · cases h
  · next frame hcreate =>
    split at h
    · next value final hrun =>
      cases h
      exact ⟨frame, final, hcreate, hrun⟩
    · cases h

end Engine

namespace CommandLine

/-- Neither policy can fail to build the table, so a program is run against the standard one. -/
theorem run_eq (config : EngineConfig) (code : Bytecode) :
    run config code = responseTo (Engine.outcomeOf config .standard code) := by
  obtain ⟨after, hb⟩ := TableBuilder.ensureBuilt_unlimited
  obtain ⟨policy, verify⟩ := config
  cases policy with
  | eager =>
    have hcreate : Engine.create ⟨.eager, verify⟩ (.direct none) =
        .ok ⟨⟨.eager, verify⟩, .standard, after⟩ := Engine.create_eager verify hb
    rw [run, hcreate]
    exact congrArg responseTo (Engine.execute_of_built DispatchTable.built_standard code)
  | lazy =>
    have hanswer := Engine.ensureBuilt_opening ⟨.lazy, verify⟩ hb
    have houtcome := Engine.execute_of_ok (congrArg Prod.fst hanswer) code
    rw [hanswer] at houtcome
    exact congrArg responseTo houtcome

/-! ### Flags -/

theorem withFlags_append (config : EngineConfig) (first second : List String) :
    withFlags config (first ++ second) =
      withFlags config first >>= fun config => withFlags config second := by
  fun_induction withFlags config first with
  | case1 config => rfl
  | case2 config rest ih => exact ih
  | case3 config rest ih => exact ih
  | case4 config flag rest hlazy hverify =>
    rw [List.cons_append, withFlags.eq_4 _ _ _ hlazy hverify]
    rfl

/-- The policy decides nothing about the other flags. -/
theorem withFlags_lazy (config : EngineConfig) (flags : List String) :
    withFlags { config with policy := .lazy } flags =
      (withFlags config flags).map fun config => { config with policy := .lazy } := by
  fun_induction withFlags config flags with
  | case1 config => rfl
  | case2 config rest ih => exact ih
  | case3 config rest ih => exact ih
  | case4 config flag rest hlazy hverify =>
    rw [withFlags.eq_4 _ _ _ hlazy hverify]
    rfl

theorem code_of_withFlags_error {config : EngineConfig} {flags : List String}
    {response : Response} (h : withFlags config flags = .error response) : response.code = 1 := by
  fun_induction withFlags config flags with
  | case1 config => cases h
  | case2 config rest ih => exact ih h
  | case3 config rest ih => exact ih h
  | case4 config flag rest hlazy hverify =>
    cases h
    rfl

theorem verify_of_withFlags {config config' : EngineConfig} {flags : List String}
    (h : withFlags config flags = .ok config') (hflags : "--no-verify" ∉ flags) :
    config'.verify = config.verify := by
  fun_induction withFlags config flags with
  | case1 config =>
    cases h
    rfl
  | case2 config rest ih => exact ih h fun hmem => hflags (List.mem_cons_of_mem _ hmem)
  | case3 config rest ih => exact absurd List.mem_cons_self hflags
  | case4 config flag rest hlazy hverify => cases h

theorem respond_run (path : String) (flags : List String)
    (read : String → Except FileError String) :
    respond ("run" :: path :: flags) read =
      match withFlags {} flags with
      | .error response => response
      | .ok config => (Action.run config).respond path (read path) := by
  cases hflags : withFlags {} flags with
  | error response =>
    have hparsed : Command.ofArguments ("run" :: path :: flags) = .error response := by
      rw [Command.ofArguments, hflags]
      rfl
    rw [respond, hparsed]
  | ok config =>
    have hparsed : Command.ofArguments ("run" :: path :: flags) =
        .ok (.file path (.run config)) := by
      rw [Command.ofArguments, hflags]
      rfl
    rw [respond, hparsed]
    rfl

theorem respond_verify (path : String) (read : String → Except FileError String) :
    respond ["verify", path] read = Action.verify.respond path (read path) := rfl

/-! ### Answers -/

/-- How the verification of a text ends: with 1 if it does not assemble, with 2 if the program is
rejected, and with 0 otherwise. -/
def exitCode (text : String) : Nat :=
  match assemble text with
  | .error _ => 1
  | .ok code => if code.violations = [] then 0 else 2

/-- An action rejects the programs that verification rejects and succeeds with all others. -/
def Action.Verifies (action : Action) (path : String) : Prop :=
  ∀ code, if code.violations = [] then (action.perform path code).code = 0
    else action.perform path code = rejection code.violations

theorem verifies_run {config : EngineConfig} (h : config.verify = true) (path : String) :
    (Action.run config).Verifies path := by
  intro code
  rw [Action.perform, run_eq]
  by_cases hv : code.violations = []
  · rw [if_pos hv]
    obtain ⟨completion, hcompletion⟩ := Engine.outcomeOf_of_nil hv config
    rw [hcompletion]
    rfl
  · rw [if_neg hv, Engine.outcomeOf_of_violations hv h]
    rfl

theorem verifies_verify (path : String) : Action.verify.Verifies path := by
  intro code
  rw [Action.perform, verify]
  cases code.violations with
  | nil => rw [if_pos rfl]
  | cons v rest => rw [if_neg (List.cons_ne_nil v rest)]

section Answer

variable {action : Action} {path text : String}

theorem code_respond (h : action.Verifies path) :
    (action.respond path (.ok text)).code = exitCode text := by
  rw [Action.respond, exitCode]
  cases assemble text with
  | error e => rfl
  | ok code =>
    dsimp only
    have hcode := h code
    split at hcode
    · rw [if_pos ‹_›, hcode]
    · rw [if_neg ‹_›, hcode]
      rfl

/-- The violations of a program that is rejected are told in order, one on a line. -/
theorem lines_respond (h : action.Verifies path) {code : Bytecode}
    (hcode : assemble text = .ok code) (hv : code.violations ≠ []) :
    Text.lines (action.respond path (.ok text)).stderr.toList =
      code.violations.map (fun v => ("error: " ++ v.message).toList) ++ [[]] := by
  have hresponse := h code
  rw [if_neg hv] at hresponse
  have hlines : ∀ line ∈ code.violations.map fun v => ("error: " ++ v.message).toList,
      '\n' ∉ line := by
    intro line hline
    obtain ⟨v, _, rfl⟩ := List.mem_map.mp hline
    have hmessage : OneLine ("error: " ++ v.message) := by
      rw [oneLine_append]
      exact ⟨by decide, v.oneLine_message⟩
    exact hmessage
  rw [← Text.lines_closed hlines, Action.respond, hcode]
  dsimp only
  rw [hresponse]
  simp only [rejection, failure, String.toList_join, Text.closed, List.flatMap_map,
    String.toList_append]
  rfl

theorem exitCode_le (text : String) : exitCode text ≤ 2 := by
  rw [exitCode]
  cases assemble text with
  | error e => exact Nat.le_succ 1
  | ok code =>
    dsimp only
    split
    · exact Nat.zero_le 2
    · exact Nat.le_refl 2

theorem respond_of_completed {config : EngineConfig} {code : Bytecode} {completion : Completion}
    (hassemble : assemble text = .ok code)
    (h : Engine.outcomeOf config .standard code = .completed completion) :
    (Action.run config).respond path (.ok text) =
      { stdout := completion.value.text ++ "\n" } := by
  rw [Action.respond, hassemble]
  dsimp only
  rw [Action.perform, run_eq, h]
  rfl

/-- Where a run succeeds, the program has assembled and its run has returned. -/
theorem completed_of_respond {config : EngineConfig}
    (h : ((Action.run config).respond path (.ok text)).code = 0) :
    ∃ code completion, assemble text = .ok code ∧
      Engine.outcomeOf config .standard code = .completed completion := by
  rw [Action.respond] at h
  cases hassemble : assemble text with
  | error e =>
    rw [hassemble] at h
    cases h
  | ok code =>
    rw [hassemble] at h
    change (run config code).code = 0 at h
    rw [run_eq] at h
    cases houtcome : Engine.outcomeOf config .standard code with
    | completed completion => exact ⟨code, completion, rfl, houtcome⟩
    | refused refusal =>
      rw [houtcome] at h
      cases refusal <;> cases h
    | faulted fault =>
      rw [houtcome] at h
      cases h

end Answer

variable {read : String → Except FileError String} {path text : String}

/-- A run that verifies ends as verification does, or with 1 if flags or the file are no good. -/
theorem code_respond_le {flags : List String} (hflags : "--no-verify" ∉ flags) :
    (respond ("run" :: path :: flags) read).code ≤ 2 := by
  rw [respond_run]
  cases hconfig : withFlags {} flags with
  | error response =>
    rw [code_of_withFlags_error hconfig]
    exact Nat.le_succ 1
  | ok config =>
    cases read path with
    | error e => exact Nat.le_succ 1
    | ok text =>
      have hverify : config.verify = true := verify_of_withFlags hconfig hflags
      dsimp only
      rw [code_respond (verifies_run hverify path)]
      exact exitCode_le text

theorem respond_lazy (first second : List String) :
    respond ("run" :: path :: (first ++ "--lazy" :: second)) read =
      respond ("run" :: path :: (first ++ second)) read := by
  rw [respond_run, respond_run, withFlags_append, withFlags_append]
  cases withFlags {} first with
  | error response => rfl
  | ok config =>
    change (match withFlags { config with policy := .lazy } second with
      | .error response => response
      | .ok config => (Action.run config).respond path (read path)) =
        match withFlags config second with
        | .error response => response
        | .ok config => (Action.run config).respond path (read path)
    rw [withFlags_lazy]
    cases withFlags config second with
    | error response => rfl
    | ok config =>
      have hrun : ∀ code, run { config with policy := .lazy } code = run config code := by
        intro code
        rw [run_eq, run_eq]
        rfl
      simp only [Except.map, Action.respond, Action.perform, hrun]

/-- A run that succeeds does so without verification, and prints what it leaves in register 0. -/
theorem respond_no_verify (hread : read path = .ok text) {flags : List String}
    (h : (respond ("run" :: path :: flags) read).code = 0) :
    respond ("run" :: path :: (flags ++ ["--no-verify"])) read =
        respond ("run" :: path :: flags) read ∧
      ∃ code frame value final, assemble text = .ok code ∧ Frame.create code = .ok frame ∧
        frame.run .standard = (.ok value, final) ∧
        final.registers[0]? = some value ∧
        (respond ("run" :: path :: flags) read).stdout = value.text ++ "\n" := by
  rw [respond_run, hread] at h
  rw [respond_run, respond_run, hread, withFlags_append]
  cases hconfig : withFlags {} flags with
  | error response =>
    rw [hconfig] at h
    rw [code_of_withFlags_error hconfig] at h
    cases h
  | ok config =>
    rw [hconfig] at h
    obtain ⟨code, completion, hassemble, houtcome⟩ := completed_of_respond h
    obtain ⟨frame, final, hcreate, hrun⟩ := Engine.run_of_completed houtcome
    have hresponse := @respond_of_completed path text config code completion hassemble houtcome
    have hunverified := @respond_of_completed path text _ code completion hassemble
      (Engine.outcomeOf_without_verification houtcome)
    refine ⟨hunverified.trans hresponse.symm, code, frame, completion.value, final, hassemble,
      hcreate, hrun, Frame.registers_of_run hcreate hrun, ?_⟩
    dsimp only
    rw [hresponse]

/-- The commands on one file. Running and verifying it end with the same exit code, and if the
program is rejected both tell the same violations, one on a line. A run that verifies neither fails
nor faults, whatever other flags there are. A table that is built at its first use changes no
answer, and a run that succeeds prints register 0 and answers the same without verification. -/
theorem commands_agree (hread : read path = .ok text) :
    (respond ["run", path] read).code = exitCode text ∧
    (respond ["verify", path] read).code = exitCode text ∧
    (∀ code, assemble text = .ok code → code.violations ≠ [] → ∀ command ∈ ["run", "verify"],
      Text.lines (respond [command, path] read).stderr.toList =
        code.violations.map (fun v => ("error: " ++ v.message).toList) ++ [[]]) ∧
    (∀ flags, "--no-verify" ∉ flags →
      (respond ("run" :: path :: flags) read).code ≠ 3 ∧
      (respond ("run" :: path :: flags) read).code ≠ 101) ∧
    (∀ first second, respond ("run" :: path :: (first ++ "--lazy" :: second)) read =
      respond ("run" :: path :: (first ++ second)) read) ∧
    ∀ flags, (respond ("run" :: path :: flags) read).code = 0 →
      respond ("run" :: path :: (flags ++ ["--no-verify"])) read =
          respond ("run" :: path :: flags) read ∧
        ∃ code frame value final, assemble text = .ok code ∧ Frame.create code = .ok frame ∧
          frame.run .standard = (.ok value, final) ∧
          final.registers[0]? = some value ∧
          (respond ("run" :: path :: flags) read).stdout = value.text ++ "\n" := by
  have hrun : respond ["run", path] read = (Action.run {}).respond path (.ok text) := by
    rw [respond_run, hread]
    rfl
  have hverify : respond ["verify", path] read = Action.verify.respond path (.ok text) := by
    rw [respond_verify, hread]
  refine ⟨?_, ?_, ?_, ?_, respond_lazy, fun flags => respond_no_verify hread⟩
  · rw [hrun]
    exact code_respond (verifies_run rfl path)
  · rw [hverify]
    exact code_respond (verifies_verify path)
  · intro code hcode hv command hcommand
    simp only [List.mem_cons, List.not_mem_nil, or_false] at hcommand
    rcases hcommand with rfl | rfl
    · rw [hrun]
      exact lines_respond (verifies_run rfl path) hcode hv
    · rw [hverify]
      exact lines_respond (verifies_verify path) hcode hv
  · intro flags hflags
    have hle := @code_respond_le read path flags hflags
    omega

/-- A file with the program `LdaSmi8 7; Star r0; Return`. -/
theorem commands_agree_seven :
    let read : String → Except FileError String := fun _ => .ok "LdaSmi8 7\nStar r0\nReturn"
    (respond ["run", "seven"] read).code = 0 ∧ (respond ["verify", "seven"] read).code = 0 ∧
      respond ["run", "seven", "--no-verify"] read = respond ["run", "seven"] read := by
  intro read
  obtain ⟨hrun, hverify, _, _, _, hsame⟩ := @commands_agree read "seven" _ rfl
  have hcode : exitCode "LdaSmi8 7\nStar r0\nReturn" = 0 := by decide
  rw [hcode] at hrun hverify
  exact ⟨hrun, hverify, (hsame [] hrun).1⟩

end CommandLine

end RegisterMachine
