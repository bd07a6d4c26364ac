import RegisterMachine.Engine
import RegisterMachine.Proofs.Dispatch.Building

/-!
# Engines under the two policies

An engine keeps its table and its builder, and the only thing that changes them is the one emission
pass. So nothing that is executed leaves a trace, and whether the pass was run when the engine was
made or at its first use cannot be seen from the outcomes. After a pass that failed no bytecode gets
as far as being verified, let alone run.
-/

namespace RegisterMachine.Engine

inductive Call where
  | ensureBuilt
  | execute (code : Bytecode)

inductive Answer where
  | building (answer : BuildAnswer)
  | execution (outcome : Outcome)

def Call.refusal (e : BuildError) : Call → Answer
  | ensureBuilt => .building (.error e)
  | execute _ => .execution (.refused (.build e))

variable {σ : Type}

def perform (engine : Engine σ) : Call → Answer × Engine σ
  | .ensureBuilt => (.building engine.ensureBuilt.1, engine.ensureBuilt.2)
  | .execute code => (.execution (engine.execute code).1, (engine.execute code).2)

def after (engine : Engine σ) (calls : List Call) : Engine σ :=
  calls.foldl (fun engine call => (engine.perform call).2) engine

/-- An execution with another way to run bytecode against the table in place of a fresh frame. -/
def executeWith (run : DispatchTable → Bytecode → Outcome) (engine : Engine σ) (code : Bytecode) :
    Outcome × Engine σ :=
  let outcome := match engine.ensureBuilt.1 with
    | .error e => .refused (.build e)
    | .ok _ =>
      if engine.config.verify ∧ code.violations ≠ [] then .refused (.rejected code.violations)
      else if code.size = 0 then .refused .emptyBytecode
      else run engine.ensureBuilt.2.table code
  (outcome, engine.ensureBuilt.2)

theorem executeWith_runFresh (engine : Engine σ) (code : Bytecode) :
    engine.executeWith DispatchTable.runFresh code = engine.execute code := by
  unfold executeWith execute ensureBuilt
  rcases engine.builder.ensureBuilt engine.table with ⟨e | answer, builder, table⟩
  · rfl
  · rfl

theorem executeWith_of_error {engine : Engine σ} {e : BuildError}
    (h : engine.ensureBuilt.1 = .error e) (run : DispatchTable → Bytecode → Outcome)
    (code : Bytecode) : (engine.executeWith run code).1 = .refused (.build e) := by
  simp only [executeWith, h]

theorem execute_of_error {engine : Engine σ} {e : BuildError} (h : engine.ensureBuilt.1 = .error e)
    (code : Bytecode) : (engine.execute code).1 = .refused (.build e) := by
  rw [← executeWith_runFresh, executeWith_of_error h]

theorem execute_of_ok {engine : Engine σ} {answer : BuildOutcome}
    (h : engine.ensureBuilt.1 = .ok answer) (code : Bytecode) :
    (engine.execute code).1 = outcomeOf engine.config engine.ensureBuilt.2.table code := by
  rw [← executeWith_runFresh]
  simp only [executeWith, h]
  rfl

theorem perform_snd (engine : Engine σ) (call : Call) :
    (engine.perform call).2 = engine.ensureBuilt.2 := by
  cases call with
  | ensureBuilt => rfl
  | execute code => rw [perform, ← executeWith_runFresh, executeWith]

theorem perform_of_error {engine : Engine σ} {e : BuildError} (h : engine.ensureBuilt.1 = .error e)
    (call : Call) : (engine.perform call).1 = call.refusal e := by
  cases call with
  | ensureBuilt => rw [perform, h]; rfl
  | execute code => rw [perform, execute_of_error h]; rfl

theorem ensureBuilt_of_settled {engine : Engine σ} (h : engine.table.Settled) :
    engine.ensureBuilt.2 = engine := by
  have hr := (engine.builder.ensures engine.table).eq_of_settled h
  simp only [ensureBuilt, hr]

theorem settled_ensureBuilt (engine : Engine σ) : engine.ensureBuilt.2.table.Settled :=
  (engine.builder.ensures engine.table).settles

theorem after_of_settled {engine : Engine σ} (h : engine.table.Settled) (calls : List Call) :
    engine.after calls = engine := by
  induction calls with
  | nil => rfl
  | cons call rest ih =>
    have hcall : (engine.perform call).2 = engine := by
      rw [perform_snd, ensureBuilt_of_settled h]
    rw [after, List.foldl_cons, hcall]
    exact ih

/-- Calls leave an engine as its first build does. -/
theorem after_cons (engine : Engine σ) (call : Call) (calls : List Call) :
    engine.after (call :: calls) = engine.ensureBuilt.2 := by
  have hafter := after_of_settled engine.settled_ensureBuilt calls
  rwa [← perform_snd engine call] at hafter ⊢

theorem execute_of_built {engine : Engine σ} (hb : engine.table.built = true) (code : Bytecode) :
    (engine.execute code).1 = outcomeOf engine.config engine.table code := by
  have hr := engine.builder.ensureBuilt_of_built hb
  have hanswer : engine.ensureBuilt.1 = .ok .alreadyBuilt := by simp only [ensureBuilt, hr]
  rw [execute_of_ok hanswer, ensureBuilt_of_settled (Or.inl hb)]

theorem outcomeOf_ne_refusal (config : EngineConfig) (table : DispatchTable) (code : Bytecode)
    (e : BuildError) : outcomeOf config table code ≠ .refused (.build e) := by
  have hrun : table.runFresh code ≠ .refused (.build e) := by
    rw [DispatchTable.runFresh]
    split
    · exact nofun
    · split
      · exact nofun
      · exact nofun
  rw [outcomeOf]
  split
  · exact nofun
  · split
    · exact nofun
    · exact hrun

def opening (config : EngineConfig) (emitter : Emitter σ) (state : σ) : Engine σ :=
  ⟨config, .empty, .fresh emitter state⟩

section Opening

variable {emitter : Emitter σ} {state : σ} {answer : BuildAnswer} {next : TableBuilder σ}
  {table : DispatchTable}

theorem ensureBuilt_opening (config : EngineConfig)
    (hr : (TableBuilder.fresh emitter state).ensureBuilt .empty = (answer, next, table)) :
    (opening config emitter state).ensureBuilt = (answer, ⟨config, table, next⟩) := by
  simp only [opening, ensureBuilt, hr]

theorem after_opening (config : EngineConfig)
    (hr : (TableBuilder.fresh emitter state).ensureBuilt .empty = (answer, next, table))
    (calls : List Call) :
    (opening config emitter state).after calls =
      if calls = [] then opening config emitter state else ⟨config, table, next⟩ := by
  cases calls with
  | nil => rfl
  | cons call calls =>
    rw [after_cons, ensureBuilt_opening config hr, if_neg (List.cons_ne_nil call calls)]

theorem create_eager (verify : Bool) {built : BuildOutcome}
    (hr : (TableBuilder.fresh emitter state).ensureBuilt .empty = (.ok built, next, table)) :
    create ⟨.eager, verify⟩ (.fresh emitter state) = .ok ⟨⟨.eager, verify⟩, table, next⟩ := by
  simp only [create, ensureBuilt, hr]

theorem create_eager_of_error (verify : Bool) {e : BuildError}
    (hr : (TableBuilder.fresh emitter state).ensureBuilt .empty = (.error e, next, table)) :
    create ⟨.eager, verify⟩ (.fresh emitter state) = .error e := by
  simp only [create, ensureBuilt, hr]

/-- Whatever has been called, an execution is one against the table that is built once. -/
theorem execute_after_opening (config : EngineConfig) {built : BuildOutcome}
    (hr : (TableBuilder.fresh emitter state).ensureBuilt .empty = (.ok built, next, table))
    (hb : table.built = true) (calls : List Call) (code : Bytecode) :
    (((opening config emitter state).after calls).execute code).1 =
      outcomeOf config table code := by
  rw [after_opening config hr]
  split
  · have hopening := ensureBuilt_opening config hr
    rw [execute_of_ok (congrArg Prod.fst hopening), hopening]
    rfl
  · exact execute_of_built hb code

/-- A failure is told once as such and then remembered. -/
theorem ensureBuilt_after_opening (config : EngineConfig) {e : EmissionError}
    (hr : (TableBuilder.fresh emitter state).ensureBuilt .empty =
      (.error (.emission e), next, table))
    (hb : table.built = false) (hf : table.failure? = some e) (calls : List Call) :
    ((opening config emitter state).after calls).ensureBuilt.1 =
      .error (if calls = [] then .emission e else .previouslyFailed e) := by
  rw [after_opening config hr]
  split
  · rw [ensureBuilt_opening config hr]
  · simp only [ensureBuilt, next.ensureBuilt_of_failure hb hf]

end Opening

/-- Two engines over the same emitter, one for each policy. If the eager one can be made, both
answer every execution alike, and as the first, whatever they have been asked before; neither
runs more than one emission pass. If it cannot be made, the lazy one refuses every call, with that
error first and a reminder of it from then on, and never comes to run bytecode. -/
theorem eager_lazy_agree (emitter : Emitter σ) (state : σ) (verify : Bool) :
    ∃ lazy, create ⟨.lazy, verify⟩ (.fresh emitter state) = .ok lazy ∧
      (∀ calls, (lazy.after calls).builder.passes = if calls = [] then 0 else 1) ∧
      ((∃ eager, create ⟨.eager, verify⟩ (.fresh emitter state) = .ok eager ∧
          (∀ calls, (eager.after calls).builder.passes = 1) ∧
          (∀ calls code, ((eager.after calls).execute code).1 = (eager.execute code).1 ∧
            ((lazy.after calls).execute code).1 = (eager.execute code).1) ∧
          ∀ code e, (eager.execute code).1 ≠ .refused (.build e)) ∨
        ∃ e, create ⟨.eager, verify⟩ (.fresh emitter state) = .error (.emission e) ∧
          ∀ calls,
            let error := if calls = [] then .emission e else .previouslyFailed e
            (∀ call, ((lazy.after calls).perform call).1 = call.refusal error) ∧
            ∀ run code, ((lazy.after calls).executeWith run code).1 = .refused (.build error)) := by
  obtain ⟨answer, next, table, hr, hp, hanswer⟩ :=
    (TableBuilder.fresh emitter state).ensureBuilt_empty
  refine ⟨opening ⟨.lazy, verify⟩ emitter state, rfl, fun calls => ?_, ?_⟩
  · rw [after_opening _ hr]
    split
    · rfl
    · exact hp
  rcases hanswer with ⟨rfl, hb⟩ | ⟨e, rfl, hb, hf⟩
  · have heager : ∀ calls, after ⟨⟨.eager, verify⟩, table, next⟩ calls = _ :=
      after_of_settled (Or.inl hb)
    refine Or.inl ⟨_, create_eager verify hr, fun calls => ?_, fun calls code => ?_,
      fun code e => ?_⟩
    · rw [heager]
      exact hp
    · rw [heager, execute_after_opening _ hr hb, execute_of_built hb]
      exact ⟨rfl, rfl⟩
    · rw [execute_of_built hb]
      exact outcomeOf_ne_refusal _ _ _ e
  · have herror := ensureBuilt_after_opening ⟨.lazy, verify⟩ hr hb hf
    exact Or.inr ⟨e, create_eager_of_error verify hr, fun calls =>
      ⟨perform_of_error (herror calls), executeWith_of_error (herror calls)⟩⟩

end RegisterMachine.Engine
