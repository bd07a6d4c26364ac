import RegisterMachine.Dispatch.TableBuilder
import RegisterMachine.Execution.Run
import RegisterMachine.Verification

/-!
# Engines

A dispatch table with the builder that fills it, ready to execute bytecode. The table is built when
the engine is made or at its first use. Each execution starts from a fresh frame; from one execution
to the next an engine keeps nothing but its table and its builder.
-/

namespace RegisterMachine

inductive BuildPolicy where
  | eager
  | lazy
  deriving DecidableEq

def BuildPolicy.name : BuildPolicy → String
  | eager => "Eager"
  | lazy => "Lazy"

structure EngineConfig where
  policy : BuildPolicy := .eager
  /-- Whether bytecode is verified before it is executed. -/
  verify : Bool := true
  deriving DecidableEq

structure Completion where
  value : Value
  stats : Stats
  deriving DecidableEq

inductive Refusal where
  | build (error : BuildError)
  | rejected (violations : List Violation)
  | emptyBytecode
  deriving DecidableEq

def Refusal.message : Refusal → String
  | build error => error.message
  | rejected violations =>
    "bytecode rejected: " ++
      match violations with
      | [] => "no errors reported"
      | [only] => only.message
      | first :: rest => first.message ++ s!" (and {rest.length} more)"
  | emptyBytecode => "bytecode array is empty"

inductive Outcome where
  | completed (completion : Completion)
  | refused (refusal : Refusal)
  | faulted (fault : Fault)
  deriving DecidableEq

def DispatchTable.runFresh (table : DispatchTable) (code : Bytecode) : Outcome :=
  match Frame.create code with
  | .error fault => .faulted fault
  | .ok frame =>
    match frame.run table with
    | (.ok value, frame) => .completed ⟨value, frame.stats⟩
    | (.error fault, _) => .faulted fault

structure Engine (σ : Type) where
  config : EngineConfig
  table : DispatchTable
  builder : TableBuilder σ

namespace Engine

variable {σ : Type}

def ensureBuilt (engine : Engine σ) : Except BuildError BuildOutcome × Engine σ :=
  let (outcome, builder, table) := engine.builder.ensureBuilt engine.table
  (outcome, { engine with builder, table })

/-- An engine over a fresh table. Under the eager policy the table is built here, and there is no
engine if that fails. -/
def create (config : EngineConfig) (builder : TableBuilder σ) : Except BuildError (Engine σ) :=
  let engine : Engine σ := ⟨config, .empty, builder⟩
  match config.policy with
  | .lazy => .ok engine
  | .eager =>
    match engine.ensureBuilt with
    | (.ok _, engine) => .ok engine
    | (.error e, _) => .error e

/-- What a table that is built makes of bytecode: verification comes first, if it is asked for. -/
def outcomeOf (config : EngineConfig) (table : DispatchTable) (code : Bytecode) : Outcome :=
  if config.verify ∧ code.violations ≠ [] then .refused (.rejected code.violations)
  else if code.size = 0 then .refused .emptyBytecode
  else table.runFresh code

def execute (engine : Engine σ) (code : Bytecode) : Outcome × Engine σ :=
  match engine.ensureBuilt with
  | (.error e, engine) => (.refused (.build e), engine)
  | (.ok _, engine) => (outcomeOf engine.config engine.table code, engine)

end Engine

def execute (config : EngineConfig) (code : Bytecode) : Outcome :=
  match Engine.create config (.direct none) with
  | .ok engine => (engine.execute code).1
  | .error e => .refused (.build e)

end RegisterMachine
