import RegisterMachine.Execution.Frame
import RegisterMachine.Value.Arithmetic

/-!
# The machine without its cursor

What decoded instructions mean, one after the other, for an accumulator and a register file. There
is no stream here, no table and no handler: `Machine.step` reads the contract of an instruction off
its opcode and operand, and `Machine.evaluate` folds a list of instructions.
-/

namespace RegisterMachine

structure Machine where
  accumulator : Value
  registers : Array Value
  deriving DecidableEq

namespace Machine

def initial (registerCount : Nat) : Machine :=
  ⟨.undefined, Array.replicate registerCount .undefined⟩

theorem size_initial (registerCount : Nat) :
    (initial registerCount).registers.size = registerCount := Array.size_replicate

def load (m : Machine) (value : Value) : Machine := { m with accumulator := value }

def read (m : Machine) (r : Register) : Except Inconsistency Value :=
  match m.registers[r.index.toNat]? with
  | some value => .ok value
  | none => .error (.registerOutside r m.registers.size)

def write (m : Machine) (r : Register) (value : Value) : Except Inconsistency Machine :=
  if h : r.index.toNat < m.registers.size then
    .ok { m with registers := m.registers.set r.index.toNat value }
  else .error (.registerOutside r m.registers.size)

def constant (pool : Array Value) (index : Nat) : Except Inconsistency Value :=
  match pool[index]? with
  | some value => .ok value
  | none => .error (.constantOutside index pool.size)

def combine (operation : Value → Value → Value) (m : Machine) (r : Register) :
    Except Inconsistency Machine :=
  (m.read r).map fun value => m.load (operation m.accumulator value)

/-- The contract of an instruction. `Return` changes nothing, but needs register 0. No instruction
has an operand of another kind than its opcode takes, so the last case is never met. -/
def step (pool : Array Value) (m : Machine) (i : Instruction) : Except Inconsistency Machine :=
  match i.opcode, i.operand? with
  | .ldaZero, _ => .ok (m.load (.small 0))
  | .ldaSmi8, some (.imm n) => .ok (m.load (.small n.toInt32))
  | .ldaUndefined, _ => .ok (m.load .undefined)
  | .ldaNull, _ => .ok (m.load .null)
  | .ldaTheHole, _ => .ok (m.load .hole)
  | .ldaTrue, _ => .ok (m.load (.boolean true))
  | .ldaFalse, _ => .ok (m.load (.boolean false))
  | .ldaConstant, some (.idx index) => (constant pool index.toNat).map m.load
  | .ldar, some (.reg r) => (m.read r).map m.load
  | .star, some (.reg r) => m.write r m.accumulator
  | .add, some (.reg r) => m.combine .add r
  | .sub, some (.reg r) => m.combine .sub r
  | .mul, some (.reg r) => m.combine .mul r
  | .div, some (.reg r) => m.combine (fun accumulator value => value.div accumulator) r
  | .ret, _ => (m.read ⟨0⟩).map fun _ => m
  | _, _ => .ok m

theorem read_eq_ok_iff {m : Machine} {r : Register} {value : Value} :
    m.read r = .ok value ↔ m.registers[r.index.toNat]? = some value := by
  unfold read
  cases m.registers[r.index.toNat]? <;> simp

theorem constant_eq_ok_iff {pool : Array Value} {index : Nat} {value : Value} :
    constant pool index = .ok value ↔ pool[index]? = some value := by
  unfold constant
  cases pool[index]? <;> simp

theorem step_of_return {i : Instruction} (hr : i.opcode = .ret) (pool : Array Value) (m : Machine) :
    m.step pool i = (m.read ⟨0⟩).map fun _ => m := by
  obtain ⟨opcode, operand?, _⟩ := i
  cases hr
  rfl

theorem read_of_step {i : Instruction} (hr : i.opcode = .ret) {pool : Array Value}
    {m next : Machine} (hs : m.step pool i = .ok next) : ∃ value, m.read ⟨0⟩ = .ok value := by
  rw [step_of_return hr] at hs
  cases hv : m.read ⟨0⟩ with
  | ok value => exact ⟨value, rfl⟩
  | error detail => rw [hv] at hs; cases hs

theorem read_of_step_error {i : Instruction} (hr : i.opcode = .ret) {pool : Array Value}
    {m : Machine} {detail : Inconsistency} (hs : m.step pool i = .error detail) :
    m.read ⟨0⟩ = .error detail := by
  rw [step_of_return hr] at hs
  cases hv : m.read ⟨0⟩ with
  | ok value => rw [hv] at hs; cases hs
  | error e => rw [hv] at hs; cases hs; rfl

/-- The machine after a list of instructions, or what the first of them to fail asked for. -/
def evaluate (pool : Array Value) (m : Machine) (instructions : List Instruction) :
    Except Inconsistency Machine :=
  instructions.foldlM (step pool) m

theorem evaluate_cons (pool : Array Value) (m : Machine) (i : Instruction)
    (rest : List Instruction) :
    m.evaluate pool (i :: rest) = (m.step pool i).bind (·.evaluate pool rest) := rfl

theorem evaluate_cons_of_step {pool : Array Value} {m next : Machine} {i : Instruction}
    (h : m.step pool i = .ok next) (rest : List Instruction) :
    m.evaluate pool (i :: rest) = next.evaluate pool rest := by
  rw [evaluate_cons, h]
  rfl

theorem evaluate_append {pool : Array Value} {m next : Machine} {first : List Instruction}
    (h : m.evaluate pool first = .ok next) (second : List Instruction) :
    m.evaluate pool (first ++ second) = next.evaluate pool second := by
  unfold evaluate at *
  rw [List.foldlM_append, h]
  rfl

end Machine

def Bytecode.evaluation (code : Bytecode) : Except Inconsistency Machine :=
  (Machine.initial code.registerCount).evaluate code.constants
    (code.decode.instructions.map (·.instruction))

end RegisterMachine
