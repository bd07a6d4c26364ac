import Mathlib.Data.List.Nodup
import RegisterMachine.Proofs.Dispatch.Building

/-!
# What a builder says to its emitter

A recorded emitter is an emitter that keeps, beside its own state, every call made to it and the
answer it gave. Building over it comes to the same as building without the record, whatever the
emitter does, so the record of a pass is what the pass asked for and got. A call is objected to when
it fails or gives a unit with another label than the one asked for, and a pass ends with the first
such call.
-/

namespace RegisterMachine

variable {σ : Type}

structure Emission where
  opcode : Opcode
  contract : Contract
  answer : Except EmissionError CodeUnit

namespace Emission

/-- The error that a pass ends with at a call. -/
def objection? (call : Emission) : Option EmissionError :=
  match call.answer with
  | .error e => some e
  | .ok unit =>
    if unit.opcode = call.opcode then none else some (.contractMismatch call.opcode unit.opcode)

def supplied (unit : CodeUnit) : Emission := ⟨unit.opcode, .of unit.opcode, .ok unit⟩

theorem map_opcode_supplied (units : List CodeUnit) :
    (units.map supplied).map (·.opcode) = units.map (·.opcode) := by
  rw [List.map_map]
  rfl

theorem objection?_of_mem {units : List CodeUnit} :
    ∀ call ∈ units.map supplied, call.objection? = none :=
  List.forall_mem_map.mpr fun _ _ => if_pos rfl

theorem contract_of_mem {units : List CodeUnit} :
    ∀ call ∈ units.map supplied, call.contract = .of call.opcode :=
  List.forall_mem_map.mpr fun _ _ => rfl

theorem eq_supplied {opcode : Opcode} {answer : Except EmissionError CodeUnit}
    (h : objection? ⟨opcode, .of opcode, answer⟩ = none) :
    ∃ unit, unit.opcode = opcode ∧ answer = .ok unit := by
  cases answer with
  | error e => cases h
  | ok unit =>
    by_cases hl : unit.opcode = opcode
    · exact ⟨unit, hl, rfl⟩
    · simp [objection?, hl] at h

end Emission

namespace Emitter

def recorded (emitter : Emitter σ) : Emitter (σ × List Emission) where
  emit opcode contract state :=
    let result := emitter.emit opcode contract state.1
    (result.1, result.2, state.2 ++ [⟨opcode, contract, result.1⟩])

/-- The emitter answers calls as listed, and they take it from one state to another. -/
inductive Converses (emitter : Emitter σ) : σ → List Emission → σ → Prop
  | done (state : σ) : Converses emitter state [] state
  | call {opcode : Opcode} {contract : Contract} {answer : Except EmissionError CodeUnit}
      {state middle last : σ} {calls : List Emission}
      (he : emitter.emit opcode contract state = (answer, middle))
      (h : Converses emitter middle calls last) :
      Converses emitter state (⟨opcode, contract, answer⟩ :: calls) last

end Emitter

def Contract.layouts (opcodes : List Opcode) : List UInt8 :=
  opcodes.flatMap fun opcode => (Contract.of opcode).layout

/-- The calls of a pass for opcodes, and what the pass comes to. -/
inductive Pass (opcodes : List Opcode) :
    List Emission → Except EmissionError (List CodeUnit × List UInt8) → Prop
  | full {units : List CodeUnit} (hl : units.map (·.opcode) = opcodes) :
      Pass opcodes (units.map .supplied) (.ok (units, Contract.layouts opcodes))
  | cut {units : List CodeUnit} {opcode : Opcode} {answer : Except EmissionError CodeUnit}
      {todo : List Opcode} {e : EmissionError}
      (hl : units.map (·.opcode) ++ opcode :: todo = opcodes)
      (he : Emission.objection? ⟨opcode, .of opcode, answer⟩ = some e) :
      Pass opcodes (units.map .supplied ++ [⟨opcode, .of opcode, answer⟩]) (.error e)

namespace Emitter

variable {emitter : Emitter σ} {state middle after : σ}

theorem stage_of_objection {opcode : Opcode} {answer : Except EmissionError CodeUnit}
    {e : EmissionError} (rest : List Opcode)
    (he : emitter.emit opcode (.of opcode) state = (answer, middle))
    (ho : Emission.objection? ⟨opcode, .of opcode, answer⟩ = some e) :
    emitter.stage (opcode :: rest) state = (.error e, middle) := by
  rw [stage, he]
  cases answer with
  | error e' =>
    cases ho
    rfl
  | ok unit =>
    by_cases hl : unit.opcode = opcode
    · simp [Emission.objection?, hl] at ho
    · simp only [Emission.objection?, if_neg hl, Option.some.injEq] at ho
      simp [hl, ho]

end Emitter

theorem Pass.supplied {opcodes : List Opcode} {calls : List Emission}
    {result : Except EmissionError (List CodeUnit × List UInt8)} (h : Pass opcodes calls result)
    (unit : CodeUnit) :
    Pass (unit.opcode :: opcodes) (.supplied unit :: calls) (result.map fun staged =>
      (unit :: staged.1, (Contract.of unit.opcode).layout ++ staged.2)) := by
  cases h with
  | @full units hl =>
    have hnext : (unit :: units).map (·.opcode) = unit.opcode :: opcodes := by
      rw [List.map_cons, hl]
    exact .full hnext
  | @cut units opcode answer todo e hl he =>
    have hnext : (unit :: units).map (·.opcode) ++ opcode :: todo = unit.opcode :: opcodes := by
      rw [List.map_cons, List.cons_append, hl]
    exact .cut hnext he

/-- A pass comes to the same with a record of its calls. -/
theorem Emitter.stage_recorded (emitter : Emitter σ) (opcodes : List Opcode) (state : σ)
    (log : List Emission) :
    ∃ calls result after,
      emitter.stage opcodes state = (result, after) ∧
      emitter.recorded.stage opcodes (state, log) = (result, after, log ++ calls) ∧
      emitter.Converses state calls after ∧ Pass opcodes calls result := by
  induction opcodes generalizing state log with
  | nil =>
    refine ⟨[], .ok ([], []), state, rfl, ?_, .done state, @Pass.full [] [] rfl⟩
    rw [List.append_nil]
    rfl
  | cons opcode rest ih =>
    obtain ⟨answer, middle, he⟩ : ∃ answer middle,
        emitter.emit opcode (.of opcode) state = (answer, middle) := ⟨_, _, rfl⟩
    have hr : emitter.recorded.emit opcode (.of opcode) (state, log) =
        (answer, middle, log ++ [⟨opcode, .of opcode, answer⟩]) := by
      simp only [recorded, he]
    cases ho : Emission.objection? ⟨opcode, .of opcode, answer⟩ with
    | some e =>
      exact ⟨[⟨opcode, .of opcode, answer⟩], .error e, middle, stage_of_objection rest he ho,
        stage_of_objection rest hr ho, .call he (.done middle), @Pass.cut _ [] _ _ _ _ rfl ho⟩
    | none =>
      obtain ⟨unit, rfl, rfl⟩ := Emission.eq_supplied ho
      obtain ⟨calls, result, after, hs, hlog, hc, hp⟩ := ih middle (log ++ [.supplied unit])
      refine ⟨.supplied unit :: calls, _, after, stage_of_supplied he rfl hs, ?_, .call he hc,
        hp.supplied unit⟩
      rw [List.append_cons]
      exact stage_of_supplied hr rfl hlog

namespace Pass

variable {calls : List Emission}
  {result : Except EmissionError (List CodeUnit × List UInt8)}

/-- Opcodes are asked for in order and with their own contracts. -/
theorem requests {opcodes : List Opcode} (h : Pass opcodes calls result) :
    calls.map (·.opcode) <+: opcodes ∧ ∀ call ∈ calls, call.contract = .of call.opcode := by
  cases h with
  | @full units hl =>
    rw [Emission.map_opcode_supplied, hl]
    exact ⟨List.prefix_rfl, Emission.contract_of_mem⟩
  | @cut units opcode answer todo e hl he =>
    constructor
    · rw [List.map_append, Emission.map_opcode_supplied, ← hl]
      exact (List.prefix_append_right_inj _).mpr ⟨todo, rfl⟩
    · exact List.forall_mem_append.mpr
        ⟨Emission.contract_of_mem, fun call hmem => by rw [List.mem_singleton.mp hmem]⟩

end Pass

namespace DispatchTable

variable {units : List CodeUnit} {fingerprint : Digest.ChainingValue}

/-- A committed unit is found under its own label, which is also its place. -/
theorem get?_commit (hl : units.map (·.opcode) = Opcode.all) (opcode : Opcode) :
    ∃ unit, units[opcode.ordinal]? = some unit ∧ unit.opcode = opcode ∧
      (DispatchTable.empty.commit units fingerprint).get? opcode = some unit := by
  have hplace : (units.map (·.opcode))[opcode.ordinal]? = some opcode := by
    rw [hl, opcode.getElem?_all]
  rw [List.getElem?_map] at hplace
  obtain ⟨unit, hu, ho⟩ := Option.map_eq_some_iff.mp hplace
  have hmem : unit ∈ units := List.mem_of_getElem? hu
  refine ⟨unit, hu, ho, ?_⟩
  rcases slots_foldl_write units .empty opcode with ⟨other, hm, hother, hs⟩ | ⟨hn, _⟩
  · have hnodup : (units.map (·.opcode)).Nodup := hl ▸ Opcode.nodup_all
    obtain rfl := List.inj_on_of_nodup_map hnodup hm hmem (hother.trans ho.symm)
    exact hs
  · exact absurd ho (hn unit hmem)

end DispatchTable

/-- Every call of a pass gave what it was asked for, and the table has it. -/
structure Served (calls : List Emission) (units : List CodeUnit) (table : DispatchTable) :
    Prop where
  unobjected : ∀ call ∈ calls, call.objection? = none
  count : calls.length = 15
  found : ∀ opcode, ∃ unit, calls[opcode.ordinal]? = some ⟨opcode, .of opcode, .ok unit⟩ ∧
    table.get? opcode = some unit ∧ table.lookup opcode = .ok unit
  written_once : ∀ done unit todo, units = done ++ unit :: todo →
    (done.foldl DispatchTable.write .empty).slots unit.opcode = none
  fingerprint : table.fingerprint? = some (Digest.hash (Contract.layouts Opcode.all))

/-- The last call of a pass, and no other, is objected to, and the table has nothing. -/
structure Refused (calls : List Emission) (e : EmissionError) (table : DispatchTable) : Prop where
  last : ∃ earlier call, calls = earlier ++ [call] ∧
    (∀ other ∈ earlier, other.objection? = none) ∧ call.objection? = some e ∧
    calls.length = call.opcode.ordinal + 1
  slots : ∀ opcode, table.slots opcode = none
  get : ∀ opcode, table.get? opcode = none
  fingerprint : table.fingerprint? = none
  failure : table.failure? = some e

namespace Pass

variable {calls : List Emission} {units : List CodeUnit} {layout : List UInt8}

theorem served (h : Pass Opcode.all calls (.ok (units, layout))) :
    layout = Contract.layouts Opcode.all ∧
      Served calls units (DispatchTable.empty.commit units (Digest.hash layout)) := by
  cases h with
  | full hl =>
    refine ⟨rfl, Emission.objection?_of_mem, ?_, fun opcode => ?_, ?_, rfl⟩
    · rw [List.length_map, ← List.length_map CodeUnit.opcode, hl]
      rfl
    · obtain ⟨unit, hu, rfl, hg⟩ := DispatchTable.get?_commit hl opcode
      refine ⟨unit, ?_, hg, ?_⟩
      · rw [List.getElem?_map, hu]
        rfl
      · rw [DispatchTable.lookup, hg]
    · rintro done unit todo rfl
      exact DispatchTable.slots_eq_none_of_labels hl

theorem refused {e : EmissionError} (h : Pass Opcode.all calls (.error e)) :
    Refused calls e (DispatchTable.empty.recordFailure e) := by
  cases h with
  | @cut units opcode answer todo _ hl he =>
    refine ⟨⟨_, _, rfl, Emission.objection?_of_mem, he, ?_⟩, fun _ => rfl, fun _ => rfl, rfl, rfl⟩
    have hplace : Opcode.all[units.length]? = some opcode := by
      rw [← hl, List.getElem?_append_right (by simp)]
      simp
    rw [List.length_append, List.length_map, Opcode.eq_ordinal hplace]
    rfl

end Pass

namespace TableBuilder

def recorded (builder : TableBuilder σ) (log : List Emission) :
    TableBuilder (σ × List Emission) where
  emitter := builder.emitter.recorded
  state := (builder.state, log)
  passes := builder.passes

/-- The pass that a builder takes for a fresh table, with a record of its calls and without one. The
opcodes are asked for in order, each with its own contract, and what the emitter answers decides
alone what becomes of the table. -/
theorem ensureBuilt_conversation (builder : TableBuilder σ) :
    ∃ calls answer next table,
      builder.ensureBuilt .empty = (answer, next, table) ∧
      (builder.recorded []).ensureBuilt .empty = (answer, next.recorded calls, table) ∧
      builder.emitter.Converses builder.state calls next.state ∧
      calls.map (·.opcode) <+: Opcode.all ∧ (∀ call ∈ calls, call.contract = .of call.opcode) ∧
      (answer = .ok (.built 15) ↔ ∀ call ∈ calls, call.objection? = none) ∧
      (answer = .ok (.built 15) ∧ (∃ units,
          builder.emitter.stage Opcode.all builder.state =
            (.ok (units, Contract.layouts Opcode.all), next.state) ∧
          Served calls units table) ∨
        ∃ e, answer = .error (.emission e) ∧ Refused calls e table) := by
  obtain ⟨calls, result, after, hs, hlog, hc, hp⟩ :=
    builder.emitter.stage_recorded Opcode.all builder.state []
  refine ⟨calls, ?_⟩
  cases result with
  | error e =>
    have hrefused := hp.refused
    refine ⟨_, _, _, builder.ensureBuilt_of_stage_error hs,
      (builder.recorded []).ensureBuilt_of_stage_error hlog, hc, hp.requests.1, hp.requests.2, ?_,
      Or.inr ⟨e, rfl, hrefused⟩⟩
    obtain ⟨earlier, call, rfl, _, he, _⟩ := hrefused.last
    refine ⟨nofun, fun hall => ?_⟩
    rw [hall call (by simp)] at he
    cases he
  | ok staged =>
    obtain ⟨units, layout⟩ := staged
    obtain ⟨rfl, hserved⟩ := hp.served
    exact ⟨_, _, _, builder.ensureBuilt_of_stage_ok hs,
      (builder.recorded []).ensureBuilt_of_stage_ok hlog, hc, hp.requests.1, hp.requests.2,
      ⟨fun _ => hserved.unobjected, fun _ => rfl⟩, Or.inl ⟨rfl, units, hs, hserved⟩⟩

end TableBuilder

end RegisterMachine
