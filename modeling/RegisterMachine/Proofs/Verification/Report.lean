import Mathlib.Data.List.Forall2
import Mathlib.Data.List.TakeWhile
import RegisterMachine.Proofs.Verification.Extension
import RegisterMachine.Proofs.Verification.Prediction

/-!
# The report of verification

All that is wrong with bytecode is reported, once each, in the order of the passes and within a pass
in the order of the stream. `Bytecode.Reports` says what each pass has to find, without a word on
how it looks for it; `Violation.Precedes` is the order of the report.
-/

namespace RegisterMachine

namespace Violation

/-- The number of the pass that finds a violation: sizes, structure, operands, reachability. -/
def pass : Violation → Nat
  | tooManyRegisters .. | tooManyConstants .. => 0
  | undecodable _ | missingReturn => 1
  | registerOutOfBounds .. | constantOutOfBounds .. | returnWithoutResult _ => 2
  | unreachable _ => 3

def position : Violation → Nat
  | tooManyRegisters .. | missingReturn => 0
  | tooManyConstants .. => 1
  | undecodable error => error.offset
  | registerOutOfBounds offset .. | constantOutOfBounds offset .. | returnWithoutResult offset
  | unreachable offset => offset

/-- An earlier pass comes first, and in one pass the smaller position. -/
def Precedes (v w : Violation) : Prop :=
  v.pass < w.pass ∨ v.pass = w.pass ∧ v.position < w.position

theorem Precedes.ne {v w : Violation} (h : v.Precedes w) : v ≠ w := by
  rintro rfl
  rcases h with h | ⟨_, h⟩ <;> exact Nat.lt_irrefl _ h

end Violation

namespace Instruction

variable {i : Instruction}

theorem opcode_ne_ret {operand : Operand} (h : i.operand? = some operand) : i.opcode ≠ .ret := by
  intro hr
  have hk := i.kind_eq
  rw [h, hr] at hk
  cases hk

theorem operand?_of_register? {r : Register} (h : i.register? = some r) :
    i.operand? = some (.reg r) ∧ i.opcode ≠ .ret := by
  obtain ⟨operand, ho, hr⟩ := Option.bind_eq_some_iff.mp h
  cases operand with
  | reg r' =>
    obtain rfl := Option.some.inj hr
    exact ⟨ho, opcode_ne_ret ho⟩
  | imm n => cases hr
  | idx index => cases hr

theorem operand?_of_constantIndex? {n : Nat} (h : i.constantIndex? = some n) :
    ∃ index : UInt8, i.operand? = some (.idx index) ∧ n = index.toNat ∧ i.opcode ≠ .ret := by
  obtain ⟨operand, ho, hn⟩ := Option.bind_eq_some_iff.mp h
  cases operand with
  | idx index => exact ⟨index, ho, (Option.some.inj hn).symm, opcode_ne_ret ho⟩
  | imm n => cases hn
  | reg r => cases hn

end Instruction

namespace Bytecode

variable {code : Bytecode}

def Offends (code : Bytecode) (placed : Placed) : Prop :=
  (∃ r ∈ placed.instruction.register?, code.registerCount ≤ r.index.toNat) ∨
  (∃ index ∈ placed.instruction.constantIndex?, code.constants.size ≤ index) ∨
  (placed.instruction.opcode = .ret ∧ code.registerCount = 0)

instance : DecidablePred code.Offends := fun _ => inferInstanceAs (Decidable (_ ∨ _ ∨ _))

inductive Objection (code : Bytecode) (placed : Placed) : Violation → Prop
  | register {r : Register} (hr : placed.instruction.register? = some r)
      (h : code.registerCount ≤ r.index.toNat) :
      Objection code placed (.registerOutOfBounds placed.offset r code.registerCount)
  | constant {index : Nat} (hc : placed.instruction.constantIndex? = some index)
      (h : code.constants.size ≤ index) :
      Objection code placed (.constantOutOfBounds placed.offset index code.constants.size)
  | result (hr : placed.instruction.opcode = .ret) (h : code.registerCount = 0) :
      Objection code placed (.returnWithoutResult placed.offset)

/-- What the passes have to find. A stream that does not decode to its end is reported with the
error that ended it, and no instruction of it is looked at. -/
structure Reports (code : Bytecode) (limits structural operands dead : List Violation) : Prop where
  limits_eq : limits =
    (if 256 < code.registerCount then [.tooManyRegisters code.registerCount 256] else []) ++
      if 256 < code.constants.size then [.tooManyConstants code.constants.size 256] else []
  of_error : ∀ e, code.decode.error? = some e →
    structural = [.undecodable e] ∧ operands = [] ∧ dead = []
  structural_eq : code.decode.error? = none →
    structural = if ∃ final ∈ code.decode.instructions.getLast?, final.instruction.opcode = .ret
      then [] else [.missingReturn]
  operands_eq : code.decode.error? = none →
    List.Forall₂ code.Objection (code.decode.instructions.filter (code.Offends ·)) operands
  dead_eq : code.decode.error? = none →
    dead = (code.decode.instructions.filter fun placed =>
      ∃ final ∈ code.firstReturn?, final.offset < placed.offset).map (.unreachable ·.offset)

theorem Objection.place_eq {placed : Placed} {v : Violation} (h : code.Objection placed v) :
    v.pass = 2 ∧ v.position = placed.offset := by
  cases h <;> exact ⟨rfl, rfl⟩

theorem offends_iff {placed : Placed} :
    code.Offends placed ↔ code.instructionViolations placed ≠ [] := by
  rw [Ne, instructionViolations_eq_nil_iff]
  simp only [Offends, Option.mem_def, not_and_or, not_forall, Nat.not_lt, exists_prop, ne_eq,
    not_not]

/-- An instruction that offends gives rise to one violation. -/
theorem exists_objection {placed : Placed} (h : code.Offends placed) :
    ∃ v, code.instructionViolations placed = [v] ∧ code.Objection placed v := by
  rcases h with ⟨r, hr, hle⟩ | ⟨index, hc, hle⟩ | ⟨hr, hz⟩
  · obtain ⟨ho, hne⟩ := Instruction.operand?_of_register? hr
    exact ⟨_, (instructionViolations_of_reg ho hne).trans (if_pos hle), .register hr hle⟩
  · obtain ⟨index, ho, rfl, hne⟩ := Instruction.operand?_of_constantIndex? hc
    exact ⟨_, (instructionViolations_of_idx ho hne).trans (if_pos hle), .constant hc hle⟩
  · have ho : placed.instruction.operand? = none :=
      Option.map_eq_none_iff.mp (placed.instruction.kind_eq.trans (by rw [hr]; rfl))
    exact ⟨_, (instructionViolations_of_return ho hr).trans (if_pos hz), .result hr hz⟩

theorem forall₂_instructionViolations (code : Bytecode) (placed : List Placed) :
    List.Forall₂ code.Objection (placed.filter (code.Offends ·))
      (placed.flatMap code.instructionViolations) := by
  induction placed with
  | nil => exact .nil
  | cons head tail ih =>
    rw [List.flatMap_cons]
    by_cases ho : code.Offends head
    · obtain ⟨v, hv, hobjection⟩ := exists_objection ho
      rw [List.filter_cons_of_pos (by simpa using ho), hv]
      exact .cons hobjection ih
    · rw [List.filter_cons_of_neg (by simpa using ho), not_ne_iff.mp (mt offends_iff.mpr ho)]
      exact ih

theorem objection_of_mem {placed : Placed} {v : Violation}
    (h : v ∈ code.instructionViolations placed) : code.Objection placed v := by
  obtain ⟨w, hw, hobjection⟩ := exists_objection (offends_iff.mpr (List.ne_nil_of_mem h))
  rw [hw, List.mem_singleton] at h
  exact h ▸ hobjection

theorem objection_of_mem_operandViolations {v : Violation} (h : v ∈ code.operandViolations) :
    ∃ placed ∈ code.decode.instructions, code.Objection placed v := by
  obtain ⟨placed, hm, hv⟩ := List.mem_flatMap.mp h
  exact ⟨placed, hm, objection_of_mem hv⟩

theorem pairwise_offset_lt (code : Bytecode) :
    code.decode.instructions.Pairwise fun a b => a.offset < b.offset := by
  refine (code.pairwise_offset 0).imp fun {a b} h => ?_
  have hw : 0 < a.instruction.width := a.instruction.opcode.width_pos
  omega

theorem pairwise_operandViolations (code : Bytecode) :
    code.operandViolations.Pairwise Violation.Precedes := by
  refine List.pairwise_flatMap.mpr ⟨fun placed _ => ?_, code.pairwise_offset_lt.imp ?_⟩
  · by_cases ho : code.Offends placed
    · obtain ⟨v, hv, _⟩ := exists_objection ho
      rw [hv]
      exact List.pairwise_singleton _ _
    · rw [not_ne_iff.mp (mt offends_iff.mpr ho)]
      exact .nil
  · intro a b hlt v hv w hw
    obtain ⟨hpass, hposition⟩ := (objection_of_mem hv).place_eq
    obtain ⟨hpass', hposition'⟩ := (objection_of_mem hw).place_eq
    exact Or.inr ⟨hpass.trans hpass'.symm, by rw [hposition, hposition']; exact hlt⟩

theorem afterReturn_eq (code : Bytecode) :
    code.decode.afterReturn = code.decode.instructions.filter fun placed =>
      ∃ final ∈ code.firstReturn?, final.offset < placed.offset := by
  cases hf : code.firstReturn? with
  | none =>
    have hno : ∀ placed ∈ code.decode.instructions, placed.instruction.opcode ≠ .ret :=
      fun placed hm => by simpa using List.find?_eq_none.mp hf placed hm
    rw [Decoding.afterReturn, List.dropWhile_eq_nil_iff.mpr fun p hm => by simpa using hno p hm]
    simp
  | some final =>
    obtain ⟨hr, path, rest, hd, hp⟩ := List.find?_eq_some_iff_append.mp hf
    rw [Decoding.afterReturn_append hd (fun p h => by simpa using hp p h) (by simpa using hr), hd]
    have hsorted := code.pairwise_offset_lt
    rw [hd] at hsorted
    obtain ⟨_, hrest, hacross⟩ := List.pairwise_append.mp hsorted
    have hbefore : ∀ placed ∈ path, ¬final.offset < placed.offset := fun placed hm =>
      Nat.lt_asymm (hacross placed hm final List.mem_cons_self)
    have hbehind : ∀ placed ∈ rest, final.offset < placed.offset :=
      (List.pairwise_cons.mp hrest).1
    rw [List.filter_append, List.filter_eq_nil_iff.mpr (by simpa using hbefore),
      List.filter_cons_of_neg (by simp), List.filter_eq_self.mpr (by simpa using hbehind)]
    rfl

theorem pairwise_reachabilityViolations (code : Bytecode) :
    code.decode.reachabilityViolations.Pairwise Violation.Precedes := by
  rw [Decoding.reachabilityViolations, afterReturn_eq]
  refine List.pairwise_map.mpr ((code.pairwise_offset_lt.filter _).imp ?_)
  exact fun h => Or.inr ⟨rfl, h⟩

theorem pairwise_limitViolations (code : Bytecode) :
    code.limitViolations.Pairwise Violation.Precedes := by
  unfold limitViolations
  split_ifs <;> simp [Violation.Precedes, Violation.pass, Violation.position]

theorem pairwise_structuralViolations (decoding : Decoding) :
    decoding.structuralViolations.Pairwise Violation.Precedes := by
  unfold Decoding.structuralViolations
  cases decoding.error? with
  | some e => exact List.pairwise_singleton _ _
  | none =>
    dsimp only
    split_ifs
    · exact .nil
    · exact List.pairwise_singleton _ _

theorem pass_limitViolations {v : Violation} (h : v ∈ code.limitViolations) : v.pass = 0 := by
  rcases List.mem_append.mp h with h | h
  · split at h
    · exact List.mem_singleton.mp h ▸ rfl
    · cases h
  · split at h
    · exact List.mem_singleton.mp h ▸ rfl
    · cases h

theorem pass_structuralViolations {decoding : Decoding} {v : Violation}
    (h : v ∈ decoding.structuralViolations) : v.pass = 1 := by
  unfold Decoding.structuralViolations at h
  split at h
  · exact List.mem_singleton.mp h ▸ rfl
  · split at h
    · cases h
    · exact List.mem_singleton.mp h ▸ rfl

theorem pass_operandViolations {v : Violation} (h : v ∈ code.operandViolations) : v.pass = 2 := by
  obtain ⟨placed, _, hobjection⟩ := objection_of_mem_operandViolations h
  exact hobjection.place_eq.1

theorem pass_reachabilityViolations {decoding : Decoding} {v : Violation}
    (h : v ∈ decoding.reachabilityViolations) : v.pass = 3 := by
  obtain ⟨placed, _, rfl⟩ := List.mem_map.mp h
  rfl

def OrderedFrom (n : Nat) (violations : List Violation) : Prop :=
  violations.Pairwise Violation.Precedes ∧ ∀ v ∈ violations, n ≤ v.pass

/-- The violations of one pass come in front of those of later passes. -/
theorem OrderedFrom.append {n : Nat} {first rest : List Violation}
    (hrest : OrderedFrom (n + 1) rest) (hfirst : first.Pairwise Violation.Precedes)
    (hpass : ∀ v ∈ first, v.pass = n) :
    OrderedFrom n (first ++ rest) := by
  constructor
  · refine List.pairwise_append.mpr ⟨hfirst, hrest.1, fun v hv w hw => Or.inl ?_⟩
    rw [hpass v hv]
    exact hrest.2 w hw
  · intro v hv
    rcases List.mem_append.mp hv with hv | hv
    · exact Nat.le_of_eq (hpass v hv).symm
    · exact Nat.le_of_succ_le (hrest.2 v hv)

theorem exists_parts (code : Bytecode) :
    ∃ operands dead,
      code.violations =
        code.limitViolations ++ code.decode.structuralViolations ++ operands ++ dead ∧
      code.Reports code.limitViolations code.decode.structuralViolations operands dead ∧
      operands.Sublist code.operandViolations ∧
      dead.Sublist code.decode.reachabilityViolations := by
  cases he : code.decode.error? with
  | some e =>
    have hstructural : code.decode.structuralViolations = [.undecodable e] := by
      rw [Decoding.structuralViolations, he]
    refine ⟨[], [], ?_, ⟨rfl, ?_, ?_, ?_, ?_⟩, List.nil_sublist _, List.nil_sublist _⟩
    · simp [violations, he]
    · rintro e' he'
      rw [he] at he'
      exact ⟨Option.some.inj he' ▸ hstructural, rfl, rfl⟩
    all_goals
      intro hnone
      rw [he] at hnone
      cases hnone
  | none =>
    refine ⟨_, _, ?_, ⟨rfl, ?_, ?_, ?_, ?_⟩, List.Sublist.refl _, List.Sublist.refl _⟩
    · simp [violations, he]
    · intro e he'
      rw [he] at he'
      cases he'
    · intro _
      rw [Decoding.structuralViolations, he]
      cases code.decode.instructions.getLast? <;> simp
    · exact fun _ => code.forall₂_instructionViolations _
    · intro _
      rw [Decoding.reachabilityViolations, afterReturn_eq]

/-- The pass of a violation tells which part of the report has it. -/
theorem mem_of_mem_violations {v : Violation} (h : v ∈ code.violations) :
    (v.pass = 0 → v ∈ code.limitViolations) ∧ (v.pass = 2 → v ∈ code.operandViolations) := by
  obtain ⟨operands, dead, hall, _, hoperands, hdead⟩ := code.exists_parts
  simp only [hall, List.mem_append] at h
  rcases h with ((hlimit | hstructural) | hoperand) | hunreachable
  · rw [pass_limitViolations hlimit]
    exact ⟨fun _ => hlimit, nofun⟩
  · rw [pass_structuralViolations hstructural]
    exact ⟨nofun, nofun⟩
  · have hmem := hoperands.subset hoperand
    rw [pass_operandViolations hmem]
    exact ⟨nofun, fun _ => hmem⟩
  · rw [pass_reachabilityViolations (hdead.subset hunreachable)]
    exact ⟨nofun, nofun⟩

/-- Verification reports all that is wrong with bytecode and nothing twice. The sizes come first,
then the structure, the operands and the instructions that no run reaches, each part complete and in
strictly increasing offset. -/
theorem violations_reported (code : Bytecode) :
    ∃ limits structural operands dead,
      code.violations = limits ++ structural ++ operands ++ dead ∧
      code.Reports limits structural operands dead ∧
      code.violations.Pairwise Violation.Precedes ∧ code.violations.Nodup ∧
      (code.violations = [] ↔ limits = [] ∧ structural = [] ∧ operands = [] ∧ dead = []) := by
  obtain ⟨operands, dead, hall, hreports, hoperands, hdead⟩ := code.exists_parts
  have hthree : OrderedFrom 3 (dead ++ []) :=
    OrderedFrom.append ⟨.nil, nofun⟩ (code.pairwise_reachabilityViolations.sublist hdead)
      fun _ hv => pass_reachabilityViolations (hdead.subset hv)
  rw [List.append_nil] at hthree
  have htwo : OrderedFrom 2 (operands ++ dead) :=
    hthree.append (code.pairwise_operandViolations.sublist hoperands)
      fun _ hv => pass_operandViolations (hoperands.subset hv)
  have hone : OrderedFrom 1 (code.decode.structuralViolations ++ (operands ++ dead)) :=
    htwo.append (pairwise_structuralViolations _) fun _ => pass_structuralViolations
  have hpairwise : code.violations.Pairwise Violation.Precedes := by
    rw [hall, List.append_assoc, List.append_assoc]
    exact (hone.append code.pairwise_limitViolations fun _ => pass_limitViolations).1
  refine ⟨_, _, operands, dead, hall, hreports, hpairwise, hpairwise.imp Violation.Precedes.ne, ?_⟩
  rw [hall]
  simp only [List.append_eq_nil_iff, and_assoc]

/-- `Ldar r3; Return; LdaZero` without registers. -/
example : (⟨#[8, 3, 14, 0], 0, #[]⟩ : Bytecode).violations =
    [.missingReturn, .registerOutOfBounds 0 ⟨3⟩ 0, .returnWithoutResult 2, .unreachable 3] := by
  decide

end Bytecode

end RegisterMachine
