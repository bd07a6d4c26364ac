import RegisterMachine.Proofs.Verification.Soundness

/-!
# What a completed run depends on

A run that returns has read the bytes up to its cursor, the registers it was declared with and the
constants it has loaded. Bytecode with other bytes behind that, more registers and more constants
runs in the same way (`Machine.step_widen` for one instruction, `Path.widen` for a path). Registers
and constants that are added do not give rise to violations either.
-/

namespace RegisterMachine

namespace Machine

def widen (m : Machine) (extra : Array Value) : Machine :=
  { m with registers := m.registers ++ extra }

variable {m next : Machine} {pool : Array Value}

theorem read_widen {r : Register} {value : Value} (extra : Array Value)
    (h : m.read r = .ok value) : (m.widen extra).read r = .ok value := by
  rw [read_eq_ok_iff] at h ⊢
  rw [widen, Array.getElem?_append_left (Array.getElem?_eq_some_iff.mp h).1, h]

theorem map_read_widen {r : Register} {f g : Value → Machine} (extra : Array Value)
    (hfg : ∀ value, g value = (f value).widen extra) (h : (m.read r).map f = .ok next) :
    ((m.widen extra).read r).map g = .ok (next.widen extra) := by
  cases hr : m.read r with
  | error detail => rw [hr] at h; cases h
  | ok value =>
    rw [hr] at h
    cases h
    rw [read_widen extra hr]
    exact congrArg Except.ok (hfg value)

theorem write_widen {r : Register} {value : Value} (extra : Array Value)
    (h : m.write r value = .ok next) : (m.widen extra).write r value = .ok (next.widen extra) := by
  unfold write at h
  split at h
  · next hlt =>
    cases h
    have hwide : r.index.toNat < (m.widen extra).registers.size := by
      rw [widen, Array.size_append]
      omega
    rw [write, dif_pos hwide]
    simp only [widen, Array.set_append_left hlt]
  · cases h

theorem constant_append {index : Nat} {value : Value} (more : Array Value)
    (h : constant pool index = .ok value) : constant (pool ++ more) index = .ok value := by
  rw [constant_eq_ok_iff] at h ⊢
  rw [Array.getElem?_append_left (Array.getElem?_eq_some_iff.mp h).1, h]

/-- An instruction that is carried out is carried out in the same way by a machine with further
registers, over a pool with further constants. -/
theorem step_widen {i : Instruction} (extra more : Array Value) (h : m.step pool i = .ok next) :
    (m.widen extra).step (pool ++ more) i = .ok (next.widen extra) := by
  have hk := i.kind_eq
  obtain ⟨opcode, operand?, _⟩ := i
  cases opcode with
  | ldaZero | ldaUndefined | ldaNull | ldaTheHole | ldaTrue | ldaFalse => cases h; rfl
  | ldaSmi8 =>
    obtain ⟨n, rfl⟩ := Operand.exists_imm hk
    cases h
    rfl
  | ldaConstant =>
    obtain ⟨index, rfl⟩ := Operand.exists_idx hk
    change (constant pool index.toNat).map m.load = .ok next at h
    change (constant (pool ++ more) index.toNat).map (m.widen extra).load = _
    cases hc : constant pool index.toNat with
    | error detail => rw [hc] at h; cases h
    | ok value =>
      rw [hc] at h
      cases h
      rw [constant_append more hc]
      rfl
  | ldar | add | sub | mul | div =>
    obtain ⟨r, rfl⟩ := Operand.exists_reg hk
    exact map_read_widen extra (fun _ => rfl) h
  | star =>
    obtain ⟨r, rfl⟩ := Operand.exists_reg hk
    exact write_widen extra h
  | ret => exact map_read_widen extra (fun _ => rfl) h

end Machine

theorem Path.widen {pool : Array Value} {m last : Machine} {path : List Placed}
    (h : Path pool m path last) (extra more : Array Value) :
    Path (pool ++ more) (m.widen extra) path (last.widen extra) := by
  induction h with
  | nil m => exact .nil _
  | cons hr hm _ ih => exact .cons hr (Machine.step_widen extra more hm) ih

namespace Bytecode

variable {code other : Bytecode}

theorem fetch_of_bare {offset : Nat} {byte : UInt8} {opcode : Opcode}
    (hb : code.byteAt? offset = some byte) (ho : Opcode.ofByte? byte = some opcode)
    (hk : opcode.operandKind? = none) : code.fetch offset = some (.ok (.bare opcode hk)) := by
  simp only [fetch, hb, Option.map_some, ho]
  split
  · rfl
  · next h => rw [hk] at h; cases h

theorem fetch_of_operand {offset : Nat} {byte argument : UInt8} {opcode : Opcode}
    {kind : OperandKind} (hb : code.byteAt? offset = some byte)
    (ho : Opcode.ofByte? byte = some opcode) (hk : opcode.operandKind? = some kind)
    (ha : code.byteAt? (offset + 1) = some argument) :
    code.fetch offset = some (.ok (.ofOperandByte opcode kind hk argument)) := by
  simp only [fetch, hb, Option.map_some, ho, ha]
  split
  · next h => rw [hk] at h; cases h
  · next kind h =>
    obtain rfl := Option.some.inj (h.symm.trans hk)
    rfl

theorem fetch_congr {offset : Nat} {i : Instruction} (h : code.fetch offset = some (.ok i))
    (hb : ∀ k < offset + i.width, other.byteAt? k = code.byteAt? k) :
    other.fetch offset = some (.ok i) := by
  have hf := code.fetches offset
  rw [h] at hf
  have hw : 0 < i.width := i.opcode.width_pos
  have hfirst : other.byteAt? offset = code.byteAt? offset := hb offset (by omega)
  cases hf with
  | bare hbyte ho hk => exact fetch_of_bare (hfirst.trans hbyte) ho hk
  | operand hbyte ho hk ha =>
    rw [width_ofOperandByte] at hb
    exact fetch_of_operand (hfirst.trans hbyte) ho hk ((hb (offset + 1) (by omega)).trans ha)

theorem decodeAt_congr {offset : Nat} {path rest : List Placed} {final : Placed}
    (hd : (code.decodeAt offset).instructions = path ++ final :: rest)
    (hb : ∀ k < final.offset + final.instruction.width, other.byteAt? k = code.byteAt? k) :
    ∃ rest', (other.decodeAt offset).instructions = path ++ final :: rest' := by
  induction path generalizing offset with
  | nil =>
    obtain ⟨hc, hf, _⟩ := fetch_of_decodeAt hd
    subst hc
    rw [decodeAt_of_fetch (fetch_congr hf hb)]
    exact ⟨_, rfl⟩
  | cons head tail ih =>
    obtain ⟨hc, hf, hrest, _⟩ := fetch_of_decodeAt hd
    subst hc
    have hmem : final ∈ (code.decodeAt (head.offset + head.instruction.width)).instructions := by
      rw [hrest]
      exact List.mem_append_right _ List.mem_cons_self
    have hbehind := (offset_bounds hmem).1
    have hhead : other.fetch head.offset = some (.ok head.instruction) :=
      fetch_congr hf fun k h => hb k (by omega)
    obtain ⟨rest', hd'⟩ := ih hrest
    rw [decodeAt_of_fetch hhead]
    exact ⟨rest', congrArg (head :: ·) hd'⟩

/-- Bytecode with at least the registers and the constants of another. -/
structure Extends (larger code : Bytecode) : Prop where
  registers : code.registerCount ≤ larger.registerCount
  constants : code.constants.toList <+: larger.constants.toList

variable {larger : Bytecode}

/-- The registers that a larger register file has in addition, in a fresh frame. -/
def freshRegisters (larger code : Bytecode) : Array Value :=
  Array.replicate (larger.registerCount - code.registerCount) .undefined

theorem initial_widen (he : larger.Extends code) :
    Machine.initial larger.registerCount =
      (Machine.initial code.registerCount).widen (larger.freshRegisters code) := by
  have hsum : code.registerCount + (larger.registerCount - code.registerCount) =
      larger.registerCount := Nat.add_sub_of_le he.registers
  simp only [Machine.initial, Machine.widen, freshRegisters, Array.replicate_append_replicate, hsum]

/-- A run that returns is also the run of larger bytecode with the same bytes up to the return. -/
theorem run_of_extends (he : larger.Extends code) {frame fresh final : Frame} {value : Value}
    (hcreate : Frame.create code = .ok frame) (hfresh : Frame.create larger = .ok fresh)
    (hrun : frame.run .standard = (.ok value, final))
    (hb : ∀ k ≤ final.cursor, larger.byteAt? k = code.byteAt? k) :
    fresh.run .standard = (.ok value,
      { final with code := larger, registers := final.registers ++ larger.freshRegisters code }) := by
  have ht := DispatchTable.isStandard_standard
  obtain ⟨path, placed, rest, last, hd, hp, hr, hread, rfl⟩ := exists_path_of_run ht hcreate hrun
  obtain rfl := Frame.eq_start_of_create hcreate
  obtain rfl := Frame.eq_start_of_create hfresh
  obtain ⟨more, hmore⟩ := he.constants
  have hpool : larger.constants = code.constants ++ more.toArray := by
    apply Array.toList_inj.mp
    rw [Array.toList_append, hmore]
  have hd' : ∃ rest', larger.decode.instructions = path ++ placed :: rest' := by
    refine decodeAt_congr hd fun k h => hb k ?_
    rw [width_of_return hr] at h
    exact Nat.le_of_lt_succ h
  obtain ⟨rest', hd'⟩ := hd'
  have hp' : Path larger.constants (.initial larger.registerCount) path
      (last.widen (larger.freshRegisters code)) := by
    rw [initial_widen he, hpool]
    exact hp.widen _ _
  have hread' := Machine.read_widen (larger.freshRegisters code) hread
  exact Frame.run_of_path_return (.start larger) ht hp' hd' hr hread'

/-- A run that returns has neither added a register nor taken one away. -/
theorem size_registers_of_run {frame final : Frame} {value : Value}
    (hcreate : Frame.create code = .ok frame) (hrun : frame.run .standard = (.ok value, final)) :
    final.registers.size = code.registerCount := by
  have ht := DispatchTable.isStandard_standard
  obtain ⟨path, placed, rest, last, _, hp, _, _, rfl⟩ := exists_path_of_run ht hcreate hrun
  exact (violations_of_path hp (Machine.size_initial _)).2

theorem instructionViolations_eq_nil_iff {placed : Placed} :
    code.instructionViolations placed = [] ↔
      (∀ r, placed.instruction.register? = some r → r.index.toNat < code.registerCount) ∧
      (∀ index, placed.instruction.constantIndex? = some index → index < code.constants.size) ∧
      (placed.instruction.opcode = .ret → code.registerCount ≠ 0) := by
  simp [instructionViolations, Option.filter_eq_none_iff]

theorem violations_of_extends (he : larger.Extends code) (hv : code.violations = [])
    (hbytes : larger.bytes = code.bytes) (hregisters : larger.registerCount ≤ maxRegisters)
    (hconstants : larger.constants.size ≤ maxConstants) : larger.violations = [] := by
  obtain ⟨_, herror, hoperands, hlast⟩ := violations_eq_nil_iff.mp hv
  have hdecode : larger.decode = code.decode := by rw [decode, decode, hbytes]
  have hsize : code.constants.size ≤ larger.constants.size := by
    simpa using he.constants.length_le
  rw [violations_eq_nil_iff, hdecode]
  refine ⟨⟨hregisters, hconstants⟩, herror, ?_, hlast⟩
  rw [operandViolations, List.flatMap_eq_nil_iff] at hoperands ⊢
  rw [hdecode]
  intro placed hm
  obtain ⟨hr, hc, hret⟩ := instructionViolations_eq_nil_iff.mp (hoperands placed hm)
  have hle := he.registers
  refine instructionViolations_eq_nil_iff.mpr ⟨fun r h => ?_, fun index h => ?_, fun h => ?_⟩
  · exact Nat.lt_of_lt_of_le (hr r h) hle
  · exact Nat.lt_of_lt_of_le (hc index h) hsize
  · have := hret h
    omega

/-- A completed run depends only on what it executed. On larger bytecode with the same bytes as far
as the return, whatever lies behind it, a fresh frame comes to the same frame in the end, but for
the registers that have been added, which nothing has written; only so many registers may be added
that there is a fresh frame. Verification that accepts bytecode also accepts it with more registers
and constants, within the limits. -/
theorem completed_run_of_extends {code larger : Bytecode} (he : larger.Extends code) :
    (∀ frame value final, Frame.create code = .ok frame →
      frame.run .standard = (.ok value, final) →
      (∀ k ≤ final.cursor, larger.byteAt? k = code.byteAt? k) →
      final.registers.size = code.registerCount ∧
        ((registerCapacity < larger.registerCount ∧
            Frame.create larger = .error .registersTooLarge) ∨
          ∃ fresh, Frame.create larger = .ok fresh ∧ fresh.run .standard = (.ok value,
            { final with
              code := larger
              registers := final.registers ++ larger.freshRegisters code }))) ∧
    (code.violations = [] → larger.bytes = code.bytes → larger.registerCount ≤ maxRegisters →
      larger.constants.size ≤ maxConstants → larger.violations = []) := by
  refine ⟨fun frame value final hcreate hrun hb => ?_, violations_of_extends he⟩
  have hsize := size_registers_of_run hcreate hrun
  refine ⟨hsize, (Frame.create_cases larger).imp_right fun hfresh => ?_⟩
  exact ⟨_, hfresh, run_of_extends he hcreate hfresh hrun hb⟩

/-- `LdaZero; Star r0; Return`, with a byte behind it that is no instruction, and with two registers
and a constant that it does not use. -/
theorem completed_run_of_extends_unused :
    let code : Bytecode := ⟨#[0, 9, 0, 14], 1, #[]⟩
    let larger : Bytecode := ⟨#[0, 9, 0, 14, 200], 3, #[.null]⟩
    (∃ fresh last, Frame.create larger = .ok fresh ∧
        fresh.run .standard = (.ok (.small 0), last) ∧ last.cursor = 3 ∧ last.stats = ⟨2, 1⟩ ∧
        last.registers = #[.small 0, .undefined, .undefined]) ∧
      code.violations = [] ∧ (⟨#[0, 9, 0, 14], 3, #[.null]⟩ : Bytecode).violations = [] := by
  intro code larger
  have hv : code.violations = [] := by decide
  have he : larger.Extends code := ⟨by decide, List.nil_prefix⟩
  have he' : Extends ⟨#[0, 9, 0, 14], 3, #[.null]⟩ code := ⟨by decide, List.nil_prefix⟩
  have hb : ∀ k ≤ 3, larger.byteAt? k = code.byteAt? k := by decide
  obtain ⟨frame, m, value, path, final, hcreate, hm, hread, hd, hc, hrun⟩ :=
    run_of_nil hv DispatchTable.isStandard_standard
  have hevaluation : code.evaluation = .ok ⟨.small 0, #[.small 0]⟩ := rfl
  obtain rfl := Except.ok.inj (hevaluation.symm.trans hm)
  obtain rfl := Except.ok.inj hread
  have hoffset : final.offset = 3 := Nat.succ.inj hc
  have hthree : code.decode.instructions.length = 3 := rfl
  have hlength : path.length = 2 := by
    rw [hd, List.length_append, List.length_singleton] at hthree
    exact Nat.succ.inj hthree
  obtain ⟨_, hlarger⟩ := (completed_run_of_extends he).1 _ _ _ hcreate hrun
    fun k hk => hb k (hoffset ▸ hk)
  obtain rfl := Frame.eq_start_of_create hcreate
  have hfits : ¬registerCapacity < larger.registerCount := by decide
  obtain ⟨fresh, hfresh, hsame⟩ := hlarger.resolve_left fun hlarge => hfits hlarge.1
  refine ⟨⟨fresh, _, hfresh, hsame, hoffset, ?_, rfl⟩, hv, ?_⟩
  · simp [Frame.exit, Frame.arrive, Frame.start, Frame.withMachine, hlength]
  · exact (completed_run_of_extends he').2 hv rfl (by decide) (by decide)

end Bytecode

end RegisterMachine
