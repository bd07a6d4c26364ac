import RegisterMachine.Proofs.Dispatch.Building
import RegisterMachine.Proofs.Execution.Turn

/-!
# Tables built by the direct emitter

The direct emitter finishes every contract as it stands, so a table that it has built holds the
standard handlers, whatever the budget of the emitter and whatever it has emitted before.
-/

namespace RegisterMachine

namespace Emitter

theorem direct_emit {opcode : Opcode} {space after : CodeSpace} {unit : CodeUnit}
    (h : Emitter.direct.emit opcode (.of opcode) space = (.ok unit, after)) :
    unit = .standard opcode := by
  simp only [direct, Contract.of, ne_eq, not_true_eq_false, if_false] at h
  split at h
  · cases h
  · cases h
    rfl

theorem direct_emit_of_room (opcode : Opcode) {space : CodeSpace} (h : space.exhausted? = none) :
    Emitter.direct.emit opcode (.of opcode) space =
      (.ok (.standard opcode), { space with emitted := space.emitted + 1 }) := by
  simp only [direct, Contract.of, ne_eq, not_true_eq_false, if_false, h]
  rfl

theorem direct_stage {opcodes : List Opcode} {space after : CodeSpace} {units : List CodeUnit}
    {layout : List UInt8}
    (h : Emitter.direct.stage opcodes space = (.ok (units, layout), after)) :
    units = opcodes.map .standard := by
  induction opcodes generalizing space units layout with
  | nil => cases h; rfl
  | cons opcode rest ih =>
    obtain ⟨unit, middle, units', layout', he, _, hs, rfl⟩ := exists_of_stage_cons h
    rw [List.map_cons, ih hs, direct_emit he]

theorem direct_stage_unlimited (opcodes : List Opcode) {space : CodeSpace}
    (h : space.capacity? = none) :
    ∃ layout after, Emitter.direct.stage opcodes space =
      (.ok (opcodes.map .standard, layout), after) := by
  induction opcodes generalizing space with
  | nil => exact ⟨[], space, rfl⟩
  | cons opcode rest ih =>
    let next : CodeSpace := { space with emitted := space.emitted + 1 }
    obtain ⟨layout, after, hs⟩ := @ih next h
    have he : space.exhausted? = none := by rw [CodeSpace.exhausted?, h]; rfl
    exact ⟨(Contract.of opcode).layout ++ layout, after,
      stage_of_supplied (direct_emit_of_room opcode he) rfl hs⟩

end Emitter

namespace DispatchTable

theorem isStandard_commit (table : DispatchTable) (fingerprint : Digest.ChainingValue) :
    (table.commit (Opcode.all.map .standard) fingerprint).IsStandard := by
  intro opcode
  rcases slots_foldl_write (Opcode.all.map .standard) table opcode with ⟨unit, hm, hl, hs⟩ | ⟨hn, _⟩
  · obtain ⟨other, _, rfl⟩ := List.mem_map.mp hm
    obtain rfl : other = opcode := hl
    simp only [lookup, get?, commit, if_true, hs]
  · exact absurd rfl (hn (.standard opcode) (List.mem_map_of_mem opcode.mem_all))

end DispatchTable

theorem DispatchTable.isStandard_of_built {builder after : TableBuilder CodeSpace}
    {table : DispatchTable} {handlers : Nat} (he : builder.emitter = .direct)
    (hb : builder.ensureBuilt .empty = (.ok (.built handlers), after, table)) :
    table.IsStandard := by
  have hbuilt := builder.ensures .empty
  rw [hb] at hbuilt
  cases hbuilt with
  | built _ _ hs =>
    rw [he] at hs
    obtain rfl := Emitter.direct_stage hs
    exact isStandard_commit _ _

theorem TableBuilder.ensureBuilt_unlimited :
    ∃ after,
      (TableBuilder.direct none).ensureBuilt .empty = (.ok (.built 15), after, .standard) := by
  obtain ⟨layout, after, hs⟩ :=
    @Emitter.direct_stage_unlimited Opcode.all { capacity? := none } rfl
  have hb := (TableBuilder.direct none).ensureBuilt_of_stage_ok hs
  rw [DispatchTable.standard, hb]
  exact ⟨_, rfl⟩

theorem DispatchTable.isStandard_standard : DispatchTable.standard.IsStandard := by
  obtain ⟨after, hb⟩ := TableBuilder.ensureBuilt_unlimited
  exact isStandard_of_built rfl hb

theorem DispatchTable.built_standard : DispatchTable.standard.built = true := by
  obtain ⟨answer, next, table, hr, _, ⟨_, hbuilt⟩ | ⟨e, he, _⟩⟩ :=
    (TableBuilder.direct none).ensureBuilt_empty
  · rw [DispatchTable.standard, hr]
    exact hbuilt
  · obtain ⟨after, hb⟩ := TableBuilder.ensureBuilt_unlimited
    rw [hb, he] at hr
    cases hr

end RegisterMachine
