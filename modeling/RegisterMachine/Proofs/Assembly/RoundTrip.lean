import RegisterMachine.Proofs.Assembly.Drafting
import RegisterMachine.Proofs.Assembly.Line
import RegisterMachine.Proofs.Bytecode.Fetch

/-!
# Assembling a listing

The listing of any bytecode, whether its stream decodes or not, is a program. Assembling it gives
the bytecode back, up to the payload and the sign of NaNs, unless the bytecode exceeds a limit of
the encoding; then the limit is reported, that of the constant pool first.
-/

namespace RegisterMachine.Bytecode

open Assembly

def undecoded (code : Bytecode) : List UInt8 := code.bytes.toList.drop code.decode.length

def listed (code : Bytecode) : List Statement :=
  code.constants.toList.map (fun value => .constant value.mergeNaN) ++
    code.decode.instructions.map (fun placed => .instruction placed.instruction) ++
    code.decode.error?.toList.map fun _ => .bytes code.undecoded

theorem undecoded_ne_nil {code : Bytecode} {e : DecodeError} (h : code.decode.error? = some e) :
    code.undecoded ≠ [] := by
  rw [undecoded, length_decode h, ne_eq, List.drop_eq_nil_iff, Array.length_toList, Nat.not_le]
  exact offset_lt_size h

/-- The decoded instructions and the bytes after them encode as the stream. -/
theorem flatMap_encoding_listed (code : Bytecode) :
    code.listed.flatMap Statement.encoding = code.bytes.toList := by
  have hconstants : (code.constants.toList.map fun value =>
      Statement.constant value.mergeNaN).flatMap Statement.encoding = [] := by
    rw [List.flatMap_map, List.flatMap_eq_nil_iff]
    exact fun _ _ => rfl
  -- Raw bytes begin where decoding stopped; a stream that decodes to its end leaves none.
  have hrest : (code.decode.error?.toList.map fun _ =>
      Statement.bytes code.undecoded).flatMap Statement.encoding =
        code.bytes.toList.drop (code.stopOf code.decode) := by
    cases he : code.decode.error? with
    | none =>
      rw [stopOf, he, Option.elim_none, List.drop_eq_nil_iff.mpr (by simp [size])]
      rfl
    | some e =>
      rw [stopOf, he, Option.elim_some, ← length_decode he]
      exact List.append_nil _
  have hinstructions : (code.decode.instructions.map fun placed =>
      Statement.instruction placed.instruction).flatMap Statement.encoding =
        code.decode.instructions.flatMap (·.instruction.toBytes) := by
    rw [List.flatMap_map]
    rfl
  rw [listed, List.flatMap_append, List.flatMap_append, hconstants, hrest, hinstructions]
  exact flatMap_toBytes_decodeAt code 0

theorem filterMap_constant_listed (code : Bytecode) :
    code.listed.filterMap Statement.constant? = code.constants.toList.map Value.mergeNaN := by
  have hconstants : (code.constants.toList.map fun value =>
      Statement.constant value.mergeNaN).filterMap Statement.constant? =
        code.constants.toList.map Value.mergeNaN := by
    rw [List.filterMap_map, ← List.filterMap_eq_map]
    rfl
  have hinstructions : (code.decode.instructions.map fun placed =>
      Statement.instruction placed.instruction).filterMap Statement.constant? = [] := by
    rw [List.filterMap_eq_nil_iff, List.forall_mem_map]
    exact fun _ _ => rfl
  have hrest : (code.decode.error?.toList.map fun _ =>
      Statement.bytes code.undecoded).filterMap Statement.constant? = [] := by
    rw [List.filterMap_eq_nil_iff, List.forall_mem_map]
    exact fun _ _ => rfl
  rw [listed, List.filterMap_append, List.filterMap_append, hconstants, hinstructions, hrest,
    List.append_nil, List.append_nil]

theorem isRegisters_listed {code : Bytecode} {statement : Statement}
    (h : statement ∈ code.listed) : statement.isRegisters = false := by
  simp only [listed, List.mem_append, List.mem_map] at h
  rcases h with (⟨value, _, rfl⟩ | ⟨placed, _, rfl⟩) | ⟨e, _, rfl⟩
  · rfl
  · rfl
  · rfl

theorem statements_listing {code : Bytecode} (h : code.registerCount < registerCountLimit) :
    statements code.listing = .ok (.registers code.registerCount :: code.listed) := by
  have hconstants : ReadAll (code.constants.toList.map (".constant " ++ ·.literal))
      (code.constants.toList.map fun value => .constant value.mergeNaN) :=
    ReadAll.map fun value _ => Statement.reads_constant value
  have hinstructions : ReadAll (code.decode.instructions.map (·.instruction.text))
      (code.decode.instructions.map fun placed => .instruction placed.instruction) :=
    ReadAll.map fun placed _ => Statement.reads_instruction placed.instruction
  have hrest : ReadAll code.undecodedLine?.toList
      (code.decode.error?.toList.map fun _ => .bytes code.undecoded) := by
    rw [undecodedLine?, Option.toList_map]
    refine ReadAll.map fun e he => Statement.reads_bytes ?_
    exact undecoded_ne_nil (Option.mem_toList.mp he)
  exact ReadAll.statements (Statement.reads_registers h)
    ((hconstants.append hinstructions).append hrest) fun _ => isRegisters_listed

/-- What the listing drafts: raw bytes use no registers, but the count has been declared. -/
theorem draftOf_listed (code : Bytecode) :
    (draftOf (.registers code.registerCount :: code.listed)).bytes = code.bytes ∧
      (draftOf (.registers code.registerCount :: code.listed)).constants =
        code.constants.map Value.mergeNaN ∧
      (draftOf (.registers code.registerCount :: code.listed)).registerCount =
        code.registerCount := by
  have hdraft : draftOf (.registers code.registerCount :: code.listed) =
      code.listed.foldl Statement.addTo (Draft.empty.declareRegisters code.registerCount) := rfl
  rw [hdraft]
  refine ⟨Array.ext' ?_, Array.ext' ?_, ?_⟩
  · rw [bytes_foldl, flatMap_encoding_listed]
    exact List.nil_append _
  · rw [constants_foldl, filterMap_constant_listed, Array.toList_map]
    exact List.nil_append _
  · rw [Draft.registerCount, declared_foldl _ fun _ => isRegisters_listed]
    rfl

/-- Assembling the listing of a bytecode. A register count is a word of 64 bits. -/
theorem assemble_listing (code : Bytecode) (h : code.registerCount < registerCountLimit) :
    assemble code.listing =
      if code.constants.size > maxConstants then .error (.encode (.constantPoolFull maxConstants))
      else if code.registerCount > maxRegisters then
        .error (.encode (.tooManyRegisters code.registerCount maxRegisters))
      else .ok { code with constants := code.constants.map Value.mergeNaN } := by
  obtain ⟨hbytes, hconstants, hcount⟩ := draftOf_listed code
  have hassemble : assemble code.listing =
      (draftOf (.registers code.registerCount :: code.listed)).finish.mapError .encode := by
    rw [assemble, statements_listing h]
    rfl
  rw [hassemble, Draft.finish, hbytes, hconstants, hcount, Array.size_map]
  by_cases hpool : code.constants.size > maxConstants
  · rw [if_pos hpool, if_pos hpool]
    rfl
  · rw [if_neg hpool, if_neg hpool]
    by_cases hregisters : code.registerCount > maxRegisters
    · rw [if_pos hregisters, if_pos hregisters]
      rfl
    · rw [if_neg hregisters, if_neg hregisters]
      rfl

/-- A pool with a signed NaN, the negative zero and the least positive double, and a stream that
does not decode past its first byte. -/
def undecodable : Bytecode where
  bytes := #[0, 0xFE, 9]
  registerCount := 7
  constants := #[.number ⟨true, ⟨2 ^ 63 - 1, by decide⟩⟩, .number (.zero true),
    .number ⟨false, ⟨1, by decide⟩⟩, .small (-5)]

theorem assemble_listing_undecodable :
    undecodable.registerCount < registerCountLimit ∧
      assemble undecodable.listing =
        .ok { undecodable with
          constants := #[.number .nan, .number (.zero true), .number ⟨false, ⟨1, by decide⟩⟩,
            .small (-5)] } := by
  have hcount : undecodable.registerCount < registerCountLimit := by decide
  have hconstants : undecodable.constants.map Value.mergeNaN =
      #[.number .nan, .number (.zero true), .number ⟨false, ⟨1, by decide⟩⟩, .small (-5)] := by
    refine Array.ext' ?_
    rw [Array.toList_map]
    rfl
  refine ⟨hcount, ?_⟩
  rw [assemble_listing undecodable hcount, if_neg (by decide), if_neg (by decide), hconstants]

end RegisterMachine.Bytecode
