import RegisterMachine.Proofs.Bytecode.Fetch

/-!
# Encoding and decoding

Instructions that are laid out without gaps decode as themselves, and what has been decoded is laid
out without gaps. Decoding ends where the last instruction ends, and an error says what lies there.
-/

namespace RegisterMachine

theorem Opcode.ofByte?_eq_none_iff {byte : UInt8} : ofByte? byte = none ↔ 15 ≤ byte.toNat :=
  List.getElem?_eq_none_iff

def placeFrom : Nat → List Instruction → List Placed
  | _, [] => []
  | offset, i :: rest => ⟨offset, i⟩ :: placeFrom (offset + i.width) rest

@[simp] theorem map_instruction_placeFrom (offset : Nat) (instructions : List Instruction) :
    (placeFrom offset instructions).map (·.instruction) = instructions := by
  induction instructions generalizing offset with
  | nil => rfl
  | cons i rest ih => rw [placeFrom, List.map_cons, ih]

/-- An encoded instruction is decoded first. -/
theorem decodeFrom_toBytes_append (offset : Nat) (i : Instruction) (rest : List UInt8) :
    decodeFrom offset (i.toBytes ++ rest) =
      (decodeFrom (offset + i.width) rest).cons ⟨offset, i⟩ := by
  obtain ⟨opcode, operand?, hi⟩ := i
  cases operand? with
  | none =>
    have hk : opcode.operandKind? = none := hi.symm
    simp only [Instruction.toBytes, Option.toList_none, List.map_nil, List.cons_append,
      List.nil_append, decodeFrom, Opcode.ofByte?_toByte, Instruction.width,
      Opcode.width_of_none hk]
    split
    · rfl
    · next h => rw [hk] at h; cases h
  | some operand =>
    have hk : opcode.operandKind? = some operand.kind := hi.symm
    simp only [Instruction.toBytes, Option.toList_some, List.map_cons, List.map_nil,
      List.cons_append, List.nil_append, decodeFrom, Opcode.ofByte?_toByte, Instruction.width,
      Opcode.width_of_some hk]
    split
    · next h => rw [hk] at h; cases h
    · next kind h =>
      obtain rfl := Option.some.inj (hk.symm.trans h)
      simp only [Instruction.ofOperandByte, Operand.ofByte_toByte]

theorem decodeFrom_flatMap_toBytes (offset : Nat) (instructions : List Instruction) :
    decodeFrom offset (instructions.flatMap Instruction.toBytes) =
      ⟨placeFrom offset instructions, none⟩ := by
  induction instructions generalizing offset with
  | nil => rfl
  | cons i rest ih =>
    rw [List.flatMap_cons, decodeFrom_toBytes_append, ih]
    rfl

namespace Bytecode

variable {code : Bytecode} {offset : Nat}

theorem decode_of_bytes {instructions : List Instruction}
    (h : code.bytes.toList = instructions.flatMap Instruction.toBytes) :
    code.decode = ⟨placeFrom 0 instructions, none⟩ := by
  rw [decode, h, decodeFrom_flatMap_toBytes]

theorem instructions_decodeAt (code : Bytecode) (offset : Nat) :
    (code.decodeAt offset).instructions =
      placeFrom offset ((code.decodeAt offset).instructions.map (·.instruction)) := by
  generalize hl : (code.decodeAt offset).instructions = l
  induction l generalizing offset with
  | nil => rfl
  | cons head tail ih =>
    obtain ⟨hc, _, hrest, _⟩ := fetch_of_decodeAt hl
    rw [List.map_cons, placeFrom, ← ih _ hrest, ← hc]

/-- What a cursor meets where decoding stops: the error, if there is one, or the end. -/
theorem fetch_stopOf (h : offset ≤ code.size) :
    code.fetch (code.stopOf (code.decodeAt offset)) =
      (code.decodeAt offset).error?.map .error := by
  generalize hl : (code.decodeAt offset).instructions = l
  induction l generalizing offset with
  | nil =>
    rw [stopOf]
    rcases fetch_of_decodeAt_nil hl with ⟨hf, hn, hsize⟩ | ⟨e, hf, hn, ho⟩
    · rw [hn, Option.elim_none, ← Nat.le_antisymm h hsize, hf]
      rfl
    · rw [hn, Option.elim_some, ho, hf]
      rfl
  | cons head tail ih =>
    obtain ⟨_, hf, hrest, he⟩ := fetch_of_decodeAt hl
    rw [stopOf_decodeAt hf, ih (width_le_of_fetch hf) hrest, he]

theorem fetch_length (code : Bytecode) :
    code.fetch code.decode.length = code.decode.error?.map .error := by
  rw [length_eq_stopOf]
  exact fetch_stopOf (Nat.zero_le _)

/-- The decoded instructions encode as the stream up to where they end. -/
theorem flatMap_toBytes_decode (code : Bytecode) :
    code.decode.instructions.flatMap (·.instruction.toBytes) =
      code.bytes.toList.take code.decode.length := by
  have h : code.decode.instructions.flatMap (·.instruction.toBytes) ++
      code.bytes.toList.drop code.decode.length =
        code.bytes.toList.take code.decode.length ++ code.bytes.toList.drop code.decode.length := by
    rw [List.take_append_drop, length_eq_stopOf]
    exact code.flatMap_toBytes_decodeAt 0
  exact List.append_cancel_right h

theorem fetch_size (code : Bytecode) : code.fetch code.size = none := by
  have hb : code.byteAt? code.size = none := Array.getElem?_eq_none_iff.mpr (Nat.le_refl _)
  rw [fetch, hb]
  rfl

theorem fetch_eq_invalid_iff {place : Nat} {byte : UInt8} :
    code.fetch offset = some (.error (.invalidOpcode place byte)) ↔
      place = offset ∧ code.byteAt? offset = some byte ∧ 15 ≤ byte.toNat := by
  constructor
  · intro h
    have hf := code.fetches offset
    rw [h] at hf
    cases hf with
    | invalid hb ho => exact ⟨rfl, hb, Opcode.ofByte?_eq_none_iff.mp ho⟩
  · rintro ⟨rfl, hb, hbyte⟩
    simp only [fetch, hb, Option.map_some, Opcode.ofByte?_eq_none_iff.mpr hbyte]

theorem fetch_eq_truncated_iff {place : Nat} {opcode : Opcode} :
    code.fetch offset = some (.error (.truncatedOperand place opcode)) ↔
      place = offset ∧ code.byteAt? offset = some opcode.toByte ∧
        code.size < offset + opcode.width := by
  have hf := code.fetches offset
  constructor
  · intro h
    rw [h] at hf
    cases hf with
    | truncated hb ho hk ha =>
      have hend : code.size ≤ offset + 1 := Array.getElem?_eq_none_iff.mp ha
      rw [Opcode.width_of_some hk, toByte_of_ofByte? ho]
      exact ⟨rfl, hb, Nat.lt_succ_of_le hend⟩
  · rintro ⟨rfl, hopcode, hend⟩
    have hlt := lt_size_of_byteAt? hopcode
    have ho := opcode.ofByte?_toByte
    revert hf
    generalize code.fetch place = fetched
    intro hf
    cases hf with
    | pastEnd hb => rw [hb] at hopcode; cases hopcode
    | invalid hb hn =>
      obtain rfl := Option.some.inj (hb.symm.trans hopcode)
      rw [hn] at ho
      cases ho
    | truncated hb hs hk ha =>
      obtain rfl := Option.some.inj (hb.symm.trans hopcode)
      obtain rfl := Option.some.inj (hs.symm.trans ho)
      rfl
    | bare hb hs hk =>
      obtain rfl := Option.some.inj (hb.symm.trans hopcode)
      obtain rfl := Option.some.inj (hs.symm.trans ho)
      rw [Opcode.width_of_none hk] at hend
      omega
    | operand hb hs hk ha =>
      obtain rfl := Option.some.inj (hb.symm.trans hopcode)
      obtain rfl := Option.some.inj (hs.symm.trans ho)
      have := lt_size_of_byteAt? ha
      rw [Opcode.width_of_some hk] at hend
      omega

theorem error_iff_fetch {e : DecodeError} :
    code.decode.error? = some e ↔ code.fetch code.decode.length = some (.error e) := by
  rw [fetch_length]
  cases code.decode.error? with
  | none => exact ⟨nofun, nofun⟩
  | some e' => simp

end Bytecode

end RegisterMachine
