import RegisterMachine.Bytecode.Basic

/-!
# Decoding one instruction at a time

`Bytecode.fetch` reads what lies at one offset, as a cursor does. Decoding from an offset is
fetching there and decoding from where the instruction ends (`decodeAt_eq`), so statements on a
decoding and on a cursor meet at the offsets that decoding visits. What has been decoded encodes as
the bytes up to where decoding stops (`flatMap_toBytes_decodeAt`).
-/

namespace RegisterMachine.Bytecode

/-- What lies at an offset: nothing past the end of the stream, else an instruction or the error
that there is none. -/
def fetch (code : Bytecode) (offset : Nat) : Option (Except DecodeError Instruction) :=
  (code.byteAt? offset).map fun byte =>
    match Opcode.ofByte? byte with
    | none => .error (.invalidOpcode offset byte)
    | some opcode =>
      match h : opcode.operandKind? with
      | none => .ok (.bare opcode h)
      | some kind =>
        match code.byteAt? (offset + 1) with
        | none => .error (.truncatedOperand offset opcode)
        | some argument => .ok (.ofOperandByte opcode kind h argument)

def decodeAt (code : Bytecode) (offset : Nat) : Decoding :=
  decodeFrom offset (code.bytes.toList.drop offset)

variable {code : Bytecode} {offset : Nat}

theorem decode_eq_decodeAt (code : Bytecode) : code.decode = code.decodeAt 0 := rfl

theorem lt_size_of_byteAt? {byte : UInt8} (h : code.byteAt? offset = some byte) :
    offset < code.size := (Array.getElem?_eq_some_iff.mp h).1

theorem drop_eq_cons {byte : UInt8} (h : code.byteAt? offset = some byte) :
    code.bytes.toList.drop offset = byte :: code.bytes.toList.drop (offset + 1) := by
  obtain ⟨hlt, hb⟩ := Array.getElem?_eq_some_iff.mp h
  rw [List.drop_eq_getElem_cons (by simpa using hlt), Array.getElem_toList, hb]

theorem drop_eq_nil (h : code.byteAt? offset = none) : code.bytes.toList.drop offset = [] := by
  rw [List.drop_eq_nil_iff, Array.length_toList]
  exact Array.getElem?_eq_none_iff.mp h

/-- The five things a cursor can meet, with what the stream holds there. -/
inductive Fetches (code : Bytecode) (offset : Nat) : Option (Except DecodeError Instruction) → Prop
  | pastEnd (hb : code.byteAt? offset = none) : Fetches code offset none
  | invalid {byte : UInt8} (hb : code.byteAt? offset = some byte)
      (ho : Opcode.ofByte? byte = none) :
      Fetches code offset (some (.error (.invalidOpcode offset byte)))
  | truncated {byte : UInt8} {opcode : Opcode} {kind : OperandKind}
      (hb : code.byteAt? offset = some byte) (ho : Opcode.ofByte? byte = some opcode)
      (hk : opcode.operandKind? = some kind) (ha : code.byteAt? (offset + 1) = none) :
      Fetches code offset (some (.error (.truncatedOperand offset opcode)))
  | bare {byte : UInt8} {opcode : Opcode} (hb : code.byteAt? offset = some byte)
      (ho : Opcode.ofByte? byte = some opcode) (hk : opcode.operandKind? = none) :
      Fetches code offset (some (.ok (.bare opcode hk)))
  | operand {byte argument : UInt8} {opcode : Opcode} {kind : OperandKind}
      (hb : code.byteAt? offset = some byte) (ho : Opcode.ofByte? byte = some opcode)
      (hk : opcode.operandKind? = some kind) (ha : code.byteAt? (offset + 1) = some argument) :
      Fetches code offset (some (.ok (.ofOperandByte opcode kind hk argument)))

theorem fetches (code : Bytecode) (offset : Nat) : Fetches code offset (code.fetch offset) := by
  unfold fetch
  cases hb : code.byteAt? offset with
  | none => exact .pastEnd hb
  | some byte =>
    simp only [Option.map_some]
    cases ho : Opcode.ofByte? byte with
    | none => exact .invalid hb ho
    | some opcode =>
      dsimp only
      split
      · next hk => exact .bare hb ho hk
      · next kind hk =>
        cases ha : code.byteAt? (offset + 1) with
        | none => exact .truncated hb ho hk ha
        | some argument => exact .operand hb ho hk ha

theorem width_bare {opcode : Opcode} (hk : opcode.operandKind? = none) :
    (Instruction.bare opcode hk).width = 1 := Opcode.width_of_none hk

theorem width_ofOperandByte {opcode : Opcode} {kind : OperandKind}
    (hk : opcode.operandKind? = some kind) (argument : UInt8) :
    (Instruction.ofOperandByte opcode kind hk argument).width = 2 := Opcode.width_of_some hk

theorem decodeAt_eq (code : Bytecode) (offset : Nat) :
    code.decodeAt offset = match code.fetch offset with
      | none => ⟨[], none⟩
      | some (.error e) => ⟨[], some e⟩
      | some (.ok i) => (code.decodeAt (offset + i.width)).cons ⟨offset, i⟩ := by
  have hf := code.fetches offset
  revert hf
  generalize code.fetch offset = fetched
  intro hf
  unfold decodeAt
  cases hf with
  | pastEnd hb => rw [drop_eq_nil hb, decodeFrom]
  | invalid hb ho => simp only [drop_eq_cons hb, decodeFrom, ho]
  | truncated hb ho hk ha =>
    simp only [drop_eq_cons hb, drop_eq_nil ha, decodeFrom, ho]
    split
    · next h => rw [hk] at h; cases h
    · rfl
  | bare hb ho hk =>
    simp only [width_bare, drop_eq_cons hb, decodeFrom, ho]
    split
    · rfl
    · next h => rw [hk] at h; cases h
  | operand hb ho hk ha =>
    simp only [width_ofOperandByte, drop_eq_cons hb, drop_eq_cons ha, decodeFrom, ho]
    split
    · next h => rw [hk] at h; cases h
    · next kind h =>
      obtain rfl := Option.some.inj (h.symm.trans hk)
      rfl

theorem bytes_of_fetch {i : Instruction} (h : code.fetch offset = some (.ok i)) :
    (∃ byte, code.byteAt? offset = some byte ∧ Opcode.ofByte? byte = some i.opcode) ∧
      ∀ operand, i.operand? = some operand → code.byteAt? (offset + 1) = some operand.toByte := by
  have hf := code.fetches offset
  rw [h] at hf
  cases hf with
  | bare hb ho hk => exact ⟨⟨_, hb, ho⟩, fun _ ho => by cases ho⟩
  | operand hb ho hk ha =>
    refine ⟨⟨_, hb, ho⟩, fun operand he => ?_⟩
    obtain rfl := Option.some.inj he
    rw [ha, Operand.toByte_ofByte]

theorem width_le_of_fetch {i : Instruction} (h : code.fetch offset = some (.ok i)) :
    offset + i.width ≤ code.size := by
  have hf := code.fetches offset
  rw [h] at hf
  cases hf with
  | bare hb ho hk =>
    have := lt_size_of_byteAt? hb
    rw [width_bare]
    omega
  | operand hb ho hk ha =>
    have := lt_size_of_byteAt? ha
    rw [width_ofOperandByte]
    omega

theorem decodeAt_of_fetch {i : Instruction} (h : code.fetch offset = some (.ok i)) :
    code.decodeAt offset = (code.decodeAt (offset + i.width)).cons ⟨offset, i⟩ := by
  rw [decodeAt_eq, h]

/-- A decoding that begins with an instruction has been fetched where it begins. -/
theorem fetch_of_decodeAt {placed : Placed} {rest : List Placed}
    (h : (code.decodeAt offset).instructions = placed :: rest) :
    placed.offset = offset ∧ code.fetch offset = some (.ok placed.instruction) ∧
      (code.decodeAt (offset + placed.instruction.width)).instructions = rest ∧
      (code.decodeAt (offset + placed.instruction.width)).error? =
        (code.decodeAt offset).error? := by
  cases hf : code.fetch offset with
  | none => rw [decodeAt_eq, hf] at h; cases h
  | some fetched =>
    cases fetched with
    | error e => rw [decodeAt_eq, hf] at h; cases h
    | ok i =>
      have hd := decodeAt_of_fetch hf
      rw [hd] at h ⊢
      obtain ⟨rfl, rfl⟩ := List.cons.inj h
      exact ⟨rfl, rfl, rfl, rfl⟩

/-- A decoding without instructions has come to the end of the stream or to an error. -/
theorem fetch_of_decodeAt_nil (h : (code.decodeAt offset).instructions = []) :
    code.fetch offset = none ∧ (code.decodeAt offset).error? = none ∧ code.size ≤ offset ∨
      ∃ e, code.fetch offset = some (.error e) ∧ (code.decodeAt offset).error? = some e ∧
        e.offset = offset := by
  have hf := code.fetches offset
  have hd := decodeAt_eq code offset
  revert hf hd
  generalize code.fetch offset = fetched
  intro hf hd
  cases hf with
  | pastEnd hb => exact Or.inl ⟨rfl, by rw [hd], Array.getElem?_eq_none_iff.mp hb⟩
  | invalid hb ho => exact Or.inr ⟨_, rfl, by rw [hd], rfl⟩
  | truncated hb ho hk ha => exact Or.inr ⟨_, rfl, by rw [hd], rfl⟩
  | bare hb ho hk => rw [hd] at h; cases h
  | operand hb ho hk ha => rw [hd] at h; cases h

def stopOf (code : Bytecode) (decoding : Decoding) : Nat :=
  decoding.error?.elim code.size DecodeError.offset

theorem stopOf_decodeAt {i : Instruction} (h : code.fetch offset = some (.ok i)) :
    code.stopOf (code.decodeAt offset) = code.stopOf (code.decodeAt (offset + i.width)) := by
  rw [decodeAt_of_fetch h]
  rfl

theorem le_stopOf (h : offset ≤ code.size) : offset ≤ code.stopOf (code.decodeAt offset) := by
  generalize hl : (code.decodeAt offset).instructions = l
  induction l generalizing offset with
  | nil =>
    rcases fetch_of_decodeAt_nil hl with ⟨_, hn, _⟩ | ⟨e, _, hn, ho⟩
    · rw [stopOf, hn]
      exact h
    · rw [stopOf, hn]
      exact Nat.le_of_eq ho.symm
  | cons head tail ih =>
    obtain ⟨_, hf, hrest, _⟩ := fetch_of_decodeAt hl
    have := ih (width_le_of_fetch hf) hrest
    rw [stopOf_decodeAt hf]
    omega

/-- Decoded instructions lie between the first offset and the one where decoding stops. -/
theorem offset_bounds {placed : Placed} (h : placed ∈ (code.decodeAt offset).instructions) :
    offset ≤ placed.offset ∧
      placed.offset + placed.instruction.width ≤ code.stopOf (code.decodeAt offset) := by
  generalize hl : (code.decodeAt offset).instructions = l at h
  induction l generalizing offset with
  | nil => cases h
  | cons head tail ih =>
    obtain ⟨hc, hf, hrest, _⟩ := fetch_of_decodeAt hl
    rw [stopOf_decodeAt hf]
    rcases List.mem_cons.mp h with rfl | h
    · have := le_stopOf (width_le_of_fetch hf)
      omega
    · have := ih hrest h
      omega

theorem pairwise_offset (code : Bytecode) (offset : Nat) :
    (code.decodeAt offset).instructions.Pairwise
      fun a b => a.offset + a.instruction.width ≤ b.offset := by
  generalize hl : (code.decodeAt offset).instructions = l
  induction l generalizing offset with
  | nil => exact .nil
  | cons head tail ih =>
    obtain ⟨hc, _, hrest, _⟩ := fetch_of_decodeAt hl
    refine List.pairwise_cons.mpr ⟨fun placed hp => ?_, ih _ hrest⟩
    have := (offset_bounds (hrest ▸ hp)).1
    omega

/-- In a decoded stream an instruction ends before those after it begin. -/
theorem end_le_offset {path rest : List Placed} {placed next : Placed}
    (hd : code.decode.instructions = path ++ placed :: rest) (h : next ∈ rest) :
    placed.offset + placed.instruction.width ≤ next.offset := by
  have hs := code.pairwise_offset 0
  rw [← decode_eq_decodeAt, hd] at hs
  exact (List.pairwise_cons.mp (List.pairwise_append.mp hs).2.1).1 next h

theorem offset_lt_stopOf {placed : Placed} (h : placed ∈ code.decode.instructions) :
    placed.offset < code.stopOf code.decode := by
  have hend := (@offset_bounds code 0 placed h).2
  have hw : 0 < placed.instruction.width := placed.instruction.opcode.width_pos
  rw [decode_eq_decodeAt]
  omega

/-- Decoding stops where the last decoded instruction ends. -/
theorem stopOf_of_append {path : List Placed} {final : Placed}
    (h : (code.decodeAt offset).instructions = path ++ [final]) :
    final.offset + final.instruction.width = code.stopOf (code.decodeAt offset) := by
  induction path generalizing offset with
  | nil =>
    obtain ⟨hc, hf, hrest, _⟩ := fetch_of_decodeAt h
    have hle := width_le_of_fetch hf
    rw [stopOf_decodeAt hf, hc, stopOf]
    rcases fetch_of_decodeAt_nil hrest with ⟨_, hn, hge⟩ | ⟨e, _, hn, ho⟩
    · rw [hn]
      exact Nat.le_antisymm hle hge
    · rw [hn]
      exact ho.symm
  | cons head tail ih =>
    obtain ⟨_, hf, hrest, _⟩ := fetch_of_decodeAt h
    rw [stopOf_decodeAt hf]
    exact ih hrest

/-- A stream that does not decode to its end is longer than what decodes. -/
theorem offset_lt_size {e : DecodeError} (h : (code.decodeAt offset).error? = some e) :
    e.offset < code.size := by
  generalize hl : (code.decodeAt offset).instructions = l
  induction l generalizing offset with
  | nil =>
    rcases fetch_of_decodeAt_nil hl with ⟨_, hn, _⟩ | ⟨e', hf, hn, ho⟩
    · rw [hn] at h; cases h
    · rw [hn] at h
      obtain rfl := Option.some.inj h
      have hc := code.fetches offset
      rw [hf] at hc
      cases hc with
      | invalid hb _ => exact lt_size_of_byteAt? hb
      | truncated hb _ _ _ => exact lt_size_of_byteAt? hb
  | cons head tail ih =>
    obtain ⟨_, _, hrest, he⟩ := fetch_of_decodeAt hl
    exact ih (he.trans h) hrest

theorem toByte_of_ofByte? {byte : UInt8} {opcode : Opcode} (h : Opcode.ofByte? byte = some opcode) :
    opcode.toByte = byte := by
  have hall : ∀ n : Fin Opcode.all.length, Opcode.all[n].ordinal = n := by decide
  obtain ⟨hlt, rfl⟩ := List.getElem?_eq_some_iff.mp h
  have hordinal : Opcode.all[byte.toNat].ordinal = byte.toNat := hall ⟨byte.toNat, hlt⟩
  rw [Opcode.toByte, hordinal, UInt8.ofNat_toNat]

/-- A fetched instruction encodes as the bytes it was fetched from. -/
theorem toBytes_append_drop {i : Instruction} (h : code.fetch offset = some (.ok i)) :
    i.toBytes ++ code.bytes.toList.drop (offset + i.width) = code.bytes.toList.drop offset := by
  have hf := code.fetches offset
  rw [h] at hf
  cases hf with
  | bare hb ho hk =>
    rw [width_bare, drop_eq_cons hb, ← toByte_of_ofByte? ho]
    rfl
  | operand hb ho hk ha =>
    rw [width_ofOperandByte, drop_eq_cons hb, drop_eq_cons ha, ← toByte_of_ofByte? ho]
    simp [Instruction.ofOperandByte, Instruction.toBytes]

/-- The instructions of a decoding and the bytes from where it stops make up the stream. -/
theorem flatMap_toBytes_decodeAt (code : Bytecode) (offset : Nat) :
    ((code.decodeAt offset).instructions.flatMap (·.instruction.toBytes)) ++
      code.bytes.toList.drop (code.stopOf (code.decodeAt offset)) =
        code.bytes.toList.drop offset := by
  generalize hl : (code.decodeAt offset).instructions = l
  induction l generalizing offset with
  | nil =>
    rw [List.flatMap_nil, List.nil_append, stopOf]
    rcases fetch_of_decodeAt_nil hl with ⟨_, hn, hge⟩ | ⟨e, _, hn, ho⟩
    · rw [hn, Option.elim_none, List.drop_eq_nil_iff.mpr (by simp [size]),
        List.drop_eq_nil_iff.mpr (by simpa [size] using hge)]
    · rw [hn, Option.elim_some, ho]
  | cons head tail ih =>
    obtain ⟨_, hf, hrest, _⟩ := fetch_of_decodeAt hl
    rw [List.flatMap_cons, List.append_assoc, stopOf_decodeAt hf, ih _ hrest,
      toBytes_append_drop hf]

theorem length_eq_stopOf (code : Bytecode) : code.decode.length = code.stopOf code.decode := by
  rw [decode_eq_decodeAt]
  rcases List.eq_nil_or_concat (code.decodeAt 0).instructions with hl | ⟨path, final, hl⟩
  · rw [Decoding.length, hl, stopOf]
    rcases fetch_of_decodeAt_nil hl with ⟨_, hn, hsize⟩ | ⟨e, _, hn, ho⟩
    · rw [hn]
      exact (Nat.le_zero.mp hsize).symm
    · rw [hn]
      exact ho.symm
  · rw [List.concat_eq_append] at hl
    rw [Decoding.length, hl, List.getLast?_append, List.getLast?_singleton]
    exact stopOf_of_append hl

/-- Where a decoding ends at an error, its instructions reach up to the error. -/
theorem length_decode {e : DecodeError} (h : code.decode.error? = some e) :
    code.decode.length = e.offset := by
  rw [length_eq_stopOf, stopOf, h, Option.elim_some]

theorem stopOf_le (code : Bytecode) (offset : Nat) :
    code.stopOf (code.decodeAt offset) ≤ code.size := by
  unfold stopOf
  cases he : (code.decodeAt offset).error? with
  | none => exact Nat.le_refl _
  | some e => exact Nat.le_of_lt (offset_lt_size he)

end RegisterMachine.Bytecode
