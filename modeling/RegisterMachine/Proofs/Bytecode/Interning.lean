import Mathlib.Data.List.Induction
import Mathlib.Data.List.Nodup
import RegisterMachine.Proofs.Bytecode.Draft

/-!
# Constants in the pool of a draft

A draft only grows, so an index into its pool keeps its constant. A constant that is loaded is
looked for from the front: the byte that is written is the first index at which the finished pool
has it, and a pool that loads alone have filled lists the constants in the order of their first use.
Only in a draft that cannot be finished has an index been cut down to a byte.
-/

namespace RegisterMachine

theorem eraseDups_concat {α : Type} [DecidableEq α] (l : List α) (a : α) :
    (l ++ [a]).eraseDups = if a ∈ l then l.eraseDups else l.eraseDups ++ [a] := by
  rw [List.eraseDups_append, List.removeAll]
  by_cases ha : a ∈ l <;> simp [ha, List.eraseDups_cons]

theorem nodup_eraseDups {α : Type} [DecidableEq α] (l : List α) : l.eraseDups.Nodup := by
  induction l using List.reverseRecOn with
  | nil => exact List.nodup_nil
  | append_singleton l a ih =>
    rw [eraseDups_concat]
    by_cases ha : a ∈ l
    · rwa [if_pos ha]
    · rw [if_neg ha]
      rw [← List.concat_eq_append]
      exact List.Nodup.concat (fun h => ha (List.mem_eraseDups.mp h)) ih

/-- The first index at which a pool has a value. -/
structure FirstIndex (pool : List Value) (value : Value) (index : Nat) : Prop where
  found : pool[index]? = some value
  first : ∀ earlier < index, pool[earlier]? ≠ some value

theorem FirstIndex.lt_length {pool : List Value} {value : Value} {index : Nat}
    (h : FirstIndex pool value index) : index < pool.length :=
  (List.getElem?_eq_some_iff.mp h.found).1

theorem FirstIndex.mono {pool later : List Value} {value : Value} {index : Nat}
    (h : FirstIndex pool value index) (hp : pool <+: later) : FirstIndex later value index := by
  obtain ⟨more, rfl⟩ := hp
  have hold : ∀ i ≤ index, (pool ++ more)[i]? = pool[i]? := fun i hi =>
    List.getElem?_append_left (Nat.lt_of_le_of_lt hi h.lt_length)
  constructor
  · rw [hold index (Nat.le_refl _)]
    exact h.found
  · intro earlier he
    rw [hold earlier (Nat.le_of_lt he)]
    exact h.first earlier he

namespace Draft

/-- What has been written stays in front of what is written later. -/
structure Grows (draft later : Draft) : Prop where
  bytes : draft.bytes.toList <+: later.bytes.toList
  constants : draft.constants.toList <+: later.constants.toList

theorem Grows.refl (draft : Draft) : draft.Grows draft := ⟨List.prefix_rfl, List.prefix_rfl⟩

theorem Grows.trans {first second third : Draft} (h : first.Grows second)
    (h' : second.Grows third) : first.Grows third :=
  ⟨h.bytes.trans h'.bytes, h.constants.trans h'.constants⟩

theorem Grows.getElem?_constants {draft later : Draft} (h : draft.Grows later) {index : Nat}
    {value : Value} (hv : draft.constants[index]? = some value) :
    later.constants[index]? = some value := by
  obtain ⟨more, hmore⟩ := h.constants
  rw [← Array.getElem?_toList] at hv ⊢
  rw [← hmore, List.getElem?_append_left (List.getElem?_eq_some_iff.mp hv).1, hv]

variable (draft : Draft) (value : Value)

theorem grows_append (opcode : Opcode) (operands : List Operand) :
    draft.Grows (draft.append opcode operands) := by
  refine ⟨?_, List.prefix_rfl⟩
  simp only [append, Array.toList_appendList, Array.toList_push, List.append_assoc]
  exact List.prefix_append _ _

theorem grows_pushConstant : draft.Grows (draft.pushConstant value) := by
  refine ⟨List.prefix_rfl, ?_⟩
  rw [pushConstant, Array.toList_push]
  exact List.prefix_append _ _

theorem grows_intern : draft.Grows (draft.intern value).1 := by
  rw [intern]
  cases draft.constants.idxOf? value with
  | none => exact draft.grows_pushConstant value
  | some index => exact .refl draft

theorem grows_perform (call : Call) : draft.Grows (draft.perform call).2 := by
  cases call with
  | declareRegisters count => exact ⟨List.prefix_rfl, List.prefix_rfl⟩
  | pushConstant value => exact draft.grows_pushConstant value
  | loadConstant value => exact (draft.grows_intern value).trans (grows_append _ _ _)
  | raw bytes =>
    refine ⟨?_, List.prefix_rfl⟩
    rw [perform, raw, Array.toList_appendList]
    exact List.prefix_append _ _
  | instruction i => exact draft.grows_append _ _
  | emit opcode operands =>
    rw [perform, emit]
    by_cases hcount : operands.length = opcode.operandCount
    · rw [if_pos hcount]
      exact draft.grows_append _ _
    · rw [if_neg hcount]
      exact .refl draft

theorem grows_performAll (calls : List Call) : draft.Grows (draft.performAll calls) := by
  induction calls generalizing draft with
  | nil => exact .refl draft
  | cons call rest ih => exact (draft.grows_perform call).trans (ih _)

theorem performAll_append (first second : List Call) :
    draft.performAll (first ++ second) = (draft.performAll first).performAll second :=
  List.foldl_append

/-! ### Loads -/

theorem firstIndex_intern :
    FirstIndex (draft.intern value).1.constants.toList value (draft.intern value).2 := by
  refine ⟨by simpa using draft.constants_intern value, ?_⟩
  intro earlier he
  rw [intern] at he ⊢
  cases hindex : draft.constants.idxOf? value with
  | none =>
    rw [hindex] at he
    have hnew : value ∉ draft.constants.toList := by simpa using hindex
    have hold : (draft.pushConstant value).constants.toList[earlier]? =
        draft.constants.toList[earlier]? := by
      rw [pushConstant, Array.toList_push]
      exact List.getElem?_append_left he
    dsimp only
    rw [hold]
    exact fun h => hnew (List.mem_of_getElem? h)
  | some index =>
    rw [hindex] at he
    rw [← draft.constants.toArray_toList, List.idxOf?_toArray] at hindex
    obtain ⟨_, _, hfirst⟩ := List.idxOf?_eq_some_iff.mp hindex
    intro h
    obtain ⟨_, hvalue⟩ := List.getElem?_eq_some_iff.mp h
    exact hfirst earlier he hvalue

/-- A load appends its opcode and the index of its constant, cut down to a byte. -/
theorem bytes_loadConstant :
    (draft.loadConstant value).bytes.toList = draft.bytes.toList ++
      [Opcode.ldaConstant.toByte, .ofNat (min (draft.intern value).2 (maxConstants - 1))] := by
  have hbytes : (draft.intern value).1.bytes = draft.bytes := by
    rw [intern]
    cases draft.constants.idxOf? value <;> rfl
  simp [loadConstant, append, hbytes, Operand.toByte]

def Call.loaded? : Call → Option Value
  | loadConstant value => some value
  | _ => none

theorem toList_perform {call : Call} (hpush : ∀ value, call ≠ .pushConstant value) :
    (draft.perform call).2.constants.toList = call.loaded?.elim draft.constants.toList fun value =>
      if value ∈ draft.constants.toList then draft.constants.toList
      else draft.constants.toList ++ [value] := by
  cases call with
  | pushConstant value => exact absurd rfl (hpush value)
  | loadConstant value => exact draft.toList_intern value
  | declareRegisters count | raw bytes | instruction i => rfl
  | emit opcode operands =>
    rw [perform, emit]
    by_cases hcount : operands.length = opcode.operandCount
    · rw [if_pos hcount]
      rfl
    · rw [if_neg hcount]
      rfl

/-- A pool that loads alone have filled has their constants in the order of first use. -/
theorem toList_performAll {calls : List Call} (hpush : ∀ value, .pushConstant value ∉ calls) :
    (empty.performAll calls).constants.toList = (calls.filterMap Call.loaded?).eraseDups := by
  induction calls using List.reverseRecOn with
  | nil => rfl
  | append_singleton calls call ih =>
    have hpool := ih fun value h => hpush value (List.mem_append_left _ h)
    have hcall : ∀ value, call ≠ .pushConstant value := fun value h =>
      hpush value (List.mem_append_right _ (h ▸ List.mem_singleton_self _))
    have hstep := (empty.performAll calls).toList_perform hcall
    rw [hpool] at hstep
    rw [performAll_append, List.filterMap_append]
    refine hstep.trans ?_
    cases hloaded : call.loaded? with
    | none => simp [hloaded]
    | some value =>
      have hsingle : [call].filterMap Call.loaded? = [value] := by simp [hloaded]
      rw [hsingle, eraseDups_concat, Option.elim_some]
      simp only [List.mem_eraseDups]

variable {draft value}

/-- What is left of an interned constant in bytecode that the draft has grown into. -/
theorem load_of_finish {later : Draft} {code : Bytecode}
    (hgrows : (draft.loadConstant value).Grows later) (hfinish : later.finish = .ok code) :
    ∃ index : UInt8,
      (draft.loadConstant value).bytes.toList =
        draft.bytes.toList ++ [Opcode.ldaConstant.toByte, index] ∧
      (draft.loadConstant value).bytes.toList <+: code.bytes.toList ∧
      FirstIndex code.constants.toList value index.toNat ∧
      index.toNat = (draft.intern value).2 := by
  obtain ⟨hsize, _, rfl⟩ := finish_eq_ok_iff.mp hfinish
  have hfirst : FirstIndex later.constants.toList value (draft.intern value).2 :=
    (draft.firstIndex_intern value).mono hgrows.constants
  -- The pool is within its limit, so the index is one that a byte can hold.
  have hlt : (draft.intern value).2 < maxConstants :=
    Nat.lt_of_lt_of_le hfirst.lt_length (by simpa using hsize)
  have hmin : min (draft.intern value).2 (maxConstants - 1) = (draft.intern value).2 :=
    Nat.min_eq_left (Nat.le_sub_one_of_lt hlt)
  have hindex : (UInt8.ofNat (draft.intern value).2).toNat = (draft.intern value).2 :=
    UInt8.toNat_ofNat_of_lt' hlt
  refine ⟨.ofNat (draft.intern value).2, ?_, hgrows.bytes, ?_, hindex⟩
  · rw [bytes_loadConstant, hmin]
  · rwa [hindex]

/-- Constants in the bytecode that a sequence of calls is finished as. A load has written its opcode
and the first index of its constant, which has not been cut down; an index that was handed out for a
pushed constant is still its index; and loads alone fill the pool with distinct constants, in the
order of first use. -/
theorem constants_of_finish (calls : List Call) {code : Bytecode}
    (hfinish : (empty.performAll calls).finish = .ok code) :
    (∀ front value back, calls = front ++ .loadConstant value :: back →
      let before := empty.performAll front
      ∃ index : UInt8,
        (before.loadConstant value).bytes.toList =
          before.bytes.toList ++ [Opcode.ldaConstant.toByte, index] ∧
        (before.loadConstant value).bytes.toList <+: code.bytes.toList ∧
        FirstIndex code.constants.toList value index.toNat ∧
        index.toNat = (before.intern value).2) ∧
    (∀ front value back, calls = front ++ .pushConstant value :: back →
      ∃ index, ((empty.performAll front).perform (.pushConstant value)).1 = .ok (some index) ∧
        code.constants[index]? = some value) ∧
    ((∀ value, .pushConstant value ∉ calls) →
      code.constants.toList.Nodup ∧
        code.constants.toList = (calls.filterMap Call.loaded?).eraseDups) := by
  refine ⟨?_, ?_, fun hpush => ?_⟩
  · rintro front value back rfl
    rw [performAll_append] at hfinish
    exact load_of_finish (grows_performAll _ back) hfinish
  · rintro front value back rfl
    rw [performAll_append] at hfinish
    obtain ⟨_, _, rfl⟩ := finish_eq_ok_iff.mp hfinish
    have hpushed : ((empty.performAll front).pushConstant value).constants[
        (empty.performAll front).constants.size]? = some value := Array.getElem?_push_size
    exact ⟨_, rfl, (grows_performAll _ back).getElem?_constants hpushed⟩
  · obtain ⟨_, _, rfl⟩ := finish_eq_ok_iff.mp hfinish
    have hpool := toList_performAll hpush
    exact ⟨hpool ▸ nodup_eraseDups _, hpool⟩

/-- Two equal constants are pushed and the first of them is loaded, after a zero that differs from
them in its sign. -/
theorem constants_of_finish_signed_zeros :
    let calls : List Call := [.pushConstant (.number (.zero true)),
      .pushConstant (.number (.zero true)), .loadConstant (.number (.zero false)),
      .loadConstant (.number (.zero true))]
    let pool : List Value := [.number (.zero true), .number (.zero true), .number (.zero false)]
    (empty.performAll calls).finish = .ok ⟨#[7, 2, 7, 0], 0, pool.toArray⟩ ∧
      (∃ index : UInt8, [7, 2, 7, index] <+: ([7, 2, 7, 0] : List UInt8) ∧
        FirstIndex pool (.number (.zero true)) index.toNat) ∧
      ∃ index : Nat, pool[index]? = some (.number (.zero true)) := by
  intro calls pool
  have hfinish : (empty.performAll calls).finish = .ok ⟨#[7, 2, 7, 0], 0, pool.toArray⟩ := by
    decide +kernel
  obtain ⟨hload, hpush, _⟩ := constants_of_finish calls hfinish
  obtain ⟨index, hbytes, hprefix, hfirst, _⟩ := hload (calls.take 3) (.number (.zero true)) [] rfl
  obtain ⟨pushed, hanswer, hpushed⟩ :=
    hpush (calls.take 1) (.number (.zero true)) (calls.drop 2) rfl
  refine ⟨hfinish, ⟨index, ?_, hfirst⟩, pushed, by simpa using hpushed⟩
  have hbefore : (empty.performAll (calls.take 3)).bytes.toList = [7, 2] := by decide +kernel
  rw [hbytes, hbefore] at hprefix
  exact hprefix

end Draft

end RegisterMachine
