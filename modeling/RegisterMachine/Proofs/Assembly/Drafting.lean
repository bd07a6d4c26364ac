import RegisterMachine.Assembly.Program
import RegisterMachine.Proofs.Bytecode.Draft

/-!
# What a program drafts

The draft of a program holds the bytes and the constants of its statements in order. A declared
register count stays declared whatever instructions or bytes come after it. A program drafts the
same after other statements as it does alone, and its draft is put behind theirs.
-/

namespace RegisterMachine

namespace Assembly

namespace Statement

def encoding : Statement → List UInt8
  | registers _ | constant _ => []
  | bytes payload => payload
  | instruction i => i.toBytes

def constant? : Statement → Option Value
  | constant value => some value
  | _ => none

theorem bytes_addTo (draft : Draft) (statement : Statement) :
    (addTo draft statement).bytes.toList = draft.bytes.toList ++ statement.encoding := by
  cases statement with
  | registers count => exact (List.append_nil _).symm
  | constant value => exact (List.append_nil _).symm
  | bytes payload => exact Array.toList_appendList
  | instruction i => exact draft.bytes_instruction i

theorem constants_addTo (draft : Draft) (statement : Statement) :
    (addTo draft statement).constants.toList =
      draft.constants.toList ++ statement.constant?.toList := by
  cases statement with
  | constant value => exact Array.toList_push
  | registers count => exact (List.append_nil _).symm
  | bytes payload => exact (List.append_nil _).symm
  | instruction i => exact (List.append_nil _).symm

theorem declared_addTo (draft : Draft) {statement : Statement}
    (h : statement.isRegisters = false) :
    (addTo draft statement).declared? = draft.declared? := by
  cases statement with
  | registers count => cases h
  | constant value => rfl
  | bytes payload => rfl
  | instruction i => rfl

theorem addTo_eq (draft : Draft) (statement : Statement) :
    addTo draft statement = draft.followedBy (addTo .empty statement) := by
  cases statement with
  | registers count =>
    simp [addTo, Draft.followedBy, Draft.declareRegisters, Draft.empty]
  | constant value =>
    simp [addTo, Draft.followedBy, Draft.pushConstant, Draft.empty]
  | bytes payload =>
    have hbytes : draft.bytes ++ payload = draft.bytes ++ payload.toArray :=
      Array.ext' (by simp)
    simp [addTo, Draft.followedBy, Draft.raw, Draft.empty, hbytes]
  | instruction i =>
    have hbytes : draft.bytes.push i.opcode.toByte ++ i.operand?.toList.map Operand.toByte =
        draft.bytes ++ (i.opcode.toByte :: i.operand?.toList.map Operand.toByte).toArray :=
      Array.ext' (by simp)
    simp [addTo, Draft.followedBy, Draft.instruction, Draft.append, Draft.empty, hbytes]

end Statement

theorem bytes_foldl (program : List Statement) (draft : Draft) :
    (program.foldl Statement.addTo draft).bytes.toList =
      draft.bytes.toList ++ program.flatMap Statement.encoding := by
  induction program generalizing draft with
  | nil => exact (List.append_nil _).symm
  | cons statement rest ih =>
    rw [List.foldl_cons, ih, Statement.bytes_addTo, List.flatMap_cons, List.append_assoc]

theorem constants_foldl (program : List Statement) (draft : Draft) :
    (program.foldl Statement.addTo draft).constants.toList =
      draft.constants.toList ++ program.filterMap Statement.constant? := by
  induction program generalizing draft with
  | nil => exact (List.append_nil _).symm
  | cons statement rest ih =>
    rw [List.foldl_cons, ih, Statement.constants_addTo, List.append_assoc, List.filterMap_cons]
    cases statement.constant? <;> rfl

theorem declared_foldl {program : List Statement} (draft : Draft)
    (h : ∀ statement ∈ program, statement.isRegisters = false) :
    (program.foldl Statement.addTo draft).declared? = draft.declared? := by
  induction program generalizing draft with
  | nil => rfl
  | cons statement rest ih =>
    obtain ⟨hstatement, hrest⟩ := List.forall_mem_cons.mp h
    rw [List.foldl_cons, ih _ hrest, Statement.declared_addTo draft hstatement]

theorem foldl_addTo (program : List Statement) (draft : Draft) :
    program.foldl Statement.addTo draft = draft.followedBy (draftOf program) := by
  induction program generalizing draft with
  | nil => exact draft.followedBy_empty.symm
  | cons statement rest ih =>
    rw [draftOf, List.foldl_cons, List.foldl_cons, ih, ih (Statement.addTo .empty statement),
      Statement.addTo_eq draft, Draft.followedBy_assoc]

theorem draftOf_cons (statement : Statement) (rest : List Statement) :
    draftOf (statement :: rest) = (Statement.addTo .empty statement).followedBy (draftOf rest) :=
  foldl_addTo rest _

theorem draftOf_append (first second : List Statement) :
    draftOf (first ++ second) = (draftOf first).followedBy (draftOf second) := by
  rw [draftOf, List.foldl_append]
  exact foldl_addTo second _

end Assembly

end RegisterMachine
