import Sedna.Wu.Transactions

/-!
# What a rollback reports

`OnTransactionRollback` with the answers of the routines that it calls for each record.  After the
loop success is decided by the iterator, which has already moved on when a failure is noticed.
In `Transactions` the one answer that can be no is that of `putBlockToBuffer`.
-/

namespace Sedna.Wu.RollbackReport

open Snapshots Versions Transactions

structure UndoAnswers where
  putBlockToBuffer : Bool
  fixFlushXptr : Bool
  lookupFlushingDependency : Bool
  /-- The dependency that was looked up is still there. -/
  target : Bool
  updateFlushingDependency : Bool
  impMarkBufferDirty : Bool
  impFlushBuffer : Bool
  impFreeBlock : Bool
  impFindBlockInBuffers : Bool
  impRevokeExclusiveAccessToBuffer : Bool
  /-- The block was not found because it is in no buffer. -/
  blockNotInBuffers : Bool
  deriving DecidableEq

/-- A record of the function list; `none` is a type that the switch does not know. -/
structure UndoItem where
  type : Option FunctionType
  answers : UndoAnswers
  deriving DecidableEq

/-- The flag `success` after the switch.  The answer of `ImpFreeBlock` is not looked at. -/
def UndoItem.success (i : UndoItem) : Bool :=
  match i.type with
  | some .allocateBlock => true
  | some (.createVersion isPers) =>
    i.answers.putBlockToBuffer && i.answers.fixFlushXptr &&
      if isPers then
        i.answers.lookupFlushingDependency &&
          if i.answers.target then i.answers.updateFlushingDependency
          else i.answers.impMarkBufferDirty && i.answers.impFlushBuffer
      else i.answers.impMarkBufferDirty
  | some .freeBlock =>
    if i.answers.impFindBlockInBuffers then i.answers.impRevokeExclusiveAccessToBuffer
    else i.answers.blockNotInBuffers
  | none => false

def UndoItem.undone (i : UndoItem) : Bool :=
  match i.type with
  | some .allocateBlock | some (.createVersion _) => i.success && i.answers.impFreeBlock
  | some .freeBlock | none => i.success

def undoLoop : Bool → List UndoItem → List UndoItem
  | _, [] => []
  | success, i :: rest => if success then undoLoop i.success rest else i :: rest

/-- The list is missing for a transaction that runs on a read-only snapshot. -/
def onTransactionRollback : Option (List UndoItem) → Bool
  | none => true
  | some functionList => (undoLoop true functionList.reverse).isEmpty

theorem isEmpty_undoLoop (success : Bool) (items : List UndoItem) :
    (undoLoop success items).isEmpty = true ↔
      items = [] ∨ success = true ∧ ∀ i ∈ items.dropLast, i.success = true := by
  induction items generalizing success with
  | nil => simp [undoLoop]
  | cons i rest ih =>
    cases success with
    | false => simp [undoLoop]
    | true =>
      rw [undoLoop, if_pos rfl, ih]
      cases rest with
      | nil => simp
      | cons next rest => simp

section

variable {Data : Type} (list : SnapshotsList)

def undoItem (blocks : Blocks Data) (function : VeFunction) : UndoItem :=
  ⟨some function.type, (undoFunction list blocks function).isSome, true, true, true, true, true,
    true, true, true, true, true⟩

/-- The records of a list of functions, with the answers for the blocks that each of them meets. -/
def undoItems : Blocks Data → List VeFunction → List UndoItem
  | _, [] => []
  | blocks, function :: functions =>
    undoItem list blocks function ::
      undoItems ((undoFunction list blocks function).elim blocks Prod.fst) functions

theorem success_undoItem (blocks : Blocks Data) (function : VeFunction) :
    (undoItem list blocks function).success = (undoFunction list blocks function).isSome := by
  cases htype : function.type with
  | createVersion isPers => cases isPers <;> simp [undoItem, UndoItem.success, htype]
  | allocateBlock | freeBlock => simp [undoItem, UndoItem.success, undoFunction, htype]

theorem isEmpty_undoLoop_undoItems (blocks : Blocks Data) (functions : List VeFunction) :
    (undoLoop true (undoItems list blocks functions)).isEmpty =
      (undoFunctions list blocks functions).2.2 := by
  induction functions generalizing blocks with
  | nil => rfl
  | cons function functions ih =>
    rw [undoItems, undoLoop, if_pos rfl, success_undoItem, undoFunctions]
    cases hundo : undoFunction list blocks function with
    | none => cases functions <;> rfl
    | some undone => exact ih undone.1

theorem onTransactionRollback_error (wu : State Data) (client : Client) :
    (Transactions.onTransactionRollback wu client).error = none ↔
      onTransactionRollback
        (some (undoItems wu.list wu.blocks client.functionList.reverse).reverse) = true := by
  rw [onTransactionRollback, List.reverse_reverse, isEmpty_undoLoop_undoItems,
    Transactions.onTransactionRollback]
  cases (undoFunctions wu.list wu.blocks client.functionList.reverse).2.2 <;> simp

end

theorem UndoItem.success_of_undone {i : UndoItem} (h : i.undone = true) : i.success = true := by
  unfold UndoItem.undone at h
  split at h
  · exact (Bool.and_eq_true_iff.1 h).1
  · exact (Bool.and_eq_true_iff.1 h).1
  · exact h
  · exact h

/-- The record that is undone last does not count. -/
theorem onTransactionRollback_iff (functionList : Option (List UndoItem)) :
    onTransactionRollback functionList = true ↔
      ∀ i ∈ (functionList.getD []).tail, i.success = true := by
  cases functionList with
  | none => simp [onTransactionRollback]
  | some items =>
    rw [onTransactionRollback, isEmpty_undoLoop]
    cases items <;> simp

/-- The report is right exactly if nothing fails, or if the code looks at a failure
before it comes to the last record that it undoes. -/
theorem rollback_report_iff (functionList : Option (List UndoItem)) :
    (onTransactionRollback functionList = true ↔ ∀ i ∈ functionList.getD [], i.undone = true) ↔
      (∀ i ∈ functionList.getD [], i.undone = true) ∨
        ∃ i ∈ (functionList.getD []).tail, i.success = false := by
  rw [onTransactionRollback_iff]
  have hall : (∀ i ∈ functionList.getD [], i.undone = true) →
      ∀ i ∈ (functionList.getD []).tail, i.success = true := fun h i hi =>
    UndoItem.success_of_undone (h i (List.mem_of_mem_tail hi))
  constructor
  · intro hreport
    by_cases hundone : ∀ i ∈ functionList.getD [], i.undone = true
    · exact .inl hundone
    · right
      by_contra hnone
      refine hundone (hreport.1 fun i hi => ?_)
      by_contra hfail
      exact hnone ⟨i, hi, Bool.eq_false_iff.2 hfail⟩
  · rintro (hundone | ⟨i, hi, hfail⟩)
    · exact iff_of_true (hall hundone) hundone
    · have hnot : ¬ ∀ i ∈ (functionList.getD []).tail, i.success = true := fun h =>
        Bool.eq_false_iff.1 hfail (h i hi)
      exact iff_of_false hnot fun hundone => hnot (hall hundone)

/-- The old version of the only block that was changed cannot be put to a buffer. -/
theorem rollback_reports_success :
    ∃ i : UndoItem, i.type = some (.createVersion false) ∧
      i.answers.putBlockToBuffer = false ∧ i.undone = false ∧
      onTransactionRollback (some [i]) = true := by
  refine ⟨⟨some (.createVersion false), ?_⟩, rfl, ?_⟩
  · exact ⟨false, true, true, true, true, true, true, true, true, true, true⟩
  · decide

end Sedna.Wu.RollbackReport
