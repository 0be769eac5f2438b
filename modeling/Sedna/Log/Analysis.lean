import Sedna.Log.RedoList

/-!
# Which transactions are redone

The analysis pass of the recovery (`logican.cpp`) and the redo pass that uses its
list (`logicrcv.cpp`).  A transaction identifier is used again after its
transaction has ended, so the log has *incarnations*: the records of an
identifier up to the commit or rollback record that ends them.
-/

namespace Sedna.Log

open RedoMemory Library.Bytes List LlOperations Option

variable {status : TrnAnalysis} {c : RedoCell}

/-! ## The two passes -/

inductive AnalyzeFun
  | llRcvAnalyzeLogicalRec
  | llRcvAnalyzeCommitRec
  | llRcvAnalyzeRollbackRec
  deriving DecidableEq

def AnalyzeFun.run : AnalyzeFun → Nat → Record → RedoMemory → RedoMemory
  | .llRcvAnalyzeLogicalRec => Log.llRcvAnalyzeLogicalRec
  | .llRcvAnalyzeCommitRec => Log.llRcvAnalyzeCommitRec
  | .llRcvAnalyzeRollbackRec => Log.llRcvAnalyzeRollbackRec

def llRcvAnalyzeRecs : List (LlOperations × AnalyzeFun) :=
  [(.llInsertElem, .llRcvAnalyzeLogicalRec),
   (.llDeleteElem, .llRcvAnalyzeLogicalRec),
   (.llInsertAttr, .llRcvAnalyzeLogicalRec),
   (.llDeleteAttr, .llRcvAnalyzeLogicalRec),
   (.llInsertText, .llRcvAnalyzeLogicalRec),
   (.llDeleteText, .llRcvAnalyzeLogicalRec),
   (.llInsertLeftText, .llRcvAnalyzeLogicalRec),
   (.llDeleteLeftText, .llRcvAnalyzeLogicalRec),
   (.llInsertRightText, .llRcvAnalyzeLogicalRec),
   (.llDeleteRightText, .llRcvAnalyzeLogicalRec),
   (.llInsertDoc, .llRcvAnalyzeLogicalRec),
   (.llDeleteDoc, .llRcvAnalyzeLogicalRec),
   (.llInsertComment, .llRcvAnalyzeLogicalRec),
   (.llDeleteComment, .llRcvAnalyzeLogicalRec),
   (.llInsertPi, .llRcvAnalyzeLogicalRec),
   (.llDeletePi, .llRcvAnalyzeLogicalRec),
   (.llInsertCollection, .llRcvAnalyzeLogicalRec),
   (.llDeleteCollection, .llRcvAnalyzeLogicalRec),
   (.llInsertNs, .llRcvAnalyzeLogicalRec),
   (.llDeleteNs, .llRcvAnalyzeLogicalRec),
   (.llInsertDocIndex, .llRcvAnalyzeLogicalRec),
   (.llDeleteDocIndex, .llRcvAnalyzeLogicalRec),
   (.llInsertColIndex, .llRcvAnalyzeLogicalRec),
   (.llDeleteColIndex, .llRcvAnalyzeLogicalRec),
   (.llInsertDocFtsIndex, .llRcvAnalyzeLogicalRec),
   (.llDeleteDocFtsIndex, .llRcvAnalyzeLogicalRec),
   (.llInsertColFtsIndex, .llRcvAnalyzeLogicalRec),
   (.llDeleteColFtsIndex, .llRcvAnalyzeLogicalRec),
   (.llInsertDocTrg, .llRcvAnalyzeLogicalRec),
   (.llDeleteDocTrg, .llRcvAnalyzeLogicalRec),
   (.llInsertColTrg, .llRcvAnalyzeLogicalRec),
   (.llDeleteColTrg, .llRcvAnalyzeLogicalRec),
   (.llRenameCollection, .llRcvAnalyzeLogicalRec),
   (.llCommit, .llRcvAnalyzeCommitRec),
   (.llRollback, .llRcvAnalyzeRollbackRec)]

inductive RcvFun
  | llRcvElement
  | llRcvAttribute
  | llRcvText
  | llRcvTextEdit
  | llRcvDoc
  | llRcvComment
  | llRcvPI
  | llRcvCollection
  | llRcvNS
  | llRcvIndex
  | llRcvFtIndex
  | llRcvTrigger
  | llRcvRenameColl
  deriving DecidableEq

def llRcvLogRecsInfo : List (LlOperations × RcvFun) :=
  [(.llInsertElem, .llRcvElement),
   (.llDeleteElem, .llRcvElement),
   (.llInsertAttr, .llRcvAttribute),
   (.llDeleteAttr, .llRcvAttribute),
   (.llInsertText, .llRcvText),
   (.llDeleteText, .llRcvText),
   (.llInsertLeftText, .llRcvTextEdit),
   (.llDeleteLeftText, .llRcvTextEdit),
   (.llInsertRightText, .llRcvTextEdit),
   (.llDeleteRightText, .llRcvTextEdit),
   (.llInsertDoc, .llRcvDoc),
   (.llDeleteDoc, .llRcvDoc),
   (.llInsertComment, .llRcvComment),
   (.llDeleteComment, .llRcvComment),
   (.llInsertPi, .llRcvPI),
   (.llDeletePi, .llRcvPI),
   (.llInsertCollection, .llRcvCollection),
   (.llDeleteCollection, .llRcvCollection),
   (.llInsertNs, .llRcvNS),
   (.llDeleteNs, .llRcvNS),
   (.llInsertDocIndex, .llRcvIndex),
   (.llDeleteDocIndex, .llRcvIndex),
   (.llInsertColIndex, .llRcvIndex),
   (.llDeleteColIndex, .llRcvIndex),
   (.llInsertDocFtsIndex, .llRcvFtIndex),
   (.llDeleteDocFtsIndex, .llRcvFtIndex),
   (.llInsertColFtsIndex, .llRcvFtIndex),
   (.llDeleteColFtsIndex, .llRcvFtIndex),
   (.llInsertDocTrg, .llRcvTrigger),
   (.llDeleteDocTrg, .llRcvTrigger),
   (.llInsertColTrg, .llRcvTrigger),
   (.llDeleteColTrg, .llRcvTrigger),
   (.llRenameCollection, .llRcvRenameColl)]

/-- The next record of the analysis: not at or behind the high boundary. -/
def Logican.llGetNextRcvRec (highLSNBoundary currLsn : Nat) (r : Record) : Option Nat :=
  let lsn := currLsn + llGetRecordSize r
  if highLSNBoundary ≤ lsn then none else some lsn

/-- The next record of the redo: not behind the last commit record. -/
def Logicrcv.llGetNextRcvRec (highRcvLSN currLsn : Nat) (r : Record) : Option Nat :=
  let lsn := currLsn + llGetRecordSize r
  if highRcvLSN < lsn then none else some lsn

section

variable {σ τ : Type*}

def llGetRedoList (get : GetRecord σ) (highLSNBoundary fuel : Nat) (startLsn : Option Nat) (s : σ) :
    Option (σ × RedoMemory) :=
  match llScanRecords get llRcvAnalyzeRecs AnalyzeFun.run
      (Logican.llGetNextRcvRec highLSNBoundary) none fuel startLsn s initial with
  | some (s', m) => some (s', removeUnneeded m.top m.rcvList m)
  | none => none

def llFindTrnCell (m : RedoMemory) (trid lsn : Nat) : Option Nat :=
  m.findTrnCell trid lsn m.top m.rcvList

def highRcvLSN (m : RedoMemory) : Nat → Option Nat → Nat → Nat
  | _, none, endLSN => endLSN
  | 0, some _, endLSN => endLSN
  | fuel + 1, some it, endLSN =>
    match m.cells it with
    | some cell =>
      highRcvLSN m fuel cell.next
        (match cell.endLsn with
        | some e => if e > endLSN then e else endLSN
        | none => endLSN)
    | none => endLSN

def llGetHighRcvLSN (m : RedoMemory) : Nat := highRcvLSN m m.top m.rcvList 0

def llRcvPrereqRedo (m : RedoMemory) (lsn : Nat) (r : Record) : Bool :=
  match (llFindTrnCell m r.trid lsn).bind m.cells with
  | some cell => cell.finishStatus = .trnCommitFinished
  | none => false

/-- The recovery functions change a state `τ` of the database; what they do is no
part of these two passes. -/
def llRcvRedoTrns (get : GetRecord σ) (run : RcvFun → Nat → Record → τ → τ) (m : RedoMemory)
    (fuel : Nat) (startLsn : Option Nat) (s : σ) (t : τ) : Option (σ × τ) :=
  match m.rcvList with
  | none => some (s, t)
  | some _ =>
    llScanRecords get llRcvLogRecsInfo run (Logicrcv.llGetNextRcvRec (llGetHighRcvLSN m))
      (some (llRcvPrereqRedo m)) fuel startLsn s t

end

/-! ## Incarnations -/

def Record.IsLogical (r : Record) : Prop := r.op.toNat < LlOperations.llCommit.ctorIdx

def Record.finish (r : Record) : Option TrnAnalysis :=
  if r.op = LlOperations.llCommit.code then some .trnCommitFinished
  else if r.op = LlOperations.llRollback.code then some .trnRollbackFinished
  else none

def RecordAt (kind : Record → Prop) (recs : List (Nat × Record)) (trid lsn : Nat) : Prop :=
  ∃ r, (lsn, r) ∈ recs ∧ r.trid = trid ∧ kind r

abbrev LogicalAt := RecordAt Record.IsLogical

abbrev FinishAt := RecordAt fun r => r.finish ≠ none

abbrev EndAt (status : TrnAnalysis) := RecordAt fun r => r.finish = some status

abbrev CommitAt := EndAt .trnCommitFinished

/-- The first logical record of an incarnation: every earlier one of the same
identifier has been followed by the end of its incarnation. -/
def FirstAt (recs : List (Nat × Record)) (trid lsn : Nat) : Prop :=
  LogicalAt recs trid lsn ∧
    ∀ l < lsn, LogicalAt recs trid l → ∃ e, FinishAt recs trid e ∧ l < e ∧ e < lsn

/-- The incarnation that wrote a record of the identifier at `lsn` ends at `e`. -/
def EndsAt (recs : List (Nat × Record)) (trid lsn e : Nat) : Prop :=
  FinishAt recs trid e ∧ lsn < e ∧ ∀ e', FinishAt recs trid e' → lsn < e' → e ≤ e'

def Committed (recs : List (Nat × Record)) (trid lsn : Nat) : Prop :=
  ∃ e, EndsAt recs trid lsn e ∧ CommitAt recs trid e

/-! ## The tables -/

theorem llFindRecInfo_analyze (cop : UInt8) :
    llFindRecInfo llRcvAnalyzeRecs cop =
      if cop.toNat < LlOperations.llCommit.ctorIdx then some .llRcvAnalyzeLogicalRec
      else if cop = LlOperations.llCommit.code then some .llRcvAnalyzeCommitRec
      else if cop = LlOperations.llRollback.code then some .llRcvAnalyzeRollbackRec
      else none := by
  rw [llFindRecInfo_aligned (by decide) (by decide)]
  simp only [← UInt8.toNat_inj, code_toNat]
  by_cases hlt : cop.toNat < llRcvAnalyzeRecs.length
  · generalize cop.toNat = n at hlt
    revert n
    decide
  · rw [getElem?_eq_none (by omega)]
    have hge : 35 ≤ cop.toNat := Nat.le_of_not_lt hlt
    rw [if_neg, if_neg, if_neg]
    · rfl
    all_goals simp only [LlOperations.ctorIdx]; omega

theorem isSome_llFindRecInfo_rcv (cop : UInt8) :
    (llFindRecInfo llRcvLogRecsInfo cop).isSome ↔ cop.toNat < llCommit.ctorIdx := by
  rw [llFindRecInfo_aligned (by decide) (by decide), isSome_map, isSome_getElem?]
  rfl

theorem finish_eq_none_of_isLogical {r : Record} (h : r.IsLogical) : r.finish = none := by
  unfold Record.IsLogical at h
  have hcom : r.op ≠ llCommit.code := by
    intro heq
    rw [heq, code_toNat] at h
    omega
  have hrollback : r.op ≠ llRollback.code := by
    intro heq
    rw [heq] at h
    exact absurd h (by decide)
  simp [Record.finish, hcom, hrollback]

theorem llProcessRecord_analyze (lsn : Nat) (r : Record) (m : RedoMemory) :
    (r.IsLogical ∧ llProcessRecord llRcvAnalyzeRecs AnalyzeFun.run none lsn r m =
        llRcvAnalyzeLogicalRec lsn r m) ∨
    (∃ status, r.finish = some status ∧
      llProcessRecord llRcvAnalyzeRecs AnalyzeFun.run none lsn r m =
        llRcvAnalyzeFinishRec status lsn r m) ∨
    (¬ r.IsLogical ∧ r.finish = none ∧
      llProcessRecord llRcvAnalyzeRecs AnalyzeFun.run none lsn r m = m) := by
  have hfind := llFindRecInfo_analyze r.op
  by_cases hlog : r.op.toNat < llCommit.ctorIdx
  · refine .inl ⟨hlog, ?_⟩
    rw [if_pos hlog] at hfind
    simp [llProcessRecord, hfind, AnalyzeFun.run]
  · rw [if_neg hlog] at hfind
    by_cases hcom : r.op = llCommit.code
    · refine .inr (.inl ⟨.trnCommitFinished, by simp [Record.finish, hcom], ?_⟩)
      rw [if_pos hcom] at hfind
      simp [llProcessRecord, hfind, AnalyzeFun.run, llRcvAnalyzeCommitRec]
    · rw [if_neg hcom] at hfind
      by_cases hrollback : r.op = llRollback.code
      · refine .inr (.inl ⟨.trnRollbackFinished,
          by rw [Record.finish, if_neg hcom, if_pos hrollback], ?_⟩)
        rw [if_pos hrollback] at hfind
        simp [llProcessRecord, hfind, AnalyzeFun.run, llRcvAnalyzeRollbackRec]
      · rw [if_neg hrollback] at hfind
        exact .inr (.inr ⟨hlog, by simp [Record.finish, hcom, hrollback],
          by simp [llProcessRecord, hfind]⟩)

/-! ## One more record -/

section

variable {kind : Record → Prop} {recs : List (Nat × Record)} {lsn : Nat} {r : Record} {trid l : Nat}

theorem recordAt_append :
    RecordAt kind (recs ++ [(lsn, r)]) trid l ↔
      RecordAt kind recs trid l ∨ l = lsn ∧ r.trid = trid ∧ kind r := by
  simp [RecordAt, or_and_right, exists_or, and_assoc]

theorem RecordAt.lt (hlt : ∀ x ∈ recs, x.1 < lsn) (h : RecordAt kind recs trid l) : l < lsn := by
  obtain ⟨q, hmem, -, -⟩ := h
  exact hlt _ hmem

def Increasing (recs : List (Nat × Record)) : Prop := recs.Pairwise fun x y => x.1 < y.1

theorem Increasing.unique (h : Increasing recs) {r q : Record} (hr : (l, r) ∈ recs)
    (hq : (l, q) ∈ recs) : r = q := by
  have hnd : (recs.map Prod.fst).Nodup := pairwise_map.2 (h.imp Nat.ne_of_lt)
  exact congrArg Prod.snd (inj_on_of_nodup_map hnd hr hq rfl)

theorem LogicalAt.ne_finish (hinc : Increasing recs) {l e t : Nat} (hl : LogicalAt recs trid l)
    (he : FinishAt recs t e) : l ≠ e := by
  rintro rfl
  obtain ⟨q, hq, -, hlog⟩ := hl
  obtain ⟨q', hq', -, hfin⟩ := he
  rw [hinc.unique hq hq'] at hlog
  exact hfin (finish_eq_none_of_isLogical hlog)

theorem exists_firstAt (hinc : Increasing recs) (hl : LogicalAt recs trid l) :
    ∃ f ≤ l, FirstAt recs trid f ∧ ∀ e, FinishAt recs trid e → f < e → l < e := by
  induction l using Nat.strong_induction_on with
  | _ l ih =>
    by_cases hfst : FirstAt recs trid l
    · exact ⟨l, le_refl l, hfst, fun _ _ h => h⟩
    · obtain ⟨l', hlt, hlog, hnone⟩ : ∃ l' < l, LogicalAt recs trid l' ∧
          ∀ e, FinishAt recs trid e → l' < e → l ≤ e := by
        by_contra hnone
        push Not at hnone
        exact hfst ⟨hl, hnone⟩
      obtain ⟨f, hf, hfst', hafter⟩ := ih l' hlt hlog
      refine ⟨f, by omega, hfst', fun e he hfe => ?_⟩
      have hle := hnone e he (hafter e he hfe)
      have hne := hl.ne_finish hinc he
      omega

def Ended (recs : List (Nat × Record)) (trid : Nat) : Prop :=
  ∀ l, LogicalAt recs trid l → ∃ e, FinishAt recs trid e ∧ l < e

theorem recordAt_append_of_lt (hl : l < lsn) :
    RecordAt kind (recs ++ [(lsn, r)]) trid l ↔ RecordAt kind recs trid l := by
  rw [recordAt_append]
  exact or_iff_left fun h => ne_of_lt hl h.1

theorem firstAt_append (hlt : ∀ x ∈ recs, x.1 < lsn) :
    FirstAt (recs ++ [(lsn, r)]) trid l ↔
      FirstAt recs trid l ∨ l = lsn ∧ r.trid = trid ∧ r.IsLogical ∧ Ended recs trid := by
  constructor
  · rintro ⟨hat, hbef⟩
    rcases recordAt_append.1 hat with hl | ⟨rfl, htrid, hlog⟩
    · refine .inl ⟨hl, fun l' hl' hlog => ?_⟩
      obtain ⟨e, he, hle, hel⟩ := hbef l' hl' (recordAt_append.2 (.inl hlog))
      exact ⟨e, (recordAt_append_of_lt (lt_trans hel (hl.lt hlt))).1 he, hle, hel⟩
    · refine .inr ⟨rfl, htrid, hlog, fun l' hlog' => ?_⟩
      obtain ⟨e, he, hle, hel⟩ :=
        hbef l' (hlog'.lt hlt) (recordAt_append.2 (.inl hlog'))
      exact ⟨e, (recordAt_append_of_lt hel).1 he, hle⟩
  · rintro (⟨hl, hbef⟩ | ⟨rfl, htrid, hlog, hended⟩)
    · refine ⟨recordAt_append.2 (.inl hl), fun l' hl' hlog => ?_⟩
      have hlsn : l' < lsn := lt_trans hl' (hl.lt hlt)
      obtain ⟨e, he, hle, hel⟩ := hbef l' hl' ((recordAt_append_of_lt hlsn).1 hlog)
      exact ⟨e, recordAt_append.2 (.inl he), hle, hel⟩
    · refine ⟨recordAt_append.2 (.inr ⟨rfl, htrid, hlog⟩), fun l' hl' hlog' => ?_⟩
      obtain ⟨e, he, hle⟩ := hended l' ((recordAt_append_of_lt hl').1 hlog')
      exact ⟨e, recordAt_append.2 (.inl he), hle, he.lt hlt⟩

theorem firstAt_append_of_not_logical (hlt : ∀ x ∈ recs, x.1 < lsn) (hr : ¬ r.IsLogical) :
    FirstAt (recs ++ [(lsn, r)]) trid l ↔ FirstAt recs trid l := by
  rw [firstAt_append hlt]
  exact or_iff_left fun h => hr h.2.2.1

theorem EndAt.finishAt {e : Nat} (h : EndAt status recs trid e) :
    FinishAt recs trid e ∧ status ≠ .trnNotFinished := by
  obtain ⟨q, hmem, htrid, hfin⟩ := h
  refine ⟨⟨q, hmem, htrid, by simp [hfin]⟩, ?_⟩
  rintro rfl
  unfold Record.finish at hfin
  split at hfin
  · cases hfin
  · split at hfin <;> cases hfin

def Outcome (recs : List (Nat × Record)) (c : RedoCell) : Prop :=
  (c.finishStatus = .trnNotFinished ∧ c.endLsn = none ∧
    ∀ e, FinishAt recs c.trid e → e ≤ c.firstLsn) ∨
  ∃ e, c.endLsn = some e ∧ EndsAt recs c.trid c.firstLsn e ∧ EndAt c.finishStatus recs c.trid e

theorem outcome_append_of_no_finish (hr : r.finish = none ∨ r.trid ≠ c.trid) :
    Outcome (recs ++ [(lsn, r)]) c ↔ Outcome recs c := by
  have hsame : ∀ status e, EndAt status (recs ++ [(lsn, r)]) c.trid e ↔
      EndAt status recs c.trid e := by
    intro status e
    refine recordAt_append.trans (or_iff_left fun h => ?_)
    rcases hr with hr | hr
    · simp [hr] at h
    · exact hr h.2.1
  have hfin : ∀ e, FinishAt (recs ++ [(lsn, r)]) c.trid e ↔ FinishAt recs c.trid e := by
    intro e
    refine recordAt_append.trans (or_iff_left fun h => ?_)
    rcases hr with hr | hr
    · exact h.2.2 hr
    · exact hr h.2.1
  simp only [Outcome, EndsAt, hsame, hfin]

theorem outcome_append_of_finish (hlt : ∀ x ∈ recs, x.1 < lsn) (hr : r.finish = some status)
    (hc : r.trid = c.trid) (hfst : c.firstLsn < lsn) :
    Outcome (recs ++ [(lsn, r)]) c ↔
      (c.finishStatus ≠ .trnNotFinished ∧ Outcome recs c) ∨
      (c.finishStatus = status ∧ c.endLsn = some lsn ∧
        ∀ e, FinishAt recs c.trid e → e ≤ c.firstLsn) := by
  have hnew : EndAt status (recs ++ [(lsn, r)]) c.trid lsn := recordAt_append.2 (.inr ⟨rfl, hc, hr⟩)
  constructor
  · rintro (⟨-, -, hnone⟩ | ⟨e, hend, ⟨he, hlte, hmin⟩, hst⟩)
    · exact absurd (hnone lsn hnew.finishAt.1) (not_le.2 hfst)
    · rcases recordAt_append.1 hst with hold | ⟨rfl, -, hfin⟩
      · obtain ⟨hold', hne⟩ := EndAt.finishAt hold
        refine .inl ⟨hne, .inr ⟨e, hend, ⟨hold', hlte, ?_⟩, hold⟩⟩
        exact fun e' he' h => hmin e' (recordAt_append.2 (.inl he')) h
      · rw [hr, some.injEq] at hfin
        refine .inr ⟨hfin.symm, hend, fun e' he' => Nat.le_of_not_lt fun h => ?_⟩
        have hle := hmin e' (recordAt_append.2 (.inl he')) h
        exact absurd (he'.lt hlt) (not_lt.2 hle)
  · rintro (⟨hne, ⟨hopen, -, -⟩ | ⟨e, hend, ⟨he, hlte, hmin⟩, hst⟩⟩ | ⟨rfl, hend, hnone⟩)
    · exact absurd hopen hne
    · refine .inr ⟨e, hend, ⟨recordAt_append.2 (.inl he), hlte, fun e' he' h => ?_⟩,
        recordAt_append.2 (.inl hst)⟩
      rcases recordAt_append.1 he' with hold | ⟨rfl, -, -⟩
      · exact hmin e' hold h
      · exact le_of_lt (he.lt hlt)
    · refine .inr ⟨lsn, hend, ⟨hnew.finishAt.1, hfst, fun e' he' h => ?_⟩, hnew⟩
      rcases recordAt_append.1 he' with hold | ⟨rfl, -, -⟩
      · exact absurd (hnone e' hold) (not_le.2 h)
      · exact le_refl _

end

/-! ## The list after each record -/

/-- The list has exactly one cell for each incarnation of the log, in the order in
which they began. -/
structure Analyzed (recs : List (Nat × Record)) (list : List RedoCell) : Prop where
  sorted : list.Pairwise fun c d => c.firstLsn < d.firstLsn
  mem_iff : ∀ c, c ∈ list ↔ FirstAt recs c.trid c.firstLsn ∧ Outcome recs c

namespace Analyzed

variable {recs : List (Nat × Record)} {list : List RedoCell} {lsn trid : Nat} {r : Record}

theorem nil : Analyzed [] [] :=
  ⟨List.Pairwise.nil, fun c => iff_of_false not_mem_nil fun h => by
    obtain ⟨⟨⟨q, hmem, -⟩, -⟩, -⟩ := h
    exact not_mem_nil hmem⟩

section

variable (h : Analyzed recs list)
include h

theorem exists_cell {f : Nat} (hf : FirstAt recs trid f) :
    ∃ c ∈ list, c.trid = trid ∧ c.firstLsn = f := by
  classical
  by_cases hend : ∃ e, FinishAt recs trid e ∧ f < e
  · obtain ⟨hfin, hlt⟩ := Nat.find_spec hend
    have hmin : ∀ e', FinishAt recs trid e' → f < e' → Nat.find hend ≤ e' :=
      fun e' he' hlt' => Nat.find_min' hend ⟨he', hlt'⟩
    obtain ⟨q, hmem, htrid, hne⟩ := hfin
    obtain ⟨status, hst⟩ := ne_none_iff_exists'.1 hne
    refine ⟨⟨trid, f, some (Nat.find hend), status⟩, (h.mem_iff _).mpr
      ⟨hf, .inr ⟨_, rfl, ?_, ?_⟩⟩,
      rfl, rfl⟩
    · exact ⟨⟨q, hmem, htrid, hne⟩, hlt, hmin⟩
    · exact ⟨q, hmem, htrid, hst⟩
  · refine ⟨⟨trid, f, none, .trnNotFinished⟩, (h.mem_iff _).2 ⟨hf, .inl ⟨rfl, rfl, ?_⟩⟩, rfl, rfl⟩
    exact fun e he => Nat.le_of_not_lt fun hlt => hend ⟨e, he, hlt⟩

theorem finish_after (hc : c ∈ list) (hne : c.finishStatus ≠ .trnNotFinished) :
    ∃ e, FinishAt recs c.trid e ∧ c.firstLsn < e := by
  obtain ⟨-, ⟨hopen, -⟩ | ⟨e, -, hends, -⟩⟩ := (h.mem_iff c).1 hc
  · exact absurd hopen hne
  · exact ⟨e, hends.1, hends.2.1⟩

theorem no_finish_after (hc : c ∈ list) (hopen : c.finishStatus = .trnNotFinished) :
    c.endLsn = none ∧ ∀ e, FinishAt recs c.trid e → e ≤ c.firstLsn := by
  obtain ⟨-, ⟨-, hend⟩ | ⟨e, -, -, hend⟩⟩ := (h.mem_iff c).1 hc
  · exact hend
  · exact absurd hopen (EndAt.finishAt hend).2

theorem ended_of_noneOpen (hinc : Increasing recs) (hnone : NoneOpen trid list) :
    Ended recs trid := by
  intro l hl
  obtain ⟨f, -, hfst, hafter⟩ := exists_firstAt hinc hl
  obtain ⟨c, hc, htrid, rfl⟩ := h.exists_cell hfst
  rcases hnone with hnone | ⟨front, d, back, hlast, hfinished⟩
  · exact absurd htrid (hnone c hc)
  · have hd : d ∈ list := by simp [hlast.cut]
    have hsort := h.sorted
    rw [hlast.cut, pairwise_append] at hsort
    rw [hlast.cut, mem_append, mem_cons] at hc
    -- the cell of the record stands before the last one of the transaction, or is it
    rcases hc with hc | rfl | hc
    · have hlt := hsort.2.2 c hc d (by simp)
      obtain ⟨hdfirst, -⟩ := (h.mem_iff d).1 hd
      rw [hlast.trid_eq] at hdfirst
      obtain ⟨e, he, hlte, -⟩ := hdfirst.2 c.firstLsn hlt hfst.1
      exact ⟨e, he, hafter e he hlte⟩
    · obtain ⟨e, he, hlte⟩ := h.finish_after hd hfinished
      rw [htrid] at he
      exact ⟨e, he, hafter e he hlte⟩
    · exact absurd htrid (hlast.last c hc)

theorem not_ended_of_open (hc : c ∈ list) (hopen : c.finishStatus = .trnNotFinished) :
    ¬ Ended recs c.trid := by
  intro hended
  obtain ⟨e, he, hlt⟩ := hended _ ((h.mem_iff c).1 hc).1.1
  exact absurd ((h.no_finish_after hc hopen).2 e he) (not_le.2 hlt)

end

variable (hlt : ∀ x ∈ recs, x.1 < lsn)
include hlt

section

variable (h : Analyzed recs list)
include h

theorem other (hlog : ¬ r.IsLogical) (hfin : r.finish = none) :
    Analyzed (recs ++ [(lsn, r)]) list := by
  refine ⟨h.sorted, fun c => ?_⟩
  rw [firstAt_append_of_not_logical hlt hlog, outcome_append_of_no_finish (.inl hfin),
    h.mem_iff]

theorem logical_again (hlog : r.IsLogical) (hended : ¬ Ended recs r.trid) :
    Analyzed (recs ++ [(lsn, r)]) list := by
  refine ⟨h.sorted, fun c => ?_⟩
  rw [firstAt_append hlt, h.mem_iff,
    outcome_append_of_no_finish (.inl (finish_eq_none_of_isLogical hlog))]
  refine and_congr_left fun _ => (or_iff_left ?_).symm
  rintro ⟨-, htrid, -, hend⟩
  exact hended (htrid ▸ hend)

theorem logical_first (hlog : r.IsLogical) (hended : Ended recs r.trid) :
    Analyzed (recs ++ [(lsn, r)]) (list ++ [⟨r.trid, lsn, none, .trnNotFinished⟩]) := by
  refine ⟨?_, fun c => ?_⟩
  · rw [pairwise_append]
    refine ⟨h.sorted, pairwise_singleton _ _, fun c hc d hd => ?_⟩
    rw [mem_singleton.1 hd]
    exact ((h.mem_iff c).1 hc).1.1.lt hlt
  · rw [mem_append, mem_singleton, firstAt_append hlt, h.mem_iff,
      outcome_append_of_no_finish (.inl (finish_eq_none_of_isLogical hlog)), or_and_right]
    refine or_congr_right ⟨?_, ?_⟩
    · rintro rfl
      exact ⟨⟨rfl, rfl, hlog, hended⟩, .inl ⟨rfl, rfl, fun e he => le_of_lt (he.lt hlt)⟩⟩
    · rintro ⟨⟨hfst, htrid, -, -⟩, ⟨hst, hend, -⟩ | ⟨e, -, hends, -⟩⟩
      · cases c
        simp_all
      · rw [hfst] at hends
        exact absurd (hends.1.lt hlt) (not_lt.2 (le_of_lt hends.2.1))

theorem finish_none (hr : r.finish = some status) (hlog : ¬ r.IsLogical)
    (hended : Ended recs r.trid) : Analyzed (recs ++ [(lsn, r)]) list := by
  refine ⟨h.sorted, fun c => ?_⟩
  rw [firstAt_append_of_not_logical hlt hlog, h.mem_iff]
  refine and_congr_right fun hfst => ?_
  by_cases htrid : r.trid = c.trid
  · rw [outcome_append_of_finish hlt hr htrid (hfst.1.lt hlt)]
    obtain ⟨e, he, hlte⟩ := hended c.firstLsn (htrid ▸ hfst.1)
    rw [htrid] at he
    have hclosed : ¬ ∀ e, FinishAt recs c.trid e → e ≤ c.firstLsn :=
      fun hall => absurd (hall e he) (not_le.2 hlte)
    constructor
    · intro hout
      refine .inl ⟨fun hopen => ?_, hout⟩
      rcases hout with ⟨-, -, hall⟩ | ⟨e', -, -, hend⟩
      · exact hclosed hall
      · exact (EndAt.finishAt hend).2 hopen
    · rintro (⟨-, hout⟩ | ⟨-, -, hall⟩)
      · exact hout
      · exact absurd hall hclosed
  · rw [outcome_append_of_no_finish (.inr htrid)]

theorem finish_last (hr : r.finish = some status) (hlog : ¬ r.IsLogical)
    {front back : List RedoCell} (hlast : LastOf r.trid list front c back)
    (hopen : c.finishStatus = .trnNotFinished) :
    Analyzed (recs ++ [(lsn, r)])
      (front ++ { c with finishStatus := status, endLsn := some lsn } :: back) := by
  have hsort := h.sorted
  rw [hlast.cut, pairwise_append, pairwise_cons] at hsort
  have hc : c ∈ list := by simp [hlast.cut]
  obtain ⟨hcfirst, -⟩ := (h.mem_iff c).1 hc
  obtain ⟨hcend, hcnone⟩ := h.no_finish_after hc hopen
  -- the open cell is the only one of its transaction that has no end
  have honly : ∀ d : RedoCell, FirstAt recs d.trid d.firstLsn → r.trid = d.trid →
      (∀ e, FinishAt recs d.trid e → e ≤ d.firstLsn) → d.firstLsn = c.firstLsn := by
    intro d hd htrid hnone
    rw [← htrid, ← hlast.trid_eq] at hd hnone
    rcases lt_trichotomy d.firstLsn c.firstLsn with hltc | heq | hgt
    · obtain ⟨e, he, hde, -⟩ := hcfirst.2 _ hltc hd.1
      exact absurd (hnone e he) (not_le.2 hde)
    · exact heq
    · obtain ⟨e, he, hce, -⟩ := hd.2 _ hgt hcfirst.1
      exact absurd (hcnone e he) (not_le.2 hce)
  refine ⟨?_, fun d => ?_⟩
  · rw [pairwise_append, pairwise_cons]
    refine ⟨hsort.1, hsort.2.1, fun a ha => ?_⟩
    exact forall_mem_cons.2 (forall_mem_cons.1 (hsort.2.2 a ha))
  · have hmem : d ∈ front ++ { c with finishStatus := status, endLsn := some lsn } :: back ↔
        (d ∈ list ∧ d.firstLsn ≠ c.firstLsn) ∨
          d = { c with finishStatus := status, endLsn := some lsn } := by
      rw [hlast.cut, mem_append, mem_append, mem_cons]
      grind
    rw [hmem, firstAt_append_of_not_logical hlt hlog, h.mem_iff]
    by_cases htrid : r.trid = d.trid
    · constructor
      · rintro (⟨⟨hfst, hout⟩, hne⟩ | rfl)
        · refine ⟨hfst, (outcome_append_of_finish hlt hr htrid (hfst.1.lt hlt)).mpr
            (.inl ⟨fun hdopen => hne (honly d hfst htrid ?_), hout⟩)⟩
          exact (h.no_finish_after ((h.mem_iff d).2 ⟨hfst, hout⟩) hdopen).2
        · exact ⟨hcfirst, (outcome_append_of_finish hlt hr htrid (hcfirst.1.lt hlt)).mpr
            (.inr ⟨rfl, rfl, hcnone⟩)⟩
      · rintro ⟨hfst, hout⟩
        rcases (outcome_append_of_finish hlt hr htrid (hfst.1.lt hlt)).1 hout with
          ⟨hdne, hold⟩ | ⟨hst, hend, hnone⟩
        · refine .inl ⟨⟨hfst, hold⟩, fun heq => ?_⟩
          obtain ⟨e, he, hde⟩ := h.finish_after ((h.mem_iff d).2 ⟨hfst, hold⟩) hdne
          rw [← htrid, ← hlast.trid_eq] at he
          exact absurd (hcnone e he) (by omega)
        · have hfst' := honly d hfst htrid hnone
          have htrid' := htrid.symm.trans hlast.trid_eq.symm
          refine .inr ?_
          cases d
          simp_all
    · rw [outcome_append_of_no_finish (.inr htrid)]
      constructor
      · rintro (⟨hd, -⟩ | rfl)
        · exact hd
        · exact absurd hlast.trid_eq.symm htrid
      · rintro ⟨hfst, hout⟩
        refine .inl ⟨⟨hfst, hout⟩, fun heq => ?_⟩
        -- one LSN has one record, and with it one transaction
        have hnd : (list.map RedoCell.firstLsn).Nodup :=
          pairwise_map.2 (h.sorted.imp Nat.ne_of_lt)
        obtain rfl := inj_on_of_nodup_map hnd ((h.mem_iff d).2 ⟨hfst, hout⟩) hc heq
        exact htrid hlast.trid_eq.symm

end

end Analyzed

theorem analyze_step {recs : List (Nat × Record)} {list : List RedoCell} {m : RedoMemory}
    {lsn : Nat} {r : Record} (h : Analyzed recs list) (hm : Holds m list)
    (hinc : Increasing recs) (hlt : ∀ x ∈ recs, x.1 < lsn) :
    ∃ list', Holds (llProcessRecord llRcvAnalyzeRecs AnalyzeFun.run none lsn r m) list' ∧
      Analyzed (recs ++ [(lsn, r)]) list' := by
  rcases llProcessRecord_analyze lsn r m with ⟨hlog, hrun⟩ | ⟨status, hfin, hrun⟩ |
    ⟨hlog, hfin, hrun⟩
  · rw [hrun]
    rcases llRcvAnalyzeLogicalRec_holds hm lsn r with
      ⟨hnone, hm'⟩ | ⟨front, c, back, hlast, hopen, hm'⟩
    · exact ⟨_, hm', h.logical_first hlt hlog (h.ended_of_noneOpen hinc hnone)⟩
    · have hc : c ∈ list := by simp [hlast.cut]
      exact ⟨_, hm', h.logical_again hlt hlog (hlast.trid_eq ▸ h.not_ended_of_open hc hopen)⟩
  · rw [hrun]
    have hlog : ¬ r.IsLogical := fun hlog => by
      rw [finish_eq_none_of_isLogical hlog] at hfin
      cases hfin
    rcases llRcvAnalyzeFinishRec_holds hm status lsn r with
      ⟨hnone, hm'⟩ | ⟨front, c, back, hlast, hopen, hm'⟩
    · exact ⟨_, hm', h.finish_none hlt hfin hlog (h.ended_of_noneOpen hinc hnone)⟩
    · exact ⟨_, hm', h.finish_last hlt hfin hlog hlast hopen⟩
  · rw [hrun]
    exact ⟨list, hm, h.other hlt hlog hfin⟩

theorem analyze_run {recs more : List (Nat × Record)} {list : List RedoCell} {m : RedoMemory}
    (h : Analyzed recs list) (hm : Holds m list) (hinc : Increasing (recs ++ more)) :
    ∃ list', Holds (more.foldl (fun m x =>
        llProcessRecord llRcvAnalyzeRecs AnalyzeFun.run none x.1 x.2 m) m) list' ∧
      Analyzed (recs ++ more) list' := by
  induction more generalizing recs list m with
  | nil => exact ⟨list, hm, by simpa using h⟩
  | cons x more ih =>
    obtain ⟨hrecs, -, hlt⟩ := pairwise_append.1 hinc
    obtain ⟨list', hm', h'⟩ := analyze_step h hm hrecs fun y hy => hlt y hy x (by simp)
    obtain ⟨list'', hm'', h''⟩ := ih h' hm' (by simpa using hinc)
    exact ⟨list'', hm'', by simpa using h''⟩

/-! ## What the list answers -/

section

variable {m : RedoMemory} {before rest : List Nat} {front back list : List RedoCell} {fuel : Nat}

theorem highRcvLSN_spec {acc : Nat} (h : HoldsAt m (before ++ rest) (front ++ back))
    (hback : rest.map m.cellAt = back.map some) (hfuel : rest.length ≤ fuel) :
    acc ≤ highRcvLSN m fuel rest.head? acc ∧
      (∀ c ∈ back, ∀ e ∈ c.endLsn, e ≤ highRcvLSN m fuel rest.head? acc) ∧
      (highRcvLSN m fuel rest.head? acc = acc ∨
        ∃ c ∈ back, c.endLsn = some (highRcvLSN m fuel rest.head? acc)) := by
  induction rest generalizing before front back fuel acc with
  | nil =>
    obtain rfl : back = [] := by simpa using hback.symm
    simp [highRcvLSN]
  | cons k rest ih =>
    rw [length_cons] at hfuel
    obtain _ | fuel := fuel
    · omega
    obtain ⟨cell, tail, rfl, hcell, -, hnext, htail, hwalk⟩ := h.next hback
    have hrest := fun acc => @ih _ _ tail fuel acc hwalk htail (by omega)
    simp only [head?_cons, highRcvLSN, hcell, hnext, forall_mem_cons, exists_mem_cons_iff]
    rcases hend : cell.endLsn with - | e
    · obtain ⟨hacc, hall, hone⟩ := hrest acc
      exact ⟨hacc, ⟨by simp, hall⟩, hone.imp id .inr⟩
    · by_cases hgt : e > acc
      · obtain ⟨hacc, hall, hone⟩ := hrest e
        simp only [if_pos hgt]
        refine ⟨by omega, ⟨by simpa using hacc, hall⟩, .inr ?_⟩
        exact hone.imp (fun heq => by rw [heq]) id
      · obtain ⟨hacc, hall, hone⟩ := hrest acc
        simp only [if_neg hgt]
        refine ⟨hacc, ⟨?_, hall⟩, hone.imp id .inr⟩
        intro e' he'
        obtain rfl : e = e' := by simpa using he'
        omega

theorem findTrnCell_mem {trid lsn p : Nat} (h : HoldsAt m (before ++ rest) (front ++ back))
    (hback : rest.map m.cellAt = back.map some)
    (hfind : m.findTrnCell trid lsn fuel rest.head? = some p) :
    ∃ cell, m.cells p = some cell ∧ cell.toRedoCell ∈ back := by
  induction rest generalizing before front back fuel with
  | nil => simp [findTrnCell] at hfind
  | cons k rest ih =>
    obtain ⟨cell, tail, rfl, hcell, -, hnext, htail, hwalk⟩ := h.next hback
    cases fuel with
    | zero => simp [findTrnCell] at hfind
    | succ fuel =>
      simp only [head?_cons, findTrnCell, hcell] at hfind
      split at hfind
      · obtain rfl := some.inj hfind
        exact ⟨cell, hcell, by simp⟩
      · rw [hnext] at hfind
        obtain ⟨d, hd, hmem⟩ := ih hwalk htail hfind
        exact ⟨d, hd, mem_cons_of_mem _ hmem⟩

theorem llFindTrnCell_isSome (h : Holds m list) {trid lsn : Nat} :
    (llFindTrnCell m trid lsn).isSome ↔
      ∃ c ∈ list, c.trid = trid ∧ c.firstLsn ≤ lsn ∧ ∀ e ∈ c.endLsn, lsn ≤ e := by
  obtain ⟨keys, hkeys⟩ := h
  rw [llFindTrnCell, hkeys.root]
  exact @findTrnCell_isSome m [] keys [] list m.top trid lsn hkeys hkeys.data hkeys.length_le

theorem llRcvPrereqRedo_eq (h : Holds m list)
    (hcom : ∀ c ∈ list, c.finishStatus = .trnCommitFinished) (lsn : Nat) (r : Record) :
    llRcvPrereqRedo m lsn r = (llFindTrnCell m r.trid lsn).isSome := by
  obtain ⟨keys, hkeys⟩ := h
  unfold llRcvPrereqRedo
  cases hfind : llFindTrnCell m r.trid lsn with
  | none => rfl
  | some p =>
    rw [llFindTrnCell, hkeys.root] at hfind
    obtain ⟨cell, hcell, hmem⟩ :=
      @findTrnCell_mem m [] keys [] list m.top r.trid lsn p hkeys hkeys.data hfind
    simp [hcell, hcom _ hmem]

end

/-! ## The suffix of a log -/

section

variable {σ τ : Type*} {get : GetRecord σ} {ready : σ → Prop} {highLSNBoundary : Nat}
  {start : Nat} {recs : List (Nat × Record)}

/-- The records from an LSN to the end of the log, as the reader gives them: the next
one is asked for where the last one ends, and may be found further on, in the next
file. -/
inductive LogSuffix (get : GetRecord σ) (ready : σ → Prop) (highLSNBoundary : Nat) :
    Nat → List (Nat × Record) → Prop
  | out {lsn : Nat} (hread : Reads get ready lsn none) : LogSuffix get ready highLSNBoundary lsn []
  | last {lsn lsn' : Nat} {r : Record} (hread : Reads get ready lsn (some (lsn', r)))
      (hle : lsn ≤ lsn') (hend : highLSNBoundary ≤ lsn' + llGetRecordSize r) :
      LogSuffix get ready highLSNBoundary lsn [(lsn', r)]
  | more {lsn lsn' : Nat} {r : Record} {recs : List (Nat × Record)}
      (hread : Reads get ready lsn (some (lsn', r))) (hle : lsn ≤ lsn')
      (hend : lsn' + llGetRecordSize r < highLSNBoundary)
      (hrest : LogSuffix get ready highLSNBoundary (lsn' + llGetRecordSize r) recs) :
      LogSuffix get ready highLSNBoundary lsn ((lsn', r) :: recs)

section

variable (h : LogSuffix get ready highLSNBoundary start recs)
include h

theorem LogSuffix.visits :
    Visits get ready (Logican.llGetNextRcvRec highLSNBoundary) (some start) recs := by
  induction h with
  | out hread => exact .off hread
  | last hread _ hend =>
    refine .step hread ?_
    rw [Logican.llGetNextRcvRec, if_pos hend]
    exact .stop
  | more hread _ hend _ ih =>
    refine .step hread ?_
    rw [Logican.llGetNextRcvRec, if_neg (by omega)]
    exact ih

theorem LogSuffix.start_le : ∀ x ∈ recs, start ≤ x.1 := by
  induction h with
  | out _ => simp
  | last hread hle hend => simpa using hle
  | more _ hle _ _ ih =>
    intro x hx
    rcases mem_cons.1 hx with rfl | hx
    · exact hle
    · have hx := ih x hx
      omega

theorem LogSuffix.increasing : Increasing recs := by
  induction h with
  | out _ => exact List.Pairwise.nil
  | last _ _ _ => exact pairwise_singleton _ _
  | @more lsn lsn' r recs hread hle hend hrest ih =>
    refine List.Pairwise.cons (fun x hx => ?_) ih
    have hx := hrest.start_le x hx
    have hpos := llGetRecordSize_pos r
    omega

theorem LogSuffix.redo {high : Nat} (hhigh : ∃ x ∈ recs, high ≤ x.1) :
    ∃ seen unseen, recs = seen ++ unseen ∧ (∀ x ∈ unseen, high < x.1) ∧
      Visits get ready (Logicrcv.llGetNextRcvRec high) (some start) seen := by
  induction h with
  | out _ => simp at hhigh
  | @last lsn lsn' r hread hle hend =>
    obtain ⟨x, hx, hhigh⟩ := hhigh
    rw [mem_singleton.1 hx] at hhigh
    have hpos := llGetRecordSize_pos r
    have hstop : high < lsn' + llGetRecordSize r := lt_of_le_of_lt hhigh (by omega)
    refine ⟨[(lsn', r)], [], by simp, by simp, .step hread ?_⟩
    rw [Logicrcv.llGetNextRcvRec, if_pos hstop]
    exact .stop
  | @more lsn lsn' r recs hread hle hend hrest ih =>
    by_cases hstop : high < lsn' + llGetRecordSize r
    · refine ⟨[(lsn', r)], recs, by simp, fun x hx => ?_, .step hread ?_⟩
      · exact lt_of_lt_of_le hstop (hrest.start_le x hx)
      · rw [Logicrcv.llGetNextRcvRec, if_pos hstop]
        exact .stop
    · have htail : ∃ x ∈ recs, high ≤ x.1 := by
        obtain ⟨x, hx, hle⟩ := hhigh
        rcases mem_cons.1 hx with rfl | hx
        · exact absurd (lt_of_le_of_lt hle (Nat.lt_add_of_pos_right (llGetRecordSize_pos r)))
            hstop
        · exact ⟨x, hx, hle⟩
      obtain ⟨seen, unseen, rfl, hunseen, hvis⟩ := ih htail
      refine ⟨(lsn', r) :: seen, unseen, by simp, hunseen, .step hread ?_⟩
      rw [Logicrcv.llGetNextRcvRec, if_neg hstop]
      exact hvis

end

end

/-! ## The redo list is exact -/

section

variable {recs : List (Nat × Record)} {list : List RedoCell} {m : RedoMemory}

structure RedoCells (recs : List (Nat × Record)) (list : List RedoCell) : Prop where
  sorted : list.Pairwise fun c d => c.firstLsn < d.firstLsn
  mem_iff : ∀ c, c ∈ list ↔ FirstAt recs c.trid c.firstLsn ∧
    c.finishStatus = .trnCommitFinished ∧
    ∃ e, c.endLsn = some e ∧ EndsAt recs c.trid c.firstLsn e ∧ CommitAt recs c.trid e

theorem Analyzed.redoCells (h : Analyzed recs list) :
    RedoCells recs (list.filter fun c => c.finishStatus = .trnCommitFinished) := by
  refine ⟨h.sorted.filter _, fun c => ?_⟩
  rw [mem_filter, decide_eq_true_eq, h.mem_iff, and_assoc]
  refine and_congr_right fun _ => ⟨?_, ?_⟩
  · rintro ⟨⟨hopen, -⟩ | ⟨e, hend, hends, hst⟩, hcom⟩
    · rw [hopen] at hcom
      cases hcom
    · rw [hcom] at hst
      exact ⟨hcom, e, hend, hends, hst⟩
  · rintro ⟨hcom, e, hend, hends, hat⟩
    exact ⟨.inr ⟨e, hend, hends, by rwa [hcom]⟩, hcom⟩

theorem RedoCells.covers_iff (h : RedoCells recs list) (hinc : Increasing recs) {trid lsn : Nat}
    (hl : LogicalAt recs trid lsn) :
    (∃ c ∈ list, c.trid = trid ∧ c.firstLsn ≤ lsn ∧ ∀ e ∈ c.endLsn, lsn ≤ e) ↔
      Committed recs trid lsn := by
  constructor
  · rintro ⟨c, hc, rfl, hfst, hcover⟩
    obtain ⟨-, -, e, hend, ⟨hfin, -, hmin⟩, hcom⟩ := (h.mem_iff c).1 hc
    have hle : lsn ≤ e := hcover e (by simp [hend])
    have hne := hl.ne_finish hinc hfin
    refine ⟨e, ⟨hfin, by omega, fun e' he' hlt => hmin e' he' (by omega)⟩, hcom⟩
  · rintro ⟨e, ⟨hfin, hlt, hmin⟩, hcom⟩
    obtain ⟨f, hf, hfst, hafter⟩ := exists_firstAt hinc hl
    refine ⟨⟨trid, f, some e, .trnCommitFinished⟩, (h.mem_iff _).mpr
      ⟨hfst, rfl, e, rfl, ?_, hcom⟩,
      rfl, hf, by simpa using le_of_lt hlt⟩
    exact ⟨hfin, by show f < e; omega, fun e' he' hlt' => hmin e' he' (hafter e' he' hlt')⟩

variable {σ τ : Type*} {get : GetRecord σ} {ready : σ → Prop} {highLSNBoundary start : Nat}

theorem llGetRedoList_holds (hlog : LogSuffix get ready highLSNBoundary start recs) {fuel : Nat}
    (hfuel : recs.length < fuel) {s : σ} (hs : ready s) :
    ∃ s' m list, ready s' ∧
      llGetRedoList get highLSNBoundary fuel (some start) s = some (s', m) ∧
      Holds m list ∧ RedoCells recs list := by
  obtain ⟨s', hs', hscan⟩ := hlog.visits.scan llRcvAnalyzeRecs AnalyzeFun.run none hfuel hs initial
  obtain ⟨all, ⟨keys, hkeys⟩, hall⟩ := @analyze_run [] recs [] initial Analyzed.nil holds_initial
    (by simpa using hlog.increasing)
  generalize recs.foldl (fun t x => llProcessRecord llRcvAnalyzeRecs AnalyzeFun.run none x.1 x.2 t)
    initial = scanned at hscan hkeys
  refine ⟨s', removeUnneeded scanned.top scanned.rcvList scanned, _, hs',
    by rw [llGetRedoList, hscan], ?_, hall.redoCells⟩
  rw [hkeys.root]
  exact @removeUnneeded_holds _ [] keys [] all _ hkeys rfl hkeys.data hkeys.length_le

theorem foldl_llProcessRecord (run : RcvFun → Nat → Record → τ → τ)
    (prereq : Nat → Record → Bool) (recs : List (Nat × Record)) (t : τ) :
    recs.foldl (fun t x => llProcessRecord llRcvLogRecsInfo run (some prereq) x.1 x.2 t) t =
      (recs.filter fun x => x.2.op.toNat < llCommit.ctorIdx ∧ prereq x.1 x.2).foldl
        (fun t x => llProcessRecord llRcvLogRecsInfo run none x.1 x.2 t) t := by
  induction recs generalizing t with
  | nil => rfl
  | cons x recs ih =>
    have hfind := isSome_llFindRecInfo_rcv x.2.op
    rw [foldl_cons, ih, filter_cons]
    by_cases hx : x.2.op.toNat < llCommit.ctorIdx ∧ prereq x.1 x.2
    · rw [if_pos (by simpa using hx)]
      simp [llProcessRecord, hx.2]
    · rw [if_neg (by simpa using hx)]
      unfold llProcessRecord
      cases hf : llFindRecInfo llRcvLogRecsInfo x.2.op with
      | none => rfl
      | some f =>
        have hlt := hfind.1 (by rw [hf]; rfl)
        have hno : prereq x.1 x.2 = false := by simpa [hlt] using hx
        simp [hno]

theorem llRcvRedoTrns_eq (hlog : LogSuffix get ready highLSNBoundary start recs)
    (hm : Holds m list) (hlist : RedoCells recs list) (run : RcvFun → Nat → Record → τ → τ)
    {fuel : Nat} (hfuel : recs.length < fuel) {s : σ} (hs : ready s) (t : τ) :
    ∃ s', llRcvRedoTrns get run m fuel (some start) s t =
      some (s', (recs.filter fun x => x.2.op.toNat < llCommit.ctorIdx ∧
          (llFindTrnCell m x.2.trid x.1).isSome).foldl
        (fun t x => llProcessRecord llRcvLogRecsInfo run none x.1 x.2 t) t) := by
  have hcom : ∀ c ∈ list, c.finishStatus = .trnCommitFinished :=
    fun c hc => ((hlist.mem_iff c).1 hc).2.1
  have hprereq := llRcvPrereqRedo_eq hm hcom
  obtain ⟨keys, hkeys⟩ := hm
  unfold llRcvRedoTrns
  cases hroot : m.rcvList with
  | none =>
    refine ⟨s, ?_⟩
    rw [filter_eq_nil_iff.mpr]
    · rfl
    · intro x _
      simp [llFindTrnCell, hroot, findTrnCell]
  | some p =>
    obtain ⟨-, hhigh, hone⟩ :=
      @highRcvLSN_spec m [] keys [] list m.top 0 hkeys hkeys.data hkeys.length_le
    rw [← hkeys.root] at hhigh hone
    -- the upper bound is the LSN of a commit record
    have hsome : ∃ x ∈ recs, llGetHighRcvLSN m ≤ x.1 := by
      rcases hone with hzero | ⟨c, hc, hend⟩
      · obtain ⟨c, back, rfl⟩ : ∃ c back, list = c :: back := by
          cases list with
          | nil =>
            have hnil : keys = [] := by simpa using hkeys.data
            rw [hkeys.root, hnil] at hroot
            cases hroot
          | cons c back => exact ⟨c, back, rfl⟩
        obtain ⟨⟨⟨q, hq, -⟩, -⟩, -⟩ := (hlist.mem_iff c).1 (by simp)
        exact ⟨_, hq, by rw [llGetHighRcvLSN, hzero]; exact Nat.zero_le _⟩
      · obtain ⟨-, -, e, hend', -, ⟨q, hq, -⟩⟩ := (hlist.mem_iff c).1 hc
        obtain rfl := some.inj (hend.symm.trans hend')
        exact ⟨_, hq, le_refl _⟩
    obtain ⟨seen, unseen, rfl, hunseen, hvis⟩ := hlog.redo hsome
    rw [length_append] at hfuel
    obtain ⟨s', -, hscan⟩ := hvis.scan llRcvLogRecsInfo run (some (llRcvPrereqRedo m))
      (by omega : seen.length < fuel) hs t
    refine ⟨s', ?_⟩
    have hnone : unseen.filter (fun x => x.2.op.toNat < llCommit.ctorIdx ∧
        (llFindTrnCell m x.2.trid x.1).isSome) = [] := by
      apply filter_eq_nil_iff.mpr
      intro x hx
      have hcover := @llFindTrnCell_isSome m list ⟨keys, hkeys⟩ x.2.trid x.1
      simp only [decide_eq_true_eq, not_and, hcover]
      rintro - ⟨c, hc, -, -, hle⟩
      obtain ⟨-, -, e, hend, -⟩ := (hlist.mem_iff c).1 hc
      have hxe := hle e (by simp [hend])
      have hehigh : e ≤ llGetHighRcvLSN m := hhigh c hc e (by simp [hend])
      have hx := hunseen x hx
      omega
    simp only [hscan, foldl_llProcessRecord, hprereq, filter_append, hnone, append_nil]

/-- The analysis of a log suffix returns exactly one cell for each incarnation of a
transaction identifier that committed and has a logical record in the suffix, with
the LSN of its first logical record and of its commit record.  A logical record is
found in the list exactly if the incarnation that wrote it committed, and the redo
replays exactly those records, in their order. -/
theorem redo_list_exact (hlog : LogSuffix get ready highLSNBoundary start recs) {fuel : Nat}
    (hfuel : recs.length < fuel) {s : σ} (hs : ready s)
    (run : RcvFun → Nat → Record → τ → τ) (t : τ) :
    ∃ s' m list, llGetRedoList get highLSNBoundary fuel (some start) s = some (s', m) ∧
      Holds m list ∧
      (list.Pairwise fun c d => c.firstLsn < d.firstLsn) ∧
      (∀ c, c ∈ list ↔ FirstAt recs c.trid c.firstLsn ∧
        c.finishStatus = .trnCommitFinished ∧
        ∃ e, c.endLsn = some e ∧ EndsAt recs c.trid c.firstLsn e ∧ CommitAt recs c.trid e) ∧
      (∀ trid lsn, LogicalAt recs trid lsn →
        ((llFindTrnCell m trid lsn).isSome ↔ Committed recs trid lsn)) ∧
      ∃ (s'' : σ) (replayed : List (Nat × Record)), replayed.Sublist recs ∧
        (∀ x, x ∈ replayed ↔ x ∈ recs ∧ x.2.IsLogical ∧ Committed recs x.2.trid x.1) ∧
        llRcvRedoTrns get run m fuel (some start) s' t =
          some (s'', replayed.foldl
            (fun t x => llProcessRecord llRcvLogRecsInfo run none x.1 x.2 t) t) := by
  obtain ⟨s', m, list, hs', hget, hm, hlist⟩ := llGetRedoList_holds hlog hfuel hs
  have hfind : ∀ trid lsn, LogicalAt recs trid lsn →
      ((llFindTrnCell m trid lsn).isSome ↔ Committed recs trid lsn) := fun trid lsn hl =>
    (llFindTrnCell_isSome hm).trans (hlist.covers_iff hlog.increasing hl)
  obtain ⟨s'', hredo⟩ := llRcvRedoTrns_eq hlog hm hlist run hfuel hs' t
  refine ⟨s', m, list, hget, hm, hlist.sorted, hlist.mem_iff, hfind, s'', _,
    filter_sublist, fun x => ?_, hredo⟩
  rw [mem_filter, decide_eq_true_eq]
  refine and_congr_right fun hx => and_congr_right fun hlogical => hfind x.2.trid x.1 ?_
  exact ⟨x.2, hx, rfl, hlogical⟩

end

/-- A log in which identifier 1 is used again after its commit, and identifier 2 is
rolled back. -/
def reusedLog : List (Nat × Record) :=
  [(512, ⟨none, LlOperations.llInsertElem.code :: le 4 1⟩),
   (533, ⟨none, LlOperations.llInsertElem.code :: le 4 2⟩),
   (554, ⟨some 512, LlOperations.llCommit.code :: le 4 1⟩),
   (575, ⟨none, LlOperations.llDeleteText.code :: le 4 1⟩),
   (596, ⟨some 533, LlOperations.llRollback.code :: le 4 2⟩)]

def reusedLogGet : GetRecord Unit := fun _ lsn => some (reusedLog.find? fun x => x.1 = lsn, ())

theorem logSuffix_reusedLog : LogSuffix reusedLogGet (fun _ => True) 617 512 reusedLog := by
  have hget : ∀ x ∈ reusedLog, reusedLogGet () x.1 = some (some x, ()) := by decide
  have hreads : ∀ {lsn r}, (lsn, r) ∈ reusedLog →
      Reads reusedLogGet (fun _ => True) lsn (some (lsn, r)) :=
    fun hmem _ _ => ⟨(), hget _ hmem, trivial⟩
  refine .more (hreads (by decide)) (by decide) (by decide) ?_
  refine .more (hreads (by decide)) (by decide) (by decide) ?_
  refine .more (hreads (by decide)) (by decide) (by decide) ?_
  refine .more (hreads (by decide)) (by decide) (by decide) ?_
  exact .last (hreads (by decide)) (by decide) (by decide)

theorem redo_list_exact_reusedLog :
    ∃ s' m list, llGetRedoList reusedLogGet 617 6 (some 512) () = some (s', m) ∧
      Holds m list ∧
      (∀ c, c ∈ list ↔ FirstAt reusedLog c.trid c.firstLsn ∧
        c.finishStatus = .trnCommitFinished ∧
        ∃ e, c.endLsn = some e ∧ EndsAt reusedLog c.trid c.firstLsn e ∧
          CommitAt reusedLog c.trid e) ∧
      ∃ (s'' : Unit) (replayed : List (Nat × Record)),
        (∀ x, x ∈ replayed ↔ x ∈ reusedLog ∧ x.2.IsLogical ∧ Committed reusedLog x.2.trid x.1) ∧
        llRcvRedoTrns reusedLogGet (fun _ lsn _ (t : List Nat) => t ++ [lsn]) m 6 (some 512) s' [] =
          some (s'', replayed.foldl (fun t x => llProcessRecord llRcvLogRecsInfo
            (fun _ lsn _ t => t ++ [lsn]) none x.1 x.2 t) []) := by
  obtain ⟨s', m, list, hget, hm, -, hmem, -, s'', replayed, -, hreplayed, hredo⟩ :=
    redo_list_exact logSuffix_reusedLog (by decide : reusedLog.length < 6) trivial
      (fun _ lsn _ (t : List Nat) => t ++ [lsn]) []
  exact ⟨s', m, list, hget, hm, hmem, s'', replayed, hreplayed, hredo⟩

end Sedna.Log
