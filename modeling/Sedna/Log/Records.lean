import Sedna.Library.Fields

/-!
# Records of the logical log

The records of `llMain.cpp` as they lie in the read buffer, and the scan `llScanRecords` that
every pass over the log is made with.  An LSN field is an `Option Nat`: `none` is
`LFS_INVALID_LSN`.
-/

namespace Sedna.Log

open Library.Bytes List

abbrev Bytes := List UInt8

/-- The kinds of records, in the order of the source: the first byte of a record
is the number of its kind. -/
inductive LlOperations
  | llInsertElem
  | llDeleteElem
  | llInsertAttr
  | llDeleteAttr
  | llInsertText
  | llDeleteText
  | llInsertLeftText
  | llDeleteLeftText
  | llInsertRightText
  | llDeleteRightText
  | llInsertDoc
  | llDeleteDoc
  | llInsertComment
  | llDeleteComment
  | llInsertPi
  | llDeletePi
  | llInsertCollection
  | llDeleteCollection
  | llInsertNs
  | llDeleteNs
  | llInsertDocIndex
  | llDeleteDocIndex
  | llInsertColIndex
  | llDeleteColIndex
  | llInsertDocFtsIndex
  | llDeleteDocFtsIndex
  | llInsertColFtsIndex
  | llDeleteColFtsIndex
  | llInsertDocTrg
  | llDeleteDocTrg
  | llInsertColTrg
  | llDeleteColTrg
  | llRenameCollection
  | llCommit
  | llRollback
  | llCheckpoint
  | llFreeBlocks
  | llPersSnapshotAdd
  | llDecrease
  | llHbblock
  | llHbinfo
  | llDefault
  deriving DecidableEq

def LlOperations.code (op : LlOperations) : UInt8 := UInt8.ofNat op.ctorIdx

theorem code_toNat (op : LlOperations) : op.code.toNat = op.ctorIdx := by
  cases op <;> rfl

theorem code_inj {a b : LlOperations} : a.code = b.code ↔ a = b := by
  constructor
  · intro h
    have hidx : a.ctorIdx = b.ctorIdx := by rw [← code_toNat, ← code_toNat, h]
    rw [← LlOperations.ofNat_ctorIdx a, hidx, LlOperations.ofNat_ctorIdx]
  · exact congrArg LlOperations.code

/-- A record in the read buffer: the head of it and the bytes behind the head. -/
structure Record where
  prevLsn : Option Nat
  body : Bytes
  deriving DecidableEq

/-- `sizeof(llRecordHead)`: eight bytes for `prev_lsn`, four for `rec_len`, and
four that fill the structure up. -/
def recordHeadSize : Nat := 16

variable (r : Record)

def llGetRecordSize : Nat := recordHeadSize + r.body.length

theorem llGetRecordSize_pos : 0 < llGetRecordSize r := by
  unfold llGetRecordSize recordHeadSize
  omega

def llGetPrevLsnFromRecord : Option Nat := r.prevLsn

def Record.op : UInt8 := r.body.headD 0

def Record.trid : Nat := ofLe ((r.body.drop 1).take 4)

/-! ## The scan -/

section

variable {σ τ φ : Type*}

/-- The entry of a table of recovery functions for an operation: the entry at the
operation's own position, or else the first that names it or `LL_DEFAULT`. -/
def llFindRecInfo (recordsInfo : List (LlOperations × φ)) (cop : UInt8) : Option φ :=
  let search := (recordsInfo.find? fun info =>
    info.1.code = cop ∨ info.1 = .llDefault).map Prod.snd
  match recordsInfo[cop.toNat]? with
  | some (op, f) => if op.code = cop then some f else search
  | none => search

theorem llFindRecInfo_aligned {recordsInfo : List (LlOperations × φ)}
    (haligned : recordsInfo.map (fun info => info.1.ctorIdx) = List.range recordsInfo.length)
    (hlen : recordsInfo.length ≤ LlOperations.llDefault.ctorIdx) (cop : UInt8) :
    llFindRecInfo recordsInfo cop = recordsInfo[cop.toNat]?.map Prod.snd := by
  have hidx : ∀ (i : Nat) (info : LlOperations × φ), recordsInfo[i]? = some info →
      info.1.ctorIdx = i := by
    intro i info hinfo
    have hi : i < recordsInfo.length := (List.getElem?_eq_some_iff.1 hinfo).1
    have hget := congrArg (fun l => l[i]?) haligned
    rw [getElem?_map, hinfo, getElem?_range hi] at hget
    exact Option.some.inj hget
  unfold llFindRecInfo
  cases hinfo : recordsInfo[cop.toNat]? with
  | some info =>
    have hcode : info.1.code = cop := by
      apply UInt8.toNat_inj.mp
      rw [code_toNat, hidx _ _ hinfo]
    simp [hcode]
  | none =>
    have hge : recordsInfo.length ≤ cop.toNat := getElem?_eq_none_iff.1 hinfo
    -- no entry names the operation, and none is the default
    have hfind : recordsInfo.find? (fun info => info.1.code = cop ∨ info.1 = .llDefault) =
        none := by
      apply find?_eq_none.mpr
      intro info hmem
      obtain ⟨i, hi⟩ := getElem?_of_mem hmem
      have hlt : i < recordsInfo.length := (List.getElem?_eq_some_iff.1 hi).1
      have hctor := hidx i info hi
      simp only [decide_eq_true_eq, not_or]
      constructor
      · intro hcode
        rw [← hcode, code_toNat] at hge
        omega
      · intro hdefault
        rw [hdefault] at hctor
        omega
    simp only [hfind, Option.map_none]

def llProcessRecord (recordsInfo : List (LlOperations × φ)) (run : φ → Nat → Record → τ → τ)
    (funPrereq : Option (Nat → Record → Bool)) (lsn : Nat) (r : Record) (t : τ) : τ :=
  match llFindRecInfo recordsInfo r.op with
  | some f =>
    match funPrereq with
    | none => run f lsn r t
    | some prereq => if prereq lsn r then run f lsn r t else t
  | none => t

/-- `llGetRecordFromDisc` as a scan sees it: the reader may throw, it may answer
that there is no record, and it may correct the LSN it was asked for. -/
abbrev GetRecord (σ : Type*) := σ → Nat → Option (Option (Nat × Record) × σ)

/-- `llScanRecords`.  The result is `none` if the reader throws; the fuel bounds
the number of records read. -/
def llScanRecords (get : GetRecord σ) (recordsInfo : List (LlOperations × φ))
    (run : φ → Nat → Record → τ → τ) (funNextLSN : Nat → Record → Option Nat)
    (funPrereq : Option (Nat → Record → Bool)) :
    Nat → Option Nat → σ → τ → Option (σ × τ)
  | _, none, s, t => some (s, t)
  | 0, some _, _, _ => none
  | fuel + 1, some lsn, s, t =>
    match get s lsn with
    | none => none
    | some (none, s') => some (s', t)
    | some (some (lsn', r), s') =>
      llScanRecords get recordsInfo run funNextLSN funPrereq fuel (funNextLSN lsn' r) s'
        (llProcessRecord recordsInfo run funPrereq lsn' r t)

/-- A reader that is ready answers `answer` at the LSN, and is ready again. -/
def Reads (get : GetRecord σ) (ready : σ → Prop) (lsn : Nat)
    (answer : Option (Nat × Record)) : Prop :=
  ∀ s, ready s → ∃ s', get s lsn = some (answer, s') ∧ ready s'

inductive Visits (get : GetRecord σ) (ready : σ → Prop) (funNextLSN : Nat → Record → Option Nat) :
    Option Nat → List (Nat × Record) → Prop
  | stop : Visits get ready funNextLSN none []
  | off {lsn : Nat} (hread : Reads get ready lsn none) : Visits get ready funNextLSN (some lsn) []
  | step {lsn lsn' : Nat} {r : Record} {recs : List (Nat × Record)}
      (hread : Reads get ready lsn (some (lsn', r)))
      (hrest : Visits get ready funNextLSN (funNextLSN lsn' r) recs) :
      Visits get ready funNextLSN (some lsn) ((lsn', r) :: recs)

variable {get : GetRecord σ} {ready : σ → Prop} {funNextLSN : Nat → Record → Option Nat}

theorem Visits.scan {start : Option Nat} {recs : List (Nat × Record)}
    (h : Visits get ready funNextLSN start recs) (recordsInfo : List (LlOperations × φ))
    (run : φ → Nat → Record → τ → τ) (funPrereq : Option (Nat → Record → Bool))
    {fuel : Nat} (hfuel : recs.length < fuel) {s : σ} (hs : ready s) (t : τ) :
    ∃ s', ready s' ∧
      llScanRecords get recordsInfo run funNextLSN funPrereq fuel start s t =
        some (s', recs.foldl
          (fun t x => llProcessRecord recordsInfo run funPrereq x.1 x.2 t) t) := by
  induction h generalizing fuel s t with
  | stop => exact ⟨s, hs, by simp [llScanRecords]⟩
  | off hread =>
    obtain ⟨s', hget, hs'⟩ := hread s hs
    obtain _ | fuel := fuel
    · omega
    exact ⟨s', hs', by simp [llScanRecords, hget]⟩
  | @step lsn lsn' r recs hread hrest ih =>
    obtain ⟨s', hget, hs'⟩ := hread s hs
    obtain _ | fuel := fuel
    · omega
    obtain ⟨s'', hs'', hscan⟩ := ih (Nat.lt_of_succ_lt_succ hfuel) hs'
      (llProcessRecord recordsInfo run funPrereq lsn' r t)
    exact ⟨s'', hs'', by simp [llScanRecords, hget, hscan]⟩

end

end Sedna.Log
