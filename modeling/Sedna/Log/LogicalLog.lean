import Sedna.Log.Storage

/-!
# The logical log

The functions of `llMain.cpp` over the storage: records with their heads, the table of
transactions, the chain of physical records, and the header that is written at every flush.  A
call is one step.
-/

namespace Sedna.Log

open Library.Bytes

/-! ## Records as bytes -/

def lfsInvalidLsn : Nat := 2 ^ 64 - 1

def encodeLsn (lsn : Option Nat) : Bytes := le 8 (lsn.getD lfsInvalidLsn)

def decodeLsn (bytes : Bytes) : Option Nat :=
  if ofLe bytes = lfsInvalidLsn then none else some (ofLe bytes)

/-- `llRecordHead` and the record.  Four bytes that no field uses fill the head up. -/
def Record.bytes (r : Record) : Bytes :=
  encodeLsn r.prevLsn ++ le 4 r.body.length ++ le 4 0 ++ r.body

def Record.ofBytes (bytes : Bytes) : Record :=
  { prevLsn := decodeLsn (bytes.take 8), body := bytes.drop recordHeadSize }

def recLen (head : Bytes) : Nat := ofLe ((head.drop 8).take 4)

variable (cfg : Config)

/-- `llGetRecordFromDisc`: first the head, then all of the record, at the LSN that the
first read has corrected.  The length is a 32-bit number. -/
def llGetRecordFromDisc {η : Type*} (st : Storage η) : GetRecord Reader :=
  fun rd lsn =>
    match Storage.lfsGetRecord cfg st lsn recordHeadSize rd with
    | none => none
    | some (none, rd) => some (none, rd)
    | some (some (lsn, head), rd) =>
      match Storage.lfsGetRecord cfg st lsn ((recLen head + recordHeadSize) % 2 ^ 32) rd with
      | none => none
      | some (none, rd) => some (none, rd)
      | some (some (lsn, bytes), rd) => some (some (lsn, Record.ofBytes bytes), rd)

/-! ## State -/

def charismaMaxTrnsNumber : Nat := 50

instance : NeZero charismaMaxTrnsNumber := ⟨by decide⟩

abbrev Trid := Fin charismaMaxTrnsNumber

structure LlTransInfo where
  lastLsn : Option Nat
  firstLsn : Option Nat
  numOfLogRecords : Nat
  lastLen : Nat
  deriving DecidableEq

def LlTransInfo.unused : LlTransInfo :=
  { lastLsn := none, firstLsn := none, numOfLogRecords := 0, lastLen := 0 }

structure LlGlobalInfo where
  checkpointLsn : Option Nat
  minRcvLsn : Option Nat
  lastChainLsn : Option Nat
  ts : Nat
  llTransInfoTable : Trid → LlTransInfo
  checkpointOn : Bool
  hotbackupNeeded : Bool
  nextArchFile : Nat

structure LlFileHead where
  checkpointLsn : Option Nat
  lastChainLsn : Option Nat
  ts : Nat
  nextArchFile : Nat
  hbLsn : Option Nat
  deriving DecidableEq

/-- A record is linked into the chain of its transaction, into that of the physical
records, or into none. -/
inductive LlRecordType
  | trRecord (trid : Trid)
  | physRecord
  | genRecord
  deriving DecidableEq

inductive LlEvent
  | insert (rtype : LlRecordType) (lsn : Nat) (r : Record)
  | transBegin (trid : Trid)
  | transEnd (trid : Trid)
  deriving DecidableEq

/-- `history` remembers what has happened, the latest first; no function reads it. -/
structure LlState where
  storage : Storage LlFileHead
  info : LlGlobalInfo
  history : List LlEvent

/-! ## Inserting -/

def LlTransInfo.appended (t : LlTransInfo) (retLsn recLen : Nat) : LlTransInfo :=
  { lastLsn := some retLsn
    firstLsn := match t.firstLsn with
      | none => some retLsn
      | some lsn => some lsn
    numOfLogRecords := t.numOfLogRecords + 1
    lastLen := recLen + recordHeadSize }

def LlGlobalInfo.prevLsn (info : LlGlobalInfo) : LlRecordType → Option Nat
  | .trRecord trid => (info.llTransInfoTable trid).lastLsn
  | .physRecord => none
  | .genRecord => none

def LlGlobalInfo.link (info : LlGlobalInfo) (rtype : LlRecordType) (retLsn recLen : Nat) :
    LlGlobalInfo :=
  match rtype with
  | .trRecord trid =>
    { info with
      llTransInfoTable := Function.update info.llTransInfoTable trid
        ((info.llTransInfoTable trid).appended retLsn recLen) }
  | .physRecord => { info with lastChainLsn := some retLsn }
  | .genRecord => info

def llInsertRecord (rtype : LlRecordType) (recBuf : Bytes) (s : LlState) : Option (Nat × LlState) :=
  let r : Record := { prevLsn := s.info.prevLsn rtype, body := recBuf }
  match Storage.lfsAppendRecord cfg r.bytes s.storage with
  | none => none
  | some (retLsn, storage) =>
    some (retLsn,
      { storage
        info := s.info.link rtype retLsn recBuf.length
        history := .insert rtype retLsn r :: s.history })

def llGetMaxRecordSize : Nat := cfg.bufSize - recordHeadSize

/-- The loop of `llLogGeneral`: `none` is `SE4156`, the record is too long. -/
def copyFields (maxLen : Nat) : Bytes → List Bytes → Option Bytes
  | rec, [] => some rec
  | rec, field :: fields =>
    if maxLen < rec.length + field.length then none else copyFields maxLen (rec ++ field) fields

def llLogGeneral (rtype : LlRecordType) (op : LlOperations) (retNextLsn : Bool)
    (fields : List Bytes) (s : LlState) : Option (Nat × LlState) :=
  let head : Bytes := match rtype with
    | .trRecord trid => op.code :: le 4 trid
    | .physRecord => [op.code]
    | .genRecord => [op.code]
  match copyFields (llGetMaxRecordSize cfg) head fields with
  | none => none
  | some rec =>
    match llInsertRecord cfg rtype rec s with
    | none => none
    | some (recLsn, s) =>
      some (if retNextLsn then recLsn + (recordHeadSize + rec.length) else recLsn, s)

/-! ## Flushing -/

def llLogHotBackup (s : LlState) : Option (Nat × LlState) :=
  llLogGeneral cfg .genRecord .llHbinfo false
    [le 8 s.info.ts, encodeLsn s.info.checkpointLsn, encodeLsn s.info.lastChainLsn] s

variable (recoveryActive : Bool)

/-- The first part of `_llFlushHeader`: the process that recovers from a hot-backup copy
logs a record about it. -/
def flushHotBackup (fileHead : LlFileHead) (s : LlState) : Option (LlFileHead × LlState) :=
  if recoveryActive ∧ s.info.hotbackupNeeded ∧ ¬ s.info.checkpointOn then
    match llLogHotBackup cfg s with
    | none => none
    | some (lsn, s) =>
      some ({ fileHead with hbLsn := some lsn },
        { s with storage := Storage.lfsFlushAll cfg s.storage })
  else some (fileHead, s)

def llFlushHeader (s : LlState) : Option LlState :=
  match s.storage.lfsGetHeader with
  | none => none
  | some fileHead =>
    match flushHotBackup cfg recoveryActive fileHead s with
    | none => none
    | some (fileHead, s) =>
      let fileHead : LlFileHead :=
        { fileHead with
          checkpointLsn := s.info.checkpointLsn
          nextArchFile := s.info.nextArchFile
          lastChainLsn := s.info.lastChainLsn
          ts := s.info.ts }
      some { s with storage := Storage.lfsWriteHeader cfg fileHead s.storage }

def llFlushAll (s : LlState) : Option LlState :=
  llFlushHeader cfg recoveryActive { s with storage := Storage.lfsFlushAll cfg s.storage }

/-- `llFlushLsn`.  The comparison with an invalid LSN of the chain holds for every LSN. -/
def llFlushLsn (lsn : Option Nat) (s : LlState) : Option LlState :=
  match lsn with
  | none => some s
  | some lsn =>
    if s.info.lastChainLsn.all (fun chain => lsn ≤ chain) then llFlushAll cfg recoveryActive s
    else llFlushHeader cfg recoveryActive { s with storage := Storage.lfsFlush cfg lsn s.storage }

def llFlushTransRecs (trid : Trid) (s : LlState) : Option LlState :=
  match (s.info.llTransInfoTable trid).lastLsn with
  | none => some s
  | some lsn =>
    llFlushLsn cfg recoveryActive (some (lsn + (s.info.llTransInfoTable trid).lastLen)) s

/-! ## Transactions and checkpoints -/

def LlState.resetSlot (s : LlState) (trid : Trid) (event : LlEvent) : LlState :=
  { s with
    info := { s.info with
      llTransInfoTable := Function.update s.info.llTransInfoTable trid .unused }
    history := event :: s.history }

def llOnTransBegin (trid : Trid) (s : LlState) : LlState := s.resetSlot trid (.transBegin trid)

def llOnTransEnd (trid : Trid) (s : LlState) : LlState := s.resetSlot trid (.transEnd trid)

/-- `llupdateMinRcvLSN`: the first record of the transactions that have logged. -/
def llupdateMinRcvLsn (table : Trid → LlTransInfo) : Option Nat :=
  (List.finRange charismaMaxTrnsNumber).foldl
    (fun lsn i =>
      match (table i).firstLsn, lsn with
      | none, lsn => lsn
      | some first, none => some first
      | some first, some lsn => if first < lsn then some first else some lsn)
    none

def LlGlobalInfo.beginChain (info : LlGlobalInfo) (persSnapshotTs : Nat) : LlGlobalInfo :=
  { info with
    ts := persSnapshotTs
    lastChainLsn := none
    minRcvLsn := llupdateMinRcvLsn info.llTransInfoTable }

/-- `llLogCheckpoint`, with the version entries and the master block as bytes. -/
def llLogCheckpoint (isFirstRec : Bool) (persSnapshotTs : Nat) (buf : Bytes)
    (count isGarbage : Nat) (mb : Bytes) (s : LlState) : Option LlState :=
  if isFirstRec then
    let s := { s with info := s.info.beginChain persSnapshotTs }
    match llLogGeneral cfg .physRecord .llCheckpoint false
        [encodeLsn s.info.lastChainLsn, le 4 isGarbage, le 4 count, buf, mb,
          encodeLsn s.info.minRcvLsn] s with
    | none => none
    | some (retLsn, s) => some { s with info := { s.info with checkpointLsn := some retLsn } }
  else
    match llLogGeneral cfg .physRecord .llCheckpoint false
        [encodeLsn s.info.lastChainLsn, le 4 isGarbage, le 4 count, buf] s with
    | none => none
    | some (_, s) => some s

/-! ## Creating and opening -/

def llCreateNew : Disk LlFileHead :=
  Storage.lfsCreateNew cfg
    { checkpointLsn := none, lastChainLsn := none, ts := 0x10000, nextArchFile := 0, hbLsn := none }

def llInit (disk : Disk LlFileHead) (lastNum : Nat) (buffer : Nat → UInt8) : Option LlState :=
  match Storage.lfsInit disk lastNum buffer with
  | none => none
  | some st =>
    match st.lfsGetHeader with
    | none => none
    | some fileHead =>
      some
        { storage := Storage.lfsWriteHeader cfg fileHead st
          info :=
            { checkpointLsn := fileHead.checkpointLsn
              minRcvLsn := none
              lastChainLsn := fileHead.lastChainLsn
              ts := fileHead.ts
              llTransInfoTable := fun _ => .unused
              checkpointOn := false
              hotbackupNeeded := false
              nextArchFile := fileHead.nextArchFile }
          history := [] }

end Sedna.Log
