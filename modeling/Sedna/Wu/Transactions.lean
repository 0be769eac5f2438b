import Sedna.Wu.Versions

/-!
# Transactions and checkpoints

The calls of the storage manager on the versions mechanism, and runs of them.
-/

namespace Sedna.Wu.Transactions

open Snapshots Versions

variable {Data : Type}

def freeBlocks : Blocks Data → List FreeRequest → Blocks Data × List (FreeCall Data)
  | blocks, [] => (blocks, [])
  | blocks, request :: requests =>
    let rest := freeBlocks (Function.update blocks request.xptr none) requests
    (rest.1, ⟨request, blocks⟩ :: rest.2)

variable (wu : State Data)

def applyFreeing (freeing : Freeing) : Outcome Data :=
  let freed := freeBlocks wu.blocks freeing.frees
  ⟨{ wu with list := freeing.list, blocks := freed.1 }, freed.2, freeing.error⟩

/-! ## Registration -/

def getTimestamp : Except WuError (Nat × State Data) :=
  if ¬ isValidTimestamp wu.timestamp then .error .maxTimestampValueExceeded
  else .ok (wu.timestamp, { wu with timestamp := wu.timestamp + 1 })

def newClient (statusAndType : TransactionStatus) (timestamp : Nat) : Client :=
  { statusAndType := statusAndType
    timestamp := timestamp
    isCompleted := false
    isRolledBack := false
    functionList := [] }

variable (c : ClientId)

def onRegisterTransaction (isUsingSnapshot : Bool) : Outcome Data :=
  match wu.clients c with
  | some _ => wu.fail .clientIdAlreadyInUse
  | none =>
    if isUsingSnapshot then
      match wu.list.live with
      | [] => wu.fail .noSnapshotsExist
      | current :: rest =>
        if current.isDamaged then wu.fail .unableToUseDamagedSnapshot
        else
          State.succeed <|
            ({ wu with
              list := wu.list.setLive
                ({ current with occupancy := current.occupancy + 1 } :: rest) } :
                State Data).setClient c (some (newClient .readOnly current.timestamp))
    else
      match getTimestamp wu with
      | .error error => wu.fail error
      | .ok (ts, wu) =>
        State.succeed <|
          ({ wu with list := addActiveTimestamp wu.list ts } : State Data).setClient c
            (some (newClient .updater ts))

/-! ## The end of a transaction -/

def releaseSnapshot (ts : Nat) : List Snapshot → List Snapshot
  | [] => []
  | s :: rest =>
    if s.timestamp = ts then { s with occupancy := s.occupancy - 1 } :: rest
    else s :: releaseSnapshot ts rest

def onTransactionEnd (client : Client) : Outcome Data :=
  let completed : Client :=
    { client with statusAndType := .completed, timestamp := invalidTimestamp }
  match client.statusAndType with
  | .updater =>
    State.succeed <|
      ({ wu with list := removeActiveTimestamp wu.list client.timestamp } :
        State Data).setClient c (some completed)
  | .readOnly =>
    let released : SnapshotsList :=
      { wu.list with snapshots := releaseSnapshot client.timestamp wu.list.snapshots }
    let purified := applyFreeing wu (purifySnapshots released true)
    match purified.error with
    | some error => { purified with error := some error }
    | none => { purified with wu := purified.wu.setClient c (some completed) }
  | .completed => wu.fail .functionInvalidInThisState

def requestOf (function : VeFunction) : RequestForGc :=
  { lxptr := function.lxptr
    xptr := function.xptr
    anchorTs := function.anchorTs
    type :=
      match function.type with
      | .allocateBlock => .nop
      | .createVersion _ => .addNormalVersion
      | .freeBlock => .addBogusVersion }

def onTransactionCommit (client : Client) (currentSnapshotTs : Nat) : Outcome Data :=
  applyFreeing wu
    (submitRequestForGc wu.list currentSnapshotTs (client.functionList.map requestOf))

/-- Undo one function; `none` if the old version cannot be put to a buffer. -/
def undoFunction (list : SnapshotsList) (blocks : Blocks Data) (function : VeFunction) :
    Option (Blocks Data × List (FreeCall Data)) :=
  match function.type with
  | .allocateBlock => some (freeBlocks blocks [⟨function.lxptr, none, list⟩])
  | .createVersion _ =>
    match blocks function.xptr with
    | none => none
    | some old =>
      -- The old version is moved back before its block is freed.
      some (freeBlocks (Function.update blocks function.lxptr (some old))
        [⟨function.xptr, none, list⟩])
  | .freeBlock => some (blocks, [])

/-- The functions are undone in this order.  A function that fails ends the loop, but the loop
reports success if that function was the last one. -/
def undoFunctions (list : SnapshotsList) :
    Blocks Data → List VeFunction → Blocks Data × List (FreeCall Data) × Bool
  | blocks, [] => (blocks, [], true)
  | blocks, function :: functions =>
    match undoFunction list blocks function with
    | none => (blocks, [], functions.isEmpty)
    | some (blocks, frees) =>
      let rest := undoFunctions list blocks functions
      (rest.1, frees ++ rest.2.1, rest.2.2)

def onTransactionRollback (client : Client) : Outcome Data :=
  let undone := undoFunctions wu.list wu.blocks client.functionList.reverse
  ⟨{ wu with blocks := undone.1 }, undone.2.1,
    if undone.2.2 then none else some .functionInvalidInThisState⟩

def onCommitTransaction : Outcome Data :=
  match wu.clients c with
  | none => wu.fail .badClientId
  | some client =>
    let ended := onTransactionEnd wu c client
    match ended.error with
    | some error => { ended with error := some error }
    | none =>
      let currentSnapshotTs := ended.wu.list.currentSnapshotTs
      if ¬ isValidTimestamp currentSnapshotTs then { ended with error := some .badParams }
      else if client.isCompleted then
        { ended with error := some .functionInvalidInThisState }
      else
        let committed := onTransactionCommit ended.wu client currentSnapshotTs
        match committed.error with
        | some error => ⟨committed.wu, ended.frees ++ committed.frees, some error⟩
        | none =>
          ⟨committed.wu.setClient c
              (some
                { client with
                  statusAndType := .completed
                  timestamp := invalidTimestamp
                  isCompleted := true }),
            ended.frees ++ committed.frees, none⟩

def onRollbackTransaction : Outcome Data :=
  match wu.clients c with
  | none => wu.fail .badClientId
  | some client =>
    if client.isCompleted then wu.fail .functionInvalidInThisState
    else
      let rolledBack := onTransactionRollback wu client
      match rolledBack.error with
      | some error => { rolledBack with error := some error }
      | none =>
        { rolledBack with
          wu := rolledBack.wu.setClient c
            (some { client with isCompleted := true, isRolledBack := true }) }

/-- The client is removed even if the end of its transaction fails. -/
def onUnregisterTransaction : Outcome Data :=
  match wu.clients c with
  | none => wu.fail .badClientId
  | some client =>
    if client.statusAndType = .completed then (wu.setClient c none).succeed
    else
      let ended := onTransactionEnd wu c client
      { ended with wu := ended.wu.setClient c none, error := none }

/-! ## Snapshots and checkpoints -/

def tryAdvanceSnapshots : Outcome Data :=
  let purified := applyFreeing wu (purifySnapshots wu.list false)
  match purified.error with
  | some error => { purified with error := some error }
  | none =>
    if ¬ ensureCanAdvanceSnapshots purified.wu.list then
      { purified with error := some .maxNumberOfSnapshotsExceeded }
    else
      match getTimestamp purified.wu with
      | .error error => { purified with error := some error }
      | .ok (ts, wu) =>
        match createSnapshot wu.list ts .regular with
        | .error error => ⟨wu, purified.frees, some error⟩
        | .ok list => ⟨{ wu with list := list }, purified.frees, none⟩

def beginCheckpoint : Outcome Data :=
  match onBeginCheckpoint wu.list with
  | .error error => wu.fail error
  | .ok list => State.succeed { wu with list := list }

def completeCheckpoint : Outcome Data :=
  applyFreeing wu (onCompleteCheckpoint wu.list)

/-! ## Runs -/

inductive Event (Data : Type) where
  | register (c : ClientId) (isUsingSnapshot : Bool)
  /-- The allocator returns `xptr`; `data` is what the client puts there. -/
  | allocate (c : ClientId) (xptr : Nat) (data : Data)
  /-- The allocator returns `newBlock`. -/
  | createVersion (c : ClientId) (lxptr newBlock : Nat)
  | write (c : ClientId) (lxptr : Nat) (data : Data)
  | delete (c : ClientId) (lxptr : Nat) (isInBuffers : Bool)
  | commit (c : ClientId)
  | rollback (c : ClientId)
  | unregister (c : ClientId)
  | advance
  | beginCheckpoint
  | completeCheckpoint

def exec : Event Data → Outcome Data
  | .register c isUsingSnapshot => onRegisterTransaction wu c isUsingSnapshot
  | .allocate c xptr data => allocateDataBlock wu c xptr data
  | .createVersion c lxptr newBlock => createBlockVersion wu c lxptr newBlock
  | .write c lxptr data => writeBlock wu c lxptr data
  | .delete c lxptr isInBuffers => deleteBlock wu c lxptr isInBuffers
  | .commit c => onCommitTransaction wu c
  | .rollback c => onRollbackTransaction wu c
  | .unregister c => onUnregisterTransaction wu c
  | .advance => tryAdvanceSnapshots wu
  | .beginCheckpoint => beginCheckpoint wu
  | .completeCheckpoint => completeCheckpoint wu

end Sedna.Wu.Transactions
