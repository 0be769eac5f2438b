import Sedna.Wu.Snapshots

/-!
# Versions of blocks

The block at the address of a logical block has a header with up to four versions, its own first;
older versions are at addresses of their own.  A new version takes the place of the last committed
one, which moves to a block that has just been allocated.
-/

namespace Sedna.Wu.Versions

open Snapshots

variable {Data : Type}

def versionsCount : Nat := 4

structure VersionSlot where
  xptr : Nat
  creatorTs : Nat
  deriving DecidableEq

/-- The header lists the slots in use; the others hold address 0 and `INVALID_TIMESTAMP`. -/
structure Block (Data : Type) where
  header : List VersionSlot
  data : Data
  deriving DecidableEq

abbrev Blocks (Data : Type) := Nat → Option (Block Data)

inductive FunctionType where
  | allocateBlock
  | createVersion (isPers : Bool)
  | freeBlock
  deriving DecidableEq

structure VeFunction where
  lxptr : Nat
  xptr : Nat
  anchorTs : Nat
  type : FunctionType
  deriving DecidableEq

inductive TransactionStatus where
  | updater
  | readOnly
  | completed
  deriving DecidableEq

structure Client where
  statusAndType : TransactionStatus
  /-- The timestamp of an updater, or of the snapshot a query runs on. -/
  timestamp : Nat
  isCompleted : Bool
  isRolledBack : Bool
  functionList : List VeFunction
  deriving DecidableEq

abbrev ClientId := Fin maxClientsCount

structure State (Data : Type) where
  list : SnapshotsList
  blocks : Blocks Data
  /-- The next timestamp. -/
  timestamp : Nat
  clients : ClientId → Option Client

/-- A call of the free-block routine, with the blocks at that moment. -/
structure FreeCall (Data : Type) where
  request : FreeRequest
  blocks : Blocks Data

/-- What a call leaves behind.  A call that fails may have changed the state before. -/
structure Outcome (Data : Type) where
  wu : State Data
  frees : List (FreeCall Data)
  error : Option WuError

namespace State

variable (wu : State Data)

@[simps -fullyApplied]
def setClient (c : ClientId) (client : Option Client) : State Data :=
  { wu with clients := Function.update wu.clients c client }

@[simps -fullyApplied]
def setBlock (xptr : Nat) (block : Option (Block Data)) : State Data :=
  { wu with blocks := Function.update wu.blocks xptr block }

def succeed : Outcome Data := ⟨wu, [], none⟩

def fail (error : WuError) : Outcome Data := ⟨wu, [], some error⟩

end State

/-! ## Headers -/

def validateHeader (header : List VersionSlot) : Bool :=
  decide (header ≠ []) && decide (header.length ≤ versionsCount) &&
    header.all fun slot => decide (slot.xptr ≠ 0) && isValidTimestamp slot.creatorTs

def isVersionOf (block : Block Data) (lxptr : Nat) : Bool :=
  validateHeader block.header && decide (block.header.head?.map VersionSlot.xptr = some lxptr)

/-- Copy the slots with these indices, each run of equal indices once, as long as there is room.
The second component is what has not been copied. -/
def copyUnique (header : List VersionSlot) :
    List (Nat × Nat) → Option Nat → Nat → List VersionSlot × List (Nat × Nat)
  | out, _, 0 => ([], out)
  | [], _, _ + 1 => ([], [])
  | (_, id) :: out, prevId, room + 1 =>
    if some id ≠ prevId then
      let copied := copyUnique header out (some id) room
      (header.getD id ⟨0, invalidTimestamp⟩ :: copied.1, copied.2)
    else copyUnique header out prevId (room + 1)

/-- The second component is the timestamp from which on snapshots have to be damaged. -/
def composeHeader (header : List VersionSlot) (xptr creatorTs : Nat) (out : List (Nat × Nat)) :
    List VersionSlot × Option Nat :=
  let copied := copyUnique header out none (versionsCount - 1)
  (⟨xptr, creatorTs⟩ :: copied.1, copied.2.head?.map Prod.fst)

def setOlderVersion (newBlock : Nat) : List VersionSlot → List VersionSlot
  | own :: older :: rest => own :: { older with xptr := newBlock } :: rest
  | [own] => [own, ⟨newBlock, invalidTimestamp⟩]
  | [] => []

/-! ## Reading -/

structure FoundVersion (Data : Type) where
  block : Block Data
  out : List (Nat × Nat)
  anchorTs : Nat
  isGrantingExclAccess : Bool

def putBlockVersionToBuffer (wu : State Data) (c : ClientId) (lxptr : Nat) :
    Except WuError (FoundVersion Data) :=
  match wu.clients c with
  | none => .error .badClientId
  | some client =>
    -- A transaction that is rolled back may still read.
    if client.statusAndType = .completed ∨ client.isCompleted ∧ ¬ client.isRolledBack then
      .error .functionInvalidInThisState
    else
      match wu.blocks lxptr with
      | none => .error .generalError
      | some block =>
        if ¬ isVersionOf block lxptr then .error .persDataValidationFailed
        else
          match expandDfvHeader wu.list (block.header.map VersionSlot.creatorTs) false with
          | .error error => .error error
          | .ok (out, anchorTs) =>
            let isWorking := decide (out.head?.map Prod.fst = some workingVersionTimestamp)
            if client.statusAndType = .updater then
              if isWorking ∧
                  block.header.head?.map VersionSlot.creatorTs ≠ some client.timestamp then
                .error .workingVersionCreatedByAlly
              else .ok ⟨block, out, anchorTs, isWorking⟩
            else
              match out.find? fun entry => decide (entry.1 = client.timestamp) with
              | none => .error .noAppropriateVersion
              | some (_, id) =>
                match wu.blocks (block.header.getD id ⟨0, invalidTimestamp⟩).xptr with
                | none => .error .generalError
                | some older =>
                  if ¬ isVersionOf older lxptr then .error .persDataValidationFailed
                  else .ok ⟨older, out, anchorTs, false⟩

def getBlock (wu : State Data) (c : ClientId) (lxptr : Nat) : Except WuError (Block Data) :=
  (putBlockVersionToBuffer wu c lxptr).map FoundVersion.block

/-! ## Updating -/

def Client.push (client : Client) (function : VeFunction) : Client :=
  { client with functionList := client.functionList ++ [function] }

def allocateDataBlock (wu : State Data) (c : ClientId) (xptr : Nat) (data : Data) : Outcome Data :=
  match wu.clients c with
  | none => wu.fail .badClientId
  | some client =>
    if client.statusAndType = .completed ∨ client.isCompleted then
      wu.fail .functionInvalidInThisState
    else if client.statusAndType = .readOnly then wu.fail .snapshotsAreReadOnly
    else
      State.succeed <|
        (wu.setBlock xptr (some ⟨[⟨xptr, client.timestamp⟩], data⟩)).setClient c <|
          some (client.push ⟨xptr, xptr, invalidTimestamp, .allocateBlock⟩)

def persistentSnapshotTs (l : SnapshotsList) : Nat :=
  match l.snapshots.find? (isType .persistent) with
  | some s => s.timestamp
  | none => invalidTimestamp

def isVersionPersistent (out : List (Nat × Nat)) (persTs : Nat) : Bool :=
  match out.find? fun entry => decide (entry.1 = persTs) with
  | some (_, id) => decide (out.head?.map Prod.snd = some id)
  | none => false

def damageFrom (l : SnapshotsList) (timestampFrom : Nat) : SnapshotsList × Option WuError :=
  if ¬ isValidTimestamp timestampFrom then (l, some .badTimestamp)
  else
    let damaged := damageSnapshots timestampFrom l.live
    (l.setLive damaged.1, damaged.2)

def createBlockVersion (wu : State Data) (c : ClientId) (lxptr newBlock : Nat) : Outcome Data :=
  match wu.clients c with
  | none => wu.fail .badClientId
  | some client =>
    if client.statusAndType = .readOnly then wu.fail .snapshotsAreReadOnly
    else if client.statusAndType = .completed ∨ client.isCompleted then
      wu.fail .functionInvalidInThisState
    else
      match putBlockVersionToBuffer wu c lxptr with
      | .error error => wu.fail error
      | .ok found =>
        match filterOutDamaged wu.list found.out with
        | .error error => wu.fail error
        | .ok out =>
          if out.head?.map Prod.fst = some workingVersionTimestamp then
            wu.fail .workingVersionAlreadyCreated
          else
            let composed := composeHeader found.block.header lxptr client.timestamp out
            let damaged :=
              match composed.2 with
              | none => (wu.list, none)
              | some ts => damageFrom wu.list ts
            match damaged.2 with
            | some error => State.fail { wu with list := damaged.1 } error
            | none =>
              let isPers := isVersionPersistent found.out (persistentSnapshotTs wu.list)
              let block : Block Data :=
                ⟨setOlderVersion newBlock composed.1, found.block.data⟩
              State.succeed <|
                ((({ wu with list := damaged.1 } : State Data).setBlock newBlock
                    (some found.block)).setBlock lxptr (some block)).setClient c <|
                  some (client.push ⟨lxptr, newBlock, found.anchorTs, .createVersion isPers⟩)

def writeBlock (wu : State Data) (c : ClientId) (lxptr : Nat) (data : Data) : Outcome Data :=
  match putBlockVersionToBuffer wu c lxptr with
  | .error error => wu.fail error
  | .ok found =>
    if found.isGrantingExclAccess then
      State.succeed (wu.setBlock lxptr (some { found.block with data := data }))
    else wu.fail .generalError

/-- The anchor of a block that is freed; without the block in buffers it is the oldest one. -/
def onFreeBlock (wu : State Data) (lxptr : Nat) (isInBuffers : Bool) : Except WuError Nat :=
  match isInBuffers, wu.blocks lxptr with
  | true, some block =>
    (expandDfvHeader wu.list (block.header.map VersionSlot.creatorTs) true).map Prod.snd
  | _, _ => .ok timestampMin

def deleteBlock (wu : State Data) (c : ClientId) (lxptr : Nat) (isInBuffers : Bool) :
    Outcome Data :=
  match wu.clients c with
  | none => wu.fail .badClientId
  | some client =>
    if client.statusAndType = .completed ∨ client.isCompleted then
      wu.fail .functionInvalidInThisState
    else if client.statusAndType = .readOnly then wu.fail .snapshotsAreReadOnly
    else
      match onFreeBlock wu lxptr isInBuffers with
      | .error error => wu.fail error
      | .ok anchorTs =>
        (wu.setClient c (some (client.push ⟨lxptr, lxptr, anchorTs, .freeBlock⟩))).succeed

end Sedna.Wu.Versions
