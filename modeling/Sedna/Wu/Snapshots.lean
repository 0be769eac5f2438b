import Mathlib
import Sedna.Library.WindowChains

/-!
# The list of snapshots

Three snapshot slots are kept in one list.  Slots that are not in use come
first, then the snapshots, the most recent one first.  Every slot has a chain
of garbage collection nodes; the versions in node `j` belong to the snapshot of
the slot and to the `j` snapshots in front of it.
-/

namespace Sedna.Wu.Snapshots

open Library

def timestampMin : Nat := 0x0000000000010000

def timestampMax : Nat := 0xFFFFFFFFFFFF0000

def invalidTimestamp : Nat := 0xFFFFFFFFFFFFFFFF

def lastCommitedVersionTimestamp : Nat := 1 + timestampMax

def workingVersionTimestamp : Nat := 2 + timestampMax

def snapshotsCount : Nat := 3

def maxClientsCount : Nat := 50

def isValidTimestamp (ts : Nat) : Bool := decide (timestampMin ≤ ts) && decide (ts ≤ timestampMax)

inductive WuError where
  | badParams
  | badTimestamp
  | badClientId
  | clientIdAlreadyInUse
  | functionInvalidInThisState
  | generalError
  | maxNumberOfSnapshotsExceeded
  | maxTimestampValueExceeded
  | noAppropriateVersion
  | noSnapshotsExist
  | noSnapshotWithThisTimestamp
  | persDataValidationFailed
  | snapshotAlreadyPersistent
  | snapshotsAreReadOnly
  | unableToDamageSnapshotInUse
  | unableToDiscardSnapshotInUse
  | unableToDiscardSpecialSnapshot
  | unableToUseDamagedSnapshot
  | workingVersionAlreadyCreated
  | workingVersionCreatedByAlly
  deriving DecidableEq

inductive SnapshotType where
  | regular
  | persistent
  | prevPersistent
  | future
  deriving DecidableEq

structure VersionEntry where
  lxptr : Nat
  xptr : Nat
  deriving DecidableEq

structure Snapshot where
  timestamp : Nat
  /-- The transactions that were active when the snapshot was taken. -/
  activeTs : List Nat
  gcChain : List (List VersionEntry)
  type : SnapshotType
  occupancy : Nat
  isDamaged : Bool
  deriving DecidableEq

structure SnapshotsList where
  snapshots : List Snapshot
  /-- The transactions that are active now. -/
  activeTs : List Nat
  deriving DecidableEq

def Snapshot.isFuture (s : Snapshot) : Bool := decide (s.type = .future)

/-- A call of the free-block routine; `discarding` is the snapshot that is being discarded. -/
structure FreeRequest where
  xptr : Nat
  discarding : Option Nat
  snapshots : SnapshotsList
  deriving DecidableEq

/-- What a function that may free blocks leaves behind: the list, the calls of the free-block
routine in their order, and the error if it fails. -/
structure Freeing where
  list : SnapshotsList
  frees : List FreeRequest
  error : Option WuError
  deriving DecidableEq

/-- A slot as `InitSnapshotsList` sets it up; slot `i` gets `i + 1` nodes. -/
def futureSnapshot (i : Nat) : Snapshot :=
  { timestamp := invalidTimestamp
    activeTs := []
    gcChain := List.replicate (i + 1) []
    type := .future
    occupancy := 0
    isDamaged := false }

def initSnapshotsList : SnapshotsList :=
  { snapshots := (List.range snapshotsCount).map futureSnapshot
    activeTs := [] }

/-! ## Lookup -/

def getSnapshotByTimestamp (ts : Nat) :
    List Snapshot → Option (List Snapshot × Snapshot × List Snapshot)
  | [] => none
  | s :: rest =>
    if s.timestamp = ts then some ([], s, rest)
    else (getSnapshotByTimestamp ts rest).map fun cut => (s :: cut.1, cut.2)

namespace SnapshotsList

def live (l : SnapshotsList) : List Snapshot := l.snapshots.dropWhile Snapshot.isFuture

def getCurrentSnapshot (l : SnapshotsList) : Option Snapshot := l.live.head?

def setLive (l : SnapshotsList) (live : List Snapshot) : SnapshotsList :=
  { l with snapshots := l.snapshots.takeWhile Snapshot.isFuture ++ live }

def currentSnapshotTs (l : SnapshotsList) : Nat :=
  match l.getCurrentSnapshot with
  | some current => current.timestamp
  | none => invalidTimestamp

end SnapshotsList

/-! ## Discarding -/

def rotateGcChain (hd : List (List VersionEntry)) (mergeIndex : Nat) : List (List VersionEntry) :=
  WindowChains.mergeAt mergeIndex hd

/-- The chains behind the victim; the first of them is merged at index `i`. -/
def rotateGcChains : Nat → List Snapshot → List Snapshot
  | _, [] => []
  | i, s :: rest => { s with gcChain := rotateGcChain s.gcChain i } :: rotateGcChains (i + 1) rest

/-- The nodes cut off the victim are merged into the chain right before it. -/
def mergeDetached (detached : List (List VersionEntry)) : List Snapshot → List Snapshot
  | [] => []
  | [s] => [{ s with gcChain := WindowChains.mergeChains s.gcChain detached }]
  | s :: next :: rest => s :: mergeDetached detached (next :: rest)

/-- The victim becomes the leading snapshot.  The nodes cut off it, now empty, go to the ends of
the chains of the snapshots that were in front of it. -/
def rotateSnapshots (before : List Snapshot) (victim : Snapshot) (unaffected : List Snapshot) :
    List Snapshot :=
  match before with
  | [] => victim :: unaffected
  | hd :: rest =>
    { victim with gcChain := victim.gcChain.take 1 } ::
      ((mergeDetached victim.gcChain.tail (hd :: rest)).map
          fun s => { s with gcChain := s.gcChain ++ [[]] }) ++
        unaffected

def resetVictim (victim : Snapshot) : Snapshot :=
  { timestamp := invalidTimestamp
    activeTs := []
    gcChain := [] :: victim.gcChain.tail
    type := .future
    occupancy := 0
    isDamaged := false }

def discardSnapshot (l : SnapshotsList) (ts : Nat) : Freeing :=
  match getSnapshotByTimestamp ts l.snapshots with
  | none => ⟨l, [], some .noSnapshotWithThisTimestamp⟩
  | some (before, victim, after) =>
    if victim.type ≠ .regular then ⟨l, [], some .unableToDiscardSpecialSnapshot⟩
    else if 0 < victim.occupancy then ⟨l, [], some .unableToDiscardSnapshotInUse⟩
    else
      { list :=
          { l with
            snapshots := rotateSnapshots before (resetVictim victim) (rotateGcChains 0 after) }
        frees := (victim.gcChain.headD []).map fun entry => ⟨entry.xptr, some ts, l⟩
        error := none }

def autoDamageSnapshots (l : SnapshotsList) (isKeepingCurrentSnapshot : Bool) : SnapshotsList :=
  let damage (s : Snapshot) : Snapshot :=
    if s.occupancy = 0 then { s with isDamaged := true } else s
  match l.live with
  | [] => l
  | current :: rest =>
    l.setLive ((if isKeepingCurrentSnapshot then current else damage current) :: rest.map damage)

def purifyLoop : List Snapshot → SnapshotsList → Freeing
  | [], l => ⟨l, [], none⟩
  | current :: rest, l =>
    if current.occupancy ≠ 0 ∨ current.type ≠ .regular then purifyLoop rest l
    else
      let discarded := discardSnapshot l current.timestamp
      match discarded.error with
      | some error => { discarded with error := some error }
      | none =>
        let purified := purifyLoop rest discarded.list
        { purified with frees := discarded.frees ++ purified.frees }

variable (l : SnapshotsList)

def purifySnapshots (isKeepingCurrentSnapshot : Bool) : Freeing :=
  let purified := purifyLoop (if isKeepingCurrentSnapshot then l.live.tail else l.live) l
  match purified.error with
  | some _ => purified
  | none => { purified with list := autoDamageSnapshots purified.list isKeepingCurrentSnapshot }

/-! ## Creating -/

def createSnapshot (ts : Nat) (type : SnapshotType) : Except WuError SnapshotsList :=
  if ¬ isValidTimestamp ts then .error .badTimestamp
  else
    match (l.snapshots.takeWhile Snapshot.isFuture).reverse with
    | [] => .error .maxNumberOfSnapshotsExceeded
    | lastFuture :: futures =>
      .ok
        { l with
          snapshots := futures.reverse ++
            { lastFuture with
              timestamp := ts
              activeTs := l.activeTs
              type := type
              occupancy := 0
              isDamaged := false } :: l.live }

def ensureCanAdvanceSnapshots : Bool :=
  decide ((l.live.filter fun s => !s.isDamaged).length < snapshotsCount - 1) &&
    match l.snapshots with
    | leading :: _ => leading.isFuture
    | [] => false

/-! ## Garbage requests -/

inductive RequestType where
  | nop
  | discardVersion
  | addNormalVersion
  | addBogusVersion
  deriving DecidableEq

structure RequestForGc where
  lxptr : Nat
  xptr : Nat
  anchorTs : Nat
  type : RequestType
  deriving DecidableEq

def validateRequestForGc (req : RequestForGc) : Bool :=
  if req.type ≠ .nop ∧ req.xptr = 0 then false
  else if req.type = .addNormalVersion ∧ req.lxptr = 0 then false
  else if ¬ isValidTimestamp req.anchorTs ∧ req.anchorTs ≠ invalidTimestamp ∧
      (req.type = .addNormalVersion ∨ req.type = .addBogusVersion) then false
  else true

/-- The entry goes to node `level` of the snapshot that is `level` places behind the first. -/
def pushEntry (entry : VersionEntry) (level : Nat) : Nat → List Snapshot → List Snapshot
  | _, [] => []
  | 0, s :: rest => { s with gcChain := WindowChains.pushAt entry level s.gcChain } :: rest
  | n + 1, s :: rest => s :: pushEntry entry level n rest

def submitRequest (entrySns : List Snapshot) (req : RequestForGc) : Freeing :=
  if ¬ validateRequestForGc req then ⟨l, [], some .badParams⟩
  else
    match req.type with
    | .nop => ⟨l, [], none⟩
    | .discardVersion => ⟨l, [⟨req.xptr, none, l⟩], none⟩
    | _ =>
      match entrySns with
      | [] => ⟨l, [⟨req.xptr, none, l⟩], none⟩
      | first :: rest =>
        -- No snapshot depends on the version.
        if first.timestamp < req.anchorTs then ⟨l, [⟨req.xptr, none, l⟩], none⟩
        else
          -- Find the last snapshot that depends on it.
          let level := (rest.takeWhile fun s => decide (req.anchorTs ≤ s.timestamp)).length
          let entry : VersionEntry :=
            { lxptr := if req.type = .addBogusVersion then 0 else req.lxptr, xptr := req.xptr }
          let skipped := l.live.length - entrySns.length
          ⟨l.setLive (pushEntry entry level (skipped + level) l.live), [], none⟩

def entrySnapshots (currentSnapshotTs : Nat) : List Snapshot :=
  l.live.dropWhile fun s => decide (currentSnapshotTs < s.timestamp)

def submitRequests (currentSnapshotTs : Nat) : SnapshotsList → List RequestForGc → Freeing
  | l, [] => ⟨l, [], none⟩
  | l, req :: reqs =>
    let submitted := submitRequest l (entrySnapshots l currentSnapshotTs) req
    match submitted.error with
    | some error => { submitted with error := some error }
    | none =>
      let rest := submitRequests currentSnapshotTs submitted.list reqs
      { rest with frees := submitted.frees ++ rest.frees }

def submitRequestForGc (l : SnapshotsList) (currentSnapshotTs : Nat) (reqs : List RequestForGc) :
    Freeing :=
  if ¬ isValidTimestamp currentSnapshotTs ∧ currentSnapshotTs ≠ invalidTimestamp then
    ⟨l, [], some .badTimestamp⟩
  else submitRequests currentSnapshotTs l reqs

/-! ## Active transactions -/

/-- The return value is ignored by the caller: a list that is full stays as it is. -/
def addActiveTimestamp (l : SnapshotsList) (ts : Nat) : SnapshotsList :=
  if ¬ isValidTimestamp ts then l
  else if l.activeTs.length = maxClientsCount then l
  else { l with activeTs := l.activeTs ++ [ts] }

def removeActiveTimestamp (l : SnapshotsList) (ts : Nat) : SnapshotsList :=
  { l with activeTs := l.activeTs.erase ts }

/-! ## Visibility -/

/-- What decides which versions are visible: a snapshot, or the fake head snapshot that stands for
the last committed versions. -/
structure Viewer where
  timestamp : Nat
  activeTs : List Nat
  deriving DecidableEq

def Snapshot.viewer (s : Snapshot) : Viewer := ⟨s.timestamp, s.activeTs⟩

namespace SnapshotsList

def fakeHeadSnapshot (l : SnapshotsList) : Viewer := ⟨lastCommitedVersionTimestamp, l.activeTs⟩

def viewers (l : SnapshotsList) : List Viewer := l.fakeHeadSnapshot :: l.live.map Snapshot.viewer

end SnapshotsList

def isVersionYoungerThanSnapshot (v : Viewer) (ts : Nat) : Bool :=
  decide (v.timestamp < ts) || v.activeTs.contains ts

/-- The loop of `SnExpandDfvHeader`: `tsIn` is what is left of the input, `pos` the position of
its head. -/
def matchVersions : List Viewer → Nat → List Nat → Except WuError (List (Nat × Nat))
  | [], _, _ => .ok []
  | v :: viewers, pos, tsIn =>
    let younger := tsIn.takeWhile fun ts =>
      isValidTimestamp ts && isVersionYoungerThanSnapshot v ts
    match tsIn.drop younger.length with
    | [] => .ok []
    | ts :: tsIn' =>
      if ts = invalidTimestamp then .ok []
      else if ¬ isValidTimestamp ts then .error .badTimestamp
      else
        match matchVersions viewers (pos + younger.length) (ts :: tsIn') with
        | .error error => .error error
        | .ok rest => .ok ((v.timestamp, pos + younger.length) :: rest)

def anchorOf (l : SnapshotsList) (out : List (Nat × Nat)) : Nat :=
  match out.dropWhile fun entry => decide (entry.1 ≠ lastCommitedVersionTimestamp) with
  | [] => invalidTimestamp
  | (ts, idLC) :: rest =>
    let shared := rest.takeWhile fun entry => decide (entry.2 = idLC)
    let anchorTs := (shared.getLastD (ts, idLC)).1
    -- No snapshot uses the version.
    if anchorTs = lastCommitedVersionTimestamp then (l.currentSnapshotTs + 1) % 2 ^ 64
    else anchorTs

def totalAnchorOf (l : SnapshotsList) (out : List (Nat × Nat)) : Nat :=
  match out.getLast? with
  | some (ts, _) =>
    if ts ≠ lastCommitedVersionTimestamp ∧ ts ≠ workingVersionTimestamp then ts
    else anchorOf l out
  | none => anchorOf l out

def expandBufferSize : Nat := 6

/-- Which version each viewer sees, and up to which snapshot the last committed one is used. -/
def expandDfvHeader (l : SnapshotsList) (tsIn : List Nat) (isTotalAnchor : Bool) :
    Except WuError (List (Nat × Nat) × Nat) :=
  match tsIn with
  | [] => .ok ([], invalidTimestamp)
  | head :: _ =>
    if head = invalidTimestamp then .ok ([], invalidTimestamp)
    else if ¬ isValidTimestamp head then .error .badTimestamp
    else
      match matchVersions l.viewers 0 tsIn with
      | .error error => .error error
      | .ok matched =>
        let out :=
          if isVersionYoungerThanSnapshot l.fakeHeadSnapshot head then
            (workingVersionTimestamp, 0) :: matched
          else matched
        if expandBufferSize < out.length then .error .generalError
        else .ok (out, if isTotalAnchor then totalAnchorOf l out else anchorOf l out)

/-- An entry that is removed is overwritten by the next one, which is then not looked at. -/
def filterOutDamaged (l : SnapshotsList) : List (Nat × Nat) → Except WuError (List (Nat × Nat))
  | [] => .ok []
  | entry :: rest =>
    if entry.1 ≠ workingVersionTimestamp ∧ entry.1 ≠ lastCommitedVersionTimestamp then
      match getSnapshotByTimestamp entry.1 l.snapshots with
      | none => .error .noSnapshotWithThisTimestamp
      | some (_, s, _) =>
        match s.isDamaged, rest with
        | true, [] => .ok []
        | true, next :: rest => (filterOutDamaged l rest).map (next :: ·)
        | false, rest => (filterOutDamaged l rest).map (entry :: ·)
    else (filterOutDamaged l rest).map (entry :: ·)

/-- The snapshots up to `timestampFrom` are damaged, in list order, up to one that is in use. -/
def damageSnapshots (timestampFrom : Nat) : List Snapshot → List Snapshot × Option WuError
  | [] => ([], none)
  | s :: rest =>
    if s.timestamp ≤ timestampFrom then
      if 0 < s.occupancy then (s :: rest, some .unableToDamageSnapshotInUse)
      else
        let damaged := damageSnapshots timestampFrom rest
        ({ s with isDamaged := true } :: damaged.1, damaged.2)
    else
      let damaged := damageSnapshots timestampFrom rest
      (s :: damaged.1, damaged.2)

/-! ## Checkpoints -/

def isType (type : SnapshotType) (s : Snapshot) : Bool := decide (s.type = type)

def retype (old new : SnapshotType) : List Snapshot → List Snapshot
  | [] => []
  | s :: rest => if s.type = old then { s with type := new } :: rest else s :: retype old new rest

def onBeginCheckpoint (l : SnapshotsList) : Except WuError SnapshotsList :=
  if l.snapshots.any (isType .prevPersistent) then .error .functionInvalidInThisState
  else
    match l.live with
    | [] => .error .noSnapshotsExist
    | current :: _ =>
      if current.type ≠ .regular then .error .snapshotAlreadyPersistent
      else
        .ok
          { l with
            snapshots :=
              retype .regular .persistent (retype .persistent .prevPersistent l.snapshots) }

def onCompleteCheckpoint (l : SnapshotsList) : Freeing :=
  if ¬ l.snapshots.any (isType .persistent) then ⟨l, [], some .functionInvalidInThisState⟩
  else purifySnapshots { l with snapshots := retype .prevPersistent .regular l.snapshots } true

end Sedna.Wu.Snapshots
