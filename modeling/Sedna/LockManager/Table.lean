import Sedna.Library.DepthFirst

/-!
# The lock table

The modes of `lm_base.h` and the functions of `lock_table.cpp` over an explicit state.  A request
object is identified by a number that is never used again, so that a pointer to a deleted request
is a number without an entry.
-/

namespace Sedna.LockManager.Modes

inductive LockMode where
  | nullLock
  | lmS
  | lmX
  | lmIS
  | lmIX
  | lmSIX
  deriving DecidableEq

open LockMode

def lockCompat : LockMode → LockMode → Bool
  | nullLock, _ => true
  | _, nullLock => true
  | lmIS, lmIS => true
  | lmIS, lmIX => true
  | lmIS, lmS => true
  | lmIS, lmX => false
  | lmIS, lmSIX => true
  | lmIX, lmIS => true
  | lmIX, lmIX => true
  | lmIX, lmS => false
  | lmIX, lmX => false
  | lmIX, lmSIX => false
  | lmS, lmIS => true
  | lmS, lmIX => false
  | lmS, lmS => true
  | lmS, lmX => false
  | lmS, lmSIX => false
  | lmX, lmIS => false
  | lmX, lmIX => false
  | lmX, lmS => false
  | lmX, lmX => false
  | lmX, lmSIX => false
  | lmSIX, lmIS => true
  | lmSIX, lmIX => false
  | lmSIX, lmS => false
  | lmSIX, lmX => false
  | lmSIX, lmSIX => false

def lockMax : LockMode → LockMode → LockMode
  | nullLock, m => m
  | m, nullLock => m
  | lmX, _ => lmX
  | _, lmX => lmX
  | lmSIX, _ => lmSIX
  | _, lmSIX => lmSIX
  | lmIS, lmIS => lmIS
  | lmIS, lmIX => lmIX
  | lmIX, lmIS => lmIX
  | lmIX, lmIX => lmIX
  | lmS, lmIS => lmS
  | lmIS, lmS => lmS
  | lmS, lmIX => lmSIX
  | lmIX, lmS => lmSIX
  | lmS, lmS => lmS

theorem lockCompat_comm (a b : LockMode) : lockCompat a b = lockCompat b a := by
  cases a <;> cases b <;> rfl

theorem lockCompat_lockMax (m a b : LockMode) :
    lockCompat m (lockMax a b) = (lockCompat m a && lockCompat m b) := by
  cases m <;> cases a <;> cases b <;> rfl

/-- A mode covers another if it conflicts with everything the other conflicts with. -/
def Covers (a b : LockMode) : Prop := ∀ m, lockCompat m a = true → lockCompat m b = true

instance (a b : LockMode) : Decidable (Covers a b) :=
  decidable_of_iff (∀ m ∈ [nullLock, lmS, lmX, lmIS, lmIX, lmSIX],
      lockCompat m a = true → lockCompat m b = true)
    ⟨fun h m => h m (by cases m <;> decide), fun h m _ => h m⟩

theorem covers_lockMax_left (a b : LockMode) : Covers (lockMax a b) a := by
  intro m hm
  rw [lockCompat_lockMax, Bool.and_eq_true] at hm
  exact hm.1

theorem Covers.conflict {a b m : LockMode} (h : Covers a b) (hm : lockCompat m b = false) :
    lockCompat m a = false := by
  cases ha : lockCompat m a with
  | false => rfl
  | true => rw [h m ha] at hm; cases hm

end Sedna.LockManager.Modes

namespace Sedna.LockManager.Table

open Library Modes

inductive ResourceKind where
  | lmDocument
  | lmCollection
  | lmIndex
  | lmTrigger
  | lmDatabase
  deriving DecidableEq

structure ResourceId where
  resName : String
  kind : ResourceKind
  deriving DecidableEq

inductive LockReply where
  | lockOk
  | lockTimeout
  | lockDeadlock
  | lockNotLocked
  deriving DecidableEq

inductive LockStatus where
  | lockGranted
  | lockConverting
  | lockWaiting
  | lockDenied
  | noneStatus
  deriving DecidableEq

abbrev TransactionId := Nat
abbrev SessionId := Nat
abbrev RequestId := Nat

structure LockRequest where
  id : RequestId
  trId : TransactionId
  sId : SessionId
  status : LockStatus
  mode : LockMode
  convertMode : LockMode
  deriving DecidableEq

structure LockHead where
  queue : List LockRequest
  grantedMode : LockMode
  waiting : Bool
  deriving DecidableEq

/-- The resource and the `tran_prev` and `tran_next` pointers of a request. -/
structure TranLinks where
  rId : ResourceId
  tranPrev : Option RequestId
  tranNext : Option RequestId
  deriving DecidableEq

inductive TranStatus where
  | normalProcessing
  | rollingBackAfterDeadlock
  deriving DecidableEq

structure TransCB where
  locks : Option RequestId
  wait : Option RequestId
  status : TranStatus
  deriving DecidableEq

/-- The last three are not exceptions of the code: a deleted object is used, a
null pointer is followed, a pointer chain has no end. -/
inductive LockError where
  | se4701
  | inconsistentState
  | danglingPointer
  | nullPointer
  | endlessList
  deriving DecidableEq

/-- `lm_table` with `tr_table`.  `posted` lists the sessions whose semaphore was raised. -/
structure LockTable where
  heads : ResourceId → Option LockHead
  trans : TransactionId → Option TransCB
  links : RequestId → Option TranLinks
  nextId : RequestId
  posted : List SessionId

namespace LockTable

def init : LockTable :=
  { heads := fun _ => none, trans := fun _ => none, links := fun _ => none, nextId := 0,
    posted := [] }

@[simps heads, simps -fullyApplied trans links nextId]
def setHead (s : LockTable) (rId : ResourceId) (head : Option LockHead) : LockTable :=
  { s with heads := fun r => if r = rId then head else s.heads r }

@[simps trans, simps -fullyApplied heads links]
def setTran (s : LockTable) (trId : TransactionId) (tran : Option TransCB) : LockTable :=
  { s with trans := fun t => if t = trId then tran else s.trans t }

@[simps links, simps -fullyApplied heads trans nextId]
def setLinks (s : LockTable) (id : RequestId) (links : Option TranLinks) : LockTable :=
  { s with links := fun i => if i = id then links else s.links i }

@[simps -fullyApplied heads links nextId]
def setWait (s : LockTable) (trId : TransactionId) (wait : Option RequestId) : LockTable :=
  { s with trans := fun t =>
      if t = trId then (s.trans t).map fun tran => { tran with wait := wait } else s.trans t }

end LockTable

/-! ## `lock_request` -/

def lastRequest (links : RequestId → Option TranLinks) :
    Nat → Option RequestId → Option RequestId → Except LockError (Option RequestId)
  | _, none, last => .ok last
  | 0, some _, _ => .error .endlessList
  | fuel + 1, some r, _ =>
    match links r with
    | none => .error .danglingPointer
    | some cell => lastRequest links fuel cell.tranNext (some r)

def newRequest (s : LockTable) (trId : TransactionId) (sId : SessionId) (rId : ResourceId)
    (mode : LockMode) : Except LockError (LockTable × LockRequest) :=
  let request : LockRequest :=
    { id := s.nextId, trId, sId, status := .lockGranted, mode, convertMode := .nullLock }
  let fresh := { s with nextId := s.nextId + 1 }
  match s.trans trId with
  | none =>
    .ok ((fresh.setTran trId (some ⟨some request.id, none, .normalProcessing⟩)).setLinks
      request.id (some ⟨rId, none, none⟩), request)
  | some tran => do
    match ← lastRequest s.links s.nextId tran.locks none with
    | none => .error .nullPointer
    | some last =>
      match s.links last with
      | none => .error .danglingPointer
      | some cell =>
        .ok ((fresh.setLinks last (some { cell with tranNext := some request.id })).setLinks
          request.id (some ⟨rId, some last, none⟩), request)

/-- The destructor of `lock_request`.  A request with a predecessor hands its
successor to the predecessor only. -/
def deleteRequest (s : LockTable) (request : LockRequest) : Except LockError LockTable :=
  match s.trans request.trId with
  | none => .error .se4701
  | some tran =>
    match s.links request.id with
    | none => .error .danglingPointer
    | some cell =>
      match cell.tranPrev, cell.tranNext with
      | none, none => .ok ((s.setTran request.trId none).setLinks request.id none)
      | none, some next =>
        match s.links next with
        | none => .error .danglingPointer
        | some nextCell =>
          .ok (((s.setTran request.trId (some { tran with locks := some next })).setLinks
            next (some { nextCell with tranPrev := none })).setLinks request.id none)
      | some prev, next =>
        match s.links prev with
        | none => .error .danglingPointer
        | some prevCell =>
          .ok ((s.setLinks prev (some { prevCell with tranNext := next })).setLinks
            request.id none)

/-! ## `lock` -/

def LockRequest.held (request : LockRequest) : Bool :=
  request.status == .lockGranted || request.status == .lockConverting

def updateRequest (trId : TransactionId) (f : LockRequest → LockRequest) :
    List LockRequest → List LockRequest
  | [] => []
  | request :: queue =>
    if request.trId = trId then f request :: queue
    else request :: updateRequest trId f queue

def findRequest (trId : TransactionId) (queue : List LockRequest) : Option LockRequest :=
  queue.find? fun request => request.trId = trId

def lock (s : LockTable) (trId : TransactionId) (sId : SessionId) (rId : ResourceId)
    (mode : LockMode) : Except LockError (LockTable × LockReply) :=
  match s.heads rId with
  | none => do
    -- lock is free case
    let (s, request) ← newRequest s trId sId rId mode
    return (s.setHead rId (some ⟨[request], mode, false⟩), .lockOk)
  | some head =>
    match findRequest trId head.queue with
    | none => do
      let (s, request) ← newRequest s trId sId rId mode
      if !head.waiting && lockCompat mode head.grantedMode then
        return (s.setHead rId (some { head with
          queue := head.queue ++ [request]
          grantedMode := lockMax mode head.grantedMode }), .lockOk)
      else
        return ((s.setHead rId (some { head with
          queue := head.queue ++ [{ request with status := .lockWaiting }]
          waiting := true })).setWait trId (some request.id), .lockNotLocked)
    | some own =>
      -- re-request for this transaction (conversion case)
      let convertMode := lockMax own.mode mode
      if head.queue.any fun request =>
          request.held && request.trId != trId && !lockCompat request.mode convertMode then
        .ok ((s.setHead rId (some { head with
          queue := updateRequest trId (fun request =>
            { request with convertMode := convertMode, status := .lockConverting }) head.queue
          waiting := true })).setWait trId (some own.id), .lockNotLocked)
      else
        .ok (s.setHead rId (some { head with
          queue := updateRequest trId (fun request =>
            { request with mode := convertMode, status := .lockGranted,
                           convertMode := .nullLock }) head.queue
          grantedMode := lockMax head.grantedMode convertMode }), .lockOk)

/-! ## `unlock` -/

/-- The nested loop of `unlock`: only granted requests are compared. -/
def convertCompatible (queue : List LockRequest) (request : LockRequest) : Bool :=
  queue.all fun other =>
    !(other.status == .lockGranted && other.trId != request.trId &&
      !lockCompat request.convertMode other.mode)

def grant (request : LockRequest) : LockRequest :=
  match request.status with
  | .lockConverting =>
    { request with status := .lockGranted, mode := request.convertMode, convertMode := .nullLock }
  | .lockWaiting => { request with status := .lockGranted }
  | _ => request

structure ScanResult where
  head : LockHead
  woken : List LockRequest

/-- The loop of `unlock` over the queue, with the requests already passed in
`passed`; `convertWaiting` is `convert_request_waiting`. -/
def scan (passed : List LockRequest) (grantedMode : LockMode) (waiting convertWaiting : Bool)
    (woken : List LockRequest) : List LockRequest → Except LockError ScanResult
  | [] => .ok ⟨⟨passed, grantedMode, waiting⟩, woken⟩
  | request :: rest =>
    if convertWaiting then
      match request.status with
      | .lockGranted | .lockConverting =>
        scan (passed ++ [request]) (lockMax request.mode grantedMode) waiting convertWaiting
          woken rest
      | .lockWaiting => .ok ⟨⟨passed ++ request :: rest, grantedMode, waiting⟩, woken⟩
      | _ => .error .se4701
    else
      match request.status with
      | .lockGranted =>
        scan (passed ++ [request]) (lockMax request.mode grantedMode) waiting convertWaiting
          woken rest
      | .lockWaiting =>
        if lockCompat request.mode grantedMode then
          scan (passed ++ [grant request]) (lockMax request.mode grantedMode) waiting
            convertWaiting (woken ++ [request]) rest
        else .ok ⟨⟨passed ++ request :: rest, grantedMode, true⟩, woken⟩
      | .lockConverting =>
        if convertCompatible (passed ++ request :: rest) request then
          scan (passed ++ [grant request]) (lockMax request.convertMode grantedMode) waiting
            convertWaiting (woken ++ [request]) rest
        else scan (passed ++ [request]) grantedMode true true woken rest
      | _ => .error .se4701

def wake (s : LockTable) (request : LockRequest) : LockTable :=
  match s.trans request.trId with
  | none => s
  | some tran =>
    let s := s.setWait request.trId none
    if tran.status = .rollingBackAfterDeadlock then s
    else { s with posted := s.posted ++ [request.sId] }

def unlock (s : LockTable) (trId : TransactionId) (rId : ResourceId) : Except LockError LockTable :=
  match s.heads rId with
  | none => .ok s
  | some head =>
    match findRequest trId head.queue with
    | none => .ok s
    | some request => do
      let rest := head.queue.eraseP fun r => r.trId = trId
      let s ← deleteRequest s request
      if rest.isEmpty then return s.setHead rId none
      else
        let result ← scan [] .nullLock false false [] rest
        return (result.woken.foldl wake s).setHead rId (some result.head)

/-! ## `release_tr_locks` -/

def releaseLoop (trId : TransactionId) :
    Nat → Option RequestId → LockTable → Except LockError LockTable
  | _, none, s => .ok s
  | 0, some _, _ => .error .endlessList
  | fuel + 1, some request, s =>
    match s.links request with
    | none => .error .danglingPointer
    | some cell => do
      let s ← unlock s trId cell.rId
      releaseLoop trId fuel cell.tranNext s

variable (s : LockTable)

/-- The transaction is deleted at the end; an entry still in the table would dangle. -/
def releaseTrLocks (trId : TransactionId) : Except LockError LockTable :=
  match s.trans trId with
  | none => .ok s
  | some tran => do
    let s ← releaseLoop trId s.nextId tran.locks s
    match s.trans trId with
    | none => return s
    | some _ => .error .danglingPointer

/-! ## `deadlock` -/

/-- The loop of `visit` for a waiting request: everyone ahead in the queue. -/
def blockersAhead (me : TransactionId) (wait : LockRequest) : List LockRequest → List TransactionId
  | [] => []
  | them :: rest =>
    if them.trId = me then []
    else if !lockCompat them.mode wait.mode ||
        (them.status == .lockConverting && !lockCompat them.convertMode wait.mode) then
      them.trId :: blockersAhead me wait rest
    else blockersAhead me wait rest

/-- The loop of `visit` for a converting request: everyone who holds a lock. -/
def blockersHeld (me : TransactionId) (wait : LockRequest) :
    Bool → List LockRequest → List TransactionId
  | _, [] => []
  | aheadMe, them :: rest =>
    if them.status = .lockWaiting then []
    else if them.trId = me then blockersHeld me wait false rest
    else if (aheadMe && (!lockCompat them.mode wait.convertMode ||
          (them.status == .lockConverting && !lockCompat them.convertMode wait.convertMode))) ||
        (!aheadMe && !lockCompat them.mode wait.convertMode) then
      them.trId :: blockersHeld me wait aheadMe rest
    else blockersHeld me wait aheadMe rest

def followWait (id : RequestId) : Option (LockRequest × List LockRequest) := do
  let cell ← s.links id
  let head ← s.heads cell.rId
  let request ← head.queue.find? fun request => request.id = id
  return (request, head.queue)

def blockers (me : TransactionId) : Except LockError (List TransactionId) :=
  match (s.trans me).bind TransCB.wait with
  | none => .ok []
  | some id =>
    match followWait s id with
    | none => .error .danglingPointer
    | some (wait, queue) =>
      if wait.status = .lockWaiting then .ok (blockersAhead me wait queue)
      else .ok (blockersHeld me wait true queue)

def hasWait (me : TransactionId) : Bool := ((s.trans me).bind TransCB.wait).isSome

/-- `visit` throws SE4705 when it meets the first transaction again.  A visit
nested in another is at a transaction not visited before, so a level for each
request ever made is enough. -/
def visit (s : LockTable) (me : TransactionId) :
    Except (DepthFirst.Exit LockError) (List TransactionId) :=
  DepthFirst.visit (hasWait s) (blockers s) (s.nextId + 1) me []

def deadlock (trId : TransactionId) : Except LockError Bool :=
  match s.trans trId with
  | none => .error .inconsistentState
  | some _ =>
    match visit s trId with
    | .ok _ => .ok false
    | .error .cycle => .ok true
    | .error .outOfFuel => .error .endlessList
    | .error (.fault e) => .error e

/-! ## Runs -/

inductive Call where
  | lock (trId : TransactionId) (sId : SessionId) (rId : ResourceId) (mode : LockMode)
  | unlock (trId : TransactionId) (rId : ResourceId)
  | releaseTrLocks (trId : TransactionId)
  deriving DecidableEq

def perform : Call → Except LockError LockTable
  | .lock trId sId rId mode => (lock s trId sId rId mode).map Prod.fst
  | .unlock trId rId => unlock s trId rId
  | .releaseTrLocks trId => releaseTrLocks s trId

def IsWaiting (trId : TransactionId) : Prop :=
  ∃ rId head, s.heads rId = some head ∧
    ∃ request ∈ head.queue, request.trId = trId ∧ request.status ≠ .lockGranted

def Allowed : Call → Prop
  | .lock trId _ _ _ => ¬ IsWaiting s trId
  | _ => True

def Step (condition : LockTable → Call → Prop) (s s' : LockTable) : Prop :=
  ∃ call, Allowed s call ∧ condition s call ∧ perform s call = .ok s'

def Reachable (condition : LockTable → Call → Prop) (s : LockTable) : Prop :=
  Relation.ReflTransGen (Step condition) LockTable.init s

def anyCall (_ : LockTable) (_ : Call) : Prop := True

end Sedna.LockManager.Table
