import Sedna.Library.Fields
import Sedna.Log.LogicalLog
import Sedna.Structures.Schema
import Sedna.Log.Analysis

/-!
# Records of logical operations

The functions of `hl_logical_log.cpp` that write a record for an operation on nodes,
documents, collections, indexes and triggers, and those of `logicrcv.cpp` that read it and repeat
the operation or, in a rollback, perform its inverse.  What these call is an update of the
database, a `Call`; reading behind the end of a record gives `none`.  The log cannot store a null
pointer: the writers store an empty text in its place.
-/

def Sedna.Structures.Schema.Xmlns.empty : Xmlns Library.Fields.CString := ⟨.empty, .empty⟩

namespace Sedna.Log

export Sedna.Library.Fields (Field)

open Library.Bytes Library.Fields Structures.Schema

/-! ## Arguments -/

structure Xptr where
  layer : Int32
  offs : UInt32
  deriving DecidableEq

def xptr : Field Xptr :=
  mapped (pair uint32 uint32) (fun x => ⟨.ofUInt32 x.1, x.2⟩) (fun p => (p.layer.toUInt32, p.offs))
    (fun _ => rfl)

def xmlscmType : Field Int16 := mapped uint16 Int16.ofUInt16 Int16.toUInt16 (fun _ => rfl)

inductive IndexBackend
  | btree
  | bstrie
  deriving DecidableEq

def IndexBackend.code : IndexBackend → Nat
  | .btree => 0x100
  | .bstrie => 0x200

inductive TriggerEvent
  | insert
  | delete
  | replace
  deriving DecidableEq

inductive TriggerTime
  | before
  | after
  deriving DecidableEq

inductive TriggerGranularity
  | forEachNode
  | forEachStatement
  deriving DecidableEq

def enum {α : Type} (all : List α) (code : α → Nat) (lt : ∀ a, code a < 256 ^ 4)
    (find : ∀ a, (all.find? fun b => code b = code a) = some a) : Field α :=
  number 4 code (fun n => all.find? fun b => code b = n) lt find

def tItem : Field TItem :=
  enum [.element, .text, .attribute, .document, .virtualRoot, .xmlNamespace, .comment, .prIns]
    TItem.code (by intro a; cases a <;> decide) (by intro a; cases a <;> rfl)

def indexBackend : Field IndexBackend :=
  enum [.btree, .bstrie] IndexBackend.code (by intro a; cases a <;> decide)
    (by intro a; cases a <;> rfl)

def triggerEvent : Field TriggerEvent :=
  enum [.insert, .delete, .replace] TriggerEvent.ctorIdx (by intro a; cases a <;> decide)
    (by intro a; cases a <;> rfl)

def triggerTime : Field TriggerTime :=
  enum [.before, .after] TriggerTime.ctorIdx (by intro a; cases a <;> decide)
    (by intro a; cases a <;> rfl)

def triggerGranularity : Field TriggerGranularity :=
  enum [.forEachNode, .forEachStatement] TriggerGranularity.ctorIdx
    (by intro a; cases a <;> decide) (by intro a; cases a <;> rfl)

/-- The text that `toLRString` makes of a path, and that a path is made of: `(xpath …)`. -/
structure PathExpression where
  lr : CString
  lr_ne : lr ≠ .empty
  deriving DecidableEq

/-- `index_descriptor_t`.  The owner is found in the catalog by its name. -/
structure IndexDescriptor where
  object : PathExpression
  key : PathExpression
  keytype : Int16
  indexTitle : CString
  owner : CString
  backendType : IndexBackend
  deriving DecidableEq

structure InsertingNode where
  name : Option CString
  type : TItem
  deriving DecidableEq

def actionBuf (statements : List CString) : Bytes := statements.flatMap cstring.put

/-- A chain of `trigger_action_cell`; the length of its texts is an `unsigned`. -/
structure TriggerAction where
  statements : List CString
  length_lt : (actionBuf statements).length < 2 ^ 32
  deriving DecidableEq

def TriggerAction.buf (trac : TriggerAction) : Block := ⟨actionBuf trac.statements, trac.length_lt⟩

/-! ## Writers -/

/-- What the writers find in the session: the log, `enable_log` and the transaction. -/
structure Session where
  cfg : Config
  enableLog : Bool
  trid : Trid

variable (w : Session)

/-- A writer counts its fields for `llLogGeneral`; with `enable_log` off it does nothing. -/
def Session.log (op : LlOperations) (num : Nat) (fields : List Bytes)
    (s : LlState) : Option LlState :=
  if w.enableLog then
    (llLogGeneral w.cfg (.trRecord w.trid) op false (fields.take num) s).map Prod.snd
  else some s

def textField (text : Option CString) : Bytes := cstring.put (text.getD .empty)

def hlLogicalLogElement (self left right parent : Xptr) (name : CString)
    (type : Int16) (uri pref : Option CString) (inserted : Bool) : LlState → Option LlState :=
  w.log (if inserted then .llInsertElem else .llDeleteElem) 8
    [cstring.put name, textField uri, textField pref, xmlscmType.put type,
      xptr.put self, xptr.put left, xptr.put right, xptr.put parent]

def hlLogicalLogAttribute (self left right parent : Xptr) (name : CString)
    (type : Int16) (value : Block) (uri pref : Option CString) (inserted : Bool) :
    LlState → Option LlState :=
  w.log (if inserted then .llInsertAttr else .llDeleteAttr) 10
    [cstring.put name, textField uri, textField pref, uint32.put value.size, value.bytes,
      xmlscmType.put type, xptr.put self, xptr.put left, xptr.put right, xptr.put parent]

def hlLogicalLogText (self left right parent : Xptr) (value : Block)
    (inserted : Bool) : LlState → Option LlState :=
  w.log (if inserted then .llInsertText else .llDeleteText) 6
    [uint32.put value.size, value.bytes,
      xptr.put self, xptr.put left, xptr.put right, xptr.put parent]

/-- `begins` says that the text is edited at its head, not at its tail. -/
def hlLogicalLogTextEdit (self : Xptr) (value : Block) (begins inserted : Bool) :
    LlState → Option LlState :=
  w.log
    (if begins then (if inserted then .llInsertLeftText else .llDeleteLeftText)
      else (if inserted then .llInsertRightText else .llDeleteRightText)) 3
    [uint32.put value.size, value.bytes, xptr.put self]

def hlLogicalLogComment (self left right parent : Xptr) (value : Block)
    (inserted : Bool) : LlState → Option LlState :=
  w.log (if inserted then .llInsertComment else .llDeleteComment) 6
    [uint32.put value.size, value.bytes,
      xptr.put self, xptr.put left, xptr.put right, xptr.put parent]

def hlLogicalLogDocument (self : Xptr) (name : CString)
    (collection : Option CString) (inserted : Bool) : LlState → Option LlState :=
  w.log (if inserted then .llInsertDoc else .llDeleteDoc) 3
    [cstring.put name, textField collection, xptr.put self]

def hlLogicalLogRenameCollection (oldName newName : CString) : LlState → Option LlState :=
  w.log .llRenameCollection 2 [cstring.put oldName, cstring.put newName]

def hlLogicalLogCollection (name : CString) (inserted : Bool) : LlState → Option LlState :=
  w.log (if inserted then .llInsertCollection else .llDeleteCollection) 1 [cstring.put name]

/-- The URI of a namespace node is never missing. -/
def hlLogicalLogNamespace (self left right parent : Xptr) (uri : CString)
    (pref : Option CString) (inserted : Bool) : LlState → Option LlState :=
  w.log (if inserted then .llInsertNs else .llDeleteNs) 6
    [cstring.put uri, textField pref, xptr.put self, xptr.put left, xptr.put right, xptr.put parent]

/-- `isDocument` is what the owner of the index is. -/
def hlLogicalLogIndex (dsc : IndexDescriptor) (isDocument inserted : Bool) :
    LlState → Option LlState :=
  w.log
    (if isDocument then (if inserted then .llInsertDocIndex else .llDeleteDocIndex)
      else (if inserted then .llInsertColIndex else .llDeleteColIndex)) 6
    [cstring.put dsc.object.lr, cstring.put dsc.key.lr, xmlscmType.put dsc.keytype,
      cstring.put dsc.indexTitle, cstring.put dsc.owner, indexBackend.put dsc.backendType]

def hlLogicalLogTrigger (time : TriggerTime) (event : TriggerEvent)
    (path : PathExpression) (gran : TriggerGranularity) (trac : TriggerAction)
    (insnode : InsertingNode) (pathToParent : Option PathExpression) (title docName : CString)
    (isDoc inserted : Bool) : LlState → Option LlState :=
  w.log
    (if isDoc then (if inserted then .llInsertDocTrg else .llDeleteDocTrg)
      else (if inserted then .llInsertColTrg else .llDeleteColTrg)) 11
    [triggerTime.put time, triggerEvent.put event, cstring.put path.lr,
      triggerGranularity.put gran, uint32.put trac.buf.size, trac.buf.bytes,
      textField insnode.name, tItem.put insnode.type,
      textField (pathToParent.map PathExpression.lr), cstring.put title, cstring.put docName]

/-! ## What is written -/

def recordBody (op : LlOperations) (trid : Trid) (fields : List Bytes) : Bytes :=
  op.code :: (le 4 trid ++ fields.flatten)

theorem copyFields_eq {maxLen : Nat} {rec rec' : Bytes} {fields : List Bytes}
    (h : copyFields maxLen rec fields = some rec') : rec' = rec ++ fields.flatten := by
  induction fields generalizing rec with
  | nil => simpa [copyFields] using h.symm
  | cons field fields ih =>
    rw [copyFields] at h
    split at h
    · cases h
    · rw [ih h, List.flatten_cons, List.append_assoc]

theorem Session.log_inserts {w : Session} {op : LlOperations} {num : Nat} {fields : List Bytes}
    {s s' : LlState} (hon : w.enableLog = true) (hlen : fields.length ≤ num)
    (h : w.log op num fields s = some s') :
    ∃ lsn r, s'.history = .insert (.trRecord w.trid) lsn r :: s.history ∧
      r.body = recordBody op w.trid fields := by
  unfold Session.log at h
  rw [if_pos hon, List.take_of_length_le hlen, Option.map_eq_some_iff] at h
  obtain ⟨⟨recLsn, s1⟩, hgeneral, rfl⟩ := h
  unfold llLogGeneral at hgeneral
  simp only at hgeneral
  split at hgeneral
  · cases hgeneral
  next rec hcopy =>
    split at hgeneral
    · cases hgeneral
    next lsn s2 hins =>
      obtain ⟨rfl, rfl⟩ := hgeneral
      unfold llInsertRecord at hins
      simp only at hins
      split at hins
      · cases hins
      next retLsn storage _ =>
        simp only [Option.some.injEq, Prod.mk.injEq] at hins
        obtain ⟨rfl, rfl⟩ := hins
        exact ⟨retLsn, _, rfl, copyFields_eq hcopy⟩

/-! ## Calls -/

inductive FtIndexType
  | xml
  | xmlHl
  | stringValue
  | delimitedValue
  | customizedValue
  deriving DecidableEq

def ftIndexType : Field FtIndexType :=
  enum [.xml, .xmlHl, .stringValue, .delimitedValue, .customizedValue] FtIndexType.ctorIdx
    (by intro a; cases a <;> decide) (by intro a; cases a <;> rfl)

structure FtIndexPair where
  ns : Option (Xmlns CString)
  name : CString
  type : FtIndexType
  deriving DecidableEq

inductive InsertPosition
  | head
  | tail
  deriving DecidableEq

/-- The updates with their arguments.  Nodes are given by their indirection pointers.  An
insertion with a rollback record reuses that pointer for the new node. -/
inductive Call
  | insertElement (rollbackRecord : Option Xptr) (left right parent : Xptr) (name : CString)
      (type : Int16) (ns : Option (Xmlns CString))
  | insertAttribute (rollbackRecord : Option Xptr) (left right parent : Xptr) (name : CString)
      (type : Int16) (value : Block) (ns : Option (Xmlns CString))
  | insertText (rollbackRecord : Option Xptr) (left right parent : Xptr) (value : Block)
  | insertComment (rollbackRecord : Option Xptr) (left right parent : Xptr) (value : Block)
  | insertPi (rollbackRecord : Option Xptr) (left right parent : Xptr) (target data : Bytes)
  | insertNamespace (rollbackRecord : Option Xptr) (left right parent : Xptr)
      (ns : Option (Xmlns CString))
  | deleteNode (self : Xptr)
  | insertTextValue (position : InsertPosition) (self : Xptr) (value : Block)
  | deleteTextValue (position : InsertPosition) (self : Xptr) (size : UInt32)
  | insertDocument (rollbackRecord : Option Xptr) (name : CString)
  | insertDocumentIntoCollection (rollbackRecord : Option Xptr) (collection name : CString)
  | deleteDocument (name : CString)
  | deleteDocumentFromCollection (collection name : CString)
  | insertCollection (name : CString)
  | deleteCollection (name : CString)
  | renameCollection (oldName newName : CString)
  | createIndex (dsc : IndexDescriptor)
  | dropIndex (title : CString)
  | createFtIndex (object : PathExpression) (type : FtIndexType) (title docName : CString)
      (isDoc : Bool) (custTree : Option (List FtIndexPair)) (options : CString)
  | deleteFtIndex (title : CString)
  | createTrigger (time : TriggerTime) (event : TriggerEvent) (path : PathExpression)
      (gran : TriggerGranularity) (rcvTac : Option (List CString)) (innode : InsertingNode)
      (pathToParent : Option PathExpression) (title docName : CString) (isDoc : Bool)
  | deleteTrigger (title : CString)
  deriving DecidableEq

/-! ## The map of indirection pointers -/

/-- `indir_map`: the cells of a hash table, with the first cell of a row before those that
collide with it. -/
abbrev IndirMap := Nat → List (Xptr × Xptr)

namespace IndirMap

def row (key : Xptr) : Nat := key.offs.toNat / 2 ^ 16

/-- `find(key, &key)`: the pointer stays what it is when the map does not have it. -/
def find (map : IndirMap) (key : Xptr) : Xptr :=
  match (map (row key)).find? (·.1 = key) with
  | none => key
  | some cell => cell.2

/-- `insert` does not look whether the map has the key. -/
def insert (map : IndirMap) (key value : Xptr) : IndirMap :=
  Function.update map (row key)
    (match map (row key) with
      | [] => [(key, value)]
      | cell :: cells => cell :: (key, value) :: cells)

def remove (map : IndirMap) (key : Xptr) : IndirMap :=
  Function.update map (row key) ((map (row key)).eraseP (·.1 = key))

end IndirMap

/-- What a recovery function does: an update, the map with which it is made, and the logged
pointer of the node that it creates. -/
structure Replay where
  call : Call
  indirMap : IndirMap
  creates : Option Xptr

/-- The end of a recovery function: `selfRes` is the pointer that a new node was given. -/
def Replay.finish (r : Replay) (selfRes : Xptr) : IndirMap :=
  match r.creates with
  | none => r.indirMap
  | some self => if selfRes ≠ self then r.indirMap.insert self selfRes else r.indirMap

/-! ## Nodes -/

def llGetNamespaceFromRecord (pref uri : CString) : Option (Xmlns CString) :=
  if pref.bytes.length = 0 ∧ uri.bytes.length = 0 then none else some ⟨pref, uri⟩

structure Place where
  self : Xptr
  left : Xptr
  right : Xptr
  parent : Xptr
  deriving DecidableEq

def getPlace (rest : Bytes) : Option Place := do
  let (self, rest) ← xptr.get rest
  let (left, rest) ← xptr.get rest
  let (right, rest) ← xptr.get rest
  let (parent, _) ← xptr.get rest
  some ⟨self, left, right, parent⟩

/-- A record asks for an insertion if it is undone and tells of a deletion, or if it is
redone and tells of an insertion. -/
def inserts (isUNDO : Bool) (op : UInt8) (ins del : LlOperations) : Bool :=
  (isUNDO && op == del.code) || (!isUNDO && op == ins.code)

def replayNode (isUNDO : Bool) (map : IndirMap) (inserting : Bool) (place : Place)
    (insert : Option Xptr → Xptr → Xptr → Xptr → Call) : Replay :=
  if inserting then
    if isUNDO then
      { call := insert (some place.self) place.left place.right place.parent
        indirMap := map
        creates := some place.self }
    else
      { call := insert none (map.find place.left) (map.find place.right) (map.find place.parent)
        indirMap := map
        creates := some place.self }
  else if isUNDO then
    { call := .deleteNode place.self, indirMap := map, creates := none }
  else
    { call := .deleteNode (map.find place.self), indirMap := map.remove place.self,
      creates := none }

def fieldsOf (rec : Bytes) : Bytes := rec.drop (1 + 4)

section

variable (isUNDO : Bool) (map : IndirMap) (rec : Bytes)

def llRcvElement : Option Replay := do
  let op ← rec.head?
  let (name, rest) ← cstring.get (fieldsOf rec)
  let (uri, rest) ← cstring.get rest
  let (pref, rest) ← cstring.get rest
  let (type, rest) ← xmlscmType.get rest
  let place ← getPlace rest
  some (replayNode isUNDO map (inserts isUNDO op .llInsertElem .llDeleteElem) place
    fun at_ left right parent =>
      .insertElement at_ left right parent name type (llGetNamespaceFromRecord pref uri))

def llRcvAttribute : Option Replay := do
  let op ← rec.head?
  let (name, rest) ← cstring.get (fieldsOf rec)
  let (uri, rest) ← cstring.get rest
  let (pref, rest) ← cstring.get rest
  let (valueSize, rest) ← uint32.get rest
  let (value, rest) ← takeBlock valueSize rest
  let (type, rest) ← xmlscmType.get rest
  let place ← getPlace rest
  some (replayNode isUNDO map (inserts isUNDO op .llInsertAttr .llDeleteAttr) place
    fun at_ left right parent =>
      .insertAttribute at_ left right parent name type value (llGetNamespaceFromRecord pref uri))

def llRcvText : Option Replay := do
  let op ← rec.head?
  let (valueSize, rest) ← uint32.get (fieldsOf rec)
  let (value, rest) ← takeBlock valueSize rest
  let place ← getPlace rest
  some (replayNode isUNDO map (inserts isUNDO op .llInsertText .llDeleteText) place
    fun at_ left right parent => .insertText at_ left right parent value)

def llRcvComment : Option Replay := do
  let op ← rec.head?
  let (valueSize, rest) ← uint32.get (fieldsOf rec)
  let (value, rest) ← takeBlock valueSize rest
  let place ← getPlace rest
  some (replayNode isUNDO map (inserts isUNDO op .llInsertComment .llDeleteComment) place
    fun at_ left right parent => .insertComment at_ left right parent value)

/-- The target stands before the data in one value. -/
def llRcvPI : Option Replay := do
  let op ← rec.head?
  let (totalSize, rest) ← uint32.get (fieldsOf rec)
  let (targetSize, rest) ← uint16.get rest
  let (value, rest) ← takeBlock totalSize rest
  let place ← getPlace rest
  if targetSize.toNat ≤ totalSize.toNat then
    some (replayNode isUNDO map (inserts isUNDO op .llInsertPi .llDeletePi) place
      fun at_ left right parent =>
        .insertPi at_ left right parent (value.bytes.take targetSize.toNat)
          (value.bytes.drop targetSize.toNat))
  else none

def llRcvNS : Option Replay := do
  let op ← rec.head?
  let (uri, rest) ← cstring.get (fieldsOf rec)
  let (pref, rest) ← cstring.get rest
  let place ← getPlace rest
  some (replayNode isUNDO map (inserts isUNDO op .llInsertNs .llDeleteNs) place
    fun at_ left right parent =>
      .insertNamespace at_ left right parent (llGetNamespaceFromRecord pref uri))

def llRcvTextEdit : Option Replay := do
  let op ← rec.head?
  let (valueSize, rest) ← uint32.get (fieldsOf rec)
  let (value, rest) ← takeBlock valueSize rest
  let (self, _) ← xptr.get rest
  let self := if isUNDO then self else map.find self
  let position : InsertPosition :=
    if op = LlOperations.llInsertRightText.code ∨ op = LlOperations.llDeleteRightText.code then
      .tail
    else .head
  let inserting := inserts isUNDO op .llInsertLeftText .llDeleteLeftText ||
    inserts isUNDO op .llInsertRightText .llDeleteRightText
  some
    { call := if inserting then .insertTextValue position self value
        else .deleteTextValue position self valueSize
      indirMap := map
      creates := none }

/-! ## Documents and collections -/

def llRcvDoc : Option Replay := do
  let op ← rec.head?
  let (name, rest) ← cstring.get (fieldsOf rec)
  let (collection, rest) ← cstring.get rest
  let (self, _) ← xptr.get rest
  let standalone := collection.bytes.length = 0
  let at_ := if isUNDO then some self else none
  if inserts isUNDO op .llInsertDoc .llDeleteDoc then
    some
      { call := if standalone then .insertDocument at_ name
          else .insertDocumentIntoCollection at_ collection name
        indirMap := map
        creates := some self }
  else
    some
      { call := if standalone then .deleteDocument name
          else .deleteDocumentFromCollection collection name
        indirMap := if isUNDO then map else map.remove self
        creates := none }

def llRcvCollection : Option Replay := do
  let op ← rec.head?
  let (name, _) ← cstring.get (fieldsOf rec)
  some
    { call := if inserts isUNDO op .llInsertCollection .llDeleteCollection then
          .insertCollection name
        else .deleteCollection name
      indirMap := map
      creates := none }

def llRcvRenameColl : Option Replay := do
  let (oldName, rest) ← cstring.get (fieldsOf rec)
  let (newName, _) ← cstring.get rest
  some
    { call :=
        if isUNDO then .renameCollection newName oldName else .renameCollection oldName newName
      indirMap := map
      creates := none }

/-! ## Indexes and triggers -/

/-- A path is made of a text that is not empty. -/
def pathExpression (text : CString) : Option PathExpression :=
  if h : text = .empty then none else some ⟨text, h⟩

def llRcvIndex : Option Replay := do
  let op ← rec.head?
  let (objPath, rest) ← cstring.get (fieldsOf rec)
  let (keyPath, rest) ← cstring.get rest
  let (keyType, rest) ← xmlscmType.get rest
  let (indName, rest) ← cstring.get rest
  let (docName, rest) ← cstring.get rest
  let (backend, _) ← indexBackend.get rest
  if inserts isUNDO op .llInsertDocIndex .llDeleteDocIndex ||
      inserts isUNDO op .llInsertColIndex .llDeleteColIndex then do
    let object ← pathExpression objPath
    let key ← pathExpression keyPath
    some
      { call := .createIndex
          { object, key, keytype := keyType, indexTitle := indName, owner := docName
            backendType := backend }
        indirMap := map
        creates := none }
  else some { call := .dropIndex indName, indirMap := map, creates := none }

/-- `ft_rebuild_cust_tree`: a rule has a namespace only if there is a prefix. -/
def ftRules (n : Nat) (bytes : Bytes) : Option (List FtIndexPair) :=
  if n = 0 then some []
  else do
    let (type, rest) ← ftIndexType.get bytes
    let (uri, rest) ← cstring.get rest
    let (pref, rest) ← cstring.get rest
    let (name, rest) ← cstring.get rest
    let ns := if pref.bytes = [] then none else some ⟨pref, uri⟩
    let rules ← ftRules (n - (4 + (cstring.put uri).length + (cstring.put pref).length +
      (cstring.put name).length)) rest
    some (⟨ns, name, type⟩ :: rules)
termination_by n

def llRcvFtIndex : Option Replay := do
  let op ← rec.head?
  let (objPath, rest) ← cstring.get (fieldsOf rec)
  let (itconst, rest) ← ftIndexType.get rest
  let (indName, rest) ← cstring.get rest
  let (docName, rest) ← cstring.get rest
  let (options, rest) ← cstring.get rest
  let (customTreeSize, rest) ← uint32.get rest
  if inserts isUNDO op .llInsertDocFtsIndex .llDeleteDocFtsIndex ||
      inserts isUNDO op .llInsertColFtsIndex .llDeleteColFtsIndex then do
    let object ← pathExpression objPath
    let rules ← ftRules customTreeSize.toNat rest
    some
      { call := .createFtIndex object itconst indName docName
          (op = LlOperations.llDeleteDocFtsIndex.code ∨ op = LlOperations.llInsertDocFtsIndex.code)
          (if customTreeSize = 0 then none else some rules) options
        indirMap := map
        creates := none }
  else some { call := .deleteFtIndex indName, indirMap := map, creates := none }

/-- The loop that makes a chain of statements again; `n` bytes of the buffer are left. -/
def rcvActions (n : Nat) (bytes : Bytes) : Option (List CString) :=
  if n = 0 then some []
  else do
    let (statement, rest) ← cstring.get bytes
    let statements ← rcvActions (n - (statement.bytes.length + 1)) rest
    some (statement :: statements)
termination_by n

/-- The first cell of the chain is allocated before the loop: without a statement nothing
is written to it. -/
def llRcvTrigger : Option Replay := do
  let op ← rec.head?
  let (time, rest) ← triggerTime.get (fieldsOf rec)
  let (event, rest) ← triggerEvent.get rest
  let (triggerPath, rest) ← cstring.get rest
  let (gran, rest) ← triggerGranularity.get rest
  let (actionSize, rest) ← uint32.get rest
  let actionBuf := rest
  let (_, rest) ← takeBlock actionSize rest
  let (innodeName, rest) ← cstring.get rest
  let (innodeType, rest) ← tItem.get rest
  let (pathToParent, rest) ← cstring.get rest
  let (title, rest) ← cstring.get rest
  let (docName, _) ← cstring.get rest
  let statements ← rcvActions actionSize.toNat actionBuf
  if inserts isUNDO op .llInsertDocTrg .llDeleteDocTrg ||
      inserts isUNDO op .llInsertColTrg .llDeleteColTrg then do
    let path ← pathExpression triggerPath
    some
      { call := .createTrigger time event path gran
          (if actionSize = 0 then none else some statements) ⟨some innodeName, innodeType⟩
          (pathExpression pathToParent) title docName
          (op = LlOperations.llDeleteDocTrg.code ∨ op = LlOperations.llInsertDocTrg.code)
        indirMap := map
        creates := none }
  else some { call := .deleteTrigger title, indirMap := map, creates := none }

/-! ## The table -/

def rcvFunction : RcvFun → Bool → IndirMap → Bytes → Option Replay
  | .llRcvElement => llRcvElement
  | .llRcvAttribute => llRcvAttribute
  | .llRcvText => llRcvText
  | .llRcvTextEdit => llRcvTextEdit
  | .llRcvDoc => llRcvDoc
  | .llRcvComment => llRcvComment
  | .llRcvPI => llRcvPI
  | .llRcvCollection => llRcvCollection
  | .llRcvNS => llRcvNS
  | .llRcvIndex => llRcvIndex
  | .llRcvFtIndex => llRcvFtIndex
  | .llRcvTrigger => llRcvTrigger
  | .llRcvRenameColl => llRcvRenameColl

end

def replay (isUNDO : Bool) (map : IndirMap) (r : Record) : Option Replay :=
  match llFindRecInfo llRcvLogRecsInfo r.op with
  | none => none
  | some f => rcvFunction f isUNDO map r.body

end Sedna.Log
