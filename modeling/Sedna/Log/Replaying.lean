import Sedna.Log.LogicalRecords
import Sedna.Log.Sessions

/-!
# Replaying logical operations

An operation that was logged is redone with the arguments it had, where the pointers to nodes go
through the map of the redo, and it is undone by its inverse, as long as the record can tell the
arguments from others.  Two records lose their arguments: that of a processing instruction, which
has the separator in its value, and that of a full-text index, whose rules are not counted.
-/

namespace Sedna.Log

open Library.Bytes Library.Fields Structures.Schema List Xmlns Session

/-! ## Operations -/

/-- The logged operations with their arguments.  `pathToParent` and the name of the
inserting node of a trigger may be missing. -/
inductive Operation
  | element (place : Place) (name : CString) (type : Int16) (ns : Option (Xmlns CString))
  | attr (place : Place) (name : CString) (type : Int16) (value : Block)
      (ns : Option (Xmlns CString))
  | text (place : Place) (value : Block)
  | textEdit (self : Xptr) (value : Block) (begins : Bool)
  | comment (place : Place) (value : Block)
  | xmlNamespace (place : Place) (ns : Xmlns CString)
  | document (self : Xptr) (name : CString) (collection : Option CString)
  | collection (name : CString)
  | renameCollection (oldName newName : CString)
  | index (dsc : IndexDescriptor) (isDocument : Bool)
  | trigger (time : TriggerTime) (event : TriggerEvent) (path : PathExpression)
      (gran : TriggerGranularity) (trac : TriggerAction) (insnode : InsertingNode)
      (pathToParent : Option PathExpression) (title docName : CString) (isDoc : Bool)

/-- The writer of an operation: `inserted` says that something is created, or that a
collection gets its new name. -/
def Operation.log (w : Session) (o : Operation) (inserted : Bool) : LlState → Option LlState :=
  match o with
  | .element p name type ns =>
    hlLogicalLogElement w p.self p.left p.right p.parent name type (ns.map Xmlns.uri)
      (ns.map Xmlns.pref) inserted
  | .attr p name type value ns =>
    hlLogicalLogAttribute w p.self p.left p.right p.parent name type value (ns.map Xmlns.uri)
      (ns.map Xmlns.pref) inserted
  | .text p value => hlLogicalLogText w p.self p.left p.right p.parent value inserted
  | .textEdit self value begins => hlLogicalLogTextEdit w self value begins inserted
  | .comment p value => hlLogicalLogComment w p.self p.left p.right p.parent value inserted
  | .xmlNamespace p ns =>
    hlLogicalLogNamespace w p.self p.left p.right p.parent ns.uri (some ns.pref) inserted
  | .document self name coll => hlLogicalLogDocument w self name coll inserted
  | .collection name => hlLogicalLogCollection w name inserted
  | .renameCollection oldName newName =>
    if inserted then hlLogicalLogRenameCollection w oldName newName
    else hlLogicalLogRenameCollection w newName oldName
  | .index dsc isDocument => hlLogicalLogIndex w dsc isDocument inserted
  | .trigger time event path gran trac insnode pathToParent title docName isDoc =>
    hlLogicalLogTrigger w time event path gran trac insnode pathToParent title docName isDoc
      inserted

/-- The update that performs the operation; `self` is the pointer that the new node has to
be given. -/
def Operation.create (o : Operation) (self : Xptr → Option Xptr) (node : Xptr → Xptr) : Call :=
  match o with
  | .element p name type ns =>
    .insertElement (self p.self) (node p.left) (node p.right) (node p.parent) name type ns
  | .attr p name type value ns =>
    .insertAttribute (self p.self) (node p.left) (node p.right) (node p.parent) name type value ns
  | .text p value => .insertText (self p.self) (node p.left) (node p.right) (node p.parent) value
  | .textEdit p value begins => .insertTextValue (if begins then .head else .tail) (node p) value
  | .comment p value =>
    .insertComment (self p.self) (node p.left) (node p.right) (node p.parent) value
  | .xmlNamespace p ns =>
    .insertNamespace (self p.self) (node p.left) (node p.right) (node p.parent) (some ns)
  | .document p name none => .insertDocument (self p) name
  | .document p name (some coll) => .insertDocumentIntoCollection (self p) coll name
  | .collection name => .insertCollection name
  | .renameCollection oldName newName => .renameCollection oldName newName
  | .index dsc _ => .createIndex dsc
  | .trigger time event path gran trac insnode pathToParent title docName isDoc =>
    .createTrigger time event path gran (some trac.statements) insnode pathToParent title docName
      isDoc

def Operation.destroy (o : Operation) (node : Xptr → Xptr) : Call :=
  match o with
  | .element p _ _ _ => .deleteNode (node p.self)
  | .attr p _ _ _ _ => .deleteNode (node p.self)
  | .text p _ => .deleteNode (node p.self)
  | .textEdit p value begins =>
    .deleteTextValue (if begins then .head else .tail) (node p) value.size
  | .comment p _ => .deleteNode (node p.self)
  | .xmlNamespace p _ => .deleteNode (node p.self)
  | .document _ name none => .deleteDocument name
  | .document _ name (some coll) => .deleteDocumentFromCollection coll name
  | .collection name => .deleteCollection name
  | .renameCollection oldName newName => .renameCollection newName oldName
  | .index dsc _ => .dropIndex dsc.indexTitle
  | .trigger _ _ _ _ _ _ _ title _ _ => .deleteTrigger title

def Operation.redo (o : Operation) (inserted : Bool) (map : IndirMap) : Call :=
  if inserted then o.create (fun _ => none) map.find else o.destroy map.find

/-- What the rollback of a record has to do: the inverse of the operation. -/
def Operation.undo (o : Operation) (inserted : Bool) : Call :=
  if inserted then o.destroy id else o.create some id

/-- The arguments that a record can tell from others: neither the namespace with an empty
prefix and an empty URI, nor a collection without a name, nor a trigger without
statements or without the name of an inserting node. -/
def Operation.Distinct : Operation → Prop
  | .element _ _ _ ns => ns ≠ some .empty
  | .attr _ _ _ _ ns => ns ≠ some .empty
  | .xmlNamespace _ ns => ns ≠ .empty
  | .document _ _ coll => coll ≠ some .empty
  | .trigger _ _ _ _ trac insnode _ _ _ _ => trac.statements ≠ [] ∧ insnode.name ≠ none
  | .text _ _ | .textEdit _ _ _ | .comment _ _ | .collection _ | .renameCollection _ _ => True
  | .index _ _ => True

/-! ## Reading what was written -/

section

variable {op : LlOperations} {trid : Trid} {fields : List Bytes} {isUNDO inserted : Bool}
  {map : IndirMap}

@[simp] theorem head_recordBody : (recordBody op trid fields).head? = some op.code := rfl

theorem bind_head_recordBody {β : Type} (k : UInt8 → Option β) :
    ((recordBody op trid fields).head? >>= k) = k op.code := rfl

@[simp] theorem fieldsOf_recordBody : fieldsOf (recordBody op trid fields) = fields.flatten := by
  unfold fieldsOf recordBody
  rw [add_comm, drop_succ_cons]
  exact drop_left' (length_le 4 trid)

@[simp] theorem getPlace_put (p : Place) :
    getPlace (xptr.put p.self ++ (xptr.put p.left ++ (xptr.put p.right ++ xptr.put p.parent))) =
      some p := by
  simp [getPlace]

theorem inserts_eq {ins del : LlOperations} (h : ins ≠ del) :
    inserts isUNDO (if inserted then ins else del).code ins del = (inserted != isUNDO) := by
  cases isUNDO <;> cases inserted <;> simp [inserts, code_inj, h, h.symm]

def eitherOp (first inserted : Bool) (ins1 del1 ins2 del2 : LlOperations) : LlOperations :=
  if first then (if inserted then ins1 else del1) else (if inserted then ins2 else del2)

section

variable {first : Bool} {ins1 del1 ins2 del2 : LlOperations}

section

variable (h : [ins1, del1, ins2, del2].Nodup)
include h

theorem inserts_either :
    (inserts isUNDO (eitherOp first inserted ins1 del1 ins2 del2).code ins1 del1 ||
      inserts isUNDO (eitherOp first inserted ins1 del1 ins2 del2).code ins2 del2) =
        (inserted != isUNDO) := by
  unfold inserts eitherOp
  cases first <;> cases inserted <;> cases isUNDO <;> grind [code_inj]

theorem either_first :
    ((eitherOp first inserted ins1 del1 ins2 del2).code = del1.code ∨
      (eitherOp first inserted ins1 del1 ins2 del2).code = ins1.code) ↔ first = true := by
  cases first <;> cases inserted <;> grind [eitherOp, code_inj]

theorem either_second :
    ((eitherOp first inserted ins1 del1 ins2 del2).code = ins2.code ∨
      (eitherOp first inserted ins1 del1 ins2 del2).code = del2.code) ↔ first = false := by
  cases first <;> cases inserted <;> grind [eitherOp, code_inj]

end

end

theorem replay_of_body {r : Record} {f : RcvFun} (hbody : r.body = recordBody op trid fields)
    (hf : llFindRecInfo llRcvLogRecsInfo op.code = some f) :
    replay isUNDO map r = rcvFunction f isUNDO map (recordBody op trid fields) := by
  have hop : r.op = op.code := by rw [Record.op, hbody]; rfl
  unfold replay
  rw [hop, hf, hbody]

end

/-! ## The kinds of records -/

/-- The record is redone as the operation and undone as its inverse. -/
def Replays (o : Operation) (inserted : Bool) (r : Record) : Prop :=
  ∀ map, (replay false map r).map Replay.call = some (o.redo inserted map) ∧
    (replay true map r).map Replay.call = some (o.undo inserted)

section

variable {trid : Trid} {inserted : Bool} {r : Record} {place : Place} {self : Xptr}
  {name : CString} {type : Int16} {value : Block} {ns : Option (Xmlns CString)}

theorem node_replays_iff {o : Operation} {insert : Option Xptr → Xptr → Xptr → Xptr → Call}
    (hreplay : ∀ isUNDO map, replay isUNDO map r =
      some (replayNode isUNDO map (inserted != isUNDO) place insert))
    (hdestroy : ∀ node, o.destroy node = .deleteNode (node place.self)) :
    Replays o inserted r ↔ ∀ map : IndirMap,
      if inserted then
        insert none (map.find place.left) (map.find place.right) (map.find place.parent) =
          o.create (fun _ => none) map.find
      else insert (some place.self) place.left place.right place.parent = o.create some id := by
  cases inserted <;>
    simp [Replays, hreplay, replayNode, Operation.redo, Operation.undo, hdestroy]

theorem namespace_decodes_iff (ns : Option (Xmlns CString)) :
    llGetNamespaceFromRecord ((ns.map pref).getD .empty) ((ns.map uri).getD .empty) =
      ns ↔ ns ≠ some .empty := by
  cases ns with
  | none => simp [llGetNamespaceFromRecord, CString.empty]
  | some ns =>
    obtain ⟨pref, uri⟩ := ns
    simp [llGetNamespaceFromRecord, empty, CString.eq_empty_iff]

theorem element_replays_iff
    (hbody : r.body = recordBody (if inserted then .llInsertElem else .llDeleteElem) trid
      [cstring.put name, textField (ns.map uri), textField (ns.map pref),
        xmlscmType.put type, xptr.put place.self, xptr.put place.left, xptr.put place.right,
        xptr.put place.parent]) :
    Replays (.element place name type ns) inserted r ↔ ns ≠ some .empty := by
  rw [@node_replays_iff inserted r place _ (fun at_ left right parent =>
    .insertElement at_ left right parent name type (llGetNamespaceFromRecord
      ((ns.map pref).getD .empty) ((ns.map uri).getD .empty)))]
  · rw [← namespace_decodes_iff ns]
    cases inserted <;> simp [Operation.create]
  · intro isUNDO map
    rw [replay_of_body hbody (show _ = some .llRcvElement by cases inserted <;> rfl)]
    simp [rcvFunction, llRcvElement, textField, inserts_eq]
  · exact fun _ => rfl

theorem attribute_replays_iff
    (hbody : r.body = recordBody (if inserted then .llInsertAttr else .llDeleteAttr) trid
      [cstring.put name, textField (ns.map uri), textField (ns.map pref),
        uint32.put value.size, value.bytes, xmlscmType.put type, xptr.put place.self,
        xptr.put place.left, xptr.put place.right, xptr.put place.parent]) :
    Replays (.attr place name type value ns) inserted r ↔ ns ≠ some .empty := by
  rw [@node_replays_iff inserted r place _ (fun at_ left right parent =>
    .insertAttribute at_ left right parent name type value (llGetNamespaceFromRecord
      ((ns.map pref).getD .empty) ((ns.map uri).getD .empty)))]
  · rw [← namespace_decodes_iff ns]
    cases inserted <;> simp [Operation.create]
  · intro isUNDO map
    rw [replay_of_body hbody (show _ = some .llRcvAttribute by cases inserted <;> rfl)]
    simp only [rcvFunction, llRcvAttribute, fieldsOf_recordBody, flatten_cons,
      flatten_nil, append_nil, textField]
    simp [inserts_eq]
  · exact fun _ => rfl

theorem text_replays
    (hbody : r.body = recordBody (if inserted then .llInsertText else .llDeleteText) trid
      [uint32.put value.size, value.bytes, xptr.put place.self, xptr.put place.left,
        xptr.put place.right, xptr.put place.parent]) : Replays (.text place value) inserted r := by
  rw [@node_replays_iff inserted r place _ (fun at_ left right parent =>
    .insertText at_ left right parent value)]
  · cases inserted <;> simp [Operation.create]
  · intro isUNDO map
    rw [replay_of_body hbody (show _ = some .llRcvText by cases inserted <;> rfl)]
    simp [rcvFunction, llRcvText, inserts_eq]
  · exact fun _ => rfl

theorem comment_replays
    (hbody : r.body = recordBody (if inserted then .llInsertComment else .llDeleteComment) trid
      [uint32.put value.size, value.bytes, xptr.put place.self, xptr.put place.left,
        xptr.put place.right, xptr.put place.parent]) :
    Replays (.comment place value) inserted r := by
  rw [@node_replays_iff inserted r place _ (fun at_ left right parent =>
    .insertComment at_ left right parent value)]
  · cases inserted <;> simp [Operation.create]
  · intro isUNDO map
    rw [replay_of_body hbody (show _ = some .llRcvComment by cases inserted <;> rfl)]
    simp [rcvFunction, llRcvComment, inserts_eq]
  · exact fun _ => rfl

theorem namespace_replays_iff {ns : Xmlns CString}
    (hbody : r.body = recordBody (if inserted then .llInsertNs else .llDeleteNs) trid
      [cstring.put ns.uri, textField (some ns.pref), xptr.put place.self, xptr.put place.left,
        xptr.put place.right, xptr.put place.parent]) :
    Replays (.xmlNamespace place ns) inserted r ↔ ns ≠ .empty := by
  rw [@node_replays_iff inserted r place _ (fun at_ left right parent =>
    .insertNamespace at_ left right parent (llGetNamespaceFromRecord ns.pref ns.uri))]
  · have hdecodes := namespace_decodes_iff (some ns)
    rw [ne_eq, Option.some.injEq] at hdecodes
    rw [ne_eq, ← hdecodes]
    cases inserted <;> simp [Operation.create]
  · intro isUNDO map
    rw [replay_of_body hbody (show _ = some .llRcvNS by cases inserted <;> rfl)]
    simp [rcvFunction, llRcvNS, textField, inserts_eq]
  · exact fun _ => rfl

theorem textEdit_replays {begins : Bool}
    (hbody : r.body = recordBody (eitherOp begins inserted .llInsertLeftText .llDeleteLeftText
      .llInsertRightText .llDeleteRightText) trid
        [uint32.put value.size, value.bytes, xptr.put self]) :
    Replays (.textEdit self value begins) inserted r := by
  have hread : ∀ isUNDO map, (replay isUNDO map r).map Replay.call =
      some (if inserted != isUNDO then
          .insertTextValue (if begins then .head else .tail)
            (if isUNDO then self else map.find self)
            value
        else .deleteTextValue (if begins then .head else .tail)
          (if isUNDO then self else map.find self) value.size) := by
    intro isUNDO map
    rw [replay_of_body hbody (show _ = some .llRcvTextEdit by
      cases begins <;> cases inserted <;> rfl)]
    have hops : [LlOperations.llInsertLeftText, .llDeleteLeftText, .llInsertRightText,
      .llDeleteRightText].Nodup := by decide
    simp only [rcvFunction, llRcvTextEdit, head_recordBody, fieldsOf_recordBody,
      Option.bind_eq_bind, Option.bind_some, inserts_either hops, either_second hops]
    cases begins <;> simp
  intro map
  rw [hread, hread]
  cases inserted <;> exact ⟨rfl, rfl⟩

theorem document_replays_iff {coll : Option CString}
    (hbody : r.body = recordBody (if inserted then .llInsertDoc else .llDeleteDoc) trid
      [cstring.put name, textField coll, xptr.put self]) :
    Replays (.document self name coll) inserted r ↔ coll ≠ some .empty := by
  have hread : ∀ isUNDO map, (replay isUNDO map r).map Replay.call =
      some (if inserted != isUNDO then
          if coll.getD .empty = .empty then
            .insertDocument (if isUNDO then some self else none) name
          else .insertDocumentIntoCollection (if isUNDO then some self else none)
            (coll.getD .empty) name
        else if coll.getD .empty = .empty then .deleteDocument name
          else .deleteDocumentFromCollection (coll.getD .empty) name) := by
    intro isUNDO map
    rw [replay_of_body hbody (show _ = some .llRcvDoc by cases inserted <;> rfl)]
    simp only [rcvFunction, llRcvDoc, textField, head_recordBody, fieldsOf_recordBody]
    cases inserted <;> cases isUNDO <;> simp [inserts, code_inj, CString.eq_empty_iff]
  unfold Replays
  simp only [hread]
  cases coll with
  | none => cases inserted <;>
      simp [Operation.redo, Operation.undo, Operation.create, Operation.destroy]
  | some coll =>
    by_cases hcoll : coll = .empty <;> cases inserted <;>
      simp [Operation.redo, Operation.undo, Operation.create, Operation.destroy]

theorem collection_replays
    (hbody : r.body = recordBody
      (if inserted then .llInsertCollection else .llDeleteCollection) trid [cstring.put name]) :
    Replays (.collection name) inserted r := by
  have hread : ∀ isUNDO map, (replay isUNDO map r).map Replay.call =
      some (if inserted != isUNDO then .insertCollection name else .deleteCollection name) := by
    intro isUNDO map
    rw [replay_of_body hbody (show _ = some .llRcvCollection by cases inserted <;> rfl)]
    simp [rcvFunction, llRcvCollection, inserts_eq]
  intro map
  rw [hread, hread]
  cases inserted <;> exact ⟨rfl, rfl⟩

theorem renameCollection_replays {oldName newName : CString}
    (hbody : r.body = recordBody .llRenameCollection trid
      (if inserted then [cstring.put oldName, cstring.put newName]
        else [cstring.put newName, cstring.put oldName])) :
    Replays (.renameCollection oldName newName) inserted r := by
  intro map
  rw [replay_of_body hbody (show _ = some .llRcvRenameColl from rfl),
    replay_of_body hbody (show _ = some .llRcvRenameColl from rfl)]
  cases inserted <;>
    simp [rcvFunction, llRcvRenameColl, Operation.redo, Operation.undo, Operation.create,
      Operation.destroy]

@[simp] theorem pathExpression_lr (path : PathExpression) : pathExpression path.lr = some path := by
  unfold pathExpression
  rw [dif_neg path.lr_ne]

theorem index_replays {dsc : IndexDescriptor} {isDocument : Bool}
    (hbody : r.body = recordBody (eitherOp isDocument inserted .llInsertDocIndex .llDeleteDocIndex
      .llInsertColIndex .llDeleteColIndex) trid
        [cstring.put dsc.object.lr, cstring.put dsc.key.lr, xmlscmType.put dsc.keytype,
          cstring.put dsc.indexTitle, cstring.put dsc.owner, indexBackend.put dsc.backendType]) :
    Replays (.index dsc isDocument) inserted r := by
  have hread : ∀ isUNDO map, (replay isUNDO map r).map Replay.call =
      some (if inserted != isUNDO then .createIndex dsc else .dropIndex dsc.indexTitle) := by
    intro isUNDO map
    rw [replay_of_body hbody (show _ = some .llRcvIndex by
      cases isDocument <;> cases inserted <;> rfl)]
    have hops : [LlOperations.llInsertDocIndex, .llDeleteDocIndex, .llInsertColIndex,
      .llDeleteColIndex].Nodup := by decide
    simp only [rcvFunction, llRcvIndex, fieldsOf_recordBody, flatten_cons, flatten_nil, append_nil]
    simp only [↓bind_head_recordBody, ↓Field.bind_get_put, ↓Field.bind_get_put_last,
      inserts_either hops]
    cases inserted != isUNDO <;> simp
  intro map
  rw [hread, hread]
  cases inserted <;> exact ⟨rfl, rfl⟩

theorem rcvActions_actionBuf (statements : List CString) (rest : Bytes) :
    rcvActions (actionBuf statements).length (actionBuf statements ++ rest) = some statements := by
  induction statements with
  | nil => simp [rcvActions, actionBuf]
  | cons statement statements ih =>
    have hbuf : actionBuf (statement :: statements) =
        cstring.put statement ++ actionBuf statements := flatMap_cons
    rw [rcvActions, hbuf, length_append, length_put_cstring]
    simp [ih]

theorem buf_size_eq_zero (trac : TriggerAction) : trac.buf.size = 0 ↔ trac.statements = [] := by
  have hsize : trac.buf.size.toNat = (actionBuf trac.statements).length := trac.buf.toNat_size
  rw [← UInt32.toNat_inj, hsize]
  cases h : trac.statements with
  | nil => simp [actionBuf]
  | cons statement statements => simp [actionBuf, length_put_cstring]

theorem pathExpression_text (path : Option PathExpression) :
    pathExpression ((path.map PathExpression.lr).getD .empty) = path := by
  cases path with
  | none => simp [pathExpression]
  | some path => exact pathExpression_lr path

theorem trigger_replays_iff {time : TriggerTime} {event : TriggerEvent} {path : PathExpression}
    {gran : TriggerGranularity} {trac : TriggerAction} {insnode : InsertingNode}
    {pathToParent : Option PathExpression} {title docName : CString} {isDoc : Bool}
    (hbody : r.body = recordBody (eitherOp isDoc inserted .llInsertDocTrg .llDeleteDocTrg
      .llInsertColTrg .llDeleteColTrg) trid
        [triggerTime.put time, triggerEvent.put event, cstring.put path.lr,
          triggerGranularity.put gran, uint32.put trac.buf.size, trac.buf.bytes,
          textField insnode.name, tItem.put insnode.type,
          textField (pathToParent.map PathExpression.lr), cstring.put title, cstring.put docName]) :
    Replays (.trigger time event path gran trac insnode pathToParent title docName isDoc)
      inserted r ↔ trac.statements ≠ [] ∧ insnode.name ≠ none := by
  have hread : ∀ isUNDO map, (replay isUNDO map r).map Replay.call =
      some (if inserted != isUNDO then
          .createTrigger time event path gran
            (if trac.statements = [] then none else some trac.statements)
            ⟨some (insnode.name.getD .empty), insnode.type⟩ pathToParent title docName isDoc
        else .deleteTrigger title) := by
    intro isUNDO map
    rw [replay_of_body hbody (show _ = some .llRcvTrigger by
      cases isDoc <;> cases inserted <;> rfl)]
    have hops : [LlOperations.llInsertDocTrg, .llDeleteDocTrg, .llInsertColTrg,
      .llDeleteColTrg].Nodup := by decide
    have hactions : ∀ rest, rcvActions trac.buf.size.toNat (trac.buf.bytes ++ rest) =
        some trac.statements := by
      intro rest
      rw [trac.buf.toNat_size]
      exact rcvActions_actionBuf trac.statements rest
    simp only [rcvFunction, llRcvTrigger, fieldsOf_recordBody, flatten_cons,
      flatten_nil, append_nil, textField]
    simp only [↓bind_head_recordBody, ↓Field.bind_get_put, ↓Field.bind_get_put_last,
      ↓bind_takeBlock, inserts_either hops, either_first hops]
    cases inserted != isUNDO <;> simp [hactions, pathExpression_text, buf_size_eq_zero]
  have hinnode : (⟨some (insnode.name.getD .empty), insnode.type⟩ : InsertingNode) = insnode ↔
      insnode.name ≠ none := by
    obtain ⟨_ | name, type⟩ := insnode <;> simp
  unfold Replays
  simp only [hread]
  cases inserted <;>
    simp [Operation.redo, Operation.undo, Operation.create, Operation.destroy, hinnode]

end

theorem Session.log_replays {w : Session} {o : Operation} {inserted : Bool} {op : LlOperations}
    {num : Nat} {fields : List Bytes} {s s' : LlState} {P : Prop} (hon : w.enableLog = true)
    (hlen : fields.length ≤ num) (hlog : w.log op num fields s = some s')
    (hiff : ∀ r, r.body = recordBody op w.trid fields → (Replays o inserted r ↔ P)) :
    ∃ lsn r, s'.history = .insert (.trRecord w.trid) lsn r :: s.history ∧
      (Replays o inserted r ↔ P) := by
  obtain ⟨lsn, r, hins, hbody⟩ := log_inserts hon hlen hlog
  exact ⟨lsn, r, hins, hiff r hbody⟩

/-- A record that was written for an operation is redone as the same operation and undone as
its inverse, with the same arguments, exactly if the arguments are told from others: a
missing namespace stays missing, and every other but the empty one stays the same. -/
theorem replays_same_operation_iff (w : Session) (o : Operation) (inserted : Bool)
    {s s' : LlState} (hon : w.enableLog = true) (hlog : o.log w inserted s = some s') :
    ∃ lsn r, s'.history = .insert (.trRecord w.trid) lsn r :: s.history ∧
      (Replays o inserted r ↔ o.Distinct) := by
  cases o with
  | element place name type ns =>
    exact log_replays hon (by simp) hlog fun _ hbody => element_replays_iff hbody
  | attr place name type value ns =>
    exact log_replays hon (by simp) hlog fun _ hbody => attribute_replays_iff hbody
  | text place value =>
    exact log_replays hon (by simp) hlog fun _ hbody =>
      iff_of_true (text_replays hbody) trivial
  | textEdit self value begins =>
    exact log_replays hon (by simp) hlog fun _ hbody =>
      iff_of_true (textEdit_replays hbody) trivial
  | comment place value =>
    exact log_replays hon (by simp) hlog fun _ hbody =>
      iff_of_true (comment_replays hbody) trivial
  | xmlNamespace place ns =>
    exact log_replays hon (by simp) hlog fun _ hbody => namespace_replays_iff hbody
  | document self name coll =>
    exact log_replays hon (by simp) hlog fun _ hbody => document_replays_iff hbody
  | collection name =>
    exact log_replays hon (by simp) hlog fun _ hbody =>
      iff_of_true (collection_replays hbody) trivial
  | renameCollection oldName newName =>
    have hwriter : w.log .llRenameCollection 2
        (if inserted then [cstring.put oldName, cstring.put newName]
          else [cstring.put newName, cstring.put oldName]) s = some s' := by
      cases inserted <;> exact hlog
    exact log_replays hon (by cases inserted <;> simp) hwriter fun _ hbody =>
      iff_of_true (renameCollection_replays hbody) trivial
  | index dsc isDocument =>
    exact log_replays hon (by simp) hlog fun _ hbody =>
      iff_of_true (index_replays hbody) trivial
  | trigger time event path gran trac insnode pathToParent title docName isDoc =>
    exact log_replays hon (by simp) hlog fun _ hbody => trigger_replays_iff hbody

/-! ## Two records -/

def shortSession : Session := { cfg := shortLogConfig.toConfig, enableLog := true, trid := 3 }

def emptyLog : LlState :=
  (llInit shortSession.cfg (llCreateNew shortSession.cfg) 1 fun _ => 0).get rfl

def shortPlace : Place := { self := ⟨0, 8⟩, left := ⟨0, 0⟩, right := ⟨0, 0⟩, parent := ⟨0, 16⟩ }

def shortName : CString := ⟨[97], by decide⟩

def shortTrigger : Operation :=
  .trigger .before .insert ⟨shortName, by decide⟩ .forEachNode ⟨[shortName, .empty], by decide⟩
    ⟨some shortName, .element⟩ none shortName .empty false

/-- A trigger on a collection is dropped: its record has two statements. -/
theorem replays_same_operation_iff_short :
    ∃ s s' lsn r, shortTrigger.log shortSession false s = some s' ∧
      s'.history = .insert (.trRecord 3) lsn r :: s.history ∧ Replays shortTrigger false r := by
  obtain ⟨lsn, r, hins, hreplays⟩ :=
    @replays_same_operation_iff shortSession shortTrigger false emptyLog _ rfl rfl
  exact ⟨_, _, lsn, r, rfl, hins, hreplays.2 ⟨by decide, by decide⟩⟩

/-- The namespace node of a declaration `xmlns=""` is redone without a namespace. -/
theorem replay_loses_empty_namespace :
    ∃ s s' lsn r,
      (Operation.xmlNamespace shortPlace .empty).log shortSession true s = some s' ∧
      s'.history = .insert (.trRecord 3) lsn r :: s.history ∧
      ∀ map : IndirMap, (replay false map r).map Replay.call =
          some (.insertNamespace none (map.find shortPlace.left) (map.find shortPlace.right)
            (map.find shortPlace.parent) none) ∧
        (Operation.xmlNamespace shortPlace .empty).redo true map =
          .insertNamespace none (map.find shortPlace.left) (map.find shortPlace.right)
            (map.find shortPlace.parent) (some .empty) :=
  ⟨emptyLog, _, _, _, rfl, rfl, fun _ => ⟨rfl, rfl⟩⟩

/-! ## Processing instructions -/

structure ProcessingInstruction where
  target : Bytes
  data : Bytes

namespace ProcessingInstruction

def value (pi : ProcessingInstruction) : Bytes := pi.target ++ 32 :: pi.data

def logged (pi : ProcessingInstruction) : Block :=
  ⟨pi.value.take (pi.value.length % 2 ^ 32),
    Nat.lt_of_le_of_lt (List.length_take_le _ _) (Nat.mod_lt _ (Nat.two_pow_pos 32))⟩

end ProcessingInstruction

def hlLogicalLogPi (w : Session) (self left right parent : Xptr) (value : Block)
    (targetSize : UInt16) (inserted : Bool) : LlState → Option LlState :=
  w.log (if inserted then .llInsertPi else .llDeletePi) 7
    [uint32.put value.size, uint16.put targetSize, value.bytes,
      xptr.put self, xptr.put left, xptr.put right, xptr.put parent]

/-- `insert_pi` and the deletion of a node log the stored value and the size of its target. -/
def ProcessingInstruction.log (w : Session) (place : Place) (pi : ProcessingInstruction)
    (inserted : Bool) : LlState → Option LlState :=
  hlLogicalLogPi w place.self place.left place.right place.parent pi.logged
    (UInt16.ofNat pi.target.length) inserted

section

variable {trid : Trid} {inserted : Bool} {r : Record} {place : Place} {value : Block}
  {targetSize : UInt16} {map : IndirMap}

theorem pi_replay
    (hbody : r.body = recordBody (if inserted then .llInsertPi else .llDeletePi) trid
      [uint32.put value.size, uint16.put targetSize, value.bytes, xptr.put place.self,
        xptr.put place.left, xptr.put place.right, xptr.put place.parent]) :
    replay (!inserted) map r =
      if targetSize.toNat ≤ value.bytes.length then
        some (replayNode (!inserted) map true place fun at_ left right parent =>
          .insertPi at_ left right parent (value.bytes.take targetSize.toNat)
            (value.bytes.drop targetSize.toNat))
      else none := by
  rw [replay_of_body hbody (show _ = some .llRcvPI by cases inserted <;> rfl)]
  simp only [rcvFunction, llRcvPI, fieldsOf_recordBody, flatten_cons, flatten_nil, append_nil]
  simp [inserts_eq, value.toNat_size]

end

def Call.CreatesPi (pi : ProcessingInstruction) : Call → Prop
  | .insertPi _ _ _ _ target data => target = pi.target ∧ data = pi.data
  | _ => False

/-- No processing instruction is recreated from its record, by the redo of its insertion or
by the rollback of its deletion: the data get the separator in front.  So the value that is
stored has one blank more. -/
theorem pi_gets_separator (w : Session) (place : Place) (pi : ProcessingInstruction)
    (inserted : Bool) {s s' : LlState} (hon : w.enableLog = true)
    (hlog : pi.log w place inserted s = some s') :
    ∃ lsn r, s'.history = .insert (.trRecord w.trid) lsn r :: s.history ∧ ∀ map : IndirMap,
      (¬ ∃ c, replay (!inserted) map r = some c ∧ c.call.CreatesPi pi) ∧
      (pi.target.length < 2 ^ 16 → pi.value.length < 2 ^ 32 →
        ∃ c, replay (!inserted) map r = some c ∧ c.call.CreatesPi ⟨pi.target, 32 :: pi.data⟩) := by
  obtain ⟨lsn, r, hins, hbody⟩ := Session.log_inserts hon (by simp) hlog
  refine ⟨lsn, r, hins, fun map => ?_⟩
  rw [pi_replay hbody]
  have hcreates : ∀ (q : ProcessingInstruction) (target data : Bytes),
      (replayNode (!inserted) map true place fun at_ left right parent =>
        .insertPi at_ left right parent target data).call.CreatesPi q ↔
          target = q.target ∧ data = q.data := by
    cases inserted <;> exact fun _ _ _ => Iff.rfl
  constructor
  · rintro ⟨c, hc, hc'⟩
    split at hc
    · obtain rfl := Option.some.inj hc
      obtain ⟨htgt, hdata⟩ := (hcreates ..).1 hc'
      -- the parts of the logged value are one byte shorter than the stored value
      have hparts : pi.logged.bytes = pi.target ++ pi.data := by
        rw [← htgt, ← hdata, take_append_drop]
      have hlen := congrArg length hparts
      simp only [ProcessingInstruction.logged, ProcessingInstruction.value, length_take,
        length_append, length_cons] at hlen
      omega
    · cases hc
  · intro htgt hval
    have hsize : (UInt16.ofNat pi.target.length).toNat = pi.target.length :=
      UInt16.toNat_ofNat_of_lt' htgt
    have hlogged : pi.logged.bytes = pi.target ++ 32 :: pi.data := by
      show pi.value.take _ = pi.value
      rw [Nat.mod_eq_of_lt hval, take_length]
    rw [hsize, hlogged, if_pos (by simp), take_left, drop_left]
    exact ⟨_, rfl, (hcreates ..).2 ⟨rfl, rfl⟩⟩

/-- The instruction `<?a b?>` is redone as `<?a  b?>`. -/
theorem pi_gets_separator_short :
    ∃ s s' lsn r,
      (ProcessingInstruction.mk [97] [98]).log shortSession shortPlace true s = some s' ∧
      s'.history = .insert (.trRecord 3) lsn r :: s.history ∧
      ∀ map : IndirMap, ¬ ∃ c, replay false map r = some c ∧ c.call.CreatesPi ⟨[97], [98]⟩ := by
  obtain ⟨lsn, r, hins, hreplay⟩ := @pi_gets_separator shortSession shortPlace
    ⟨[97], [98]⟩ true emptyLog _ rfl rfl
  exact ⟨_, _, lsn, r, rfl, hins, fun map => (hreplay map).1⟩

theorem redo_changes_pi :
    ∃ s s' lsn r,
      (ProcessingInstruction.mk [97] [98]).log shortSession shortPlace true s = some s' ∧
      s'.history = .insert (.trRecord 3) lsn r :: s.history ∧
      ∀ map : IndirMap, (replay false map r).map Replay.call =
        some (.insertPi none (map.find shortPlace.left) (map.find shortPlace.right)
          (map.find shortPlace.parent) [97] [32, 98]) :=
  ⟨emptyLog, _, _, _, rfl, rfl, fun _ => rfl⟩

/-! ## Full-text indexes -/

def ftSerializeRule (rule : FtIndexPair) : Bytes :=
  ftIndexType.put rule.type ++ (textField (rule.ns.map Xmlns.uri) ++
    (textField (rule.ns.map Xmlns.pref) ++ cstring.put rule.name))

def ftSerializeCustTree (rules : List FtIndexPair) : Bytes := rules.flatMap ftSerializeRule

/-- The definition of a full-text index.  A missing tree has no rules; the buffer for them is
counted by an `unsigned`. -/
structure FtIndex where
  objectPath : PathExpression
  itconst : FtIndexType
  indexTitle : CString
  docName : CString
  options : CString
  isDoc : Bool
  customTree : List FtIndexPair
  length_lt : (ftSerializeCustTree customTree).length < 2 ^ 32

namespace FtIndex

def customTreeBuf (dsc : FtIndex) : Block := ⟨ftSerializeCustTree dsc.customTree, dsc.length_lt⟩

def fields (dsc : FtIndex) : List Bytes :=
  [cstring.put dsc.objectPath.lr, ftIndexType.put dsc.itconst, cstring.put dsc.indexTitle,
    cstring.put dsc.docName, cstring.put dsc.options, uint32.put dsc.customTreeBuf.size,
    dsc.customTreeBuf.bytes]

def op (dsc : FtIndex) (inserted : Bool) : LlOperations :=
  eitherOp dsc.isDoc inserted .llInsertDocFtsIndex .llDeleteDocFtsIndex .llInsertColFtsIndex
    .llDeleteColFtsIndex

end FtIndex

/-- The count of the fields is 6. -/
def hlLogicalLogFtIndex (w : Session) (dsc : FtIndex) (inserted : Bool) :
    LlState → Option LlState :=
  w.log (dsc.op inserted) 6 dsc.fields

theorem ftRules_nil {n : Nat} (hn : n ≠ 0) : ftRules n [] = none := by
  rw [ftRules, if_neg hn]
  rfl

theorem ftSerializeCustTree_eq_nil {rules : List FtIndexPair} :
    ftSerializeCustTree rules = [] ↔ rules = [] := by
  cases rules with
  | nil => exact iff_of_true rfl rfl
  | cons rule rules =>
    have hlen := length_put_cstring rule.name
    refine iff_of_false (fun h => ?_) (by simp)
    have hnil := congrArg length h
    simp only [ftSerializeCustTree, ftSerializeRule, flatMap_cons, length_append,
      length_nil] at hnil
    omega

theorem ftIndex_replay {dsc : FtIndex} {inserted : Bool} {trid : Trid} {r : Record}
    (hbody : r.body = recordBody (dsc.op inserted) trid (dsc.fields.take 6)) (map : IndirMap) :
    replay (!inserted) map r = (ftRules dsc.customTreeBuf.size.toNat []).map fun rules =>
      { call := .createFtIndex dsc.objectPath dsc.itconst dsc.indexTitle dsc.docName dsc.isDoc
          (if dsc.customTreeBuf.size = 0 then none else some rules) dsc.options
        indirMap := map
        creates := none } := by
  have hops : [LlOperations.llInsertDocFtsIndex, .llDeleteDocFtsIndex, .llInsertColFtsIndex,
    .llDeleteColFtsIndex].Nodup := by decide
  rw [replay_of_body hbody (show _ = some .llRcvFtIndex by
    unfold FtIndex.op
    cases dsc.isDoc <;> cases inserted <;> rfl)]
  simp only [rcvFunction, llRcvFtIndex, fieldsOf_recordBody, FtIndex.fields, take_succ_cons,
    take_zero, flatten_cons, flatten_nil, append_nil, FtIndex.op]
  simp only [↓bind_head_recordBody, ↓Field.bind_get_put, ↓Field.bind_get_put_last,
    inserts_either hops, either_first hops]
  cases inserted <;> cases ftRules dsc.customTreeBuf.size.toNat [] <;> simp

/-- The record of a full-text index is complete and gives the same definition back exactly if
the index has no rules of its own. -/
theorem ftIndex_recovers_iff (w : Session) (dsc : FtIndex) (inserted : Bool) {s s' : LlState}
    (hon : w.enableLog = true) (hlog : hlLogicalLogFtIndex w dsc inserted s = some s') :
    ∃ lsn r, s'.history = .insert (.trRecord w.trid) lsn r :: s.history ∧ ∀ map : IndirMap,
      (r.body = recordBody (dsc.op inserted) w.trid dsc.fields ∧
        ∃ c tree, replay (!inserted) map r = some c ∧
          c.call = .createFtIndex dsc.objectPath dsc.itconst dsc.indexTitle dsc.docName dsc.isDoc
            tree dsc.options ∧
          tree.getD [] = dsc.customTree) ↔ dsc.customTree = [] := by
  obtain ⟨lsn, r, hins, hbody⟩ := Session.log_inserts hon (by simp)
    (show w.log (dsc.op inserted) 6 (dsc.fields.take 6) s = some s' from hlog)
  refine ⟨lsn, r, hins, fun map => ?_⟩
  rw [ftIndex_replay hbody map]
  constructor
  · rintro ⟨-, c, tree, hc, -, -⟩
    by_contra hrules
    have hsize : dsc.customTreeBuf.size.toNat ≠ 0 := by
      rw [dsc.customTreeBuf.toNat_size, Ne, length_eq_zero_iff]
      exact mt ftSerializeCustTree_eq_nil.1 hrules
    rw [ftRules_nil hsize] at hc
    cases hc
  · intro hrules
    have hbuf : dsc.customTreeBuf = ⟨[], by decide⟩ := by
      apply Block.ext
      exact ftSerializeCustTree_eq_nil.2 hrules
    have hread : ftRules dsc.customTreeBuf.size.toNat [] = some [] := by
      rw [hbuf, ftRules]
      rfl
    rw [hread, hbuf]
    refine ⟨?_, _, none, rfl, rfl, hrules.symm⟩
    rw [hbody]
    simp [FtIndex.fields, hbuf, recordBody]

def shortPath : PathExpression := ⟨shortName, by decide⟩

def shortFtIndex (rules : List FtIndexPair) (h : (ftSerializeCustTree rules).length < 2 ^ 32) :
    FtIndex :=
  { objectPath := shortPath, itconst := .customizedValue, indexTitle := shortName
    docName := shortName, options := .empty, isDoc := true, customTree := rules, length_lt := h }

/-- An index without rules is created again when its removal is undone. -/
theorem ftIndex_recovers_iff_short :
    ∃ s s' lsn r,
      hlLogicalLogFtIndex shortSession (shortFtIndex [] (by decide)) false s = some s' ∧
      s'.history = .insert (.trRecord 3) lsn r :: s.history ∧
      ∀ map : IndirMap, ∃ c tree, replay true map r = some c ∧ tree.getD [] = [] ∧
        c.call = .createFtIndex shortPath .customizedValue shortName shortName true tree
          .empty := by
  obtain ⟨lsn, r, hins, hreplay⟩ := @ftIndex_recovers_iff shortSession
    (shortFtIndex [] (by decide)) false emptyLog _ rfl rfl
  refine ⟨_, _, lsn, r, rfl, hins, fun map => ?_⟩
  obtain ⟨-, c, tree, hc, hcall, htree⟩ := (hreplay map).2 rfl
  exact ⟨c, tree, hc, htree, hcall⟩

/-- The rule for the nodes `a` is not in the record. -/
theorem redo_loses_rules :
    ∃ s s' lsn r,
      hlLogicalLogFtIndex shortSession
        (shortFtIndex [⟨none, shortName, .stringValue⟩] (by decide)) true s = some s' ∧
      s'.history = .insert (.trRecord 3) lsn r :: s.history ∧
      ∀ map : IndirMap, replay false map r = none := by
  let dsc := shortFtIndex [⟨none, shortName, .stringValue⟩] (by decide)
  obtain ⟨lsn, r, hins, hbody⟩ := @Session.log_inserts shortSession (dsc.op true) 6
    (dsc.fields.take 6) emptyLog _ rfl (by decide) rfl
  refine ⟨_, _, lsn, r, rfl, hins, fun map => ?_⟩
  have hreplay := ftIndex_replay hbody map
  rwa [ftRules_nil (by decide)] at hreplay

end Sedna.Log
