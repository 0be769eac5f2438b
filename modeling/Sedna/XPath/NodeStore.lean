import Sedna.Library.TreeZipper
import Sedna.Nid.Roots
import Sedna.Structures.Schema

/-!
# Stored nodes

The descriptors of the nodes of a document with their links, the descriptive
schema they are sorted by, and the functions of `nodes.cpp` that find the
first or the last child of a node.  `Stored` ties the descriptors to the tree
of the document.
-/

namespace Sedna.XPath

export Sedna.Library.TreeZipper (Tree)

open Library.TreeZipper Nid.NumbScheme Structures.Schema

/-! ## Types of nodes -/

abbrev TypeMask := Finset TItem

def tiAll : TypeMask :=
  {.element, .text, .attribute, .document, .virtualRoot, .xmlNamespace, .comment, .prIns}

def tiAllValid : TypeMask :=
  {.element, .text, .attribute, .document, .xmlNamespace, .comment, .prIns}

def tiDmchildren : TypeMask := {.element, .text, .comment, .prIns}

def tiSingletonElement : TypeMask := {.xmlNamespace, .text, .comment, .prIns}

/-! ## The descriptive schema -/

/-- `SchemaPath`: the child numbers on the way to a schema node.  A schema node is named by the
path from the root of its schema. -/
abbrev SchemaPath := List Nat

def schemaAt (schema : Tree ScRef) : SchemaPath → Option (Tree ScRef)
  | [] => some schema
  | i :: path => schema.children[i]?.bind fun child => schemaAt child path

/-! ## Descriptors -/

/-- The links of a node descriptor.  `childList` has the first child of every sort. -/
structure Descriptor (α : Type*) where
  nodeType : TItem
  nid : TNid
  left : Option α
  right : Option α
  parent : Option α
  descNext : Option α
  childList : List (Option α)
  schemaNode : SchemaPath
  target : String

structure NodeStore (α : Type*) where
  schema : Tree ScRef
  persistent : Bool
  descriptor : α → Descriptor α

/-- What ends a step without a node: the error of the source, a call through a null procedure
pointer, or more rounds of a loop than were allowed. -/
inductive StepError where
  | xpty0020
  | nullProc
  | outOfRounds
  deriving DecidableEq

variable {α : Type*}

namespace NodeStore

section

variable (st : NodeStore α)

def nodeType (x : α) : TItem := (st.descriptor x).nodeType

def schemaNode (x : α) : SchemaPath := (st.descriptor x).schemaNode

variable (x : α)

def label : TPrefix := nidGetPrefix (st.descriptor x).nid

def getLeft : Option α := (st.descriptor x).left

def getRight : Option α := (st.descriptor x).right

def getSchemaNode : Option (Tree ScRef) := schemaAt st.schema (st.schemaNode x)

def getActualParent : Option α :=
  match (st.descriptor x).parent with
  | none => none
  | some parent => if st.nodeType parent = .virtualRoot then none else some parent

def getNextDescriptorOfSameSort : Option α := (st.descriptor x).descNext

def getChildAt (childIndex : Nat) : Option α :=
  (st.descriptor x).childList.getD childIndex none

def getFirstChild : Option α :=
  (st.descriptor x).childList.findSome? fun child =>
    match child with
    | none => none
    | some child => if st.getLeft child = none then some child else none

def typedChildren : List (Option α × TItem) :=
  match st.getSchemaNode x with
  | none => []
  | some scn => (st.descriptor x).childList.zip (scn.children.map fun child => child.value.type)

def getAnyChildByTypeMask (tmask : TypeMask) : Option α :=
  (st.typedChildren x).findSome? fun entry => if entry.2 ∈ tmask then entry.1 else none

end

section

variable [DecidableEq α] (st : NodeStore α)

abbrev nidCmpEffective (x y : α) : Int :=
  Nid.NumbScheme.nidCmpEffective x y (st.descriptor x).nid (st.descriptor y).nid

abbrev nidCmp (x y : α) : Int :=
  Nid.NumbScheme.nidCmp x y (st.descriptor x).nid (st.descriptor y).nid

/-- The loop of `getFirstChildByTypeMask` and of `getLastFirstChildByTypeMask` that keeps the
better of two children. -/
def bestChild (better : Int → Bool) (tmask : TypeMask) :
    List (Option α × TItem) → Option α → Option α
  | [], best => best
  | (none, _) :: entries, best => bestChild better tmask entries best
  | (some child, type) :: entries, best =>
    if type ∈ tmask then
      match best with
      | none => bestChild better tmask entries (some child)
      | some b =>
        if better (st.nidCmpEffective child b) then
          bestChild better tmask entries (some child)
        else bestChild better tmask entries best
    else bestChild better tmask entries best

def getFirstChildByTypeMask (x : α) (tmask : TypeMask) : Option α :=
  if tmask ∩ tiSingletonElement = tmask then st.getAnyChildByTypeMask x tmask
  else if tmask ∪ {.document} = tiAllValid then st.getFirstChild x
  else st.bestChild (fun cmp => cmp < 0) tmask (st.typedChildren x) none

def getLastFirstChildByTypeMask (x : α) (tmask : TypeMask) : Option α :=
  st.bestChild (fun cmp => cmp > 0) tmask (st.typedChildren x) none

end

def lastSibling (st : NodeStore α) : Nat → α → Except StepError α
  | 0, _ => .error .outOfRounds
  | n + 1, node =>
    match st.getRight node with
    | none => .ok node
    | some next => lastSibling st n next

def getLastChild [DecidableEq α] (st : NodeStore α) (limit : Nat) (pnode : α) :
    Except StepError (Option α) :=
  match st.getLastFirstChildByTypeMask pnode tiAll with
  | none => .ok none
  | some node => (st.lastSibling limit node).map some

end NodeStore

/-! ## The storage invariant -/

/-- The descriptors of a store hold the document `doc`.  In a collection the descriptors of one
sort run on from the last one of a document to the next document. -/
structure Stored [DecidableEq α] (st : NodeStore α) (doc : Tree α) : Prop where
  nodup : doc.preorder.Nodup
  left : ∀ l : Loc α, l.rebuild = doc → (st.descriptor l.value).left = l.left.map Loc.value
  right : ∀ l : Loc α, l.rebuild = doc → (st.descriptor l.value).right = l.right.map Loc.value
  parent : ∀ l : Loc α, l.rebuild = doc → (st.descriptor l.value).parent = l.parent.map Loc.value
  childSort : ∀ s ∈ doc.subtrees, ∀ t ∈ s.children,
    ∃ i, st.schemaNode t.value = st.schemaNode s.value ++ [i]
  sortType : ∀ x ∈ doc.preorder,
    ∃ scn, st.getSchemaNode x = some scn ∧ scn.value.type = st.nodeType x
  childList : ∀ s ∈ doc.subtrees, ∀ i, st.getChildAt s.value i =
    (s.children.map Tree.value).find? fun y => st.schemaNode y = st.schemaNode s.value ++ [i]
  descNext : ∀ p x q, doc.preorder = p ++ x :: q → ∀ y,
    (q.find? fun y => st.schemaNode y = st.schemaNode x) = some y →
      (st.descriptor x).descNext = some y
  descLast : ∀ p x q, doc.preorder = p ++ x :: q →
    (∀ y ∈ q, st.schemaNode y ≠ st.schemaNode x) → ∀ z, (st.descriptor x).descNext = some z →
      ∀ b ∈ doc.preorder, st.nidCmpEffective z b ≠ 2 ∧ st.nidCmpEffective z b ≠ 0
  labelOrder : ∀ x y, Tree.DocBefore doc x y → lexCmp (st.label x) (st.label y) = -1
  labelBelow : ∀ x ∈ doc.preorder, ∀ y ∈ doc.preorder, Tree.Descendant doc x y ↔
    ∃ c s, st.label y = st.label x ++ c :: s ∧ c ≠ alphabetSize
  inner : ∀ s ∈ doc.subtrees, s.children ≠ [] →
    st.nodeType s.value = .element ∨ st.nodeType s.value = .document
  root : st.nodeType doc.value = .document
  onlyRoot : ∀ x ∈ doc.preorder, st.nodeType x = .document → x = doc.value
  noVirtual : ∀ x ∈ doc.preorder, st.nodeType x ≠ .virtualRoot

end Sedna.XPath
