import Sedna.Library.Lists
import Sedna.Mo.SchemaChildren
import Sedna.XPath.AxisStep

/-!
# Sibling axes with a name test

For a name the step looks up one child of the parent's schema node, by prefix
and URI, and follows the chain of its nodes.  Siblings with the same expanded
name and another prefix are on another chain.
-/

namespace Sedna.XPath.SiblingSteps

open Mo.SchemaChildren Structures.Schema AxisStep Library.Lists List

variable {N : Type}

structure Child (N : Type) where
  nid : N
  snode : ScRef
  deriving DecidableEq

/-- A node: the child list of its schema node, and its children in document order. -/
structure Parent (N : Type) where
  refs : List ScRef
  children : List (Child N)

/-- The nodes from `getFirstChildBySchema` along `getNextSiblingOfSameSort`. -/
def Parent.chain (p : Parent N) (scn : ScRef) : List (Child N) :=
  p.children.filter fun x => x.snode = scn

def named (xmlns : Option Xmlns) (name : String) (x : Child N) : Bool :=
  x.snode.type = .element && x.snode.expandedName = (uriOf xmlns, some name)

def soughtRef (xmlns : Option Xmlns) (name : String) : ScRef := ⟨some name, xmlns, .element⟩

variable {p : Parent N} {node : Child N} {xmlns : Option Xmlns} {name : String} {nid : N}
  {l : List (Child N)}

theorem mem_chain {x : Child N} {scn : ScRef} :
    x ∈ p.chain scn ↔ x ∈ p.children ∧ x.snode = scn := by
  simp [Parent.chain]

theorem snode_eq_soughtRef_iff {x : Child N} :
    x.snode = soughtRef xmlns name ↔ named xmlns name x ∧ x.snode.xmlns = xmlns := by
  obtain ⟨nid, ref, ns, type⟩ := x
  simp only [soughtRef, named, ScRef.expandedName, ScRef.mk.injEq, Bool.and_eq_true,
    decide_eq_true_eq, Prod.mk.injEq]
  grind

/-- The chain has all the named nodes on one side just when their prefix is that of the name. -/
theorem filter_chain_eq_iff (side : Child N → Bool) :
    (p.chain (soughtRef xmlns name)).filter side =
        p.children.filter (fun x => side x && named xmlns name x) ↔
      ∀ x ∈ p.children, side x → named xmlns name x → x.snode.xmlns = xmlns := by
  have hchn : (p.chain (soughtRef xmlns name)).filter side =
      (p.children.filter fun x => side x && named xmlns name x).filter
        fun x => x.snode.xmlns = xmlns := by
    rw [Parent.chain, filter_filter, filter_filter]
    refine filter_congr fun x _ => ?_
    simp only [snode_eq_soughtRef_iff, Bool.decide_and, Bool.decide_eq_true]
    ac_rfl
  rw [hchn, filter_eq_self]
  simp

/-! ## The steps -/

inductive Error where
  | nullPointer
  deriving DecidableEq

def resolveNodeSiblingQName (find : N → List (Child N) → Except Error (List (Child N)))
    (p : Parent N) (node : Child N) (xmlns : Option Xmlns) (name : String) :
    Except Error (List (Child N)) :=
  if node.snode.type = .attribute then .ok []
  else
    match getFirstChild p.refs xmlns (some name) .element with
    | none => .ok []
    | some child => find node.nid (p.chain child)

theorem resolveNodeSiblingQName_eq (htype : node.snode.type ≠ .attribute)
    (find : N → List (Child N) → Except Error (List (Child N))) :
    resolveNodeSiblingQName find p node xmlns name =
      if soughtRef xmlns name ∈ p.refs then find node.nid (p.chain (soughtRef xmlns name))
      else .ok [] := by
  rw [resolveNodeSiblingQName, if_neg htype, soughtRef]
  cases hfnd : getFirstChild p.refs xmlns (some name) .element with
  | none => rw [if_neg fun hmem => find?_eq_none.1 hfnd _ hmem (sameNode_iff.2 rfl)]
  | some snode =>
    have hsame := find?_some hfnd
    obtain rfl := sameNode_iff.1 hsame
    rw [if_pos (mem_of_find?_eq_some hfnd)]

variable [LinearOrder N]

/-- The node found, and those that `getRightSiblingOfSameSort` reaches from it.
`nid_cmp_effective` has the sign of the order of labels. -/
def getRightSiblingBySchema (node : N) : List (Child N) → Except Error (List (Child N))
  | [] => .ok []
  | i :: rest => if node < i.nid then .ok (i :: rest) else getRightSiblingBySchema node rest

/-- The loop, with `child` in front of what `getLeftSiblingOfSameSort` reaches from it. -/
def leftLoop (node : N) (child : List (Child N)) : List (Child N) → List (Child N)
  | [] => child
  | nextchild :: rest =>
    if node ≤ nextchild.nid then child else leftLoop node (nextchild :: child) rest

/-- The first comparison reads the label of the first child without a check that there is one. -/
def getLeftSiblingBySchema (node : N) : List (Child N) → Except Error (List (Child N))
  | [] => .error .nullPointer
  | child :: rest => .ok (if node ≤ child.nid then [] else leftLoop node [child] rest)

def resolveNodeRightSiblingQName (p : Parent N) := resolveNodeSiblingQName getRightSiblingBySchema p

def resolveNodeLeftSiblingQName (p : Parent N) := resolveNodeSiblingQName getLeftSiblingBySchema p

/-- `PPAxisStep::do_next` on one context node: the nodes reached that pass `schemaTest`. -/
def siblingStep (axis : Axis) (p : Parent N) (node : Child N) (xmlns : Option Xmlns)
    (name : String) : Except Error (List (Child N)) := do
  let nodes ←
    if axis = .followingSibling then resolveNodeRightSiblingQName p node xmlns name
    else resolveNodeLeftSiblingQName p node xmlns name
  match createSchemaTest ⟨axis, .qname, none, none, some (uriOf xmlns, name)⟩ with
  | none => .ok []
  | some test =>
    .ok (nodes.filter fun x => test.test x.snode)

structure Parent.WellFormed (p : Parent N) : Prop where
  sorted : p.children.Pairwise fun x y => x.nid < y.nid
  mem_refs : ∀ x ∈ p.children, x.snode ∈ p.refs
  namespaces : ∀ x ∈ p.children, checkNsConstraintsOnInsert x.snode.xmlns

theorem getRightSiblingBySchema_eq (h : l.Pairwise fun x y => x.nid < y.nid) :
    getRightSiblingBySchema nid l = .ok (l.filter fun x => nid < x.nid) := by
  induction l with
  | nil => rfl
  | cons i rest ih =>
    obtain ⟨hi, hrest⟩ := pairwise_cons.1 h
    rw [getRightSiblingBySchema]
    split_ifs with hlt
    · have hall : ∀ x ∈ i :: rest, nid < x.nid :=
        forall_mem_cons.2 ⟨hlt, fun x hx => hlt.trans (hi x hx)⟩
      rw [filter_eq_self.2 (by simpa using hall)]
    · rw [ih hrest, filter_cons_of_neg (by simpa using hlt)]

theorem leftLoop_eq (child : List (Child N)) :
    leftLoop nid child l = (l.takeWhile fun x => x.nid < nid).reverse ++ child := by
  induction l generalizing child with
  | nil => rfl
  | cons i rest ih =>
    rw [leftLoop]
    split_ifs with hle
    · simp [hle]
    · simp [ih, lt_of_not_ge hle]

theorem getLeftSiblingBySchema_eq (h : l.Pairwise fun x y => x.nid < y.nid) :
    getLeftSiblingBySchema nid l =
      if l = [] then .error .nullPointer else .ok (l.filter fun x => x.nid < nid).reverse := by
  cases l with
  | nil => rfl
  | cons i rest =>
    rw [getLeftSiblingBySchema, leftLoop_eq, if_neg (cons_ne_nil _ _), ← takeWhile_eq_filter]
    · split_ifs with hle
      · simp [hle]
      · simp [lt_of_not_ge hle]
    · exact h.imp fun hab hb => by simpa using hab.trans (of_decide_eq_true hb)

section

variable (h : p.WellFormed)
include h

theorem Parent.WellFormed.chain_eq_nil {scn : ScRef} (hscn : scn ∉ p.refs) : p.chain scn = [] := by
  refine eq_nil_iff_forall_not_mem.2 fun x hmem => hscn ?_
  obtain ⟨hx, rfl⟩ := mem_chain.1 hmem
  exact h.mem_refs x hx

theorem Parent.WellFormed.chain_sorted (scn : ScRef) :
    (p.chain scn).Pairwise fun x y => x.nid < y.nid :=
  h.sorted.sublist filter_sublist

theorem filter_test (hl : l ⊆ p.chain (soughtRef xmlns name)) :
    (l.filter fun x => (⟨.qnameType, {.element}, uriOf xmlns, some name⟩ : SchemaTest).test
      x.snode) = l := by
  refine filter_eq_self.2 fun x hx => ?_
  obtain ⟨hx, hsnode⟩ := mem_chain.1 (hl hx)
  have hns := h.namespaces x hx
  rw [hsnode, soughtRef, checkNsConstraintsOnInsert, decide_eq_true_eq] at hns
  simp [hsnode, soughtRef, SchemaTest.test, sameXmlnsUri, hns]

variable (htype : node.snode.type ≠ .attribute)
include htype

theorem siblingStep_following :
    siblingStep .followingSibling p node xmlns name =
      .ok ((p.chain (soughtRef xmlns name)).filter fun x => node.nid < x.nid) := by
  rw [siblingStep, if_pos rfl, resolveNodeRightSiblingQName, resolveNodeSiblingQName_eq htype,
    getRightSiblingBySchema_eq (h.chain_sorted _)]
  split_ifs with hscn
  · exact congrArg Except.ok (filter_test h (filter_subset_self _))
  · rw [h.chain_eq_nil hscn]
    rfl

theorem siblingStep_preceding :
    siblingStep .precedingSibling p node xmlns name =
      if soughtRef xmlns name ∈ p.refs ∧ p.chain (soughtRef xmlns name) = [] then
        .error .nullPointer
      else .ok ((p.chain (soughtRef xmlns name)).filter fun x => x.nid < node.nid).reverse := by
  rw [siblingStep, if_neg (by decide), resolveNodeLeftSiblingQName,
    resolveNodeSiblingQName_eq htype, getLeftSiblingBySchema_eq (h.chain_sorted _), ite_and]
  split_ifs with hscn hnil
  · rfl
  · exact congrArg Except.ok (filter_test h (by simp [filter_subset_self]))
  · rw [h.chain_eq_nil hscn]
    rfl

/-- The sibling axes give the named siblings in order just when these have the prefix of the query
and, for the preceding ones, the parent has a child of the schema node that is looked up, if there
is one. -/
theorem siblingStep_named_iff :
    (siblingStep .followingSibling p node xmlns name =
        .ok (p.children.filter fun x => node.nid < x.nid && named xmlns name x) ↔
      ∀ x ∈ p.children, node.nid < x.nid → named xmlns name x → x.snode.xmlns = xmlns) ∧
    (siblingStep .precedingSibling p node xmlns name =
        .ok (p.children.filter fun x => x.nid < node.nid && named xmlns name x).reverse ↔
      (∀ x ∈ p.children, x.nid < node.nid → named xmlns name x → x.snode.xmlns = xmlns) ∧
        (soughtRef xmlns name ∈ p.refs → ∃ x ∈ p.children, x.snode = soughtRef xmlns name)) := by
  have hnonempty : p.chain (soughtRef xmlns name) ≠ [] ↔
      ∃ x ∈ p.children, x.snode = soughtRef xmlns name := by
    simp [Parent.chain]
  constructor
  · rw [siblingStep_following h htype, Except.ok.injEq, filter_chain_eq_iff]
    simp only [decide_eq_true_eq]
  · rw [siblingStep_preceding h htype, ← hnonempty]
    split_ifs with hnull
    · exact iff_of_false (by simp) fun hall => hall.2 hnull.1 hnull.2
    · rw [Except.ok.injEq, reverse_inj, filter_chain_eq_iff]
      simp only [decide_eq_true_eq]
      exact (and_iff_left fun hscn hnil => hnull ⟨hscn, hnil⟩).symm

end

def mixed : Parent Nat :=
  ⟨[soughtRef none "a", soughtRef none "b"],
    [⟨1, soughtRef none "a"⟩, ⟨2, soughtRef none "b"⟩, ⟨3, soughtRef none "a"⟩]⟩

/-- The element between the two of the name. -/
theorem siblingStep_named_iff_between :
    siblingStep .followingSibling mixed ⟨2, soughtRef none "b"⟩ none "a" =
      .ok [⟨3, soughtRef none "a"⟩] ∧
    siblingStep .precedingSibling mixed ⟨2, soughtRef none "b"⟩ none "a" =
      .ok [⟨1, soughtRef none "a"⟩] := by
  have h : mixed.WellFormed := ⟨by decide, by decide, by decide⟩
  have hiff := @siblingStep_named_iff Nat mixed ⟨2, soughtRef none "b"⟩ none "a" _ h (by decide)
  exact ⟨hiff.1.2 (by decide), hiff.2.2 (by decide)⟩

/-- The following sibling `p:a` is not found as `q:a`.  The step to preceding siblings `p:a` fails
where another parent has such a child and this one has none. -/
theorem siblingStep_misses :
    siblingStep .followingSibling ⟨[soughtRef none "b", soughtRef (some ⟨"p", "u"⟩) "a"],
        [⟨1, soughtRef none "b"⟩, ⟨2, soughtRef (some ⟨"p", "u"⟩) "a"⟩]⟩
      (⟨1, soughtRef none "b"⟩ : Child Nat) (some ⟨"q", "u"⟩) "a" = .ok [] ∧
    named (some ⟨"q", "u"⟩) "a" (⟨2, soughtRef (some ⟨"p", "u"⟩) "a"⟩ : Child Nat) = true ∧
    siblingStep .precedingSibling ⟨[soughtRef none "b", soughtRef (some ⟨"p", "u"⟩) "a"],
        [⟨1, soughtRef none "b"⟩]⟩
      (⟨1, soughtRef none "b"⟩ : Child Nat) (some ⟨"p", "u"⟩) "a" = .error .nullPointer :=
  ⟨rfl, by decide, rfl⟩

end Sedna.XPath.SiblingSteps
