import Mathlib
import Sedna.Structures.Schema

/-!
# Names of inserted nodes

The child list of a schema node, the searches in it by name, and the
insertion of elements and attributes, which takes the schema node of the new
node from a sibling or from the list.
-/

namespace Sedna.Mo.SchemaChildren

open Structures.Schema List

def sameNode (ref : ScRef) (xmlns : Option Xmlns) (name : Option String) (type : TItem) : Bool :=
  ref.name = name && ref.type = type && ref.xmlns = xmlns

theorem sameNode_iff {ref : ScRef} {xmlns : Option Xmlns} {name : Option String}
    {type : TItem} : sameNode ref xmlns name type = true ↔ ref = ⟨name, xmlns, type⟩ := by
  cases ref
  simp [sameNode, and_assoc, @and_comm (_ = type)]

def sameSchemaNode (ref : ScRef) (xmlns : Option Xmlns) (name : Option String) (type : TItem) :
    Bool :=
  ref.type = type && uriOf ref.xmlns = uriOf xmlns && ref.name = name

inductive Error where
  | se2032
  | se2040
  | se2043
  | xpty0004
  | xqdy0025
  deriving DecidableEq

/-- An assertion, which is compiled out by default. -/
def checkNsConstraintsOnInsert (xmlns : Option Xmlns) : Bool := uriOf xmlns ≠ some ""

def getFirstChild (refs : List ScRef) (xmlns : Option Xmlns) (name : Option String)
    (type : TItem) : Option ScRef :=
  refs.find? fun ref => sameNode ref xmlns name type

def maxElementChildCount : Nat := 1024

def addChild (refs : List ScRef) (indexed : Bool) (xmlns : Option Xmlns) (name : Option String)
    (type : TItem) : Except Error (ScRef × List ScRef) :=
  if indexed ∧ type = .element then .error .se2032
  else if refs.length + 1 > maxElementChildCount then .error .se2040
  else .ok (⟨name, xmlns, type⟩, refs ++ [⟨name, xmlns, type⟩])

def childFor (refs : List ScRef) (indexed : Bool) (xmlns : Option Xmlns) (name : Option String)
    (type : TItem) : Except Error (ScRef × List ScRef) :=
  match getFirstChild refs xmlns name type with
  | some snode => .ok (snode, refs)
  | none => addChild refs indexed xmlns name type

theorem childFor_ok {refs refs' : List ScRef} {indexed : Bool} {xmlns : Option Xmlns}
    {name : Option String} {type : TItem} {snode : ScRef}
    (h : childFor refs indexed xmlns name type = .ok (snode, refs')) :
    snode = ⟨name, xmlns, type⟩ := by
  unfold childFor at h
  split at h
  next found hfnd =>
    obtain ⟨rfl, -⟩ := Prod.mk.inj (Except.ok.inj h)
    have hsame := find?_some hfnd
    exact sameNode_iff.1 hsame
  · unfold addChild at h
    split_ifs at h
    exact (Prod.mk.inj (Except.ok.inj h)).1.symm

/-! ## Elements -/

structure InsertedElement where
  snode : ScRef
  refs : List ScRef
  logged : ScRef
  deriving DecidableEq

def brother (left right : Option ScRef) (xmlns : Option Xmlns) (name : String) : Option ScRef :=
  (left.filter fun ref => sameSchemaNode ref xmlns (some name) .element).or
    (right.filter fun ref => sameSchemaNode ref xmlns (some name) .element)

/-- `insert_element` below a node whose schema node has the children `refs`, between the siblings
that `find_relatives` gives.  All blocks of a chain belong to one schema node, so a node next to a
brother gets the brother's. -/
def insertElement (refs : List ScRef) (indexed : Bool) (left right : Option ScRef) (name : String)
    (xmlns : Option Xmlns) : Except Error InsertedElement :=
  match brother left right xmlns name with
  | some snode => .ok ⟨snode, refs, ⟨some name, xmlns, .element⟩⟩
  | none =>
    (childFor refs indexed xmlns (some name) .element).map fun new =>
      ⟨new.1, new.2, ⟨some name, xmlns, .element⟩⟩

theorem brother_names {left right : Option ScRef} {xmlns : Option Xmlns} {name : String}
    {snode : ScRef} (h : brother left right xmlns name = some snode) :
    snode.type = .element ∧ uriOf snode.xmlns = uriOf xmlns ∧ snode.name = some name := by
  have hsame : sameSchemaNode snode xmlns (some name) .element = true := by
    rcases Option.or_eq_some_iff.1 h with h | ⟨-, h⟩
    all_goals exact (Option.filter_eq_some_iff.1 h).2
  simpa [sameSchemaNode, and_assoc] using hsame

/-- The new element has the local name and the URI asked for.  It has the prefix too, and agrees
with its log record, just when a brother it was put next to has that prefix. -/
theorem insertElement_name_iff {refs : List ScRef} {indexed : Bool} {left right : Option ScRef}
    {name : String} {xmlns : Option Xmlns} {new : InsertedElement}
    (h : insertElement refs indexed left right name xmlns = .ok new) :
    new.snode.type = .element ∧ new.snode.expandedName = (uriOf xmlns, some name) ∧
      new.logged = ⟨some name, xmlns, .element⟩ ∧
      (new.snode = new.logged ↔ ∀ snode ∈ brother left right xmlns name, snode.xmlns = xmlns) := by
  unfold insertElement at h
  split at h
  next snode hbrother =>
    obtain rfl := Except.ok.inj h
    obtain ⟨htype, huri, hname⟩ := brother_names hbrother
    refine ⟨htype, Prod.ext huri hname, rfl, ?_⟩
    simp only [hbrother, Option.mem_some_iff, forall_eq']
    constructor
    · intro heq
      rw [heq]
    · intro hxmlns
      rw [← htype, ← hname, ← hxmlns]
  next hbrother =>
    cases hch : childFor refs indexed xmlns (some name) .element with
    | error e => simp [hch, Except.map] at h
    | ok result =>
      rw [hch] at h
      obtain rfl := Except.ok.inj h
      simp [hbrother, childFor_ok hch, ScRef.expandedName]

def named (nsPrefix : String) (type : TItem) : ScRef := ⟨some "a", some ⟨nsPrefix, "u"⟩, type⟩

/-- An element next to one of its own name and prefix keeps both. -/
theorem insertElement_name_iff_samePrefix :
    ∃ new, insertElement [named "p" .element] false (some (named "p" .element)) none "a"
      (some ⟨"p", "u"⟩) = .ok new ∧ new.snode = new.logged := by
  have h : insertElement [named "p" .element] false (some (named "p" .element)) none "a"
      (some ⟨"p", "u"⟩) = .ok ⟨named "p" .element, [named "p" .element], named "p" .element⟩ := rfl
  exact ⟨_, h, (insertElement_name_iff h).2.2.2.2 (by decide)⟩

/-- `q:a` inserted after a `p:a` of the same namespace becomes a `p:a`, while the log has `q:a`. -/
theorem insertElement_loses_name :
    insertElement [named "p" .element] false (some (named "p" .element)) none "a"
      (some ⟨"q", "u"⟩) = .ok ⟨named "p" .element, [named "p" .element], named "q" .element⟩ :=
  rfl

/-! ## Attributes -/

structure Document (ι σ : Type*) where
  refs : σ → List ScRef
  type : σ → TItem
  snode : ι → σ
  attributes : ι → List ScRef

variable {ι σ : Type*} [DecidableEq ι] [DecidableEq σ] {d d' : Document ι σ} {e : ι}
  {name : String} {xmlns : Option Xmlns} {dataSize : Nat}

namespace Document

def findAttribute (d : Document ι σ) (e : ι) : Option String → Option String → Option ScRef :=
  Structures.Schema.findAttribute
    (fun i => (d.refs (d.snode e))[i]?.bind fun ref => (d.attributes e).find? fun a => a = ref)
    (d.refs (d.snode e))

variable (pstrMaxSize : Nat)

def insertAttribute (d : Document ι σ) (e : ι) (name : String) (xmlns : Option Xmlns)
    (dataSize : Nat) : Except Error (Document ι σ) :=
  if dataSize > pstrMaxSize then .error .se2043
  else if d.type (d.snode e) = .document then .error .xpty0004
  else if d.type (d.snode e) ≠ .virtualRoot ∧
      (d.findAttribute e (some name) (uriOf xmlns)).isSome then
    .error .xqdy0025
  else
    -- an index on the schema node only forbids new elements
    (childFor (d.refs (d.snode e)) false xmlns (some name) .attribute).map fun new => { d with
      refs := Function.update d.refs (d.snode e) new.2
      attributes := Function.update d.attributes e (d.attributes e ++ [new.1]) }

inductive Op (ι : Type*) where
  | insert (e : ι) (name : String) (xmlns : Option Xmlns) (dataSize : Nat)
  | delete (e : ι) (i : Nat)

def Op.Asserted : Op ι → Prop
  | .insert _ _ xmlns _ => checkNsConstraintsOnInsert xmlns = true
  | .delete _ _ => True

/-- One operation.  `insert_attribute` throws before it writes. -/
def step (d : Document ι σ) : Op ι → Document ι σ
  | .insert e name xmlns dataSize =>
    match d.insertAttribute pstrMaxSize e name xmlns dataSize with
    | .error _ => d
    | .ok d' => d'
  | .delete e i =>
    { d with attributes := Function.update d.attributes e ((d.attributes e).eraseIdx i) }

def run (d : Document ι σ) (ops : List (Op ι)) : Document ι σ := ops.foldl (step pstrMaxSize) d

structure WellFormed (d : Document ι σ) : Prop where
  type : ∀ e, d.type (d.snode e) = .element
  names : ∀ e, ∀ a ∈ d.attributes e, a.name.isSome ∧ checkNsConstraintsOnInsert a.xmlns = true

def Unique (d : Document ι σ) : Prop := ∀ e, ((d.attributes e).map ScRef.expandedName).Nodup

def ChecksNames (d : Document ι σ) : Prop :=
  ∀ e name xmlns dataSize, checkNsConstraintsOnInsert xmlns = true → dataSize ≤ pstrMaxSize →
    (uriOf xmlns, some name) ∈ (d.attributes e).map ScRef.expandedName →
      d.insertAttribute pstrMaxSize e name xmlns dataSize = .error .xqdy0025

/-- Every attribute belongs to the first schema node that has its expanded name. -/
def FirstOfName (d : Document ι σ) : Prop :=
  ∀ e, ∀ a ∈ d.attributes e, ((d.refs (d.snode e)).find? fun ref =>
    ref.sameNodeFair (uriOf a.xmlns) a.name .attribute) = some a

omit [DecidableEq ι] [DecidableEq σ] in
theorem findAttribute_isSome_iff {name uri : Option String} :
    (d.findAttribute e name uri).isSome ↔ ∃ ref ∈ d.attributes e,
      ((d.refs (d.snode e)).find? fun ref => ref.sameNodeFair uri name .attribute) = some ref := by
  have hfind : ∀ (p : ScRef → Bool) (refs : List ScRef),
      refs.find? p = (refs.findIdx? p).bind fun i => refs[i]? := by
    intro p refs
    induction refs with
    | nil => rfl
    | cons ref refs ih => cases hp : p ref <;> simp [findIdx?_cons, hp, ih, Option.bind_map]
  rw [findAttribute, Structures.Schema.findAttribute, findChildFair, ← Option.bind_assoc, ← hfind]
  cases (d.refs (d.snode e)).find? fun ref => ref.sameNodeFair uri name .attribute with
  | none => simp
  | some ref => simp [find?_isSome]

variable {pstrMaxSize}

theorem step_cases (pstrMaxSize : Nat) (d : Document ι σ) {op : Op ι} (hop : op.Asserted) :
    (∃ e left, left <+ d.attributes e ∧
      d.step pstrMaxSize op = { d with attributes := Function.update d.attributes e left }) ∨
    ∃ e name xmlns dataSize refs, checkNsConstraintsOnInsert xmlns = true ∧
      dataSize ≤ pstrMaxSize ∧
      d.insertAttribute pstrMaxSize e name xmlns dataSize ≠ .error .xqdy0025 ∧
      d.step pstrMaxSize op = { d with
        refs := Function.update d.refs (d.snode e) refs
        attributes := Function.update d.attributes e
          (d.attributes e ++ [⟨some name, xmlns, .attribute⟩]) } := by
  cases op with
  | delete e i => exact .inl ⟨e, _, eraseIdx_sublist _ i, rfl⟩
  | insert e name xmlns dataSize =>
    rw [step]
    split
    · exact .inl ⟨e, _, Sublist.refl _, by rw [Function.update_eq_self]⟩
    next d' hok =>
      right
      have hfree : d.insertAttribute pstrMaxSize e name xmlns dataSize ≠ .error .xqdy0025 := by
        simp [hok]
      unfold insertAttribute at hok
      split_ifs at hok with hsize
      cases hch : childFor (d.refs (d.snode e)) false xmlns (some name) .attribute with
      | error err => simp [hch, Except.map] at hok
      | ok new =>
        rw [hch] at hok
        refine ⟨e, name, xmlns, dataSize, new.2, hop, by omega, hfree, ?_⟩
        rw [← childFor_ok hch]
        exact (Except.ok.inj hok).symm

section

variable (h : d.WellFormed)
include h

theorem insertAttribute_eq_xqdy0025_iff (hsize : dataSize ≤ pstrMaxSize) :
    d.insertAttribute pstrMaxSize e name xmlns dataSize = .error .xqdy0025 ↔
      (d.findAttribute e (some name) (uriOf xmlns)).isSome := by
  have hoth : ∀ refs f, (childFor refs false xmlns (some name) .attribute).map f ≠
      (.error .xqdy0025 : Except Error (Document ι σ)) := by
    intro refs f
    unfold childFor addChild
    split
    · simp [Except.map]
    · split_ifs <;> simp [Except.map]
  rw [insertAttribute, if_neg (by omega), h.type, if_neg (by decide)]
  split_ifs with hfnd
  · simpa using hfnd
  · simpa [hoth] using hfnd

theorem checksNames_of_firstOfName (hfst : d.FirstOfName) : d.ChecksNames pstrMaxSize := by
  intro e name xmlns dataSize hns hsize hmem
  obtain ⟨a, ha, hname⟩ := mem_map.1 hmem
  obtain ⟨hu, hn⟩ := Prod.mk.inj hname
  have hfind := hfst e a ha
  rw [hu, hn] at hfind
  rw [insertAttribute_eq_xqdy0025_iff h hsize, findAttribute_isSome_iff]
  exact ⟨a, ha, hfind⟩

theorem firstOfName_of_checksNames (huniq : d.Unique) (hchecks : d.ChecksNames pstrMaxSize) :
    d.FirstOfName := by
  intro e a ha
  obtain ⟨hname, hns⟩ := h.names e a ha
  obtain ⟨name, hname⟩ := Option.isSome_iff_exists.1 hname
  have hfnd := hchecks e name a.xmlns 0 hns (Nat.zero_le _) (hname ▸ mem_map_of_mem ha)
  rw [insertAttribute_eq_xqdy0025_iff h (Nat.zero_le _), findAttribute_isSome_iff, ← hname]
    at hfnd
  obtain ⟨ref, href, hfind⟩ := hfnd
  have huri : uriOf a.xmlns ≠ some "" := of_decide_eq_true hns
  have hsame := find?_some hfind
  rw [hfind, inj_on_of_nodup_map (huniq e) href ha ((ScRef.sameNodeFair_iff huri).1 hsame).2]

theorem step_wellFormed {op : Op ι} (hop : op.Asserted) : (d.step pstrMaxSize op).WellFormed := by
  obtain ⟨e, left, hsub, heq⟩ | ⟨e, name, xmlns, dataSize, refs, hns, -, -, heq⟩ :=
    step_cases pstrMaxSize d hop
  all_goals
    rw [heq]
    refine ⟨h.type, fun e' => ?_⟩
    simp only [Function.update_apply]
    split_ifs
  · exact fun a ha => h.names e a (hsub.subset ha)
  · exact h.names e'
  · exact forall_mem_append.2 ⟨h.names e, forall_mem_singleton.2 ⟨rfl, hns⟩⟩
  · exact h.names e'

theorem step_unique (hfst : d.FirstOfName) (huniq : d.Unique) {op : Op ι}
    (hop : op.Asserted) : (d.step pstrMaxSize op).Unique := by
  intro e'
  obtain ⟨e, left, hsub, heq⟩ | ⟨e, name, xmlns, dataSize, refs, hns, hsize, hfree, heq⟩ :=
    step_cases pstrMaxSize d hop
  all_goals
    rw [heq]
    simp only [Function.update_apply]
    split_ifs
  · exact (huniq e).sublist (hsub.map _)
  · exact huniq e'
  · rw [map_append]
    refine (huniq e).append (nodup_singleton _) (disjoint_singleton.2 fun hmem => hfree ?_)
    exact checksNames_of_firstOfName h hfst e name xmlns dataSize hns hsize hmem
  · exact huniq e'

theorem run_wellFormed (ops : List (Op ι)) (hops : ∀ op ∈ ops, op.Asserted) :
    (d.run pstrMaxSize ops).WellFormed := by
  induction ops using reverseRecOn with
  | nil => exact h
  | append_singleton ops op ih =>
    rw [forall_mem_append, forall_mem_singleton] at hops
    rw [run, foldl_append]
    exact step_wellFormed (ih hops.1) hops.2

/-- Over a whole run the names of each element stay apart and a name that it has is refused, just
when no attribute ever comes under a schema node behind another one of its expanded name. -/
theorem attributes_unique_iff (huniq : d.Unique) (ops : List (Op ι))
    (hops : ∀ op ∈ ops, op.Asserted) :
    (∀ done, done <+: ops →
      (d.run pstrMaxSize done).Unique ∧ (d.run pstrMaxSize done).ChecksNames pstrMaxSize) ↔
    ∀ done, done <+: ops → (d.run pstrMaxSize done).FirstOfName := by
  have hwell : ∀ done, done <+: ops → (d.run pstrMaxSize done).WellFormed :=
    fun done hdone => run_wellFormed h done fun op hop => hops op (hdone.subset hop)
  constructor
  · intro hall done hdone
    obtain ⟨hdist, hchecks⟩ := hall done hdone
    exact firstOfName_of_checksNames (hwell done hdone) hdist hchecks
  · intro hfst done hdone
    refine ⟨?_, checksNames_of_firstOfName (hwell done hdone) (hfst done hdone)⟩
    induction done using reverseRecOn with
    | nil => exact huniq
    | append_singleton done op ih =>
      have hbef : done <+: ops := (prefix_append done [op]).trans hdone
      rw [run, foldl_append]
      exact step_unique (hwell done hbef) (hfst done hbef) (ih hbef)
        (hops op (hdone.subset (by simp)))

end

def twoElements : Document Bool Unit := ⟨fun _ => [], fun _ => .element, fun _ => (), fun _ => []⟩

/-- Names come to both of them, one is refused, and one comes again after its deletion. -/
theorem attributes_unique_iff_refused :
    ∃ ops : List (Op Bool), ops = [.insert true "a" none 0, .insert false "a" none 0,
        .insert true "b" (some ⟨"p", "u"⟩) 0, .insert true "a" none 0, .delete true 0,
        .insert true "a" none 0] ∧
      ((twoElements.run 1000 ops).attributes true).map ScRef.name = [some "b", some "a"] ∧
      (twoElements.run 1000 ops).Unique ∧ (twoElements.run 1000 ops).ChecksNames 1000 := by
  refine ⟨_, rfl, by decide +kernel, ?_⟩
  have hempty : twoElements.WellFormed := ⟨fun _ => rfl, fun _ _ ha => absurd ha not_mem_nil⟩
  refine (attributes_unique_iff hempty (fun _ => nodup_nil) _ ?_).2 (fun done hdone => ?_) _
    prefix_rfl
  · simp [Op.Asserted, checkNsConstraintsOnInsert, uriOf]
  · revert done
    simp only [← mem_inits, FirstOfName]
    decide +kernel

/-- `q:a` is not seen on an element where another one had `p:a` first: it is added twice. -/
theorem attributes_not_unique :
    (twoElements.run 1000 [.insert false "a" (some ⟨"p", "u"⟩) 0,
      .insert true "a" (some ⟨"q", "u"⟩) 0, .insert true "a" (some ⟨"q", "u"⟩) 0]).attributes true =
        [named "q" .attribute, named "q" .attribute] :=
  rfl

end Document

end Sedna.Mo.SchemaChildren
