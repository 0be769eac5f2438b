import Sedna.XPath.SchemaMerge

/-!
# The nodes an axis step returns

For a node test without a name the step returns, context node by context
node, the nodes of the XPath axis that pass the test.  The exception is a
context node that only the `or-self` part of an axis brings in and whose kind
the mask of the axis leaves out.
-/

namespace Sedna.XPath.AxisStep

open Library.PullIterator Library.TreeZipper Structures.Schema NodeStore List Tree

/-! ## XPath axes and node tests -/

inductive TreeAxis where
  | descendant
  | descendantOrSelf
  | following
  | preceding
  deriving DecidableEq

def TreeAxis.axis : TreeAxis → Axis
  | .descendant => .descendant
  | .descendantOrSelf => .descendantOrSelf
  | .following => .following
  | .preceding => .preceding

inductive KindTest where
  | pi
  | comment
  | text
  | node
  | element
  | attribute
  | document
  | star
  deriving DecidableEq

def KindTest.type : KindTest → NodeTestType
  | .pi => .pi
  | .comment => .comment
  | .text => .text
  | .node => .node
  | .element => .element
  | .attribute => .attribute
  | .document => .document
  | .star => .wildcardStar

/-- The nodes that pass a test on an axis whose principal node kind is the element. -/
def KindTest.Passes : KindTest → TItem → Prop
  | .pi, type => type = .prIns
  | .comment, type => type = .comment
  | .text, type => type = .text
  | .node, _ => True
  | .element, type => type = .element
  | .attribute, type => type = .attribute
  | .document, type => type = .document
  | .star, type => type = .element

variable {α : Type*}

/-- The nodes of an axis: attributes and namespace nodes are on no axis of another node. -/
def OnAxis (st : NodeStore α) (doc : Tree α) (axis : TreeAxis) (x y : α) : Prop :=
  let content := st.nodeType y ≠ .attribute ∧ st.nodeType y ≠ .xmlNamespace
  match axis with
  | .descendant => Tree.Descendant doc x y ∧ content
  | .descendantOrSelf => y = x ∨ Tree.Descendant doc x y ∧ content
  | .following => (Tree.DocBefore doc x y ∧ ¬ Tree.Descendant doc x y) ∧ content
  | .preceding => (Tree.DocBefore doc y x ∧ ¬ Tree.Descendant doc y x) ∧ content

/-- The nodes of an axis that pass a test, each once and in the order of the axis. -/
structure AxisResult (st : NodeStore α) (doc : Tree α) (axis : TreeAxis) (kind : KindTest) (x : α)
    (out : List α) : Prop where
  mem : ∀ y, y ∈ out ↔ OnAxis st doc axis x y ∧ kind.Passes (st.nodeType y)
  order : if axis = .preceding then out.reverse.Sublist doc.preorder
    else out.Sublist doc.preorder

def ExactFor (st : NodeStore α) (doc : Tree α) (axis : TreeAxis) (kind : KindTest)
    (nodes out : List α) : Prop :=
  ∃ outs, out = outs.flatten ∧ List.Forall₂ (AxisResult st doc axis kind) nodes outs

def stepTest (axis : TreeAxis) (kind : KindTest) : NodeTest :=
  ⟨axis.axis, kind.type, none, none, none⟩

/-! ## The masks of the tests -/

def treeMask : KindTest → TypeMask
  | .pi => {.prIns}
  | .comment => {.comment}
  | .text => {.text}
  | .node => tiDmchildren
  | .element => {.element}
  | .attribute => ∅
  | .document => ∅
  | .star => {.element}

def selfMask : KindTest → TypeMask
  | .pi => {.prIns}
  | .comment => {.comment}
  | .text => {.text}
  | .node => tiAllValid
  | .element => {.element}
  | .attribute => {.attribute}
  | .document => {.document}
  | .star => {.element}

theorem createSchemaTest_stepTest (axis : TreeAxis) (kind : KindTest) :
    createSchemaTest (stepTest axis kind) =
      if treeMask kind = ∅ then none else some ⟨.type, treeMask kind, none, none⟩ := by
  cases axis <;> cases kind <;> decide

theorem createSchemaTest_self (axis : TreeAxis) (kind : KindTest) :
    createSchemaTest { stepTest axis kind with axis := .self } =
      some ⟨.type, selfMask kind, none, none⟩ := by
  cases axis <;> cases kind <;> decide

theorem mem_selfMask_iff (kind : KindTest) {type : TItem} (hvirtual : type ≠ .virtualRoot) :
    type ∈ selfMask kind ↔ kind.Passes type := by
  cases kind <;> cases type <;> simp_all [selfMask, KindTest.Passes, tiAllValid]

variable {kind : KindTest} {axis : TreeAxis} {y : α} {nodes : List α}

theorem compares_treeMask (h : .element ∈ treeMask kind) : Compares (treeMask kind) := by
  constructor <;> cases kind <;> revert h <;> decide

/-! ## What the constructor makes of a test -/

def typeTest (mask : TypeMask) : SchemaTest := ⟨.type, mask, none, none⟩

theorem create_null (hmask : treeMask kind = ∅) :
    create (stepTest axis kind) = some (nullStep (stepTest axis kind)) := by
  have htest := createSchemaTest_stepTest axis kind
  rw [if_pos hmask] at htest
  cases axis <;> simp only [create, axisResolutionProcs, stepTest, TreeAxis.axis] at * <;>
    rw [htest]

def traverseStep (axis : TreeAxis) (kind : KindTest) : PPAxisStep where
  nt := stepTest axis kind
  childTypeMask := treeMask kind
  schemaTest := some (typeTest (treeMask kind))
  selfSchemaTest := if axis = .descendantOrSelf then some (typeTest (selfMask kind)) else none
  evaluateAxisProc := if axis = .descendantOrSelf then .resolveSelf else .resolveChildFirst
  nextNodeProc := some .traverseAll
  testNodeProc := some .schemaTest

theorem create_traverse (haxis : axis = .descendant ∨ axis = .descendantOrSelf)
    (hmask : .element ∈ treeMask kind) :
    create (stepTest axis kind) = some (traverseStep axis kind) := by
  rcases haxis with rfl | rfl <;> cases kind <;> revert hmask <;> decide

def mergeStep (axis : TreeAxis) (kind : KindTest) : PPAxisStep where
  __ := traverseStep axis kind
  selfSchemaTest := none
  evaluateAxisProc := .resolveDescendant
  nextNodeProc := some .rightDescendantMerge
  testNodeProc := if kind = .pi then some .piName else none

theorem create_merge (haxis : axis = .descendant ∨ axis = .descendantOrSelf)
    (hne : treeMask kind ≠ ∅) (hmask : .element ∉ treeMask kind) :
    create (stepTest axis kind) = some (mergeStep axis kind) := by
  rcases haxis with rfl | rfl <;> cases kind <;> revert hmask hne <;> decide

def sideStep (axis : TreeAxis) (kind : KindTest) : PPAxisStep where
  __ := traverseStep axis kind
  selfSchemaTest := none
  evaluateAxisProc := if axis = .following then .resolveFollowing else .resolvePreceding
  nextNodeProc := some (if axis = .following then .following else .preceding)

theorem create_side (haxis : axis = .following ∨ axis = .preceding) (hne : treeMask kind ≠ ∅) :
    create (stepTest axis kind) = some (sideStep axis kind) := by
  rcases haxis with rfl | rfl <;> cases kind <;> revert hne <;> decide

/-! ## The test of a visited node -/

variable [DecidableEq α] {st : NodeStore α} {doc : Tree α}

theorem testSchemaOf_typeTest (h : Stored st doc) (mask : TypeMask) (hy : y ∈ doc.preorder) :
    testSchemaOf st (typeTest mask) y = decide (st.nodeType y ∈ mask) := by
  obtain ⟨scn, hscn, htype⟩ := h.sortType y hy
  rw [testSchemaOf, hscn]
  dsimp only
  rw [SchemaTest.test, typeTest, htype]

omit [DecidableEq α] in
theorem compareTarget_stepTest (axis : TreeAxis) (kind : KindTest) (y : α) :
    compareTarget st (stepTest axis kind) y = true := rfl

theorem testNode_side (h : Stored st doc) (axis : TreeAxis) (kind : KindTest) (base : Option α)
    (hy : y ∈ doc.preorder) :
    testNode st (sideStep axis kind) base y = decide (st.nodeType y ∈ treeMask kind) := by
  simp [testNode, sideStep, traverseStep, schemaTest, compareTarget_stepTest,
    testSchemaOf_typeTest h _ hy]

theorem testNode_traverse (h : Stored st doc) (axis : TreeAxis) (kind : KindTest) (base : α)
    (hy : y ∈ doc.preorder) :
    testNode st (traverseStep axis kind) (some base) y =
      if axis = .descendantOrSelf ∧ y = base then decide (st.nodeType y ∈ selfMask kind)
      else decide (st.nodeType y ∈ treeMask kind) := by
  simp only [testNode, traverseStep, schemaTest, ite_self, compareTarget_stepTest,
    testSchemaOf_typeTest h _ hy, Option.some.injEq]
  by_cases haxis : axis = .descendantOrSelf <;> by_cases hbase : y = base <;>
    simp [haxis, hbase]
  rw [← hbase, testSchemaOf_typeTest h _ hy]

/-! ## The results of the axes -/

section

variable (h : Stored st doc) {t : Tree α} {cs : List (Crumb α)} (hl : Loc.rebuild ⟨t, cs⟩ = doc)
include h

theorem not_docBefore_root (y : α) : ¬ DocBefore doc y doc.value := by
  intro hbef
  have hl : Loc.rebuild ⟨doc, []⟩ = doc := rfl
  exact absurd ((docBefore_iff_mem_before hl h.nodup).1 hbef) not_mem_nil

omit h in
omit [DecidableEq α] in
theorem descendant_root (hy : y ∈ doc.preorder) (hne : y ≠ doc.value) :
    Descendant doc doc.value y := by
  refine ⟨doc, doc.mem_subtrees_self, rfl, ?_⟩
  rw [preorder_eq, mem_cons] at hy
  exact hy.resolve_left hne

theorem and_mem_treeMask_iff (kind : KindTest) {P : Prop}
    (hP : P → y ∈ doc.preorder ∧ y ≠ doc.value) :
    P ∧ st.nodeType y ∈ treeMask kind ↔
      (P ∧ st.nodeType y ≠ .attribute ∧ st.nodeType y ≠ .xmlNamespace) ∧
        kind.Passes (st.nodeType y) := by
  rw [and_assoc]
  refine and_congr_right fun hp => ?_
  obtain ⟨hy, hne⟩ := hP hp
  have hdocument : st.nodeType y ≠ .document := fun htype => hne (h.onlyRoot y hy htype)
  have hvirtual := h.noVirtual y hy
  cases kind <;> cases htype : st.nodeType y <;> simp_all [treeMask, KindTest.Passes, tiDmchildren]

theorem ne_root_of_docBefore {x : α} (hbef : DocBefore doc x y) :
    y ∈ doc.preorder ∧ y ≠ doc.value := by
  refine ⟨(docBefore_mem hbef).2, ?_⟩
  rintro rfl
  exact not_docBefore_root h _ hbef

include hl

theorem result_following (kind : KindTest) :
    AxisResult st doc .following kind t.value
      ((after cs).filter fun y => st.nodeType y ∈ treeMask kind) := by
  constructor
  · intro y
    rw [mem_filter, decide_eq_true_iff, ← following_iff hl h.nodup]
    exact and_mem_treeMask_iff h kind fun hfollowing => ne_root_of_docBefore h hfollowing.1
  · rw [← hl, preorder_rebuild]
    exact filter_sublist.trans ((sublist_append_right _ _).trans (sublist_append_right _ _))

theorem result_preceding (kind : KindTest) :
    AxisResult st doc .preceding kind t.value
      ((aside cs).filter fun y => st.nodeType y ∈ treeMask kind) := by
  constructor
  · intro y
    rw [mem_filter, decide_eq_true_iff, ← preceding_iff hl h.nodup]
    apply and_mem_treeMask_iff h kind
    rintro ⟨hbef, hnot⟩
    obtain ⟨hy, ht⟩ := docBefore_mem hbef
    refine ⟨hy, ?_⟩
    rintro rfl
    exact hnot (descendant_root ht (docBefore_ne h.nodup hbef).symm)
  · rw [← hl, preorder_rebuild, ← filter_reverse]
    exact filter_sublist.trans ((reverse_aside_sublist cs).trans (sublist_append_left _ _))

theorem descendant_mask_iff (kind : KindTest) (y : α) :
    (y ∈ t.children.flatMap preorder ∧ st.nodeType y ∈ treeMask kind) ↔
      (Descendant doc t.value y ∧
        (st.nodeType y ≠ .attribute ∧ st.nodeType y ≠ .xmlNamespace)) ∧
        kind.Passes (st.nodeType y) := by
  rw [← value_descendant_iff hl h.nodup]
  exact and_mem_treeMask_iff h kind fun hbel =>
    ne_root_of_docBefore h (docBefore_of_descendant hbel)

theorem result_descendant (kind : KindTest) :
    AxisResult st doc .descendant kind t.value
      ((t.children.flatMap preorder).filter fun y => st.nodeType y ∈ treeMask kind) := by
  constructor
  · intro y
    rw [mem_filter, decide_eq_true_iff]
    exact descendant_mask_iff h hl kind y
  · refine filter_sublist.trans
      (List.Sublist.trans ?_ (preorder_sublist (node_mem_subtrees hl)))
    rw [preorder_eq t]
    exact (List.Sublist.refl _).cons t.value

theorem result_descendantOrSelf (kind : KindTest) :
    AxisResult st doc .descendantOrSelf kind t.value
      ((if st.nodeType t.value ∈ selfMask kind then [t.value] else []) ++
        (t.children.flatMap preorder).filter fun y => st.nodeType y ∈ treeMask kind) := by
  constructor
  · intro y
    rw [mem_append, mem_filter, decide_eq_true_iff, descendant_mask_iff h hl kind y,
      OnAxis,
      or_and_right]
    have hself : y ∈ (if st.nodeType t.value ∈ selfMask kind then [t.value] else []) ↔
        y = t.value ∧ kind.Passes (st.nodeType y) := by
      have hiff := mem_selfMask_iff kind (h.noVirtual t.value (mem_preorder hl))
      by_cases htype : st.nodeType t.value ∈ selfMask kind
      · rw [if_pos htype, mem_singleton, iff_self_and]
        rintro rfl
        exact hiff.1 htype
      · rw [if_neg htype]
        refine iff_of_false not_mem_nil ?_
        rintro ⟨rfl, hpasses⟩
        exact htype (hiff.2 hpasses)
    rw [hself]
  · refine List.Sublist.trans ?_ (preorder_sublist (node_mem_subtrees hl))
    have hcons : t.preorder = [t.value] ++ t.children.flatMap preorder := preorder_eq t
    rw [hcons]
    refine List.Sublist.append ?_ filter_sublist
    split
    · exact List.Sublist.refl _
    · exact nil_sublist _

end

/-! ## The calls of the step -/

/-- The step of a node test returns `out` for the context nodes and then the end of the sequence,
whenever its loops are allowed enough rounds, and leaves its stack and its heap empty. -/
def Returns (st : NodeStore α) (nt : NodeTest) (nodes out : List α) : Prop :=
  ∃ step, create nt = some step ∧ ∃ bound, ∀ limit, bound ≤ limit →
    ∃ s', Produces (doNext st step limit) (doOpen (nodes.map some)) (out.map Except.ok) s' ∧
      Cleared s'.hint

noncomputable def place (doc : Tree α) (x : α) : Loc α :=
  open Classical in
  if h : ∃ l : Loc α, l.rebuild = doc ∧ l.value = x then h.choose else ⟨doc, []⟩

omit [DecidableEq α] in
theorem place_spec {x : α} (hx : x ∈ doc.preorder) :
    Loc.rebuild ⟨(place doc x).focus, (place doc x).crumbs⟩ = doc ∧
      (place doc x).focus.value = x := by
  have hexists : ∃ l : Loc α, l.rebuild = doc ∧ l.value = x := by
    obtain ⟨s, inner, hval, hrebuild⟩ := exists_loc hx
    refine ⟨⟨s, inner⟩, ?_, hval⟩
    have h := hrebuild []
    rw [append_nil] at h
    exact h
  rw [place, dif_pos hexists]
  exact hexists.choose_spec

theorem returns_of_visits (visited : Tree α → List (Crumb α) → List α)
    (Idle : AxisHints α → Prop) {nt : NodeTest} {step : PPAxisStep}
    (hcreate : create nt = some step) (hidle : Idle ⟨none, [], [], []⟩)
    (hclr : ∀ hint, Idle hint → Cleared hint)
    (hvis : ∀ limit, doc.preorder.length + 1 < limit →
      ∀ t cs hint, Loc.rebuild ⟨t, cs⟩ = doc → Idle hint →
        ∃ hint', Visits st step limit t.value hint (visited t cs) hint' ∧ Idle hint')
    (hnodes : ∀ x ∈ nodes, x ∈ doc.preorder) {result : α → List α} (hres : ∀ x ∈ doc.preorder,
      (visited (place doc x).focus (place doc x).crumbs).filter (testNode st step (some x)) =
        result x) :
    Returns st nt nodes (nodes.flatMap result) := by
  rw [← flatMap_congr fun x hx => hres x (hnodes x hx)]
  refine ⟨step, hcreate, doc.preorder.length + (upcoming (fun x =>
    visited (place doc x).focus (place doc x).crumbs) nodes).length + 2, ?_⟩
  intro limit hlimit
  have hcov : Covers st step limit Idle (· ∈ doc.preorder) fun x =>
      visited (place doc x).focus (place doc x).crumbs := by
    constructor
    intro node hint hnode hidle
    obtain ⟨hl, hval⟩ := place_spec hnode
    have hvisit := hvis limit (by omega) _ _ hint hl hidle
    rwa [hval] at hvisit
  obtain ⟨s', hprod, hidle'⟩ := produces_of_covers hcov hidle hnodes (by omega)
  exact ⟨s', hprod, hclr _ hidle'⟩

theorem returns_null (hmask : treeMask kind = ∅) (hnodes : ∀ x ∈ nodes, x ∈ doc.preorder) :
    Returns st (stepTest axis kind) nodes [] := by
  have hnil : (nodes.flatMap fun _ => ([] : List α)) = [] := by simp
  rw [← hnil]
  refine returns_of_visits (fun _ _ => []) Cleared (create_null hmask) ⟨rfl, rfl⟩ (fun _ h => h) ?_
    hnodes fun _ _ => rfl
  intro limit _ t cs hint _ hidle
  exact ⟨{ hint with baseNode := some t.value }, .nothing rfl, hidle⟩

noncomputable def resultOf (st : NodeStore α) (doc : Tree α) (axis : TreeAxis) (kind : KindTest)
    (x : α) : List α :=
  let inMask := fun y => decide (st.nodeType y ∈ treeMask kind)
  match axis with
  | .descendant => ((place doc x).focus.children.flatMap Tree.preorder).filter inMask
  | .descendantOrSelf =>
    (if st.nodeType x ∈ selfMask kind then [x] else []) ++
      ((place doc x).focus.children.flatMap Tree.preorder).filter inMask
  | .following => (after (place doc x).crumbs).filter inMask
  | .preceding => (aside (place doc x).crumbs).filter inMask

section

variable (h : Stored st doc)
include h

theorem resultOf_spec (axis : TreeAxis) (kind : KindTest) {x : α} (hx : x ∈ doc.preorder) :
    AxisResult st doc axis kind x (resultOf st doc axis kind x) := by
  obtain ⟨hl, hval⟩ := place_spec hx
  cases axis with
  | descendant =>
    have hres := result_descendant h hl kind
    rw [hval] at hres
    exact hres
  | descendantOrSelf =>
    have hres := result_descendantOrSelf h hl kind
    rw [hval] at hres
    exact hres
  | following =>
    have hres := result_following h hl kind
    rw [hval] at hres
    exact hres
  | preceding =>
    have hres := result_preceding h hl kind
    rw [hval] at hres
    exact hres

theorem returns_side (haxis : axis = .following ∨ axis = .preceding) (hne : treeMask kind ≠ ∅)
    (hnodes : ∀ x ∈ nodes, x ∈ doc.preorder) :
    Returns st (stepTest axis kind) nodes (nodes.flatMap (resultOf st doc axis kind)) := by
  refine returns_of_visits (fun _ cs => if axis = .following then after cs else aside cs) Cleared
    (create_side haxis hne) ⟨rfl, rfl⟩ (fun _ h => h) ?_ hnodes ?_
  · intro limit hlimit t cs hint hl hidle
    refine ⟨{ hint with baseNode := some t.value }, ?_, hidle⟩
    rcases haxis with rfl | rfl
    · exact visits_following h (by omega) rfl rfl hl hidle
    · exact visits_preceding h (by omega) rfl rfl hl hint
  intro x hx
  obtain ⟨hl, -⟩ := place_spec hx
  have hafter : ∀ y ∈ after (place doc x).crumbs, y ∈ doc.preorder := by
    intro y hy
    rw [← hl, preorder_rebuild]
    exact mem_append_right _ (mem_append_right _ hy)
  have haside : ∀ y ∈ aside (place doc x).crumbs, y ∈ doc.preorder := by
    intro y hy
    rw [← hl, preorder_rebuild]
    exact mem_append_left _ (mem_before_iff.2 (.inr hy))
  rcases haxis with rfl | rfl
  · exact filter_congr fun y hy => testNode_side h _ kind _ (hafter y hy)
  · exact filter_congr fun y hy => testNode_side h _ kind _ (haside y hy)

theorem filter_children_treeMask (hmask : .element ∈ treeMask kind) {t : Tree α}
    (ht : t ∈ doc.subtrees) (entered : Bool) :
    ((prunedForest (skipped st (treeMask kind)) entered t.children).filter fun y =>
      st.nodeType y ∈ treeMask kind) =
      (t.children.flatMap preorder).filter fun y => st.nodeType y ∈ treeMask kind := by
  apply filter_prunedForest
  intro c hc s hs hskip
  have hskip : st.nodeType s.value ∉ treeMask kind := by simpa [skipped] using hskip
  have hsub : s ∈ doc.subtrees := mem_subtrees_trans hs (child_mem_subtrees ht hc)
  refine ⟨decide_eq_false hskip, ?_⟩
  by_contra hne
  rcases h.inner s hsub hne with htype | htype
  · exact hskip (htype ▸ hmask)
  · -- the root is the only document node, and `s` is below another node
    have hval := h.onlyRoot s.value (mem_preorder_of_mem_subtrees s.value_mem_preorder hsub) htype
    refine not_docBefore_root h t.value (hval ▸ docBefore_of_descendant ⟨t, ht, rfl, ?_⟩)
    exact mem_flatMap.2 ⟨c, hc, mem_preorder_of_mem_subtrees s.value_mem_preorder hs⟩

theorem below_place {x y : α} (hx : x ∈ doc.preorder)
    (hy : y ∈ (place doc x).focus.children.flatMap preorder) : y ≠ x ∧ y ∈ doc.preorder := by
  obtain ⟨hl, hval⟩ := place_spec hx
  have hsub := node_mem_subtrees hl
  constructor
  · rintro rfl
    have hnot := value_not_mem_children (h.nodup.sublist (preorder_sublist hsub))
    rw [hval] at hnot
    exact hnot hy
  · refine mem_preorder_of_mem_subtrees ?_ hsub
    rw [preorder_eq]
    exact mem_cons_of_mem _ hy

theorem returns_traverse (haxis : axis = .descendant ∨ axis = .descendantOrSelf)
    (hmask : .element ∈ treeMask kind) (hnodes : ∀ x ∈ nodes, x ∈ doc.preorder) :
    Returns st (stepTest axis kind) nodes (nodes.flatMap (resultOf st doc axis kind)) := by
  refine returns_of_visits (fun t _ => if axis = .descendantOrSelf then
      pruned (skipped st (treeMask kind)) t
    else prunedForest (skipped st (treeMask kind)) true t.children) Cleared
    (create_traverse haxis hmask) ⟨rfl, rfl⟩ (fun _ h => h) ?_ hnodes ?_
  · intro limit hlimit t cs hint hl hidle
    refine ⟨{ hint with baseNode := some t.value }, ?_, hidle⟩
    rcases haxis with rfl | rfl
    · rw [prunedForest_true]
      exact visits_childFirst h rfl (compares_treeMask hmask) hlimit hl hidle rfl
    · exact visits_self h rfl (compares_treeMask hmask) hlimit hl hidle rfl
  intro x hx
  obtain ⟨hl, hval⟩ := place_spec hx
  -- below the context node the test is that of the mask
  have hbel : ∀ entered, (prunedForest (skipped st (treeMask kind)) entered
      (place doc x).focus.children).filter (testNode st (traverseStep axis kind) (some x)) =
      ((place doc x).focus.children.flatMap preorder).filter fun y =>
        st.nodeType y ∈ treeMask kind := by
    intro entered
    rw [← filter_children_treeMask h hmask (node_mem_subtrees hl) entered]
    apply filter_congr
    intro y hy
    obtain ⟨hne, hmem⟩ := below_place h hx (mem_prunedForest hy)
    rw [testNode_traverse h axis kind x hmem, if_neg]
    exact fun hself => hne hself.2
  rcases haxis with rfl | rfl
  · rw [if_neg (by decide), hbel]
    rfl
  · rw [if_pos rfl, pruned_eq, hval, ← singleton_append, filter_append, hbel]
    congr 1
    rw [filter_singleton, testNode_traverse h _ kind x hx]
    by_cases htype : st.nodeType x ∈ selfMask kind <;> simp

theorem returns_merge (haxis : axis = .descendant ∨ axis = .descendantOrSelf)
    (hne : treeMask kind ≠ ∅) (hmask : .element ∉ treeMask kind)
    (hnodes : ∀ x ∈ nodes, x ∈ doc.preorder) :
    Returns st (stepTest axis kind) nodes (nodes.flatMap (resultOf st doc axis kind)) := by
  refine returns_of_visits (fun t _ => t.preorder.filter (selected st (stepTest axis kind) t.value))
    (fun hint => Cleared hint ∧ CacheSound st (stepTest axis kind) hint)
    (create_merge haxis hne hmask) ⟨⟨rfl, rfl⟩, fun _ _ hlookup => nomatch hlookup⟩
    (fun _ h => h.1) ?_ hnodes ?_
  · intro limit hlimit t cs hint hl hidle
    exact visits_merge h rfl rfl (by omega) hl hidle.1 hidle.2
  intro x hx
  obtain ⟨-, hval⟩ := place_spec hx
  rw [hval]
  have hall : ((place doc x).focus.preorder.filter
      (selected st (stepTest axis kind) x)).filter (testNode st (mergeStep axis kind) (some x)) =
      (place doc x).focus.preorder.filter (selected st (stepTest axis kind) x) := by
    rw [filter_eq_self]
    intro y _
    by_cases hpi : kind = .pi <;>
      simp [testNode, mergeStep, traverseStep, hpi, compareTarget_stepTest]
  have hbel : ((place doc x).focus.children.flatMap preorder).filter
      (selected st (stepTest axis kind) x) =
      ((place doc x).focus.children.flatMap preorder).filter fun y =>
        st.nodeType y ∈ treeMask kind := by
    apply filter_congr
    intro y hy
    obtain ⟨hyne, hmem⟩ := below_place h hx hy
    rw [selected, if_neg hyne, createSchemaTest_stepTest, if_neg hne]
    exact testSchemaOf_typeTest h _ hmem
  have hself : selected st (stepTest axis kind) x x =
      (decide (axis = .descendantOrSelf) && decide (st.nodeType x ∈ selfMask kind)) := by
    rw [selected, if_pos rfl, createSchemaTest_self]
    congr 1
    · rcases haxis with rfl | rfl <;> rfl
    · exact testSchemaOf_typeTest h _ hx
  rw [hall, preorder_eq, hval, ← singleton_append, filter_append, hbel, filter_singleton, hself]
  rcases haxis with rfl | rfl
  · rfl
  · by_cases htype : st.nodeType x ∈ selfMask kind <;> simp [resultOf]

/-! ## Exactness -/

/-- A context node of a kind that the descendant-or-self axis has only through the node itself:
the test is given up before the node is looked at. -/
def LosesSelf (st : NodeStore α) (axis : TreeAxis) (kind : KindTest) (x : α) : Prop :=
  axis = .descendantOrSelf ∧
    (kind = .document ∧ st.nodeType x = .document ∨ kind = .attribute ∧ st.nodeType x = .attribute)

/-- An attribute that is on the axis as the context node itself. -/
def KeepsAttribute (st : NodeStore α) (axis : TreeAxis) (kind : KindTest) (x : α) : Prop :=
  axis = .descendantOrSelf ∧ kind = .node ∧ st.nodeType x = .attribute

theorem returns_result (axis : TreeAxis) (hne : treeMask kind ≠ ∅)
    (hnodes : ∀ x ∈ nodes, x ∈ doc.preorder) :
    Returns st (stepTest axis kind) nodes (nodes.flatMap (resultOf st doc axis kind)) := by
  cases axis with
  | following => exact returns_side h (.inl rfl) hne hnodes
  | preceding => exact returns_side h (.inr rfl) hne hnodes
  | descendant =>
    by_cases hmask : .element ∈ treeMask kind
    · exact returns_traverse h (.inl rfl) hmask hnodes
    · exact returns_merge h (.inl rfl) hne hmask hnodes
  | descendantOrSelf =>
    by_cases hmask : .element ∈ treeMask kind
    · exact returns_traverse h (.inr rfl) hmask hnodes
    · exact returns_merge h (.inr rfl) hne hmask hnodes

end

omit [DecidableEq α] in
theorem exactFor_of_results {result : α → List α}
    (hres : ∀ x ∈ nodes, AxisResult st doc axis kind x (result x)) :
    ExactFor st doc axis kind nodes (nodes.flatMap result) := by
  refine ⟨nodes.map result, rfl, ?_⟩
  induction nodes with
  | nil => exact .nil
  | cons x nodes ih =>
    exact .cons (hres x mem_cons_self) (ih fun y hy => hres y (mem_cons_of_mem x hy))

omit [DecidableEq α] in
theorem exactFor_mem {out : List α} (hexact : ExactFor st doc axis kind nodes out) (y : α) :
    y ∈ out ↔ ∃ x ∈ nodes, OnAxis st doc axis x y ∧ kind.Passes (st.nodeType y) := by
  obtain ⟨outs, rfl, houts⟩ := hexact
  induction houts with
  | nil => simp
  | cons hx _ ih => simp [ih, hx.mem y]

theorem exactFor_nil_iff (h : Stored st doc) (hmask : treeMask kind = ∅)
    (hnodes : ∀ x ∈ nodes, x ∈ doc.preorder) :
    ExactFor st doc axis kind nodes [] ↔ ∀ x ∈ nodes, ¬ LosesSelf st axis kind x := by
  constructor
  · rintro hexact x hx ⟨rfl, hkind⟩
    have hpasses : kind.Passes (st.nodeType x) := by
      rcases hkind with ⟨rfl, htype⟩ | ⟨rfl, htype⟩ <;> exact htype
    exact absurd ((exactFor_mem hexact x).2 ⟨x, hx, .inl rfl, hpasses⟩) not_mem_nil
  · intro hnot
    have hnil : nodes.flatMap (resultOf st doc axis kind) = [] := by
      rw [flatMap_eq_nil_iff]
      intro x hx
      have hself : axis = .descendantOrSelf → st.nodeType x ∉ selfMask kind := by
        rintro rfl htype
        refine hnot x hx ⟨rfl, ?_⟩
        cases kind <;> simp_all [treeMask, selfMask, tiDmchildren]
      cases axis <;> simp [resultOf, hmask, hself]
    rw [← hnil]
    exact exactFor_of_results fun x hx => resultOf_spec h axis kind (hnodes x hx)

/-- Over every stored document, axis of the tree, node test without a name and sequence of
context nodes, the step returns exactly the nodes of the axis that pass the test, unless the test
asks for the kind of a context node that only the `or-self` part of the axis could return.  No
attribute is returned but a context node itself. -/
theorem axisStep_exact_iff (h : Stored st doc) (axis : TreeAxis) (kind : KindTest)
    {nodes : List α} (hnodes : ∀ x ∈ nodes, x ∈ doc.preorder) :
    ∃ out, Returns st (stepTest axis kind) nodes out ∧
      (ExactFor st doc axis kind nodes out ↔ ∀ x ∈ nodes, ¬ LosesSelf st axis kind x) ∧
      (ExactFor st doc axis kind nodes out ∧ (∀ y ∈ out, st.nodeType y ≠ .attribute) ↔
        ∀ x ∈ nodes, ¬ LosesSelf st axis kind x ∧ ¬ KeepsAttribute st axis kind x) := by
  obtain ⟨out, hout, hexact⟩ : ∃ out, Returns st (stepTest axis kind) nodes out ∧
      (ExactFor st doc axis kind nodes out ↔ ∀ x ∈ nodes, ¬ LosesSelf st axis kind x) := by
    by_cases hmask : treeMask kind = ∅
    · exact ⟨[], returns_null hmask hnodes, exactFor_nil_iff h hmask hnodes⟩
    · refine ⟨_, returns_result h axis hmask hnodes, ?_⟩
      have hexact := exactFor_of_results fun x hx => resultOf_spec h axis kind (hnodes x hx)
      refine iff_of_true hexact ?_
      rintro x - ⟨-, ⟨rfl, -⟩ | ⟨rfl, -⟩⟩
      · exact hmask rfl
      · exact hmask rfl
  refine ⟨out, hout, hexact, ?_⟩
  constructor
  · rintro ⟨hout', hnone⟩ x hx
    refine ⟨hexact.1 hout' x hx, ?_⟩
    rintro ⟨rfl, rfl, htype⟩
    exact hnone x ((exactFor_mem hout' x).2 ⟨x, hx, .inl rfl, trivial⟩) htype
  · intro hnot
    have hout' := hexact.2 fun x hx => (hnot x hx).1
    refine ⟨hout', ?_⟩
    intro y hy htype
    obtain ⟨x, hx, haxis, hpasses⟩ := (exactFor_mem hout' y).1 hy
    obtain ⟨rfl, rfl⟩ : axis = .descendantOrSelf ∧ y = x := by
      cases axis with
      | descendant | following | preceding => exact absurd htype haxis.2.1
      | descendantOrSelf =>
        rcases haxis with heq | hbel
        · exact ⟨rfl, heq⟩
        · exact absurd htype hbel.2.1
    obtain ⟨hloses, hkeeps⟩ := hnot y hx
    have hkind : kind = .node ∨ kind = .attribute := by
      cases kind <;> simp_all [KindTest.Passes]
    rcases hkind with rfl | rfl
    · exact hkeeps ⟨rfl, rfl, htype⟩
    · exact hloses ⟨rfl, .inr ⟨rfl, htype⟩⟩

/-! ### A document with an element, an attribute and a text -/

def sampleDoc : Tree (Fin 4) := .node 0 [.node 1 [.node 2 [], .node 3 []]]

def sampleStore : NodeStore (Fin 4) where
  schema := .node ⟨none, none, .document⟩ [.node ⟨some "a", none, .element⟩
    [.node ⟨some "b", none, .attribute⟩ [], .node ⟨none, none, .text⟩ []]]
  persistent := true
  descriptor
    | 0 => ⟨.document, .internal [1], none, none, none, none, [some 1], [], ""⟩
    | 1 => ⟨.element, .internal [1, 3], none, none, some 0, none, [some 2, some 3], [0], ""⟩
    | 2 => ⟨.attribute, .internal [1, 3, 5], none, some 3, some 1, none, [], [0, 0], ""⟩
    | 3 => ⟨.text, .internal [1, 3, 7], some 2, none, some 1, none, [], [0, 1], ""⟩

theorem sample_places {l : Loc (Fin 4)} (hl : l.rebuild = sampleDoc) :
    l = ⟨sampleDoc, []⟩ ∨
      l = ⟨.node 1 [.node 2 [], .node 3 []], [⟨[], 0, []⟩]⟩ ∨
      l = ⟨.node 2 [], [⟨[], 1, [.node 3 []]⟩, ⟨[], 0, []⟩]⟩ ∨
      l = ⟨.node 3 [], [⟨[.node 2 []], 1, []⟩, ⟨[], 0, []⟩]⟩ := by
  have hleaf : ∀ {t : Tree (Fin 4)} {inner : List (Crumb (Fin 4))} {x : Fin 4},
      Loc.rebuild ⟨t, inner⟩ = .node x [] → t = .node x [] ∧ inner = [] := by
    intro t inner x h
    rcases rebuild_eq_node h with heq | ⟨ls, c, rs, inner', hnil, -, -⟩
    · exact Loc.mk.inj heq
    · simp at hnil
  obtain ⟨t, cs⟩ := l
  rcases rebuild_eq_node hl with heq | ⟨ls, c, rs, inner, hts, hinner, hcs⟩
  · exact .inl heq
  · right
    obtain ⟨rfl, rfl, rfl⟩ : ls = [] ∧ c = .node 1 [.node 2 [], .node 3 []] ∧ rs = [] := by
      cases ls <;> simp_all
    rcases rebuild_eq_node hinner with heq | ⟨ls, c, rs, inner', hts, hinner', hcs'⟩
    · left
      obtain ⟨rfl, rfl⟩ := Loc.mk.inj heq
      rw [show cs = _ from hcs]
      rfl
    · right
      subst hcs' hcs
      rcases ls with _ | ⟨l, ls⟩
      · left
        obtain ⟨rfl, rfl⟩ : c = .node 2 [] ∧ rs = [.node 3 []] := by simp_all
        obtain ⟨rfl, rfl⟩ := hleaf hinner'
        rfl
      · right
        obtain ⟨rfl, rfl, rfl, rfl⟩ : l = .node 2 [] ∧ ls = [] ∧ c = .node 3 [] ∧ rs = [] := by
          cases ls <;> simp_all
        obtain ⟨rfl, rfl⟩ := hleaf hinner'
        rfl

theorem sample_subtrees {s : Tree (Fin 4)} (hs : s ∈ sampleDoc.subtrees) :
    s = sampleDoc ∨ s = .node 1 [.node 2 [], .node 3 []] ∨ s = .node 2 [] ∨ s = .node 3 [] := by
  simpa [sampleDoc, subtrees, forestSubtrees] using hs

theorem sample_sort_injective : ∀ x y : Fin 4,
    sampleStore.schemaNode x = sampleStore.schemaNode y → x = y := by
  decide

theorem sample_descendant_iff (x y : Fin 4) :
    Descendant sampleDoc x y ↔
      (x, y) ∈ ([(0, 1), (0, 2), (0, 3), (1, 2), (1, 3)] : List (Fin 4 × Fin 4)) := by
  unfold Descendant
  revert x y
  decide

theorem sample_stored : Stored sampleStore sampleDoc where
  nodup := by decide
  left := by
    intro l hl
    rcases sample_places hl with rfl | rfl | rfl | rfl <;> rfl
  right := by
    intro l hl
    rcases sample_places hl with rfl | rfl | rfl | rfl <;> rfl
  parent := by
    intro l hl
    rcases sample_places hl with rfl | rfl | rfl | rfl <;> rfl
  childSort := by
    intro s hs t ht
    rcases sample_subtrees hs with rfl | rfl | rfl | rfl
    · obtain rfl : t = .node 1 [.node 2 [], .node 3 []] := by simpa [sampleDoc] using ht
      exact ⟨0, rfl⟩
    · rcases (show t = .node 2 [] ∨ t = .node 3 [] by simpa using ht) with rfl | rfl
      · exact ⟨0, rfl⟩
      · exact ⟨1, rfl⟩
    · exact absurd ht not_mem_nil
    · exact absurd ht not_mem_nil
  sortType := by
    intro x _
    match x with
    | 0 => exact ⟨_, rfl, rfl⟩
    | 1 => exact ⟨_, rfl, rfl⟩
    | 2 => exact ⟨_, rfl, rfl⟩
    | 3 => exact ⟨_, rfl, rfl⟩
  childList := by
    intro s hs i
    rcases sample_subtrees hs with rfl | rfl | rfl | rfl
    · match i with
      | 0 => rfl
      | i + 1 => rfl
    · match i with
      | 0 => rfl
      | 1 => rfl
      | i + 2 => rfl
    · rfl
    · rfl
  descNext := by
    intro p x q hspl y hfind
    have hnd : (p ++ x :: q).Nodup := by
      rw [← hspl]
      decide
    have hsort : sampleStore.schemaNode y = sampleStore.schemaNode x := by
      simpa using find?_some hfind
    have hmem : x ∈ q := sample_sort_injective y x hsort ▸ mem_of_find?_eq_some hfind
    exact absurd hmem (nodup_cons.1 (nodup_append.1 hnd).2.1).1
  descLast := by
    intro p x q _ _ z hz
    match x with
    | 0 => cases hz
    | 1 => cases hz
    | 2 => cases hz
    | 3 => cases hz
  labelOrder := by
    unfold DocBefore
    decide
  labelBelow := by
    intro x _ y _
    rw [sample_descendant_iff]
    fin_cases x <;> fin_cases y <;>
      simp [NodeStore.label, sampleStore, Nid.NumbScheme.nidGetPrefix, Nid.NumbScheme.alphabetSize]
  inner := by
    intro s hs hne
    rcases sample_subtrees hs with rfl | rfl | rfl | rfl
    · exact .inr rfl
    · exact .inl rfl
    · exact absurd rfl hne
    · exact absurd rfl hne
  root := rfl
  onlyRoot := by decide
  noVirtual := by decide

/-- The theorem at the sample document, for the text node and the element as context nodes. -/
theorem axisStep_exact_iff_sample :
    ∃ out, Returns sampleStore (stepTest .preceding .node) [3, 1] out ∧
      (ExactFor sampleStore sampleDoc .preceding .node [3, 1] out ↔
        ∀ x ∈ [3, 1], ¬ LosesSelf sampleStore .preceding .node x) ∧
      (ExactFor sampleStore sampleDoc .preceding .node [3, 1] out ∧
        (∀ y ∈ out, sampleStore.nodeType y ≠ .attribute) ↔
          ∀ x ∈ [3, 1], ¬ LosesSelf sampleStore .preceding .node x ∧
            ¬ KeepsAttribute sampleStore .preceding .node x) :=
  axisStep_exact_iff sample_stored .preceding .node (by decide)

/-- `descendant-or-self::document-node()` on the document node returns nothing, although the
document node is on the axis and passes the test. -/
theorem documentNode_lost :
    Stored sampleStore sampleDoc ∧
      Returns sampleStore (stepTest .descendantOrSelf .document) [0] [] ∧
      OnAxis sampleStore sampleDoc .descendantOrSelf 0 0 ∧
      KindTest.Passes .document (sampleStore.nodeType 0) ∧
      ¬ ExactFor sampleStore sampleDoc .descendantOrSelf .document [0] [] := by
  refine ⟨sample_stored, returns_null rfl (by decide : ∀ x ∈ [0], x ∈ sampleDoc.preorder), .inl rfl,
    rfl, ?_⟩
  intro hexact
  exact absurd ((exactFor_mem hexact 0).2 ⟨0, mem_cons_self, .inl rfl, rfl⟩) not_mem_nil

end Sedna.XPath.AxisStep
