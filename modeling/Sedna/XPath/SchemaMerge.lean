import Sedna.Library.Lists
import Sedna.XPath.ChildAccess
import Sedna.XPath.AxisStep
import Sedna.Library.ClassMerge
import Sedna.XPath.Traversals

/-!
# Nodes by schema path

Where a document is stored by sorts, the first node of a sort below a base
node is found along the schema path from the base node, and the paths that
`executeNodeTestPath` collects are those of the sorts that pass the test.
`resolveAxis_Descendant` and `nextNode_RightDescendantMerge` return the nodes of these sorts in
document order: between two calls the heap holds the first node of every sort still to come.
-/

namespace Sedna.XPath.AxisStep

open Library.Lists Library.TreeZipper Structures.Schema NodeStore List Tree

variable {α : Type*} [DecidableEq α] {st : NodeStore α} {doc : Tree α} {t : Tree α} {y x : α}
  {sort : SchemaPath}

/-! ## Sorts along the tree -/

section

variable (h : Stored st doc)
include h

section

variable (ht : t ∈ doc.subtrees)
include ht

theorem exists_sort_below (hy : y ∈ t.preorder) :
    ∃ path, st.schemaNode y = st.schemaNode t.value ++ path := by
  induction t using induction with
  | step a ts ih =>
    rw [preorder_node, mem_cons, mem_flatMap] at hy
    rcases hy with rfl | ⟨c, hc, hy⟩
    · exact ⟨[], by rw [append_nil]; rfl⟩
    · obtain ⟨path, hpath⟩ := ih c hc (child_mem_subtrees ht hc) hy
      obtain ⟨i, hi⟩ := h.childSort _ ht c hc
      exact ⟨i :: path, by rw [hpath, hi, append_assoc, singleton_append]⟩

theorem exists_sort_of_child {c : Tree α} (hc : c ∈ t.children) (hy : y ∈ c.preorder) :
    ∃ i path, st.schemaNode c.value = st.schemaNode t.value ++ [i] ∧
      st.schemaNode y = st.schemaNode t.value ++ i :: path := by
  obtain ⟨i, hi⟩ := h.childSort t ht c hc
  obtain ⟨path, hpath⟩ := exists_sort_below h (child_mem_subtrees ht hc) hy
  exact ⟨i, path, hi, by rw [hpath, hi, append_assoc, singleton_append]⟩

theorem find_sort_eq {i : Nat} (hroot : st.schemaNode t.value ≠ sort ++ [i]) :
    (t.preorder.find? fun y => st.schemaNode y = sort ++ [i]) =
      (t.preorder.filter fun y => st.schemaNode y = sort).findSome? fun y => st.getChildAt y i := by
  induction t using induction with
  | step a ts ih =>
    rw [preorder_node, find?_cons_of_neg (by simpa using hroot), find?_flatMap]
    by_cases hsort : st.schemaNode a = sort
    · -- no other node of the sort is below, and the children of this one are looked up directly
      have hbel : ∀ c ∈ ts, c.preorder.filter (fun y => st.schemaNode y = sort) = [] := by
        intro c hc
        rw [filter_eq_nil_iff]
        intro y hy heq
        obtain ⟨j, path, -, hpath⟩ := exists_sort_of_child h ht hc hy
        rw [value_node, hsort, of_decide_eq_true heq] at hpath
        simpa using congrArg length hpath
      have hch : ∀ c ∈ ts, (c.preorder.find? fun y => st.schemaNode y = sort ++ [i]) =
          (Option.guard (fun y => st.schemaNode y = sort ++ [i]) ∘ value) c := by
        intro c hc
        by_cases hc' : st.schemaNode c.value = sort ++ [i]
        · rw [preorder_eq]
          simp [hc', Option.guard]
        · rw [ih c hc (child_mem_subtrees ht hc) hc', hbel c hc]
          simp [hc', Option.guard]
      have hget := h.childList (.node a ts) ht i
      rw [value_node, children_node, hsort] at hget
      rw [filter_cons_of_pos (by simpa using hsort), filter_flatMap, findSome?_cons, hget,
        flatMap_eq_nil_iff.2 hbel, findSome?_congr hch,
        find?_eq_findSome?_guard, findSome?_map]
      cases ts.findSome? (Option.guard (fun y => st.schemaNode y = sort ++ [i]) ∘ value) <;> rfl
    · rw [filter_cons_of_neg (by simpa using hsort), filter_flatMap, findSome?_flatMap]
      refine findSome?_congr fun c hc => ih c hc (child_mem_subtrees ht hc) ?_
      obtain ⟨j, hj⟩ := h.childSort _ ht c hc
      rw [hj]
      exact fun heq => hsort (append_inj_left' heq rfl)

theorem find_sort_append_eq_none (hlen : (st.schemaNode t.value).length ≤ sort.length)
    (hnone : (t.preorder.find? fun y => st.schemaNode y = sort) = none) (path : SchemaPath) :
    (t.preorder.find? fun y => st.schemaNode y = sort ++ path) = none := by
  induction path generalizing sort with
  | nil =>
    rw [append_nil]
    exact hnone
  | cons i path ih =>
    have hnil : (t.preorder.filter fun y => st.schemaNode y = sort) = [] := by
      rw [filter_eq_nil_iff]
      exact find?_eq_none.1 hnone
    have hnext : (t.preorder.find? fun y => st.schemaNode y = sort ++ [i]) = none := by
      rw [find_sort_eq h ht fun heq => by simp [heq] at hlen, hnil]
      rfl
    have hlonger : (st.schemaNode t.value).length ≤ (sort ++ [i]).length := by
      rw [length_append]
      omega
    have hstep := ih hlonger hnext
    rw [append_assoc] at hstep
    exact hstep

end

end

/-! ## The chains of the sorts -/

section

variable (h : Stored st doc) {tb : Tree α} {outer : List (Crumb α)}
  (hl : Loc.rebuild ⟨tb, outer⟩ = doc)
include h hl

theorem mem_subtree_iff (hy : y ∈ doc.preorder) :
    (st.nidCmpEffective y tb.value = 2 ∨ st.nidCmpEffective y tb.value = 0) ↔ y ∈ tb.preorder := by
  rw [h.effective_below_iff hy (mem_preorder hl), preorder_eq, mem_cons,
    value_descendant_iff hl h.nodup]

theorem getRightBrother_eq {p q : List α} (hspl : tb.preorder = p ++ x :: q) :
    getRightBrother st x tb.value = q.find? fun y => st.schemaNode y = st.schemaNode x := by
  have hdoc : doc.preorder = (before outer ++ p) ++ x :: (q ++ after outer) := by
    rw [← hl, preorder_rebuild, hspl]
    simp
  have hinside : ∀ y ∈ q, y ∈ tb.preorder := by
    intro y hy
    rw [hspl]
    exact mem_append_right p (mem_cons_of_mem x hy)
  rw [getRightBrother, NodeStore.getNextDescriptorOfSameSort]
  cases hfind : q.find? fun y => st.schemaNode y = st.schemaNode x with
  | some y =>
    have hnext := h.descNext _ x _ hdoc y (by rw [find?_append, hfind]; rfl)
    have hy := hinside y (mem_of_find?_eq_some hfind)
    have hrelation := (mem_subtree_iff h hl
      (mem_preorder_of_mem_subtrees hy (node_mem_subtrees hl))).2 hy
    rw [hnext]
    dsimp only
    rw [if_neg (by omega)]
  | none =>
    cases hafter : (after outer).find? fun y => st.schemaNode y = st.schemaNode x with
    | some z =>
      have hnext := h.descNext _ x _ hdoc z (by rw [find?_append, hfind, hafter]; rfl)
      have hz := mem_of_find?_eq_some hafter
      have hmem : z ∈ doc.preorder := by
        rw [hdoc]
        exact mem_append_right _ (mem_cons_of_mem x (mem_append_right q hz))
      have hnot : z ∉ tb.preorder := by
        intro hin
        have hnd := h.nodup
        rw [← hl, preorder_rebuild] at hnd
        exact (nodup_append.1 (nodup_append.1 hnd).2.1).2.2 z hin z hz rfl
      rw [← mem_subtree_iff h hl hmem, not_or] at hnot
      rw [hnext]
      exact if_pos hnot
    | none =>
      have hlast : ∀ y ∈ q ++ after outer, st.schemaNode y ≠ st.schemaNode x := by
        intro y hy
        rcases mem_append.1 hy with hy | hy
        · simpa using find?_eq_none.1 hfind y hy
        · simpa using find?_eq_none.1 hafter y hy
      cases hnext : (st.descriptor x).descNext with
      | none => rfl
      | some z => exact if_pos (h.descLast _ x _ hdoc hlast z hnext tb.value (mem_preorder hl))

theorem childOfBrothers_eq {p q : List α} (hspl : tb.preorder = p ++ x :: q) (i : Nat) {n : Nat}
    (hn : q.length < n) :
    childOfBrothers st i tb.value n x =
      .ok ((x :: q.filter fun y => st.schemaNode y = st.schemaNode x).findSome? fun y =>
        st.getChildAt y i) := by
  induction n generalizing p q x with
  | zero => omega
  | succ n ih =>
    rw [childOfBrothers, findSome?_cons]
    cases hch : st.getChildAt x i with
    | some nodeJ => rfl
    | none =>
      rw [getRightBrother_eq h hl hspl]
      cases hfind : q.find? fun y => st.schemaNode y = st.schemaNode x with
      | none =>
        have hnil : (q.filter fun y => st.schemaNode y = st.schemaNode x) = [] := by
          rw [filter_eq_nil_iff]
          exact find?_eq_none.1 hfind
        rw [hnil]
        rfl
      | some y =>
        obtain ⟨hy, q1, q2, rfl, hq1⟩ := find?_eq_some_iff_append.1 hfind
        have hsort : st.schemaNode y = st.schemaNode x := by simpa using hy
        have hspl' : tb.preorder = (p ++ x :: q1) ++ y :: q2 := by
          rw [hspl]
          simp
        have hnil : (q1.filter fun y => st.schemaNode y = st.schemaNode x) = [] := by
          rw [filter_eq_nil_iff]
          intro z hz
          simpa using hq1 z hz
        have hlen : q2.length < n := by
          rw [length_append, length_cons] at hn
          omega
        dsimp only
        rw [ih hspl' hlen, hsort, filter_append, hnil, nil_append,
          filter_cons_of_pos (by simpa using hsort)]

theorem getFirstNodeByPath_eq {limit : Nat} (hlimit : tb.preorder.length < limit)
    {path : SchemaPath} (hlen : (st.schemaNode tb.value).length ≤ sort.length)
    (hx : (tb.preorder.find? fun y => st.schemaNode y = sort) = some x) :
    getFirstNodeByPath st limit tb.value path x =
      .ok (tb.preorder.find? fun y => st.schemaNode y = sort ++ path) := by
  induction path generalizing sort x with
  | nil => rw [getFirstNodeByPath, append_nil, hx]
  | cons i path ih =>
    obtain ⟨hsort, p, q, hspl, hp⟩ := find?_eq_some_iff_append.1 hx
    have hsort : st.schemaNode x = sort := by simpa using hsort
    have hfilter : (tb.preorder.filter fun y => st.schemaNode y = sort) =
        x :: q.filter fun y => st.schemaNode y = st.schemaNode x := by
      have hnil : (p.filter fun y => st.schemaNode y = sort) = [] := by
        rw [filter_eq_nil_iff]
        intro z hz
        simpa using hp z hz
      rw [hspl, filter_append, hnil, nil_append,
        filter_cons_of_pos (by simpa using hsort), hsort]
    have hrounds : q.length < limit := by
      rw [hspl, length_append, length_cons] at hlimit
      omega
    have hlonger : (st.schemaNode tb.value).length ≤ (sort ++ [i]).length := by
      rw [length_append]
      omega
    have hroot : st.schemaNode tb.value ≠ sort ++ [i] := fun heq => by simp [heq] at hlen
    have hfst := find_sort_eq h (node_mem_subtrees hl) hroot
    have happend : sort ++ i :: path = sort ++ [i] ++ path := by rw [append_assoc, singleton_append]
    rw [getFirstNodeByPath, childOfBrothers_eq h hl hspl i hrounds, ← hfilter, ← hfst, happend]
    cases hfind : tb.preorder.find? fun y => st.schemaNode y = sort ++ [i] with
    | none => rw [find_sort_append_eq_none h (node_mem_subtrees hl) hlonger hfind]
    | some y => exact ih hlonger hfind

end

open Library.ClassMerge

variable {path : SchemaPath} {scn : Tree ScRef}

/-! ## The paths of a test -/

section

variable {test : SchemaTest}

theorem mem_getDescendantsFrom {childIndex : Nat} {children : List (Tree ScRef)} :
    path ∈ getDescendantsFrom test childIndex children ↔
      ∃ i child rest, children[i]? = some child ∧ path = (childIndex + i) :: rest ∧
        (rest = [] ∧ test.test child.value = true ∨
          child.value.type ∈ ({.element, .document} : TypeMask) ∧
            rest ∈ getDescendants test child) := by
  induction children generalizing childIndex with
  | nil => simp [getDescendantsFrom]
  | cons c children ih =>
    rw [getDescendantsFrom, mem_append, mem_append, ih]
    constructor
    · rintro ((hself | hbel) | ⟨i, child, rest, hget, hpath, hrest⟩)
      · split at hself
        next htest =>
          exact ⟨0, c, [], rfl, by simpa using hself, .inl ⟨rfl, htest⟩⟩
        · exact absurd hself not_mem_nil
      · split at hbel
        next htype =>
          obtain ⟨rest, hrest, rfl⟩ := mem_map.1 hbel
          exact ⟨0, c, rest, rfl, rfl, .inr ⟨htype, hrest⟩⟩
        · exact absurd hbel not_mem_nil
      · refine ⟨i + 1, child, rest, by simpa using hget, ?_, hrest⟩
        rw [hpath]
        congr 1
        omega
    · rintro ⟨i, child, rest, hget, hpath, hrest⟩
      cases i with
      | zero =>
        left
        rw [getElem?_cons_zero, Option.some.injEq] at hget
        subst hget
        rcases hrest with ⟨rfl, htest⟩ | ⟨htype, hrest⟩
        · left
          rw [if_pos htest, hpath]
          exact mem_singleton_self _
        · right
          rw [if_pos htype, hpath]
          exact mem_map_of_mem hrest
      | succ i =>
        right
        refine ⟨i, child, rest, by simpa using hget, ?_, hrest⟩
        rw [hpath]
        congr 1
        omega

theorem mem_getDescendants :
    path ∈ getDescendants test scn ↔
      ∃ i child rest, scn.children[i]? = some child ∧ path = i :: rest ∧
        (rest = [] ∧ test.test child.value = true ∨
          child.value.type ∈ ({.element, .document} : TypeMask) ∧
            rest ∈ getDescendants test child) := by
  obtain ⟨value, children⟩ := scn
  rw [getDescendants, mem_getDescendantsFrom]
  simp

theorem nodup_getDescendants (scn : Tree ScRef) : (getDescendants test scn).Nodup := by
  induction scn using induction with
  | step value children ih =>
    rw [getDescendants]
    generalize 0 = childIndex
    induction children generalizing childIndex with
    | nil => exact nodup_nil
    | cons c children ihc =>
      have hc := ih c mem_cons_self
      have hrest := ihc (fun d hd => ih d (mem_cons_of_mem c hd)) (childIndex + 1)
      rw [getDescendantsFrom, nodup_append, nodup_append]
      have hself : (if test.test c.value then [[childIndex]] else []).Nodup := by split <;> simp
      have hbel : (if c.value.type ∈ ({.element, .document} : TypeMask) then
          (getDescendants test c).map (childIndex :: ·) else []).Nodup := by
        split
        · exact hc.map (cons_injective)
        · exact nodup_nil
      -- a path of this child starts with its number, and its own path has no second step
      have hsta : ∀ path ∈ (if test.test c.value then [[childIndex]] else []) ++
          (if c.value.type ∈ ({.element, .document} : TypeMask) then
            (getDescendants test c).map (childIndex :: ·) else []),
          path.head? = some childIndex := by
        intro path hpath
        rcases mem_append.1 hpath with hpath | hpath
        · split at hpath <;> simp_all
        · split at hpath
          · obtain ⟨rest, -, rfl⟩ := mem_map.1 hpath
            rfl
          · exact absurd hpath not_mem_nil
      refine ⟨⟨hself, hbel, ?_⟩, hrest, ?_⟩
      · intro path hpath path' hpath' heq
        subst heq
        split at hpath
        · split at hpath'
          · obtain ⟨rest, hmem, rfl⟩ := mem_map.1 hpath'
            obtain ⟨i, child, rest', -, rfl, -⟩ := mem_getDescendants.1 hmem
            simp at hpath
          · exact absurd hpath' not_mem_nil
        · exact absurd hpath not_mem_nil
      · intro path hpath path' hpath' heq
        subst heq
        have hhd := hsta path hpath
        obtain ⟨i, child, rest, -, rfl, -⟩ := mem_getDescendantsFrom.1 hpath'
        rw [head?_cons, Option.some.injEq] at hhd
        omega

end

variable {α : Type*} [DecidableEq α] {st : NodeStore α} {doc : Tree α} {step : PPAxisStep}
  {limit : Nat} {hint : AxisHints α}

theorem schemaAt_append_path (schema : Tree ScRef) (path path' : SchemaPath) :
    schemaAt schema (path ++ path') =
      (schemaAt schema path).bind fun scn => schemaAt scn path' := by
  induction path generalizing schema with
  | nil => rfl
  | cons i path ih =>
    simp only [cons_append, schemaAt]
    cases schema.children[i]? with
    | none => rfl
    | some child => exact ih child

theorem exists_schemaAt_of_mem {test : SchemaTest} (hpath : path ∈ getDescendants test scn) :
    path ≠ [] ∧ ∃ scn', schemaAt scn path = some scn' ∧ test.test scn'.value = true := by
  induction path generalizing scn with
  | nil =>
    obtain ⟨i, child, rest, -, hnil, -⟩ := mem_getDescendants.1 hpath
    cases hnil
  | cons i path ih =>
    refine ⟨cons_ne_nil i path, ?_⟩
    obtain ⟨j, child, rest, hget, hcons, hrest⟩ := mem_getDescendants.1 hpath
    obtain ⟨rfl, rfl⟩ := cons.inj hcons
    rw [schemaAt, hget]
    rcases hrest with ⟨rfl, htest⟩ | ⟨-, hrest⟩
    · exact ⟨child, rfl, htest⟩
    · exact (ih hrest).2

theorem mem_getDescendants_iff (h : Stored st doc) {test : SchemaTest} {t : Tree α}
    (ht : t ∈ doc.subtrees) (hscn : st.getSchemaNode t.value = some scn) {y : α}
    (hy : y ∈ t.children.flatMap Tree.preorder)
    (hpath : st.schemaNode y = st.schemaNode t.value ++ path) :
    path ∈ getDescendants test scn ↔ testSchemaOf st test y = true := by
  have hat : st.getSchemaNode y = schemaAt scn path := by
    rw [NodeStore.getSchemaNode] at hscn ⊢
    rw [hpath, schemaAt_append_path, hscn, Option.bind_some]
  constructor
  · intro hmem
    obtain ⟨-, scn', hscn', htest⟩ := exists_schemaAt_of_mem hmem
    rw [testSchemaOf, hat, hscn']
    exact htest
  · intro htest
    induction t using induction generalizing scn path with
    | step a ts ih =>
      obtain ⟨c, hc, hyc⟩ := mem_flatMap.1 hy
      have hcsub := child_mem_subtrees ht hc
      obtain ⟨i, rest, hi, hrest⟩ := exists_sort_of_child h ht hc hyc
      have hcons : path = i :: rest := append_cancel_left (hpath.symm.trans hrest)
      subst hcons
      obtain ⟨scnc, hscnc, htypec⟩ := h.sortType c.value
        (mem_preorder_of_mem_subtrees c.value_mem_preorder hcsub)
      have hget : scn.children[i]? = some scnc := by
        rw [NodeStore.getSchemaNode] at hscn hscnc
        rw [hi, schemaAt_append, hscn] at hscnc
        exact hscnc
      refine mem_getDescendants.2 ⟨i, scnc, rest, hget, rfl, ?_⟩
      rw [preorder_eq, mem_cons] at hyc
      rcases hyc with rfl | hbel
      · left
        have hnil : rest = [] := by
          rw [hrest] at hi
          exact (cons.inj (append_cancel_left hi)).2
        rw [testSchemaOf, hscnc] at htest
        exact ⟨hnil, htest⟩
      · right
        have hrest' : st.schemaNode y = st.schemaNode c.value ++ rest := by
          rw [hrest, hi, append_assoc, singleton_append]
        have hat' : st.getSchemaNode y = schemaAt scnc rest := by
          rw [NodeStore.getSchemaNode] at hscnc ⊢
          rw [hrest', schemaAt_append_path, hscnc, Option.bind_some]
        refine ⟨?_, ih c hc hcsub hscnc hbel hrest' hat'⟩
        have hne : c.children ≠ [] := by
          intro hnil
          rw [hnil] at hbel
          exact absurd hbel not_mem_nil
        rw [htypec]
        rcases h.inner c hcsub hne with htype | htype
        · rw [htype]
          decide
        · rw [htype]
          decide

def selected (st : NodeStore α) (nt : NodeTest) (base y : α) : Bool :=
  if y = base then
    decide (nt.axis = .descendantOrSelf) &&
      match createSchemaTest { nt with axis := .self } with
      | none => false
      | some selfTest => testSchemaOf st selfTest y
  else
    match createSchemaTest nt with
    | none => false
    | some test => testSchemaOf st test y

theorem selfPaths_cases (scn : Tree ScRef) (nt : NodeTest) :
    selfPaths scn nt = [] ∨ selfPaths scn nt = [[]] := by
  rw [selfPaths]
  split
  · split
    · exact .inl rfl
    · split
      · exact .inr rfl
      · exact .inl rfl
  · exact .inl rfl

theorem nodup_executeNodeTestPath (scn : Tree ScRef) (nt : NodeTest) :
    (executeNodeTestPath scn nt).Nodup := by
  rw [executeNodeTestPath]
  split
  · rcases selfPaths_cases scn nt with hself | hself <;> simp [hself]
  next test _ =>
    have hnot : [] ∉ getDescendants test scn := fun hmem => (exists_schemaAt_of_mem hmem).1 rfl
    rcases selfPaths_cases scn nt with hself | hself
    · rw [hself]
      exact nodup_getDescendants scn
    · rw [hself]
      exact nodup_cons.2 ⟨hnot, nodup_getDescendants scn⟩

theorem mem_executeNodeTestPath_iff (h : Stored st doc) {tb : Tree α} (htb : tb ∈ doc.subtrees)
    (hscn : st.getSchemaNode tb.value = some scn) {nt : NodeTest} {y : α} (hy : y ∈ tb.preorder)
    (hpath : st.schemaNode y = st.schemaNode tb.value ++ path) :
    path ∈ executeNodeTestPath scn nt ↔ selected st nt tb.value y = true := by
  have hnd : tb.preorder.Nodup := h.nodup.sublist (preorder_sublist htb)
  rw [preorder_eq, mem_cons] at hy
  have hnotnil : ∀ test, ([] : SchemaPath) ∉ getDescendants test scn :=
    fun test hmem => (exists_schemaAt_of_mem hmem).1 rfl
  rw [executeNodeTestPath, selected]
  rcases hy with rfl | hbel
  · have hnil : path = [] := by
      rw [self_eq_append_right] at hpath
      exact hpath
    subst hnil
    rw [if_pos rfl]
    have hself : ([] ∈ selfPaths scn nt) ↔ (decide (nt.axis = .descendantOrSelf) &&
        match createSchemaTest { nt with axis := .self } with
        | none => false
        | some selfTest => testSchemaOf st selfTest tb.value) = true := by
      rw [selfPaths]
      by_cases haxis : nt.axis = .descendantOrSelf
      · cases createSchemaTest { nt with axis := .self } with
        | none => simp
        | some selfTest =>
          by_cases htest : selfTest.test scn.value <;> simp [haxis, testSchemaOf, hscn]
      · simp [haxis]
    rw [← hself]
    cases createSchemaTest nt with
    | none => rfl
    | some test => rw [mem_append, or_iff_left (hnotnil test)]
  · have hne : y ≠ tb.value := by
      rintro rfl
      exact value_not_mem_children hnd hbel
    have hpathne : path ≠ [] := by
      obtain ⟨c, hc, hyc⟩ := mem_flatMap.1 hbel
      obtain ⟨i, rest, -, hrest⟩ := exists_sort_of_child h htb hc hyc
      have hcons : path = i :: rest := append_cancel_left (hpath.symm.trans hrest)
      rw [hcons]
      exact cons_ne_nil i rest
    have hself : path ∉ selfPaths scn nt := by
      rcases selfPaths_cases scn nt with hself | hself <;> simp [hself, hpathne]
    rw [if_neg hne]
    cases createSchemaTest nt with
    | none => simpa using hself
    | some test =>
      rw [mem_append, or_iff_right hself, mem_getDescendants_iff h htb hscn hbel hpath]

/-! ## The heap -/

omit [DecidableEq α] in
theorem nodeHeapPush_eq (node : Option α) (hint : AxisHints α) :
    nodeHeapPush node hint =
      { hint with nodeHeapStorage := node.toList ++ hint.nodeHeapStorage } := by
  cases node <;> rfl

theorem heapFront_mem {heap : List α} {m : α} (hm : heapFront st heap = some m) : m ∈ heap := by
  induction heap generalizing m with
  | nil => cases hm
  | cons x heap ih =>
    rw [heapFront] at hm
    cases hfront : heapFront st heap with
    | none =>
      simp only [hfront, Option.some.injEq] at hm
      rw [hm]
      exact mem_cons_self
    | some y =>
      simp only [hfront] at hm
      split at hm
      · exact mem_cons_of_mem x (Option.some.inj hm ▸ ih hfront)
      · exact Option.some.inj hm ▸ mem_cons_self

theorem heapFront_eq (h : Stored st doc) {heap : List α} {v : α} (hv : v ∈ heap)
    (hmem : ∀ y ∈ heap, y ∈ doc.preorder)
    (hfst : ∀ y ∈ heap, y = v ∨ Tree.DocBefore doc v y) : heapFront st heap = some v := by
  induction heap with
  | nil => exact absurd hv not_mem_nil
  | cons x heap ih =>
    have hmem' : ∀ y ∈ heap, y ∈ doc.preorder := fun y hy => hmem y (mem_cons_of_mem x hy)
    have hfst' : ∀ y ∈ heap, y = v ∨ Tree.DocBefore doc v y :=
      fun y hy => hfst y (mem_cons_of_mem x hy)
    rw [heapFront]
    by_cases hin : v ∈ heap
    · rw [ih hin hmem' hfst']
      dsimp only
      rcases hfst x mem_cons_self with rfl | hbef
      · rw [NodeStore.nidCmp, Nid.NumbScheme.nidCmp, if_pos rfl, if_neg (by decide)]
      · rw [if_pos ((h.nidCmp_neg_iff (hmem v hv) (hmem x mem_cons_self)).2 hbef)]
    · have hx : v = x := by simpa [hin] using hv
      subst hx
      cases hfront : heapFront st heap with
      | none => rfl
      | some m =>
        have hm := heapFront_mem hfront
        dsimp only
        rw [if_neg]
        intro hlt
        have hbef := (h.nidCmp_neg_iff (hmem' m hm) (hmem v mem_cons_self)).1 hlt
        rcases hfst' m hm with rfl | hafter
        · exact hin hm
        · exact docBefore_asymm h.nodup hbef hafter

section

variable (h : Stored st doc) {tb : Tree α} {outer : List (Crumb α)}
  (hl : Loc.rebuild ⟨tb, outer⟩ = doc) {ks : List SchemaPath} (hks : ks.Nodup)
include h hl hks

theorem nodeHeapPop_spec {p q : List α} (hspl : tb.preorder = p ++ q)
    (hheap : hint.nodeHeapStorage.Perm (heads st.schemaNode ks q)) :
    ((∀ y ∈ q, st.schemaNode y ∉ ks) ∧
      nodeHeapPop st hint = (none, { hint with nodeHeapStorage := [] })) ∨
    ∃ q1 v q2 heap', q = q1 ++ v :: q2 ∧ (∀ y ∈ q1, st.schemaNode y ∉ ks) ∧
      st.schemaNode v ∈ ks ∧
      nodeHeapPop st hint = (some v, { hint with nodeHeapStorage := heap' }) ∧
      ((q2.find? fun y => st.schemaNode y = st.schemaNode v).toList ++ heap').Perm
        (heads st.schemaNode ks q2) := by
  have hdoc : ∀ y ∈ q, y ∈ doc.preorder := by
    intro y hy
    refine mem_preorder_of_mem_subtrees ?_ (node_mem_subtrees hl)
    rw [hspl]
    exact mem_append_right p hy
  cases hfind : q.find? fun y => st.schemaNode y ∈ ks with
  | none =>
    left
    have hnone : ∀ y ∈ q, st.schemaNode y ∉ ks := by
      intro y hy
      simpa using find?_eq_none.1 hfind y hy
    refine ⟨hnone, ?_⟩
    have hnil : hint.nodeHeapStorage = [] := by
      rw [heads_eq_nil hnone] at hheap
      exact hheap.eq_nil
    rw [nodeHeapPop, hnil, heapFront, ← hnil]
  | some v =>
    right
    obtain ⟨hv, q1, q2, rfl, hq1⟩ := find?_eq_some_iff_append.1 hfind
    have hv : st.schemaNode v ∈ ks := by simpa using hv
    have hq1 : ∀ y ∈ q1, st.schemaNode y ∉ ks := by simpa using hq1
    obtain ⟨others, hall, hnext⟩ := @heads_step α _ _ st.schemaNode ks hks q1 q2 v hq1 hv
    have hperm := hheap.trans hall
    have hfront : heapFront st hint.nodeHeapStorage = some v := by
      refine heapFront_eq h (hperm.mem_iff.2 mem_cons_self) ?_ ?_
      · intro y hy
        exact hdoc y (mem_of_mem_heads (hheap.mem_iff.1 hy)).1
      · intro y hy
        obtain ⟨hyq, hyk⟩ := mem_of_mem_heads (hheap.mem_iff.1 hy)
        rcases mem_append.1 hyq with hleft | hright
        · exact absurd hyk (hq1 y hleft)
        · rcases mem_cons.1 hright with heq | hafter
          · exact .inl heq
          · right
            refine List.Sublist.trans ?_ (preorder_sublist (node_mem_subtrees hl))
            rw [hspl]
            exact ((List.Sublist.cons_cons v (singleton_sublist.2 hafter)).trans
              (sublist_append_right q1 _)).trans (sublist_append_right p _)
    refine ⟨q1, v, q2, hint.nodeHeapStorage.erase v, rfl, hq1, hv, ?_, ?_⟩
    · rw [nodeHeapPop, hfront]
    · have herase := hperm.erase v
      rw [erase_cons_head] at herase
      exact (herase.append_left _).trans hnext.symm

theorem walk_merge (hstep : step.nextNodeProc = some .rightDescendantMerge) {p q : List α} {v : α}
    (hspl : tb.preorder = p ++ v :: q) (hhint : hint.baseNode = some tb.value)
    (hheap : ((q.find? fun y => st.schemaNode y = st.schemaNode v).toList ++
      hint.nodeHeapStorage).Perm (heads st.schemaNode ks q)) :
    Walk st step limit v hint (q.filter fun y => st.schemaNode y ∈ ks)
      { hint with nodeHeapStorage := [] } := by
  induction hm : q.length using Nat.strong_induction_on generalizing p q v hint with
  | _ m ih =>
    subst hm
    have hnext : nextNode st step limit v hint =
        .ok (nodeHeapPop st (nodeHeapPush (getRightBrother st v tb.value) hint)) := by
      rw [nextNode, hstep]
      rw [nextNodeRightDescendantMerge, hhint]
      rfl
    rw [nodeHeapPush_eq, getRightBrother_eq h hl hspl] at hnext
    have hspl' : tb.preorder = (p ++ [v]) ++ q := by
      rw [hspl]
      simp
    have hheap' : ({ hint with nodeHeapStorage :=
        (q.find? fun y => st.schemaNode y = st.schemaNode v).toList ++ hint.nodeHeapStorage } :
        AxisHints α).nodeHeapStorage.Perm (heads st.schemaNode ks q) := hheap
    rcases nodeHeapPop_spec h hl hks hspl' hheap' with
      ⟨hnone, hpop⟩ | ⟨q1, v', q2, heap', rfl, hq1, hv', hpop, hheap'⟩
    · have hnil : (q.filter fun y => st.schemaNode y ∈ ks) = [] := by
        simpa using hnone
      rw [hnil]
      exact .stop (by rw [hnext, hpop])
    · have hnil : (q1.filter fun y => st.schemaNode y ∈ ks) = [] := by
        simpa using hq1
      rw [filter_append, hnil, filter_cons_of_pos (by simpa using hv')]
      have hmove : nextNode st step limit v hint =
          .ok (some v', { hint with nodeHeapStorage := heap' }) := by
        rw [hnext, hpop]
      have hspl'' : tb.preorder = (p ++ v :: q1) ++ v' :: q2 := by
        rw [hspl]
        simp
      have hhint' : ({ hint with nodeHeapStorage := heap' } : AxisHints α).baseNode =
          some tb.value := hhint
      refine .move hmove rfl ?_
      exact ih q2.length (by simp; omega) hspl'' hhint' hheap' rfl

end

/-! ## Collecting the first nodes -/

def CacheSound (st : NodeStore α) (nt : NodeTest) (hint : AxisHints α) : Prop :=
  ∀ sort paths, hint.descendantPathIndex.lookup sort = some paths →
    ∀ scn, schemaAt st.schema sort = some scn → paths = executeNodeTestPath scn nt

omit [DecidableEq α] in
theorem descendantPaths_spec {node : α} {scn : Tree ScRef}
    (hscn : st.getSchemaNode node = some scn) {hint : AxisHints α}
    (hcache : CacheSound st step.nt hint) :
    ∃ index, descendantPaths st step node hint =
      (executeNodeTestPath scn step.nt, { hint with descendantPathIndex := index }) ∧
      CacheSound st step.nt { hint with descendantPathIndex := index } := by
  rw [descendantPaths]
  simp only [hscn]
  split
  · cases hlookup : hint.descendantPathIndex.lookup (st.schemaNode node) with
    | some paths =>
      refine ⟨hint.descendantPathIndex, ?_, hcache⟩
      rw [hcache _ _ hlookup scn hscn]
    | none =>
      refine ⟨_, rfl, ?_⟩
      intro sort paths hsort scn' hscn'
      rw [lookup_cons] at hsort
      by_cases heq : sort = st.schemaNode node
      · subst heq
        rw [beq_self_eq_true] at hsort
        rw [NodeStore.getSchemaNode, hscn', Option.some.injEq] at hscn
        rw [hscn]
        exact (Option.some.inj hsort).symm
      · rw [beq_false_of_ne heq] at hsort
        exact hcache sort paths hsort scn' hscn'
  · exact ⟨hint.descendantPathIndex, rfl, hcache⟩

theorem traverseSchemaPathList_eq (h : Stored st doc) {tb : Tree α} {outer : List (Crumb α)}
    (hl : Loc.rebuild ⟨tb, outer⟩ = doc) (hlimit : tb.preorder.length < limit)
    (paths : List SchemaPath) (hhint : hint.baseNode = some tb.value) :
    ∃ heap, traverseSchemaPathList st limit tb.value paths hint =
      .ok { hint with nodeHeapStorage := heap } ∧
      heap.Perm (heads st.schemaNode (paths.map (st.schemaNode tb.value ++ ·)) tb.preorder ++
        hint.nodeHeapStorage) := by
  induction paths generalizing hint with
  | nil => exact ⟨hint.nodeHeapStorage, rfl, List.Perm.refl _⟩
  | cons path paths ih =>
    have hbase : (tb.preorder.find? fun y => st.schemaNode y = st.schemaNode tb.value) =
        some tb.value := by
      rw [preorder_eq, find?_cons_of_pos (by simp)]
    have hfst : getFirstNodeByPath st limit (hint.baseNode.getD tb.value) path tb.value =
        .ok (tb.preorder.find? fun y => st.schemaNode y = st.schemaNode tb.value ++ path) := by
      rw [hhint, Option.getD_some]
      exact getFirstNodeByPath_eq h hl hlimit le_rfl hbase
    rw [traverseSchemaPathList, hfst]
    dsimp only
    rw [nodeHeapPush_eq]
    obtain ⟨heap, htraverse, hperm⟩ := @ih { hint with nodeHeapStorage := (tb.preorder.find?
      fun y => st.schemaNode y = st.schemaNode tb.value ++ path).toList ++ hint.nodeHeapStorage }
      hhint
    refine ⟨heap, htraverse, hperm.trans ?_⟩
    rw [map_cons, heads, heads, filterMap_cons]
    cases tb.preorder.find? fun y => st.schemaNode y = st.schemaNode tb.value ++ path with
    | none => exact List.Perm.refl _
    | some y => exact perm_middle

theorem visits_merge (h : Stored st doc) (heval : step.evaluateAxisProc = .resolveDescendant)
    (hstep : step.nextNodeProc = some .rightDescendantMerge) (hlimit : doc.preorder.length < limit)
    {tb : Tree α} {outer : List (Crumb α)} (hl : Loc.rebuild ⟨tb, outer⟩ = doc)
    (hclr : Cleared hint) (hcache : CacheSound st step.nt hint) :
    ∃ hint', Visits st step limit tb.value hint
      (tb.preorder.filter (selected st step.nt tb.value)) hint' ∧ Cleared hint' ∧
      CacheSound st step.nt hint' := by
  obtain ⟨scn, hscn, -⟩ := h.sortType tb.value (mem_preorder hl)
  have hcache' : CacheSound st step.nt { hint with baseNode := some tb.value } := hcache
  obtain ⟨index, hpaths, hindex⟩ := @descendantPaths_spec α st step _ _ hscn _ hcache'
  have hsub := (preorder_sublist (node_mem_subtrees hl)).length_le
  obtain ⟨heap, htraverse, hheap⟩ := @traverseSchemaPathList_eq α _ st doc limit
    { hint with baseNode := some tb.value, descendantPathIndex := index } h tb outer hl
    (by omega) (executeNodeTestPath scn step.nt) rfl
  rw [hclr.1, append_nil] at hheap
  have hks : ((executeNodeTestPath scn step.nt).map (st.schemaNode tb.value ++ ·)).Nodup :=
    (nodup_executeNodeTestPath scn step.nt).map (append_right_injective _)
  have hfilter : tb.preorder.filter (selected st step.nt tb.value) = tb.preorder.filter fun y =>
      st.schemaNode y ∈ (executeNodeTestPath scn step.nt).map (st.schemaNode tb.value ++ ·) := by
    apply filter_congr
    intro y hy
    obtain ⟨path, hpath⟩ := exists_sort_below h (node_mem_subtrees hl) hy
    have hiff : path ∈ executeNodeTestPath scn step.nt ↔ selected st step.nt tb.value y = true :=
      mem_executeNodeTestPath_iff h (node_mem_subtrees hl) hscn hy hpath
    rw [Bool.eq_iff_iff, ← hiff, decide_eq_true_iff, hpath,
      mem_map_of_injective (append_right_injective _)]
  have hevaluate : evaluateAxis st step limit tb.value { hint with baseNode := some tb.value } =
      .ok (nodeHeapPop st { hint with
        baseNode := some tb.value
        descendantPathIndex := index
        nodeHeapStorage := heap }) := by
    rw [evaluateAxis, heval]
    rw [resolveAxisDescendant, hpaths]
    dsimp only
    rw [htraverse]
  refine ⟨{ hint with
    baseNode := some tb.value
    descendantPathIndex := index
    nodeHeapStorage := [] }, ?_, ⟨rfl, hclr.2⟩, hindex⟩
  rw [hfilter]
  rcases @nodeHeapPop_spec α _ st doc { hint with
      baseNode := some tb.value
      descendantPathIndex := index
      nodeHeapStorage := heap } h tb outer hl _ hks [] tb.preorder rfl hheap with
    ⟨hnone, hpop⟩ | ⟨q1, v, q2, heap', hspl, hq1, hv, hpop, hheap'⟩
  · rw [filter_eq_nil_iff.2 (by simpa using hnone)]
    exact .nothing (by rw [hevaluate, hpop])
  · rw [hspl, filter_append, filter_eq_nil_iff.2 (by simpa using hq1),
      filter_cons_of_pos (by simpa using hv)]
    refine .start (by rw [hevaluate, hpop]) rfl ?_
    exact walk_merge h hl hks hstep hspl rfl hheap'

end Sedna.XPath.AxisStep
