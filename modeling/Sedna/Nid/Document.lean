import Sedna.Nid.Generators

/-!
# Labels along the life of a document

A document is a tree of labelled nodes, addressed by child indices from the
root.  It changes by insertions, where `createNID` is given the two siblings
the new node comes between, and by deletions of whole subtrees.
-/

namespace Sedna.Nid.Document

open Library.FirstDifference NumbScheme Generators List Option

inductive DocNode where
  | mk (nid : TNid) (children : List DocNode)

namespace DocNode

def nid : DocNode → TNid
  | mk nid _ => nid

def children : DocNode → List DocNode
  | mk _ children => children

def label (node : DocNode) : TPrefix := nidGetPrefix node.nid

end DocNode

def nodeAt (node : DocNode) : List Nat → Option DocNode
  | [] => some node
  | k :: path => node.children[k]?.bind fun child => nodeAt child path

def insertAt (index : Nat) : List Nat → DocNode → Except NidError DocNode
  | [], node => do
    let before := node.children.take index
    let after := node.children.drop index
    let nid ← createNID none (before.getLast?.map DocNode.nid) (after.head?.map DocNode.nid)
      node.nid
    return .mk node.nid (before ++ .mk nid [] :: after)
  | k :: path, node =>
    match node.children[k]? with
    | none => .ok node
    | some child => do
      let child ← insertAt index path child
      return .mk node.nid (node.children.set k child)

/-- The node at `path` is deleted with everything below it; the root stays. -/
def deleteAt : List Nat → DocNode → DocNode
  | [], node => node
  | [k], node => .mk node.nid (node.children.eraseIdx k)
  | k :: path, node =>
    match node.children[k]? with
    | none => node
    | some child => .mk node.nid (node.children.set k (deleteAt path child))

inductive Edit where
  | insert (path : List Nat) (index : Nat)
  | delete (path : List Nat)
  deriving DecidableEq

def applyEdit (doc : DocNode) : Edit → Except NidError DocNode
  | .insert path index => insertAt index path doc
  | .delete path => .ok (deleteAt path doc)

def run (edits : List Edit) (doc : DocNode) : Except NidError DocNode := edits.foldlM applyEdit doc

/-- The document node made by `nid_create_root` after `count` earlier roots. -/
def newDocument (count : Nat) (persistent : Bool) : DocNode :=
  .mk (nidCreateRoot (Nat.repeat updateEPNid count []) persistent).1 []

/-! ## Document order -/

def ProperAncestor (x y : List Nat) : Prop := ∃ k u, y = x ++ k :: u

/-- A node comes before its descendants and before what follows it. -/
def DocBefore (x y : List Nat) : Prop := ProperAncestor x y ∨ Below x y

variable {x y : List Nat} {node nx ny : DocNode} {lastNid : TPrefix}

theorem docBefore_total (hne : x ≠ y) : DocBefore x y ∨ DocBefore y x := by
  induction x generalizing y with
  | nil =>
    cases y with
    | nil => exact absurd rfl hne
    | cons k y => exact .inl (.inl ⟨k, y, rfl⟩)
  | cons i x ih =>
    cases y with
    | nil => exact .inr (.inl ⟨i, x, rfl⟩)
    | cons j y =>
      rcases lt_trichotomy i j with hij | rfl | hij
      · exact .inl (.inr (below_head x y hij))
      · have hcons : ∀ u v : List Nat, DocBefore u v → DocBefore (i :: u) (i :: v) := by
          rintro u v (⟨k, t, rfl⟩ | h)
          · exact .inl ⟨k, t, rfl⟩
          · exact .inr (h.append_left [i])
        have hxy : x ≠ y := fun h => hne (by rw [h])
        exact (ih hxy).imp (hcons x y) (hcons y x)
      · exact .inr (.inr (below_head y x hij))

/-! ## The invariant -/

/-- The label extends the parent's by a word that does not start with 255. -/
structure ChildLabel (parent child : TPrefix) : Prop where
  extends_parent : ∃ c s, child = parent ++ c :: s ∧ c < alphabetSize ∧ Proper (c :: s)

/-- Children have labels of children, and `R` holds between the labels of siblings. -/
inductive LabelledBy (R : TPrefix → TPrefix → Prop) : DocNode → Prop where
  | node {nid : TNid} {children : List DocNode}
      (hne : nidGetPrefix nid ≠ [])
      (hlet : ∀ a ∈ nidGetPrefix nid, a ≤ alphabetSize)
      (hch : ∀ c ∈ children, ChildLabel (nidGetPrefix nid) c.label)
      (hsib : children.Pairwise fun c d => R c.label d.label)
      (hsub : ∀ c ∈ children, LabelledBy R c) :
      LabelledBy R (.mk nid children)

abbrev WellLabelled : DocNode → Prop := LabelledBy (Precedes alphabetSize)

theorem LabelledBy.mem_child {R : TPrefix → TPrefix → Prop} {child : DocNode}
    (h : LabelledBy R node) (hc : child ∈ node.children) :
    ChildLabel node.label child.label ∧ LabelledBy R child := by
  cases h with
  | node _ _ hch _ hsub => exact ⟨hch child hc, hsub child hc⟩

theorem ChildLabel.proper {p c : TPrefix} (h : ChildLabel p c)
    (hp : ∀ a ∈ p, a ≤ alphabetSize) : Proper c := by
  obtain ⟨a, s, rfl, -, hs⟩ := h.extends_parent
  exact hs.append_left hp

/-! ## Generated labels -/

structure FitsBetween (parent : TPrefix) (left right : Option TNid) (label : TPrefix) : Prop where
  child : ChildLabel parent label
  after_left : ∀ l ∈ left, Precedes alphabetSize (nidGetPrefix l) label
  before_right : ∀ r ∈ right, Precedes alphabetSize label (nidGetPrefix r)

theorem nidAssign_cases (p : TPrefix) :
    nidAssign p = .error .se2023 ∨ ∃ nid, nidAssign p = .ok nid ∧ nidGetPrefix nid = p := by
  unfold nidAssign
  split
  · exact .inr ⟨.internal p, rfl, rfl⟩
  · split
    · exact .inl rfl
    · exact .inr ⟨.external p, rfl, rfl⟩

theorem between_fits {p l r : TPrefix} (hne : p ≠ []) (hp : ∀ a ∈ p, a ≤ alphabetSize)
    (hl : ChildLabel p l) (hr : ChildLabel p r) (hlr : Precedes alphabetSize l r) :
    ChildLabel p (betweenNID l r) ∧ Precedes alphabetSize l (betweenNID l r) ∧
      Precedes alphabetSize (betweenNID l r) r := by
  have hlproper := hl.proper hp
  have hrproper := hr.proper hp
  obtain ⟨a, u, rfl, _, -⟩ := hl.extends_parent
  obtain ⟨b, v, rfl, hb, -⟩ := hr.extends_parent
  obtain ⟨g, p, rfl⟩ := exists_cons_of_ne_nil hne
  obtain ⟨hleft, hright, hprop⟩ :=
    betweenNID_spec g (p ++ a :: u) (p ++ b :: v) hlproper hrproper hlr
  refine ⟨⟨?_⟩, hleft, hright⟩
  obtain ⟨c, s, heq, hc⟩ := between_extends (w := g :: p) hb hleft hright
  refine ⟨c, s, heq, hc, ?_⟩
  rw [heq] at hprop
  exact hprop.of_append (by simp)

theorem createNID_spec {parent : TNid} (hne : nidGetPrefix parent ≠ [])
    (hp : ∀ a ∈ nidGetPrefix parent, a ≤ alphabetSize) {left right : Option TNid}
    (hl : ∀ l ∈ left, ChildLabel (nidGetPrefix parent) (nidGetPrefix l))
    (hr : ∀ r ∈ right, ChildLabel (nidGetPrefix parent) (nidGetPrefix r))
    (hlr : ∀ l ∈ left, ∀ r ∈ right, Precedes alphabetSize (nidGetPrefix l) (nidGetPrefix r)) :
    createNID none left right parent = .error .se2023 ∨
    ∃ nid, createNID none left right parent = .ok nid ∧
      FitsBetween (nidGetPrefix parent) left right (nidGetPrefix nid) := by
  -- it is enough to know the letters handed to `nid_assign`
  have hassign : ∀ label, createNID none left right parent = nidAssign label →
      FitsBetween (nidGetPrefix parent) left right label →
      createNID none left right parent = .error .se2023 ∨
      ∃ nid, createNID none left right parent = .ok nid ∧
        FitsBetween (nidGetPrefix parent) left right (nidGetPrefix nid) := by
    intro label heq hfits
    rw [heq]
    rcases nidAssign_cases label with herr | ⟨nid, hok, rfl⟩
    · exact .inl herr
    · exact .inr ⟨nid, hok, hfits⟩
  cases left with
  | some left =>
    have hch := hl left rfl
    cases right with
    | some right =>
      obtain ⟨hbetween, hafter, hbef⟩ :=
        between_fits hne hp hch (hr right rfl) (hlr left rfl right rfl)
      refine hassign _ rfl ⟨hbetween, ?_, ?_⟩
      · rintro l ⟨⟩
        exact hafter
      · rintro r ⟨⟩
        exact hbef
    | none =>
      obtain ⟨c, s, heq, hc, hs⟩ := hch.extends_parent
      obtain ⟨c', s', hinc, hafter, hc', hs'⟩ :=
        incrementNID_spec (nidGetPrefix parent) s c hs hc
      refine hassign (nidGetPrefix parent ++ c' :: s') ?_ ⟨⟨c', s', rfl, hc', hs'⟩, ?_, ?_⟩
      · simp only [createNID, nidCreateRight, nidGetSize, heq, hinc]
        rfl
      · rintro l ⟨⟩
        rw [heq]
        exact hafter.append_left _
      · rintro r ⟨⟩
  | none =>
    cases right with
    | some right =>
      obtain ⟨c, s, heq, hc, hs⟩ := (hr right rfl).extends_parent
      obtain ⟨s', hdec, hbel, hs'⟩ := decrementNID_spec (nidGetPrefix parent) (c :: s) hs
      obtain ⟨c', t, rfl⟩ := exists_cons_of_ne_nil hs'.ne_nil
      have hc' : c' < alphabetSize := by
        rcases below_cons_cons.1 hbel with hlt | ⟨rfl, -⟩
        · exact hlt.trans hc
        · exact hc
      refine hassign (nidGetPrefix parent ++ c' :: t) ?_ ⟨⟨c', t, rfl, hc', hs'⟩, ?_, ?_⟩
      · simp [createNID, nidCreateLeft, nidGetSize, heq, hdec]
      · rintro l ⟨⟩
      · rintro r ⟨⟩
        rw [heq]
        exact .inl (hbel.append_left _)
    | none =>
      refine hassign (nidGetPrefix parent ++ [1]) rfl ⟨⟨1, [], rfl, by decide, ?_⟩, ?_, ?_⟩
      · exact proper_append (t := []) (by simp) le_rfl (by decide)
      · rintro l ⟨⟩
      · rintro r ⟨⟩

/-! ## Edits keep the invariant -/

theorem pairwise_insert {label : TPrefix} {before after : List TPrefix}
    (hlab : ∀ c ∈ before ++ after, ∀ a ∈ c, a ≤ alphabetSize)
    (hlet : ∀ a ∈ label, a ≤ alphabetSize)
    (hsort : (before ++ after).Pairwise (Precedes alphabetSize))
    (hleft : ∀ l ∈ before.getLast?, Precedes alphabetSize l label)
    (hright : ∀ r ∈ after.head?, Precedes alphabetSize label r) :
    (before ++ label :: after).Pairwise (Precedes alphabetSize) := by
  obtain ⟨hbef, hafter, hcross⟩ := pairwise_append.1 hsort
  have hlow : ∀ b ∈ before, Precedes alphabetSize b label := by
    rcases eq_nil_or_concat before with rfl | ⟨init, l, rfl⟩
    · simp
    · have hl : Precedes alphabetSize l label := hleft l (by simp)
      rw [concat_eq_append] at hbef ⊢
      refine forall_mem_append.2 ⟨fun b hb => ?_, forall_mem_singleton.2 hl⟩
      exact ((pairwise_append.1 hbef).2.2 b hb l (by simp)).trans hlet hl
  have hhigh : ∀ a ∈ after, Precedes alphabetSize label a := by
    cases after with
    | nil => simp
    | cons r rest =>
      have hr : Precedes alphabetSize label r := hright r rfl
      refine forall_mem_cons.2 ⟨hr, fun a ha => ?_⟩
      exact hr.trans (hlab a (by simp [ha])) ((pairwise_cons.1 hafter).1 a ha)
  refine pairwise_append.2 ⟨hbef, pairwise_cons.2 ⟨hhigh, hafter⟩, ?_⟩
  intro b hb
  exact forall_mem_cons.2 ⟨hlow b hb, hcross b hb⟩

theorem WellLabelled.insert_child {nid new : TNid} {before after : List DocNode}
    (h : WellLabelled (.mk nid (before ++ after)))
    (hfits : FitsBetween (nidGetPrefix nid) (before.getLast?.map DocNode.nid)
      (after.head?.map DocNode.nid) (nidGetPrefix new)) :
    WellLabelled (.mk nid (before ++ .mk new [] :: after)) := by
  cases h with
  | node hne hlet hch hsib hsub =>
    have hnew : Proper (nidGetPrefix new) := hfits.child.proper hlet
    have hmem : ∀ c ∈ before ++ DocNode.mk new [] :: after,
        c = .mk new [] ∨ c ∈ before ++ after := by
      intro c hc
      simp only [mem_append, mem_cons] at hc ⊢
      tauto
    refine .node hne hlet ?_ ?_ ?_
    · intro c hc
      rcases hmem c hc with rfl | hc
      · exact hfits.child
      · exact hch c hc
    · have hsort : ((before.map DocNode.label) ++ (after.map DocNode.label)).Pairwise
          (Precedes alphabetSize) := by
        rw [← map_append]
        exact pairwise_map.2 hsib
      have hlab : ∀ c ∈ before.map DocNode.label ++ after.map DocNode.label,
          ∀ a ∈ c, a ≤ alphabetSize := by
        intro c hc
        rw [← map_append] at hc
        obtain ⟨d, hd, rfl⟩ := mem_map.1 hc
        exact ((hch d hd).proper hlet).letters
      refine pairwise_map.1 ?_
      rw [map_append]
      refine pairwise_insert hlab hnew.letters hsort ?_ ?_
      · intro l hl
        rw [getLast?_map, Option.mem_map] at hl
        obtain ⟨d, hd, rfl⟩ := hl
        exact hfits.after_left d.nid (mem_map_of_mem _ hd)
      · intro r hr
        rw [head?_map, Option.mem_map] at hr
        obtain ⟨d, hd, rfl⟩ := hr
        exact hfits.before_right d.nid (mem_map_of_mem _ hd)
    · intro c hc
      rcases hmem c hc with rfl | hc
      · exact .node hnew.ne_nil hnew.letters (by simp) List.Pairwise.nil (by simp)
      · exact hsub c hc

theorem LabelledBy.set_child {R : TPrefix → TPrefix → Prop} {nid : TNid}
    {children : List DocNode} {child child' : DocNode} {k : Nat}
    (h : LabelledBy R (.mk nid children)) (hk : children[k]? = some child)
    (hch' : LabelledBy R child') (hnid : child'.nid = child.nid) :
    LabelledBy R (.mk nid (children.set k child')) := by
  cases h with
  | node hne hlet hch hsib hsub =>
    have hlabel : child'.label = child.label := by rw [DocNode.label, hnid, DocNode.label]
    have hmem : child ∈ children := mem_of_getElem? hk
    refine .node hne hlet ?_ ?_ ?_
    · intro c hc
      rcases mem_or_eq_of_mem_set hc with hc | rfl
      · exact hch c hc
      · rw [hlabel]
        exact hch child hmem
    · have hsame : (children.set k child').map DocNode.label = children.map DocNode.label := by
        rw [map_set, hlabel]
        apply ext_getElem?
        intro i
        rw [getElem?_set]
        split
        next hik =>
          subst hik
          obtain ⟨hlt, -⟩ := List.getElem?_eq_some_iff.1 hk
          rw [if_pos (by simpa using hlt), getElem?_map, hk]
          rfl
        · rfl
      refine pairwise_map.1 ?_
      rw [hsame]
      exact pairwise_map.2 hsib
    · intro c hc
      rcases mem_or_eq_of_mem_set hc with hc | rfl
      · exact hsub c hc
      · exact hch'

theorem insertAt_spec (index : Nat) (path : List Nat) (h : WellLabelled node) :
    insertAt index path node = .error .se2023 ∨
    ∃ node', insertAt index path node = .ok node' ∧ node'.nid = node.nid ∧ WellLabelled node' := by
  induction path generalizing node with
  | nil =>
    obtain ⟨nid, children⟩ := node
    have hspl := h
    rw [← take_append_drop index children] at hspl
    cases hspl with
    | node hne hlet hch hsib hsub =>
      have hl : ∀ l ∈ (children.take index).getLast?.map DocNode.nid,
          ChildLabel (nidGetPrefix nid) (nidGetPrefix l) := by
        intro l hl
        obtain ⟨d, hd, rfl⟩ := mem_map.1 hl
        exact hch d (mem_append_left _ (mem_of_getLast? hd))
      have hr : ∀ r ∈ (children.drop index).head?.map DocNode.nid,
          ChildLabel (nidGetPrefix nid) (nidGetPrefix r) := by
        intro r hr
        obtain ⟨d, hd, rfl⟩ := mem_map.1 hr
        exact hch d (mem_append_right _ (mem_of_head? hd))
      have hlr : ∀ l ∈ (children.take index).getLast?.map DocNode.nid,
          ∀ r ∈ (children.drop index).head?.map DocNode.nid,
          Precedes alphabetSize (nidGetPrefix l) (nidGetPrefix r) := by
        intro l hl r hr
        obtain ⟨d, hd, rfl⟩ := mem_map.1 hl
        obtain ⟨e, he, rfl⟩ := Option.mem_map.1 hr
        exact (pairwise_append.1 hsib).2.2 d (mem_of_getLast? hd) e (mem_of_head? he)
      rcases createNID_spec hne hlet hl hr hlr with herr | ⟨new, hok, hfits⟩
      · refine .inl ?_
        simp only [insertAt, DocNode.children, DocNode.nid, herr]
        rfl
      · refine .inr ⟨.mk nid (children.take index ++ .mk new [] :: children.drop index),
          ?_, rfl, ?_⟩
        · simp only [insertAt, DocNode.children, DocNode.nid, hok]
          rfl
        · rw [← take_append_drop index children] at h
          exact h.insert_child hfits
  | cons k path ih =>
    obtain ⟨nid, children⟩ := node
    rw [insertAt]
    split
    · exact .inr ⟨_, rfl, rfl, h⟩
    next child hk =>
      have hch := (h.mem_child (mem_of_getElem? hk)).2
      rcases ih hch with herr | ⟨child', hok, hnid, hch'⟩
      · exact .inl (by rw [herr]; rfl)
      · refine .inr ⟨.mk nid (children.set k child'), by rw [hok]; rfl, rfl, ?_⟩
        exact h.set_child hk hch' hnid

theorem deleteAt_nid (path : List Nat) (node : DocNode) : (deleteAt path node).nid = node.nid := by
  unfold deleteAt
  split
  · rfl
  · rfl
  · split <;> rfl

theorem deleteAt_wellLabelled (path : List Nat) (h : WellLabelled node) :
    WellLabelled (deleteAt path node) := by
  fun_induction deleteAt path node with
  | case1 node => exact h
  | case2 node k =>
    cases h with
    | node hne hlet hch hsib hsub =>
      refine .node hne hlet ?_ (hsib.sublist (eraseIdx_sublist _ _)) ?_
      · exact fun c hc => hch c (mem_of_mem_eraseIdx hc)
      · exact fun c hc => hsub c (mem_of_mem_eraseIdx hc)
  | case3 => exact h
  | case4 k path node _ child hk ih =>
    obtain ⟨nid, children⟩ := node
    have hch := (h.mem_child (mem_of_getElem? hk)).2
    exact h.set_child hk (ih hch) (deleteAt_nid path child)

theorem applyEdit_spec (edit : Edit) {doc : DocNode} (h : WellLabelled doc) :
    applyEdit doc edit = .error .se2023 ∨
    ∃ doc', applyEdit doc edit = .ok doc' ∧ doc'.nid = doc.nid ∧ WellLabelled doc' := by
  cases edit with
  | insert path index => exact insertAt_spec index path h
  | delete path => exact .inr ⟨_, rfl, deleteAt_nid path doc, deleteAt_wellLabelled path h⟩

theorem run_spec (edits : List Edit) {doc : DocNode} (h : WellLabelled doc) :
    run edits doc = .error .se2023 ∨
    ∃ doc', run edits doc = .ok doc' ∧ doc'.nid = doc.nid ∧ WellLabelled doc' := by
  induction edits generalizing doc with
  | nil => exact .inr ⟨doc, rfl, rfl, h⟩
  | cons edit edits ih =>
    rw [run, foldlM_cons]
    rcases applyEdit_spec edit h with herr | ⟨doc', hok, hnid, hdoc'⟩
    · exact .inl (by rw [herr]; rfl)
    · rw [hok]
      have hrest := ih hdoc'
      rw [hnid] at hrest
      exact hrest

/-! ## Root labels -/

section

variable (h : ∀ a ∈ lastNid, a ≤ alphabetSize)
include h

theorem resetFrom_letters (pos : Nat) : ∀ a ∈ resetFrom lastNid pos, a ≤ alphabetSize := by
  intro a ha
  obtain ⟨i, hi, rfl⟩ := mem_mapIdx.1 ha
  split
  · decide
  · exact h _ (getElem_mem hi)

theorem set_inc_letters (pos : Nat) :
    ∀ a ∈ lastNid.set pos (inc (lastNid.getD pos 0)), a ≤ alphabetSize := by
  intro a ha
  rcases mem_or_eq_of_mem_set ha with ha | rfl
  · exact h a ha
  · simp only [inc, alphabetSize]
    omega

theorem rootScan_spec {result : TPrefix} {pos : Nat} (hres : rootScan lastNid pos = some result)
    : (∀ a ∈ result, a ≤ alphabetSize) ∧ result.length = lastNid.length := by
  fun_induction rootScan lastNid pos with
  | case1 => cases hres
  | case2 => cases hres
  | case3 pos _ =>
    cases hres
    exact ⟨resetFrom_letters (set_inc_letters h pos) _, by simp [resetFrom]⟩
  | case4 pos _ ih => exact ih hres

theorem updateEPNid_spec :
    (∀ a ∈ updateEPNid lastNid, a ≤ alphabetSize) ∧ updateEPNid lastNid ≠ [] := by
  unfold updateEPNid
  dsimp only
  split
  next hfull =>
    refine ⟨h, ?_⟩
    rintro rfl
    cases hfull
  split
  · exact ⟨by decide, by decide⟩
  next hpos =>
  split
  · refine ⟨set_inc_letters h _, ?_⟩
    intro hnil
    apply hpos
    simpa using congrArg length hnil
  split
  next result hscan =>
    obtain ⟨hlet, hlen⟩ := rootScan_spec h hscan
    refine ⟨hlet, ?_⟩
    rintro rfl
    exact hpos hlen.symm
  · refine ⟨?_, by simp⟩
    intro a ha
    obtain ⟨i, -, rfl⟩ := mem_map.1 ha
    split
    · decide
    · exact le_rfl

end

theorem repeat_updateEPNid_letters (count : Nat) :
    ∀ a ∈ Nat.repeat updateEPNid count [], a ≤ alphabetSize := by
  induction count with
  | zero => simp [Nat.repeat]
  | succ count ih => exact (updateEPNid_spec ih).1

theorem newDocument_wellLabelled (count : Nat) (persistent : Bool) :
    WellLabelled (newDocument count persistent) := by
  have hroot := updateEPNid_spec (repeat_updateEPNid_letters count)
  have hleaf : ∀ nid : TNid, (∀ a ∈ nidGetPrefix nid, a ≤ alphabetSize) →
      nidGetPrefix nid ≠ [] → WellLabelled (.mk nid []) :=
    fun nid hlet hne => .node hne hlet (by simp) List.Pairwise.nil (by simp)
  rw [newDocument, nidCreateRoot]
  cases persistent with
  | false => exact hleaf (.internal [0]) (by simp [nidGetPrefix]) (by simp [nidGetPrefix])
  | true =>
    dsimp only
    rw [if_pos rfl]
    split
    · exact hleaf (.internal _) hroot.1 hroot.2
    · exact hleaf (.external _) hroot.1 hroot.2

/-! ## What labels say about nodes -/

theorem nodeAt_append (node : DocNode) (p q : List Nat) :
    nodeAt node (p ++ q) = (nodeAt node p).bind fun n => nodeAt n q := by
  induction p generalizing node with
  | nil => rfl
  | cons k p ih =>
    rw [cons_append, nodeAt, nodeAt]
    cases node.children[k]? with
    | none => rfl
    | some child => exact ih child

theorem descendant_label {n : DocNode} (h : WellLabelled node) {path : List Nat}
    (hn : nodeAt node path = some n) :
    WellLabelled n ∧ (path = [] ∧ n = node ∨
      path ≠ [] ∧ Proper n.label ∧ ∃ c s, n.label = node.label ++ c :: s ∧ c < alphabetSize) := by
  induction path generalizing node with
  | nil =>
    cases hn
    exact ⟨h, .inl ⟨rfl, rfl⟩⟩
  | cons k path ih =>
    obtain ⟨child, hk, hn⟩ := bind_eq_some_iff.1 hn
    obtain ⟨hch, hwell⟩ := h.mem_child (mem_of_getElem? hk)
    have hlet : ∀ a ∈ node.label, a ≤ alphabetSize := by
      cases h with
      | node _ hlet _ _ _ => exact hlet
    have hprop := hch.proper hlet
    obtain ⟨c, s, hlabel, hc, -⟩ := hch.extends_parent
    obtain ⟨hnwell, hcases⟩ := ih hwell hn
    refine ⟨hnwell, .inr ⟨by simp, ?_⟩⟩
    rcases hcases with ⟨-, rfl⟩ | ⟨-, hnproper, d, t, hnlabel, -⟩
    · exact ⟨hprop, c, s, hlabel, hc⟩
    · exact ⟨hnproper, c, s ++ d :: t, by rw [hnlabel, hlabel]; simp, hc⟩

theorem below_label (h : WellLabelled node) (hx : nodeAt node x = some nx)
    (hy : nodeAt node y = some ny) (hxy : Below x y) : Precedes alphabetSize nx.label ny.label := by
  obtain ⟨w, i, j, u, v, rfl, rfl, hij⟩ := hxy
  rw [nodeAt_append] at hx hy
  obtain ⟨m, hm, hx⟩ := bind_eq_some_iff.1 hx
  obtain ⟨m', hm', hy⟩ := bind_eq_some_iff.1 hy
  obtain rfl : m = m' := some.inj (hm.symm.trans hm')
  obtain ⟨ci, hci, hx⟩ := bind_eq_some_iff.1 hx
  obtain ⟨cj, hcj, hy⟩ := bind_eq_some_iff.1 hy
  have hwell := (descendant_label h hm).1
  have hcix := (hwell.mem_child (mem_of_getElem? hci)).2
  have hcjy := (hwell.mem_child (mem_of_getElem? hcj)).2
  have hsib : Precedes alphabetSize ci.label cj.label := by
    cases hwell with
    | node _ _ _ hsib _ =>
      obtain ⟨hi, hgeti⟩ := List.getElem?_eq_some_iff.1 hci
      obtain ⟨hj, hgetj⟩ := List.getElem?_eq_some_iff.1 hcj
      rw [← hgeti, ← hgetj]
      exact pairwise_iff_getElem.1 hsib i j hi hj hij
  have hyext : ∃ t, ny.label = cj.label ++ t := by
    rcases (descendant_label hcjy hy).2 with ⟨-, rfl⟩ | ⟨-, -, c, s, heq, -⟩
    · exact ⟨[], by simp⟩
    · exact ⟨c :: s, heq⟩
  obtain ⟨t, hyext⟩ := hyext
  rw [hyext]
  rcases (descendant_label hcix hx).2 with ⟨-, rfl⟩ | ⟨-, -, c, s, heq, hc⟩
  · rcases hsib with hbel | ⟨r, hr⟩
    · have hext := hbel.append [] t
      rw [append_nil] at hext
      exact .inl hext
    · exact .inr ⟨r ++ t, by rw [hr]; simp⟩
  · rw [heq]
    rcases hsib with hbel | ⟨r, hr⟩
    · exact .inl (hbel.append _ _)
    · refine .inl ?_
      rw [hr, append_assoc]
      exact (below_head s (r ++ t) hc).append_left ci.label

theorem lexCmp_append (w p q : TPrefix) : lexCmp (w ++ p) (w ++ q) = lexCmp p q := by
  induction w with
  | nil => rfl
  | cons a w ih => simp [lexCmp, ih]

theorem lexCmp_extend (p s : TPrefix) (a : Nat) :
    lexCmp p (p ++ a :: s) = -1 ∧ lexCmp (p ++ a :: s) p = 1 := by
  have hleft := lexCmp_append p [] (a :: s)
  have hright := lexCmp_append p (a :: s) []
  rw [append_nil] at hleft hright
  exact ⟨hleft, hright⟩

theorem lexCmp_below {p q : TPrefix} (h : Below p q) : lexCmp p q = -1 ∧ lexCmp q p = 1 := by
  obtain ⟨w, a, b, u, v, rfl, rfl, hab⟩ := h
  rw [lexCmp_append, lexCmp_append]
  simp only [lexCmp]
  constructor
  · rw [if_pos (by omega), if_neg (by omega)]
  · rw [if_pos (by omega), if_pos hab]

theorem lexCmp_of_docBefore (h : WellLabelled node) (hx : nodeAt node x = some nx)
    (hy : nodeAt node y = some ny) (hxy : DocBefore x y) :
    lexCmp nx.label ny.label = -1 ∧ lexCmp ny.label nx.label = 1 := by
  rcases hxy with ⟨k, u, rfl⟩ | hbel
  · rw [nodeAt_append, hx] at hy
    rcases (descendant_label (descendant_label h hx).1 hy).2 with ⟨hnil, -⟩ | ⟨-, -, c, s, heq, -⟩
    · cases hnil
    · rw [heq]
      exact lexCmp_extend _ s c
  · rcases below_label h hx hy hbel with hlab | ⟨u, heq⟩
    · exact lexCmp_below hlab
    · rw [heq]
      exact lexCmp_extend _ u _

theorem lexCmp_self (p : TPrefix) : lexCmp p p = 0 := by
  have h := lexCmp_append p [] []
  rw [append_nil] at h
  exact h

section

variable (h : WellLabelled node) (hne : x ≠ y) (hx : nodeAt node x = some nx)
  (hy : nodeAt node y = some ny)
include h hne hx hy

theorem lexCmp_iff_docBefore : lexCmp nx.label ny.label < 0 ↔ DocBefore x y := by
  constructor
  · intro hlt
    refine (docBefore_total hne).resolve_right fun hyx => ?_
    rw [(lexCmp_of_docBefore h hy hx hyx).2] at hlt
    omega
  · intro hxy
    rw [(lexCmp_of_docBefore h hx hy hxy).1]
    decide

theorem label_ne : nx.label ≠ ny.label := by
  intro heq
  rcases docBefore_total hne with hxy | hyx
  · have hcmp := (lexCmp_of_docBefore h hx hy hxy).1
    rw [heq, lexCmp_self] at hcmp
    omega
  · have hcmp := (lexCmp_of_docBefore h hy hx hyx).1
    rw [heq, lexCmp_self] at hcmp
    omega

theorem properAncestor_iff :
    ProperAncestor x y ↔ ∃ c s, ny.label = nx.label ++ c :: s ∧ c ≠ alphabetSize := by
  constructor
  · rintro ⟨k, u, rfl⟩
    rw [nodeAt_append, hx] at hy
    rcases (descendant_label (descendant_label h hx).1 hy).2 with
      ⟨hnil, -⟩ | ⟨-, -, c, s, heq, hc⟩
    · cases hnil
    · exact ⟨c, s, heq, hc.ne⟩
  · rintro ⟨c, s, heq, hc⟩
    -- the label order leaves document order, and only the ancestor case allows this letter
    have hlt : lexCmp nx.label ny.label < 0 := by
      rw [heq, (lexCmp_extend _ s c).1]
      decide
    rcases (lexCmp_iff_docBefore h hne hx hy).1 hlt with hanc | hbel
    · exact hanc
    · rcases below_label h hx hy hbel with hlab | ⟨u, hu⟩
      · exact absurd heq (hlab.not_isPrefix _)
      · have htails : alphabetSize :: u = c :: s := append_cancel_left (hu.symm.trans heq)
        exact absurd (cons.inj htails).1.symm hc

end

/-- Along any run of edits on a new document the labels order the nodes, tell
them apart and show ancestry; the only failure is a label too long to store. -/
theorem run_labels (count : Nat) (persistent : Bool) (edits : List Edit) :
    run edits (newDocument count persistent) ≠ .error .algoError ∧
    ∀ doc, run edits (newDocument count persistent) = .ok doc →
      (∀ x y nx ny, x ≠ y → nodeAt doc x = some nx → nodeAt doc y = some ny →
        (lexCmp nx.label ny.label < 0 ↔ DocBefore x y) ∧
        nx.label ≠ ny.label ∧
        (ProperAncestor x y ↔ ∃ c s, ny.label = nx.label ++ c :: s ∧ c ≠ alphabetSize)) ∧
      ∀ k path n, nodeAt doc (k :: path) = some n →
        (∃ t m, n.label = t ++ [m] ∧ 1 ≤ m ∧ m ≤ maxLetter) ∧
        nidConsistent n.label = true := by
  rcases run_spec edits (newDocument_wellLabelled count persistent) with
    herr | ⟨doc', hok, -, hwell⟩
  · rw [herr]
    exact ⟨by simp, fun doc hdoc => by cases hdoc⟩
  · rw [hok]
    refine ⟨by simp, ?_⟩
    rintro doc ⟨⟩
    constructor
    · intro x y nx ny hne hx hy
      exact ⟨lexCmp_iff_docBefore hwell hne hx hy, label_ne hwell hne hx hy,
        properAncestor_iff hwell hne hx hy⟩
    · intro k path n hn
      rcases (descendant_label hwell hn).2 with ⟨hnil, -⟩ | ⟨-, hprop, -⟩
      · cases hnil
      · exact ⟨hprop.ends, hprop.nidConsistent⟩

/-- Two children, one before the other, and a grandchild after the first is deleted. -/
theorem run_labels_small :
    ∃ doc n, run [.insert [] 0, .insert [] 0, .insert [] 1, .delete [0], .insert [1] 0]
        (newDocument 0 true) = .ok doc ∧
      nodeAt doc [1, 0] = some n ∧ nidConsistent n.label = true := by
  refine ⟨_, _, rfl, rfl, ?_⟩
  exact (((run_labels 0 true
    [.insert [] 0, .insert [] 0, .insert [] 1, .delete [0], .insert [1] 0]).2 _ rfl).2 1 [0] _
    rfl).2

end Sedna.Nid.Document
