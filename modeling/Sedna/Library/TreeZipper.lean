import Mathlib.Data.List.Nodup
import Mathlib.Data.List.Flatten
import Mathlib.Data.List.Induction

/-!
# Ordered trees and places in them

A place in a tree is a subtree together with the way up to the root: for every level the subtrees
on its left, nearest first, the value above and the subtrees on its right.  Document order is the
order of the preorder list.
-/

namespace Sedna.Library.TreeZipper

open List

variable {α : Type*}

inductive Tree (α : Type*) where
  | node (value : α) (children : List (Tree α))

variable {s t doc : Tree α} {ts : List (Tree α)} {x y : α} {p : α → Bool}

namespace Tree

def value : Tree α → α
  | node a _ => a

def children : Tree α → List (Tree α)
  | node _ ts => ts

@[simp] theorem value_node (a : α) (ts : List (Tree α)) : (node a ts).value = a := rfl

@[simp] theorem children_node (a : α) (ts : List (Tree α)) : (node a ts).children = ts := rfl

@[elab_as_elim]
theorem induction {motive : Tree α → Prop}
    (step : ∀ a ts, (∀ t ∈ ts, motive t) → motive (node a ts)) (t : Tree α) : motive t :=
  @Tree.rec α motive (fun ts => ∀ t ∈ ts, motive t)
    step (forall_mem_nil _) (fun _ _ ht hts => forall_mem_cons.2 ⟨ht, hts⟩) t

/-! ## Preorder -/

mutual

def preorder : Tree α → List α
  | node a ts => a :: forestPreorder ts

def forestPreorder : List (Tree α) → List α
  | [] => []
  | t :: ts => preorder t ++ forestPreorder ts

end

mutual

def subtrees : Tree α → List (Tree α)
  | node a ts => node a ts :: forestSubtrees ts

def forestSubtrees : List (Tree α) → List (Tree α)
  | [] => []
  | t :: ts => subtrees t ++ forestSubtrees ts

end

theorem forestPreorder_eq (ts : List (Tree α)) : forestPreorder ts = ts.flatMap preorder := by
  induction ts with
  | nil => rfl
  | cons t ts ih => rw [forestPreorder, ih, flatMap_cons]

theorem forestSubtrees_eq (ts : List (Tree α)) : forestSubtrees ts = ts.flatMap subtrees := by
  induction ts with
  | nil => rfl
  | cons t ts ih => rw [forestSubtrees, ih, flatMap_cons]

@[simp] theorem preorder_node (a : α) (ts : List (Tree α)) :
    (node a ts).preorder = a :: ts.flatMap preorder := by
  rw [preorder, forestPreorder_eq]

theorem preorder_eq (t : Tree α) : t.preorder = t.value :: t.children.flatMap preorder := by
  cases t with
  | node a ts => exact preorder_node a ts

theorem mem_subtrees_node {a : α} :
    s ∈ (node a ts).subtrees ↔ s = node a ts ∨ ∃ t ∈ ts, s ∈ t.subtrees := by
  rw [subtrees, forestSubtrees_eq, mem_cons, mem_flatMap]

theorem mem_subtrees_self (t : Tree α) : t ∈ t.subtrees := by
  cases t with
  | node a ts => exact mem_subtrees_node.2 (.inl rfl)

theorem value_mem_preorder (t : Tree α) : t.value ∈ t.preorder := by
  rw [preorder_eq]
  exact mem_cons_self

theorem map_value_subtrees (t : Tree α) : t.subtrees.map value = t.preorder := by
  induction t using Tree.induction with
  | step a ts ih =>
    rw [subtrees, forestSubtrees_eq, map_cons, preorder_node, map_flatMap]
    congr 1
    exact flatMap_congr ih

theorem mem_subtrees_trans {r : Tree α} (hrs : r ∈ s.subtrees) (hst : s ∈ t.subtrees) :
    r ∈ t.subtrees := by
  induction t using Tree.induction with
  | step a ts ih =>
    rcases mem_subtrees_node.1 hst with rfl | ⟨t, ht, hs⟩
    · exact hrs
    · exact mem_subtrees_node.2 (.inr ⟨t, ht, ih t ht hs⟩)

theorem child_mem_subtrees {c : Tree α} (ht : t ∈ doc.subtrees) (hc : c ∈ t.children) :
    c ∈ doc.subtrees := by
  obtain ⟨a, ts⟩ := t
  exact mem_subtrees_trans (mem_subtrees_node.2 (.inr ⟨c, hc, mem_subtrees_self c⟩)) ht

theorem mem_preorder_of_mem_subtrees (hx : x ∈ s.preorder) (hs : s ∈ t.subtrees) :
    x ∈ t.preorder := by
  rw [← map_value_subtrees, mem_map] at hx ⊢
  obtain ⟨r, hr, hval⟩ := hx
  exact ⟨r, mem_subtrees_trans hr hs, hval⟩

/-! ## Document order and descendants -/

def DocBefore (doc : Tree α) (x y : α) : Prop := [x, y].Sublist doc.preorder

def Descendant (doc : Tree α) (x y : α) : Prop :=
  ∃ s ∈ doc.subtrees, s.value = x ∧ y ∈ s.children.flatMap preorder

end Tree

open Tree

theorem pair_sublist_iff {p q : List α} (hnd : (p ++ x :: q).Nodup) :
    [x, y].Sublist (p ++ x :: q) ↔ y ∈ q := by
  induction p with
  | nil => rw [nil_append, cons_sublist_cons, singleton_sublist]
  | cons z p ih =>
    obtain ⟨hz, hnd⟩ := nodup_cons.1 hnd
    have hne : x ≠ z := by
      intro h
      apply hz
      rw [← h]
      exact mem_append_right p mem_cons_self
    rw [← ih hnd, cons_append, sublist_cons_iff]
    exact or_iff_left fun ⟨r, hr, _⟩ => hne (cons.inj hr).1

theorem sublist_pair_iff {p q : List α} (hnd : (p ++ x :: q).Nodup) :
    [y, x].Sublist (p ++ x :: q) ↔ y ∈ p := by
  have hrev : (q.reverse ++ x :: p.reverse).Nodup := by
    have h := nodup_reverse.2 hnd
    simpa using h
  rw [← reverse_sublist]
  simpa using pair_sublist_iff hrev

theorem docBefore_total (hx : x ∈ doc.preorder) (hy : y ∈ doc.preorder) (hne : x ≠ y) :
    DocBefore doc x y ∨ DocBefore doc y x := by
  obtain ⟨p, q, hspl⟩ := append_of_mem hx
  rw [DocBefore, DocBefore, hspl]
  rw [hspl, mem_append, mem_cons] at hy
  rcases hy with hp | rfl | hq
  · right
    exact (singleton_sublist.2 hp).append (singleton_sublist.2 mem_cons_self)
  · exact absurd rfl hne
  · left
    exact (Sublist.cons_cons x (singleton_sublist.2 hq)).trans (sublist_append_right p (x :: q))

theorem docBefore_mem (h : DocBefore doc x y) : x ∈ doc.preorder ∧ y ∈ doc.preorder :=
  ⟨h.subset mem_cons_self, h.subset (mem_cons_of_mem x mem_cons_self)⟩

theorem docBefore_asymm (hnd : doc.preorder.Nodup) (h : DocBefore doc x y) :
    ¬ DocBefore doc y x := by
  intro h'
  obtain ⟨p, q, hspl⟩ := append_of_mem (docBefore_mem h).1
  rw [DocBefore, hspl] at h h'
  rw [hspl] at hnd
  have hq : y ∈ q := (pair_sublist_iff hnd).1 h
  have hp : y ∈ p := (sublist_pair_iff hnd).1 h'
  exact (nodup_append.1 hnd).2.2 y hp y (mem_cons_of_mem x hq) rfl

theorem docBefore_ne (hnd : doc.preorder.Nodup) (h : DocBefore doc x y) : x ≠ y := by
  rintro rfl
  exact docBefore_asymm hnd h h

theorem docBefore_trans (hnd : doc.preorder.Nodup) {z : α} (hxy : DocBefore doc x y)
    (hyz : DocBefore doc y z) : DocBefore doc x z := by
  obtain ⟨p, q, hspl⟩ := append_of_mem (docBefore_mem hyz).1
  rw [DocBefore, hspl] at hxy hyz ⊢
  rw [hspl] at hnd
  have hp : x ∈ p := (sublist_pair_iff hnd).1 hxy
  have hq : z ∈ q := (pair_sublist_iff hnd).1 hyz
  exact (singleton_sublist.2 hp).append
    (singleton_sublist.2 (mem_cons_of_mem y hq))

/-! ## Places -/

/-- One level of the way up: the siblings on the left, nearest first, the value of the parent
and the siblings on the right. -/
structure Crumb (α : Type*) where
  lefts : List (Tree α)
  value : α
  rights : List (Tree α)

variable {cs : List (Crumb α)}

def Crumb.plug (c : Crumb α) (t : Tree α) : Tree α :=
  .node c.value (c.lefts.reverse ++ t :: c.rights)

structure Loc (α : Type*) where
  focus : Tree α
  crumbs : List (Crumb α)

def before : List (Crumb α) → List α
  | [] => []
  | c :: cs => before cs ++ c.value :: c.lefts.reverse.flatMap preorder

def after (cs : List (Crumb α)) : List α := cs.flatMap fun c => c.rights.flatMap preorder

/-- The values before a place that are not above it, in reverse document order. -/
def aside (cs : List (Crumb α)) : List α :=
  cs.flatMap fun c => c.lefts.flatMap fun t => t.preorder.reverse

namespace Loc

def value (l : Loc α) : α := l.focus.value

def rebuild (l : Loc α) : Tree α := l.crumbs.foldl (fun t c => c.plug t) l.focus

def parent : Loc α → Option (Loc α)
  | ⟨_, []⟩ => none
  | ⟨t, c :: cs⟩ => some ⟨c.plug t, cs⟩

def right : Loc α → Option (Loc α)
  | ⟨t, ⟨ls, a, r :: rs⟩ :: cs⟩ => some ⟨r, ⟨t :: ls, a, rs⟩ :: cs⟩
  | _ => none

def left : Loc α → Option (Loc α)
  | ⟨t, ⟨l :: ls, a, rs⟩ :: cs⟩ => some ⟨l, ⟨ls, a, t :: rs⟩ :: cs⟩
  | _ => none

@[simp] theorem rebuild_nil (t : Tree α) : rebuild ⟨t, []⟩ = t := rfl

@[simp] theorem rebuild_cons (t : Tree α) (c : Crumb α) (cs : List (Crumb α)) :
    rebuild ⟨t, c :: cs⟩ = rebuild ⟨c.plug t, cs⟩ := rfl

end Loc

theorem rebuild_child (a : α) (ls : List (Tree α)) (t : Tree α) (rs : List (Tree α))
    (cs : List (Crumb α)) :
    Loc.rebuild ⟨t, ⟨ls, a, rs⟩ :: cs⟩ = Loc.rebuild ⟨.node a (ls.reverse ++ t :: rs), cs⟩ := rfl

theorem rebuild_move (t r : Tree α) (ls rs : List (Tree α)) (a : α) (cs : List (Crumb α)) :
    Loc.rebuild ⟨r, ⟨t :: ls, a, rs⟩ :: cs⟩ = Loc.rebuild ⟨t, ⟨ls, a, r :: rs⟩ :: cs⟩ := by
  rw [rebuild_child, rebuild_child]
  simp

@[simp] theorem preorder_plug (c : Crumb α) (t : Tree α) :
    (c.plug t).preorder = c.value :: c.lefts.reverse.flatMap preorder ++
      (t.preorder ++ c.rights.flatMap preorder) := by
  rw [Crumb.plug, preorder_node, flatMap_append, flatMap_cons, cons_append]

theorem preorder_rebuild (t : Tree α) (cs : List (Crumb α)) :
    (Loc.rebuild ⟨t, cs⟩).preorder = before cs ++ (t.preorder ++ after cs) := by
  induction cs generalizing t with
  | nil => simp [before, after]
  | cons c cs ih =>
    rw [Loc.rebuild_cons, ih, before, after, after, flatMap_cons]
    simp

theorem rebuild_append (t : Tree α) (inner outer : List (Crumb α)) :
    Loc.rebuild ⟨t, inner ++ outer⟩ = Loc.rebuild ⟨Loc.rebuild ⟨t, inner⟩, outer⟩ :=
  foldl_append

theorem rebuild_eq_node {l : Loc α} {a : α} (h : l.rebuild = .node a ts) :
    l = ⟨.node a ts, []⟩ ∨ ∃ ls c rs inner, ts = ls ++ c :: rs ∧
      Loc.rebuild ⟨l.focus, inner⟩ = c ∧ l.crumbs = inner ++ [⟨ls.reverse, a, rs⟩] := by
  obtain ⟨t, cs⟩ := l
  cases cs using reverseRecOn with
  | nil =>
    left
    rw [Loc.rebuild_nil] at h
    rw [h]
  | append_singleton inner d =>
    right
    rw [rebuild_append, rebuild_child] at h
    obtain ⟨rfl, rfl⟩ := Tree.node.inj h
    exact ⟨d.lefts.reverse, _, d.rights, inner, rfl, rfl, by rw [reverse_reverse]⟩

theorem length_crumbs_lt (hl : Loc.rebuild ⟨t, cs⟩ = doc) : cs.length < doc.preorder.length := by
  have hbef : cs.length ≤ (before cs).length := by
    clear hl
    induction cs with
    | nil => exact Nat.le_refl _
    | cons c cs ih =>
      simp only [before, length_append, length_cons]
      omega
  rw [← hl, preorder_rebuild, preorder_eq]
  simp only [length_append, length_cons]
  omega

theorem exists_loc (hx : x ∈ t.preorder) :
    ∃ s inner, s.value = x ∧ ∀ cs, Loc.rebuild ⟨s, inner ++ cs⟩ = Loc.rebuild ⟨t, cs⟩ := by
  induction t using Tree.induction with
  | step a ts ih =>
    rw [preorder_node, mem_cons, mem_flatMap] at hx
    rcases hx with rfl | ⟨t, ht, hx⟩
    · exact ⟨.node x ts, [], rfl, fun _ => rfl⟩
    · obtain ⟨s, inner, hval, hrebuild⟩ := ih t ht hx
      obtain ⟨ls, rs, rfl⟩ := append_of_mem ht
      refine ⟨s, inner ++ [⟨ls.reverse, a, rs⟩], hval, ?_⟩
      intro cs
      rw [append_assoc, singleton_append, hrebuild, rebuild_child, reverse_reverse]

theorem node_mem_subtrees (hl : Loc.rebuild ⟨t, cs⟩ = doc) : t ∈ doc.subtrees := by
  induction cs generalizing t with
  | nil => exact hl ▸ mem_subtrees_self t
  | cons c cs ih =>
    exact child_mem_subtrees (ih hl) (mem_append_right _ mem_cons_self)

theorem mem_preorder (hl : Loc.rebuild ⟨t, cs⟩ = doc) : t.value ∈ doc.preorder :=
  mem_preorder_of_mem_subtrees t.value_mem_preorder (node_mem_subtrees hl)

/-! ## Ancestors -/

theorem value_not_mem_children (hnd : t.preorder.Nodup) :
    t.value ∉ t.children.flatMap preorder := by
  rw [preorder_eq] at hnd
  exact (nodup_cons.1 hnd).1

theorem preorder_sublist (hs : s ∈ doc.subtrees) : s.preorder.Sublist doc.preorder := by
  induction doc using Tree.induction with
  | step a ts ih =>
    rcases mem_subtrees_node.1 hs with rfl | ⟨t, ht, hs⟩
    · exact Sublist.refl _
    · rw [preorder_node]
      refine ((ih t ht hs).trans ?_).cons a
      obtain ⟨ls, rs, rfl⟩ := append_of_mem ht
      rw [flatMap_append]
      exact (sublist_append_left _ _).trans (sublist_append_right _ _)

theorem docBefore_of_descendant (h : Descendant doc x y) : DocBefore doc x y := by
  obtain ⟨s, hs, rfl, hy⟩ := h
  have hpair : [s.value, y].Sublist s.preorder := by
    rw [preorder_eq]
    exact Sublist.cons_cons s.value (singleton_sublist.2 hy)
  exact hpair.trans (preorder_sublist hs)

theorem children_sublist (ts : List (Tree α)) :
    (ts.map Tree.value).Sublist (ts.flatMap preorder) := by
  induction ts with
  | nil => exact Sublist.refl _
  | cons t ts ih =>
    rw [flatMap_cons, preorder_eq, cons_append]
    exact Sublist.cons_cons _ (ih.trans (sublist_append_right _ _))

theorem docBefore_of_children {a : α} {ps qs : List α} (hs : .node a ts ∈ doc.subtrees)
    (hts : ts.map Tree.value = ps ++ x :: qs) (hy : y ∈ qs) : DocBefore doc x y := by
  have hpair : [x, y].Sublist (ts.map Tree.value) := by
    rw [hts]
    exact (Sublist.cons_cons x (singleton_sublist.2 hy)).trans (sublist_append_right ps (x :: qs))
  refine (hpair.trans (children_sublist ts)).trans (Sublist.trans ?_ (preorder_sublist hs))
  rw [preorder_node]
  exact (Sublist.refl _).cons a

theorem value_rebuild (hne : cs ≠ []) : (Loc.rebuild ⟨t, cs⟩).value ∈ cs.map Crumb.value := by
  induction cs generalizing t with
  | nil => exact absurd rfl hne
  | cons c cs ih =>
    cases cs with
    | nil => exact mem_cons_self
    | cons d cs => exact mem_cons_of_mem _ (ih (by simp))

theorem descendant_node {a : α} : Descendant (.node a ts) x y ↔
    x = a ∧ y ∈ ts.flatMap preorder ∨ ∃ t ∈ ts, Descendant t x y := by
  simp only [Descendant, mem_subtrees_node, or_and_right, exists_or, exists_eq_left]
  refine or_congr (and_congr_left fun _ => eq_comm) ?_
  tauto

theorem descendant_value_iff (hl : Loc.rebuild ⟨t, cs⟩ = doc) (hnd : doc.preorder.Nodup) :
    Descendant doc x t.value ↔ x ∈ cs.map Crumb.value := by
  induction cs using reverseRecOn generalizing doc with
  | nil =>
    subst hl
    refine iff_of_false (fun habove => ?_) not_mem_nil
    have hbef := docBefore_of_descendant habove
    rw [preorder_eq] at hnd
    rw [DocBefore, preorder_eq] at hbef
    exact absurd ((sublist_pair_iff (p := []) hnd).1 hbef) not_mem_nil
  | append_singleton cs c ih =>
    rw [rebuild_append] at hl
    subst hl
    generalize hbel : Loc.rebuild ⟨t, cs⟩ = below at hnd ⊢
    have hval := mem_preorder hbel
    rw [Loc.rebuild_cons, Loc.rebuild_nil, preorder_plug] at hnd
    obtain ⟨-, hright, hleft⟩ := nodup_append.1 hnd
    obtain ⟨hinner, -, hright⟩ := nodup_append.1 hright
    rw [Loc.rebuild_cons, Loc.rebuild_nil, Crumb.plug, descendant_node, map_append, mem_append,
      ← ih hbel hinner]
    constructor
    · rintro (⟨rfl, -⟩ | ⟨s, hs, habove⟩)
      · exact .inr (mem_singleton_self _)
      · -- no sibling has the value
        have hs' := (docBefore_mem (docBefore_of_descendant habove)).2
        rcases mem_append.1 hs with hs | hs
        · exact absurd rfl (hleft _ (mem_cons_of_mem _ (mem_flatMap.2 ⟨s, hs, hs'⟩)) _
            (mem_append_left _ hval))
        · rcases mem_cons.1 hs with rfl | hs
          · exact .inl habove
          · exact absurd rfl (hright _ hval _ (mem_flatMap.2 ⟨s, hs, hs'⟩))
    · rintro (habove | hx)
      · exact .inr ⟨below, by simp, habove⟩
      · exact .inl ⟨mem_singleton.1 hx, mem_flatMap.2 ⟨below, by simp, hval⟩⟩

theorem value_descendant_iff (hl : Loc.rebuild ⟨t, cs⟩ = doc) (hnd : doc.preorder.Nodup) :
    Descendant doc t.value y ↔ y ∈ t.children.flatMap preorder := by
  constructor
  · rintro ⟨s, hs, hval, hy⟩
    rw [← map_value_subtrees] at hnd
    rwa [inj_on_of_nodup_map hnd hs (node_mem_subtrees hl) hval] at hy
  · intro hy
    exact ⟨t, node_mem_subtrees hl, rfl, hy⟩

/-! ## Preorder with skipped children -/

namespace Tree

mutual

/-- The preorder that enters the children of a node at the first one that is not skipped. -/
def pruned (skip : α → Bool) : Tree α → List α
  | node a ts => a :: prunedForest skip false ts

def prunedForest (skip : α → Bool) : Bool → List (Tree α) → List α
  | _, [] => []
  | entered, t :: ts =>
    if entered || !skip t.value then pruned skip t ++ prunedForest skip true ts
    else prunedForest skip entered ts

end

variable {skip : α → Bool}

theorem pruned_eq (t : Tree α) : pruned skip t = t.value :: prunedForest skip false t.children := by
  cases t with
  | node a ts => rfl

theorem prunedForest_true (ts : List (Tree α)) :
    prunedForest skip true ts = ts.flatMap (pruned skip) := by
  induction ts with
  | nil => rfl
  | cons t ts ih => rw [prunedForest, Bool.true_or, if_pos rfl, ih, flatMap_cons]

theorem prunedForest_false_nil (h : ∀ t ∈ ts, skip t.value = true) :
    prunedForest skip false ts = [] := by
  induction ts with
  | nil => rfl
  | cons t ts ih =>
    rw [prunedForest, h t mem_cons_self]
    exact ih fun s hs => h s (mem_cons_of_mem t hs)

theorem prunedForest_false_append {ls rs : List (Tree α)} (hls : ∀ l ∈ ls, skip l.value = true)
    (ht : skip t.value = false) :
    prunedForest skip false (ls ++ t :: rs) = (t :: rs).flatMap (pruned skip) := by
  induction ls with
  | nil => rw [nil_append, prunedForest, ht, prunedForest_true]; rfl
  | cons l ls ih =>
    rw [cons_append, prunedForest, hls l mem_cons_self]
    exact ih fun s hs => hls s (mem_cons_of_mem l hs)

mutual

theorem mem_pruned : ∀ {t : Tree α}, y ∈ pruned skip t → y ∈ t.preorder
  | node a ts, hy => by
    rw [pruned, mem_cons] at hy
    rw [preorder_node, mem_cons]
    exact hy.imp_right mem_prunedForest

theorem mem_prunedForest : ∀ {ts : List (Tree α)} {entered : Bool},
    y ∈ prunedForest skip entered ts → y ∈ ts.flatMap preorder
  | [], _, hy => absurd hy not_mem_nil
  | t :: ts, entered, hy => by
    rw [flatMap_cons, mem_append]
    rw [prunedForest] at hy
    split at hy
    · rcases mem_append.1 hy with hy | hy
      · exact .inl (mem_pruned hy)
      · exact .inr (mem_prunedForest hy)
    · exact .inr (mem_prunedForest hy)

end

theorem filter_prunedForest_of (hpruned : ∀ t ∈ ts, (pruned skip t).filter p = t.preorder.filter p)
    (hskip : ∀ t ∈ ts, skip t.value = true → t.preorder.filter p = []) (entered : Bool) :
    (prunedForest skip entered ts).filter p = (ts.flatMap preorder).filter p := by
  induction ts generalizing entered with
  | nil => rfl
  | cons t ts ih =>
    have hrest := ih (fun s hs => hpruned s (mem_cons_of_mem t hs))
      (fun s hs => hskip s (mem_cons_of_mem t hs))
    rw [prunedForest, flatMap_cons, filter_append]
    split
    · rw [filter_append, hpruned t mem_cons_self, hrest]
    next hnot =>
      have hs : skip t.value = true := by
        simp only [Bool.or_eq_true, not_or, Bool.not_eq_true] at hnot
        simpa using hnot.2
      rw [hskip t mem_cons_self hs, nil_append, hrest]

theorem filter_skipped (hskip : p t.value = false) (hleaf : t.children = []) :
    t.preorder.filter p = [] := by
  rw [preorder_eq, hleaf, flatMap_nil, filter_cons_of_neg (by rw [hskip]; decide), filter_nil]

theorem filter_pruned
    (hskip : ∀ s ∈ t.subtrees, skip s.value = true → p s.value = false ∧ s.children = []) :
    (pruned skip t).filter p = t.preorder.filter p := by
  induction t using Tree.induction with
  | step a ts ih =>
    have hch : ∀ t ∈ ts, t ∈ (node a ts).subtrees := fun t ht =>
      mem_subtrees_node.2 (.inr ⟨t, ht, mem_subtrees_self t⟩)
    have hforest := filter_prunedForest_of
      (fun t ht => ih t ht fun s hs => hskip s (mem_subtrees_trans hs (hch t ht)))
      (fun t ht hs => filter_skipped (hskip t (hch t ht) hs).1 (hskip t (hch t ht) hs).2)
      false
    rw [pruned, preorder_node, filter_cons, filter_cons, hforest]

theorem filter_prunedForest
    (hskip : ∀ t ∈ ts, ∀ s ∈ t.subtrees, skip s.value = true → p s.value = false ∧ s.children = [])
    (entered : Bool) : (prunedForest skip entered ts).filter p = (ts.flatMap preorder).filter p :=
  filter_prunedForest_of (fun t ht => filter_pruned (hskip t ht))
    (fun t ht hs => filter_skipped (hskip t ht t (mem_subtrees_self t) hs).1
      (hskip t ht t (mem_subtrees_self t) hs).2) entered

end Tree

/-! ## What comes before and after a place -/

theorem mem_before_iff : y ∈ before cs ↔ y ∈ cs.map Crumb.value ∨ y ∈ aside cs := by
  induction cs with
  | nil => simp [before, aside]
  | cons c cs ih =>
    simp only [before, aside, mem_append, mem_cons, map_cons, flatMap_cons,
      mem_flatMap, mem_reverse] at ih ⊢
    grind

theorem reverse_aside_sublist (cs : List (Crumb α)) : (aside cs).reverse.Sublist (before cs) := by
  induction cs with
  | nil => exact Sublist.refl _
  | cons c cs ih =>
    rw [aside, flatMap_cons, reverse_append]
    refine Sublist.append ih (Sublist.cons _ ?_)
    have hrev : (c.lefts.flatMap fun t => t.preorder.reverse).reverse =
        c.lefts.reverse.flatMap preorder := by
      rw [reverse_flatMap]
      simp [Function.comp_def]
    rw [hrev]

section

variable (hl : Loc.rebuild ⟨t, cs⟩ = doc) (hnd : doc.preorder.Nodup)
include hl hnd

theorem nodup_split :
    (before cs ++ t.value :: (t.children.flatMap preorder ++ after cs)).Nodup := by
  rw [← hl, preorder_rebuild, preorder_eq] at hnd
  exact hnd

theorem docBefore_value_iff :
    DocBefore doc t.value y ↔ y ∈ t.children.flatMap preorder ∨ y ∈ after cs := by
  have hspl := nodup_split hl hnd
  rw [DocBefore, ← hl, preorder_rebuild, preorder_eq, cons_append, pair_sublist_iff hspl,
    mem_append]

theorem docBefore_iff_mem_before : DocBefore doc y t.value ↔ y ∈ before cs := by
  have hspl := nodup_split hl hnd
  rw [DocBefore, ← hl, preorder_rebuild, preorder_eq, cons_append, sublist_pair_iff hspl]

theorem following_iff : DocBefore doc t.value y ∧ ¬ Descendant doc t.value y ↔ y ∈ after cs := by
  rw [docBefore_value_iff hl hnd, value_descendant_iff hl hnd]
  have hspl := (nodup_cons.1 (nodup_append.1 (nodup_split hl hnd)).2.1).2
  have hdisjoint := disjoint_of_nodup_append hspl
  rw [or_and_right, and_not_self_iff, false_or, and_iff_left_of_imp fun h h' => hdisjoint h' h]

theorem aside_disjoint (hy : y ∈ aside cs) : y ∉ cs.map Crumb.value := by
  have hbef : (before cs).Nodup := (nodup_append.1 (nodup_split hl hnd)).1
  clear hl hnd
  induction cs with
  | nil => exact not_mem_nil
  | cons c cs ih =>
    obtain ⟨hrest, hlevel, hdisjoint⟩ := nodup_append.1 hbef
    rw [map_cons, mem_cons, not_or]
    rw [aside, flatMap_cons, mem_append] at hy
    rcases hy with hhere | habove
    · -- a value on the left of this level
      have hleft : y ∈ c.lefts.reverse.flatMap preorder := by simpa using hhere
      constructor
      · intro h
        exact (nodup_cons.1 hlevel).1 (h ▸ hleft)
      · intro h
        exact hdisjoint y (mem_before_iff.2 (.inl h)) y (mem_cons_of_mem _ hleft) rfl
    · constructor
      · intro h
        exact hdisjoint y (mem_before_iff.2 (.inr habove)) y (h ▸ mem_cons_self) rfl
      · exact ih habove hrest

theorem preceding_iff : DocBefore doc y t.value ∧ ¬ Descendant doc y t.value ↔ y ∈ aside cs := by
  rw [docBefore_iff_mem_before hl hnd, descendant_value_iff hl hnd, mem_before_iff]
  rw [or_and_right, and_not_self_iff, false_or, and_iff_left_of_imp (aside_disjoint hl hnd)]

end

end Sedna.Library.TreeZipper
