import Sedna.XPath.ChildAccess
import Sedna.XPath.Walks

/-!
# The traversals of the axes

What the procedures of the following, preceding and descendant axes visit in
a stored document.  The position of a traversal is a place of the document;
the stack holds the values on the way up from it.
-/

namespace Sedna.XPath.AxisStep

open Library.TreeZipper Structures.Schema NodeStore Tree Loc Crumb
open List hiding after

variable {α : Type*} [DecidableEq α] {st : NodeStore α} {doc : Tree α} {step : PPAxisStep}
  {limit : Nat}

def Cleared (hint : AxisHints α) : Prop := hint.nodeHeapStorage = [] ∧ hint.nodeStackStorage = []

/-! ## The following axis -/

variable {t tb : Tree α} {cs inner outer : List (Crumb α)} {n : Nat} {hint : AxisHints α}

theorem resolveAxisFollowing_spec (h : Stored st doc) (hl : rebuild ⟨t, cs⟩ = doc)
    (hn : cs.length < n) :
    (after cs = [] ∧ resolveAxisFollowing st n t.value = .ok none) ∨
      ∃ t' cs', rebuild ⟨t', cs'⟩ = doc ∧ after cs = t'.preorder ++ after cs' ∧
        resolveAxisFollowing st n t.value = .ok (some t'.value) := by
  induction cs generalizing t n with
  | nil =>
    cases n with
    | zero => omega
    | succ n =>
      left
      rw [resolveAxisFollowing, h.getRight_root hl, h.getActualParent_root hl]
      exact ⟨rfl, rfl⟩
  | cons c cs ih =>
    cases n with
    | zero => omega
    | succ n =>
      obtain ⟨ls, a, rs⟩ := c
      rw [resolveAxisFollowing]
      cases rs with
      | cons r rs =>
        right
        rw [h.getRight_some hl]
        refine ⟨r, ⟨t :: ls, a, rs⟩ :: cs, by rw [rebuild_move]; exact hl, ?_, rfl⟩
        simp [after]
      | nil =>
        rw [h.getRight_none hl, h.getActualParent_some hl]
        rw [length_cons] at hn
        exact ih hl (by omega)

omit [DecidableEq α] in
/-- What the loop of `nextNode_following` does with a node it has come to. -/
def rightOrUp (st : NodeStore α) (n : Nat) (node : α) (hint : AxisHints α) :
    Except StepError (Option α × AxisHints α) :=
  match st.getRight node with
  | some x => .ok (some x, hint)
  | none => followingLoop st n node hint

section

variable (h : Stored st doc)
include h

theorem rightOrUp_spec (hl : rebuild ⟨t, cs⟩ = doc) (hn : cs.length < n)
    (hstack : hint.nodeStackStorage <+: cs.map Crumb.value) :
    (after cs = [] ∧
      rightOrUp st n t.value hint = .ok (none, { hint with nodeStackStorage := [] })) ∨
    ∃ t' cs' stack', rebuild ⟨t', cs'⟩ = doc ∧ after cs = t'.preorder ++ after cs' ∧
      stack' <+: cs'.map Crumb.value ∧
      rightOrUp st n t.value hint =
        .ok (some t'.value, { hint with nodeStackStorage := stack' }) := by
  induction cs generalizing t n hint with
  | nil =>
    cases n with
    | zero => omega
    | succ n =>
      left
      have hnil : hint.nodeStackStorage = [] := prefix_nil.1 hstack
      rw [rightOrUp, h.getRight_root hl]
      rw [followingLoop, hnil]
      dsimp only
      rw [h.getActualParent_root hl]
      exact ⟨rfl, by rw [← hnil]⟩
  | cons c cs ih =>
    cases n with
    | zero => omega
    | succ n =>
      obtain ⟨ls, a, rs⟩ := c
      have hrounds : cs.length < n := by
        rw [length_cons] at hn
        omega
      rw [rightOrUp]
      cases rs with
      | cons r rs =>
        right
        rw [h.getRight_some hl]
        refine ⟨r, ⟨t :: ls, a, rs⟩ :: cs, hint.nodeStackStorage,
          by rw [rebuild_move]; exact hl, by simp [after], hstack, rfl⟩
      | nil =>
        rw [h.getRight_none hl]
        rw [followingLoop]
        have hplug : rebuild ⟨plug ⟨ls, a, []⟩ t, cs⟩ = doc := hl
        cases hst : hint.nodeStackStorage with
        | nil =>
          have hup : hint.nodeStackStorage <+: cs.map Crumb.value := by
            rw [hst]
            exact nil_prefix
          rw [h.getActualParent_some hl]
          exact ih hplug hrounds hup
        | cons top stack =>
          rw [hst, map_cons, cons_prefix_cons] at hstack
          obtain ⟨rfl, hup⟩ := hstack
          exact ih hplug hrounds hup

section

variable (hlimit : doc.preorder.length < limit)
include hlimit

theorem walk_following (hstep : step.nextNodeProc = some .following)
    (hl : rebuild ⟨t, cs⟩ = doc) (hint : AxisHints α)
    (hstack : hint.nodeStackStorage <+: cs.map Crumb.value) :
    Walk st step limit t.value hint (t.children.flatMap preorder ++ after cs)
      { hint with nodeStackStorage := [] } := by
  -- the induction is on the number of nodes still to come
  induction hm : (t.children.flatMap preorder ++ after cs).length using
    Nat.strong_induction_on generalizing t cs hint with
  | _ m ih =>
    subst hm
    have hnext : nextNode st step limit t.value hint = nextNodeFollowing st limit t.value hint := by
      rw [nextNode, hstep]
    obtain ⟨a, ts⟩ := t
    rw [value_node, children_node] at *
    have hfst := h.getFirstChild_eq hl
    cases ts with
    | cons c ts =>
      rw [head?_cons, Option.map_some] at hfst
      have hloc : rebuild ⟨c, ⟨[], a, ts⟩ :: cs⟩ = doc := hl
      have hrest : (c :: ts).flatMap preorder ++ after cs =
          c.value :: (c.children.flatMap preorder ++ after (⟨[], a, ts⟩ :: cs)) := by
        rw [flatMap_cons, preorder_eq c]
        simp [after]
      have hmove : nextNode st step limit a hint = .ok (some c.value,
          { hint with nodeStackStorage := a :: hint.nodeStackStorage }) := by
        rw [hnext, nextNodeFollowing, hfst]
      rw [hrest] at ih ⊢
      refine .move hmove rfl ?_
      exact ih _ (by simp) hloc _ ((prefix_cons_inj a).2 hstack) rfl
    | nil =>
      have hloop : nextNode st step limit a hint = rightOrUp st (limit - 1) a hint := by
        rw [hnext, nextNodeFollowing, hfst]
        obtain ⟨n, rfl⟩ : ∃ n, limit = n + 1 := ⟨limit - 1, by omega⟩
        rfl
      have hrounds : cs.length < limit - 1 := by
        have := length_crumbs_lt hl
        omega
      rcases rightOrUp_spec h hl hrounds hstack with
        ⟨hnil, hup⟩ | ⟨t', cs', stack', hloc, hafter, hup', hup⟩
      · rw [hnil]
        exact .stop (hloop.trans hup)
      · rw [hafter, preorder_eq t'] at ih ⊢
        refine .move (hloop.trans hup) rfl ?_
        exact ih _ (by simp) hloc _ hup' rfl

theorem visits_following (heval : step.evaluateAxisProc = .resolveFollowing)
    (hstep : step.nextNodeProc = some .following) (hl : rebuild ⟨t, cs⟩ = doc)
    (hclr : Cleared hint) :
    Visits st step limit t.value hint (after cs) { hint with baseNode := some t.value } := by
  have hrounds : cs.length < limit := (length_crumbs_lt hl).trans hlimit
  rcases resolveAxisFollowing_spec h hl hrounds with ⟨hnil, hnone⟩ | ⟨t', cs', hl', hafter, hsome⟩
  · rw [hnil]
    refine .nothing ?_
    rw [evaluateAxis, heval]
    rw [hnone]
    rfl
  · rw [hafter, preorder_eq t']
    have hfst : evaluateAxis st step limit t.value { hint with baseNode := some t.value } =
        .ok (some t'.value, { hint with baseNode := some t.value }) := by
      rw [evaluateAxis, heval]
      rw [hsome]
      rfl
    refine .start hfst rfl ?_
    have hwalk := walk_following h hlimit hstep hl' { hint with baseNode := some t.value }
      (hclr.2 ▸ nil_prefix)
    rw [← hclr.2] at hwalk
    exact hwalk

/-! ## The preceding axis -/

/-- The nodes on the way up and on its left, in reverse document order. -/
def unwind (cs : List (Crumb α)) : List α :=
  cs.flatMap fun c => (c.lefts.flatMap fun t => t.preorder.reverse) ++ [c.value]

theorem lastBelow_spec (hl : rebuild ⟨t, cs⟩ = doc) (hn : t.preorder.length ≤ n) :
    ∃ t' inner, rebuild ⟨t', inner ++ cs⟩ = doc ∧
      t.preorder.reverse = t'.value :: unwind inner ∧
      lastBelow st limit n t.value = .ok t'.value := by
  induction t using induction generalizing cs n with
  | step a ts ih =>
    have hlen : ts.length ≤ limit := by
      have hvals := (children_sublist ts).length_le
      have hsub := (preorder_sublist (node_mem_subtrees hl)).length_le
      rw [preorder_node, length_cons] at hsub
      rw [length_map] at hvals
      omega
    have hlast := h.getLastChild_eq hl hlen
    rw [preorder_node, length_cons] at hn
    obtain _ | n := n
    · omega
    rw [value_node, lastBelow, hlast]
    cases hts : ts using reverseRecOn with
    | nil => exact ⟨.node a [], [], hts ▸ hl, rfl, rfl⟩
    | append_singleton init last =>
      rw [hts] at hn
      have hloc : rebuild ⟨last, ⟨init.reverse, a, []⟩ :: cs⟩ = doc := child_rebuild hl hts
      have hrounds : last.preorder.length ≤ n := by
        simp at hn
        omega
      obtain ⟨t', inner, hl', hrev, hbel⟩ := ih last (by simp [hts]) hloc hrounds
      refine ⟨t', inner ++ [⟨init.reverse, a, []⟩], ?_, ?_, ?_⟩
      · rw [append_assoc]
        exact hl'
      · rw [preorder_node, flatMap_append, reverse_cons, reverse_append]
        simp only [flatMap_cons, flatMap_nil, append_nil, hrev, unwind,
          flatMap_append, cons_append, append_assoc, reverse_flatMap]
        rfl
      · rw [getLast?_concat]
        exact hbel

theorem nextNodePreceding_spec {base : α} (hbase : base ∈ doc.preorder) {up : List (Crumb α)}
    (hl : rebuild ⟨t, inner ++ up⟩ = doc)
    (hup : ∀ c ∈ up, Descendant doc c.value base)
    (hrest : ∀ y ∈ unwind inner ++ aside up, ¬ Descendant doc y base) (hn : up.length < n) :
    (unwind inner ++ aside up = [] ∧ nextNodePreceding st limit base n t.value = .ok none) ∨
    ∃ t' inner' up', rebuild ⟨t', inner' ++ up'⟩ = doc ∧
      (∀ c ∈ up', Descendant doc c.value base) ∧
      unwind inner ++ aside up = t'.value :: (unwind inner' ++ aside up') ∧
      nextNodePreceding st limit base n t.value = .ok (some t'.value) := by
  obtain _ | n := n
  · omega
  -- a subtree on the left is entered at its last node
  have hleft : ∀ {l : Tree α} {cs : List (Crumb α)} {n : Nat} {t : Tree α},
      rebuild ⟨l, cs⟩ = doc → st.getLeft t.value = some l.value →
      ∃ t' inner', rebuild ⟨t', inner' ++ cs⟩ = doc ∧
        l.preorder.reverse = t'.value :: unwind inner' ∧
        nextNodePreceding st limit base (n + 1) t.value = .ok (some t'.value) := by
    intro l cs n t hl hget
    have hsub := (preorder_sublist (node_mem_subtrees hl)).length_le
    obtain ⟨t', inner', hl', hrev, hbel⟩ := lastBelow_spec h hlimit hl
      (show l.preorder.length ≤ limit by omega)
    refine ⟨t', inner', hl', hrev, ?_⟩
    rw [nextNodePreceding, hget]
    dsimp only
    rw [hbel]
    rfl
  cases inner with
  | cons c inner =>
    right
    obtain ⟨ls, a, rs⟩ := c
    cases ls with
    | cons l ls =>
      have hloc : rebuild ⟨l, ⟨ls, a, t :: rs⟩ :: (inner ++ up)⟩ = doc := by
        rw [← rebuild_move]
        exact hl
      obtain ⟨t', inner', hl', hrev, hnext⟩ := hleft hloc (h.getLeft_some hl)
      refine ⟨t', inner' ++ ⟨ls, a, t :: rs⟩ :: inner, up, ?_, hup, ?_, hnext⟩
      · rw [append_assoc]
        exact hl'
      · simp [unwind, hrev]
    | nil =>
      have hplug : rebuild ⟨plug ⟨[], a, rs⟩ t, inner ++ up⟩ = doc := hl
      have ha : a ∈ doc.preorder := mem_preorder hplug
      have hnot : st.nidCmpEffective a base ≠ -2 := by
        rw [Ne, h.effective_eq_neg_two_iff ha hbase]
        exact hrest a (by simp [unwind])
      refine ⟨plug ⟨[], a, rs⟩ t, inner, up, hplug, hup, by simp [unwind, plug], ?_⟩
      rw [nextNodePreceding, h.getLeft_none hl, h.getActualParent_some hl]
      dsimp only
      rw [if_pos hnot]
      rfl
  | nil =>
    -- the way up is climbed until there is a subtree on its left
    induction up generalizing t n with
    | nil =>
      left
      rw [nextNodePreceding, h.getLeft_root hl, h.getActualParent_root hl]
      exact ⟨rfl, rfl⟩
    | cons c up ih =>
      obtain ⟨ls, a, rs⟩ := c
      cases ls with
      | cons l ls =>
        right
        have hloc : rebuild ⟨l, ⟨ls, a, t :: rs⟩ :: up⟩ = doc := by
          rw [← rebuild_move]
          exact hl
        obtain ⟨t', inner', hl', hrev, hnext⟩ := hleft hloc (h.getLeft_some hl)
        refine ⟨t', inner', ⟨ls, a, t :: rs⟩ :: up, hl', ?_, ?_, hnext⟩
        · exact forall_mem_cons.2 ⟨hup ⟨l :: ls, a, rs⟩ mem_cons_self, (forall_mem_cons.1 hup).2⟩
        · simp only [aside, flatMap_cons, hrev, cons_append, append_assoc]
          rfl
      | nil =>
        have hplug : rebuild ⟨plug ⟨[], a, rs⟩ t, up⟩ = doc := hl
        have ha : a ∈ doc.preorder := mem_preorder hplug
        have hyes : st.nidCmpEffective a base = -2 := by
          rw [h.effective_eq_neg_two_iff ha hbase]
          exact hup ⟨[], a, rs⟩ mem_cons_self
        rw [length_cons] at hn
        obtain _ | n := n
        · omega
        rw [nextNodePreceding, h.getLeft_none hl, h.getActualParent_some hl]
        dsimp only
        rw [if_neg (by simp [hyes])]
        exact ih (forall_mem_cons.1 hup).2 n (by omega) hplug hrest

theorem walk_preceding (hstep : step.nextNodeProc = some .preceding) {base : α}
    (hbase : base ∈ doc.preorder)
    {up : List (Crumb α)} (hl : rebuild ⟨t, inner ++ up⟩ = doc)
    (hup : ∀ c ∈ up, Descendant doc c.value base)
    (hrest : ∀ y ∈ unwind inner ++ aside up, ¬ Descendant doc y base)
    (hhint : hint.baseNode = some base) :
    Walk st step limit t.value hint (unwind inner ++ aside up) hint := by
  induction hm : (unwind inner ++ aside up).length using Nat.strong_induction_on
    generalizing t inner up with
  | _ m ih =>
    subst hm
    have hrounds : up.length < limit := by
      have hlt := length_crumbs_lt hl
      rw [length_append] at hlt
      omega
    have hnext : nextNode st step limit t.value hint =
        (nextNodePreceding st limit base limit t.value).map fun x => (x, hint) := by
      rw [nextNode, hstep]
      rw [hhint]
      rfl
    rcases nextNodePreceding_spec h hlimit hbase hl hup hrest hrounds with
      ⟨hnil, hnone⟩ | ⟨t', inner', up', hl', hup', hcons, hsome⟩
    · rw [hnil]
      exact .stop (by rw [hnext, hnone]; rfl)
    · rw [hcons] at ih hrest ⊢
      refine .move (by rw [hnext, hsome]; rfl) rfl ?_
      exact ih _ (by simp) hl' hup' (forall_mem_cons.1 hrest).2 rfl

theorem visits_preceding (heval : step.evaluateAxisProc = .resolvePreceding)
    (hstep : step.nextNodeProc = some .preceding) (hl : rebuild ⟨t, cs⟩ = doc)
    (hint : AxisHints α) :
    Visits st step limit t.value hint (aside cs) { hint with baseNode := some t.value } := by
  have hup : ∀ c ∈ cs, Descendant doc c.value t.value := by
    intro c hc
    rw [descendant_value_iff hl h.nodup]
    exact mem_map_of_mem hc
  have hrest : ∀ y ∈ unwind [] ++ aside cs, ¬ Descendant doc y t.value := by
    intro y hy
    exact ((preceding_iff hl h.nodup).2 hy).2
  have hrounds : cs.length < limit := (length_crumbs_lt hl).trans hlimit
  have hfst : evaluateAxis st step limit t.value { hint with baseNode := some t.value } =
      (nextNodePreceding st limit t.value limit t.value).map fun x =>
        (x, { hint with baseNode := some t.value }) := by
    rw [evaluateAxis, heval]
    rfl
  rcases nextNodePreceding_spec h hlimit (mem_preorder hl) hl hup hrest hrounds with
    ⟨hnil, hnone⟩ | ⟨t', inner', up', hl', hup', hcons, hsome⟩
  · have hnil : aside cs = [] := hnil
    rw [hnil]
    exact .nothing (by rw [hfst, hnone]; rfl)
  · have hcons : aside cs = t'.value :: (unwind inner' ++ aside up') := hcons
    rw [hcons]
    refine .start (by rw [hfst, hsome]; rfl) rfl ?_
    refine walk_preceding h hlimit hstep (mem_preorder hl) hl' hup' ?_ rfl
    intro y hy
    refine hrest y ?_
    rw [hcons]
    exact mem_cons_of_mem _ hy

end

/-! ## All descendants -/

/-- The children that `getFirstChildByTypeMask` passes over. -/
def skipped (st : NodeStore α) (mask : TypeMask) (node : α) : Bool := st.nodeType node ∉ mask

def rightsOf (st : NodeStore α) (mask : TypeMask) (inner : List (Crumb α)) : List α :=
  inner.flatMap fun c => c.rights.flatMap (Tree.pruned (skipped st mask))

structure Compares (mask : TypeMask) : Prop where
  single : mask ∩ tiSingletonElement ≠ mask
  valid : mask ∪ {.document} ≠ tiAllValid

/-- The loop of `nextNode_traverseAll`.  The way up to the base node is on the stack, with or
without the base node itself. -/
theorem nextOrUp_spec {mask : TypeMask} (hbase : rebuild ⟨tb, outer⟩ = doc)
    (hl : rebuild ⟨t, inner⟩ = tb) (hhint : hint.baseNode = some tb.value) {bottom : List α}
    (hstack : inner.map Crumb.value = hint.nodeStackStorage ++ bottom)
    (hbottom : bottom = [] ∨ bottom = [tb.value]) (hn : inner.length + 1 < n) :
    (rightsOf st mask inner = [] ∧
      nextOrUp st n (some t.value) hint = .ok (none, { hint with nodeStackStorage := [] })) ∨
    ∃ t' inner' stack', rebuild ⟨t', inner'⟩ = tb ∧
      rightsOf st mask inner = pruned (skipped st mask) t' ++ rightsOf st mask inner' ∧
      inner'.map Crumb.value = stack' ++ bottom ∧
      nextOrUp st n (some t.value) hint =
        .ok (some t'.value, { hint with nodeStackStorage := stack' }) := by
  induction inner generalizing t n hint with
  | nil =>
    left
    obtain _ | n := n
    · omega
    have htb : t = tb := hl
    have hempty : hint.nodeStackStorage = [] := by
      exact (append_eq_nil_iff.1 hstack.symm).1
    rw [nextOrUp, if_pos (by rw [hhint, htb])]
    exact ⟨rfl, by rw [← hempty]⟩
  | cons c inner ih =>
    obtain ⟨ls, a, rs⟩ := c
    rw [length_cons] at hn
    obtain _ | n := n
    · omega
    have hloc : rebuild ⟨t, ⟨ls, a, rs⟩ :: (inner ++ outer)⟩ = doc := by
      rw [← cons_append, rebuild_append, hl, hbase]
    have hne : some t.value ≠ hint.baseNode := by
      rw [hhint, Ne, Option.some.injEq]
      intro heq
      have habove : tb.value ∈ (⟨ls, a, rs⟩ :: (inner ++ outer) : List (Crumb α)).map
          Crumb.value := by
        have hmem := @value_rebuild α t (⟨ls, a, rs⟩ :: inner) (by simp)
        rw [hl] at hmem
        rw [← cons_append, map_append]
        exact mem_append_left _ hmem
      have hbel := (descendant_value_iff hloc h.nodup).2 habove
      rw [heq] at hbel
      exact h.not_descendant_self tb.value hbel
    rw [nextOrUp, if_neg hne]
    cases rs with
    | cons r rs =>
      right
      refine ⟨r, ⟨t :: ls, a, rs⟩ :: inner, hint.nodeStackStorage, ?_, ?_, hstack, ?_⟩
      · rw [rebuild_move]
        exact hl
      · simp [rightsOf]
      · rw [h.getRight_some hloc]
    | nil =>
      have hplug : rebuild ⟨plug ⟨ls, a, []⟩ t, inner⟩ = tb := hl
      have hskip : rightsOf st mask (⟨ls, a, []⟩ :: inner) = rightsOf st mask inner := rfl
      rw [h.getRight_none hloc]
      rw [map_cons] at hstack
      cases hst : hint.nodeStackStorage with
      | nil =>
        -- the stack ends above the children of the base node
        left
        rw [hst] at hstack
        have hinner : inner = [] := by
          rcases hbottom with rfl | rfl
          · cases hstack
          · exact map_eq_nil_iff.1 (cons.inj hstack).2
        obtain _ | n := n
        · omega
        rw [nodeStackPop, hst, hinner]
        dsimp only
        rw [nextOrUp]
        exact ⟨rfl, by rw [← hst]⟩
      | cons top stack =>
        rw [hst, cons_append, cons.injEq] at hstack
        obtain ⟨rfl, hstack⟩ := hstack
        rw [nodeStackPop, hst]
        exact ih hplug hhint hstack (by omega)

theorem walk_traverseAll (hstep : step.nextNodeProc = some .traverseAll)
    (hmask : Compares step.childTypeMask) (hlimit : doc.preorder.length + 1 < limit)
    (hbase : rebuild ⟨tb, outer⟩ = doc) (hl : rebuild ⟨t, inner⟩ = tb)
    (hhint : hint.baseNode = some tb.value) {bottom : List α}
    (hstack : inner.map Crumb.value = hint.nodeStackStorage ++ bottom)
    (hbottom : bottom = [] ∨ bottom = [tb.value]) :
    Walk st step limit t.value hint
      (Tree.prunedForest (skipped st step.childTypeMask) false t.children ++
        rightsOf st step.childTypeMask inner) { hint with nodeStackStorage := [] } := by
  induction hm : (prunedForest (skipped st step.childTypeMask) false t.children ++
      rightsOf st step.childTypeMask inner).length using Nat.strong_induction_on
    generalizing t inner hint with
  | _ m ih =>
    subst hm
    obtain ⟨a, ts⟩ := t
    rw [children_node] at *
    have hloc : rebuild ⟨.node a ts, inner ++ outer⟩ = doc := by rw [rebuild_append, hl, hbase]
    have hch : (if st.nodeType a ∈ ({.element, .document} : TypeMask) then
        st.getFirstChildByTypeMask a step.childTypeMask else none) =
        (ts.map Tree.value).find? fun y => st.nodeType y ∈ step.childTypeMask := by
      split
      · exact h.getFirstChildByTypeMask_eq hloc hmask.single hmask.valid
      next hleaf =>
        have hnil : ts = [] := by
          by_contra hne
          rcases h.inner _ (node_mem_subtrees hloc) hne with htype | htype
          · exact hleaf (by rw [show st.nodeType a = .element from htype]; decide)
          · exact hleaf (by rw [show st.nodeType a = .document from htype]; decide)
        rw [hnil]
        rfl
    have hnext : nextNode st step limit a hint = nextNodeTraverseAll st step limit a hint := by
      rw [nextNode, hstep]
    rw [nextNodeTraverseAll, hch] at hnext
    cases hfind : (ts.map Tree.value).find? fun y => st.nodeType y ∈ step.childTypeMask with
    | some y =>
      obtain ⟨hy, ps, qs, hts, hps⟩ := find?_eq_some_iff_append.1 hfind
      obtain ⟨ls, rest, rfl, rfl, hrest⟩ := map_eq_append_iff.1 hts
      obtain ⟨c, rs, rfl, rfl, rfl⟩ := map_eq_cons_iff.1 hrest
      have hls : ∀ l ∈ ls, skipped st step.childTypeMask l.value = true := by
        intro l hlmem
        simpa [skipped] using hps l.value (mem_map_of_mem hlmem)
      have hc : skipped st step.childTypeMask c.value = false := by simpa [skipped] using hy
      have hinner : rebuild ⟨c, ⟨ls.reverse, a, rs⟩ :: inner⟩ = tb := child_rebuild hl rfl
      have hremaining : prunedForest (skipped st step.childTypeMask) false
          (ls ++ c :: rs) ++ rightsOf st step.childTypeMask inner =
          c.value :: (prunedForest (skipped st step.childTypeMask) false c.children ++
            rightsOf st step.childTypeMask (⟨ls.reverse, a, rs⟩ :: inner)) := by
        rw [prunedForest_false_append hls hc, flatMap_cons, pruned_eq]
        simp [rightsOf]
      rw [hfind] at hnext
      rw [hremaining] at ih ⊢
      refine .move hnext rfl ?_
      exact ih _ (by simp) hinner hhint (congrArg (a :: ·) hstack) rfl
    | none =>
      have hnil : prunedForest (skipped st step.childTypeMask) false ts = [] := by
        apply prunedForest_false_nil
        intro t ht
        have hnone := find?_eq_none.1 hfind t.value (mem_map_of_mem ht)
        simpa [skipped] using hnone
      have hrounds : inner.length + 1 < limit := by
        have hlt := length_crumbs_lt hloc
        rw [length_append] at hlt
        omega
      rw [hfind] at hnext
      rw [hnil] at ih ⊢
      rcases nextOrUp_spec h hbase hl hhint hstack hbottom hrounds with
        ⟨hnone, hup⟩ | ⟨t', inner', stack', hl', hremaining, hstack', hup⟩
      · rw [hnone]
        exact .stop (hnext.trans hup)
      · rw [hremaining, pruned_eq] at ih ⊢
        refine .move (hnext.trans hup) rfl ?_
        exact ih _ (by simp) hl' hhint hstack' rfl

variable (hstep : step.nextNodeProc = some .traverseAll) (hmask : Compares step.childTypeMask)
  (hlimit : doc.preorder.length + 1 < limit) (hl : rebuild ⟨tb, outer⟩ = doc)
  (hclr : Cleared hint)
include hstep hmask hlimit hl hclr

theorem visits_self (heval : step.evaluateAxisProc = .resolveSelf) :
    Visits st step limit tb.value hint (pruned (skipped st step.childTypeMask) tb)
      { hint with baseNode := some tb.value } := by
  have hempty : ({ hint with baseNode := some tb.value } : AxisHints α).nodeStackStorage = [] :=
    hclr.2
  rw [pruned_eq]
  refine .start (by rw [evaluateAxis, heval]) rfl ?_
  have hwalk := walk_traverseAll h hstep hmask hlimit hl rfl
    (show ({ hint with baseNode := some tb.value } : AxisHints α).baseNode = some tb.value from rfl)
    (show ([] : List (Crumb α)).map Crumb.value = _ ++ [] by rw [hempty]; rfl) (.inl rfl)
  rw [← hempty, rightsOf, flatMap_nil, append_nil] at hwalk
  exact hwalk

theorem visits_childFirst (heval : step.evaluateAxisProc = .resolveChildFirst) :
    Visits st step limit tb.value hint
      (tb.children.flatMap (Tree.pruned (skipped st step.childTypeMask)))
      { hint with baseNode := some tb.value } := by
  have hempty : ({ hint with baseNode := some tb.value } : AxisHints α).nodeStackStorage = [] :=
    hclr.2
  obtain ⟨a, ts⟩ := tb
  have hfst := h.getFirstChild_eq hl
  have hevaluate : evaluateAxis st step limit a { hint with baseNode := some a } =
      .ok (ts.head?.map Tree.value, { hint with baseNode := some a }) := by
    rw [evaluateAxis, heval]
    rw [hfst]
  rw [children_node] at *
  cases ts with
  | nil => exact .nothing hevaluate
  | cons c ts =>
    rw [flatMap_cons, pruned_eq]
    refine .start hevaluate rfl ?_
    have hwalk := walk_traverseAll h hstep hmask hlimit hl
      (show rebuild ⟨c, [⟨[], a, ts⟩]⟩ = .node a (c :: ts) from rfl)
      (show ({ hint with baseNode := some a } : AxisHints α).baseNode = some a from rfl)
      (show ([⟨[], a, ts⟩] : List (Crumb α)).map Crumb.value = _ ++ [a] by rw [hempty]; rfl)
      (.inr rfl)
    rw [← hempty, rightsOf, flatMap_cons, flatMap_nil, append_nil] at hwalk
    exact hwalk

end

end Sedna.XPath.AxisStep
