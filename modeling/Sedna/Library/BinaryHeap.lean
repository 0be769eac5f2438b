import Mathlib.Data.List.Perm.Basic
import Mathlib.Data.List.Nodup
import Mathlib.Data.List.Range
import Mathlib.Data.List.Perm.Lattice
import Mathlib.Logic.Equiv.Basic
import Mathlib.Tactic.Common

/-!
# Binary heaps in an array

The items stand at the positions `1, …, size`; the children of position `x` are `2 * x` and `2 * x
+ 1`.  The order `lt` is only assumed on the items that satisfy `P`, where it is a strict weak
order.
-/

namespace Sedna.Library.BinaryHeap

open List

variable {α : Type*} {a : α} {k : Nat}

structure Heap (α : Type*) where
  size : Nat
  item : Nat → α

variable {h : Heap α} {x : Nat}

namespace Heap

def swap (h : Heap α) (x y : Nat) : Heap α :=
  { h with item := fun i => if i = x then h.item y else if i = y then h.item x else h.item i }

def toList (h : Heap α) : List α := (List.range h.size).map fun i => h.item (i + 1)

section

variable (lt : α → α → Bool)

def siftUp (h : Heap α) (x : Nat) : Heap α :=
  if 0 < x / 2 ∧ lt (h.item x) (h.item (x / 2)) then siftUp (h.swap x (x / 2)) (x / 2) else h
termination_by x
decreasing_by omega

def pick (h : Heap α) (x c : Nat) : Nat :=
  if c ≤ h.size ∧ lt (h.item c) (h.item x) then c else x

def smallest (h : Heap α) (x : Nat) : Nat := h.pick lt (h.pick lt x (2 * x)) (2 * x + 1)

theorem pick_eq (h : Heap α) (x c : Nat) : h.pick lt x c = x ∨ h.pick lt x c = c ∧ c ≤ h.size := by
  unfold pick
  split
  · rename_i hc
    exact .inr ⟨rfl, hc.1⟩
  · exact .inl rfl

theorem smallest_eq (h : Heap α) (x : Nat) :
    h.smallest lt x = x ∨
      (h.smallest lt x = 2 * x ∨ h.smallest lt x = 2 * x + 1) ∧ h.smallest lt x ≤ h.size := by
  have hleft := h.pick_eq lt x (2 * x)
  have hright := h.pick_eq lt (h.pick lt x (2 * x)) (2 * x + 1)
  unfold smallest
  omega

def siftDown (h : Heap α) (x : Nat) : Heap α :=
  if h.smallest lt x ≠ x then siftDown (h.swap x (h.smallest lt x)) (h.smallest lt x) else h
termination_by h.size + 1 - x
decreasing_by
  have hsmallest := h.smallest_eq lt x
  simp only [swap]
  omega

def push (h : Heap α) (a : α) : Heap α :=
  siftUp lt ⟨h.size + 1, fun i => if i = h.size + 1 then a else h.item i⟩ (h.size + 1)

/-- What is left when the first item is taken: the last one sinks from its place. -/
def pop (h : Heap α) : Heap α :=
  siftDown lt ⟨h.size - 1, fun i => if i = 1 then h.item h.size else h.item i⟩ 1

def siftAll (h : Heap α) : Nat → Heap α
  | 0 => h
  | n + 1 => siftAll (siftDown lt h (n + 1)) n

def build (h : Heap α) : Heap α := siftAll lt h (h.size / 2)

end

/-! ## The items that a heap holds -/

theorem mem_toList : a ∈ h.toList ↔ ∃ i, 1 ≤ i ∧ i ≤ h.size ∧ h.item i = a := by
  simp only [toList, mem_map, mem_range]
  constructor
  · intro ⟨i, hi, ha⟩
    exact ⟨i + 1, by omega, by omega, ha⟩
  · intro ⟨i, hpos, hi, ha⟩
    exact ⟨i - 1, by omega, by rwa [Nat.sub_add_cancel hpos]⟩

theorem item_mem {i : Nat} (hi : 1 ≤ i) (hi' : i ≤ h.size) : h.item i ∈ h.toList :=
  mem_toList.2 ⟨i, hi, hi', rfl⟩

theorem swap_item (h : Heap α) (x y i : Nat) : (h.swap x y).item i = h.item (Equiv.swap x y i) := by
  simp only [swap, Equiv.swap_apply_def]
  split_ifs <;> rfl

theorem perm_swap_positions {n y : Nat} (hx : x < n) (hy : y < n) :
    (List.range n).map (Equiv.swap x y) ~ List.range n := by
  apply (perm_ext_iff_of_nodup (nodup_range.map (Equiv.injective _))
    nodup_range).2
  intro i
  simp only [mem_map, mem_range]
  constructor
  · intro ⟨j, hj, hji⟩
    rw [← hji, Equiv.swap_apply_def]
    split_ifs <;> assumption
  · intro hi
    refine ⟨Equiv.swap x y i, ?_, Equiv.swap_apply_self x y i⟩
    rw [Equiv.swap_apply_def]
    split_ifs <;> assumption

theorem toList_swap {y : Nat} (hx : 1 ≤ x) (hx' : x ≤ h.size) (hy : 1 ≤ y) (hy' : y ≤ h.size) :
    (h.swap x y).toList ~ h.toList := by
  have hshift : ∀ i, (h.swap x y).item (i + 1) = h.item (Equiv.swap (x - 1) (y - 1) i + 1) := by
    intro i
    rw [swap_item, Equiv.swap_apply_def, Equiv.swap_apply_def]
    congr 1
    split_ifs <;> omega
  have hperm : (range h.size).map (Equiv.swap (x - 1) (y - 1)) ~ range h.size :=
    perm_swap_positions (by omega) (by omega)
  have hmap := hperm.map fun i => h.item (i + 1)
  rw [map_map] at hmap
  simp only [toList, hshift]
  exact hmap

section

variable (lt : α → α → Bool)

theorem siftUp_perm (h : Heap α) (x : Nat) (hx : x ≤ h.size) :
    (h.siftUp lt x).size = h.size ∧ (h.siftUp lt x).toList ~ h.toList := by
  fun_induction siftUp lt h x with
  | case1 h x hup ih =>
    obtain ⟨hsize, hperm⟩ := ih (by simp only [swap]; omega)
    exact ⟨hsize, hperm.trans (toList_swap (by omega) hx (by omega) (by omega))⟩
  | case2 h x _ => exact ⟨rfl, .refl _⟩

theorem siftDown_perm (h : Heap α) (x : Nat) (hx : 1 ≤ x) :
    (h.siftDown lt x).size = h.size ∧ (h.siftDown lt x).toList ~ h.toList := by
  fun_induction siftDown lt h x with
  | case1 h x hdown ih =>
    have hsmallest := h.smallest_eq lt x
    obtain ⟨hsize, hperm⟩ := ih (by omega)
    exact ⟨hsize, hperm.trans (toList_swap hx (by omega) (by omega) (by omega))⟩
  | case2 h x _ => exact ⟨rfl, .refl _⟩

theorem siftAll_perm (h : Heap α) (n : Nat) :
    (h.siftAll lt n).size = h.size ∧ (h.siftAll lt n).toList ~ h.toList := by
  induction n generalizing h with
  | zero => exact ⟨rfl, .refl _⟩
  | succ n ih =>
    obtain ⟨hsize, hperm⟩ := siftDown_perm lt h (n + 1) (by omega)
    obtain ⟨hsize', hperm'⟩ := ih (siftDown lt h (n + 1))
    exact ⟨hsize'.trans hsize, hperm'.trans hperm⟩

end

/-! ## The order along the parents -/

/-- On the items that satisfy `P`, being before is a strict weak order. -/
structure WeakOrder (P : α → Prop) (lt : α → α → Bool) : Prop where
  asymm : ∀ {a b}, P a → P b → lt a b = true → lt b a = false
  trans : ∀ {a b c}, P a → P b → P c → lt a b = false → lt b c = false → lt a c = false

theorem WeakOrder.irrefl {P : α → Prop} {lt : α → α → Bool} (ord : WeakOrder P lt) (ha : P a) :
    lt a a = false := by
  by_contra hne
  have hlt : lt a a = true := by simpa using hne
  exact hne (ord.asymm ha ha hlt)

/-- No item is before its parent, where the parent's position is at least `k`. -/
def OrderedFrom (lt : α → α → Bool) (k : Nat) (h : Heap α) : Prop :=
  ∀ i, 2 ≤ i → i ≤ h.size → k ≤ i / 2 → lt (h.item i) (h.item (i / 2)) = false

def Ordered (lt : α → α → Bool) (h : Heap α) : Prop := OrderedFrom lt 1 h

/-- The order with a gap at `x`, whose item may be after its children. -/
structure DownOrder (lt : α → α → Bool) (k x : Nat) (h : Heap α) : Prop where
  except : ∀ i, 2 ≤ i → i ≤ h.size → k ≤ i / 2 → i / 2 ≠ x → lt (h.item i) (h.item (i / 2)) = false
  grand : ∀ i, i ≤ h.size → i / 2 = x → k ≤ x / 2 → 1 ≤ x / 2 →
    lt (h.item i) (h.item (x / 2)) = false

/-- The order with a gap at `x`, whose item may be before its parent. -/
structure UpOrder (lt : α → α → Bool) (x : Nat) (h : Heap α) : Prop where
  except : ∀ i, 2 ≤ i → i ≤ h.size → i ≠ x → lt (h.item i) (h.item (i / 2)) = false
  grand : ∀ i, i ≤ h.size → i / 2 = x → 1 ≤ x / 2 → lt (h.item i) (h.item (x / 2)) = false

section

variable {P : α → Prop} {lt : α → α → Bool} (ord : WeakOrder P lt)
include ord

theorem pick_spec {c : Nat} (hx : P (h.item x)) (hc : c ≤ h.size → P (h.item c)) :
    P (h.item (h.pick lt x c)) ∧ lt (h.item x) (h.item (h.pick lt x c)) = false ∧
      (c ≤ h.size → lt (h.item c) (h.item (h.pick lt x c)) = false) := by
  unfold pick
  split
  · rename_i hlt
    exact ⟨hc hlt.1, ord.asymm (hc hlt.1) hx hlt.2, fun h => ord.irrefl (hc h)⟩
  · rename_i hlt
    refine ⟨hx, ord.irrefl hx, fun hsize => ?_⟩
    simpa [hsize] using hlt

theorem smallest_spec (hP : ∀ a ∈ h.toList, P a) (hx : 1 ≤ x)
    (hsize : x ≤ h.size) :
    lt (h.item x) (h.item (h.smallest lt x)) = false ∧
      ∀ i, i ≤ h.size → i / 2 = x → lt (h.item i) (h.item (h.smallest lt x)) = false := by
  have hPx := hP _ (item_mem hx hsize)
  obtain ⟨hP1, hself, hleft⟩ :=
    pick_spec ord hPx fun hch => hP (h.item (2 * x)) (item_mem (by omega) hch)
  obtain ⟨hP2, hfst, hright⟩ :=
    pick_spec ord hP1 fun hch => hP (h.item (2 * x + 1)) (item_mem (by omega) hch)
  refine ⟨ord.trans hPx hP1 hP2 hself hfst, ?_⟩
  intro i hi hch
  have hcases : i = 2 * x ∨ i = 2 * x + 1 := by omega
  cases hcases with
  | inl heq =>
    rw [heq] at hi ⊢
    exact ord.trans (hP _ (item_mem (by omega) hi)) hP1 hP2 (hleft hi) hfst
  | inr heq =>
    rw [heq] at hi ⊢
    exact hright hi

theorem DownOrder.move (o : DownOrder lt k x h) (hP : ∀ a ∈ h.toList, P a)
    (hx : 1 ≤ x) (hm : h.smallest lt x ≠ x) :
    DownOrder lt k (h.smallest lt x) (h.swap x (h.smallest lt x)) := by
  have hch := h.smallest_eq lt x
  obtain ⟨hself, hmin⟩ := smallest_spec ord hP hx (by omega)
  generalize h.smallest lt x = m at hm hch hself hmin
  constructor
  · intro i hi hsize hki hne
    simp only [swap] at hsize ⊢
    by_cases hix : i = x
    · rw [if_pos hix, if_neg (by omega), if_neg (by omega), hix]
      exact o.grand m (by omega) (by omega) (by omega) (by omega)
    rw [if_neg hix]
    by_cases him : i = m
    · rw [if_pos him, if_pos (by omega)]
      exact hself
    rw [if_neg him]
    by_cases hpx : i / 2 = x
    · rw [if_pos hpx]
      exact hmin i hsize hpx
    · rw [if_neg hpx, if_neg hne]
      exact o.except i hi hsize hki hpx
  · intro i hsize him hkm _
    simp only [swap] at hsize ⊢
    have hmx : m / 2 = x := by omega
    rw [if_neg (by omega), if_neg (by omega), if_pos hmx, ← him]
    exact o.except i (by omega) hsize (by omega) (by omega)

theorem DownOrder.finish (o : DownOrder lt k x h) (hP : ∀ a ∈ h.toList, P a)
    (hx : 1 ≤ x) (hm : h.smallest lt x = x) : OrderedFrom lt k h := by
  intro i hi hsize hki
  by_cases hpx : i / 2 = x
  · have hmin := (smallest_spec ord hP hx (by omega)).2 i hsize hpx
    rw [hm] at hmin
    rw [hpx]
    exact hmin
  · exact o.except i hi hsize hki hpx

theorem siftDown_ordered (o : DownOrder lt k x h) (hP : ∀ a ∈ h.toList, P a)
    (hx : 1 ≤ x) : OrderedFrom lt k (h.siftDown lt x) := by
  fun_induction siftDown lt h x with
  | case1 h x hdown ih =>
    have hch := h.smallest_eq lt x
    have hperm : (h.swap x (h.smallest lt x)).toList ~ h.toList :=
      toList_swap hx (by omega) (by omega) (by omega)
    exact ih (o.move ord hP hx hdown) (fun a ha => hP a (hperm.subset ha)) (by omega)
  | case2 h x hstop => exact o.finish ord hP hx (by simpa using hstop)

theorem UpOrder.move (o : UpOrder lt x h) (hP : ∀ a ∈ h.toList, P a)
    (hsize : x ≤ h.size) (hp : 0 < x / 2) (hlt : lt (h.item x) (h.item (x / 2)) = true) :
    UpOrder lt (x / 2) (h.swap x (x / 2)) := by
  have hPx : P (h.item x) := hP _ (item_mem (by omega) hsize)
  have hPp : P (h.item (x / 2)) := hP _ (item_mem (by omega) (by omega))
  have hback : lt (h.item (x / 2)) (h.item x) = false := ord.asymm hPx hPp hlt
  constructor
  · intro i hi hisize hne
    simp only [swap] at hisize ⊢
    by_cases hix : i = x
    · rw [if_pos hix, if_neg (by omega), if_pos (by omega)]
      exact hback
    rw [if_neg hix, if_neg hne]
    by_cases hpx : i / 2 = x
    · rw [if_pos hpx]
      exact o.grand i hisize hpx (by omega)
    rw [if_neg hpx]
    by_cases hpp : i / 2 = x / 2
    · rw [if_pos hpp]
      have hsib := o.except i hi hisize hix
      rw [hpp] at hsib
      exact ord.trans (hP _ (item_mem (by omega) hisize)) hPp hPx hsib hback
    · rw [if_neg hpp]
      exact o.except i hi hisize hix
  · intro i hisize hip hgrand
    simp only [swap] at hisize ⊢
    have hpar : lt (h.item (x / 2)) (h.item (x / 2 / 2)) = false :=
      o.except (x / 2) (by omega) (by omega) (by omega)
    have hpos : x / 2 / 2 ≠ x ∧ x / 2 / 2 ≠ x / 2 := by omega
    rw [if_neg hpos.1, if_neg hpos.2]
    by_cases hix : i = x
    · rw [if_pos hix]
      exact hpar
    · rw [if_neg hix, if_neg (by omega)]
      have hsib := o.except i (by omega) hisize hix
      rw [hip] at hsib
      have hPgrand := hP _ (item_mem hgrand (by omega))
      exact ord.trans (hP _ (item_mem (by omega) hisize)) hPp hPgrand hsib hpar

theorem siftUp_ordered (o : UpOrder lt x h) (hP : ∀ a ∈ h.toList, P a)
    (hsize : x ≤ h.size) : Ordered lt (h.siftUp lt x) := by
  fun_induction siftUp lt h x with
  | case1 h x hup ih =>
    have hperm : (h.swap x (x / 2)).toList ~ h.toList :=
      toList_swap (by omega) hsize hup.1 (by omega)
    exact ih (o.move ord hP hsize hup.1 hup.2) (fun a ha => hP a (hperm.subset ha))
      (by simp only [swap]; omega)
  | case2 h x hstop =>
    intro i hi hisize hki
    by_cases hix : i = x
    · rw [hix] at hki ⊢
      simpa [lt_of_lt_of_le Nat.zero_lt_one hki] using hstop
    · exact o.except i hi hisize hix

/-! ## The operations of a priority queue -/

theorem Ordered.first_le (ho : Ordered lt h) (hP : ∀ a ∈ h.toList, P a) :
    ∀ a ∈ h.toList, lt a (h.item 1) = false := by
  have hbound : ∀ i, 1 ≤ i → i ≤ h.size → lt (h.item i) (h.item 1) = false := by
    intro i
    induction i using Nat.strongRecOn with
    | ind i ih =>
      intro hi hsize
      have hfst : P (h.item 1) := hP _ (item_mem le_rfl (by omega))
      by_cases hone : i = 1
      · rw [hone]
        exact ord.irrefl hfst
      · have hpar := ih (i / 2) (by omega) (by omega) (by omega)
        exact ord.trans (hP _ (item_mem hi hsize)) (hP _ (item_mem (by omega) (by omega))) hfst
          (ho i (by omega) hsize (by omega)) hpar
  intro a ha
  obtain ⟨i, hi, hsize, rfl⟩ := mem_toList.1 ha
  exact hbound i hi hsize

theorem push_spec (ho : Ordered lt h) (hP : ∀ b ∈ h.toList, P b) (ha : P a) :
    Ordered lt (h.push lt a) ∧ (h.push lt a).toList ~ a :: h.toList := by
  have hlist : (⟨h.size + 1, fun i => if i = h.size + 1 then a else h.item i⟩ : Heap α).toList =
      h.toList ++ [a] := by
    simp only [toList, range_succ, map_append, map_cons, map_nil, if_pos]
    congr 1
    apply map_congr_left
    intro i hi
    have hi' := mem_range.1 hi
    rw [if_neg (by omega)]
  constructor
  · apply siftUp_ordered ord
    · constructor
      · intro i hi hsize hne
        dsimp only at hsize ⊢
        rw [if_neg hne, if_neg (by omega)]
        exact ho i hi (by omega) (by omega)
      · intro i hsize hch _
        dsimp only at hsize
        omega
    · rw [hlist]
      intro b hb
      cases mem_append.1 hb with
      | inl hold => exact hP b hold
      | inr hnew => rw [mem_singleton.1 hnew]; exact ha
    · exact le_rfl
  · have hperm := (siftUp_perm lt
      ⟨h.size + 1, fun i => if i = h.size + 1 then a else h.item i⟩ (h.size + 1) le_rfl).2
    rw [hlist] at hperm
    exact hperm.trans (perm_append_singleton a h.toList)

omit ord in
theorem toList_moveLast (hsize : 0 < h.size) :
    h.item 1 :: (⟨h.size - 1, fun i => if i = 1 then h.item h.size else h.item i⟩ : Heap α).toList ~
      h.toList := by
  have hswap : (h.swap 1 h.size).toList =
      (⟨h.size - 1, fun i => if i = 1 then h.item h.size else h.item i⟩ : Heap α).toList ++
        [h.item 1] := by
    obtain ⟨n, hn⟩ : ∃ n, h.size = n + 1 := ⟨h.size - 1, by omega⟩
    simp only [toList, swap, hn, range_succ, map_append, map_cons, map_nil, Nat.add_sub_cancel]
    congr 1
    · apply map_congr_left
      intro i hi
      have hi' := mem_range.1 hi
      split_ifs
      · rfl
      · omega
      · rfl
    · by_cases hzero : n = 0
      · simp [hzero]
      · rw [if_neg (by omega), if_pos trivial]
  have hperm := toList_swap (h := h) (x := 1) (y := h.size) le_rfl hsize hsize le_rfl
  rw [hswap] at hperm
  exact (perm_append_singleton _ _).symm.trans hperm

theorem pop_spec (ho : Ordered lt h) (hP : ∀ b ∈ h.toList, P b) (hsize : 0 < h.size) :
    Ordered lt (h.pop lt) ∧ h.item 1 :: (h.pop lt).toList ~ h.toList := by
  have hmoved := toList_moveLast hsize
  constructor
  · apply siftDown_ordered ord _ _ le_rfl
    · constructor
      · intro i hi hisize hki hne
        dsimp only at hisize ⊢
        rw [if_neg (by omega), if_neg hne]
        exact ho i hi (by omega) hki
      · intro i _ _ hk _
        omega
    · intro b hb
      exact hP b (hmoved.subset (mem_cons_of_mem _ hb))
  · have hperm := (siftDown_perm lt
      ⟨h.size - 1, fun i => if i = 1 then h.item h.size else h.item i⟩ 1 le_rfl).2
    exact (hperm.cons _).trans hmoved

theorem siftAll_ordered (n : Nat) (hP : ∀ a ∈ h.toList, P a) (ho : OrderedFrom lt (n + 1) h) :
    Ordered lt (h.siftAll lt n) := by
  induction n generalizing h with
  | zero => exact ho
  | succ n ih =>
    obtain ⟨_, hperm⟩ := siftDown_perm lt h (n + 1) (by omega)
    apply ih
    · intro a ha
      exact hP a (hperm.subset ha)
    · apply siftDown_ordered ord _ hP (by omega)
      constructor
      · intro i hi hisize hki hne
        exact ho i hi hisize (by omega)
      · intro i _ _ hk hgrand
        omega

theorem build_spec (hP : ∀ a ∈ h.toList, P a) :
    Ordered lt (h.build lt) ∧ (h.build lt).toList ~ h.toList := by
  refine ⟨siftAll_ordered ord _ hP ?_, (siftAll_perm lt h _).2⟩
  intro i _ hsize hki
  omega

end

end Heap

end Sedna.Library.BinaryHeap
