import Sedna.XPath.NodeStore

/-!
# Capacity of node blocks

The free lists that `clearNodeBlock` links into an empty block and the
capacity that `getBlockCapacity` computes.  A list of shifts stands for a list
linked inside the block.
-/

namespace Sedna.Mo.BlockCapacity

def pageSize : Nat := 65536

def xptrSize : Nat := 8

structure NodeBlock where
  sz : Nat
  dscSize : Nat
  count : Nat
  indirCount : Nat
  free : List Nat
  freeIndir : List Nat

/-- The loop of `clearNodeBlock`: the places that it links for descriptors and records. -/
def link (dscSize descp desci : Nat) : List (Nat × Nat) :=
  if descp + 2 * dscSize < desci - xptrSize then
    (descp, desci) :: link dscSize (descp + dscSize) (desci - xptrSize)
  else [(descp, desci)]
termination_by desci
decreasing_by simp only [xptrSize] at *; omega

variable (block : NodeBlock)

def clearNodeBlock : NodeBlock :=
  let places := link block.dscSize block.sz (pageSize - xptrSize)
  { block with
    count := 0
    indirCount := 0
    free := places.map Prod.fst
    freeIndir := places.map Prod.snd }

def initNodeBlock (sz dscSize : Nat) : NodeBlock := clearNodeBlock ⟨sz, dscSize, 0, 0, [], []⟩

def getBlockCapacity : Nat := (pageSize - block.sz) / (block.dscSize + xptrSize)

/-- `canAcceptNodes` of a block that is there; `splitBlock` moves no more nodes than this. -/
def canAcceptNodes (descSize : Nat) : Int :=
  if block.dscSize ≥ descSize then getBlockCapacity block - block.count else 0

/-- `nodeListInsertCP`.  It has no node to return where `free_first` is 0. -/
def nodeListInsertCP : Option NodeBlock :=
  match block.free with
  | [] => none
  | _ :: free => some { block with count := block.count + 1, free := free }

def nodeListDeleteCP (node : Nat) : NodeBlock :=
  { block with count := block.count - 1, free := node :: block.free }

def shiftManyNodesPaste : Nat → NodeBlock → Option NodeBlock
  | 0, block => some block
  | n + 1, block => (nodeListInsertCP block).bind (shiftManyNodesPaste n)

def widenBlockDescriptor (block : NodeBlock) (newDscSize : Nat) : Option NodeBlock :=
  shiftManyNodesPaste block.count (clearNodeBlock { block with dscSize := newDscSize })

/-- The test of `widenDescriptor`; the one of `tryWidenSingleBlock` only adds to it. -/
def canWiden (block : NodeBlock) (newDscSize : Nat) : Bool :=
  max block.count block.indirCount * (newDscSize + xptrSize) ≤ pageSize - block.sz

/-- The blocks that insertions and deletions make of an empty one. -/
inductive Built (sz dscSize : Nat) : NodeBlock → Prop
  | init : Built sz dscSize (initNodeBlock sz dscSize)
  | insert {block block' : NodeBlock} : Built sz dscSize block →
      nodeListInsertCP block = some block' → Built sz dscSize block'
  | delete {block : NodeBlock} (node : Nat) : Built sz dscSize block → 0 < block.count →
      Built sz dscSize (nodeListDeleteCP block node)

variable {sz dscSize : Nat}

theorem length_link {space : Nat} (descp desci : Nat) (h : descp + space = desci + xptrSize) :
    (link dscSize descp desci).length = max 1 ((space - 1) / (dscSize + xptrSize)) := by
  have hpos : 0 < dscSize + xptrSize := Nat.succ_pos _
  fun_induction link dscSize descp desci generalizing space with
  | case1 descp desci hlt ih =>
    have hrest : descp + dscSize + (space - (dscSize + xptrSize)) =
        desci - xptrSize + xptrSize := by omega
    have hdiv := Nat.div_eq_sub_div hpos (show dscSize + xptrSize ≤ space - 1 by omega)
    have hone : 1 ≤ (space - (dscSize + xptrSize) - 1) / (dscSize + xptrSize) :=
      (Nat.one_le_div_iff hpos).2 (by omega)
    rw [Nat.sub_right_comm] at hdiv
    rw [List.length_cons, ih hrest, hdiv, max_eq_right hone, max_eq_right (Nat.le_add_left 1 _)]
  | case2 descp desci hge =>
    have hfew : (space - 1) / (dscSize + xptrSize) < 2 := by
      rw [Nat.div_lt_iff_lt_mul hpos]
      omega
    exact (max_eq_left (Nat.lt_succ_iff.1 hfew)).symm

theorem Built.count_add_length {block : NodeBlock} (h : Built sz dscSize block) :
    block.sz = sz ∧ block.dscSize = dscSize ∧
      block.count + block.free.length = (initNodeBlock sz dscSize).free.length := by
  induction h with
  | init => exact ⟨rfl, rfl, Nat.zero_add _⟩
  | @insert block block' _ hins ih =>
    unfold nodeListInsertCP at hins
    split at hins
    · cases hins
    next hfree =>
      cases hins
      rw [hfree, List.length_cons] at ih
      exact ⟨ih.1, ih.2.1, by simp only; omega⟩
  | delete node _ hpos ih =>
    refine ⟨ih.1, ih.2.1, ?_⟩
    simp only [nodeListDeleteCP, List.length_cons]
    omega

theorem shiftManyNodesPaste_isSome_iff (n : Nat) (block : NodeBlock) :
    (shiftManyNodesPaste n block).isSome ↔ n ≤ block.free.length := by
  induction n generalizing block with
  | zero => simp [shiftManyNodesPaste]
  | succ n ih =>
    rw [shiftManyNodesPaste, nodeListInsertCP]
    cases hfree : block.free with
    | nil => simp
    | cons node free => simp [ih]

theorem max_div_eq_div_iff {m space : Nat} (hm : 0 < m) (hroom : m ≤ space) :
    max 1 ((space - 1) / m) = space / m ↔ (m ∣ space → m = space) := by
  obtain ⟨a, rfl⟩ : ∃ a, space = a + 1 := ⟨space - 1, by omega⟩
  have hone : 1 ≤ (a + 1) / m := (Nat.one_le_div_iff hm).2 hroom
  have hzero : a / m = 0 ↔ a < m := Nat.div_eq_zero_iff_lt hm
  rw [Nat.succ_div] at hone ⊢
  split_ifs at hone ⊢ with hdvd
  · simp only [hdvd, forall_const, Nat.add_sub_cancel]
    omega
  · simp only [hdvd, false_imp_iff, iff_true, Nat.add_sub_cancel]
    omega

/-- The free lists of an empty block have the length of its capacity, and whatever was found to
fit finds free descriptors, unless a descriptor and its record divide the space of the block into
several equal parts. -/
theorem blockCapacity_iff (hroom : dscSize + xptrSize ≤ pageSize - sz) :
    ((initNodeBlock sz dscSize).free.length = getBlockCapacity (initNodeBlock sz dscSize) ∧
      (initNodeBlock sz dscSize).freeIndir.length = getBlockCapacity (initNodeBlock sz dscSize) ∧
      (∀ block, Built sz dscSize block → ∀ descSize (n : Nat), n ≤ canAcceptNodes block descSize →
        (shiftManyNodesPaste n block).isSome) ∧
      ∀ block, block.sz = sz → canWiden block dscSize →
        (widenBlockDescriptor block dscSize).isSome) ↔
    (dscSize + xptrSize ∣ pageSize - sz → dscSize + xptrSize = pageSize - sz) := by
  have hpos : 0 < dscSize + xptrSize := Nat.succ_pos _
  have hlink := @length_link dscSize (pageSize - sz) sz (pageSize - xptrSize)
    (by simp only [pageSize, xptrSize] at hroom ⊢; omega)
  have hfree : (initNodeBlock sz dscSize).free.length =
      max 1 ((pageSize - sz - 1) / (dscSize + xptrSize)) := (List.length_map _).trans hlink
  rw [← max_div_eq_div_iff hpos hroom, ← hfree]
  constructor
  · intro h
    exact h.1
  · intro heq
    have hindir : (initNodeBlock sz dscSize).freeIndir.length =
        (initNodeBlock sz dscSize).free.length := by simp [initNodeBlock, clearNodeBlock]
    refine ⟨heq, hindir.trans heq, ?_, ?_⟩
    · intro block hbuilt descSize n hn
      obtain ⟨rfl, rfl, hcount⟩ := hbuilt.count_add_length
      rw [shiftManyNodesPaste_isSome_iff]
      unfold canAcceptNodes getBlockCapacity at hn
      split_ifs at hn <;> omega
    · rintro block rfl hwiden
      rw [widenBlockDescriptor, shiftManyNodesPaste_isSome_iff]
      refine Nat.le_trans ?_ (Nat.le_of_eq heq.symm)
      rw [Nat.le_div_iff_mul_le hpos]
      exact Nat.le_trans (Nat.mul_le_mul_right _ (le_max_left _ _)) (of_decide_eq_true hwiden)

/-- Elements with three schema children, where the header has 168 bytes: an empty block takes the
778 nodes that it is found to take, and so does one that had room for two children. -/
theorem blockCapacity_iff_three : 76 + xptrSize ≤ pageSize - 168 ∧
    (initNodeBlock 168 76).free.length = 778 ∧ (initNodeBlock 168 76).freeIndir.length = 778 ∧
    (shiftManyNodesPaste 778 (initNodeBlock 168 76)).isSome ∧
    (widenBlockDescriptor ⟨168, 68, 778, 778, [], []⟩ 76).isSome := by
  obtain ⟨hfree, hindir, haccept, hwiden⟩ :=
    (@blockCapacity_iff 168 76 (by decide)).2 fun hdvd => absurd hdvd (by decide)
  exact ⟨by decide, hfree, hindir, haccept _ .init 76 778 le_rfl, hwiden _ rfl rfl⟩

-- 168 bytes is the header with pointers of eight bytes; elements have 52 and eight for each child
example : ∀ n ≤ 1024, ¬ 52 + 8 * n + xptrSize ∣ pageSize - 168 := by decide +kernel

/-- With pointers of four bytes the header has 160, and elements with 106 schema children take 900.
An empty block gets one place less than its capacity, so 72 narrower nodes are found to fit and
the last one finds no place. -/
theorem blockCapacity_too_large :
    (initNodeBlock 160 900).free.length = 71 ∧ getBlockCapacity (initNodeBlock 160 900) = 72 ∧
      canWiden ⟨160, 892, 72, 72, [], []⟩ 900 = true ∧
      (widenBlockDescriptor ⟨160, 892, 72, 72, [], []⟩ 900).isSome = false := by
  have hlen : (initNodeBlock 160 900).free.length = 71 :=
    (List.length_map _).trans (@length_link 900 65376 160 (pageSize - xptrSize) rfl)
  refine ⟨hlen, rfl, rfl, ?_⟩
  rw [Bool.eq_false_iff, ne_eq, widenBlockDescriptor, shiftManyNodesPaste_isSome_iff]
  exact fun h => absurd (h.trans_eq hlen) (by decide)

end Sedna.Mo.BlockCapacity
