import Mathlib.Tactic.Ring
import Sedna.Sorting.BlockStreams

/-!
# Blocks of pointers

The pointers of an accumulator stand in a chain of blocks, each block but the last filled with
`SS_PTR_BLK_SIZE` of them.  `writeData` without splitting appends a pointer; when a block is
filled to its last byte, an empty block follows it.  `sortBlocks` sorts the pointers of each block
by their values with `std::sort`, which is assumed to sort by any strict weak order.
-/

namespace Sedna.Sorting

open Library.Lists List

/-! ## The number of pointers in a block -/

variable {n i b start : Nat} {p : DataPtr} {ps : List DataPtr}

namespace Layout

variable (L : Layout)

theorem ptrSize_le : L.ptrSize ≤ L.dataBlkSize := by
  have := L.ptr_fits
  unfold dataBlkSize
  omega

theorem ptrBlkSize_pos : 0 < L.ptrBlkSize := Nat.div_pos L.ptrSize_le L.ptrSize_pos

theorem ptrBlkSize_mul_le : L.ptrBlkSize * L.ptrSize ≤ L.dataBlkSize := Nat.div_mul_le_self _ _

variable {L}

theorem eq_ptrBlkSize (hn : n ≤ L.ptrBlkSize) (h : L.dataBlkSize < n * L.ptrSize + L.ptrSize) :
    n = L.ptrBlkSize := by
  by_contra hne
  have hlt : n + 1 ≤ L.ptrBlkSize := by omega
  have hmul : (n + 1) * L.ptrSize ≤ L.ptrBlkSize * L.ptrSize := Nat.mul_le_mul_right _ hlt
  have hle := L.ptrBlkSize_mul_le
  rw [Nat.succ_mul] at hmul
  omega

theorem slot_le (h : i < L.ptrBlkSize) : i * L.ptrSize + L.ptrSize ≤ L.dataBlkSize := by
  have hmul : (i + 1) * L.ptrSize ≤ L.ptrBlkSize * L.ptrSize := Nat.mul_le_mul_right _ h
  have hle := L.ptrBlkSize_mul_le
  rw [Nat.succ_mul] at hmul
  omega

end Layout

/-! ## Pointers in a block -/

section

variable {L : Layout} {m m' : Memory}

@[simp] theorem length_ptrCells (p : DataPtr) : (ptrCells L p).length = L.ptrSize := by
  simp [ptrCells]

def PtrAt (L : Layout) (m : Memory) (b i : Nat) (p : DataPtr) : Prop :=
  m.read ⟨b, i * L.ptrSize⟩ L.ptrSize = ptrCells L p

def BlockPtrs (L : Layout) (m : Memory) (b start : Nat) (ps : List DataPtr) : Prop :=
  ∀ i p, ps[i]? = some p → PtrAt L m b (start + i) p

theorem PtrAt.congr (h : PtrAt L m b i p) (hsame : ∀ o, m'.cell b o = m.cell b o) :
    PtrAt L m' b i p := by
  unfold PtrAt Memory.read at h ⊢
  simp only [hsame]
  exact h

theorem BlockPtrs.congr (h : BlockPtrs L m b start ps) (hsame : ∀ o, m'.cell b o = m.cell b o) :
    BlockPtrs L m' b start ps :=
  fun i p hp => (h i p hp).congr hsame

theorem BlockPtrs.nil : BlockPtrs L m b start [] := by
  intro i p hp
  simp at hp

theorem BlockPtrs.head (h : BlockPtrs L m b start (p :: ps)) : PtrAt L m b start p := h 0 p rfl

theorem BlockPtrs.tail (h : BlockPtrs L m b start (p :: ps)) : BlockPtrs L m b (start + 1) ps := by
  intro i q hq
  have hat := h (i + 1) q hq
  rwa [show start + (i + 1) = start + 1 + i by omega] at hat

theorem decodePtr_ptrCells (p : DataPtr) : decodePtr L (ptrCells L p) = .ok p := by
  have hhd : (ptrCells L p).head? = some (.ptrByte p 0) := by
    obtain ⟨n, hn⟩ : ∃ n, L.ptrSize = n + 1 := ⟨L.ptrSize - 1, by have := L.ptrSize_pos; omega⟩
    rw [ptrCells, hn, range_succ_eq_map]
    rfl
  unfold decodePtr
  rw [hhd]
  exact if_pos rfl

theorem decodePtr_read (h : PtrAt L m b i p) :
    decodePtr L (m.read ⟨b, i * L.ptrSize⟩ L.ptrSize) = .ok p := by
  rw [h]
  exact decodePtr_ptrCells p

theorem ptrAt_of_cells (h : ∀ j, j < L.ptrSize → m.cell b (i * L.ptrSize + j) = .ptrByte p j) :
    PtrAt L m b i p := by
  apply map_congr_left
  intro j hj
  exact h j (mem_range.1 hj)

theorem ptrCells_getElem? {j : Nat} (hj : j < L.ptrSize) :
    (ptrCells L p)[j]? = some (.ptrByte p j) := by
  simp [ptrCells, hj]

theorem ptrAt_write (b i : Nat) (p : DataPtr) :
    PtrAt L (m.write ⟨b, i * L.ptrSize⟩ (ptrCells L p)) b i p := by
  apply ptrAt_of_cells
  intro j hj
  exact m.write_cell_at ⟨b, i * L.ptrSize⟩ _ (ptrCells_getElem? hj)

theorem BlockPtrs.write (h : BlockPtrs L m b 0 ps) (cells : List Cell) :
    BlockPtrs L (m.write ⟨b, ps.length * L.ptrSize⟩ cells) b 0 ps := by
  intro i p hp
  obtain ⟨hi, -⟩ := List.getElem?_eq_some_iff.1 hp
  have hmul : (i + 1) * L.ptrSize ≤ ps.length * L.ptrSize := Nat.mul_le_mul_right _ hi
  rw [Nat.succ_mul] at hmul
  have hat := h i p hp
  rw [zero_add] at hat ⊢
  unfold PtrAt Memory.read at hat ⊢
  rw [← hat]
  apply map_congr_left
  intro j hj
  have hj' := mem_range.1 hj
  apply Memory.write_cell_before
  show i * L.ptrSize + j < ps.length * L.ptrSize
  omega

theorem BlockPtrs.append (h : BlockPtrs L m b 0 ps) (hp : PtrAt L m b ps.length p) :
    BlockPtrs L m b 0 (ps ++ [p]) := by
  refine forall_getElem?_append h fun i q hq => ?_
  obtain ⟨rfl, rfl⟩ : i = 0 ∧ p = q := by simpa [getElem?_singleton] using hq
  simpa using hp

end

/-! ## Chains of pointer blocks -/

structure PtrBlocks where
  fulls : List (Nat × List DataPtr)
  last : Nat
  ptrs : List DataPtr

namespace PtrBlocks

def blocks (c : PtrBlocks) : List Nat := c.fulls.map Prod.fst ++ [c.last]

def entries (c : PtrBlocks) : List DataPtr := c.fulls.flatMap Prod.snd ++ c.ptrs

theorem entries_cons (e : Nat × List DataPtr) (fulls : List (Nat × List DataPtr)) (last : Nat)
    (ptrs : List DataPtr) :
    (⟨e :: fulls, last, ptrs⟩ : PtrBlocks).entries =
      e.2 ++ (⟨fulls, last, ptrs⟩ : PtrBlocks).entries := by
  simp [entries]

theorem exists_head (c : PtrBlocks) : ∃ first, c.blocks.head? = some first := by
  cases hfulls : c.fulls <;> simp [blocks]

def place (L : Layout) (c : PtrBlocks) : Place := ⟨c.last, c.ptrs.length * L.ptrSize⟩

end PtrBlocks

/-- The blocks hold their pointers.  The last one has room for a byte; it is only empty where it
is the first one or where pointers fill a block exactly. -/
structure PtrChain (L : Layout) (m : Memory) (c : PtrBlocks) : Prop where
  linked : Linked m c.blocks
  nodup : c.blocks.Nodup
  used : ∀ b ∈ c.blocks, ¬ Free m b
  full : ∀ d ∈ c.fulls, d.2.length = L.ptrBlkSize ∧ BlockPtrs L m d.1 0 d.2
  ptrs : BlockPtrs L m c.last 0 c.ptrs
  ptrs_le : c.ptrs.length ≤ L.ptrBlkSize
  room : c.ptrs.length * L.ptrSize < L.dataBlkSize
  empty : c.ptrs = [] → c.fulls = [] ∨ L.ptrBlkSize * L.ptrSize = L.dataBlkSize

/-- What appending a pointer does, given the place and the memory it returns. -/
structure PtrAppended (L : Layout) (m : Memory) (c : PtrBlocks) (p : DataPtr)
    (result : Place × Memory) (c' : PtrBlocks) : Prop where
  blocks : c'.blocks = c.blocks ∨ ∃ n, Free m n ∧ c'.blocks = c.blocks ++ [n]
  entries : c'.entries = c.entries ++ [p]
  place : result.1 = c'.place L
  chain : PtrChain L result.2 c'
  touches : Touches c.blocks m result.2

section

variable {L : Layout} {m m' : Memory} {c : PtrBlocks}

theorem writeData_exact {p : Place} {buf : List Cell} (hbuf : 0 < buf.length)
    (hlen : p.off + buf.length = L.dataBlkSize) :
    writeData L m buf p false =
      (⟨(addBlockToChain (addBlockToChain m p.blk).2 p.blk).1, 0⟩,
        (addBlockToChain (addBlockToChain m p.blk).2 p.blk).2.write p buf) := by
  unfold writeData
  simp only [L.freeSpace_eq (show p.off < L.dataBlkSize by omega), Bool.not_false, if_true]
  rw [if_pos (by omega), if_pos (by omega)]

theorem writeData_new {p : Place} {buf : List Cell} (hoff : p.off < L.dataBlkSize)
    (hlen : L.dataBlkSize < p.off + buf.length) :
    writeData L m buf p false =
      (⟨(addBlockToChain m p.blk).1, buf.length⟩,
        (addBlockToChain m p.blk).2.write ⟨(addBlockToChain m p.blk).1, 0⟩ buf) := by
  unfold writeData
  simp only [L.freeSpace_eq hoff, Bool.not_false, if_true]
  rw [if_pos (by omega), if_neg (by omega)]

namespace PtrChain

section

variable (h : PtrChain L m c)
include h

theorem touches {S : List Nat} (ht : Touches S m m') (hS : List.Disjoint c.blocks S) :
    PtrChain L m' c := by
  have hkeep := fun b hb => ht.keeps b (hS hb) (h.used b hb)
  refine ⟨h.linked.congr fun b hb => (hkeep b hb).2.1, h.nodup, fun b hb => (hkeep b hb).2.2, ?_,
    ?_, h.ptrs_le, h.room, h.empty⟩
  · intro d hd
    obtain ⟨hlen, hptrs⟩ := h.full d hd
    have hmem : d.1 ∈ c.blocks := mem_append_left _ (mem_map_of_mem hd)
    exact ⟨hlen, hptrs.congr (hkeep d.1 hmem).1⟩
  · exact h.ptrs.congr (hkeep c.last (by simp [PtrBlocks.blocks])).1

omit h in
theorem last_mem (c : PtrBlocks) : c.last ∈ c.blocks := by
  simp [PtrBlocks.blocks]

theorem last_notMem : ∀ d ∈ c.fulls, d.1 ≠ c.last := by
  intro d hd heq
  have hnd := h.nodup
  exact (nodup_append.1 hnd).2.2 d.1 (mem_map_of_mem hd) c.last (by simp) heq

theorem extend {filled rest : List DataPtr} (ht : Touches [c.last] m m') (hfree : Free m n)
    (hused : ¬ Free m' n) (hstays : ¬ Free m' c.last) (hnext : m'.nblk c.last = some n)
    (hlast : m'.nblk n = none) (hlen : filled.length = L.ptrBlkSize)
    (hfill : BlockPtrs L m' c.last 0 filled) (hrest : BlockPtrs L m' n 0 rest)
    (hle : rest.length ≤ L.ptrBlkSize) (hroom : rest.length * L.ptrSize < L.dataBlkSize)
    (hempty : rest = [] → L.ptrBlkSize * L.ptrSize = L.dataBlkSize) :
    (⟨c.fulls ++ [(c.last, filled)], n, rest⟩ : PtrBlocks).blocks = c.blocks ++ [n] ∧
      PtrChain L m' ⟨c.fulls ++ [(c.last, filled)], n, rest⟩ := by
  have hkeep := fun d (hd : d ∈ c.fulls) => ht.keeps d.1 (by simpa using h.last_notMem d hd)
    (h.used d.1 (mem_append_left _ (mem_map_of_mem hd)))
  have hblocks :
      (⟨c.fulls ++ [(c.last, filled)], n, rest⟩ : PtrBlocks).blocks = c.blocks ++ [n] := by
    simp [PtrBlocks.blocks]
  refine ⟨hblocks, ?_, ?_, ?_, ?_, hrest, hle, hroom, fun h => .inr (hempty h)⟩ <;>
    try rw [hblocks]
  · apply Linked.append h.linked _ hnext hlast
    intro b hb
    obtain ⟨d, hd, rfl⟩ := mem_map.1 hb
    exact (hkeep d hd).2.1
  · apply nodup_append.2
    refine ⟨h.nodup, nodup_singleton n, ?_⟩
    intro b hb e he heq
    rw [mem_singleton.1 he] at heq
    exact h.used b hb (heq ▸ hfree)
  · intro b hb
    cases mem_append.1 hb with
    | inr hnew => rw [mem_singleton.1 hnew]; exact hused
    | inl hold =>
      cases mem_append.1 hold with
      | inl hfull =>
        obtain ⟨d, hd, rfl⟩ := mem_map.1 hfull
        exact (hkeep d hd).2.2
      | inr hl => rw [mem_singleton.1 hl]; exact hstays
  · intro d hd
    cases mem_append.1 hd with
    | inl hold =>
      obtain ⟨hfull, hptrs⟩ := h.full d hold
      exact ⟨hfull, hptrs.congr (hkeep d hold).1⟩
    | inr hnew =>
      rw [mem_singleton.1 hnew]
      exact ⟨hlen, hfill⟩

theorem append_fits (hs : Sound m) (p : DataPtr)
    (hlen : c.ptrs.length * L.ptrSize + L.ptrSize < L.dataBlkSize) :
    PtrAppended L m c p (writeData L m (ptrCells L p) (c.place L) false)
      { c with ptrs := c.ptrs ++ [p] } := by
  have htch : Touches [c.last] m (m.write (c.place L) (ptrCells L p)) :=
    touches_write hs (c.place L) (ptrCells L p)
  have hmul : (c.ptrs.length + 1) * L.ptrSize < L.dataBlkSize := by
    rw [Nat.succ_mul]
    exact hlen
  rw [writeData_fits false (by simpa [PtrBlocks.place] using hlen)]
  refine ⟨.inl rfl, (append_assoc _ _ _).symm, ?_, ⟨h.linked.congr fun _ _ => rfl, h.nodup,
    h.used, ?_, ?_, ?_, ?_, ?_⟩, htch.mono (by simp [last_mem])⟩
  · simp [PtrBlocks.place, Nat.succ_mul]
  · intro d hd
    obtain ⟨hfull, hptrs⟩ := h.full d hd
    exact ⟨hfull, hptrs.congr (m.write_cell_of_ne (c.place L) _ (h.last_notMem d hd))⟩
  · exact (h.ptrs.write (ptrCells L p)).append (ptrAt_write c.last c.ptrs.length p)
  · simpa [Layout.ptrBlkSize] using (Nat.le_div_iff_mul_le L.ptrSize_pos).2 (le_of_lt hmul)
  · simpa using hmul
  · simp

theorem append_exact (hs : Sound m) (p : DataPtr)
    (hlen : c.ptrs.length * L.ptrSize + L.ptrSize = L.dataBlkSize) :
    ∃ n, PtrAppended L m c p (writeData L m (ptrCells L p) (c.place L) false)
      ⟨c.fulls ++ [(c.last, c.ptrs ++ [p])], n, []⟩ := by
  have hptr := L.ptrSize_pos
  have hcount : c.ptrs.length + 1 = L.ptrBlkSize := by
    unfold Layout.ptrBlkSize
    rw [← hlen, ← Nat.succ_mul, Nat.mul_div_cancel _ hptr]
  have hused := h.used c.last (last_mem c)
  have hfst := addBlockToChain_spec hs hused
  have hsnd := addBlockToChain_spec hfst.touches.sound (hfst.stays _ hused)
  rw [writeData_exact (by simpa using hptr) (by simpa [PtrBlocks.place] using hlen)]
  simp only [PtrBlocks.place]
  generalize (addBlockToChain m c.last).2 = m1 at hfst hsnd
  generalize (addBlockToChain m1 c.last).1 = n at hsnd
  generalize (addBlockToChain m1 c.last).2 = m2 at hsnd
  have hfree : Free m n := by
    by_contra hn
    exact hfst.stays n hn hsnd.free
  have hchn : Touches [c.last] m m2 := hfst.touches.trans hsnd.touches (by simp)
  have htch := hchn.trans (touches_write hchn.sound ⟨c.last, c.ptrs.length * L.ptrSize⟩
    (ptrCells L p)) (by simp)
  have hlastPtrs : BlockPtrs L (m2.write ⟨c.last, c.ptrs.length * L.ptrSize⟩ (ptrCells L p))
      c.last 0 (c.ptrs ++ [p]) := by
    have hsame : m2.cell = m.cell := hsnd.cell.trans hfst.cell
    have hold : BlockPtrs L m2 c.last 0 c.ptrs := h.ptrs.congr fun o => by rw [hsame]
    exact (hold.write (ptrCells L p)).append (ptrAt_write c.last c.ptrs.length p)
  obtain ⟨hblocks, hchn'⟩ := h.extend htch hfree hsnd.used
    (hsnd.stays _ (hfst.stays _ hused)) hsnd.next hsnd.last (by simpa using hcount)
    hlastPtrs .nil (Nat.zero_le _) (by simpa using L.dataBlkSize_pos)
    (fun _ => by rw [← hcount, Nat.succ_mul, hlen])
  exact ⟨n, .inr ⟨n, hfree, hblocks⟩, by simp [PtrBlocks.entries], by simp [PtrBlocks.place],
    hchn',
    htch.mono (by simp [last_mem])⟩

theorem append_new (hs : Sound m) (p : DataPtr)
    (hlen : L.dataBlkSize < c.ptrs.length * L.ptrSize + L.ptrSize) :
    ∃ n, PtrAppended L m c p (writeData L m (ptrCells L p) (c.place L) false)
      ⟨c.fulls ++ [(c.last, c.ptrs)], n, [p]⟩ := by
  have hcount : c.ptrs.length = L.ptrBlkSize := Layout.eq_ptrBlkSize h.ptrs_le hlen
  have hpos := L.ptrBlkSize_pos
  have hsmall : L.ptrSize < L.dataBlkSize := by
    have hmul : 1 * L.ptrSize ≤ c.ptrs.length * L.ptrSize := Nat.mul_le_mul_right _ (by omega)
    have := h.room
    omega
  have hused := h.used c.last (last_mem c)
  have hadded := addBlockToChain_spec hs hused
  rw [writeData_new h.room (by simpa [PtrBlocks.place] using hlen)]
  simp only [PtrBlocks.place]
  generalize (addBlockToChain m c.last).1 = n at hadded
  generalize (addBlockToChain m c.last).2 = m1 at hadded
  have htch : Touches [c.last] m (m1.write ⟨n, 0⟩ (ptrCells L p)) :=
    hadded.touches.trans (touches_write hadded.touches.sound ⟨n, 0⟩ (ptrCells L p))
      (by simp [hadded.free])
  have hfill : BlockPtrs L (m1.write ⟨n, 0⟩ (ptrCells L p)) c.last 0 c.ptrs := by
    apply h.ptrs.congr
    intro o
    rw [Memory.write_cell_of_ne _ _ _ (Ne.symm hadded.ne), hadded.cell]
  have hat : PtrAt L (m1.write ⟨n, 0 * L.ptrSize⟩ (ptrCells L p)) n 0 p := ptrAt_write n 0 p
  rw [zero_mul] at hat
  obtain ⟨hblocks, hchn⟩ := h.extend htch hadded.free hadded.used (hadded.stays _ hused)
    hadded.next hadded.last hcount hfill (BlockPtrs.nil.append hat) hpos (by simpa using hsmall)
    (by simp)
  exact ⟨n, .inr ⟨n, hadded.free, hblocks⟩, by simp [PtrBlocks.entries], by simp [PtrBlocks.place],
    hchn, htch.mono (by simp [last_mem])⟩

theorem append (hs : Sound m) (p : DataPtr) :
    ∃ c', PtrAppended L m c p (writeData L m (ptrCells L p) (c.place L) false) c' := by
  rcases lt_trichotomy (c.ptrs.length * L.ptrSize + L.ptrSize) L.dataBlkSize with
    hlt | heq | hgt
  · exact ⟨_, h.append_fits hs p hlt⟩
  · obtain ⟨n, happ⟩ := h.append_exact hs p heq
    exact ⟨_, happ⟩
  · obtain ⟨n, happ⟩ := h.append_new hs p hgt
    exact ⟨_, happ⟩

end

theorem create (h : Taken m n m') : PtrChain L m' ⟨[], n, []⟩ := by
  refine ⟨⟨h.last, trivial⟩, nodup_singleton n, ?_, by simp, .nil, by simp, ?_, fun _ => .inl rfl⟩
  · intro b hb
    rw [show b = n by simpa [PtrBlocks.blocks] using hb]
    exact h.used
  · have := L.dataBlkSize_pos
    simpa using this

theorem length_fulls {fulls : List (Nat × List DataPtr)} {k : Nat}
    (h : ∀ d ∈ fulls, d.2.length = k) : (fulls.flatMap Prod.snd).length = k * fulls.length := by
  induction fulls with
  | nil => simp
  | cons d fulls ih =>
    have hrest := ih fun e he => h e (by simp [he])
    have hfst := h d (by simp)
    rw [flatMap_cons, length_append, hfst, length_cons, Nat.mul_succ]
    omega

theorem length_entries (h : PtrChain L m c) :
    c.entries.length = L.ptrBlkSize * c.fulls.length + c.ptrs.length := by
  unfold PtrBlocks.entries
  rw [length_append, length_fulls fun d hd => (h.full d hd).1]

theorem not_lt_fulls {d : PtrBlocks} (h : PtrChain L m c) (h' : PtrChain L m' d)
    (hlen : c.entries.length = d.entries.length) : ¬ c.fulls.length < d.fulls.length := by
  intro hlt
  have hmul := Nat.mul_le_mul_left L.ptrBlkSize (Nat.succ_le_of_lt hlt)
  have hle := h.ptrs_le
  rw [h.length_entries, h'.length_entries] at hlen
  rw [Nat.mul_succ] at hmul
  -- the last block of the one would be full and that of the other empty
  have hfull : c.ptrs.length = L.ptrBlkSize := by omega
  have hnil : d.ptrs = [] := length_eq_zero_iff.1 (by omega)
  have hexact := (h'.empty hnil).resolve_left (ne_nil_of_length_pos (by omega))
  have hroom := h.room
  rw [hfull, hexact] at hroom
  exact lt_irrefl _ hroom

theorem length_ptrs_eq {d : PtrBlocks} (h : PtrChain L m c) (h' : PtrChain L m' d)
    (hlen : c.entries.length = d.entries.length) : c.ptrs.length = d.ptrs.length := by
  have hfulls : c.fulls.length = d.fulls.length :=
    le_antisymm (not_lt.1 (h'.not_lt_fulls h hlen.symm)) (not_lt.1 (h.not_lt_fulls h' hlen))
  rw [h.length_entries, h'.length_entries, hfulls] at hlen
  exact Nat.add_left_cancel hlen

end PtrChain

end

/-! ## The values that pointers point to -/

section

variable {T : Type*} {cfg : Config T} {m : Memory} {vs : List Nat} {xs : List Cell}

def ValAt (L : Layout) (vs : List Nat) (xs : List Cell) (p : DataPtr) (v : List UInt8) : Prop :=
  ∃ pos, p = ⟨placeAt L vs pos, v.length⟩ ∧ v.length < L.dataBlkSize ∧
    pos + v.length ≤ xs.length ∧ (xs.drop pos).take v.length = v.map Cell.byte

theorem bytesOf_map (v : List UInt8) : bytesOf (v.map Cell.byte) = .ok v := by
  induction v with
  | nil => rfl
  | cons b v ih =>
    unfold bytesOf at ih ⊢
    rw [map_cons, mapM_cons, ih]
    rfl

theorem ValAt.readVal {v : List UInt8} (h : ValAt cfg.layout vs xs p v)
    (hst : Stream cfg.layout m vs xs) : readVal cfg m p = .ok v := by
  obtain ⟨pos, rfl, hsize, hlen, hbytes⟩ := h
  unfold Sorting.readVal
  rw [hst.readData hsize hlen, hbytes]
  exact bytesOf_map v

def Refs (cfg : Config T) (vs : List Nat) (xs : List Cell) : List DataPtr → List T → Prop :=
  List.Forall₂ fun p t => ValAt cfg.layout vs xs p (cfg.serializer.serialize t)

theorem getPtr_eq (hi : i < cfg.layout.ptrBlkSize) (h : PtrAt cfg.layout m b i p)
    (hnext : i * cfg.layout.ptrSize + cfg.layout.ptrSize = cfg.layout.dataBlkSize →
      m.nblk b ≠ none) : getPtr cfg m b i = .ok p := by
  have hslot := Layout.slot_le hi
  have hpos := cfg.layout.ptrSize_pos
  unfold getPtr
  by_cases hexact : i * cfg.layout.ptrSize + cfg.layout.ptrSize = cfg.layout.dataBlkSize
  · obtain ⟨c, hc⟩ := Option.ne_none_iff_exists'.1 (hnext hexact)
    have hrest : cfg.layout.dataBlkSize - i * cfg.layout.ptrSize = cfg.layout.ptrSize := by omega
    have hzero : i * cfg.layout.ptrSize + cfg.layout.ptrSize - cfg.layout.dataBlkSize = 0 := by
      omega
    rw [readData_split (show i * cfg.layout.ptrSize < _ by omega)
      (show _ ≤ i * cfg.layout.ptrSize + _ by omega) hc]
    simp only [hrest, hzero, Memory.read, range_zero, map_nil, append_nil]
    exact decodePtr_read h
  · rw [readData_single
      (show i * cfg.layout.ptrSize + _ < _ by omega)]
    exact decodePtr_read h

theorem getVal_eq {v : List UInt8} (h : PtrAt cfg.layout m b i p) (hst : Stream cfg.layout m vs xs)
    (hv : ValAt cfg.layout vs xs p v) : getVal cfg m b i = .ok v := by
  unfold getVal
  rw [decodePtr_read h]
  exact hv.readVal hst

end

open Library.BinaryHeap PtrBlocks SortedSequence

variable {T : Type*} {last : Nat} {ptrs : List DataPtr}

/-! ## The order of tuples -/

/-- `deserialize` inverts `serialize`, and `compare` is a total preorder on serialized tuples. -/
structure Serializer.Lawful (s : Serializer T) : Prop where
  deserialize_serialize : ∀ t, s.deserialize (s.serialize t) = t
  compare_neg : ∀ t u, s.compare (s.serialize t) (s.serialize u) < 0 ↔
    0 < s.compare (s.serialize u) (s.serialize t)
  compare_trans : ∀ t u v, s.compare (s.serialize t) (s.serialize u) ≤ 0 →
    s.compare (s.serialize u) (s.serialize v) ≤ 0 → s.compare (s.serialize t) (s.serialize v) ≤ 0

/-- `std::sort` sorts whatever is compared by a strict weak order. -/
def Config.StdSorts (cfg : Config T) : Prop :=
  ∀ lt l, Heap.WeakOrder (· ∈ l) lt →
    cfg.stdSort lt l ~ l ∧ (cfg.stdSort lt l).Pairwise fun a b => lt b a = false

def Config.less (cfg : Config T) (t u : T) : Bool :=
  cfg.serializer.compare (cfg.serializer.serialize t) (cfg.serializer.serialize u) < 0

def InOrder (cfg : Config T) (ts : List T) : Prop := ts.Pairwise fun t u => cfg.less u t = false

variable {cfg : Config T} {t u : T} {ps : List DataPtr} {ts : List T} {L : Layout}

theorem less_eq_false_iff (h : cfg.serializer.Lawful) :
    cfg.less t u = false ↔
      cfg.serializer.compare (cfg.serializer.serialize u) (cfg.serializer.serialize t) ≤ 0 := by
  have hneg := h.compare_neg t u
  unfold Config.less
  rw [decide_eq_false_iff_not]
  omega

theorem less_asymm (h : cfg.serializer.Lawful) (hlt : cfg.less t u = true) :
    cfg.less u t = false := by
  rw [less_eq_false_iff h]
  have := of_decide_eq_true hlt
  omega

theorem less_trans (h : cfg.serializer.Lawful) {v : T} (htu : cfg.less t u = false)
    (huv : cfg.less u v = false) : cfg.less t v = false := by
  rw [less_eq_false_iff h] at htu huv ⊢
  exact h.compare_trans v u t huv htu

/-! ## The pointers of one block -/

section

variable {m : Memory} {vs : List Nat} {xs : List Cell}

theorem tupleComparator_eq {q : DataPtr} (hst : Stream cfg.layout m vs xs)
    (hp : ValAt cfg.layout vs xs p (cfg.serializer.serialize t))
    (hq : ValAt cfg.layout vs xs q (cfg.serializer.serialize u)) :
    tupleComparator cfg m p q = cfg.less t u := by
  unfold tupleComparator
  rw [hp.readVal hst, hq.readVal hst]
  rfl

theorem weakOrder_comparator (hlaw : cfg.serializer.Lawful) (hst : Stream cfg.layout m vs xs)
    (h : Refs cfg vs xs ps ts) : Heap.WeakOrder (· ∈ ps) (tupleComparator cfg m) := by
  constructor
  · intro p q hp hq hlt
    obtain ⟨t, -, ht⟩ := exists_of_forall₂' h hp
    obtain ⟨u, -, hu⟩ := exists_of_forall₂' h hq
    rw [tupleComparator_eq hst ht hu] at hlt
    rw [tupleComparator_eq hst hu ht]
    exact less_asymm hlaw hlt
  · intro p q r hp hq hr hpq hqr
    obtain ⟨t, -, ht⟩ := exists_of_forall₂' h hp
    obtain ⟨u, -, hu⟩ := exists_of_forall₂' h hq
    obtain ⟨v, -, hv⟩ := exists_of_forall₂' h hr
    rw [tupleComparator_eq hst ht hu] at hpq
    rw [tupleComparator_eq hst hu hv] at hqr
    rw [tupleComparator_eq hst ht hv]
    exact less_trans hlaw hpq hqr

theorem Refs.inOrder (hst : Stream cfg.layout m vs xs) (h : Refs cfg vs xs ps ts)
    (hsort : ps.Pairwise fun p q => tupleComparator cfg m q p = false) : InOrder cfg ts := by
  induction h with
  | nil => exact List.Pairwise.nil
  | @cons p t ps ts hval hrest ih =>
    obtain ⟨hfst, hsort'⟩ := pairwise_cons.1 hsort
    refine pairwise_cons.2 ⟨?_, ih hsort'⟩
    intro u hu
    obtain ⟨q, hq, hvalq⟩ := exists_of_forall₂ hrest hu
    rw [← tupleComparator_eq hst hvalq hval]
    exact hfst q hq

theorem flatMap_ptrCells_getElem? {i j : Nat} (hp : ps[i]? = some p) (hj : j < L.ptrSize) :
    (ps.flatMap (ptrCells L))[i * L.ptrSize + j]? = some (.ptrByte p j) := by
  induction ps generalizing i with
  | nil => simp at hp
  | cons q ps ih =>
    rw [flatMap_cons]
    cases i with
    | zero =>
      rw [getElem?_cons_zero, Option.some.injEq] at hp
      rw [zero_mul, zero_add, getElem?_append_left (by simpa using hj), hp]
      exact ptrCells_getElem? hj
    | succ i =>
      rw [getElem?_append_right (by rw [length_ptrCells, Nat.succ_mul]; omega),
        length_ptrCells,
        show (i + 1) * L.ptrSize + j - L.ptrSize = i * L.ptrSize + j by rw [Nat.succ_mul]; omega]
      exact ih (by simpa using hp)

theorem blockPtrs_write_all (b : Nat) (ps : List DataPtr) :
    BlockPtrs L (m.write ⟨b, 0⟩ (ps.flatMap (ptrCells L))) b 0 ps := by
  intro i p hp
  apply ptrAt_of_cells
  intro j hj
  have hcell := m.write_cell_at ⟨b, 0⟩ _ (flatMap_ptrCells_getElem? hp hj)
  simpa using hcell

theorem mapM_eq_ok {α β : Type*} {f : α → Except SortError β} {as : List α} {bs : List β}
    (h : List.Forall₂ (fun a b => f a = .ok b) as bs) : as.mapM f = .ok bs := by
  induction h with
  | nil => rfl
  | cons hfst _ ih =>
    rw [mapM_cons, hfst, ih]
    rfl

theorem BlockPtrs.decode_all {b : Nat} (h : BlockPtrs L m b 0 ps) :
    (List.range ps.length).mapM
      (fun i => decodePtr L (m.read ⟨b, i * L.ptrSize⟩ L.ptrSize)) = .ok ps := by
  apply mapM_eq_ok
  apply forall₂_iff_get.2
  refine ⟨length_range, ?_⟩
  intro i hi hi'
  have hat := h i ps[i] (getElem?_eq_getElem hi')
  simpa using decodePtr_read hat

structure BlockSorted (cfg : Config T) (m : Memory) (vs : List Nat) (xs : List Cell) (b : Nat)
    (ts : List T) (m' : Memory) (ps' : List DataPtr) (ts' : List T) : Prop where
  ptrs : BlockPtrs cfg.layout m' b 0 ps'
  refs : Refs cfg vs xs ps' ts'
  perm : ts' ~ ts
  inOrder : InOrder cfg ts'
  nblk : m'.nblk = m.nblk
  free : ∀ c, Free m' c ↔ Free m c
  touches : Touches [b] m m'

theorem inBlockSort_spec (hlaw : cfg.serializer.Lawful) (hsort : cfg.StdSorts) (hs : Sound m)
    (hst : Stream cfg.layout m vs xs) {b : Nat} (hptrs : BlockPtrs cfg.layout m b 0 ps)
    (hrefs : Refs cfg vs xs ps ts) :
    ∃ m' ps' ts', inBlockSort cfg m b ps.length = .ok m' ∧
      BlockSorted cfg m vs xs b ts m' ps' ts' := by
  have hvals : ps.mapM (readVal cfg m) = .ok (ts.map cfg.serializer.serialize) := by
    apply mapM_eq_ok
    rw [forall₂_map_right_iff]
    exact hrefs.imp fun p t hval => hval.readVal hst
  obtain ⟨hperm, hpairwise⟩ := hsort _ ps (weakOrder_comparator hlaw hst hrefs)
  obtain ⟨ts', hrefs', hts⟩ := perm_comp_forall₂ hperm hrefs
  refine ⟨_, cfg.stdSort (tupleComparator cfg m) ps, ts', ?_, blockPtrs_write_all b _, hrefs', hts,
    Refs.inOrder hst hrefs' hpairwise, rfl, fun c => Iff.rfl, touches_write hs ⟨b, 0⟩ _⟩
  unfold inBlockSort
  rw [hptrs.decode_all]
  simp only [bind, Except.bind, hvals]
  rfl

end

/-! ## The pointers of all blocks -/

namespace PtrBlocks

def chunks (c : PtrBlocks) : List (Nat × List DataPtr) := c.fulls ++ [(c.last, c.ptrs)]

theorem map_chunks (c : PtrBlocks) : c.chunks.map Prod.fst = c.blocks := by
  simp [chunks, blocks]

end PtrBlocks

/-- The pointers of each block point to the given tuples, which are in order. -/
def SortedChunks (cfg : Config T) (vs : List Nat) (xs : List Cell) :
    List (Nat × List DataPtr) → List (List T) → Prop :=
  List.Forall₂ fun d ts => Refs cfg vs xs d.2 ts ∧ InOrder cfg ts

structure ChainSorted (cfg : Config T) (m : Memory) (vs : List Nat) (xs : List Cell)
    (c : PtrBlocks) (ts : List T) (m' : Memory) (c' : PtrBlocks) (tss : List (List T)) : Prop where
  blocks : c'.blocks = c.blocks
  length : c'.ptrs.length = c.ptrs.length
  chain : PtrChain cfg.layout m' c'
  sorted : SortedChunks cfg vs xs c'.chunks tss
  perm : tss.flatten ~ ts
  nblk : m'.nblk = m.nblk
  free : ∀ b, Free m' b ↔ Free m b
  touches : Touches c.blocks m m'

section

variable {m : Memory} {vs : List Nat} {xs : List Cell}

theorem PtrChain.tail {d : Nat × List DataPtr} {fulls : List (Nat × List DataPtr)}
    (h : PtrChain L m ⟨d :: fulls, last, ptrs⟩) :
    PtrChain L m ⟨fulls, last, ptrs⟩ ∧ d.1 ∉ blocks ⟨fulls, last, ptrs⟩ ∧
      m.nblk d.1 = (blocks ⟨fulls, last, ptrs⟩).head? := by
  have hnd := nodup_cons.1 h.nodup
  refine ⟨⟨h.linked.2, hnd.2, (forall_mem_cons.1 h.used).2,
    (forall_mem_cons.1 h.full).2, h.ptrs, h.ptrs_le, h.room, ?_⟩,
    hnd.1, h.linked.1⟩
  intro hnil
  have hempty := h.empty hnil
  simp only [cons_ne_nil, false_or] at hempty
  exact .inr hempty

theorem Refs.length_eq (h : Refs cfg vs xs ps ts) :
    ps.length = ts.length := List.Forall₂.length_eq h

theorem Refs.split {qs : List DataPtr} (h : Refs cfg vs xs (ps ++ qs) ts) :
    ∃ us ws, ts = us ++ ws ∧ Refs cfg vs xs ps us ∧ Refs cfg vs xs qs ws := by
  induction ps generalizing ts with
  | nil => exact ⟨[], ts, rfl, List.Forall₂.nil, h⟩
  | cons p ps ih =>
    cases h with
    | cons hval hrest =>
      obtain ⟨us, ws, rfl, hus, hws⟩ := ih hrest
      exact ⟨_ :: us, ws, rfl, List.Forall₂.cons hval hus, hws⟩

theorem sortBlocks_last (hlaw : cfg.serializer.Lawful) (hsort : cfg.StdSorts) (hs : Sound m)
    (hst : Stream cfg.layout m vs xs) (hchn : PtrChain cfg.layout m ⟨[], last, ptrs⟩)
    (hrefs : Refs cfg vs xs ptrs ts) (fuel : Nat) :
    ∃ m' c' tss, sortBlocks cfg (fuel + 1) last ptrs.length m = .ok (ptrs.length, m') ∧
      ChainSorted cfg m vs xs ⟨[], last, ptrs⟩ ts m' c' tss := by
  obtain ⟨m', ptrs', ts', heq, hsorted⟩ := inBlockSort_spec hlaw hsort hs hst hchn.ptrs hrefs
  have hlen : ptrs'.length = ptrs.length := by
    rw [hsorted.refs.length_eq, hsorted.perm.length_eq, hrefs.length_eq]
  have hused : ∀ b, ¬ Free m b → ¬ Free m' b := fun b hb hfree => hb ((hsorted.free b).1 hfree)
  refine ⟨m', ⟨[], last, ptrs'⟩, [ts'], ?_, rfl, hlen,
    ⟨?_, hchn.nodup, fun b hb => hused b (hchn.used b hb), by simp, hsorted.ptrs, ?_, ?_,
      fun _ => .inl rfl⟩, ?_, ?_, hsorted.nblk, hsorted.free, hsorted.touches⟩
  · have hnblk : m.nblk last = none := hchn.linked.1
    unfold sortBlocks
    rw [hnblk]
    simp only [heq]
    rfl
  · exact hchn.linked.congr fun b _ => by rw [hsorted.nblk]
  · simpa [hlen] using hchn.ptrs_le
  · simpa [hlen] using hchn.room
  · exact List.Forall₂.cons ⟨hsorted.refs, hsorted.inOrder⟩ List.Forall₂.nil
  · simpa using hsorted.perm

theorem sortBlocks_spec (hlaw : cfg.serializer.Lawful) (hsort : cfg.StdSorts)
    {fulls : List (Nat × List DataPtr)} {fuel it : Nat} (hs : Sound m)
    (hst : Stream cfg.layout m vs xs) (hchn : PtrChain cfg.layout m ⟨fulls, last, ptrs⟩)
    (hrefs : Refs cfg vs xs (entries ⟨fulls, last, ptrs⟩) ts)
    (hapart : List.Disjoint vs (blocks ⟨fulls, last, ptrs⟩))
    (hit : (blocks ⟨fulls, last, ptrs⟩).head? = some it) (hfuel : fulls.length < fuel) :
    ∃ m' c' tss, sortBlocks cfg fuel it
        (entries ⟨fulls, last, ptrs⟩).length m = .ok (ptrs.length, m') ∧
      ChainSorted cfg m vs xs ⟨fulls, last, ptrs⟩ ts m' c' tss := by
  induction fulls generalizing m ts fuel it with
  | nil =>
    obtain _ | fuel := fuel
    · omega
    obtain rfl : last = it := by simpa [blocks] using hit
    exact sortBlocks_last hlaw hsort hs hst hchn hrefs fuel
  | cons d fulls ih =>
    obtain _ | fuel := fuel
    · omega
    obtain rfl : d.1 = it := by simpa [blocks] using hit
    obtain ⟨htail, hnotMem, hnblk⟩ := hchn.tail
    rw [entries_cons] at hrefs ⊢
    obtain ⟨hfull, hptrs⟩ := hchn.full d (by simp)
    obtain ⟨us, ws, rfl, hus, hws⟩ := hrefs.split
    -- the first block is sorted; the others and the values are not touched
    obtain ⟨m1, ps', us', heq, hsorted⟩ := inBlockSort_spec hlaw hsort hs hst hptrs hus
    have hst1 : Stream cfg.layout m1 vs xs := by
      apply hst.touches hsorted.touches
      intro b hb hmem
      exact hapart hb (by simp [blocks, mem_singleton.1 hmem])
    have htail1 : PtrChain cfg.layout m1 ⟨fulls, last, ptrs⟩ := by
      apply htail.touches hsorted.touches
      intro b hb hmem
      exact hnotMem (mem_singleton.1 hmem ▸ hb)
    obtain ⟨next, hnext⟩ := exists_head ⟨fulls, last, ptrs⟩
    obtain ⟨m', c', tss, heq', hrest⟩ := ih hsorted.touches.sound hst1 htail1 hws
      (fun b hb hmem => hapart hb (mem_cons_of_mem _ hmem)) hnext (Nat.lt_of_succ_lt_succ hfuel)
    have hused : ¬ Free m1 d.1 := by
      rw [hsorted.free]
      exact hchn.used d.1 (by simp [blocks])
    have hkeep := (hrest.touches.keeps d.1 hnotMem hused).1
    have hlen : ps'.length = cfg.layout.ptrBlkSize := by
      rw [hsorted.refs.length_eq, hsorted.perm.length_eq, ← hus.length_eq, hfull]
    have hblocks : (⟨(d.1, ps') :: c'.fulls, c'.last, c'.ptrs⟩ : PtrBlocks).blocks =
        (⟨d :: fulls, last, ptrs⟩ : PtrBlocks).blocks :=
      congrArg (d.1 :: ·) hrest.blocks
    have hfree : ∀ b, Free m' b ↔ Free m b := fun b => (hrest.free b).trans (hsorted.free b)
    refine ⟨m', ⟨(d.1, ps') :: c'.fulls, c'.last, c'.ptrs⟩, us' :: tss, ?_, hblocks, hrest.length,
      ⟨?_, ?_, ?_, ?_, hrest.chain.ptrs, hrest.chain.ptrs_le, hrest.chain.room, ?_⟩,
      List.Forall₂.cons ⟨hsorted.refs, hsorted.inOrder⟩ hrest.sorted, ?_,
      hrest.nblk.trans hsorted.nblk, hfree, ?_⟩
    · unfold sortBlocks
      rw [hnblk, hnext, ← hfull]
      simp only [heq, bind, Except.bind]
      rw [length_append, Nat.add_sub_cancel_left]
      exact heq'
    · rw [hblocks]
      exact hchn.linked.congr fun b _ => by rw [hrest.nblk, hsorted.nblk]
    · rw [hblocks]
      exact hchn.nodup
    · rw [hblocks]
      exact fun b hb hf => hchn.used b hb ((hfree b).1 hf)
    · intro e he
      cases mem_cons.1 he with
      | inl heq =>
        rw [heq]
        exact ⟨hlen, hsorted.ptrs.congr hkeep⟩
      | inr hmem => exact hrest.chain.full e hmem
    · intro hnil
      have hzero : ptrs = [] := by
        have hlength := hrest.length
        have hnil' : c'.ptrs = [] := hnil
        rw [hnil'] at hlength
        exact length_eq_zero_iff.1 hlength.symm
      exact .inr ((hchn.empty hzero).resolve_left (by simp))
    · exact hsorted.perm.append hrest.perm
    · apply (hsorted.touches.mono _).trans hrest.touches
      · intro b hb
        exact .inl (mem_cons_of_mem _ hb)
      · intro b hb
        left
        rw [mem_singleton.1 hb]
        simp [blocks]

end

end Sedna.Sorting
