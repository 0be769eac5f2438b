import Mathlib.Data.List.Basic
import Mathlib.Data.List.GetD
import Sedna.Library.Lists
import Sedna.Sorting.SortedSequence

/-!
# Streams of bytes in chains of blocks

A block is *free* when it is in the pool or was never allocated.  `Touches` says which blocks in
use an operation may change.  A `Stream` is a chain of blocks whose bytes are a given list:
`writeData` with splitting appends to it, and `readData` returns a part of it.
-/

namespace Sedna.Sorting

open Library.Lists List Memory

/-! ## Free blocks -/

def Free (m : Memory) (b : Nat) : Prop := b ∈ m.pool ∨ m.fresh ≤ b

theorem mem_or_free {m : Memory} {cs cs' : List Nat}
    (h : cs' = cs ∨ ∃ n, Free m n ∧ cs' = cs ++ [n]) : ∀ b ∈ cs', b ∈ cs ∨ Free m b := by
  intro b hb
  rcases h with hsame | ⟨n, hn, hnew⟩
  · exact .inl (hsame ▸ hb)
  · rw [hnew] at hb
    cases mem_append.1 hb with
    | inl hold => exact .inl hold
    | inr hlast => rw [mem_singleton.1 hlast]; exact .inr hn

theorem head?_of_extended {m : Memory} {cs cs' : List Nat} {first : Nat}
    (h : cs' = cs ∨ ∃ n, Free m n ∧ cs' = cs ++ [n]) (hfst : cs.head? = some first) :
    cs'.head? = some first := by
  rcases h with hsame | ⟨n, -, hnew⟩
  · rw [hsame, hfst]
  · rw [hnew, head?_append, hfst]
    rfl

theorem disjoint_of_mem_or_free {m : Memory} {bs cs cs' : List Nat} (h : Disjoint bs cs)
    (hcs : ∀ b ∈ cs', b ∈ cs ∨ Free m b) (hused : ∀ b ∈ bs, ¬ Free m b) : Disjoint bs cs' :=
  fun b hb hmem => (hcs b hmem).elim (h hb) (hused b hb)

structure Sound (m : Memory) : Prop where
  nodup : m.pool.Nodup
  below : ∀ b ∈ m.pool, b < m.fresh

/-- Of the blocks in use, only those of `S` may change or become free. -/
structure Touches (S : List Nat) (m m' : Memory) : Prop where
  sound : Sound m'
  keeps : ∀ b, b ∉ S → ¬ Free m b →
    (∀ o, m'.cell b o = m.cell b o) ∧ m'.nblk b = m.nblk b ∧ ¬ Free m' b

variable {b p i n : Nat} {m : Memory} {buf : List Cell}

namespace Touches

variable {S S' : List Nat} {m m' m'' : Memory}

theorem refl (h : Sound m) : Touches S m m := ⟨h, fun _ _ hb => ⟨fun _ => rfl, rfl, hb⟩⟩

theorem trans (h : Touches S m m') (h' : Touches S' m' m'')
    (hS : ∀ b ∈ S', b ∈ S ∨ Free m b) : Touches S m m'' := by
  refine ⟨h'.sound, ?_⟩
  intro b hb hused
  obtain ⟨hcell, hnblk, hused'⟩ := h.keeps b hb hused
  have hb' : b ∉ S' := fun hmem => (hS b hmem).elim hb hused
  obtain ⟨hcell', hnblk', hused''⟩ := h'.keeps b hb' hused'
  exact ⟨fun o => (hcell' o).trans (hcell o), hnblk'.trans hnblk, hused''⟩

theorem mono (h : Touches S m m') (hS : ∀ b ∈ S, b ∈ S' ∨ Free m b) : Touches S' m m' := by
  refine ⟨h.sound, ?_⟩
  intro b hb hused
  exact h.keeps b (fun hmem => (hS b hmem).elim hb hused) hused

theorem mem_or_free (h : Touches S m m') (hfree : Free m' b) : b ∈ S ∨ Free m b := by
  by_contra hnot
  rw [not_or] at hnot
  exact (h.keeps b hnot.1 hnot.2).2.2 hfree

end Touches

/-! ## The primitive operations -/

namespace Memory

variable (m : Memory) (p : Place) (cells : List Cell)

theorem write_cell_of_ne (h : b ≠ p.blk) (o : Nat) : (m.write p cells).cell b o = m.cell b o :=
  if_neg fun hb => h hb.1

theorem write_cell_before {o : Nat} (h : o < p.off) (b : Nat) :
    (m.write p cells).cell b o = m.cell b o :=
  if_neg fun hb => by omega

theorem write_cell_at {j : Nat} {x : Cell} (h : cells[j]? = some x) :
    (m.write p cells).cell p.blk (p.off + j) = x := by
  simp only [write]
  rw [if_pos ⟨trivial, by omega⟩, Nat.add_sub_cancel_left, h, Option.getD_some]

end Memory

theorem Sound.write (h : Sound m) (p : Place) (cells : List Cell) :
    Sound (m.write p cells) := ⟨h.nodup, h.below⟩

theorem touches_write (h : Sound m) (p : Place) (cells : List Cell) :
    Touches [p.blk] m (m.write p cells) := by
  refine ⟨h.write p cells, ?_⟩
  intro b hb hused
  exact ⟨m.write_cell_of_ne p cells (by simpa using hb), rfl, hused⟩

structure Taken (m : Memory) (b : Nat) (m' : Memory) : Prop where
  free : Free m b
  used : ¬ Free m' b
  last : m'.nblk b = none
  touches : Touches [] m m'

theorem getFreeBlock_spec (h : Sound m) : Taken m (getFreeBlock m).1 (getFreeBlock m).2 := by
  unfold getFreeBlock
  cases hpool : m.pool with
  | nil =>
    refine ⟨.inr le_rfl, ?_, if_pos rfl, ⟨⟨by simp, by simp⟩, ?_⟩⟩
    · simp [Free]
    · intro b _ hused
      have hb : b < m.fresh := by
        by_contra hge
        exact hused (.inr (by omega))
      refine ⟨fun _ => rfl, if_neg (by omega), ?_⟩
      simp only [Free, setNblk_pool, setNblk_fresh, not_mem_nil, false_or]
      omega
  | cons c pool =>
    have hnd := h.nodup
    have hbel := h.below
    rw [hpool] at hnd hbel
    obtain ⟨hc, hrest⟩ := nodup_cons.1 hnd
    refine ⟨.inl (by simp [hpool]), ?_, if_pos rfl,
      ⟨⟨hrest, fun b hb => hbel b (mem_cons_of_mem c hb)⟩, ?_⟩⟩
    · rintro (hmem | hge)
      · exact hc hmem
      · have := hbel c (by simp)
        simp only [setNblk_fresh] at hge
        omega
    · intro b _ hused
      have hbc : b ≠ c := fun heq => hused (.inl (by simp [hpool, heq]))
      refine ⟨fun _ => rfl, if_neg hbc, ?_⟩
      rintro (hmem | hge)
      · exact hused (.inl (by rw [hpool]; exact mem_cons_of_mem c hmem))
      · exact hused (.inr hge)

structure Added (m : Memory) (p b : Nat) (m' : Memory) : Prop where
  free : Free m b
  used : ¬ Free m' b
  ne : b ≠ p
  next : m'.nblk p = some b
  last : m'.nblk b = none
  cell : m'.cell = m.cell
  stays : ∀ c, ¬ Free m c → ¬ Free m' c
  touches : Touches [p] m m'

theorem addBlockToChain_spec (h : Sound m) (hp : ¬ Free m p) :
    Added m p (addBlockToChain m p).1 (addBlockToChain m p).2 := by
  obtain ⟨hfree, hused, hlast, htch⟩ := getFreeBlock_spec h
  have hne : (getFreeBlock m).1 ≠ p := fun heq => hp (heq ▸ hfree)
  refine ⟨hfree, hused, hne, if_pos rfl, ?_, ?_, ?_, ?_⟩
  · exact (if_neg hne).trans hlast
  · unfold addBlockToChain getFreeBlock
    cases m.pool <;> rfl
  · intro c hc
    exact (htch.keeps c (by simp) hc).2.2
  · refine ⟨⟨htch.sound.nodup, htch.sound.below⟩, ?_⟩
    intro b hb husedb
    obtain ⟨hcell, hnblk, husedb'⟩ := htch.keeps b (by simp) husedb
    exact ⟨hcell, (if_neg (by simpa using hb)).trans hnblk, husedb'⟩

theorem touches_pushBack (h : Sound m) (hb : ¬ Free m b) : Touches [b] m (m.pushBack b) := by
  constructor
  · refine ⟨nodup_cons.2 ⟨fun hmem => hb (.inl hmem), h.nodup⟩, ?_⟩
    intro c hc
    cases mem_cons.1 hc with
    | inl heq =>
      rw [heq]
      exact Nat.lt_of_not_le fun hge => hb (.inr hge)
    | inr hmem => exact h.below c hmem
  · intro c hc hused
    refine ⟨fun _ => rfl, rfl, ?_⟩
    rintro (hmem | hge)
    · cases mem_cons.1 hmem with
      | inl heq => exact hc (by simp [heq])
      | inr hmem => exact hused (.inl hmem)
    · exact hused (.inr hge)

/-! ## Chains of blocks -/

/-- Each block has the next one in its `nblk` field, the last one `XNULL`. -/
def Linked (m : Memory) : List Nat → Prop
  | [] => True
  | b :: bs => m.nblk b = bs.head? ∧ Linked m bs

namespace Linked

variable {m m' : Memory} {bs : List Nat}

theorem next (h : Linked m bs) (hb : bs[i]? = some b) : m.nblk b = bs[i + 1]? := by
  induction bs generalizing i with
  | nil => simp at hb
  | cons c bs ih =>
    cases i with
    | zero =>
      simp only [getElem?_cons_zero, Option.some.injEq] at hb
      rw [← hb, h.1]
      simp [head?_eq_getElem?]
    | succ i => exact ih h.2 (by simpa using hb)

theorem congr (h : Linked m bs) (hsame : ∀ b ∈ bs, m'.nblk b = m.nblk b) : Linked m' bs := by
  induction bs with
  | nil => trivial
  | cons b bs ih => exact ⟨(hsame b (by simp)).trans h.1, ih h.2 fun c hc => hsame c (by simp [hc])⟩

theorem append {last : Nat} (h : Linked m (bs ++ [last])) (hsame : ∀ b ∈ bs, m'.nblk b = m.nblk b)
    (hlast : m'.nblk last = some n) (hn : m'.nblk n = none) : Linked m' (bs ++ [last] ++ [n]) := by
  induction bs with
  | nil => exact ⟨hlast, hn, trivial⟩
  | cons b bs ih =>
    refine ⟨?_, ih h.2 fun c hc => hsame c (by simp [hc])⟩
    rw [hsame b (by simp), h.1]
    cases bs <;> rfl

end Linked

/-! ## Streams -/

theorem div_mod_same {B k : Nat} (h : p % B + k < B) :
    (p + k) / B = p / B ∧ (p + k) % B = p % B + k := by
  have hsum : p + k = B * (p / B) + (p % B + k) := by
    have := Nat.div_add_mod p B
    omega
  rw [hsum, Nat.mul_add_div (by omega), Nat.mul_add_mod, Nat.div_eq_of_lt h, Nat.mod_eq_of_lt h]
  exact ⟨rfl, rfl⟩

theorem div_mod_next {B k : Nat} (h : B ≤ p % B + k) (h' : p % B + k < 2 * B) :
    (p + k) / B = p / B + 1 ∧ (p + k) % B = p % B + k - B := by
  have hrest : p % B + k - B < B := by omega
  have hsum : p + k = B * (p / B + 1) + (p % B + k - B) := by
    have := Nat.div_add_mod p B
    rw [Nat.mul_succ]
    omega
  rw [hsum, Nat.mul_add_div (by omega), Nat.mul_add_mod, Nat.div_eq_of_lt hrest,
    Nat.mod_eq_of_lt hrest]
  exact ⟨rfl, rfl⟩

section

variable {L : Layout} {m m' : Memory} {bs : List Nat} {xs : List Cell}

theorem Layout.dataBlkSize_pos (L : Layout) : 0 < L.dataBlkSize := by
  have := L.size_fits
  unfold dataBlkSize
  omega

theorem Layout.freeSpace_eq {p : Place} (h : p.off < L.dataBlkSize) :
    L.freeSpace p = L.dataBlkSize - p.off := by
  have := L.headerSize_pos
  unfold dataBlkSize pageSize at h
  unfold freeSpace dataBlkSize pageSize
  omega

theorem readData_split {p : Place} (hoff : p.off < L.dataBlkSize) (hn : L.dataBlkSize ≤ p.off + n)
    (hb : m.nblk p.blk = some b) :
    readData L m n p = .ok (m.read p (L.dataBlkSize - p.off) ++
      m.read ⟨b, 0⟩ (p.off + n - L.dataBlkSize), ⟨b, p.off + n - L.dataBlkSize⟩) := by
  have hsize : n - (L.dataBlkSize - p.off) = p.off + n - L.dataBlkSize := by omega
  unfold readData
  rw [L.freeSpace_eq hoff, if_pos (by omega), hb, hsize]
  rfl

theorem readData_single {p : Place} (hn : p.off + n < L.dataBlkSize) :
    readData L m n p = .ok (m.read p n, ⟨p.blk, p.off + n⟩) := by
  unfold readData
  rw [L.freeSpace_eq (by omega), if_neg (by omega)]
  rfl

theorem writeData_fits {p : Place} (splittingAllowed : Bool)
    (hlen : p.off + buf.length < L.dataBlkSize) :
    writeData L m buf p splittingAllowed = (⟨p.blk, p.off + buf.length⟩, m.write p buf) := by
  unfold writeData
  simp only [L.freeSpace_eq (show p.off < L.dataBlkSize by omega)]
  rw [if_neg (by omega)]

theorem writeData_split {p : Place} (hoff : p.off < L.dataBlkSize)
    (hlen : L.dataBlkSize ≤ p.off + buf.length) :
    writeData L m buf p true =
      (⟨(addBlockToChain m p.blk).1, p.off + buf.length - L.dataBlkSize⟩,
        ((addBlockToChain m p.blk).2.write p (buf.take (L.dataBlkSize - p.off))).write
          ⟨(addBlockToChain m p.blk).1, 0⟩ (buf.drop (L.dataBlkSize - p.off))) := by
  have hsize : buf.length - (L.dataBlkSize - p.off) = p.off + buf.length - L.dataBlkSize := by omega
  unfold writeData
  simp only [L.freeSpace_eq hoff, Bool.not_true, Bool.false_eq_true, if_false, hsize]
  rw [if_pos (by omega)]

def placeAt (L : Layout) (bs : List Nat) (i : Nat) : Place :=
  ⟨bs.getD (i / L.dataBlkSize) 0, i % L.dataBlkSize⟩

theorem placeAt_off_lt (i : Nat) : (placeAt L bs i).off < L.dataBlkSize :=
  Nat.mod_lt i L.dataBlkSize_pos

theorem placeAt_append (h : i / L.dataBlkSize < bs.length) :
    placeAt L (bs ++ [n]) i = placeAt L bs i := by
  unfold placeAt
  rw [getD_append _ _ _ _ h]

/-- The blocks are a chain that holds the bytes `xs`; there is room for another byte. -/
structure Stream (L : Layout) (m : Memory) (bs : List Nat) (xs : List Cell) : Prop where
  linked : Linked m bs
  nodup : bs.Nodup
  used : ∀ b ∈ bs, ¬ Free m b
  length : bs.length = xs.length / L.dataBlkSize + 1
  cells : ∀ i x, xs[i]? = some x → m.cell (placeAt L bs i).blk (placeAt L bs i).off = x

namespace Stream

section

variable (h : Stream L m bs xs)
include h

theorem block_lt (hi : i ≤ xs.length) : i / L.dataBlkSize < bs.length := by
  have := Nat.div_le_div_right (c := L.dataBlkSize) hi
  have := h.length
  omega

theorem blk_mem (hi : i ≤ xs.length) : (placeAt L bs i).blk ∈ bs := by
  have hlt := h.block_lt hi
  simp only [placeAt, getD_eq_getElem _ _ hlt]
  exact getElem_mem hlt

theorem touches {S : List Nat} (ht : Touches S m m') (hS : List.Disjoint bs S) :
    Stream L m' bs xs := by
  have hkeep := fun b hb => ht.keeps b (hS hb) (h.used b hb)
  refine ⟨h.linked.congr fun b hb => (hkeep b hb).2.1, h.nodup, fun b hb => (hkeep b hb).2.2,
    h.length, ?_⟩
  intro i x hx
  obtain ⟨hlt, -⟩ := List.getElem?_eq_some_iff.1 hx
  rw [(hkeep _ (h.blk_mem (le_of_lt hlt))).1]
  exact h.cells i x hx

theorem read_part {k : Nat} (hk : p % L.dataBlkSize + k ≤ L.dataBlkSize) (hlen : p + k ≤ xs.length)
    : m.read (placeAt L bs p) k = (xs.drop p).take k := by
  apply ext_getElem?
  intro i
  by_cases hi : i < k
  · have hpos : p + i < xs.length := by omega
    obtain ⟨hdiv, hmod⟩ := div_mod_same (show p % L.dataBlkSize + i < L.dataBlkSize by omega)
    have hcell := h.cells (p + i) xs[p + i] (getElem?_eq_getElem hpos)
    simp only [placeAt, hdiv, hmod] at hcell
    simp only [Memory.read, placeAt, getElem?_map, getElem?_range hi, Option.map_some,
      getElem?_take_of_lt hi, getElem?_drop, getElem?_eq_getElem hpos, hcell]
  · rw [getElem?_eq_none, getElem?_eq_none]
    · simp only [length_take, length_drop]
      omega
    · simp only [Memory.read, length_map, length_range]
      omega

theorem nblk_placeAt (hp : p / L.dataBlkSize + 1 < bs.length) :
    m.nblk (placeAt L bs p).blk = some (bs.getD (p / L.dataBlkSize + 1) 0) := by
  have hlt : p / L.dataBlkSize < bs.length := by omega
  have hblk : bs[p / L.dataBlkSize]? = some (placeAt L bs p).blk := by
    simp only [placeAt, getD_eq_getElem _ _ hlt]
    exact getElem?_eq_getElem hlt
  rw [h.linked.next hblk, getElem?_eq_getElem hp, getD_eq_getElem _ _ hp]

theorem readData (hn : n < L.dataBlkSize) (hlen : p + n ≤ xs.length) :
    readData L m n (placeAt L bs p) = .ok ((xs.drop p).take n, placeAt L bs (p + n)) := by
  have hoff : p % L.dataBlkSize < L.dataBlkSize := Nat.mod_lt p L.dataBlkSize_pos
  by_cases hspl : L.dataBlkSize ≤ p % L.dataBlkSize + n
  · -- the two parts are the rest of this block and the beginning of the next one
    obtain ⟨hdiv, hmod⟩ := div_mod_next hspl (by omega)
    have hrest : L.dataBlkSize ≤ p % L.dataBlkSize + (L.dataBlkSize - p % L.dataBlkSize) := by omega
    obtain ⟨hdiv', hmod'⟩ := div_mod_next hrest (by omega)
    have hnext : p / L.dataBlkSize + 1 < bs.length := by
      rw [← hdiv]
      exact h.block_lt hlen
    have hpl : placeAt L bs (p + (L.dataBlkSize - p % L.dataBlkSize)) =
        ⟨bs.getD (p / L.dataBlkSize + 1) 0, 0⟩ := by
      simp only [placeAt, hdiv', hmod']
      congr 1
      omega
    have hfst := h.read_part (p := p) (k := L.dataBlkSize - p % L.dataBlkSize) (by omega)
      (by omega)
    have hsnd := h.read_part (p := p + (L.dataBlkSize - p % L.dataBlkSize))
      (k := p % L.dataBlkSize + n - L.dataBlkSize) (by omega) (by omega)
    rw [hpl, ← drop_drop] at hsnd
    have htake : n = L.dataBlkSize - p % L.dataBlkSize +
        (p % L.dataBlkSize + n - L.dataBlkSize) := by omega
    rw [readData_split (placeAt_off_lt p) hspl (h.nblk_placeAt hnext)]
    show Except.ok (m.read (placeAt L bs p) (L.dataBlkSize - p % L.dataBlkSize) ++
      m.read ⟨bs.getD (p / L.dataBlkSize + 1) 0, 0⟩ (p % L.dataBlkSize + n - L.dataBlkSize), _) = _
    rw [hfst, hsnd, ← take_add, ← htake]
    simp [placeAt, hdiv, hmod]
  · obtain ⟨hdiv, hmod⟩ := div_mod_same (Nat.lt_of_not_le hspl)
    rw [readData_single (Nat.lt_of_not_le hspl), h.read_part (by omega) hlen]
    simp [placeAt, hdiv, hmod]

theorem getLast : ∃ front, bs = front ++ [(placeAt L bs xs.length).blk] := by
  have hlen := h.length
  have hne : bs ≠ [] := by
    intro heq
    simp [heq] at hlen
  refine ⟨bs.dropLast, ?_⟩
  have hlast : (placeAt L bs xs.length).blk = bs.getLast hne := by
    have hindex : xs.length / L.dataBlkSize = bs.length - 1 := by rw [hlen, Nat.add_sub_cancel]
    simp only [placeAt, hindex, getLast_eq_getElem]
    exact getD_eq_getElem _ _ (by omega)
  rw [hlast, dropLast_append_getLast hne]

theorem cell_write_end (hi : i < xs.length) (m0 : Memory) (cells : List Cell) :
    (m0.write (placeAt L bs xs.length) cells).cell (placeAt L bs i).blk (placeAt L bs i).off =
      m0.cell (placeAt L bs i).blk (placeAt L bs i).off := by
  by_cases hsame : i / L.dataBlkSize = xs.length / L.dataBlkSize
  · apply write_cell_before
    have hi' := Nat.div_add_mod i L.dataBlkSize
    have hend := Nat.div_add_mod xs.length L.dataBlkSize
    rw [hsame] at hi'
    simp only [placeAt]
    omega
  · apply write_cell_of_ne
    intro heq
    have hlt := h.block_lt (le_of_lt hi)
    have hlt' := h.block_lt (le_refl xs.length)
    simp only [placeAt, getD_eq_getElem _ _ hlt, getD_eq_getElem _ _ hlt'] at heq
    exact hsame ((h.nodup.getElem_inj_iff).1 heq)

end

end Stream

/-- What appending to a stream does, given the place and the memory it returns. -/
structure Appended (L : Layout) (m : Memory) (bs : List Nat) (xs : List Cell)
    (result : Place × Memory) (bs' : List Nat) : Prop where
  blocks : bs' = bs ∨ ∃ n, Free m n ∧ bs' = bs ++ [n]
  place : result.1 = placeAt L bs' xs.length
  stream : Stream L result.2 bs' xs
  touches : Touches bs m result.2

namespace Stream

theorem append_fits (h : Stream L m bs xs) (hs : Sound m)
    (hlen : xs.length % L.dataBlkSize + buf.length < L.dataBlkSize) :
    Appended L m bs (xs ++ buf) (writeData L m buf (placeAt L bs xs.length) true) bs := by
  obtain ⟨hdiv, hmod⟩ := div_mod_same hlen
  have htch : Touches bs m (m.write (placeAt L bs xs.length) buf) := by
    apply (touches_write hs (placeAt L bs xs.length) buf).mono
    intro b hb
    rw [mem_singleton.1 hb]
    exact .inl (h.blk_mem le_rfl)
  rw [writeData_fits true hlen]
  refine ⟨.inl rfl, ?_, ⟨h.linked.congr fun _ _ => rfl, h.nodup, h.used, ?_, ?_⟩, htch⟩
  · simp [placeAt, hdiv, hmod]
  · rw [h.length, length_append, hdiv]
  · refine forall_getElem?_append (fun i x hx => ?_) fun j x hx => ?_
    · obtain ⟨hi, -⟩ := List.getElem?_eq_some_iff.1 hx
      rw [h.cell_write_end hi]
      exact h.cells i x hx
    · obtain ⟨hj, -⟩ := List.getElem?_eq_some_iff.1 hx
      obtain ⟨hdivj, hmodj⟩ := div_mod_same
        (show xs.length % L.dataBlkSize + j < L.dataBlkSize by omega)
      simp only [placeAt, hdivj, hmodj]
      exact m.write_cell_at (placeAt L bs xs.length) buf hx

theorem append_split (h : Stream L m bs xs) (hs : Sound m) (hbuf : buf.length < L.dataBlkSize)
    (hlen : L.dataBlkSize ≤ xs.length % L.dataBlkSize + buf.length) :
    ∃ bs', Appended L m bs (xs ++ buf) (writeData L m buf (placeAt L bs xs.length) true) bs' := by
  have hoff : xs.length % L.dataBlkSize < L.dataBlkSize := @placeAt_off_lt L bs xs.length
  obtain ⟨hdiv, hmod⟩ := div_mod_next hlen (by omega)
  obtain ⟨front, hfront⟩ := h.getLast
  have hmem := h.blk_mem (le_refl xs.length)
  have hadded := addBlockToChain_spec hs (h.used _ hmem)
  rw [writeData_split (placeAt_off_lt _) hlen]
  generalize hn : (addBlockToChain m (placeAt L bs xs.length).blk).1 = n at hadded
  generalize hm1 : (addBlockToChain m (placeAt L bs xs.length).blk).2 = m1 at hadded
  have hfr : ∀ b ∈ bs, b ≠ n := fun b hb heq => h.used b hb (heq ▸ hadded.free)
  have hlinked : Linked m1 (bs ++ [n]) := by
    have hold := h.linked
    have hnd := h.nodup
    have hused := h.used
    rw [hfront] at hold hnd hused ⊢
    apply hold.append _ hadded.next hadded.last
    intro b hb
    have hne : b ≠ (placeAt L bs xs.length).blk := by
      intro heq
      exact (nodup_append.1 hnd).2.2 b hb b (by rw [heq]; exact mem_singleton_self _)
        rfl
    exact (hadded.touches.keeps b (by simpa using hne) (hused b (by simp [hb]))).2.1
  refine ⟨bs ++ [n], .inr ⟨n, hadded.free, rfl⟩, ?_,
    ⟨hlinked.congr fun _ _ => rfl, ?_, ?_, ?_, ?_⟩, ?_⟩
  · simp only [placeAt, length_append, hdiv, hmod]
    rw [getD_append_right _ _ _ _ (by rw [h.length]), h.length, Nat.sub_self]
    rfl
  · apply nodup_append.2
    refine ⟨h.nodup, nodup_singleton n, ?_⟩
    intro b hb c hc
    rw [mem_singleton.1 hc]
    exact hfr b hb
  · intro b hb
    cases mem_append.1 hb with
    | inl hold => exact hadded.stays b (h.used b hold)
    | inr hnew => rw [mem_singleton.1 hnew]; exact hadded.used
  · simp [h.length, hdiv]
  · refine forall_getElem?_append (fun i x hx => ?_) fun j x hx => ?_
    · -- a byte that was there before
      obtain ⟨hi, -⟩ := List.getElem?_eq_some_iff.1 hx
      rw [placeAt_append (h.block_lt (le_of_lt hi)), write_cell_of_ne _ _ _
        (hfr _ (h.blk_mem (le_of_lt hi))),
        h.cell_write_end hi, hadded.cell]
      exact h.cells i x hx
    obtain ⟨hj, -⟩ := List.getElem?_eq_some_iff.1 hx
    by_cases hpart : xs.length % L.dataBlkSize + j < L.dataBlkSize
    · -- a new byte in the block that was the last one
      obtain ⟨hdivj, hmodj⟩ := div_mod_same hpart
      have hpl : placeAt L (bs ++ [n]) (xs.length + j) =
          ⟨(placeAt L bs xs.length).blk, (placeAt L bs xs.length).off + j⟩ := by
        rw [placeAt_append (by rw [hdivj]; exact h.block_lt le_rfl)]
        simp [placeAt, hdivj, hmodj]
      rw [hpl, write_cell_of_ne _ _ _ (hfr _ hmem)]
      apply write_cell_at
      rw [getElem?_take_of_lt (by simp only [placeAt]; omega)]
      exact hx
    · -- a new byte in the new block
      obtain ⟨hdivj, hmodj⟩ := div_mod_next (Nat.le_of_not_lt hpart) (by omega)
      have hpl : placeAt L (bs ++ [n]) (xs.length + j) =
          ⟨n, 0 + (xs.length % L.dataBlkSize + j - L.dataBlkSize)⟩ := by
        simp only [placeAt, hdivj, hmodj]
        rw [getD_append_right _ _ _ _ (by rw [h.length]), h.length, Nat.sub_self, Nat.zero_add]
        rfl
      rw [hpl]
      apply write_cell_at
      rw [getElem?_drop]
      convert hx using 2
      simp only [placeAt]
      omega
  · have hchn : Touches bs m m1 := by
      apply hadded.touches.mono
      intro b hb
      rw [mem_singleton.1 hb]
      exact .inl hmem
    have hfst := hchn.trans (touches_write hchn.sound (placeAt L bs xs.length)
      (buf.take (L.dataBlkSize - xs.length % L.dataBlkSize))) (by simp [hmem])
    exact hfst.trans (touches_write hfst.sound ⟨n, 0⟩ _) (by simp [hadded.free])

theorem append (h : Stream L m bs xs) (hs : Sound m) (buf : List Cell)
    (hbuf : buf.length < L.dataBlkSize) :
    ∃ bs', Appended L m bs (xs ++ buf) (writeData L m buf (placeAt L bs xs.length) true) bs' := by
  by_cases hlen : L.dataBlkSize ≤ xs.length % L.dataBlkSize + buf.length
  · exact h.append_split hs hbuf hlen
  · exact ⟨bs, h.append_fits hs (by omega)⟩

theorem empty (h : Taken m n m') : Stream L m' [n] [] := by
  refine ⟨⟨h.last, trivial⟩, nodup_singleton n, ?_, ?_, ?_⟩
  · intro b hb
    rw [mem_singleton.1 hb]
    exact h.used
  · simp
  · intro i x hx
    simp at hx

end Stream

end

end Sedna.Sorting
