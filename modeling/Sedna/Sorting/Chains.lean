import Sedna.Sorting.Merging

/-!
# Sorted chains

A chain is a stream in which each tuple stands behind its size.  `makeNewChain`
copies the values of a chain of pointers to a new stream; reading it from its
start returns the tuples one after the other.  Between two calls of `add` the accumulator holds
the tuples that were added since it was last initialized, and each chain holds a group of tuples
in order; no block belongs to both.
-/

namespace Sedna.Sorting

open Library.Lists List PtrBlocks

variable {T : Type*} {cfg : Config T} {m m' : Memory} {vs cs cs' : List Nat}
  {xs : List Cell} {L : Layout} {d : PtrBlocks} {c : SSChain} {ts : List T} {t : T}

def tupleCells (cfg : Config T) (t : T) : List Cell :=
  sizeCells cfg.layout (cfg.serializer.serialize t).length ++
    (cfg.serializer.serialize t).map Cell.byte

def chainCells (cfg : Config T) (ts : List T) : List Cell := ts.flatMap (tupleCells cfg)

@[simp] theorem length_sizeCells (L : Layout) (n : Nat) : (sizeCells L n).length = L.sizeSize := by
  simp [sizeCells]

theorem chainCells_append (ts us : List T) :
    chainCells cfg (ts ++ us) = chainCells cfg ts ++ chainCells cfg us :=
  flatMap_append

theorem Layout.sizeSize_lt (L : Layout) : L.sizeSize < L.dataBlkSize := by
  have := L.size_fits
  unfold dataBlkSize
  omega

/-! ## Writing a chain -/

/-- The state while a chain is written: it holds `ts`, and its blocks are apart from those of the
pointers `d` and of the values. -/
structure CopyInv (cfg : Config T) (m : Memory) (vs : List Nat) (xs : List Cell) (d : PtrBlocks)
    (c : SSChain) (cs : List Nat) (ts : List T) : Prop where
  sound : Sound m
  values : Stream cfg.layout m vs xs
  chain : PtrChain cfg.layout m d
  out : Stream cfg.layout m cs (chainCells cfg ts)
  place : c.place = placeAt cfg.layout cs (chainCells cfg ts).length
  toRead : c.toRead = ts.length
  first : cs.head? = some c.firstBlock
  apartValues : List.Disjoint vs cs
  apartPtrs : List.Disjoint d.blocks cs

structure Copied (m : Memory) (cs : List Nat) (m' : Memory) (cs' : List Nat) : Prop where
  blocks : ∀ b ∈ cs', b ∈ cs ∨ Free m b
  touches : Touches cs m m'

theorem Copied.refl (hs : Sound m) : Copied m cs m cs := ⟨fun _ hb => .inl hb, Touches.refl hs⟩

theorem Copied.trans {m1 : Memory} {cs1 : List Nat} (h : Copied m cs m1 cs1)
    (h' : Copied m1 cs1 m' cs') : Copied m cs m' cs' := by
  refine ⟨?_, h.touches.trans h'.touches h.blocks⟩
  exact fun b hb => (h'.blocks b hb).elim (h.blocks b) h.touches.mem_or_free

theorem Appended.copied {ys : List Cell} {result : Place × Memory}
    (h : Appended L m cs ys result cs') : Copied m cs result.2 cs' :=
  ⟨mem_or_free h.blocks, h.touches⟩

theorem CopyInv.add (h : CopyInv cfg m vs xs d c cs ts)
    (hsize : (cfg.serializer.serialize t).length < cfg.layout.dataBlkSize) :
    ∃ cs', CopyInv cfg (c.add cfg m (cfg.serializer.serialize t)).2 vs xs d
        (c.add cfg m (cfg.serializer.serialize t)).1 cs' (ts ++ [t]) ∧
      Copied m cs (c.add cfg m (cfg.serializer.serialize t)).2 cs' := by
  obtain ⟨cs1, hfst⟩ := h.out.append h.sound
    (sizeCells cfg.layout (cfg.serializer.serialize t).length)
    (by rw [length_sizeCells]; exact cfg.layout.sizeSize_lt)
  unfold SSChain.add
  rw [h.place]
  obtain ⟨cs', hsnd⟩ := hfst.stream.append hfst.touches.sound
    ((cfg.serializer.serialize t).map Cell.byte) (by simpa using hsize)
  have hpl := hfst.place
  simp only [hpl]
  have hcells : chainCells cfg ts ++ sizeCells cfg.layout (cfg.serializer.serialize t).length ++
      (cfg.serializer.serialize t).map Cell.byte = chainCells cfg (ts ++ [t]) := by
    simp [chainCells, tupleCells]
  rw [hcells] at hsnd
  have hcopy := hfst.copied.trans hsnd.copied
  refine ⟨cs', ⟨hcopy.touches.sound, ?_, ?_, hsnd.stream, hsnd.place, ?_,
    head?_of_extended hsnd.blocks (head?_of_extended hfst.blocks h.first),
    disjoint_of_mem_or_free h.apartValues hcopy.blocks h.values.used,
    disjoint_of_mem_or_free h.apartPtrs hcopy.blocks h.chain.used⟩, hcopy⟩
  · exact h.values.touches hcopy.touches h.apartValues
  · exact h.chain.touches hcopy.touches h.apartPtrs
  · simp [h.toRead]

theorem ValAt.length_lt {p : DataPtr} {v : List UInt8} (h : ValAt L vs xs p v) :
    v.length < L.dataBlkSize := by
  obtain ⟨pos, -, hsize, -⟩ := h
  exact hsize

theorem copyValues_spec {b i : Nat} {ps : List DataPtr} {us : List T}
    (h : CopyInv cfg m vs xs d c cs ts) (hb : b ∈ d.blocks) (hptrs : BlockPtrs cfg.layout m b i ps)
    (hrefs : Refs cfg vs xs ps us) :
    ∃ c' m' cs', copyValues cfg b ps.length i m c = .ok (c', m') ∧
      CopyInv cfg m' vs xs d c' cs' (ts ++ us) ∧ Copied m cs m' cs' := by
  induction hrefs generalizing m c cs ts i with
  | nil =>
    rw [append_nil]
    exact ⟨c, m, cs, rfl, h, Copied.refl h.sound⟩
  | @cons p u ps us hval _ ih =>
    obtain ⟨cs1, hinv, hcopy⟩ := h.add hval.length_lt
    have hkeep := (hcopy.touches.keeps b (h.apartPtrs hb) (h.chain.used b hb)).1
    obtain ⟨c', m', cs', heq, hinv', hcopy'⟩ := ih hinv (hptrs.tail.congr hkeep)
    refine ⟨c', m', cs', ?_, ?_, hcopy.trans hcopy'⟩
    · rw [length_cons, copyValues, getVal_eq hptrs.head h.values hval]
      exact heq
    · rwa [append_cons]

theorem CopyInv.tail {e : Nat × List DataPtr} {fulls : List (Nat × List DataPtr)} {last : Nat}
    {ptrs : List DataPtr} (h : CopyInv cfg m vs xs ⟨e :: fulls, last, ptrs⟩ c cs ts) :
    CopyInv cfg m vs xs ⟨fulls, last, ptrs⟩ c cs ts :=
  ⟨h.sound, h.values, h.chain.tail.1, h.out, h.place, h.toRead, h.first, h.apartValues,
    fun _ hb hmem => h.apartPtrs (mem_cons_of_mem _ hb) hmem⟩

theorem copyBlocks_spec {fulls : List (Nat × List DataPtr)} {last : Nat} {ptrs : List DataPtr}
    {us : List T} {fuel it : Nat} (h : CopyInv cfg m vs xs ⟨fulls, last, ptrs⟩ c cs ts)
    (hrefs : Refs cfg vs xs (entries ⟨fulls, last, ptrs⟩) us)
    (hit : (blocks ⟨fulls, last, ptrs⟩).head? = some it) (hfuel : fulls.length < fuel) :
    ∃ c' m' cs', copyBlocks cfg ptrs.length fuel it m c = .ok (c', m') ∧
      CopyInv cfg m' vs xs ⟨[], last, ptrs⟩ c' cs' (ts ++ us) ∧ Copied m cs m' cs' := by
  induction fulls generalizing m c cs ts us fuel it with
  | nil =>
    obtain _ | fuel := fuel
    · omega
    obtain rfl : last = it := by simpa [blocks] using hit
    have hnblk : m.nblk last = none := h.chain.linked.1
    unfold copyBlocks
    rw [hnblk]
    exact copyValues_spec h (PtrChain.last_mem _) h.chain.ptrs hrefs
  | cons e fulls ih =>
    obtain _ | fuel := fuel
    · omega
    obtain rfl : e.1 = it := by simpa [blocks] using hit
    obtain ⟨-, -, hnblk⟩ := h.chain.tail
    obtain ⟨next, hnext⟩ := exists_head ⟨fulls, last, ptrs⟩
    obtain ⟨hfull, hptrs⟩ := h.chain.full e (by simp)
    rw [entries_cons] at hrefs
    obtain ⟨us1, us2, rfl, hrefs1, hrefs2⟩ := hrefs.split
    obtain ⟨c1, m1, cs1, heq, hinv, hcopy⟩ :=
      copyValues_spec h (by simp [blocks]) hptrs hrefs1
    obtain ⟨c', m', cs', heq', hinv', hcopy'⟩ :=
      ih hinv.tail hrefs2 hnext (Nat.lt_of_succ_lt_succ hfuel)
    refine ⟨c', m', cs', ?_, ?_, hcopy.trans hcopy'⟩
    · unfold copyBlocks
      rw [hnblk, hnext, ← hfull]
      simp only [heq, bind, Except.bind]
      exact heq'
    · rwa [← append_assoc]

/-! ## Reading a chain -/

/-- The chain is read up to the tuple `t`, which is its current value; `rest` is still to come. -/
structure ReadAt (cfg : Config T) (m : Memory) (c : SSChain) (t : T) (rest : List T) : Prop where
  value : c.value = cfg.serializer.serialize t
  toRead : c.toRead = rest.length
  stream : ∃ cs done, Stream cfg.layout m cs (chainCells cfg (done ++ rest)) ∧
    c.place = placeAt cfg.layout cs (chainCells cfg done).length
  sizes : ∀ u ∈ rest, (cfg.serializer.serialize u).length < cfg.layout.dataBlkSize

theorem decodeSize_sizeCells (L : Layout) (n : Nat) : decodeSize L (sizeCells L n) = .ok n := by
  have hhd : (sizeCells L n).head? = some (.sizeByte n 0) := by
    obtain ⟨k, hk⟩ : ∃ k, L.sizeSize = k + 1 := ⟨L.sizeSize - 1, by have := L.sizeSize_pos; omega⟩
    rw [sizeCells, hk, range_succ_eq_map]
    rfl
  unfold decodeSize
  rw [hhd]
  exact if_pos rfl

theorem drop_append_take {α : Type*} (front part back : List α) :
    ((front ++ (part ++ back)).drop front.length).take part.length = part := by
  rw [drop_left, take_left]

theorem SSChain.next_spec {done rest : List T}
    (hst : Stream cfg.layout m cs (chainCells cfg (done ++ t :: rest)))
    (hpl : c.place = placeAt cfg.layout cs (chainCells cfg done).length)
    (hsize : (cfg.serializer.serialize t).length < cfg.layout.dataBlkSize) :
    c.next cfg m = .ok { c with
      value := cfg.serializer.serialize t
      place := placeAt cfg.layout cs (chainCells cfg (done ++ [t])).length
      toRead := c.toRead - 1 } := by
  have hcells : chainCells cfg (done ++ t :: rest) = chainCells cfg done ++
      (sizeCells cfg.layout (cfg.serializer.serialize t).length ++
        ((cfg.serializer.serialize t).map Cell.byte ++ chainCells cfg rest)) := by
    rw [chainCells_append]
    simp [chainCells, tupleCells]
  have hlen : (chainCells cfg (done ++ [t])).length = (chainCells cfg done).length +
      cfg.layout.sizeSize + (cfg.serializer.serialize t).length := by
    rw [chainCells_append]
    simp [chainCells, tupleCells, add_assoc]
  have htotal := congrArg length hcells
  simp only [length_append, length_sizeCells, length_map] at htotal
  -- first the size, then as many bytes
  have hreadSize := hst.readData (p := (chainCells cfg done).length) cfg.layout.sizeSize_lt
    (by omega)
  have hreadValue := hst.readData (p := (chainCells cfg done).length + cfg.layout.sizeSize) hsize
    (by omega)
  have hsizePart := drop_append_take (chainCells cfg done)
    (sizeCells cfg.layout (cfg.serializer.serialize t).length)
    ((cfg.serializer.serialize t).map Cell.byte ++ chainCells cfg rest)
  have hvaluePart := drop_append_take
    (chainCells cfg done ++ sizeCells cfg.layout (cfg.serializer.serialize t).length)
    ((cfg.serializer.serialize t).map Cell.byte) (chainCells cfg rest)
  rw [length_sizeCells] at hsizePart
  rw [length_append, length_sizeCells, append_assoc, length_map] at hvaluePart
  rw [hcells, hsizePart] at hreadSize
  rw [hcells, hvaluePart] at hreadValue
  unfold SSChain.next
  rw [hpl, hlen]
  simp only [hreadSize, hreadValue, bind, Except.bind, decodeSize_sizeCells, bytesOf_map]
  rfl

theorem ReadAt.next {u : T} {rest : List T} (h : ReadAt cfg m c t (u :: rest)) :
    ∃ c', c.next cfg m = .ok c' ∧ ReadAt cfg m c' u rest := by
  obtain ⟨cs, done, hst, hpl⟩ := h.stream
  refine ⟨_, SSChain.next_spec hst hpl (h.sizes u (by simp)), rfl, ?_,
    ⟨cs, done ++ [u], ?_, rfl⟩,
    fun v hv => h.sizes v (by simp [hv])⟩
  · show c.toRead - 1 = rest.length
    rw [h.toRead]
    simp
  · rwa [append_assoc]

structure ChainMade (cfg : Config T) (m : Memory) (ts : List T) (m' : Memory) (c : SSChain)
    (cs : List Nat) : Prop where
  reads : ∃ t rest, ts = t :: rest ∧ c.value = cfg.serializer.serialize t ∧
    c.toRead = rest.length ∧ c.place = placeAt cfg.layout cs (chainCells cfg [t]).length
  stream : Stream cfg.layout m' cs (chainCells cfg ts)
  blocks : ∀ b ∈ cs, Free m b
  touches : Touches [] m m'

theorem makeNewChain_spec {first : Nat} (hs : Sound m) (hst : Stream cfg.layout m vs xs)
    (h : PtrChain cfg.layout m d) (hfst : d.blocks.head? = some first)
    (hrefs : Refs cfg vs xs d.entries ts) (hne : ts ≠ []) :
    ∃ c m' cs, makeNewChain cfg m first d.ptrs.length = .ok (c, m') ∧
      ChainMade cfg m ts m' c cs := by
  have htaken := getFreeBlock_spec hs
  unfold makeNewChain SSChain.create
  generalize getFreeBlock m = taken at htaken
  obtain ⟨n, m1⟩ := taken
  have hfr : ∀ b, ¬ Free m b → b ∉ [n] := by
    intro b hb hmem
    exact hb (mem_singleton.1 hmem ▸ htaken.free)
  obtain ⟨fulls, last, ptrs⟩ := d
  have hchn : PtrChain cfg.layout m1 ⟨fulls, last, ptrs⟩ := h.touches htaken.touches (by simp)
  have hinv : CopyInv cfg m1 vs xs ⟨fulls, last, ptrs⟩ ⟨[], n, ⟨n, 0⟩, 0⟩ [n] [] := by
    refine ⟨htaken.touches.sound, hst.touches htaken.touches (by simp), hchn,
      Stream.empty htaken, ?_, rfl, rfl, fun b hb => hfr b (hst.used b hb),
      fun b hb => hfr b (h.used b hb)⟩
    simp [placeAt, chainCells]
  have hfuel : fulls.length < m1.fresh := by
    have hlen := length_le_fresh hchn.nodup hchn.used
    simp only [blocks, length_append, length_map, length_singleton] at hlen
    omega
  obtain ⟨c, m', cs, heq, hinv', hcopy⟩ := copyBlocks_spec hinv hrefs hfst hfuel
  obtain ⟨t, rest, rfl⟩ := exists_cons_of_ne_nil hne
  have hsizes : ∀ u ∈ t :: rest,
      (cfg.serializer.serialize u).length < cfg.layout.dataBlkSize := by
    intro u hu
    obtain ⟨p, -, hval⟩ := exists_of_forall₂ hrefs hu
    exact hval.length_lt
  have hsta : (⟨c.firstBlock, 0⟩ : Place) =
      placeAt cfg.layout cs (chainCells cfg ([] : List T)).length := by
    have hhd := hinv'.first
    cases cs with
    | nil => simp at hhd
    | cons b cs =>
      obtain rfl : b = c.firstBlock := by simpa using hhd
      simp [placeAt, chainCells]
  have hnext : SSChain.next cfg m' { c with place := ⟨c.firstBlock, 0⟩ } = .ok { c with
      value := cfg.serializer.serialize t
      place := placeAt cfg.layout cs (chainCells cfg [t]).length
      toRead := c.toRead - 1 } :=
    @SSChain.next_spec T cfg m' cs _ t [] rest hinv'.out hsta (hsizes t (by simp))
  refine ⟨{ c with
      value := cfg.serializer.serialize t
      place := placeAt cfg.layout cs (chainCells cfg [t]).length
      toRead := c.toRead - 1 }, m', cs, ?_, ⟨t, rest, rfl, rfl, ?_, rfl⟩, hinv'.out, ?_, ?_⟩
  · unfold SSChain.setEnd
    simp only [heq, bind, Except.bind, hnext]
    rfl
  · show c.toRead - 1 = rest.length
    rw [hinv'.toRead]
    simp
  · intro b hb
    rcases hcopy.blocks b hb with hmem | hfree
    · rw [mem_singleton.1 hmem]
      exact htaken.free
    · exact (htaken.touches.mem_or_free hfree).resolve_left (by simp)
  · exact htaken.touches.trans hcopy.touches (by simp [htaken.free])

open SortedSequence

variable {s : SortedSequence} {c : PtrBlocks} {groups : List (List T)}

/-! ## Groups of tuples in chains -/

structure ChainHolds (cfg : Config T) (m : Memory) (c : SSChain) (cs : List Nat) (ts : List T) :
    Prop where
  reads : ∃ t rest, ts = t :: rest ∧ c.value = cfg.serializer.serialize t ∧
    c.toRead = rest.length ∧ c.place = placeAt cfg.layout cs (chainCells cfg [t]).length
  stream : Stream cfg.layout m cs (chainCells cfg ts)
  inOrder : InOrder cfg ts
  sizes : ∀ t ∈ ts, (cfg.serializer.serialize t).length < cfg.layout.dataBlkSize

/-- The chains hold the groups in blocks that are not in `owned`. -/
def ChainsHold (cfg : Config T) (m : Memory) (owned : List Nat) :
    List SSChain → List (List T) → Prop :=
  List.Forall₂ fun c ts => ∃ cs, ChainHolds cfg m c cs ts ∧ List.Disjoint cs owned

theorem ChainsHold.touches {owned owned' S : List Nat} {chains : List SSChain}
    (h : ChainsHold cfg m owned chains groups) (ht : Touches S m m')
    (hS : ∀ b ∈ S, b ∈ owned ∨ Free m b) (howned : ∀ b ∈ owned', b ∈ owned ∨ Free m b) :
    ChainsHold cfg m' owned' chains groups := by
  apply List.Forall₂.imp _ h
  intro d us ⟨cs, hholds, hapart⟩
  have hused := hholds.stream.used
  exact ⟨cs, ⟨hholds.reads, hholds.stream.touches ht (disjoint_of_mem_or_free hapart hS hused),
    hholds.inOrder, hholds.sizes⟩, disjoint_of_mem_or_free hapart howned hused⟩

/-! ## The accumulator -/

def valueCells (cfg : Config T) (ts : List T) : List Cell :=
  ts.flatMap fun t => (cfg.serializer.serialize t).map Cell.byte

/-- The blocks of the accumulator hold the tuples: the pointers `c` and the values. -/
structure AccHolds (cfg : Config T) (s : SortedSequence) (c : PtrBlocks) (vs : List Nat)
    (ts : List T) : Prop where
  ptrs : PtrChain cfg.layout s.mem c
  firstPtr : c.blocks.head? = some s.firstPtrBlock
  values : Stream cfg.layout s.mem vs (valueCells cfg ts)
  firstVal : vs.head? = some s.firstValBlock
  apart : List.Disjoint vs c.blocks

structure Collecting (cfg : Config T) (s : SortedSequence) (c : PtrBlocks) (vs : List Nat)
    (ts : List T) (groups : List (List T)) : Prop where
  sound : Sound s.mem
  acc : AccHolds cfg s c vs ts
  ptrPlace : s.ptrPlace = c.place cfg.layout
  valPlace : s.valPlace = placeAt cfg.layout vs (valueCells cfg ts).length
  refs : Refs cfg vs (valueCells cfg ts) c.entries ts
  count : s.elementsCount = ts.length
  chains : ChainsHold cfg s.mem (c.blocks ++ vs) s.chains groups
  adding : s.finalized = false

theorem initAccumulator_spec (hs : Sound s.mem) (hchains : ChainsHold cfg s.mem [] s.chains groups)
    (hadding : s.finalized = false) : ∃ c vs, Collecting cfg s.initAccumulator c vs [] groups := by
  have hfst := getFreeBlock_spec hs
  unfold initAccumulator
  generalize getFreeBlock s.mem = taken at hfst
  obtain ⟨p, m1⟩ := taken
  have hsnd := getFreeBlock_spec hfst.touches.sound
  simp only
  generalize getFreeBlock m1 = taken at hsnd
  obtain ⟨v, m2⟩ := taken
  have hptrs : PtrChain cfg.layout m2 ⟨[], p, []⟩ :=
    (PtrChain.create hfst).touches hsnd.touches (by simp)
  have hne : v ≠ p := fun heq => hfst.used (heq ▸ hsnd.free)
  have hfree : Free s.mem v := (hfst.touches.mem_or_free hsnd.free).resolve_left (by simp)
  have htch : Touches [] s.mem m2 := hfst.touches.trans hsnd.touches (by simp)
  refine ⟨⟨[], p, []⟩, [v], ⟨htch.sound, ⟨hptrs, rfl, Stream.empty hsnd, rfl, ?_⟩, ?_, ?_,
    List.Forall₂.nil, rfl, ?_, hadding⟩⟩
  · intro b hb hmem
    simp only [blocks, map_nil, nil_append, mem_singleton] at hb hmem
    exact hne (hb.symm.trans hmem)
  · simp [place]
  · simp [placeAt, valueCells]
  · apply ChainsHold.touches hchains htch (by simp)
    intro b hb
    right
    simp only [blocks, map_nil, nil_append, cons_append, mem_cons, not_mem_nil, or_false] at hb
    rcases hb with hp | hv
    · rw [hp]; exact hfst.free
    · rw [hv]; exact hfree

theorem ValAt.extend {L : Layout} {vs' : List Nat} {xs ys : List Cell} {p : DataPtr}
    {v : List UInt8} (h : ValAt L vs xs p v) (hst : Stream L m vs xs)
    (hvs : vs' = vs ∨ ∃ n, Free m' n ∧ vs' = vs ++ [n]) : ValAt L vs' (xs ++ ys) p v := by
  obtain ⟨pos, hp, hsize, hlen, hbytes⟩ := h
  refine ⟨pos, ?_, hsize, ?_, ?_⟩
  · rw [hp]
    rcases hvs with rfl | ⟨n, -, rfl⟩
    · rfl
    · rw [placeAt_append (hst.block_lt (by omega))]
  · rw [length_append]
    omega
  · rw [drop_append_of_le_length (by omega), take_append_of_le_length]
    · exact hbytes
    · rw [length_drop]
      omega

theorem store_spec (h : Collecting cfg s c vs ts groups) {t : T}
    (hsize : (cfg.serializer.serialize t).length < cfg.layout.dataBlkSize) :
    ∃ c' vs', Collecting cfg (s.store cfg t) c' vs' (ts ++ [t]) groups := by
  have hmod : (cfg.serializer.serialize t).length % 65536 =
      (cfg.serializer.serialize t).length := by
    apply Nat.mod_eq_of_lt
    unfold Layout.dataBlkSize pageSize at hsize
    omega
  unfold store
  simp only [hmod, h.ptrPlace, h.valPlace]
  obtain ⟨c', hptr⟩ := h.acc.ptrs.append h.sound ⟨placeAt cfg.layout vs (valueCells cfg ts).length,
    (cfg.serializer.serialize t).length⟩
  generalize writeData cfg.layout s.mem _ (c.place cfg.layout) false = w at hptr
  have hvals : Stream cfg.layout w.2 vs (valueCells cfg ts) :=
    h.acc.values.touches hptr.touches h.acc.apart
  obtain ⟨vs', hval⟩ := hvals.append hptr.touches.sound
    ((cfg.serializer.serialize t).map Cell.byte) (by simpa using hsize)
  generalize writeData cfg.layout w.2 _ _ true = w' at hval
  have hcells : valueCells cfg ts ++ (cfg.serializer.serialize t).map Cell.byte =
      valueCells cfg (ts ++ [t]) := by
    simp [valueCells]
  have hptrBlocks : ∀ b ∈ c'.blocks, b ∈ c.blocks ∨ Free s.mem b := mem_or_free hptr.blocks
  have hcopy : Copied w.2 vs w'.2 vs' := hval.copied
  have hapart : List.Disjoint vs c'.blocks :=
    disjoint_of_mem_or_free h.acc.apart hptrBlocks h.acc.values.used
  have hptrs : PtrChain cfg.layout w'.2 c' := hptr.chain.touches hval.touches hapart.symm
  have htch : Touches (c.blocks ++ vs) s.mem w'.2 := by
    apply (hptr.touches.mono _).trans hval.touches
    · exact fun b hb => .inl (mem_append_right _ hb)
    · exact fun b hb => .inl (mem_append_left _ hb)
  refine ⟨c', vs', ⟨hval.touches.sound, ⟨hptrs, head?_of_extended hptr.blocks h.acc.firstPtr, ?_,
    head?_of_extended hval.blocks h.acc.firstVal, ?_⟩, hptr.place, ?_, ?_, ?_, ?_, h.adding⟩⟩
  · rw [← hcells]
    exact hval.stream
  · exact (disjoint_of_mem_or_free hapart.symm hcopy.blocks hptr.chain.used).symm
  · rw [← hcells]
    exact hval.place
  · rw [hptr.entries, ← hcells]
    apply rel_append
    · exact List.Forall₂.imp (fun p u hat => hat.extend hvals hval.blocks) h.refs
    · refine List.Forall₂.cons ⟨(valueCells cfg ts).length, ?_, hsize, by simp, ?_⟩ List.Forall₂.nil
      · rcases hval.blocks with hsame | ⟨n, -, hnew⟩
        · rw [hsame]
        · rw [hnew, placeAt_append (hvals.block_lt le_rfl)]
      · rw [drop_left, ← length_map, take_length]
  · simp [h.count]
  · apply ChainsHold.touches h.chains htch (fun b hb => .inl hb)
    intro b hb
    cases mem_append.1 hb with
    | inl hp => exact (hptrBlocks b hp).imp_left (mem_append_left _)
    | inr hv =>
      rcases hcopy.blocks b hv with hold | hfree
      · exact .inl (mem_append_right _ hold)
      · exact (hptr.touches.mem_or_free hfree).imp_left (mem_append_left _)

/-! ## Spilling the accumulator -/

structure Spilled (cfg : Config T) (s : SortedSequence) (s' : SortedSequence) (d : PtrBlocks)
    (vs : List Nat) (ts : List T) (groups : List (List T)) : Prop where
  sound : Sound s'.mem
  acc : AccHolds cfg s' d vs ts
  chains : ChainsHold cfg s'.mem (d.blocks ++ vs) s'.chains groups
  finalized : s'.finalized = s.finalized

theorem finalizeAccumulator_spec (hlaw : cfg.serializer.Lawful) (hsort : cfg.StdSorts)
    (hs : Sound s.mem) (h : AccHolds cfg s c vs ts)
    (hrefs : Refs cfg vs (valueCells cfg ts) c.entries ts) (hcount : s.elementsCount = ts.length)
    (hchains : ChainsHold cfg s.mem (c.blocks ++ vs) s.chains groups) (hne : ts ≠ []) :
    ∃ s' d us, s.finalizeAccumulator cfg = .ok s' ∧ us ~ ts ∧
      Spilled cfg s s' d vs ts (groups ++ [us]) := by
  -- the blocks of pointers are sorted
  have hlen := length_le_fresh h.ptrs.nodup h.ptrs.used
  simp only [blocks, length_append, length_map, length_singleton] at hlen
  have hptrs : PtrChain cfg.layout s.mem ⟨c.fulls, c.last, c.ptrs⟩ := h.ptrs
  obtain ⟨m1, c1, tss, hsorted, hchn⟩ := sortBlocks_spec hlaw hsort hs h.values hptrs hrefs
    h.apart h.firstPtr (show c.fulls.length < s.mem.fresh by omega)
  have hvals1 : Stream cfg.layout m1 vs (valueCells cfg ts) :=
    h.values.touches hchn.touches h.apart
  -- and merged
  obtain ⟨first, m2, out, us, hmerge, hres, hord, hperm⟩ := blocksSort_spec hlaw
    hchn.touches.sound hvals1 hchn.chain (by rw [hchn.blocks]; exact h.firstPtr)
    hchn.sorted (by rw [hchn.blocks]; exact h.apart)
  have hvals2 : Stream cfg.layout m2 vs (valueCells cfg ts) := by
    apply hvals1.touches hres.touches
    rw [hchn.blocks]
    exact h.apart
  have hperm' : us ~ ts := hperm.trans hchn.perm
  have hlast : out.ptrs.length = c.ptrs.length := by
    apply hres.chain.length_ptrs_eq h.ptrs
    rw [hres.refs.length_eq, hperm'.length_eq, hrefs.length_eq]
  have hus : us ≠ [] := by
    intro hnil
    rw [hnil] at hperm'
    exact hne hperm'.nil_eq.symm
  -- then their values are copied
  obtain ⟨chain, m3, cs, hmake, hmade⟩ := makeNewChain_spec hres.touches.sound hvals2
    hres.chain hres.head hres.refs hus
  have hsizes : ∀ u ∈ us, (cfg.serializer.serialize u).length < cfg.layout.dataBlkSize := by
    intro u hu
    obtain ⟨p, -, hval⟩ := exists_of_forall₂ hres.refs hu
    exact hval.length_lt
  have htch : Touches c.blocks s.mem m2 := by
    apply hchn.touches.trans hres.touches
    rw [hchn.blocks]
    exact fun b hb => .inl hb
  have hblocks : ∀ b ∈ out.blocks, b ∈ c.blocks ∨ Free s.mem b := by
    intro b hb
    rcases hres.blocks b hb with hmem | hfree
    · exact .inl (hchn.blocks ▸ hmem)
    · exact .inr ((hchn.free b).1 hfree)
  have hout : PtrChain cfg.layout m3 out := hres.chain.touches hmade.touches (by simp)
  have hchains' : ChainsHold cfg m3 (out.blocks ++ vs) s.chains groups := by
    apply ChainsHold.touches hchains (htch.trans hmade.touches (by simp))
    · exact fun b hb => .inl (mem_append_left _ hb)
    · intro b hb
      cases mem_append.1 hb with
      | inl hp => exact (hblocks b hp).imp_left (mem_append_left _)
      | inr hv => exact .inl (mem_append_right _ hv)
  refine ⟨{ s with mem := m3, firstPtrBlock := first, chains := s.chains ++ [chain] }, out, us, ?_,
    hperm', ⟨hmade.touches.sound, ⟨hout, hres.head, ?_, h.firstVal, ?_⟩, ?_, rfl⟩⟩
  · unfold finalizeAccumulator
    rw [if_neg (by rw [hcount]; exact fun hzero => hne (length_eq_zero_iff.1 hzero)), hcount,
      ← hrefs.length_eq]
    rw [hlast] at hmake
    rw [hchn.length] at hmerge
    simp only [hsorted, bind, Except.bind, hmerge, hmake]
    rfl
  · exact hvals2.touches hmade.touches (by simp)
  · exact disjoint_of_mem_or_free h.apart hblocks h.values.used
  · apply rel_append hchains'
    refine List.Forall₂.cons ⟨cs, ⟨hmade.reads, hmade.stream, hord, hsizes⟩, ?_⟩ List.Forall₂.nil
    intro b hb hmem
    have hfree := hmade.blocks b hb
    cases mem_append.1 hmem with
    | inl hp => exact hres.chain.used b hp hfree
    | inr hv => exact hvals2.used b hv hfree

theorem freeChain_spec {bs : List Nat} {b fuel : Nat} (hs : Sound m) (h : Linked m (b :: bs))
    (hnd : (b :: bs).Nodup) (hused : ∀ d ∈ b :: bs, ¬ Free m d) (hfuel : bs.length < fuel) :
    ∃ m', freeChain fuel b m = .ok m' ∧ Touches (b :: bs) m m' := by
  induction bs generalizing m b fuel with
  | nil =>
    obtain _ | fuel := fuel
    · omega
    have hnone : m.nblk b = none := h.1
    refine ⟨m.pushBack b, ?_, touches_pushBack hs (hused b (by simp))⟩
    unfold freeChain
    rw [hnone]
    rfl
  | cons d bs ih =>
    obtain _ | fuel := fuel
    · omega
    obtain ⟨hnotMem, hnd'⟩ := nodup_cons.1 hnd
    have hsome : m.nblk b = some d := h.1
    have hpush := touches_pushBack hs (hused b (by simp))
    have hused' : ∀ e ∈ d :: bs, ¬ Free (m.pushBack b) e := by
      intro e he
      apply (hpush.keeps e _ (hused e (mem_cons_of_mem _ he))).2.2
      intro hmem
      exact hnotMem (mem_singleton.1 hmem ▸ he)
    have hfuel' : bs.length < fuel := by
      simp only [length_cons] at hfuel
      omega
    obtain ⟨m', heq, htch⟩ :=
      ih hpush.sound (h.2.congr fun _ _ => rfl) hnd' hused' hfuel'
    refine ⟨m', ?_, ?_⟩
    · unfold freeChain
      rw [hsome]
      exact heq
    · apply (hpush.mono _).trans htch
      · exact fun e he => .inl (mem_cons_of_mem _ he)
      · exact fun e he => .inl (by rw [mem_singleton.1 he]; simp)

theorem freeChain_all {bs : List Nat} {b : Nat} (hs : Sound m) (h : Linked m bs)
    (hfst : bs.head? = some b) (hnd : bs.Nodup) (hused : ∀ d ∈ bs, ¬ Free m d) :
    ∃ m', freeChain m.fresh b m = .ok m' ∧ Touches bs m m' := by
  cases bs with
  | nil => simp at hfst
  | cons d bs =>
    obtain rfl : d = b := by simpa using hfst
    exact freeChain_spec hs h hnd hused (length_le_fresh hnd hused)

theorem reinitAccumulator_spec {s' : SortedSequence} {d : PtrBlocks}
    (h : Spilled cfg s s' d vs ts groups) (hadding : s.finalized = false) :
    ∃ s'' c' vs', s'.reinitAccumulator = .ok s'' ∧ Collecting cfg s'' c' vs' [] groups := by
  obtain ⟨m1, heq1, htch1⟩ := freeChain_all h.sound h.acc.ptrs.linked h.acc.firstPtr
    h.acc.ptrs.nodup h.acc.ptrs.used
  have hvals : Stream cfg.layout m1 vs (valueCells cfg ts) :=
    h.acc.values.touches htch1 h.acc.apart
  obtain ⟨m2, heq2, htch2⟩ := freeChain_all htch1.sound hvals.linked h.acc.firstVal
    hvals.nodup hvals.used
  have htch : Touches (d.blocks ++ vs) s'.mem m2 := by
    apply (htch1.mono _).trans htch2
    · exact fun b hb => .inl (mem_append_right _ hb)
    · exact fun b hb => .inl (mem_append_left _ hb)
  have hchains : ChainsHold cfg m2 [] s'.chains groups :=
    ChainsHold.touches h.chains htch (fun b hb => .inl hb) (by simp)
  obtain ⟨c', vs', hcollecting⟩ := initAccumulator_spec (s := { s' with mem := m2 })
    htch.sound hchains (h.finalized.trans hadding)
  refine ⟨_, c', vs', ?_, hcollecting⟩
  unfold reinitAccumulator freeAccumulator
  simp only [heq1, bind, Except.bind, heq2]
  rfl

theorem add_spec (hlaw : cfg.serializer.Lawful) (hsort : cfg.StdSorts)
    (h : Collecting cfg s c vs ts groups) {t : T}
    (hsize : (cfg.serializer.serialize t).length < cfg.layout.dataBlkSize) :
    ∃ s' c' vs' ts' groups', s.add cfg t = .ok s' ∧ Collecting cfg s' c' vs' ts' groups' ∧
      groups'.flatten ++ ts' ~ t :: (groups.flatten ++ ts) := by
  obtain ⟨c1, vs1, hstore⟩ := store_spec h hsize
  have hperm : groups.flatten ++ (ts ++ [t]) ~ t :: (groups.flatten ++ ts) := by
    rw [← append_assoc]
    exact perm_append_singleton t _
  unfold add
  rw [if_neg (by rw [h.adding]; simp)]
  by_cases hfull : maxBlocksInChain < (s.store cfg t).blocksCount
  · obtain ⟨s2, d, us, heq, hus, hspilled⟩ := finalizeAccumulator_spec hlaw hsort hstore.sound
      hstore.acc hstore.refs hstore.count hstore.chains (by simp)
    obtain ⟨s', c', vs', heq', hcollecting⟩ := reinitAccumulator_spec hspilled hstore.adding
    refine ⟨s', c', vs', [], groups ++ [us], ?_, hcollecting, ?_⟩
    · rw [if_pos hfull]
      simp only [heq, bind, Except.bind]
      exact heq'
    · simp only [flatten_append, flatten_cons, flatten_nil, append_nil]
      exact (hus.append_left _).trans hperm
  · refine ⟨s.store cfg t, c1, vs1, ts ++ [t], groups, ?_, hstore, hperm⟩
    rw [if_neg hfull]
    rfl

theorem addAll_spec (hlaw : cfg.serializer.Lawful) (hsort : cfg.StdSorts) {us : List T}
    (h : Collecting cfg s c vs ts groups)
    (hsizes : ∀ u ∈ us, (cfg.serializer.serialize u).length < cfg.layout.dataBlkSize) :
    ∃ s' c' vs' ts' groups', addAll cfg us s = .ok s' ∧
      Collecting cfg s' c' vs' ts' groups' ∧
      groups'.flatten ++ ts' ~ us ++ (groups.flatten ++ ts) := by
  induction us generalizing s c vs ts groups with
  | nil => exact ⟨s, c, vs, ts, groups, rfl, h, .refl _⟩
  | cons u us ih =>
    obtain ⟨s1, c1, vs1, ts1, groups1, heq, hadd, hperm⟩ := add_spec hlaw hsort h
      (hsizes u (by simp))
    obtain ⟨s', c', vs', ts', groups', heq', hrest, hperm'⟩ :=
      ih hadd fun v hv => hsizes v (by simp [hv])
    refine ⟨s', c', vs', ts', groups', ?_, hrest, ?_⟩
    · unfold addAll
      simp only [heq, bind, Except.bind]
      exact heq'
    · have hmid : us ++ (groups1.flatten ++ ts1) ~ us ++ u :: (groups.flatten ++ ts) :=
        hperm.append_left us
      exact hperm'.trans (hmid.trans perm_middle)

theorem create_spec (hs : Sound m) : ∃ c vs, Collecting cfg (create m) c vs [] [] :=
  initAccumulator_spec hs List.Forall₂.nil rfl

end Sedna.Sorting
