import Sedna.Sorting.PointerBlocks

/-!
# Merging sorted sequences of pointers

`mergeBlocks` reads two sequences block by block and writes their pointers to a new chain.  A
block that was read to its end goes to the pool at once and may be taken again for the new chain,
so the blocks still to be read, those of the new chain and those of the values are apart at every
moment.  `blocksSort` starts with one sequence for each sorted block of pointers and merges them
pairwise until one is left.
-/

namespace Sedna.Sorting

open List

variable {T : Type*} {cfg : Config T} {m m' : Memory} {vs : List Nat} {xs : List Cell}
  {S : List Nat} {t : T} {out' : PtrBlocks}

/-! ## What is still to be read of a sequence -/

/-- The pointers of the first block are read from the index `j` on; another block follows a full
one only, and a block that is filled to its last byte has a next one. -/
structure FirstReadable (L : Layout) (m : Memory) (j : Nat) (d : Nat × List DataPtr)
    (rest : List (Nat × List DataPtr)) : Prop where
  ne_nil : d.2 ≠ []
  ptrs : BlockPtrs L m d.1 j d.2
  le : j + d.2.length ≤ L.ptrBlkSize
  next : ∀ e ∈ rest.head?, j + d.2.length = L.ptrBlkSize ∧ m.nblk d.1 = some e.1
  exact : (j + d.2.length) * L.ptrSize = L.dataBlkSize → m.nblk d.1 ≠ none

def Readable (L : Layout) (m : Memory) : Nat → List (Nat × List DataPtr) → Prop
  | _, [] => True
  | j, d :: rest => FirstReadable L m j d rest ∧ Readable L m 0 rest

structure Rest (cfg : Config T) (m : Memory) (vs : List Nat) (xs : List Cell) (j : Nat)
    (ds : List (Nat × List DataPtr)) (ts : List T) : Prop where
  readable : Readable cfg.layout m j ds
  refs : Refs cfg vs xs (ds.flatMap Prod.snd) ts
  nodup : (ds.map Prod.fst).Nodup
  used : ∀ b ∈ ds.map Prod.fst, ¬ Free m b

structure SideAt (cfg : Config T) (m : Memory) (vs : List Nat) (xs : List Cell) (s : Side)
    (j : Nat) (ds : List (Nat × List DataPtr)) (ts : List T) : Prop where
  count : s.written + ts.length = s.size
  block : ∀ d ∈ ds.head?, s.block = some d.1 ∧ s.written % cfg.layout.ptrBlkSize = j
  rest : Rest cfg m vs xs j ds ts

structure Loaded (cfg : Config T) (s : Side) (ds : List (Nat × List DataPtr)) (ts : List T) :
    Prop where
  ptr : ∀ p ∈ (ds.flatMap Prod.snd).head?, s.ptr = p
  val : ∀ t ∈ ts.head?, s.val = cfg.serializer.serialize t

section

theorem Readable.congr {L : Layout} {j : Nat} {ds : List (Nat × List DataPtr)}
    (h : Readable L m j ds)
    (hsame : ∀ b ∈ ds.map Prod.fst, (∀ o, m'.cell b o = m.cell b o) ∧ m'.nblk b = m.nblk b) :
    Readable L m' j ds := by
  induction ds generalizing j with
  | nil => trivial
  | cons d rest ih =>
    obtain ⟨hfst, hrest⟩ := h
    obtain ⟨hcell, hnblk⟩ := hsame d.1 (by simp)
    refine ⟨⟨hfst.ne_nil, hfst.ptrs.congr hcell, hfst.le, ?_, ?_⟩,
      ih hrest (forall_mem_cons.1 hsame).2⟩
    · intro e he
      rw [hnblk]
      exact hfst.next e he
    · rw [hnblk]
      exact hfst.exact

theorem Rest.touches {j : Nat} {ds : List (Nat × List DataPtr)} {ts : List T}
    (h : Rest cfg m vs xs j ds ts) (ht : Touches S m m') (hS : Disjoint (ds.map Prod.fst) S) :
    Rest cfg m' vs xs j ds ts := by
  have hkeep := fun b hb => ht.keeps b (hS hb) (h.used b hb)
  exact ⟨h.readable.congr fun b hb => ⟨(hkeep b hb).1, (hkeep b hb).2.1⟩, h.refs, h.nodup,
    fun b hb => (hkeep b hb).2.2⟩

theorem SideAt.touches {s : Side} {j : Nat} {ds : List (Nat × List DataPtr)} {ts : List T}
    (h : SideAt cfg m vs xs s j ds ts) (ht : Touches S m m')
    (hS : Disjoint (ds.map Prod.fst) S) : SideAt cfg m' vs xs s j ds ts :=
  ⟨h.count, h.block, h.rest.touches ht hS⟩

end

/-! ## Reading one pointer after the other -/

section

variable {s : Side} {j : Nat} {ds : List (Nat × List DataPtr)} {ts : List T}

theorem SideAt.load (h : SideAt cfg m vs xs s j ds ts) (hst : Stream cfg.layout m vs xs) :
    ∃ s', s.load cfg m = .ok s' ∧ SideAt cfg m vs xs s' j ds ts ∧ Loaded cfg s' ds ts := by
  unfold Side.load
  cases ts with
  | nil =>
    have hcount : s.written = s.size := h.count
    have hnil : ds.flatMap Prod.snd = [] := by
      have hlen := h.rest.refs.length_eq
      exact length_eq_zero_iff.1 hlen
    rw [if_neg (by omega)]
    exact ⟨s, rfl, h, ⟨by simp [hnil], by simp⟩⟩
  | cons t ts =>
    have hcount : s.written + (ts.length + 1) = s.size := h.count
    rw [if_pos (by omega)]
    cases ds with
    | nil => exact absurd h.rest.refs.length_eq (by simp)
    | cons d rest =>
      obtain ⟨hblk, hindex⟩ := h.block d (by simp)
      obtain ⟨hfst, -⟩ := h.rest.readable
      obtain ⟨b, ps⟩ := d
      cases ps with
      | nil => exact absurd rfl hfst.ne_nil
      | cons p ps =>
        have hat : PtrAt cfg.layout m b j p := hfst.ptrs.head
        have hval : ValAt cfg.layout vs xs p (cfg.serializer.serialize t) := by
          have hrefs := h.rest.refs
          exact (forall₂_cons.1 hrefs).1
        have hle := hfst.le
        simp only [length_cons] at hle
        have hptr : getPtr cfg m b j = .ok p := by
          apply getPtr_eq (by omega) hat
          intro hexact
          have hlast : ps.length = 0 := by
            by_contra hpos
            have hroom := Layout.slot_le (L := cfg.layout) (i := j + 1) (by omega)
            have := cfg.layout.ptrSize_pos
            rw [Nat.succ_mul] at hroom
            omega
          apply hfst.exact
          rw [length_cons, hlast, Nat.succ_mul]
          exact hexact
        refine ⟨{ s with ptr := p, val := cfg.serializer.serialize t }, ?_,
          ⟨hcount, h.block, h.rest⟩, ?_, ?_⟩
        · simp only [hblk, hindex, deref, bind, Except.bind, hptr, getVal_eq hat hst hval]
          rfl
        · intro q hq
          simpa using hq
        · intro u hu
          rw [show t = u by simpa using hu]

structure Advanced (cfg : Config T) (m : Memory) (vs : List Nat) (xs : List Cell)
    (ds : List (Nat × List DataPtr)) (ts : List T) (m' : Memory) (s' : Side) (j' : Nat)
    (ds' : List (Nat × List DataPtr)) : Prop where
  side : SideAt cfg m' vs xs s' j' ds' ts
  entries : ds'.flatMap Prod.snd = (ds.flatMap Prod.snd).tail
  blocks : ∀ b ∈ ds'.map Prod.fst, b ∈ ds.map Prod.fst
  touches : Touches (ds.map Prod.fst) m m'

theorem SideAt.release_keep {b : Nat} {p q : DataPtr} {ps : List DataPtr}
    {rest : List (Nat × List DataPtr)} (hs : Sound m)
    (h : SideAt cfg m vs xs s j ((b, p :: q :: ps) :: rest) (t :: ts)) :
    ∃ s', s.release cfg m = .ok (s', m) ∧
      Advanced cfg m vs xs ((b, p :: q :: ps) :: rest) ts m s' (j + 1) ((b, q :: ps) :: rest) := by
  obtain ⟨hfst, hrest⟩ := h.rest.readable
  obtain ⟨hblk, hindex⟩ := h.block _ rfl
  have hle := hfst.le
  simp only [length_cons] at hle
  have hnextIndex : (s.written + 1) % cfg.layout.ptrBlkSize = j + 1 := by
    have hlt : s.written % cfg.layout.ptrBlkSize + 1 < cfg.layout.ptrBlkSize := by omega
    rw [(div_mod_same hlt).2, hindex]
  have hrefs := h.rest.refs
  have htail := (forall₂_cons.1 hrefs).2
  have hlen : (q :: (ps ++ rest.flatMap Prod.snd)).length = ts.length := Refs.length_eq htail
  have hcount := h.count
  simp only [length_cons] at hlen hcount
  refine ⟨{ s with written := s.written + 1 }, ?_,
    ⟨?_, ?_, ⟨⟨⟨by simp, hfst.ptrs.tail, ?_, ?_, ?_⟩,
    hrest⟩, ?_, h.rest.nodup, h.rest.used⟩⟩, rfl, fun b hb => hb, Touches.refl hs⟩
  · unfold Side.release
    rw [if_neg]
    · rfl
    · simp only [hnextIndex]
      omega
  · show s.written + 1 + ts.length = s.size
    omega
  · intro d hd
    obtain rfl : (b, q :: ps) = d := by simpa using hd
    exact ⟨hblk, hnextIndex⟩
  · simp only [length_cons]
    omega
  · intro e he
    obtain ⟨hfull, hnblk⟩ := hfst.next e he
    simp only [length_cons] at hfull ⊢
    exact ⟨by omega, hnblk⟩
  · intro hexact
    apply hfst.exact
    rw [← hexact]
    congr 1
    simp only [length_cons]
    omega
  · exact htail

theorem SideAt.release_free {b : Nat} {p : DataPtr} {rest : List (Nat × List DataPtr)}
    (hs : Sound m) (h : SideAt cfg m vs xs s j ((b, [p]) :: rest) (t :: ts)) :
    ∃ s', s.release cfg m = .ok (s', m.pushBack b) ∧
      Advanced cfg m vs xs ((b, [p]) :: rest) ts (m.pushBack b) s' 0 rest := by
  obtain ⟨hfst, hrest⟩ := h.rest.readable
  obtain ⟨hblk, hindex⟩ := h.block _ rfl
  obtain ⟨hnotMem, hnd⟩ := nodup_cons.1 h.rest.nodup
  have hused : ¬ Free m b := h.rest.used b (by simp)
  have htch := touches_pushBack hs hused
  have hrefs := h.rest.refs
  have htail := (forall₂_cons.1 hrefs).2
  have hlen : (rest.flatMap Prod.snd).length = ts.length := Refs.length_eq htail
  have hcount := h.count
  simp only [length_cons] at hcount
  have hzero : ∀ e ∈ rest.head?, (s.written + 1) % cfg.layout.ptrBlkSize = 0 := by
    intro e he
    have hfull := (hfst.next e he).1
    simp only [length_singleton] at hfull
    rw [(div_mod_next (by omega) (by omega)).2]
    omega
  have hcond : (s.written + 1) % cfg.layout.ptrBlkSize = 0 ∨ s.size = s.written + 1 := by
    cases rest with
    | nil =>
      right
      simp only [flatMap_nil, length_nil] at hlen
      omega
    | cons e rest => exact .inl (hzero e rfl)
  refine ⟨{ s with written := s.written + 1, block := m.nblk b }, ?_, ⟨?_, ?_,
    (⟨hrest, htail, hnd, (forall_mem_cons.1 h.rest.used).2⟩ :
      Rest cfg m vs xs 0 rest ts).touches htch ?_⟩, rfl,
    fun c hc => mem_cons_of_mem _ hc, htch.mono (by simp)⟩
  · unfold Side.release
    rw [if_pos hcond]
    simp only [hblk, deref, bind, bind]
    rfl
  · show s.written + 1 + ts.length = s.size
    omega
  · intro e he
    exact ⟨(hfst.next e he).2, hzero e he⟩
  · intro c hc hmem
    exact hnotMem (mem_singleton.1 hmem ▸ hc)

theorem SideAt.release (hs : Sound m) (h : SideAt cfg m vs xs s j ds (t :: ts)) :
    ∃ s' m' j' ds', s.release cfg m = .ok (s', m') ∧ Advanced cfg m vs xs ds ts m' s' j' ds' := by
  cases ds with
  | nil => exact absurd h.rest.refs.length_eq (by simp)
  | cons d rest =>
    obtain ⟨b, ps⟩ := d
    match ps with
    | [] => exact absurd rfl h.rest.readable.1.ne_nil
    | [p] =>
      obtain ⟨s', heq, hadv⟩ := h.release_free hs
      exact ⟨s', _, _, _, heq, hadv⟩
    | p :: q :: ps =>
      obtain ⟨s', heq, hadv⟩ := h.release_keep hs
      exact ⟨s', _, _, _, heq, hadv⟩

theorem SideAt.advance (hs : Sound m) (h : SideAt cfg m vs xs s j ds (t :: ts))
    (hst : Stream cfg.layout m vs xs) (hapart : Disjoint vs (ds.map Prod.fst)) :
    ∃ s' m' j' ds', s.advance cfg m = .ok (s', m') ∧ Loaded cfg s' ds' ts ∧
      Advanced cfg m vs xs ds ts m' s' j' ds' := by
  obtain ⟨s1, m', j', ds', heq, hadv⟩ := h.release hs
  have hst' : Stream cfg.layout m' vs xs := hst.touches hadv.touches hapart
  obtain ⟨s', heq', hside, hloaded⟩ := hadv.side.load hst'
  refine ⟨s', m', j', ds', ?_, hloaded, ⟨hside, hadv.entries, hadv.blocks,
    hadv.touches⟩⟩
  unfold Side.advance
  simp only [heq, bind, Except.bind, heq']
  rfl

end

/-! ## The merging loop -/

/-- The merged tuples: one of the first list comes before one of the second list only where it is
less. -/
def mergeTuples (cfg : Config T) (ts us : List T) : List T := us.merge ts fun u t => !cfg.less t u

theorem mergeTuples_nil_left (us : List T) : mergeTuples cfg [] us = us := by
  simp [mergeTuples]

theorem mergeTuples_nil_right (ts : List T) : mergeTuples cfg ts [] = ts := by
  simp [mergeTuples]

theorem mergeTuples_cons (t u : T) (ts us : List T) :
    mergeTuples cfg (t :: ts) (u :: us) =
      if cfg.less t u then t :: mergeTuples cfg ts (u :: us)
      else u :: mergeTuples cfg (t :: ts) us := by
  unfold mergeTuples
  rw [cons_merge_cons]
  cases cfg.less t u <;> rfl

theorem mergeTuples_perm (ts us : List T) : mergeTuples cfg ts us ~ ts ++ us :=
  (merge_perm_append _).trans perm_append_comm

theorem InOrder.merge (hlaw : cfg.serializer.Lawful) {ts us : List T} (hts : InOrder cfg ts)
    (hus : InOrder cfg us) : InOrder cfg (mergeTuples cfg ts us) := by
  have hpairwise := @pairwise_merge T (fun u t => !cfg.less t u) ?_ ?_ us ts ?_ ?_
  · exact hpairwise.imp fun h => by simpa using h
  · intro t u v htu huv
    simp only [Bool.not_eq_true'] at htu huv ⊢
    exact less_trans hlaw huv htu
  · intro t u
    cases hlt : cfg.less u t with
    | false => simp
    | true => simp [less_asymm hlaw hlt]
  · exact hus.imp fun h => by simpa using h
  · exact hts.imp fun h => by simpa using h

/-- The blocks of the two sides, of the new chain and of the values are apart. -/
structure Apart (B1 B2 O V : List Nat) : Prop where
  sides : List.Disjoint B1 B2
  out1 : List.Disjoint B1 O
  out2 : List.Disjoint B2 O
  values1 : List.Disjoint V B1
  values2 : List.Disjoint V B2
  valuesOut : List.Disjoint V O

namespace Apart

variable {B1 B1' B2 O O' V : List Nat}

theorem symm (h : Apart B1 B2 O V) : Apart B2 B1 O V :=
  ⟨h.sides.symm, h.out2, h.out1, h.values2, h.values1, h.valuesOut⟩

theorem step (h : Apart B1 B2 O V) (hB : ∀ b ∈ B1', b ∈ B1) (hO : ∀ b ∈ O', b ∈ O ∨ Free m b)
    (h1 : ∀ b ∈ B1, ¬ Free m b) (h2 : ∀ b ∈ B2, ¬ Free m b) (hV : ∀ b ∈ V, ¬ Free m b) :
    Apart B1' B2 O' V := by
  refine ⟨?_, ?_, ?_, ?_, ?_, ?_⟩
  · exact fun b hb hb2 => h.sides (hB b hb) hb2
  · exact fun b hb hbo => (hO b hbo).elim (h.out1 (hB b hb)) (h1 b (hB b hb))
  · exact disjoint_of_mem_or_free h.out2 hO h2
  · exact fun b hv hb => h.values1 hv (hB b hb)
  · exact h.values2
  · exact disjoint_of_mem_or_free h.valuesOut hO hV

end Apart

/-- The state of the merging loop: two sides, and a new chain that holds what was written. -/
structure MergeInv (cfg : Config T) (m : Memory) (vs : List Nat) (xs : List Cell)
    (s1 s2 : Side) (ds1 ds2 : List (Nat × List DataPtr)) (ts1 ts2 : List T) (out : PtrBlocks)
    (ws : List T) : Prop where
  sound : Sound m
  values : Stream cfg.layout m vs xs
  side1 : ∃ j, SideAt cfg m vs xs s1 j ds1 ts1
  side2 : ∃ j, SideAt cfg m vs xs s2 j ds2 ts2
  loaded1 : Loaded cfg s1 ds1 ts1
  loaded2 : Loaded cfg s2 ds2 ts2
  chain : PtrChain cfg.layout m out
  refs : Refs cfg vs xs out.entries ws
  apart : Apart (ds1.map Prod.fst) (ds2.map Prod.fst) out.blocks vs

section

variable {s1 s2 : Side} {ds1 ds2 : List (Nat × List DataPtr)} {ts1 ts2 ws : List T}
  {out : PtrBlocks}

theorem MergeInv.symm (h : MergeInv cfg m vs xs s1 s2 ds1 ds2 ts1 ts2 out ws) :
    MergeInv cfg m vs xs s2 s1 ds2 ds1 ts2 ts1 out ws :=
  ⟨h.sound, h.values, h.side2, h.side1, h.loaded2, h.loaded1, h.chain, h.refs, h.apart.symm⟩

structure MergeStep (cfg : Config T) (m : Memory) (ds1 : List (Nat × List DataPtr))
    (out : PtrBlocks) (m' : Memory) (ds1' : List (Nat × List DataPtr)) (out' : PtrBlocks) :
    Prop where
  blocks : ∀ b ∈ ds1'.map Prod.fst, b ∈ ds1.map Prod.fst
  outBlocks : ∀ b ∈ out'.blocks, b ∈ out.blocks ∨ Free m b
  head : out'.blocks.head? = out.blocks.head?
  touches : Touches (ds1.map Prod.fst ++ out.blocks) m m'

theorem MergeInv.take (h : MergeInv cfg m vs xs s1 s2 ds1 ds2 (t :: ts1) ts2 out ws) :
    ∃ s1' m' ds1' out',
      (s1.advance cfg (writeData cfg.layout m (ptrCells cfg.layout s1.ptr)
        (out.place cfg.layout) false).2 = .ok (s1', m')) ∧
      (writeData cfg.layout m (ptrCells cfg.layout s1.ptr) (out.place cfg.layout) false).1 =
        out'.place cfg.layout ∧
      MergeInv cfg m' vs xs s1' s2 ds1' ds2 ts1 ts2 out' (ws ++ [t]) ∧
      MergeStep cfg m ds1 out m' ds1' out' := by
  obtain ⟨j1, hside1⟩ := h.side1
  obtain ⟨j2, hside2⟩ := h.side2
  obtain ⟨out', happ⟩ := h.chain.append h.sound s1.ptr
  generalize hw : writeData cfg.layout m (ptrCells cfg.layout s1.ptr) (out.place cfg.layout) false =
    w at happ
  -- writing the pointer touches the new chain only
  have hvals : Stream cfg.layout w.2 vs xs := h.values.touches happ.touches h.apart.valuesOut
  have hside1' := hside1.touches happ.touches h.apart.out1
  have hside2' := hside2.touches happ.touches h.apart.out2
  -- taking the next pointer touches the blocks of the first side only
  obtain ⟨s1', m', j', ds1', heq, hloaded, hadv⟩ :=
    hside1'.advance happ.touches.sound hvals h.apart.values1
  have hout : ∀ b ∈ out'.blocks, b ∈ out.blocks ∨ Free m b := mem_or_free happ.blocks
  have hapart' : Apart (ds1.map Prod.fst) (ds2.map Prod.fst) out'.blocks vs :=
    h.apart.step (fun b hb => hb) hout hside1.rest.used hside2.rest.used h.values.used
  have hhd : out'.blocks.head? = out.blocks.head? := by
    obtain ⟨first, hfst⟩ := PtrBlocks.exists_head out
    rw [hfst, head?_of_extended happ.blocks hfst]
  have hptr : ValAt cfg.layout vs xs s1.ptr (cfg.serializer.serialize t) := by
    have hrefs := hside1.rest.refs
    cases hflat : ds1.flatMap Prod.snd with
    | nil => rw [hflat] at hrefs; exact absurd hrefs.length_eq (by simp)
    | cons p ps =>
      rw [hflat] at hrefs
      rw [h.loaded1.ptr p (by simp [hflat])]
      exact (forall₂_cons.1 hrefs).1
  refine ⟨s1', m', ds1', out', heq, happ.place,
    ⟨hadv.touches.sound, ?_, ⟨j', hadv.side⟩, ⟨j2, ?_⟩, hloaded, h.loaded2, ?_, ?_, ?_⟩,
    ⟨hadv.blocks, hout, hhd, ?_⟩⟩
  · exact hvals.touches hadv.touches h.apart.values1
  · exact hside2'.touches hadv.touches h.apart.sides.symm
  · exact happ.chain.touches hadv.touches hapart'.out1.symm
  · rw [happ.entries]
    exact rel_append h.refs (Forall₂.cons hptr Forall₂.nil)
  · exact hapart'.step hadv.blocks (fun b hb => .inl hb) hside1'.rest.used hside2'.rest.used
      hvals.used
  · have hfst : Touches (ds1.map Prod.fst ++ out.blocks) m w.2 :=
      happ.touches.mono fun b hb => .inl (mem_append_right _ hb)
    exact hfst.trans hadv.touches fun b hb => .inl (mem_append_left _ hb)

/-- What merging leaves: a chain that starts with the given block and holds the given tuples.  Its
blocks were free, or among those in `S`, which are the only ones touched. -/
structure MergeResult (cfg : Config T) (m : Memory) (vs : List Nat) (xs : List Cell)
    (S : List Nat) (head : Option Nat) (ws : List T) (m' : Memory) (out' : PtrBlocks) : Prop where
  chain : PtrChain cfg.layout m' out'
  refs : Refs cfg vs xs out'.entries ws
  head : out'.blocks.head? = head
  blocks : ∀ b ∈ out'.blocks, b ∈ S ∨ Free m b
  touches : Touches S m m'

theorem MergeResult.of_touches {S' : List Nat} {head : Option Nat} {m1 : Memory}
    (ht : Touches S m m1) (h : MergeResult cfg m1 vs xs S' head ws m' out')
    (hS : ∀ b ∈ S', b ∈ S ∨ Free m b) : MergeResult cfg m vs xs S head ws m' out' := by
  refine ⟨h.chain, h.refs, h.head, ?_, ht.trans h.touches hS⟩
  exact fun b hb => (h.blocks b hb).elim (hS b) ht.mem_or_free

theorem MergeResult.swap {B1 B2 O : List Nat} {head : Option Nat} (hs : Sound m)
    (h : MergeResult cfg m vs xs (B1 ++ B2 ++ O) head ws m' out') :
    MergeResult cfg m vs xs (B2 ++ B1 ++ O) head ws m' out' := by
  apply MergeResult.of_touches (Touches.refl hs) h
  intro b hb
  left
  simp only [mem_append] at hb ⊢
  rw [or_comm (a := b ∈ B2)]
  exact hb

theorem MergeStep.then {m1 : Memory} {ds1' : List (Nat × List DataPtr)} {out1 : PtrBlocks}
    (hstep : MergeStep cfg m ds1 out m1 ds1' out1)
    (h : MergeResult cfg m1 vs xs (ds1'.map Prod.fst ++ ds2.map Prod.fst ++ out1.blocks)
      out1.blocks.head? ws m' out') :
    MergeResult cfg m vs xs (ds1.map Prod.fst ++ ds2.map Prod.fst ++ out.blocks)
      out.blocks.head? ws m' out' := by
  have htch : Touches (ds1.map Prod.fst ++ ds2.map Prod.fst ++ out.blocks) m m1 := by
    apply hstep.touches.mono
    intro b hb
    left
    simp only [mem_append] at hb ⊢
    rcases hb with hside | hout
    · exact .inl (.inl hside)
    · exact .inr hout
  rw [← hstep.head]
  apply MergeResult.of_touches htch h
  intro b hb
  simp only [mem_append] at hb ⊢
  rcases hb with (hside | hoth) | hout
  · exact .inl (.inl (.inl (hstep.blocks b hside)))
  · exact .inl (.inl (.inr hoth))
  · exact (hstep.outBlocks b hout).imp_left .inr

theorem mergeLoop_spec (n : Nat) (hn : ts1.length + ts2.length = n)
    (h : MergeInv cfg m vs xs s1 s2 ds1 ds2 ts1 ts2 out ws) :
    ∃ m' out', mergeLoop cfg n m (out.place cfg.layout) s1 s2 = .ok m' ∧
      MergeResult cfg m vs xs (ds1.map Prod.fst ++ ds2.map Prod.fst ++ out.blocks)
        out.blocks.head? (ws ++ mergeTuples cfg ts1 ts2) m' out' := by
  induction n generalizing m s1 s2 ds1 ds2 ts1 ts2 out ws with
  | zero =>
    obtain rfl : ts1 = [] := length_eq_zero_iff.1 (by omega)
    obtain rfl : ts2 = [] := length_eq_zero_iff.1 (by omega)
    refine ⟨m, out, rfl, h.chain, ?_, rfl, ?_, Touches.refl h.sound⟩
    · rw [mergeTuples_nil_left, append_nil]
      exact h.refs
    · exact fun b hb => .inl (mem_append_right _ hb)
  | succ n ih =>
    obtain ⟨j1, hside1⟩ := h.side1
    obtain ⟨j2, hside2⟩ := h.side2
    have hcount1 := hside1.count
    have hcount2 := hside2.count
    unfold mergeLoop
    by_cases hfst : s2.written = s2.size ∨
        s1.written < s1.size ∧ cfg.serializer.compare s1.val s2.val < 0
    · -- the next pointer is that of the first side
      rw [if_pos hfst]
      cases ts1 with
      | nil =>
        simp only [length_nil] at hcount1 hn
        omega
      | cons t ts1 =>
        obtain ⟨s1', m1, ds1', out1, heq, hpl, hinv, hstep⟩ := h.take
        have hn' : ts1.length + ts2.length = n := by
          simp only [length_cons] at hn
          omega
        obtain ⟨m', out', heq', hres⟩ := ih hn' hinv
        have hmerged : mergeTuples cfg (t :: ts1) ts2 = t :: mergeTuples cfg ts1 ts2 := by
          cases ts2 with
          | nil => rw [mergeTuples_nil_right, mergeTuples_nil_right]
          | cons u ts2 =>
            simp only [length_cons] at hcount2
            have hless : cfg.less t u = true := by
              obtain ⟨-, hcompare⟩ := hfst.resolve_left (by omega)
              rw [h.loaded1.val t rfl, h.loaded2.val u rfl] at hcompare
              exact decide_eq_true hcompare
            rw [mergeTuples_cons, if_pos hless]
        refine ⟨m', out', ?_, ?_⟩
        · simp only [hpl, heq, bind, bind]
          exact heq'
        · rw [hmerged, append_cons]
          exact hstep.then hres
    · -- the next pointer is that of the second side
      rw [if_neg hfst]
      cases ts2 with
      | nil => exact absurd (.inl hcount2) hfst
      | cons u ts2 =>
        obtain ⟨s2', m1, ds2', out1, heq, hpl, hinv, hstep⟩ := h.symm.take
        have hn' : ts1.length + ts2.length = n := by
          simp only [length_cons] at hn
          omega
        obtain ⟨m', out', heq', hres⟩ := ih hn' hinv.symm
        have hmerged : mergeTuples cfg ts1 (u :: ts2) = u :: mergeTuples cfg ts1 ts2 := by
          cases ts1 with
          | nil => rw [mergeTuples_nil_left, mergeTuples_nil_left]
          | cons t ts1 =>
            simp only [length_cons] at hcount1
            have hless : ¬ cfg.less t u = true := by
              intro hlt
              apply hfst
              right
              rw [h.loaded1.val t rfl, h.loaded2.val u rfl]
              exact ⟨by omega, of_decide_eq_true hlt⟩
            rw [mergeTuples_cons, if_neg hless]
        refine ⟨m', out', ?_, ?_⟩
        · simp only [hpl, heq, bind, bind]
          exact heq'
        · rw [hmerged, append_cons]
          exact (hstep.then (hres.swap hinv.sound)).swap h.sound

end

/-! ## Merging two sequences -/

structure Run (T : Type*) where
  first : Nat
  size : Nat
  chunks : List (Nat × List DataPtr)
  tuples : List T

namespace Run

def blocks (r : Run T) : List Nat := r.chunks.map Prod.fst

structure Ok (cfg : Config T) (m : Memory) (vs : List Nat) (xs : List Cell) (r : Run T) : Prop where
  size_eq : r.tuples.length = r.size
  first_eq : ∀ d ∈ r.chunks.head?, d.1 = r.first
  rest : Rest cfg m vs xs 0 r.chunks r.tuples
  inOrder : InOrder cfg r.tuples

theorem Ok.touches {r : Run T} (h : r.Ok cfg m vs xs) (ht : Touches S m m')
    (hS : Disjoint r.blocks S) : r.Ok cfg m' vs xs :=
  ⟨h.size_eq, h.first_eq, h.rest.touches ht hS, h.inOrder⟩

end Run

theorem mergeBlocks_spec {r1 r2 : Run T} (hs : Sound m) (hst : Stream cfg.layout m vs xs)
    (h1 : r1.Ok cfg m vs xs) (h2 : r2.Ok cfg m vs xs) (hsides : Disjoint r1.blocks r2.blocks)
    (hv1 : Disjoint vs r1.blocks) (hv2 : Disjoint vs r2.blocks) :
    ∃ first m' out', mergeBlocks cfg m r1.first r1.size r2.first r2.size = .ok (first, m') ∧
      MergeResult cfg m vs xs (r1.blocks ++ r2.blocks) (some first)
        (mergeTuples cfg r1.tuples r2.tuples) m' out' := by
  have htaken := getFreeBlock_spec hs
  unfold mergeBlocks
  generalize getFreeBlock m = taken at htaken
  obtain ⟨first, m1⟩ := taken
  have hchn : PtrChain cfg.layout m1 ⟨[], first, []⟩ := PtrChain.create htaken
  have hst1 : Stream cfg.layout m1 vs xs := hst.touches htaken.touches (by simp)
  have hside : ∀ r : Run T, r.Ok cfg m vs xs →
      SideAt cfg m1 vs xs ⟨some r.first, r.size, 0, default, []⟩ 0 r.chunks r.tuples := by
    intro r hr
    refine ⟨by simpa using hr.size_eq, ?_, hr.rest.touches htaken.touches (by simp)⟩
    intro d hd
    rw [hr.first_eq d hd]
    exact ⟨rfl, Nat.zero_mod _⟩
  obtain ⟨s1, heq1, hside1, hloaded1⟩ := (hside r1 h1).load hst1
  obtain ⟨s2, heq2, hside2, hloaded2⟩ := (hside r2 h2).load hst1
  have hfr : ∀ b, ¬ Free m b → b ∉ [first] := by
    intro b hb hmem
    exact hb (mem_singleton.1 hmem ▸ htaken.free)
  have hapart : Apart r1.blocks r2.blocks [first] vs :=
    ⟨hsides, fun b hb => hfr b (h1.rest.used b hb), fun b hb => hfr b (h2.rest.used b hb),
      hv1, hv2, fun b hb => hfr b (hst.used b hb)⟩
  have hinv : MergeInv cfg m1 vs xs s1 s2 r1.chunks r2.chunks r1.tuples r2.tuples
      ⟨[], first, []⟩ [] :=
    ⟨htaken.touches.sound, hst1, ⟨0, hside1⟩, ⟨0, hside2⟩, hloaded1, hloaded2, hchn,
      Forall₂.nil, hapart⟩
  obtain ⟨m', out', heq, hres⟩ := mergeLoop_spec (r1.size + r2.size)
    (by rw [h1.size_eq, h2.size_eq]) hinv
  refine ⟨first, m', out', ?_, ?_⟩
  · simp only [heq1, heq2, bind, Except.bind]
    have hpl : (⟨[], first, []⟩ : PtrBlocks).place cfg.layout = ⟨first, 0⟩ := by
      simp [PtrBlocks.place]
    rw [hpl] at heq
    rw [heq]
    rfl
  · apply MergeResult.of_touches (htaken.touches.mono (by simp)) hres
    intro b hb
    cases mem_append.1 hb with
    | inl hside => exact .inl hside
    | inr hout =>
      right
      rw [show b = first by simpa [PtrBlocks.blocks] using hout]
      exact htaken.free

open PtrBlocks

variable {b last : Nat} {fulls : List (Nat × List DataPtr)} {ptrs : List DataPtr}

/-! ## A chain as a sequence to be read -/

def readChunk (d : Nat × List DataPtr) : List (Nat × List DataPtr) :=
  match d.2 with
  | [] => []
  | _ :: _ => [d]

theorem flatMap_readChunk (d : Nat × List DataPtr) : (readChunk d).flatMap Prod.snd = d.2 := by
  obtain ⟨b, ps⟩ := d
  cases ps <;> simp [readChunk]

variable {d : Nat × List DataPtr} {L : Layout} {c : PtrBlocks} {ds : List (Nat × List DataPtr)}
  {tss : List (List T)}

theorem mem_readChunk (h : b ∈ (readChunk d).map Prod.fst) : b = d.1 := by
  obtain ⟨c, ps⟩ := d
  cases ps with
  | nil => simp [readChunk] at h
  | cons p ps => simpa [readChunk] using h

theorem head?_readChunk {e : Nat × List DataPtr} (h : e ∈ (readChunk d).head?) : e = d := by
  obtain ⟨c, ps⟩ := d
  cases ps with
  | nil => simp [readChunk] at h
  | cons p ps => exact (by simpa [readChunk] using h : _ = e).symm

theorem readable_readChunk (hptrs : BlockPtrs L m d.1 0 d.2) (hle : d.2.length ≤ L.ptrBlkSize)
    (hexact : d.2.length * L.ptrSize = L.dataBlkSize → m.nblk d.1 ≠ none) :
    Readable L m 0 (readChunk d) := by
  obtain ⟨b, ps⟩ := d
  cases ps with
  | nil => trivial
  | cons p ps =>
    refine ⟨⟨by simp, hptrs, by simpa using hle, by simp, ?_⟩, trivial⟩
    rw [zero_add]
    exact hexact

/-- What is read of a chain: its last block may be empty. -/
def PtrBlocks.readChunks (c : PtrBlocks) : List (Nat × List DataPtr) :=
  c.fulls ++ readChunk (c.last, c.ptrs)

theorem PtrBlocks.flatMap_readChunks (c : PtrBlocks) :
    c.readChunks.flatMap Prod.snd = c.entries := by
  unfold readChunks entries
  rw [flatMap_append, flatMap_readChunk]

theorem PtrBlocks.mem_readChunks (h : b ∈ c.readChunks.map Prod.fst) : b ∈ c.blocks := by
  unfold readChunks at h
  rw [map_append] at h
  unfold blocks
  cases mem_append.1 h with
  | inl hfull => exact mem_append_left _ hfull
  | inr hlast =>
    rw [mem_readChunk hlast]
    simp

theorem PtrBlocks.head?_readChunks (h : d ∈ c.readChunks.head?) : c.blocks.head? = some d.1 := by
  obtain ⟨fulls, last, ptrs⟩ := c
  cases fulls with
  | nil =>
    have hlast : d = (last, ptrs) := head?_readChunk h
    rw [hlast]
    rfl
  | cons e fulls =>
    obtain rfl : e = d := by simpa [readChunks] using h
    rfl

theorem PtrBlocks.nodup_readChunks (h : c.blocks.Nodup) : (c.readChunks.map Prod.fst).Nodup := by
  obtain ⟨fulls, last, ptrs⟩ := c
  unfold readChunks
  cases ptrs with
  | nil =>
    simp only [readChunk, append_nil]
    exact (nodup_append.1 h).1
  | cons p ps => simpa [readChunk, blocks] using h

theorem PtrChain.readable (h : PtrChain L m ⟨fulls, last, ptrs⟩) :
    Readable L m 0 (readChunks ⟨fulls, last, ptrs⟩) := by
  induction fulls with
  | nil =>
    apply readable_readChunk h.ptrs h.ptrs_le
    intro hexact
    exact absurd hexact (ne_of_lt h.room)
  | cons d fulls ih =>
    obtain ⟨htail, -, hnblk⟩ := h.tail
    obtain ⟨hlen, hptrs⟩ := h.full d (by simp)
    have hpos := L.ptrBlkSize_pos
    refine ⟨⟨?_, hptrs, by omega, ?_, ?_⟩, ih htail⟩
    · intro hnil
      rw [hnil] at hlen
      simp only [length_nil] at hlen
      omega
    · intro e he
      refine ⟨by omega, ?_⟩
      rw [hnblk]
      exact head?_readChunks he
    · intro _
      rw [hnblk]
      cases fulls <;> simp [blocks]

def PtrBlocks.toRun (c : PtrBlocks) (first : Nat) (ts : List T) : Run T :=
  ⟨first, c.entries.length, c.readChunks, ts⟩

theorem PtrChain.run_ok {first : Nat} {ts : List T} (h : PtrChain cfg.layout m c)
    (hfst : c.blocks.head? = some first) (hrefs : Refs cfg vs xs c.entries ts)
    (hord : InOrder cfg ts) : (c.toRun first ts).Ok cfg m vs xs := by
  refine ⟨hrefs.length_eq.symm, ?_, ⟨h.readable, ?_, nodup_readChunks h.nodup, ?_⟩, hord⟩
  · intro d hd
    have hhd := head?_readChunks hd
    rw [hfst] at hhd
    exact (Option.some.inj hhd).symm
  · show Refs cfg vs xs (c.readChunks.flatMap Prod.snd) ts
    rw [flatMap_readChunks]
    exact hrefs
  · exact fun b hb => h.used b (mem_readChunks hb)

/-! ## One round -/

def Run.descriptor (r : Run T) : Nat × Nat := (r.first, r.size)

def allBlocks (runs : List (Run T)) : List Nat := runs.flatMap Run.blocks

def allTuples (runs : List (Run T)) : List T := runs.flatMap Run.tuples

/-- The sequences can be read; their blocks are apart from each other and from the values. -/
structure RunsOk (cfg : Config T) (m : Memory) (vs : List Nat) (xs : List Cell)
    (runs : List (Run T)) : Prop where
  ok : ∀ r ∈ runs, r.Ok cfg m vs xs
  apart : runs.Pairwise fun r r' => List.Disjoint r.blocks r'.blocks
  values : ∀ r ∈ runs, List.Disjoint vs r.blocks

theorem RunsOk.touches {S : List Nat} {runs : List (Run T)} (h : RunsOk cfg m vs xs runs)
    (ht : Touches S m m') (hS : ∀ r ∈ runs, Disjoint r.blocks S) : RunsOk cfg m' vs xs runs :=
  ⟨fun r hr => (h.ok r hr).touches ht (hS r hr), h.apart, h.values⟩

structure RoundResult (cfg : Config T) (m : Memory) (vs : List Nat) (xs : List Cell)
    (runs : List (Run T)) (m' : Memory) (runs' : List (Run T)) : Prop where
  ok : RunsOk cfg m' vs xs runs'
  length : runs'.length = (runs.length + 1) / 2
  perm : allTuples runs' ~ allTuples runs
  blocks : ∀ b ∈ allBlocks runs', b ∈ allBlocks runs ∨ Free m b
  touches : Touches (allBlocks runs) m m'

theorem mergePass_spec (hlaw : cfg.serializer.Lawful) {m : Memory} (runs : List (Run T))
    (hs : Sound m) (hst : Stream cfg.layout m vs xs) (h : RunsOk cfg m vs xs runs) :
    ∃ m' runs', mergePass cfg m (runs.map Run.descriptor) = .ok (runs'.map Run.descriptor, m') ∧
      RoundResult cfg m vs xs runs m' runs' := by
  match runs with
  | [] => exact ⟨m, [], rfl, h, by simp, .refl _, fun b hb => .inl hb, Touches.refl hs⟩
  | [r] => exact ⟨m, [r], rfl, h, by simp, .refl _, fun b hb => .inl hb, Touches.refl hs⟩
  | r1 :: r2 :: rest =>
    have hpair := pairwise_cons.1 h.apart
    have hpair' := pairwise_cons.1 hpair.2
    have h1 := h.ok r1 (by simp)
    have h2 := h.ok r2 (by simp)
    have hv1 := h.values r1 (by simp)
    have hv2 := h.values r2 (by simp)
    obtain ⟨first, m1, out, heq, hmerged⟩ :=
      mergeBlocks_spec hs hst h1 h2 (hpair.1 r2 (by simp)) hv1 hv2
    have hrestUsed : ∀ r ∈ rest, ∀ b ∈ r.blocks, ¬ Free m b :=
      fun r hr b hb => (h.ok r (by simp [hr])).rest.used b hb
    have hrestApart : ∀ r ∈ rest, Disjoint r.blocks (r1.blocks ++ r2.blocks) := fun r hr =>
      disjoint_append_right.2 ⟨(hpair.1 r (by simp [hr])).symm, (hpair'.1 r hr).symm⟩
    have hrest : RunsOk cfg m1 vs xs rest :=
      RunsOk.touches ⟨fun r hr => h.ok r (by simp [hr]), hpair'.2,
        fun r hr => h.values r (by simp [hr])⟩ hmerged.touches hrestApart
    have hvBoth : Disjoint vs (r1.blocks ++ r2.blocks) := disjoint_append_right.2 ⟨hv1, hv2⟩
    have hst1 : Stream cfg.layout m1 vs xs := hst.touches hmerged.touches hvBoth
    obtain ⟨m', runs', heq', hround⟩ :=
      mergePass_spec hlaw rest hmerged.touches.sound hst1 hrest
    -- the merged sequence is apart from the values and from the other sequences
    let new := out.toRun first (mergeTuples cfg r1.tuples r2.tuples)
    have hnew : ∀ b ∈ new.blocks, b ∈ r1.blocks ++ r2.blocks ∨ Free m b :=
      fun b hb => hmerged.blocks b (mem_readChunks hb)
    have hnewUsed : ∀ b ∈ new.blocks, ¬ Free m1 b :=
      fun b hb => hmerged.chain.used b (mem_readChunks hb)
    have hnewRest : Disjoint new.blocks (allBlocks rest) := by
      intro b hb hmem
      obtain ⟨r, hr, hbr⟩ := mem_flatMap.1 hmem
      exact (hnew b hb).elim (hrestApart r hr hbr) (hrestUsed r hr b hbr)
    have hnewOk : new.Ok cfg m' vs xs :=
      Run.Ok.touches (hmerged.chain.run_ok hmerged.head hmerged.refs
        (h1.inOrder.merge hlaw h2.inOrder)) hround.touches hnewRest
    have hsize : r1.size + r2.size = out.entries.length := by
      rw [hmerged.refs.length_eq, (mergeTuples_perm _ _).length_eq, length_append,
        h1.size_eq, h2.size_eq]
    refine ⟨m', new :: runs', ?_, ⟨forall_mem_cons.2 ⟨hnewOk, hround.ok.ok⟩, ?_,
      forall_mem_cons.2 ⟨?_, hround.ok.values⟩⟩, ?_, ?_, ?_, ?_⟩
    · simp [new, Run.descriptor, mergePass, heq, bind, Except.bind, heq', pure, Except.pure,
        toRun, hsize]
    · refine pairwise_cons.2 ⟨?_, hround.ok.apart⟩
      intro r hr b hb hbr
      rcases hround.blocks b (mem_flatMap.2 ⟨r, hr, hbr⟩) with hmem | hfree
      · exact hnewRest hb hmem
      · exact hnewUsed b hb hfree
    · exact fun b hv hb => (hnew b hb).elim (hvBoth hv) (hst.used b hv)
    · simp only [length_cons, hround.length]
      omega
    · simp only [allTuples, flatMap_cons, ← append_assoc]
      exact (mergeTuples_perm _ _).append hround.perm
    · intro b hb
      simp only [allBlocks, flatMap_cons, ← append_assoc] at hb ⊢
      cases mem_append.1 hb with
      | inl hbnew => exact (hnew b hbnew).imp_left (mem_append_left _)
      | inr hbold =>
        rcases hround.blocks b hbold with hmem | hfree
        · exact .inl (mem_append_right _ hmem)
        · exact (hmerged.touches.mem_or_free hfree).imp_left (mem_append_left _)
    · simp only [allBlocks, flatMap_cons, ← append_assoc]
      apply (hmerged.touches.mono _).trans hround.touches
      · exact fun b hb => .inl (mem_append_right _ hb)
      · exact fun b hb => .inl (mem_append_left _ hb)

/-! ## All rounds -/

theorem mergePasses_one (fuel : Nat) (m : Memory) (d : Nat × Nat) :
    mergePasses cfg (fuel + 1) m [d] = .ok ([d], m) := by
  unfold mergePasses
  rfl

theorem mergePasses_spec (hlaw : cfg.serializer.Lawful) {fuel : Nat} {runs : List (Run T)}
    (hs : Sound m) (hst : Stream cfg.layout m vs xs) (h : RunsOk cfg m vs xs runs)
    (hlen : 2 ≤ runs.length) (hfuel : runs.length ≤ fuel) :
    ∃ first n m' out ts,
      mergePasses cfg fuel m (runs.map Run.descriptor) = .ok ([(first, n)], m') ∧
        MergeResult cfg m vs xs (allBlocks runs) (some first) ts m' out ∧
        InOrder cfg ts ∧ ts ~ allTuples runs := by
  induction fuel generalizing m runs with
  | zero => omega
  | succ fuel ih =>
    by_cases htwo : runs.length = 2
    · obtain ⟨r1, r2, rfl⟩ : ∃ r1 r2, runs = [r1, r2] := length_eq_two.1 htwo
      have h1 := h.ok r1 (by simp)
      have h2 := h.ok r2 (by simp)
      obtain ⟨first, m', out, heq, hmerged⟩ := mergeBlocks_spec hs hst h1 h2
        ((pairwise_cons.1 h.apart).1 r2 (by simp)) (h.values r1 (by simp))
        (h.values r2 (by simp))
      obtain _ | fuel := fuel
      · omega
      refine ⟨first, r1.size + r2.size, m', out, mergeTuples cfg r1.tuples r2.tuples, ?_, ?_,
        h1.inOrder.merge hlaw h2.inOrder, ?_⟩
      · rw [mergePasses, if_pos (by simp)]
        simp only [map_cons, map_nil, Run.descriptor, mergePass, heq, bind, bind, pure, pure]
        exact mergePasses_one fuel m' _
      · simpa [allBlocks] using hmerged
      · simpa [allTuples] using mergeTuples_perm r1.tuples r2.tuples
    · obtain ⟨m1, runs1, heq, hround⟩ := mergePass_spec hlaw runs hs hst h
      have hst1 : Stream cfg.layout m1 vs xs := by
        apply hst.touches hround.touches
        intro b hb hmem
        obtain ⟨r, hr, hbr⟩ := mem_flatMap.1 hmem
        exact h.values r hr hb hbr
      have hlength := hround.length
      have htwo' : 2 ≤ runs1.length := by omega
      have hfuel' : runs1.length ≤ fuel := by omega
      obtain ⟨first, n, m', out, ts, heq', hres, hord, hperm⟩ :=
        ih hround.touches.sound hst1 hround.ok htwo' hfuel'
      refine ⟨first, n, m', out, ts, ?_, ?_, hord, hperm.trans hround.perm⟩
      · rw [mergePasses, if_pos (by rw [length_map]; omega)]
        simp only [heq, bind, bind]
        exact heq'
      · exact MergeResult.of_touches hround.touches hres hround.blocks

/-! ## The blocks of the accumulator -/

theorem length_le_fresh {bs : List Nat} (hnd : bs.Nodup) (hused : ∀ b ∈ bs, ¬ Free m b) :
    bs.length ≤ m.fresh := by
  have hsub : bs ⊆ range m.fresh := by
    intro b hb
    rw [mem_range]
    by_contra hge
    exact hused b hb (.inr (by omega))
  have hle := (subperm_of_subset hnd hsub).length_le
  rwa [length_range] at hle

theorem collectBlocks_eq {bs : List Nat} {fuel : Nat} (h : Linked m (b :: bs))
    (hfuel : bs.length < fuel) : collectBlocks m fuel b = .ok (b :: bs) := by
  induction bs generalizing b fuel with
  | nil =>
    obtain _ | fuel := fuel
    · omega
    have hnone : m.nblk b = none := h.1
    unfold collectBlocks
    rw [hnone]
    rfl
  | cons c bs ih =>
    obtain _ | fuel := fuel
    · omega
    have hsome : m.nblk b = some c := h.1
    have hfuel' : bs.length < fuel := by
      simp only [length_cons] at hfuel
      omega
    unfold collectBlocks
    rw [hsome]
    simp only [ih h.2 hfuel', bind, bind]
    rfl

theorem blockSizes_eq (h : ∀ d ∈ fulls, d.2.length = cfg.layout.ptrBlkSize) :
    blockSizes cfg ptrs.length (blocks ⟨fulls, last, ptrs⟩) =
      (chunks ⟨fulls, last, ptrs⟩).map fun d => (d.1, d.2.length) := by
  induction fulls with
  | nil => rfl
  | cons d fulls ih =>
    have hrest := ih fun e he => h e (by simp [he])
    obtain ⟨c, bs, hbs⟩ : ∃ c bs, blocks ⟨fulls, last, ptrs⟩ = c :: bs := by
      cases fulls <;> exact ⟨_, _, rfl⟩
    have hblocks : (⟨d :: fulls, last, ptrs⟩ : PtrBlocks).blocks = d.1 :: c :: bs :=
      congrArg (d.1 :: ·) hbs
    rw [hblocks, blockSizes, ← hbs, hrest, ← h d (by simp)]
    · rfl
    · simp

def chunkRun (d : Nat × List DataPtr) (ts : List T) : Run T := ⟨d.1, d.2.length, readChunk d, ts⟩

theorem chunkRun_ok {ts : List T} (hrefs : Refs cfg vs xs d.2 ts) (hord : InOrder cfg ts)
    (hptrs : BlockPtrs cfg.layout m d.1 0 d.2) (hle : d.2.length ≤ cfg.layout.ptrBlkSize)
    (hexact : d.2.length * cfg.layout.ptrSize = cfg.layout.dataBlkSize → m.nblk d.1 ≠ none)
    (hused : ¬ Free m d.1) : (chunkRun d ts).Ok cfg m vs xs := by
  refine ⟨hrefs.length_eq.symm, ?_, ⟨readable_readChunk hptrs hle hexact, ?_, ?_, ?_⟩, hord⟩
  · intro e he
    rw [head?_readChunk he]
    rfl
  · show Refs cfg vs xs ((readChunk d).flatMap Prod.snd) ts
    rw [flatMap_readChunk]
    exact hrefs
  · show ((readChunk d).map Prod.fst).Nodup
    obtain ⟨b, ps⟩ := d
    cases ps <;> simp [readChunk]
  · intro b hb
    rw [mem_readChunk hb]
    exact hused

section

variable (h : SortedChunks cfg vs xs ds tss)
include h

theorem mem_zipWith_chunkRun {r : Run T} (hr : r ∈ zipWith chunkRun ds tss) :
    ∃ d ∈ ds, ∃ ts, r = chunkRun d ts ∧ Refs cfg vs xs d.2 ts ∧ InOrder cfg ts := by
  induction h with
  | nil => simp at hr
  | @cons d ts ds tss hfst _ ih =>
    cases mem_cons.1 hr with
    | inl heq => exact ⟨d, by simp, ts, heq, hfst⟩
    | inr hmem =>
      obtain ⟨e, he, hrest⟩ := ih hmem
      exact ⟨e, by simp [he], hrest⟩

theorem pairwise_zipWith_chunkRun (hnd : (ds.map Prod.fst).Nodup) :
    (List.zipWith chunkRun ds tss).Pairwise fun r r' => List.Disjoint r.blocks r'.blocks := by
  induction h with
  | nil => exact List.Pairwise.nil
  | @cons d ts ds tss _ hrest ih =>
    obtain ⟨hnotMem, hnd'⟩ := nodup_cons.1 hnd
    refine pairwise_cons.2 ⟨?_, ih hnd'⟩
    intro r hr b hb hbr
    obtain ⟨e, he, us, rfl, -⟩ := mem_zipWith_chunkRun hrest hr
    have hbd : b = d.1 := mem_readChunk hb
    have hbe : b = e.1 := mem_readChunk hbr
    exact hnotMem (by rw [← hbd, hbe]; exact mem_map_of_mem he)

theorem SortedChunks.allTuples_eq : allTuples (zipWith chunkRun ds tss) = tss.flatten := by
  induction h with
  | nil => rfl
  | @cons d ts ds tss _ _ ih =>
    rw [zipWith_cons_cons, allTuples, flatten_cons, ← ih]
    rfl

theorem SortedChunks.descriptors_eq :
    (zipWith chunkRun ds tss).map Run.descriptor = ds.map fun d => (d.1, d.2.length) := by
  induction h with
  | nil => rfl
  | @cons d ts ds tss _ _ ih =>
    rw [zipWith_cons_cons, map_cons, ih]
    rfl

end

theorem PtrChain.chunk_next (h : PtrChain L m ⟨fulls, last, ptrs⟩) :
    ∀ d ∈ chunks ⟨fulls, last, ptrs⟩,
      d.2.length * L.ptrSize = L.dataBlkSize → m.nblk d.1 ≠ none := by
  induction fulls with
  | nil =>
    intro d hd hexact
    obtain rfl : d = (last, ptrs) := by simpa [chunks] using hd
    exact absurd hexact (ne_of_lt h.room)
  | cons e fulls ih =>
    obtain ⟨htail, -, hnblk⟩ := h.tail
    intro d hd hexact
    cases mem_cons.1 hd with
    | inl heq =>
      rw [heq, hnblk]
      cases fulls <;> simp [blocks]
    | inr hmem => exact ih htail d hmem hexact

theorem PtrChain.chunk_ptrs (h : PtrChain L m c) :
    ∀ d ∈ c.chunks, BlockPtrs L m d.1 0 d.2 ∧ d.2.length ≤ L.ptrBlkSize := by
  intro d hd
  cases mem_append.1 hd with
  | inl hfull =>
    obtain ⟨hlen, hptrs⟩ := h.full d hfull
    exact ⟨hptrs, le_of_eq hlen⟩
  | inr hlast =>
    rw [mem_singleton.1 hlast]
    exact ⟨h.ptrs, h.ptrs_le⟩

theorem runsOk_chunks (h : PtrChain cfg.layout m c) (hsort : SortedChunks cfg vs xs c.chunks tss)
    (hapart : Disjoint vs c.blocks) :
    RunsOk cfg m vs xs (zipWith chunkRun c.chunks tss) := by
  have hmem : ∀ d ∈ c.chunks, d.1 ∈ c.blocks := by
    intro d hd
    rw [← c.map_chunks]
    exact mem_map_of_mem hd
  refine ⟨?_, pairwise_zipWith_chunkRun hsort (by rw [c.map_chunks]; exact h.nodup), ?_⟩
  · intro r hr
    obtain ⟨d, hd, ts, rfl, hrefs, hord⟩ := mem_zipWith_chunkRun hsort hr
    obtain ⟨hptrs, hle⟩ := h.chunk_ptrs d hd
    exact chunkRun_ok hrefs hord hptrs hle (h.chunk_next d hd) (h.used d.1 (hmem d hd))
  · intro r hr b hv hb
    obtain ⟨d, hd, ts, rfl, -⟩ := mem_zipWith_chunkRun hsort hr
    have hbd : b = d.1 := mem_readChunk hb
    exact hapart hv (hbd ▸ hmem d hd)

theorem allBlocks_chunks (hsort : SortedChunks cfg vs xs c.chunks tss) :
    ∀ b ∈ allBlocks (zipWith chunkRun c.chunks tss), b ∈ c.blocks := by
  intro b hb
  obtain ⟨r, hr, hbr⟩ := mem_flatMap.1 hb
  obtain ⟨d, hd, ts, rfl, -⟩ := mem_zipWith_chunkRun hsort hr
  have hbd : b = d.1 := mem_readChunk hbr
  rw [hbd, ← c.map_chunks]
  exact mem_map_of_mem hd

theorem blocksSort_spec (hlaw : cfg.serializer.Lawful) {first : Nat} (hs : Sound m)
    (hst : Stream cfg.layout m vs xs) (h : PtrChain cfg.layout m c)
    (hfst : c.blocks.head? = some first) (hsort : SortedChunks cfg vs xs c.chunks tss)
    (hapart : Disjoint vs c.blocks) :
    ∃ first' m' out ts, blocksSort cfg m first c.ptrs.length = .ok (first', m') ∧
      MergeResult cfg m vs xs c.blocks (some first') ts m' out ∧ InOrder cfg ts ∧
      ts ~ tss.flatten := by
  obtain ⟨bs, hbs⟩ : ∃ bs, c.blocks = first :: bs := by
    cases hblocks : c.blocks with
    | nil => rw [hblocks] at hfst; simp at hfst
    | cons b bs =>
      rw [hblocks] at hfst
      exact ⟨bs, by rw [show b = first by simpa using hfst]⟩
  have hlinked := h.linked
  have hfr := length_le_fresh h.nodup h.used
  rw [hbs] at hlinked hfr
  have hcollect : collectBlocks m m.fresh first = .ok c.blocks := by
    rw [collectBlocks_eq hlinked hfr, hbs]
  have hsizes : blockSizes cfg c.ptrs.length c.blocks =
      (zipWith chunkRun c.chunks tss).map Run.descriptor := by
    rw [hsort.descriptors_eq]
    exact blockSizes_eq fun d hd => (h.full d hd).1
  have hcount : (zipWith chunkRun c.chunks tss).length = c.blocks.length := by
    have hlen := congrArg length hsort.descriptors_eq
    rw [length_map, length_map] at hlen
    rw [hlen, ← c.map_chunks, length_map]
  unfold blocksSort
  rw [hcollect]
  simp only [bind, Except.bind, hsizes]
  by_cases hone : c.fulls = []
  · -- a single block: nothing is merged
    obtain ⟨fulls, last, ptrs⟩ := c
    obtain rfl : fulls = [] := hone
    cases hsort with
    | @cons _ ts _ tss' hts hnil =>
      cases hnil
      refine ⟨last, m, ⟨[], last, ptrs⟩, ts, ?_, ⟨h, ?_, rfl, fun b hb => .inl hb,
        Touches.refl hs⟩, hts.2, by simp⟩
      · have hpasses : mergePasses cfg (blocks ⟨[], last, ptrs⟩).length m
            ((zipWith chunkRun (chunks ⟨[], last, ptrs⟩) [ts]).map
              Run.descriptor) = .ok ([(last, ptrs.length)], m) :=
          mergePasses_one 0 m (last, ptrs.length)
        rfl
      · simpa [entries] using hts.1
  · have htwo : 2 ≤ (zipWith chunkRun c.chunks tss).length := by
      have hpos := length_pos_iff.2 hone
      rw [hcount]
      simp only [blocks, length_append, length_map, length_singleton]
      omega
    obtain ⟨first', n, m', out, ts, heq, hres, hord, hperm⟩ := mergePasses_spec hlaw hs hst
      (runsOk_chunks h hsort hapart) htwo (le_of_eq hcount)
    refine ⟨first', m', out, ts, ?_, ?_, hord, ?_⟩
    · rw [heq]
      rfl
    · exact MergeResult.of_touches (Touches.refl hs) hres
        fun b hb => .inl (allBlocks_chunks hsort b hb)
    · rwa [hsort.allTuples_eq] at hperm

end Sedna.Sorting
