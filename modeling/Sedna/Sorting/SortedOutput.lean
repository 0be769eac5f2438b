import Mathlib.Data.List.Sort
import Sedna.Library.PullIterator
import Sedna.Sorting.Chains

/-!
# What a sorted sequence returns

After `sort` the heap holds every chain with its current tuple.  `next` returns
the least of these and moves its chain on, so the calls return all tuples in
order and then the end of the sequence.
-/

namespace Sedna.Sorting

open Library.BinaryHeap Library.Lists Library.PullIterator List SortedSequence

variable {T : Type*} {cfg : Config T} {m : Memory} {s : SortedSequence} {pending : List (List T)}
  {ts : List T}

/-! ## The heap of chains -/

def Serves (cfg : Config T) (m : Memory) (c : SSChain) (ts : List T) : Prop :=
  ∃ t rest, ts = t :: rest ∧ ReadAt cfg m c t rest ∧ InOrder cfg ts

/-- The heap is in order, and its chains serve the lists of tuples. -/
structure Serving (cfg : Config T) (s : SortedSequence) (pending : List (List T)) : Prop where
  ordered : Heap.Ordered (SortedSequence.chainLess cfg) s.heap
  chains : List.Forall₂ (Serves cfg s.mem) s.heap.toList pending

def ValidChain (cfg : Config T) (c : SSChain) : Prop := ∃ t, c.value = cfg.serializer.serialize t

theorem chainLess_eq {c d : SSChain} {t u : T} (hc : c.value = cfg.serializer.serialize t)
    (hd : d.value = cfg.serializer.serialize u) :
    chainLess cfg c d = cfg.less t u := by
  unfold chainLess
  rw [hc, hd]
  rfl

theorem weakOrder_chainLess (hlaw : cfg.serializer.Lawful) :
    Heap.WeakOrder (ValidChain cfg) (chainLess cfg) := by
  constructor
  · intro c d ⟨t, ht⟩ ⟨u, hu⟩ hlt
    rw [chainLess_eq ht hu] at hlt
    rw [chainLess_eq hu ht]
    exact less_asymm hlaw hlt
  · intro c d e ⟨t, ht⟩ ⟨u, hu⟩ ⟨v, hv⟩ hcd hde
    rw [chainLess_eq ht hu] at hcd
    rw [chainLess_eq hu hv] at hde
    rw [chainLess_eq ht hv]
    exact less_trans hlaw hcd hde

theorem valid_of_serves {chains : List SSChain} (h : List.Forall₂ (Serves cfg m) chains pending) :
    ∀ c ∈ chains, ValidChain cfg c := by
  intro c hc
  obtain ⟨ts, -, t, rest, -, hread, -⟩ := exists_of_forall₂' h hc
  exact ⟨t, hread.value⟩

theorem length_toList (h : Heap SSChain) : h.toList.length = h.size := by
  simp [Heap.toList]

theorem Serving.first (hlaw : cfg.serializer.Lawful) (h : Serving cfg s pending)
    (hsize : s.heap.size ≠ 0) :
    ∃ t rest others, pending ~ (t :: rest) :: others ∧ ReadAt cfg s.mem (s.heap.item 1) t rest ∧
      InOrder cfg (t :: rest) ∧
      Serving cfg { s with heap := s.heap.pop (chainLess cfg) } others ∧
      ∀ us ∈ others, ∀ u ∈ us, cfg.less u t = false := by
  have hval := valid_of_serves h.chains
  have hord := weakOrder_chainLess hlaw
  obtain ⟨hordered, hperm⟩ := Heap.pop_spec hord h.ordered hval (pos_of_ne_zero hsize)
  obtain ⟨pending', hserves, hperm'⟩ := perm_comp_forall₂ hperm h.chains
  cases hserves with
  | @cons _ us _ others hfst hoth =>
    obtain ⟨t, rest, rfl, hread, hin⟩ := hfst
    refine ⟨t, rest, others, hperm'.symm, hread, hin, ⟨hordered, hoth⟩, ?_⟩
    intro us hus u hu
    -- the first tuple of another chain is not less, and the later ones follow it
    obtain ⟨c, hc, v, vs, rfl, hreadc, hinc⟩ := exists_of_forall₂ hoth hus
    have hmem : c ∈ s.heap.toList := hperm.subset (mem_cons_of_mem _ hc)
    have hcurrent : cfg.less v t = false := by
      rw [← chainLess_eq hreadc.value hread.value]
      exact Heap.Ordered.first_le hord h.ordered hval c hmem
    cases mem_cons.1 hu with
    | inl heq => rw [heq]; exact hcurrent
    | inr hlater => exact less_trans hlaw ((pairwise_cons.1 hinc).1 u hlater) hcurrent

theorem Serving.next (hlaw : cfg.serializer.Lawful) (h : Serving cfg s pending)
    (hsize : s.heap.size ≠ 0) :
    ∃ t s' pending', s.next cfg = (some (.ok t), s') ∧ Serving cfg s' pending' ∧
      pending.flatten ~ t :: pending'.flatten ∧ ∀ u ∈ pending'.flatten, cfg.less u t = false := by
  obtain ⟨t, rest, others, hperm, hread, hin, hserv, hleast⟩ := h.first hlaw hsize
  have hdes : cfg.serializer.deserialize (s.heap.item 1).value = t := by
    rw [hread.value, hlaw.deserialize_serialize]
  have hflat : pending.flatten ~ t :: (rest ++ others.flatten) := hperm.flatten
  have hoth : ∀ u ∈ others.flatten, cfg.less u t = false := by
    intro u hu
    obtain ⟨us, hus, hu'⟩ := mem_flatten.1 hu
    exact hleast us hus u hu'
  unfold SortedSequence.next
  rw [if_neg hsize]
  simp only [hdes]
  cases rest with
  | nil =>
    have hzero : (s.heap.item 1).toRead = 0 := by simpa using hread.toRead
    rw [if_pos hzero]
    exact ⟨t, _, others, rfl, hserv, hflat, hoth⟩
  | cons u rest =>
    have hpos : (s.heap.item 1).toRead ≠ 0 := by
      rw [hread.toRead, length_cons]
      omega
    obtain ⟨c', heq, hread'⟩ := hread.next
    have hin' := pairwise_cons.1 hin
    obtain ⟨hord, hpush⟩ := Heap.push_spec (weakOrder_chainLess hlaw) hserv.ordered
      (valid_of_serves hserv.chains) (show ValidChain cfg c' from ⟨u, hread'.value⟩)
    have hserves : List.Forall₂ (Serves cfg s.mem)
        (c' :: (s.heap.pop (chainLess cfg)).toList) ((u :: rest) :: others) :=
      List.Forall₂.cons ⟨u, rest, rfl, hread', hin'.2⟩ hserv.chains
    obtain ⟨pending', hserves', hperm'⟩ := perm_comp_forall₂ hpush hserves
    have hflat' : pending'.flatten ~ u :: rest ++ others.flatten := hperm'.flatten
    rw [if_neg hpos, heq]
    refine ⟨t, _, pending', rfl, ⟨hord, hserves'⟩, hflat.trans (hflat'.symm.cons t), ?_⟩
    intro v hv
    cases mem_append.1 (hflat'.subset hv) with
    | inl hchn => exact hin'.1 v hchn
    | inr hother => exact hoth v hother

theorem next_eos (h : s.heap.size = 0) : s.next cfg = (none, s) := by
  unfold SortedSequence.next
  rw [if_pos h]

theorem Serving.produces (hlaw : cfg.serializer.Lawful) (h : Serving cfg s pending) :
    ∃ out s', Produces (SortedSequence.next cfg) s (out.map Except.ok) s' ∧
      s'.next cfg = (none, s') ∧ out ~ pending.flatten ∧ InOrder cfg out := by
  -- by induction on the number of pending tuples
  induction hn : pending.flatten.length generalizing s pending with
  | zero =>
    have hnil : pending.flatten = [] := length_eq_zero_iff.1 hn
    have hsize : s.heap.size = 0 := by
      by_contra hne
      obtain ⟨t, s', pending', -, -, hperm, -⟩ := h.next hlaw hne
      rw [hnil] at hperm
      exact absurd hperm.length_eq (by simp)
    rw [hnil]
    exact ⟨[], s, .eos (next_eos hsize), next_eos hsize, .refl _, List.Pairwise.nil⟩
  | succ n ih =>
    have hsize : s.heap.size ≠ 0 := by
      intro hzero
      have hlen := h.chains.length_eq
      rw [length_toList, hzero] at hlen
      rw [length_eq_zero_iff.1 hlen.symm] at hn
      simp at hn
    obtain ⟨t, s1, pending', hnext, hserv, hperm, hleast⟩ := h.next hlaw hsize
    have hn' : pending'.flatten.length = n := by
      have hlen := hperm.length_eq
      rw [length_cons] at hlen
      omega
    obtain ⟨out, s', hprod, heos, hout, hin⟩ := ih hserv hn'
    refine ⟨t :: out, s', .item hnext hprod, heos, (hout.cons t).trans hperm.symm, ?_⟩
    exact pairwise_cons.2 ⟨fun u hu => hleast u (hout.subset hu), hin⟩

/-! ## Sorting -/

theorem toList_heapOf (chains : List SSChain) : (heapOf chains).toList = chains := by
  apply ext_getElem
  · simp [heapOf, Heap.toList]
  · intro i hi hi'
    simp [heapOf, Heap.toList, getElem?_eq_getElem hi']

theorem serves_of_holds {c : SSChain} {cs : List Nat} (h : ChainHolds cfg m c cs ts) :
    Serves cfg m c ts := by
  obtain ⟨t, rest, rfl, hval, htoRead, hpl⟩ := h.reads
  exact ⟨t, rest, rfl, ⟨hval, htoRead, ⟨cs, [t], h.stream, hpl⟩,
    fun u hu => h.sizes u (by simp [hu])⟩, h.inOrder⟩

theorem buildHeap_serving (hlaw : cfg.serializer.Lawful) {owned : List Nat} {groups : List (List T)}
    (h : ChainsHold cfg s.mem owned s.chains groups) :
    ∃ pending, Serving cfg (s.buildHeapFromChains cfg) pending ∧ pending ~ groups := by
  have hserves : List.Forall₂ (Serves cfg s.mem)
      (heapOf s.chains).toList groups := by
    rw [toList_heapOf]
    exact List.Forall₂.imp (fun c ts ⟨cs, hholds, _⟩ => serves_of_holds hholds) h
  obtain ⟨hord, hperm⟩ := Heap.build_spec (weakOrder_chainLess hlaw) (valid_of_serves hserves)
  obtain ⟨pending, hserves', hperm'⟩ := perm_comp_forall₂ hperm hserves
  exact ⟨pending, ⟨hord, hserves'⟩, hperm'⟩

theorem sort_spec (hlaw : cfg.serializer.Lawful) (hsort : cfg.StdSorts) {c : PtrBlocks}
    {vs : List Nat} {groups : List (List T)} (h : Collecting cfg s c vs ts groups) :
    ∃ s' pending, s.sort cfg = .ok s' ∧ Serving cfg s' pending ∧
      pending.flatten ~ groups.flatten ++ ts := by
  unfold sort
  rw [if_neg (by rw [h.adding]; simp)]
  by_cases hnil : ts = []
  · have hzero : s.elementsCount = 0 := by rw [h.count, hnil]; rfl
    have hchains : ChainsHold cfg s.mem (c.blocks ++ vs) s.chains groups := h.chains
    obtain ⟨pending, hserv, hperm⟩ :=
      buildHeap_serving (s := { s with finalized := true }) hlaw hchains
    refine ⟨_, pending, ?_, hserv, ?_⟩
    · unfold finalizeAccumulator
      rw [if_pos hzero]
      rfl
    · rw [hnil, append_nil]
      exact hperm.flatten
  · obtain ⟨s', d, us, heq, hus, hspilled⟩ := finalizeAccumulator_spec
      (s := { s with finalized := true }) hlaw hsort h.sound
      ⟨h.acc.ptrs, h.acc.firstPtr, h.acc.values, h.acc.firstVal, h.acc.apart⟩ h.refs h.count
      h.chains hnil
    obtain ⟨pending, hserv, hperm⟩ := buildHeap_serving hlaw hspilled.chains
    refine ⟨_, pending, ?_, hserv, ?_⟩
    · rw [heq]
      rfl
    · have hflat := hperm.flatten
      rw [flatten_append] at hflat
      simp only [flatten_cons, flatten_nil, append_nil] at hflat
      exact hflat.trans (hus.append_left _)

/-- For any tuples that are smaller than a block: after they were added and `sort` was called, the
calls of `next` return them in non-decreasing order, each as often as it was added, and then the
end of the sequence forever. -/
theorem sortedSequence_sorts (hlaw : cfg.serializer.Lawful) (hsort : cfg.StdSorts) (hs : Sound m)
    {ts : List T}
    (hsizes : ∀ t ∈ ts, (cfg.serializer.serialize t).length < cfg.layout.dataBlkSize) :
    ∃ s, (SortedSequence.create m).addAll cfg ts >>= SortedSequence.sort cfg = .ok s ∧
      ∃ out s', Produces (SortedSequence.next cfg) s (out.map Except.ok) s' ∧
        s'.next cfg = (none, s') ∧ out ~ ts ∧
        out.Pairwise fun t u =>
          cfg.serializer.compare (cfg.serializer.serialize t) (cfg.serializer.serialize u) ≤ 0 := by
  obtain ⟨c, vs, hcreate⟩ := @create_spec T cfg m hs
  obtain ⟨s1, c1, vs1, ts1, groups, hadd, hcollecting, hperm⟩ :=
    addAll_spec hlaw hsort hcreate hsizes
  obtain ⟨s, pending, heq, hserv, hpend⟩ := sort_spec hlaw hsort hcollecting
  obtain ⟨out, s', hprod, heos, hout, hin⟩ := hserv.produces hlaw
  refine ⟨s, ?_, out, s', hprod, heos, ?_, ?_⟩
  · simp only [hadd, bind, Except.bind]
    exact heq
  · have hall : out ~ ts ++ ([] ++ []) := hout.trans (hpend.trans hperm)
    simpa using hall
  · exact hin.imp fun h => (less_eq_false_iff hlaw).1 h

/-! ## A sample -/

def sampleSort (lt : DataPtr → DataPtr → Bool) (l : List DataPtr) : List DataPtr :=
  (l.attach.mergeSort fun a b => !lt b.1 a.1).map Subtype.val

/-- Bytes as tuples, in blocks of 12 bytes: two pointers fill a block exactly. -/
def sampleConfig : Config UInt8 where
  layout := ⟨pageSize - 12, 6, 4, by decide, by decide, Nat.succ_pos 3, by decide, by decide⟩
  serializer := ⟨fun b => [b], fun bytes => bytes.headD 0,
    fun a b => (a.headD 0).toNat - ((b.headD 0).toNat : Int)⟩
  stdSort := sampleSort

theorem stdSorts_sample : sampleConfig.StdSorts := by
  intro lt l hord
  constructor
  · have hperm := (mergeSort_perm l.attach fun a b => !lt b.1 a.1).map Subtype.val
    rwa [attach_map_subtype_val] at hperm
  · apply pairwise_map.2
    have hsort := @pairwise_mergeSort {p // p ∈ l} (fun a b => !lt b.1 a.1) ?_ ?_ l.attach
    · exact hsort.imp fun h => by simpa using h
    · intro a b c hab hbc
      simp only [Bool.not_eq_true'] at hab hbc ⊢
      exact hord.trans c.2 b.2 a.2 hbc hab
    · intro a b
      cases hlt : lt b.1 a.1 with
      | false => simp
      | true => simp [hord.asymm b.2 a.2 hlt]

theorem lawful_sample : sampleConfig.serializer.Lawful := by
  refine ⟨fun t => rfl, ?_, ?_⟩
  · intro t u
    simp only [sampleConfig, headD_cons]
    omega
  · intro t u v htu huv
    simp only [sampleConfig, headD_cons] at htu huv ⊢
    omega

def emptyMemory : Memory := ⟨fun _ _ => .byte 0, fun _ => none, [], 0⟩

theorem sortedSequence_sorts_sample :
    ∃ s, (SortedSequence.create emptyMemory).addAll sampleConfig [3, 1, 2, 1] >>=
        SortedSequence.sort sampleConfig = .ok s ∧
      ∃ out s', Produces (SortedSequence.next sampleConfig) s (out.map Except.ok) s' ∧
        s'.next sampleConfig = (none, s') ∧ out ~ [3, 1, 2, 1] ∧
        out.Pairwise fun t u => sampleConfig.serializer.compare
          (sampleConfig.serializer.serialize t) (sampleConfig.serializer.serialize u) ≤ 0 :=
  sortedSequence_sorts lawful_sample stdSorts_sample ⟨nodup_nil, by simp [emptyMemory]⟩
    (by decide +kernel)

end Sedna.Sorting
