import Sedna.Log.Analysis
import Sedna.Log.CrashSafety
import Sedna.Log.LogicalLog

/-!
# The forward scan

The scan goes from a record to the one behind it, and from the end of a file to the next file.
Where a file ends is decided by its size.
-/

namespace Sedna.Log

open List

/-! ## Records in bytes -/

structure IsImage (b : Bytes) : Prop where
  head : recordHeadSize ≤ b.length
  lt : b.length < 2 ^ 31
  recLen_eq : recLen b = b.length - recordHeadSize

instance (b : Bytes) : Decidable (IsImage b) :=
  decidable_of_iff (recordHeadSize ≤ b.length ∧ b.length < 2 ^ 31 ∧
    recLen b = b.length - recordHeadSize) ⟨fun h => ⟨h.1, h.2.1, h.2.2⟩, fun h => ⟨h.1, h.2, h.3⟩⟩

variable {b : Bytes} {ask : Nat} {x : Nat × Bytes} {lsn k : Nat}

theorem IsImage.recLen_take (h : IsImage b) :
    (recLen (b.take recordHeadSize) + recordHeadSize) % 2 ^ 32 = b.length := by
  have hhd := h.head
  have hlt := h.lt
  have htake : recLen (b.take recordHeadSize) = recLen b := by
    rw [recLen, drop_take, take_take, recordHeadSize]
    rfl
  rw [htake, h.recLen_eq, Nat.sub_add_cancel hhd, Nat.mod_eq_of_lt (by omega)]

theorem IsImage.size_ofBytes (h : IsImage b) : llGetRecordSize (Record.ofBytes b) = b.length := by
  have hhd := h.head
  rw [llGetRecordSize, Record.ofBytes, length_drop]
  omega

namespace Storage

variable {η : Type*} {cfg : Config} {st : Storage η} {recs : Nat → List Bytes}

/-! ## Reading one record -/

theorem reads_image (himage : IsImage b)
    (hask : ∀ rd, ReaderOk cfg st rd → ∃ rd', ReaderOk cfg st rd' ∧
      lfsGetRecord cfg st ask recordHeadSize rd = some (some (lsn, b.take recordHeadSize), rd'))
    (hlsn : ∀ rd, ReaderOk cfg st rd → ∃ rd', ReaderOk cfg st rd' ∧
      lfsGetRecord cfg st lsn b.length rd = some (some (lsn, b), rd')) :
    Reads (llGetRecordFromDisc cfg st) (ReaderOk cfg st) ask (some (lsn, Record.ofBytes b)) := by
  intro rd hrd
  obtain ⟨rd1, hrd1, hhd⟩ := hask rd hrd
  obtain ⟨rd2, hrd2, hbody⟩ := hlsn rd1 hrd1
  refine ⟨rd2, ?_, hrd2⟩
  simp only [llGetRecordFromDisc, hhd, himage.recLen_take, hbody]

section

variable (h : Stores cfg st recs)
include h

theorem Stores.get_whole (hmem : (lsn, b) ∈ st.log cfg recs) (himage : IsImage b) {rd : Reader}
    (hrd : ReaderOk cfg st rd) :
    ∃ rd', ReaderOk cfg st rd' ∧
      lfsGetRecord cfg st lsn b.length rd = some (some (lsn, b), rd') := by
  have hhd := himage.head
  have hpos : 0 < b.length := by
    unfold recordHeadSize at hhd
    omega
  obtain ⟨rd', hrd', hget⟩ := lfsGetRecord_eq h hrd hmem hpos le_rfl
  rw [take_length] at hget
  exact ⟨rd', hrd', hget⟩

theorem Stores.reads (hmem : (lsn, b) ∈ st.log cfg recs) (himage : IsImage b) :
    Reads (llGetRecordFromDisc cfg st) (ReaderOk cfg st) lsn (some (lsn, Record.ofBytes b)) :=
  reads_image himage
    (fun _ hrd => lfsGetRecord_eq h hrd hmem (by decide) himage.head)
    (fun _ hrd => h.get_whole hmem himage hrd)

/-! ## From one file to the next -/

/-- The files that have been left hold records and nothing behind them. -/
structure LeftClean (st : Storage η) (recs : Nat → List Bytes) : Prop where
  used : ∀ k, st.info.firstFileNum ≤ k → k < st.info.lastFileNum → recs k ≠ []
  size : ∀ k, st.info.firstFileNum ≤ k → k < st.info.lastFileNum → ∀ f, st.disk k = some f →
    f.body.length = (recs k).flatten.length

/-- If the log has several files, the last one has a record that has been written. -/
def HeadWritten (cfg : Config) (st : Storage η) : Prop :=
  st.info.firstFileNum < st.info.lastFileNum → startOf cfg st.info.lastFileNum < st.info.nextLsn

theorem Stores.first_in_file (hhd : HeadWritten cfg st) {post : List Bytes}
    (hk : st.info.firstFileNum < k) (hk' : k ≤ st.info.lastFileNum) (hrecs : recs k = b :: post) :
    ∃ f, st.disk k = some f ∧ b <+: f.body := by
  obtain ⟨f, hf, -, -⟩ := h.file k (le_of_lt hk) hk'
  refine ⟨f, hf, ?_⟩
  by_cases hlast : k = st.info.lastFileNum
  · subst hlast
    have hwr := hhd hk
    obtain ⟨hle, hflat⟩ := h.last f hf
    -- the flushes have ended behind the first record
    have hb : b.length ≤ st.written cfg := by
      have hcut : recs st.info.lastFileNum = [] ++ b :: post := hrecs
      rcases h.last_record hcut with hnone | hdone
      · unfold written at hnone
        simp only [flatten_nil, length_nil] at hnone
        omega
      · simpa using hdone
    have hfront : b <+: f.body.take (st.written cfg) ++ st.pending cfg := by
      rw [hflat, hrecs]
      exact prefix_append _ _
    have htake : b <+: f.body.take (st.written cfg) :=
      prefix_of_prefix_length_le hfront (prefix_append _ _) (by rw [length_take]; omega)
    exact htake.trans ( take_prefix _ _)
  · have hold := h.old k (le_of_lt hk) (by omega) f hf
    rw [hrecs] at hold
    exact (prefix_append _ _).trans hold

theorem Stores.get_next (hclean : LeftClean st recs) (hhd : HeadWritten cfg st) {rd : Reader}
    (hrd : ReaderOk cfg st rd) {size : Nat} {post : List Bytes} (hk : st.info.firstFileNum ≤ k)
    (hlt : k < st.info.lastFileNum) (hrecs : recs (k + 1) = b :: post) (hpos : 0 < size)
    (hsize : size ≤ b.length) :
    ∃ rd', ReaderOk cfg st rd' ∧
      lfsGetRecord cfg st (startOf cfg k + (recs k).flatten.length) size rd =
        some (some (startOf cfg (k + 1), b.take size), rd') := by
  obtain ⟨f, hf, hhdr, -⟩ := h.file k hk (le_of_lt hlt)
  obtain ⟨g, hg, hbody⟩ := h.first_in_file hhd (Nat.lt_succ_of_le hk) hlt hrecs
  have hfst := h.first_pos
  have hlen := h.length_le hk (le_of_lt hlt)
  have hnum := fileNumOf_eq (by omega : 1 ≤ k) (Nat.le_add_right _ _) hlen
  have hoffs := fileOffsOf_eq (by omega : 1 ≤ k) (Nat.le_add_right _ _) hlen
  have hfilesize : f.size cfg = cfg.sectorSize + (recs k).flatten.length := by
    obtain ⟨header, hhdr⟩ := Option.isSome_iff_exists.1 hhdr
    simp [LogFile.size, hhdr, hclean.size k hk hlt f hf]
  have hend : fileOffsOf cfg (startOf cfg k + (recs k).flatten.length) = f.size cfg := by
    rw [hoffs, startOf]
    omega
  have hin := hbody.length_le
  obtain ⟨rd', hrd', hread⟩ := readFromFile_eq h hrd (by omega) hlt hg le_rfl hpos
    (by omega : startOf cfg (k + 1) + size ≤ startOf cfg (k + 1) + g.body.length)
  refine ⟨rd', hrd', ?_⟩
  have hsta : startOf cfg (k + 1) - (k + 1 - 1) * cfg.chunkSize = cfg.sectorSize := by
    rw [startOf_succ, Nat.add_sub_cancel, Nat.add_sub_cancel_left]
  have htake : g.body.take size = b.take size := by
    obtain ⟨rest, hrest⟩ := hbody
    rw [← hrest, take_append_of_le_length hsize]
  rw [hsta, Nat.sub_self, drop_zero, htake, startOf_succ] at hread
  rw [lfsGetRecord]
  simp only [hnum, hend]
  rw [if_neg fun hc => absurd hc.1 (ne_of_lt hlt), if_neg (by omega), hf]
  simp only
  rw [if_pos le_rfl, if_neg (by omega), Nat.add_sub_cancel, hread, startOf_succ]

end

/-! ## The order of the records -/

/-- A scan that asks at `ask` is answered `x`: it stands there, or `ask` is the end of a
file and `x` the first record of the next one. -/
def AsksFor (cfg : Config) (st : Storage η) (recs : Nat → List Bytes) (ask : Nat)
    (x : Nat × Bytes) : Prop :=
  x.1 = ask ∨ ∃ k, st.info.firstFileNum ≤ k ∧ k < st.info.lastFileNum ∧
    ask = startOf cfg k + (recs k).flatten.length ∧ x.1 = startOf cfg (k + 1) ∧
    ∃ post, recs (k + 1) = x.2 :: post

theorem isChain_place (start : Nat) (bs : List Bytes) :
    (place start bs).IsChain fun x y => y.1 = x.1 + x.2.length := by
  induction bs generalizing start with
  | nil => exact isChain_nil
  | cons b bs ih =>
    cases bs with
    | nil => exact isChain_singleton _
    | cons c bs => exact isChain_cons_cons.2 ⟨rfl, ih _⟩

theorem place_getLast {start : Nat} {bs : List Bytes} (hx : x ∈ (place start bs).getLast?) :
    x.1 + x.2.length = start + bs.flatten.length := by
  rcases eq_nil_or_concat bs with rfl | ⟨pre, b, rfl⟩
  · exact absurd hx (by simp [place])
  · rw [concat_eq_append, place_append, place, place, getLast?_append_cons,
      getLast?_singleton, Option.mem_some_iff] at hx
    subst hx
    simp only [concat_eq_append, flatten_append, flatten_cons, flatten_nil,
      append_nil, length_append]
    omega

theorem place_head {start : Nat} {bs : List Bytes} {y : Nat × Bytes}
    (hy : y ∈ (place start bs).head?) : y.1 = start ∧ ∃ post, bs = y.2 :: post := by
  cases bs with
  | nil => exact absurd hy (by simp [place])
  | cons b bs =>
    rw [place, head?_cons, Option.mem_some_iff] at hy
    rw [← hy]
    exact ⟨rfl, bs, rfl⟩

theorem isChain_log
    (hused : ∀ k, st.info.firstFileNum ≤ k → k ≤ st.info.lastFileNum → recs k ≠ []) :
    (st.log cfg recs).IsChain fun x y => AsksFor cfg st recs (x.1 + x.2.length) y := by
  have hne : [] ∉ (range' st.info.firstFileNum
      (st.info.lastFileNum + 1 - st.info.firstFileNum)).map fun k =>
        place (startOf cfg k) (recs k) := by
    intro hmem
    obtain ⟨k, hk, hnil⟩ := mem_map.1 hmem
    have hk := mem_range'_1.1 hk
    obtain ⟨b, bs, hrecs⟩ := exists_cons_of_ne_nil (hused k hk.1 (by omega))
    rw [hrecs] at hnil
    exact cons_ne_nil _ _ hnil
  rw [log, entries, isChain_flatten hne]
  constructor
  · intro l hl
    obtain ⟨k, -, rfl⟩ := mem_map.1 hl
    exact (isChain_place _ _).imp fun x y h => .inl h
  · rw [isChain_map, isChain_iff_getElem]
    intro i hi x hx y hy
    rw [length_range'] at hi
    simp only [getElem_range', one_mul] at hx hy
    obtain ⟨hlsn, hhd⟩ := place_head hy
    exact .inr ⟨st.info.firstFileNum + i, by omega, by omega, place_getLast hx, hlsn, hhd⟩

section

variable (h : Stores cfg st recs)
include h

theorem Stores.used (hclean : LeftClean st recs) (hhd : HeadWritten cfg st)
    (hlog : st.log cfg recs ≠ []) (hk : st.info.firstFileNum ≤ k) (hk' : k ≤ st.info.lastFileNum) :
    recs k ≠ [] := by
  intro hnil
  by_cases hlast : k = st.info.lastFileNum
  · subst hlast
    have hlen := h.length_last
    rw [hnil] at hlen
    simp only [flatten_nil, length_nil] at hlen
    by_cases hone : st.info.firstFileNum < st.info.lastFileNum
    · have hwr := hhd hone
      unfold written at hlen
      omega
    · -- the only file has no records
      rw [h.log_eq, hnil, show st.info.lastFileNum - st.info.firstFileNum = 0 by omega] at hlog
      exact hlog rfl
  · exact hclean.used k hk (by omega) hnil

/-! ## The scan of the whole log -/

def asRecord (x : Nat × Bytes) : Nat × Record := (x.1, Record.ofBytes x.2)

theorem Stores.reads_asked (hclean : LeftClean st recs) (hhd : HeadWritten cfg st)
    (hx : x ∈ st.log cfg recs) (himage : IsImage x.2) (hask : AsksFor cfg st recs ask x) :
    Reads (llGetRecordFromDisc cfg st) (ReaderOk cfg st) ask (some (asRecord x)) := by
  rcases hask with rfl | ⟨k, hk, hlt, rfl, hlsn, post, hrecs⟩
  · exact h.reads hx himage
  · refine reads_image himage (fun rd hrd => ?_) (fun rd hrd => h.get_whole hx himage hrd)
    rw [hlsn]
    exact h.get_next hclean hhd hrd hk hlt hrecs (by decide) himage.head

theorem Stores.asked_le (hask : AsksFor cfg st recs ask x) : ask ≤ x.1 := by
  rcases hask with rfl | ⟨k, hk, hlt, rfl, hlsn, -⟩
  · exact le_refl _
  · have hlen := h.length_le hk (le_of_lt hlt)
    rw [startOf_succ] at hlsn
    omega

theorem Stores.end_le_high (hx : x ∈ st.log cfg recs) :
    x.1 + x.2.length ≤ st.lfsGetHighLSNBoundary := by
  have hsta := h.start_le
  have hlen := h.length_last
  unfold lfsGetHighLSNBoundary
  rw [h.log_eq] at hx
  rcases mem_append.1 hx with hx | hx
  · obtain ⟨k, hk, hlt, hpl⟩ := mem_entries hx
    have hend := h.old_end_le hk (by omega) hpl
    omega
  · have hend := (place_bounds hx).2
    unfold written at hlen
    omega

theorem Stores.last_end (hlast : recs st.info.lastFileNum ≠ []) {pre : List (Nat × Bytes)}
    (hcut : st.log cfg recs = pre ++ [x]) : x.1 + x.2.length = st.lfsGetHighLSNBoundary := by
  obtain ⟨b, bs, hrecs⟩ := exists_cons_of_ne_nil hlast
  have hpl : place (startOf cfg st.info.lastFileNum) (recs st.info.lastFileNum) ≠ [] := by
    rw [hrecs]
    exact cons_ne_nil _ _
  have hx : x ∈ (place (startOf cfg st.info.lastFileNum) (recs st.info.lastFileNum)).getLast? := by
    rw [← getLast?_append_of_ne_nil _ hpl, ← h.log_eq, hcut]
    simp
  have hend := place_getLast hx
  have hlen := h.length_last
  have hsta := h.start_le
  unfold written at hlen
  unfold lfsGetHighLSNBoundary
  omega

theorem Stores.logSuffix (hclean : LeftClean st recs) (hhd : HeadWritten cfg st)
    (himages : ∀ x ∈ st.log cfg recs, IsImage x.2) {pre rest : List (Nat × Bytes)}
    (hcut : st.log cfg recs = pre ++ x :: rest) (hask : AsksFor cfg st recs ask x) :
    LogSuffix (llGetRecordFromDisc cfg st) (ReaderOk cfg st) st.lfsGetHighLSNBoundary ask
      ((x :: rest).map asRecord) := by
  have hused : ∀ k, st.info.firstFileNum ≤ k → k ≤ st.info.lastFileNum → recs k ≠ [] :=
    fun k hk hk' => h.used hclean hhd (by simp [hcut]) hk hk'
  have hchn := @isChain_log η cfg st recs hused
  induction rest generalizing pre x ask with
  | nil =>
    have hx : x ∈ st.log cfg recs := by simp [hcut]
    have hend := h.last_end (hused _ h.first_le le_rfl) hcut
    refine .last (h.reads_asked hclean hhd hx (himages x hx) hask) (h.asked_le hask) ?_
    rw [(himages x hx).size_ofBytes, hend]
  | cons y rest ih =>
    have hx : x ∈ st.log cfg recs := by simp [hcut]
    have hy : y ∈ st.log cfg recs := by simp [hcut]
    have hcut' : st.log cfg recs = (pre ++ [x]) ++ y :: rest := by simp [hcut]
    have hnext : AsksFor cfg st recs (x.1 + x.2.length) y := by
      rw [hcut] at hchn
      exact (isChain_cons_cons.1 hchn.right_of_append).1
    have hle := h.asked_le hnext
    have hhigh := h.end_le_high hy
    have hpos := (himages y hy).head
    have hsize := (himages x hx).size_ofBytes
    unfold recordHeadSize at hpos
    refine .more (h.reads_asked hclean hhd hx (himages x hx) hask) (h.asked_le hask) ?_ ?_
    · omega
    · rw [hsize]
      exact ih hcut' hnext

end

end Storage

end Sedna.Log
