import Sedna.Log.Writing

/-!
# Reading the log back

The log as a list: the records of all files with their LSNs.  A record is read back
from the write buffer, from the read buffer of the process or from its file.
-/

namespace Sedna.Log

open Library.RingBuffer List

variable {η : Type*} {cfg : Config}

/-! ## The log as a list -/

def place : Nat → List Bytes → List (Nat × Bytes)
  | _, [] => []
  | lsn, b :: bs => (lsn, b) :: place (lsn + b.length) bs

theorem place_append (lsn : Nat) (bs cs : List Bytes) :
    place lsn (bs ++ cs) = place lsn bs ++ place (lsn + bs.flatten.length) cs := by
  induction bs generalizing lsn with
  | nil => simp [place]
  | cons b bs ih =>
    rw [cons_append, place, place, ih, cons_append, flatten_cons, length_append, add_assoc]

variable {lsn k size : Nat} {b : Bytes} {x : Nat × Bytes}

theorem mem_place {start : Nat} {bs : List Bytes} (h : (lsn, b) ∈ place start bs) :
    ∃ pre post, bs = pre ++ b :: post ∧ lsn = start + pre.flatten.length := by
  induction bs generalizing start with
  | nil => exact absurd h not_mem_nil
  | cons c bs ih =>
    rw [place, mem_cons] at h
    rcases h with ⟨rfl, rfl⟩ | h
    · exact ⟨[], bs, rfl, rfl⟩
    · obtain ⟨pre, post, rfl, rfl⟩ := ih h
      refine ⟨c :: pre, post, rfl, ?_⟩
      rw [flatten_cons, length_append, add_assoc]

/-- Of two records of a log the first ends before the second begins. -/
def Ordered (x y : Nat × Bytes) : Prop := x.1 + x.2.length ≤ y.1

theorem place_bounds {start : Nat} {bs : List Bytes} (h : x ∈ place start bs) :
    start ≤ x.1 ∧ x.1 + x.2.length ≤ start + bs.flatten.length := by
  obtain ⟨pre, post, hcut, hlsn⟩ := mem_place h
  have hlen := congrArg (fun l => l.flatten.length) hcut
  simp only [flatten_append, flatten_cons, length_append] at hlen
  omega

theorem pairwise_place (start : Nat) (bs : List Bytes) : (place start bs).Pairwise Ordered := by
  induction bs generalizing start with
  | nil => exact List.Pairwise.nil
  | cons b bs ih => exact List.Pairwise.cons (fun y hy => (place_bounds hy).1) (ih _)

def entries (cfg : Config) (recs : Nat → List Bytes) (first n : Nat) : List (Nat × Bytes) :=
  ((List.range' first n).map fun k => place (startOf cfg k) (recs k)).flatten

theorem entries_succ (recs : Nat → List Bytes) (first n : Nat) :
    entries cfg recs first (n + 1) =
      entries cfg recs first n ++ place (startOf cfg (first + n)) (recs (first + n)) := by
  simp [entries, range'_1_concat]

theorem entries_congr {recs recs' : Nat → List Bytes} {first n : Nat}
    (h : ∀ k, first ≤ k → k < first + n → recs' k = recs k) :
    entries cfg recs' first n = entries cfg recs first n := by
  unfold entries
  congr 1
  apply map_congr_left
  intro k hk
  have hk := mem_range'_1.1 hk
  rw [h k hk.1 hk.2]

theorem mem_entries {recs : Nat → List Bytes} {first n : Nat} (hx : x ∈ entries cfg recs first n) :
    ∃ k, first ≤ k ∧ k < first + n ∧ x ∈ place (startOf cfg k) (recs k) := by
  obtain ⟨l, hl, hx⟩ := mem_flatten.1 hx
  obtain ⟨k, hk, rfl⟩ := mem_map.1 hl
  have hk := mem_range'_1.1 hk
  exact ⟨k, hk.1, hk.2, hx⟩

namespace Storage

variable {st st' : Storage η} {recs recs' : Nat → List Bytes}

def log (cfg : Config) (st : Storage η) (recs : Nat → List Bytes) : List (Nat × Bytes) :=
  entries cfg recs st.info.firstFileNum (st.info.lastFileNum + 1 - st.info.firstFileNum)

theorem Stores.log_eq (h : Stores cfg st recs) :
    st.log cfg recs =
      entries cfg recs st.info.firstFileNum (st.info.lastFileNum - st.info.firstFileNum) ++
        place (startOf cfg st.info.lastFileNum) (recs st.info.lastFileNum) := by
  have hfst := h.first_le
  rw [log, show st.info.lastFileNum + 1 - st.info.firstFileNum =
    st.info.lastFileNum - st.info.firstFileNum + 1 by omega, entries_succ,
    show st.info.firstFileNum + (st.info.lastFileNum - st.info.firstFileNum) =
      st.info.lastFileNum by omega]

theorem mem_log (hmem : (lsn, b) ∈ st.log cfg recs) :
    ∃ k, st.info.firstFileNum ≤ k ∧ k ≤ st.info.lastFileNum ∧
      (lsn, b) ∈ place (startOf cfg k) (recs k) := by
  obtain ⟨k, hk, hk', hpl⟩ := mem_entries hmem
  exact ⟨k, hk, by omega, hpl⟩

theorem LogStep.log_eq (h : Stores cfg st recs) {new : List (Nat × Bytes)}
    (hstep : LogStep cfg st recs new st' recs') : st'.log cfg recs' = st.log cfg recs ++ new := by
  have hfst := h.first_le
  cases hstep with
  | flush hf hbd => rw [log, log, hf.info, append_nil]
  | extend he hkeep hused =>
    have hn : st.info.lastFileNum + 1 + 1 - st.info.firstFileNum =
        st.info.lastFileNum + 1 - st.info.firstFileNum + 1 := by omega
    have hk : st.info.firstFileNum + (st.info.lastFileNum + 1 - st.info.firstFileNum) =
        st.info.lastFileNum + 1 := by omega
    rw [log, he.info]
    show entries cfg _ st.info.firstFileNum (st.info.lastFileNum + 1 + 1 - st.info.firstFileNum) = _
    rw [hn, entries_succ, hk, Function.update_self, log]
    congr 1
    apply entries_congr
    intro k _ hlt
    exact Function.update_of_ne (by omega) _ _
  | buffer hb hne hroom hfit =>
    have hlen := h.length_last
    have hsta := h.start_le
    rw [(hb.stores h hne hroom hfit).log_eq, h.log_eq, hb.info, append_assoc]
    show entries cfg _ st.info.firstFileNum (st.info.lastFileNum - st.info.firstFileNum) ++
      place (startOf cfg st.info.lastFileNum) _ = _
    rw [Function.update_self, place_append, hlen]
    congr 1
    · apply entries_congr
      intro k _ hlt
      exact Function.update_of_ne (by omega) _ _
    · rw [place, lfsGetHighLSNBoundary, written]
      congr 3
      omega

theorem Headed.log_eq (hh : Headed st st') : st'.log cfg recs = st.log cfg recs := by
  rw [log, log, hh.info]

section

variable (h : Stores cfg st recs)
include h

theorem LogSteps.log_eq {new : List (Nat × Bytes)} (hsteps : LogSteps cfg st recs new st' recs') :
    st'.log cfg recs' = st.log cfg recs ++ new := by
  induction hsteps with
  | refl => rw [append_nil]
  | tail hsteps hstep ih => rw [hstep.log_eq (hsteps.stores h), ih, append_assoc]

theorem Stores.length_le (hk : st.info.firstFileNum ≤ k) (hk' : k ≤ st.info.lastFileNum) :
    startOf cfg k + (recs k).flatten.length ≤ k * cfg.chunkSize := by
  have hpred := pred_mul_chunk cfg (le_trans h.first_pos hk)
  have hsector := cfg.sector_le
  by_cases hlast : k = st.info.lastFileNum
  · subst hlast
    have hlen := h.length_last
    have hhigh := h.high_le
    have hsta := h.start_le
    unfold written at hlen
    omega
  · obtain ⟨f, hf, -, hsize⟩ := h.file k hk hk'
    have hle := (h.old k hk (by omega) f hf).length_le
    unfold startOf
    omega

theorem Stores.old_end_le (hk : st.info.firstFileNum ≤ k) (hlt : k < st.info.lastFileNum)
    (hx : x ∈ place (startOf cfg k) (recs k)) :
    x.1 + x.2.length + cfg.sectorSize ≤ startOf cfg st.info.lastFileNum := by
  have hbnd := (place_bounds hx).2
  have hfit := h.length_le hk (le_of_lt hlt)
  have hchunks : k * cfg.chunkSize ≤ (st.info.lastFileNum - 1) * cfg.chunkSize :=
    Nat.mul_le_mul_right _ (by omega)
  unfold startOf at *
  omega

theorem Stores.pairwise_log : (st.log cfg recs).Pairwise Ordered := by
  rw [log, entries, pairwise_flatten]
  constructor
  · intro l hl
    obtain ⟨k, -, rfl⟩ := mem_map.1 hl
    exact pairwise_place _ _
  · rw [pairwise_map]
    apply List.Pairwise.imp_of_mem _ pairwise_lt_range'
    intro k j hk hj hlt x hx y hy
    have hk := mem_range'_1.1 hk
    have hxle := (place_bounds hx).2
    have hyle := (place_bounds hy).1
    have hfit := h.length_le hk.1 (by omega)
    have hchunks : k * cfg.chunkSize ≤ (j - 1) * cfg.chunkSize := Nat.mul_le_mul_right _ (by omega)
    unfold startOf at hyle
    unfold Ordered
    omega

theorem Stores.increasing_log : (st.log cfg recs).Pairwise fun x y => x.1 < y.1 := by
  apply List.Pairwise.imp_of_mem _ h.pairwise_log
  intro x y hx _ hxy
  obtain ⟨k, -, -, hpl⟩ := mem_log hx
  obtain ⟨pre, post, hcut, -⟩ := mem_place hpl
  have hpos : 0 < x.2.length := length_pos_iff.2 (h.nonempty k x.2 (by simp [hcut]))
  unfold Ordered at hxy
  omega

theorem Stores.end_le_of_lt {y : Nat × Bytes} (hx : x ∈ st.log cfg recs) (hy : y ∈ st.log cfg recs)
    (hlt : x.1 < y.1 + y.2.length) : x.1 + x.2.length ≤ y.1 + y.2.length := by
  have hpair := h.pairwise_log
  obtain ⟨pre, post, hcut⟩ := append_of_mem hx
  rw [hcut] at hpair hy
  rw [pairwise_append, pairwise_cons] at hpair
  rcases mem_append.1 hy with hy | hy
  · have hyx := hpair.2.2 y hy x mem_cons_self
    unfold Ordered at hyx
    omega
  · rcases mem_cons.1 hy with rfl | hy
    · exact le_refl _
    · have hxy := hpair.2.1.1 y hy
      unfold Ordered at hxy
      omega

end

/-! ## Reading a record -/

theorem take_drop_take {a n : Nat} (l : Bytes) (h : a + size ≤ n) :
    ((l.take n).drop a).take size = (l.drop a).take size := by
  rw [drop_take, take_take, min_eq_left (by omega)]

structure ReaderOk (cfg : Config) (st : Storage η) (rd : Reader) : Prop where
  length : rd.readBuf.length = cfg.readBufSize
  agrees : rd.startReadLsn = rd.endReadLsn ∨ ∃ k f n, st.info.firstFileNum ≤ k ∧
    k ≤ st.info.lastFileNum ∧ st.disk k = some f ∧ startOf cfg k ≤ rd.startReadLsn ∧
    rd.endReadLsn = rd.startReadLsn + n ∧ rd.endReadLsn ≤ startOf cfg k + f.body.length ∧
    rd.readBuf.take n = (f.body.drop (rd.startReadLsn - startOf cfg k)).take n

theorem readerOk_connect {memory : Bytes} (h : memory.length = cfg.readBufSize) :
    ReaderOk cfg st (Reader.connect memory) :=
  ⟨h, .inl rfl⟩

theorem file_unique {j n m : Nat} (hk : 1 ≤ k) (hj : 1 ≤ j)
    (hn : n ≤ cfg.chunkSize - cfg.sectorSize) (hm : m ≤ cfg.chunkSize - cfg.sectorSize)
    (hkle : startOf cfg k ≤ lsn) (hklt : lsn < startOf cfg k + n) (hjle : startOf cfg j ≤ lsn)
    (hjlt : lsn < startOf cfg j + m) : k = j := by
  have hend : ∀ {k n : Nat}, 1 ≤ k → n ≤ cfg.chunkSize - cfg.sectorSize →
      lsn < startOf cfg k + n → lsn ≤ k * cfg.chunkSize := by
    intro k n hk hn hlt
    have hpred := pred_mul_chunk cfg hk
    unfold startOf at hlt
    omega
  rw [← fileNumOf_eq hk hkle (hend hk hn hklt), fileNumOf_eq hj hjle (hend hj hm hjlt)]

section

variable (h : Stores cfg st recs)
include h

theorem readFromFile_eq {rd : Reader} (hrd : ReaderOk cfg st rd) {f : LogFile η}
    (hk : st.info.firstFileNum ≤ k) (hk' : k ≤ st.info.lastFileNum) (hf : st.disk k = some f)
    (hsta : startOf cfg k ≤ lsn) (hpos : 0 < size)
    (hend : lsn + size ≤ startOf cfg k + f.body.length) :
    ∃ rd', ReaderOk cfg st rd' ∧
      readFromFile cfg st k (lsn - (k - 1) * cfg.chunkSize) lsn size rd =
        some (some (lsn, (f.body.drop (lsn - startOf cfg k)).take size), rd') := by
  have hoffs : lsn - (k - 1) * cfg.chunkSize - cfg.sectorSize = lsn - startOf cfg k := by
    unfold startOf
    omega
  unfold readFromFile
  by_cases hhit : rd.startReadLsn ≤ lsn ∧ lsn + size ≤ rd.endReadLsn
  · refine ⟨rd, hrd, ?_⟩
    rw [if_pos hhit]
    rcases hrd.agrees with heq | ⟨j, g, n, hj, hj', hg, hjstart, hjend, hjle, hbuf⟩
    · omega
    · -- the read buffer holds a part of the same file
      obtain ⟨f1, hf1, -, hfsize⟩ := h.file k hk hk'
      obtain ⟨g1, hg1, -, hgsize⟩ := h.file j hj hj'
      obtain rfl : f = f1 := Option.some.inj (hf.symm.trans hf1)
      obtain rfl : g = g1 := Option.some.inj (hg.symm.trans hg1)
      have hfst := h.first_pos
      have hlt : lsn < startOf cfg j + g.body.length := by omega
      obtain rfl : k = j := file_unique (by omega) (by omega) hfsize hgsize hsta
        (by omega) (by omega) hlt
      obtain rfl : f = g := Option.some.inj (hf.symm.trans hg)
      have hcut : lsn - rd.startReadLsn + size ≤ n := by omega
      have hsum : rd.startReadLsn - startOf cfg k + (lsn - rd.startReadLsn) =
          lsn - startOf cfg k := by omega
      rw [← take_drop_take _ hcut, hbuf, take_drop_take _ hcut, drop_drop, hsum]
  · rw [if_neg hhit]
    simp only [hf, LogFile.read, hoffs]
    have hlen : (f.body.drop (lsn - startOf cfg k)).length =
        f.body.length - (lsn - startOf cfg k) :=
      length_drop
    by_cases hlong : cfg.readBufSize < size
    · rw [if_pos hlong, if_pos (by rw [length_take]; omega)]
      exact ⟨rd, hrd, rfl⟩
    · rw [if_neg hlong]
      have hle : ((f.body.drop (lsn - startOf cfg k)).take cfg.readBufSize).length ≤
          cfg.readBufSize := length_take_le _ _
      have hok : ReaderOk cfg st
          { readBuf := (f.body.drop (lsn - startOf cfg k)).take cfg.readBufSize ++
              rd.readBuf.drop ((f.body.drop (lsn - startOf cfg k)).take cfg.readBufSize).length
            startReadLsn := lsn
            endReadLsn := lsn +
              ((f.body.drop (lsn - startOf cfg k)).take cfg.readBufSize).length } := by
        refine ⟨?_, .inr ⟨k, f, _, hk, hk', hf, hsta, rfl, ?_, ?_⟩⟩
        · rw [length_append, length_drop, hrd.length]
          omega
        · show lsn + _ ≤ _
          rw [length_take]
          omega
        · show take _ (_ ++ _) = _
          rw [take_left, length_take]
          exact take_eq_take_min
      refine ⟨_, hok, ?_⟩
      rw [take_append_of_le_length (by rw [length_take]; omega), take_take,
        min_eq_left (by omega)]

theorem getDataFromBuffer_eq {len wbOff : Nat} (hlen : wbOff + len ≤ st.info.bufKeepBytes) :
    getDataFromBuffer cfg st len wbOff = ((st.pending cfg).drop wbOff).take len := by
  have hsta := h.bufStart_lt
  have hkeep := h.keep_le
  have hoffs : (if cfg.bufSize ≤ st.info.bufStart + wbOff then
      wbOff - (cfg.bufSize - st.info.bufStart) else st.info.bufStart + wbOff) =
        (st.info.bufStart + wbOff) % cfg.bufSize := by
    split
    · rw [sub_rest_eq_mod hsta (by assumption) (by omega)]
    · rw [Nat.mod_eq_of_lt (by omega)]
  have hlt : (st.info.bufStart + wbOff) % cfg.bufSize < cfg.bufSize := Nat.mod_lt _ cfg.buf_pos
  have hcontents : ((st.pending cfg).drop wbOff).take len =
      contents st.buffer cfg.bufSize ((st.info.bufStart + wbOff) % cfg.bufSize) len := by
    rw [drop_pending cfg (by omega)]
    obtain ⟨rest, hrest⟩ := Nat.exists_eq_add_of_le
      (show len ≤ st.info.bufKeepBytes - wbOff by omega)
    rw [hrest, contents_add]
    exact take_left' (length_contents _)
  rw [hcontents, getDataFromBuffer]
  simp only [hoffs]
  split
  · rw [contents_eq_read _ (by assumption)]
  · rw [contents_eq_read_append _ hlt (by omega) (by omega)]

omit h in
theorem record_bytes {pre post : List Bytes} {l : Bytes} (hcut : recs k = pre ++ b :: post)
    (hl : (recs k).flatten <+: l) (hsize : size ≤ b.length) :
    pre.flatten.length + b.length ≤ l.length ∧
      (l.drop pre.flatten.length).take size = b.take size := by
  obtain ⟨rest, rfl⟩ := hl
  rw [hcut, flatten_append, flatten_cons, append_assoc, append_assoc]
  constructor
  · simp only [length_append]
    omega
  · rw [drop_left, take_append_of_le_length hsize]

theorem Stores.last_record {pre post : List Bytes}
    (hcut : recs st.info.lastFileNum = pre ++ b :: post) :
    st.written cfg ≤ pre.flatten.length ∨ pre.flatten.length + b.length ≤ st.written cfg := by
  obtain ⟨done, todo, hdone, hlen⟩ := h.boundary
  have hpre : pre <+: recs st.info.lastFileNum := hcut ▸ prefix_append _ _
  have hpreb : pre ++ [b] <+: recs st.info.lastFileNum := ⟨post, by simp [hcut]⟩
  have hdonepre : done <+: recs st.info.lastFileNum := hdone ▸ prefix_append _ _
  have hmono : ∀ {l l' : List Bytes}, l <+: l' → l.flatten.length ≤ l'.flatten.length := by
    rintro l _ ⟨rest, rfl⟩
    rw [flatten_append, length_append]
    exact Nat.le_add_right _ _
  rcases lt_or_ge pre.length done.length with hlt | hge
  · have hle := hmono
        (prefix_of_prefix_length_le hpreb hdonepre (by simpa using Nat.succ_le_of_lt hlt))
    rw [flatten_append, length_append] at hle
    simp only [flatten_cons, flatten_nil, append_nil] at hle
    omega
  · have hle := hmono (prefix_of_prefix_length_le hdonepre hpre hge)
    omega

theorem lfsGetRecord_of_file {rd : Reader} (hrd : ReaderOk cfg st rd) {f : LogFile η}
    (hk : st.info.firstFileNum ≤ k) (hk' : k ≤ st.info.lastFileNum) (hf : st.disk k = some f)
    (hsta : startOf cfg k ≤ lsn) (hpos : 0 < size)
    (hend : lsn + size ≤ startOf cfg k + f.body.length)
    (hbuffer : k = st.info.lastFileNum → lsn < st.info.nextLsn) :
    ∃ rd', ReaderOk cfg st rd' ∧ lfsGetRecord cfg st lsn size rd =
      some (some (lsn, (f.body.drop (lsn - startOf cfg k)).take size), rd') := by
  obtain ⟨f', hf', hhdr, hsize⟩ := h.file k hk hk'
  obtain rfl : f = f' := Option.some.inj (hf.symm.trans hf')
  have hfst := h.first_pos
  have hpred := pred_mul_chunk cfg (by omega : 1 ≤ k)
  have hsector := cfg.sector_le
  have hlsn : lsn ≤ k * cfg.chunkSize := by
    unfold startOf at hend
    omega
  have hnum : fileNumOf cfg lsn = k := fileNumOf_eq (by omega) hsta hlsn
  have hoffs : fileOffsOf cfg lsn = lsn - (k - 1) * cfg.chunkSize :=
    fileOffsOf_eq (by omega) hsta hlsn
  have hfilesize : f.size cfg = cfg.sectorSize + f.body.length := by
    obtain ⟨header, hhdr⟩ := Option.isSome_iff_exists.1 hhdr
    simp [LogFile.size, hhdr]
  have hnojump : ¬ f.size cfg ≤ fileOffsOf cfg lsn := by
    unfold startOf at hsta hend
    omega
  obtain ⟨rd', hrd', hread⟩ := readFromFile_eq h hrd hk hk' hf hsta hpos hend
  refine ⟨rd', hrd', ?_⟩
  rw [lfsGetRecord]
  simp only [hnum]
  rw [if_neg fun hc => absurd (hbuffer hc.1) (not_lt.2 hc.2.1), if_neg (by omega), hf]
  simp only
  rw [if_neg hnojump, hoffs, hread]

theorem lfsGetRecord_of_buffer (rd : Reader) (hnext : st.info.nextLsn ≤ lsn)
    (hend : lsn + size ≤ st.lfsGetHighLSNBoundary) :
    lfsGetRecord cfg st lsn size rd =
      some (some (lsn, ((st.pending cfg).drop (lsn - st.info.nextLsn)).take size), rd) := by
  have hsta := h.start_le
  have hhigh := h.high_le
  unfold lfsGetHighLSNBoundary at hend
  have hnum : fileNumOf cfg lsn = st.info.lastFileNum :=
    fileNumOf_eq h.last_pos (by omega) (by omega)
  rw [lfsGetRecord]
  simp only [hnum]
  rw [if_pos ⟨trivial, hnext, hend⟩, getDataFromBuffer_eq h (by omega)]

theorem lfsGetRecord_eq {rd : Reader} (hrd : ReaderOk cfg st rd) (hmem : (lsn, b) ∈ st.log cfg recs)
    (hpos : 0 < size) (hsize : size ≤ b.length) :
    ∃ rd', ReaderOk cfg st rd' ∧
      lfsGetRecord cfg st lsn size rd = some (some (lsn, b.take size), rd') := by
  obtain ⟨k, hk, hk', hpl⟩ := mem_log hmem
  obtain ⟨pre, post, hcut, rfl⟩ := mem_place hpl
  obtain ⟨f, hf, -, -⟩ := h.file k hk hk'
  by_cases hlast : k = st.info.lastFileNum
  · subst hlast
    obtain ⟨hwr, hflat⟩ := h.last f hf
    have hsta := h.start_le
    have hlen := h.length_last
    have hnext : st.info.nextLsn = startOf cfg st.info.lastFileNum + st.written cfg := by
      unfold written
      omega
    have hall := record_bytes hcut (prefix_refl _) hsize
    rcases h.last_record hcut with hbuffer | hfile
    · refine ⟨rd, hrd, ?_⟩
      have hdrop : (st.pending cfg).drop
          (startOf cfg st.info.lastFileNum + pre.flatten.length - st.info.nextLsn) =
            (recs st.info.lastFileNum).flatten.drop pre.flatten.length := by
        rw [← hflat, drop_append, length_take,
          drop_eq_nil_of_le (by rw [length_take]; omega : (f.body.take
            (st.written cfg)).length ≤ pre.flatten.length), nil_append]
        congr 1
        omega
      rw [lfsGetRecord_of_buffer h rd (by omega) (by unfold lfsGetHighLSNBoundary; omega), hdrop,
        hall.2]
    · obtain ⟨rd', hrd', hget⟩ := lfsGetRecord_of_file h hrd hk hk' hf (Nat.le_add_right _ _) hpos
        (by omega) (fun _ => by omega : _ → startOf cfg st.info.lastFileNum + pre.flatten.length <
          st.info.nextLsn)
      refine ⟨rd', hrd', ?_⟩
      -- the bytes of the record are among those that have been written
      have htake : f.body.take (st.written cfg) =
          (recs st.info.lastFileNum).flatten.take (st.written cfg) := by
        rw [← hflat, take_append_of_le_length (by rw [length_take]; omega), take_take, min_self]
      have hin : pre.flatten.length + size ≤ st.written cfg := by omega
      rw [hget, Nat.add_sub_cancel_left, ← take_drop_take _ hin, htake, take_drop_take _ hin,
        hall.2]
  · obtain ⟨hin, hbytes⟩ := record_bytes hcut (h.old k hk (by omega) f hf) hsize
    obtain ⟨rd', hrd', hget⟩ := lfsGetRecord_of_file h hrd hk hk' hf (Nat.le_add_right _ _) hpos
      (show startOf cfg k + pre.flatten.length + size ≤ startOf cfg k + f.body.length by omega)
      (fun heq => absurd heq hlast)
    exact ⟨rd', hrd', by rw [hget, Nat.add_sub_cancel_left, hbytes]⟩

end

end Storage

end Sedna.Log
