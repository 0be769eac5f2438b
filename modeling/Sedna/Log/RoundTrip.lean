import Sedna.Log.CrashSafety

/-!
# What is appended is read back

A log that has been open since it was created: its files have no bytes behind their
records, so a process never keeps bytes in its read buffer that are overwritten
later.  `lfsTruncate` moves the beginning of the chain to the file of an LSN and deletes the files
before it; its division takes the end of a full file for a place in the next one.
-/

namespace Sedna.Log

open List Option

namespace Storage

variable {η : Type*} {cfg : Config} {st st' : Storage η} {recs recs' : Nat → List Bytes}
  {new : List (Nat × Bytes)} {rd : Reader}

structure Tight (cfg : Config) (st : Storage η) (recs : Nat → List Bytes) : Prop where
  old : ∀ k, st.info.firstFileNum ≤ k → k < st.info.lastFileNum → ∀ f, st.disk k = some f →
    f.body.length = (recs k).flatten.length
  last : ∀ f, st.disk st.info.lastFileNum = some f → f.body.length = st.written cfg

theorem LogStep.tight (h : Stores cfg st recs) (ht : Tight cfg st recs)
    (hstep : LogStep cfg st recs new st' recs') : Tight cfg st' recs' := by
  obtain ⟨file, hfile, -, -, _, -⟩ := h.lastFile
  have hlast := ht.last file hfile
  cases hstep with
  | @flush _ n hf hbd =>
    have hnum := hf.lastFileNum
    refine ⟨fun k hk hk' f hf' => ?_, fun f hf' => ?_⟩
    · rw [hnum] at hk'
      rw [hf.other k (by omega)] at hf'
      rw [hf.info] at hk
      exact ht.old k hk hk' f hf'
    · rw [hnum, hf.file file hfile, some.injEq] at hf'
      subst hf'
      rw [hf.written_eq h, length_writeAt, take_pending cfg hf.le,
        Sedna.Library.RingBuffer.length_contents]
      omega
  | extend he hkeep hused =>
    obtain ⟨header, user, -, hnew⟩ := he.file
    have hnum := he.lastFileNum
    refine ⟨fun k hk hk' f hf' => ?_, fun f hf' => ?_⟩
    · rw [he.info] at hk
      rw [he.other k (by omega)] at hf'
      rw [Function.update_of_ne (by omega)]
      by_cases hklast : k = st.info.lastFileNum
      · subst hklast
        rw [ht.last f hf', h.length_last, hkeep, add_zero]
      · exact ht.old k hk (by omega) f hf'
    · rw [hnum, hnew, some.injEq] at hf'
      subst hf'
      rw [written, he.info]
      exact (Nat.sub_self _).symm
  | buffer hb hne hroom hfit =>
    have hnum := hb.lastFileNum
    refine ⟨fun k hk hk' f hf' => ?_, fun f hf' => ?_⟩
    · rw [hnum] at hk'
      rw [hb.info] at hk
      rw [hb.disk] at hf'
      rw [Function.update_of_ne (by omega)]
      exact ht.old k hk hk' f hf'
    · rw [hb.disk, hnum] at hf'
      rw [ht.last f hf', written, written, hb.info]

theorem Headed.tight (ht : Tight cfg st recs) (hh : Headed st st') : Tight cfg st' recs := by
  refine ⟨fun k hk hk' f' hf' => ?_, fun f' hf' => ?_⟩
  · obtain ⟨f, hf, hbody⟩ := hh.back hf'
    rw [hh.info] at hk hk'
    rw [hbody]
    exact ht.old k hk hk' f hf
  · obtain ⟨f, hf, hbody⟩ := hh.back hf'
    rw [hh.info] at hf
    rw [hbody, written, hh.info]
    exact ht.last f hf

theorem ReaderOk.grown (hrd : ReaderOk cfg st rd)
    (hfst : st'.info.firstFileNum = st.info.firstFileNum)
    (hlast : st.info.lastFileNum ≤ st'.info.lastFileNum)
    (hgrown : ∀ k f, k ≤ st.info.lastFileNum → st.disk k = some f →
      ∃ f', st'.disk k = some f' ∧ f.body <+: f'.body) : ReaderOk cfg st' rd := by
  refine ⟨hrd.length, ?_⟩
  rcases hrd.agrees with heq | ⟨k, f, n, hk, hk', hf, hsta, hend, hle, hbuf⟩
  · exact .inl heq
  · obtain ⟨f', hf', rest, hrest⟩ := hgrown k f hk' hf
    refine .inr ⟨k, f', n, by omega, by omega, hf', hsta, hend, ?_, ?_⟩
    · rw [← hrest, length_append]
      omega
    · rw [hbuf, ← hrest, drop_append_of_le_length (by omega),
        take_append_of_le_length (by rw [length_drop]; omega)]

theorem LogStep.readerOk (ht : Tight cfg st recs) (hstep : LogStep cfg st recs new st' recs')
    (hrd : ReaderOk cfg st rd) : ReaderOk cfg st' rd := by
  cases hstep with
  | flush hflush hbd =>
    refine hrd.grown (by rw [hflush.info]) (by rw [hflush.info]) fun k f hk hf => ?_
    by_cases hlast : k = st.info.lastFileNum
    · subst hlast
      refine ⟨_, hflush.file f hf, prefix_writeAt (prefix_refl _) ?_⟩
      exact le_of_eq (ht.last f hf)
    · exact ⟨f, (hflush.other k hlast).trans hf, prefix_refl _⟩
  | extend he hkeep hused =>
    refine hrd.grown (by rw [he.info]) (by rw [he.info]; exact Nat.le_succ _) fun k f hk hf => ?_
    exact ⟨f, (he.other k (by omega)).trans hf, prefix_refl _⟩
  | buffer hb hne hroom hfit =>
    refine hrd.grown (by rw [hb.info]) (by rw [hb.info]) fun k f _ hf => ?_
    exact ⟨f, by rw [hb.disk, hf], prefix_refl _⟩

theorem Headed.readerOk (hh : Headed st st') (hrd : ReaderOk cfg st rd) : ReaderOk cfg st' rd := by
  refine hrd.grown (by rw [hh.info]) (by rw [hh.info]) fun k f _ hf => ?_
  obtain ⟨f', hf', hbody, -⟩ := hh.file k f hf
  exact ⟨f', hf', hbody ▸ prefix_refl _⟩

theorem LogSteps.round_trip (h : Stores cfg st recs) (ht : Tight cfg st recs)
    (hsteps : LogSteps cfg st recs new st' recs') (hrd : ReaderOk cfg st rd) :
    Stores cfg st' recs' ∧ Tight cfg st' recs' ∧ ReaderOk cfg st' rd ∧
      st'.log cfg recs' = st.log cfg recs ++ new := by
  refine ⟨hsteps.stores h, and_assoc.1 ⟨?_, hsteps.log_eq h⟩⟩
  induction hsteps with
  | refl => exact ⟨ht, hrd⟩
  | tail hsteps hstep ih =>
    have hst := hsteps.stores h
    exact ⟨hstep.tight hst ih.1, hstep.readerOk ih.1 ih.2⟩

/-! ## The created log -/

theorem stores_created {user : η} {buffer : Nat → UInt8}
    (hinit : lfsInit (lfsCreateNew cfg user) 1 buffer = some st) :
    Stores cfg st (fun _ => []) ∧ Tight cfg st (fun _ => []) ∧ st.log cfg (fun _ => []) = [] := by
  obtain ⟨hsafe, hlog⟩ := @safe_created η cfg (fun _ => []) user rfl buffer st hinit
  refine ⟨hsafe.stores, ?_, hlog⟩
  have hsta : startOf cfg 1 = cfg.sectorSize := by simp [startOf]
  simp only [lfsInit, lfsCreateNew, Function.update_self, bind_some, some.injEq]
    at hinit
  subst hinit
  refine ⟨fun k hk hk' => absurd hk' (not_lt.2 hk), fun f hf => ?_⟩
  simp only [Function.update_self, some.injEq] at hf
  subst hf
  simp [written, hsta]

/-! ## Calls of the storage -/

/-- A state that calls of the storage lead to, with the read buffer of one process and
the records that have been appended, each with the LSN that the append returned. -/
inductive Run (cfg : Config) (η : Type*) : Storage η → Reader → List (Nat × Bytes) → Prop
  | created {user : η} {buffer : Nat → UInt8} {memory : Bytes} {st : Storage η}
      (hinit : lfsInit (lfsCreateNew cfg user) 1 buffer = some st)
      (hmemory : memory.length = cfg.readBufSize) : Run cfg η st (Reader.connect memory) []
  | append {st st' : Storage η} {rd : Reader} {log : List (Nat × Bytes)} {rec : Bytes} {lsn : Nat}
      (hrun : Run cfg η st rd log) (hne : rec ≠ []) (hbuf : rec.length ≤ cfg.bufSize)
      (hchunk : rec.length ≤ cfg.chunkSize - cfg.sectorSize)
      (hcall : lfsAppendRecord cfg rec st = some (lsn, st')) :
      Run cfg η st' rd (log ++ [(lsn, rec)])
  | flush {st : Storage η} {rd : Reader} {log : List (Nat × Bytes)} {ulsn : Nat}
      (hrun : Run cfg η st rd log)
      (hbd : ∃ x ∈ log, ulsn = x.1 ∨ ulsn = x.1 + x.2.length) :
      Run cfg η (lfsFlush cfg ulsn st) rd log
  | flushAll {st : Storage η} {rd : Reader} {log : List (Nat × Bytes)}
      (hrun : Run cfg η st rd log) :
      Run cfg η (lfsFlushAll cfg st) rd log
  | archive {st st' : Storage η} {rd : Reader} {log : List (Nat × Bytes)} {user : Option η}
      {num : Nat} (hrun : Run cfg η st rd log)
      (hcall : lfsArchiveCurrentFile cfg user st = some (num, st')) : Run cfg η st' rd log
  | read {st : Storage η} {rd rd' : Reader} {log : List (Nat × Bytes)} {x : Nat × Bytes}
      {size : Nat} {answer : Option (Nat × Bytes)} (hrun : Run cfg η st rd log) (hx : x ∈ log)
      (hpos : 0 < size) (hsize : size ≤ x.2.length)
      (hcall : lfsGetRecord cfg st x.1 size rd = some (answer, rd')) : Run cfg η st rd' log

theorem Stores.boundary_of_mem (h : Stores cfg st recs) {ulsn : Nat}
    (hx : ∃ x ∈ st.log cfg recs, ulsn = x.1 ∨ ulsn = x.1 + x.2.length) :
    Boundary cfg st recs ulsn := by
  obtain ⟨⟨lsn, b⟩, hmem, hulsn⟩ := hx
  simp only at hulsn
  obtain ⟨k, hk, hk', hpl⟩ := mem_log hmem
  obtain ⟨pre, post, hcut, hlsn⟩ := mem_place hpl
  by_cases hlast : k = st.info.lastFileNum
  · subst hlast
    refine .inr (.inr ?_)
    rcases hulsn with hulsn | hulsn
    · exact ⟨pre, b :: post, hcut, by omega⟩
    · refine ⟨pre ++ [b], post, by simp [hcut], ?_⟩
      rw [flatten_append, length_append]
      simp only [flatten_cons, flatten_nil, append_nil]
      omega
  · have hend := h.old_end_le hk (by omega) hpl
    have hsta := h.start_le
    refine .inl ?_
    simp only at hulsn hend
    omega

theorem run_stores {log : List (Nat × Bytes)} (hrun : Run cfg η st rd log) :
    ∃ recs, Stores cfg st recs ∧ Tight cfg st recs ∧ ReaderOk cfg st rd ∧
      st.log cfg recs = log := by
  induction hrun with
  | created hinit hmemory =>
    obtain ⟨hst, htight, hlog⟩ := stores_created hinit
    exact ⟨_, hst, htight, readerOk_connect hmemory, hlog⟩
  | @append st st' rd log rec lsn hrun hne hbuf hchunk hcall ih =>
    obtain ⟨recs, hst, htight, hrd, rfl⟩ := ih
    have hsector := cfg.sector_le
    obtain ⟨lsn', st'', recs', hcall', hsteps⟩ :=
      lfsAppendRecord_steps hst hne hbuf (by omega)
    obtain ⟨rfl, rfl⟩ := Prod.mk.inj (some.inj (hcall.symm.trans hcall'))
    exact ⟨recs', hsteps.round_trip hst htight hrd⟩
  | flush hrun hbd ih =>
    obtain ⟨recs, hst, htight, hrd, rfl⟩ := ih
    have hsteps := lfsFlush_steps hst (hst.boundary_of_mem hbd)
    exact ⟨recs, by simpa using hsteps.round_trip hst htight hrd⟩
  | flushAll hrun ih =>
    obtain ⟨recs, hst, htight, hrd, rfl⟩ := ih
    have hsteps := lfsFlushAll_steps hst
    exact ⟨recs, by simpa using hsteps.round_trip hst htight hrd⟩
  | archive hrun hcall ih =>
    obtain ⟨recs, hst, htight, hrd, rfl⟩ := ih
    obtain ⟨num, st'', mid, recs', hcall', hsteps, hh, -⟩ := lfsArchiveCurrentFile_steps hst _
    obtain ⟨rfl, rfl⟩ := Prod.mk.inj (some.inj (hcall.symm.trans hcall'))
    obtain ⟨hst', htight', hrd', hlog⟩ := hsteps.round_trip hst htight hrd
    exact ⟨recs', hh.stores hst', hh.tight htight', hh.readerOk hrd',
      by rw [hh.log_eq, hlog, append_nil]⟩
  | read hrun hx hpos hsize hcall ih =>
    obtain ⟨recs, hst, htight, hrd, rfl⟩ := ih
    obtain ⟨rd'', hrd'', hget⟩ := lfsGetRecord_eq hst hrd hx hpos hsize
    rw [hcall, some.injEq, Prod.mk.injEq] at hget
    exact ⟨recs, hst, htight, hget.2 ▸ hrd'', rfl⟩

/-- Over every sequence of calls the appends return growing LSNs, and a process that
reads at one of them gets the bytes that were appended there.  No call fails. -/
theorem append_read_round_trip {rd : Reader} {log : List (Nat × Bytes)}
    (hrun : Run cfg η st rd log) :
    (log.Pairwise fun x y => x.1 < y.1) ∧
    (∀ x ∈ log, ∃ rd', lfsGetRecord cfg st x.1 x.2.length rd = some (some x, rd')) ∧
    (∀ rec : Bytes, rec ≠ [] → rec.length ≤ cfg.bufSize →
      rec.length ≤ cfg.chunkSize - cfg.sectorSize → (lfsAppendRecord cfg rec st).isSome) ∧
    ∀ user, (lfsArchiveCurrentFile cfg user st).isSome := by
  obtain ⟨recs, hst, -, hrd, rfl⟩ := run_stores hrun
  refine ⟨hst.increasing_log, fun x hx => ?_, fun rec hne hbuf hchunk => ?_, fun user => ?_⟩
  · obtain ⟨k, -, -, hpl⟩ := mem_log hx
    obtain ⟨pre, post, hcut, -⟩ := mem_place hpl
    have hpos : 0 < x.2.length := length_pos_iff.2 (hst.nonempty k x.2 (by simp [hcut]))
    obtain ⟨rd', -, hget⟩ := lfsGetRecord_eq hst hrd hx hpos le_rfl
    exact ⟨rd', by rw [hget, take_length]⟩
  · have hsector := cfg.sector_le
    obtain ⟨lsn, st', recs', hcall, -⟩ := lfsAppendRecord_steps hst hne hbuf (by omega)
    rw [hcall]
    rfl
  · obtain ⟨num, st', mid, recs', hcall, -⟩ := lfsArchiveCurrentFile_steps hst user
    rw [hcall]
    rfl

def tinyConfig : Config :=
  { sectorSize := 4, chunkSize := 16, bufSize := 8, readBufSize := 4, sector_pos := by decide,
    sector_le := by decide, buf_pos := by decide, buf_lt := by decide }

/-- The first of two records is flushed, and the second does not fit into its file. -/
theorem tiny_run : ∃ (st : Storage Unit) (rd : Reader),
    Run tinyConfig Unit st rd [(4, [1, 2, 3, 4, 5, 6, 7, 8]), (20, [9, 10, 11, 12, 13])] ∧
    st.info.lastFileNum = 2 ∧ (st.disk 1).isSome := by
  have hrun := @Run.created tinyConfig Unit () (fun _ => 0) [0, 0, 0, 0] _ rfl rfl
  have hrun1 := hrun.append (by decide) (by decide) (by decide)
    (rfl : lfsAppendRecord tinyConfig [1, 2, 3, 4, 5, 6, 7, 8] _ = some (4, _))
  have hrun2 := hrun1.flushAll.append (by decide) (by decide) (by decide)
    (rfl : lfsAppendRecord tinyConfig [9, 10, 11, 12, 13] _ = some (20, _))
  exact ⟨_, _, hrun2, rfl, rfl⟩

theorem append_read_round_trip_tiny :
    ∃ (st : Storage Unit) (rd rd1 rd2 : Reader),
      Run tinyConfig Unit st rd [(4, [1, 2, 3, 4, 5, 6, 7, 8]), (20, [9, 10, 11, 12, 13])] ∧
      lfsGetRecord tinyConfig st 4 8 rd = some (some (4, [1, 2, 3, 4, 5, 6, 7, 8]), rd1) ∧
      lfsGetRecord tinyConfig st 20 5 rd = some (some (20, [9, 10, 11, 12, 13]), rd2) ∧
      (lfsArchiveCurrentFile tinyConfig none st).isSome := by
  obtain ⟨st, rd, hrun, -⟩ := tiny_run
  obtain ⟨-, hreads, -, harchive⟩ := append_read_round_trip hrun
  obtain ⟨rd1, hget1⟩ := hreads _ mem_cons_self
  obtain ⟨rd2, hget2⟩ := hreads _ (mem_cons_of_mem _ mem_cons_self)
  exact ⟨st, rd, rd1, rd2, hrun, hget1, hget2, harchive none⟩

/-- Two empty records in a row get the same LSN. -/
theorem empty_records_share_lsn :
    ∃ (st st1 st2 : Storage Unit) (lsn : Nat),
      lfsInit (lfsCreateNew tinyConfig ()) 1 (fun _ => 0) = some st ∧
      lfsAppendRecord tinyConfig [] st = some (lsn, st1) ∧
      lfsAppendRecord tinyConfig [] st1 = some (lsn, st2) :=
  ⟨_, _, _, 4, rfl, rfl, rfl⟩

/-! ## Truncation -/

variable {k num untilLsn hintNum lsn size : Nat}

/-- `_lfsTruncateChain`: the files are deleted from this number downwards, as long as
there are any. -/
def lfsTruncateChain : Nat → Storage η → Storage η
  | 0, st => st
  | num + 1, st =>
    match st.disk (num + 1) with
    | none => st
    | some _ =>
      let disk := Function.update st.disk (num + 1) none
      lfsTruncateChain num { st with disk, past := disk :: st.past }

def firstKept (cfg : Config) (untilLsn hintNum : Nat) : Nat :=
  let firstFileNum := untilLsn / cfg.chunkSize + 1
  if hintNum ≠ 0 ∧ hintNum < firstFileNum then hintNum else firstFileNum

/-- The header of the last file gets the new first file before anything is deleted. -/
def lfsTruncate (cfg : Config) (untilLsn hintNum : Nat) (st : Storage η) : Option (Storage η) :=
  match (st.disk st.info.lastFileNum).bind LogFile.header with
  | none => none
  | some (_, user) =>
    let firstFileNum := firstKept cfg untilLsn hintNum
    let st := { st with info := { st.info with firstFileNum } }
    some (lfsTruncateChain (firstFileNum - 1) (lfsWriteHeader cfg user st))

/-! ## What is deleted -/

theorem lfsTruncateChain_disk (hk : num < k) (st : Storage η) :
    (lfsTruncateChain num st).disk k = st.disk k := by
  induction num generalizing st with
  | zero => rfl
  | succ num ih =>
    rw [lfsTruncateChain]
    split
    · rfl
    · rw [ih (by omega)]
      exact Function.update_of_ne (by omega) _ _

theorem lfsTruncateChain_deletes (hnum : 1 ≤ num) (st : Storage η) :
    (lfsTruncateChain num st).disk num = none := by
  obtain ⟨num, rfl⟩ := Nat.exists_eq_add_of_le' hnum
  rw [lfsTruncateChain]
  split
  next hnone => exact hnone
  next =>
    rw [lfsTruncateChain_disk (Nat.lt_succ_self num)]
    exact Function.update_self _ _ _

theorem lfsTruncateChain_rest (num : Nat) (st : Storage η) :
    (lfsTruncateChain num st).info = st.info ∧ (lfsTruncateChain num st).buffer = st.buffer := by
  induction num generalizing st with
  | zero => exact ⟨rfl, rfl⟩
  | succ num ih =>
    rw [lfsTruncateChain]
    split
    · exact ⟨rfl, rfl⟩
    · exact ih _

theorem lfsTruncate_eq (h : Stores cfg st recs) (untilLsn hintNum : Nat) :
    ∃ head, Headed { st with info.firstFileNum := firstKept cfg untilLsn hintNum } head ∧
      lfsTruncate cfg untilLsn hintNum st =
        some (lfsTruncateChain (firstKept cfg untilLsn hintNum - 1) head) := by
  obtain ⟨f, hf, hhdr, -⟩ := h.lastFile
  obtain ⟨⟨lfsHeader, user⟩, hhdr⟩ := isSome_iff_exists.1 hhdr
  refine ⟨lfsWriteHeader cfg user _, lfsWriteHeader_headed user, ?_⟩
  rw [lfsTruncate, hf, bind_some, hhdr]

theorem firstKept_bounds (cfg : Config) (untilLsn hintNum : Nat) :
    1 ≤ firstKept cfg untilLsn hintNum ∧
      firstKept cfg untilLsn hintNum ≤ untilLsn / cfg.chunkSize + 1 := by
  unfold firstKept
  generalize untilLsn / cfg.chunkSize = quotient
  dsimp only
  split <;> omega

/-- The LSN is that of a record, or the end of the last record of a file. -/
def RecordBoundary (cfg : Config) (st : Storage η) (recs : Nat → List Bytes) (lsn : Nat) : Prop :=
  ∃ k pre post, st.info.firstFileNum ≤ k ∧ k ≤ st.info.lastFileNum ∧ recs k = pre ++ post ∧
    lsn = startOf cfg k + pre.flatten.length

theorem RecordBoundary.le (hbd : RecordBoundary cfg st recs untilLsn)
    (h : Stores cfg st recs) : untilLsn ≤ st.info.lastFileNum * cfg.chunkSize := by
  obtain ⟨k, pre, post, hk, hk', hcut, rfl⟩ := hbd
  have hlen := h.length_le hk hk'
  rw [hcut, flatten_append, length_append] at hlen
  have hchunks := Nat.mul_le_mul_right cfg.chunkSize hk'
  omega

theorem firstKept_le_last_iff (h : Stores cfg st recs)
    (hbd : RecordBoundary cfg st recs untilLsn) (hhint : hintNum = 0 ∨
      st.info.firstFileNum ≤ hintNum ∧ hintNum ≤ st.info.lastFileNum) :
    firstKept cfg untilLsn hintNum ≤ st.info.lastFileNum ↔
      hintNum ≠ 0 ∨ untilLsn ≠ st.info.lastFileNum * cfg.chunkSize := by
  have hle := hbd.le h
  have hpos : 0 < cfg.chunkSize := lt_of_lt_of_le cfg.sector_pos cfg.sector_le
  have hdiv : untilLsn / cfg.chunkSize < st.info.lastFileNum ↔
      untilLsn < st.info.lastFileNum * cfg.chunkSize := Nat.div_lt_iff_lt_mul hpos
  unfold firstKept
  dsimp only
  split <;> omega

/-! ## What can still be read -/

theorem readFromFile_congr {f f' : LogFile η} {fileNum fileOffs : Nat}
    (hf : st.disk fileNum = some f) (hf' : st'.disk fileNum = some f') (hbody : f'.body = f.body) :
    readFromFile cfg st' fileNum fileOffs lsn size rd =
      readFromFile cfg st fileNum fileOffs lsn size rd := by
  have hread : f'.read cfg = f.read cfg := by
    funext offs len
    rw [LogFile.read, hbody, LogFile.read]
  unfold readFromFile
  rw [hf, hf']
  dsimp only
  rw [hread]

theorem lfsGetRecord_congr {first : Nat}
    (hinfo : st'.info = { st.info with firstFileNum := first }) (hbuffer : st'.buffer = st.buffer)
    (hfile : ∀ k, fileNumOf cfg lsn ≤ k → k ≤ st.info.lastFileNum → ∃ f f', st.disk k = some f ∧
      st'.disk k = some f' ∧ f'.body = f.body ∧ f.header.isSome ∧ f'.header.isSome) :
    lfsGetRecord cfg st' lsn size rd = lfsGetRecord cfg st lsn size rd := by
  have hdata : ∀ len wbOff, getDataFromBuffer cfg st' len wbOff =
      getDataFromBuffer cfg st len wbOff := by
    intro len wbOff
    simp only [getDataFromBuffer, hinfo, hbuffer]
  simp only [lfsGetRecord, hinfo, hdata]
  split
  · rfl
  · split
    · rfl
    next hlast =>
      obtain ⟨f, f', hf, hf', hbody, hhdr, hhdr'⟩ :=
        hfile _ le_rfl (Nat.le_of_not_lt hlast)
      have hsize : f'.size cfg = f.size cfg := by
        obtain ⟨header, hhdr⟩ := isSome_iff_exists.1 hhdr
        obtain ⟨header', hhdr'⟩ := isSome_iff_exists.1 hhdr'
        simp [LogFile.size, hhdr, hhdr', hbody]
      simp only [hf, hf', hsize]
      split
      · split
        · rfl
        next hnext =>
          obtain ⟨g, g', hg, hg', hgbody, -⟩ :=
            hfile (fileNumOf cfg lsn + 1) (Nat.le_succ _) (Nat.le_of_not_lt hnext)
          exact readFromFile_congr hg hg' hgbody
      · exact readFromFile_congr hf hf' hbody

theorem lfsTruncate_reads (h : Stores cfg st recs)
    (hcall : lfsTruncate cfg untilLsn hintNum st = some st') {x : Nat × Bytes}
    (hx : x ∈ st.log cfg recs) (hle : untilLsn ≤ x.1) (hrd : ReaderOk cfg st rd) :
    ∃ rd', lfsGetRecord cfg st' x.1 x.2.length rd = some (some x, rd') := by
  obtain ⟨lsn, b⟩ := x
  obtain ⟨head, hhd, heq⟩ := lfsTruncate_eq h untilLsn hintNum
  obtain rfl := some.inj (hcall.symm.trans heq)
  obtain ⟨hinfo, hbuffer⟩ :=
    lfsTruncateChain_rest (firstKept cfg untilLsn hintNum - 1) head
  obtain ⟨k, hk, hk', hpl⟩ := mem_log hx
  obtain ⟨pre, post, hcut, rfl⟩ := mem_place hpl
  have hb : 0 < b.length := length_pos_iff.2 (h.nonempty k b (by simp [hcut]))
  have hlen := h.length_le hk hk'
  rw [hcut, flatten_append, flatten_cons, length_append, length_append]
    at hlen
  have hnum : fileNumOf cfg (startOf cfg k + pre.flatten.length) = k :=
    fileNumOf_eq (h.first_pos.trans hk) (Nat.le_add_right _ _) (by omega)
  obtain ⟨hpos, hfst⟩ := firstKept_bounds cfg untilLsn hintNum
  -- The record ends in its file, so the LSN is before the end of that file.
  have hdiv : untilLsn / cfg.chunkSize < k := Nat.div_lt_of_lt_mul (by
    rw [mul_comm]
    omega)
  obtain ⟨rd', -, hget⟩ := lfsGetRecord_eq h hrd hx hb le_rfl
  refine ⟨rd', ?_⟩
  rw [lfsGetRecord_congr (hinfo.trans hhd.info) (hbuffer.trans hhd.buffer), hget, take_length]
  intro j hj hj'
  rw [hnum] at hj
  obtain ⟨f, hf, hhdr, -⟩ := h.file j (hk.trans hj) hj'
  obtain ⟨f', hf', hbody, hhdr'⟩ := hhd.file j f hf
  refine ⟨f, f', hf, ?_, hbody, hhdr, hhdr' hhdr⟩
  rw [lfsTruncateChain_disk, hf']
  omega

/-- Truncation deletes files whose LSNs are all below the given one, not the last file,
and keeps the records from there on readable, exactly if it is given a hint or an
LSN other than the end of a full last file. -/
theorem lfsTruncate_keeps_iff (h : Stores cfg st recs)
    (hbd : RecordBoundary cfg st recs untilLsn)
    (hhint : hintNum = 0 ∨ st.info.firstFileNum ≤ hintNum ∧ hintNum ≤ st.info.lastFileNum) :
    (∃ st', lfsTruncate cfg untilLsn hintNum st = some st' ∧
      (∀ k, st.disk k ≠ none → st'.disk k = none →
        k * cfg.chunkSize ≤ untilLsn ∧ k ≠ st.info.lastFileNum) ∧
      ∀ x ∈ st.log cfg recs, untilLsn ≤ x.1 → ∀ rd, ReaderOk cfg st rd →
        ∃ rd', lfsGetRecord cfg st' x.1 x.2.length rd = some (some x, rd')) ↔
      hintNum ≠ 0 ∨ untilLsn ≠ st.info.lastFileNum * cfg.chunkSize := by
  obtain ⟨head, hhd, heq⟩ := lfsTruncate_eq h untilLsn hintNum
  have hiff := firstKept_le_last_iff h hbd hhint
  obtain ⟨hpos, hfst⟩ := firstKept_bounds cfg untilLsn hintNum
  have hdiv := Nat.div_mul_le_self untilLsn cfg.chunkSize
  constructor
  · rintro ⟨st', hcall, hdel, -⟩
    obtain rfl := some.inj (hcall.symm.trans heq)
    by_contra hnot
    -- The chain is deleted from its last file on.
    have hlast : firstKept cfg untilLsn hintNum - 1 = st.info.lastFileNum := by
      have hquot : untilLsn / cfg.chunkSize ≤ st.info.lastFileNum :=
        Nat.div_le_of_le_mul (by
          rw [mul_comm]
          exact hbd.le h)
      omega
    obtain ⟨f, hf, -⟩ := h.lastFile
    refine (hdel st.info.lastFileNum (by simp [hf]) ?_).2 rfl
    rw [hlast]
    exact lfsTruncateChain_deletes h.last_pos head
  · intro hcond
    refine ⟨_, heq, ?_, fun x hx hle rd hrd => lfsTruncate_reads h heq hx hle hrd⟩
    intro k hk hnone
    have hlt : k < firstKept cfg untilLsn hintNum := by
      by_contra hnot
      obtain ⟨f, hf⟩ := ne_none_iff_exists'.1 hk
      obtain ⟨f', hf', -⟩ := hhd.file k f hf
      rw [lfsTruncateChain_disk (by omega), hf'] at hnone
      cases hnone
    have hchunks := Nat.mul_le_mul_right cfg.chunkSize (by omega : k ≤ untilLsn / cfg.chunkSize)
    exact ⟨hchunks.trans hdiv, by omega⟩

/-- The first of two files is deleted. -/
theorem lfsTruncate_keeps_iff_tiny :
    ∃ (st st' : Storage Unit) (rd rd' : Reader), lfsTruncate tinyConfig 20 0 st = some st' ∧
      (st.disk 1).isSome ∧ st'.disk 1 = none ∧
      lfsGetRecord tinyConfig st' 20 5 rd = some (some (20, [9, 10, 11, 12, 13]), rd') := by
  obtain ⟨st, rd, hrun, hlast, hfile⟩ := tiny_run
  obtain ⟨recs, hst, -, hrd, hlog⟩ := run_stores hrun
  have hmem : (20, [9, 10, 11, 12, 13]) ∈ st.log tinyConfig recs := by simp [hlog]
  obtain ⟨k, hk, hk', hpl⟩ := mem_log hmem
  obtain ⟨pre, post, hcut, hlsn⟩ := mem_place hpl
  obtain ⟨st', hcall, -, hreads⟩ := (lfsTruncate_keeps_iff hst
    ⟨k, pre, _, hk, hk', hcut, hlsn⟩ (.inl rfl)).2 (.inr (by simp [hlast, tinyConfig]))
  obtain ⟨rd', hget⟩ := hreads _ hmem le_rfl rd hrd
  obtain ⟨head, -, heq⟩ := lfsTruncate_eq hst 20 0
  refine ⟨st, st', rd, rd', hcall, hfile, ?_, hget⟩
  rw [some.inj (hcall.symm.trans heq)]
  exact lfsTruncateChain_deletes le_rfl head

/-- The log is truncated at its end, which is that of a full file: the last file is
gone and nothing can be appended. -/
theorem lfsTruncate_deletes_last :
    ∃ st0 st1 st st' : Storage Unit,
      lfsInit (lfsCreateNew tinyConfig ()) 1 (fun _ => 0) = some st0 ∧
      lfsAppendRecord tinyConfig [1, 2, 3, 4, 5, 6, 7, 8] st0 = some (4, st1) ∧
      lfsAppendRecord tinyConfig [9, 10, 11, 12] st1 = some (12, st) ∧
      st.lfsGetHighLSNBoundary = 16 ∧ lfsTruncate tinyConfig 16 0 st = some st' ∧
      st'.disk st.info.lastFileNum = none ∧ lfsAppendRecord tinyConfig [13] st' = none :=
  ⟨_, _, _, _, rfl, rfl, rfl, rfl, rfl, rfl, rfl⟩

end Storage

end Sedna.Log
