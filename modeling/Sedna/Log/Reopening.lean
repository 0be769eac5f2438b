import Sedna.Log.RoundTrip
import Sedna.Log.Scan

/-!
# Scanning a log that has been reopened

A crash leaves a last file that may be longer than the LSN in its header says.  The log goes on at
that LSN, but a file that is left before the old bytes have been overwritten keeps them, and the
scan reads them as records.
-/

namespace Sedna.Log

open List Function Option

namespace Storage

variable {η : Type*} {cfg : Config} {st st' : Storage η} {recs recs' : Nat → List Bytes}
  {new : List (Nat × Bytes)} {log : List (Nat × Bytes)}

/-! ## Files that are left -/

/-- The last file has no bytes behind the records of the log. -/
def NoTail (cfg : Config) (st : Storage η) : Prop :=
  ∀ f, st.disk st.info.lastFileNum = some f →
    startOf cfg st.info.lastFileNum + f.body.length ≤ st.lfsGetHighLSNBoundary

theorem LogStep.noTail (h : Stores cfg st recs) (hstep : LogStep cfg st recs new st' recs')
    (htail : NoTail cfg st) : NoTail cfg st' := by
  obtain ⟨file, hfile, -, -, -, -⟩ := h.lastFile
  have hle := htail file hfile
  have hsta := h.start_le
  intro f hf
  cases hstep with
  | @flush _ n hflush hbd =>
    have hn := hflush.le
    rw [hflush.lastFileNum, hflush.file file hfile, some.injEq] at hf
    subst hf
    rw [hflush.high_eq, hflush.lastFileNum, length_writeAt, take_pending cfg hn,
      Sedna.Library.RingBuffer.length_contents, written]
    unfold lfsGetHighLSNBoundary at hle ⊢
    omega
  | extend he hkeep hused =>
    obtain ⟨header, user, -, hnew⟩ := he.file
    have hnext : st'.info.nextLsn = startOf cfg (st.info.lastFileNum + 1) := by rw [he.info]
    rw [he.lastFileNum, hnew, some.injEq] at hf
    subst hf
    rw [he.lastFileNum, lfsGetHighLSNBoundary, hnext]
    exact Nat.le_add_right _ _
  | @buffer _ rec hb hne hroom hfit =>
    have hhigh : st'.lfsGetHighLSNBoundary = st.lfsGetHighLSNBoundary + rec.length := by
      rw [lfsGetHighLSNBoundary, hb.info]
      exact (add_assoc _ _ _).symm
    rw [hb.disk, hb.info] at hf
    rw [hb.info]
    have hle' := htail f hf
    show startOf cfg st.info.lastFileNum + _ ≤ _
    omega

theorem LogStep.last_le (hstep : LogStep cfg st recs new st' recs') :
    st.info.lastFileNum ≤ st'.info.lastFileNum := by
  cases hstep with
  | flush hflush hbd => rw [hflush.info]
  | extend he hkeep hused => rw [he.info]; exact Nat.le_succ _
  | buffer hb hne hroom hfit => rw [hb.info]

theorem LogStep.leftClean (h : Stores cfg st recs) (hclean : LeftClean st recs)
    (hstep : LogStep cfg st recs new st' recs')
    (htail : st'.info.lastFileNum ≠ st.info.lastFileNum → NoTail cfg st) : LeftClean st' recs' := by
  cases hstep with
  | flush hflush hbd =>
    have hnum := hflush.lastFileNum
    have hfirstNum := hflush.firstFileNum
    refine ⟨fun k hk hlt => ?_, fun k hk hlt f hf => ?_⟩
    · exact hclean.used k (by omega) (by omega)
    · rw [hflush.other k (by omega)] at hf
      exact hclean.size k (by omega) (by omega) f hf
  | extend he hkeep hused =>
    have hnum := he.lastFileNum
    have hfirstNum := he.firstFileNum
    have hlen := h.length_last
    -- the file that is left: everything in it is a record
    have hsize : ∀ f, st.disk st.info.lastFileNum = some f →
        f.body.length = (recs st.info.lastFileNum).flatten.length := by
      intro f hf
      have hle := htail (by omega) f hf
      have hge := (h.last f hf).1
      unfold lfsGetHighLSNBoundary at hle
      unfold written at hge hlen
      omega
    refine ⟨fun k hk hlt => ?_, fun k hk hlt f hf => ?_⟩
    · rw [update_of_ne (by omega)]
      by_cases hlast : k = st.info.lastFileNum
      · subst hlast
        intro hnil
        obtain ⟨f, hf, -⟩ := h.lastFile
        have hzero := hsize f hf
        rw [hnil] at hzero
        exact hused f hf (length_eq_zero_iff.1 hzero)
      · exact hclean.used k (by omega) (by omega)
    · rw [he.other k (by omega)] at hf
      rw [update_of_ne (by omega)]
      by_cases hlast : k = st.info.lastFileNum
      · subst hlast
        exact hsize f hf
      · exact hclean.size k (by omega) (by omega) f hf
  | buffer hb hne hroom hfit =>
    have hnum := hb.lastFileNum
    have hfirstNum := hb.firstFileNum
    refine ⟨fun k hk hlt => ?_, fun k hk hlt f hf => ?_⟩
    · rw [update_of_ne (by omega)]
      exact hclean.used k (by omega) (by omega)
    · rw [hb.disk] at hf
      rw [update_of_ne (by omega)]
      exact hclean.size k (by omega) (by omega) f hf

theorem LogSteps.last_le (hsteps : LogSteps cfg st recs new st' recs') :
    st.info.lastFileNum ≤ st'.info.lastFileNum := by
  induction hsteps with
  | refl => exact le_refl _
  | tail _ hstep ih => exact le_trans ih hstep.last_le

theorem LogSteps.noTail (h : Stores cfg st recs) (hsteps : LogSteps cfg st recs new st' recs')
    (htail : NoTail cfg st) : NoTail cfg st' := by
  induction hsteps with
  | refl => exact htail
  | tail hsteps hstep ih => exact hstep.noTail (hsteps.stores h) ih

theorem LogSteps.leftClean (h : Stores cfg st recs) (hclean : LeftClean st recs)
    (hsteps : LogSteps cfg st recs new st' recs')
    (htail : st'.info.lastFileNum ≠ st.info.lastFileNum → NoTail cfg st) : LeftClean st' recs' := by
  induction hsteps with
  | refl => exact hclean
  | @tail mid st'' recs' recs'' new more hsteps hstep ih =>
    have hmono := hsteps.last_le
    have hmono' := hstep.last_le
    have hmid := hsteps.stores h
    by_cases hsame : st''.info.lastFileNum = st.info.lastFileNum
    · -- no file is left in any of these steps
      exact hstep.leftClean hmid (ih fun hne => absurd (by omega) hne) fun hne =>
        absurd (by omega) hne
    · have hnone := htail hsame
      exact hstep.leftClean hmid (ih fun _ => hnone) fun _ => hsteps.noTail h hnone

theorem Headed.leftClean (hclean : LeftClean st recs) (hh : Headed st st') :
    LeftClean st' recs := by
  refine ⟨fun k hk hlt => ?_, fun k hk hlt f' hf' => ?_⟩
  · rw [hh.info] at hk hlt
    exact hclean.used k hk hlt
  · rw [hh.info] at hk hlt
    obtain ⟨f, hf, hbody⟩ := hh.back hf'
    rw [hbody]
    exact hclean.size k hk hlt f hf

/-! ## Crashes -/

/-- A crash leaves the files, with anything behind the LSN that the last header has. -/
structure CrashLeaves (cfg : Config) (st : Storage η) (disk : Disk η) : Prop where
  other : ∀ k, k ≠ st.info.lastFileNum → disk k = st.disk k
  last : ∀ f header user, st.disk st.info.lastFileNum = some f → f.header = some (header, user) →
    ∃ tail, disk st.info.lastFileNum = some { f with
        body := f.body.take (header.nextLsn - startOf cfg st.info.lastFileNum) ++ tail } ∧
      (f.body.take (header.nextLsn - startOf cfg st.info.lastFileNum) ++ tail).length ≤
        cfg.chunkSize - cfg.sectorSize

theorem crashLeaves_self (hsize : ∀ f, st.disk st.info.lastFileNum = some f →
    f.body.length ≤ cfg.chunkSize - cfg.sectorSize) : CrashLeaves cfg st st.disk := by
  refine ⟨fun _ _ => rfl, fun f header user hf _ => ?_⟩
  refine ⟨f.body.drop (header.nextLsn - startOf cfg st.info.lastFileNum), ?_, ?_⟩
  · rw [take_append_drop, hf]
  · rw [take_append_drop]
    exact hsize f hf

abbrev noLsns : η → List Nat := fun _ => []

theorem CrashLeaves.diskOk {disk : Disk η} (h : Safe cfg noLsns st recs)
    (hleft : CrashLeaves cfg st disk) :
    DiskOk cfg noLsns recs st.info.firstFileNum st.info.lastFileNum (st.written cfg) disk := by
  obtain ⟨f, header, user, done, hh⟩ := h.disk.last
  obtain ⟨tail, hf', hsize⟩ := hleft.last f header user hh.file hh.header_eq
  refine h.disk.setBody hh hleft.other hf' hsize ?_
  rw [hh.nextLsn_eq, Nat.add_sub_cancel_left, ← prefix_iff_eq_take.1 hh.body]
  exact prefix_append _ _

theorem Stores.logUpTo_eq_filter (h : Stores cfg st recs) {done : List Bytes}
    (hdone : done <+: recs st.info.lastFileNum) :
    logUpTo cfg recs st.info.firstFileNum st.info.lastFileNum done =
      (st.log cfg recs).filter fun x =>
        x.1 < startOf cfg st.info.lastFileNum + done.flatten.length := by
  obtain ⟨todo, htodo⟩ := hdone
  have hpos : ∀ k, ∀ b ∈ recs k, 0 < b.length := fun k b hb =>
    length_pos_iff.2 (h.nonempty k b hb)
  rw [h.log_eq, ← htodo, place_append, ← append_assoc, filter_append,
    filter_eq_self.mpr, filter_eq_nil_iff.mpr, append_nil]
  · rfl
  · intro x hx
    have hle := (place_bounds hx).1
    simpa using hle
  · intro x hx
    rw [decide_eq_true_eq]
    rcases mem_append.1 hx with hx | hx
    · obtain ⟨k, hk, hlt, hpl⟩ := mem_entries hx
      have hend := h.old_end_le hk (by omega) hpl
      have hsector := cfg.sector_pos
      omega
    · obtain ⟨pre, post, hcut, -⟩ := mem_place hx
      have hb := hpos st.info.lastFileNum x.2 (by rw [← htodo, hcut]; simp)
      have hend := (place_bounds hx).2
      omega

theorem crash_reopens {disk : Disk η} {buffer : Nat → UInt8} (h : Safe cfg noLsns st recs)
    (hclean : LeftClean st recs) (hleft : CrashLeaves cfg st disk)
    (hinit : lfsInit disk st.info.lastFileNum buffer = some st') :
    ∃ recs', Safe cfg noLsns st' recs' ∧ LeftClean st' recs' ∧
      st'.log cfg recs' = (st.log cfg recs).filter fun x => x.1 < st'.info.nextLsn := by
  have hdisk := hleft.diskOk h
  obtain ⟨f, header, user, done, hh⟩ := hdisk.last
  obtain ⟨st1, hinit', hdisk', hinfo, hsafe, hlog⟩ := hdisk.opens hh buffer
  obtain rfl : st' = st1 := some.inj (hinit.symm.trans hinit')
  have hnext : st'.info.nextLsn = startOf cfg st.info.lastFileNum + done.flatten.length := by
    rw [hinfo]
    exact hh.nextLsn_eq
  have hnum : st'.info.lastFileNum = st.info.lastFileNum := by rw [hinfo]
  have hfirstNum : st'.info.firstFileNum = st.info.firstFileNum := by rw [hinfo]
  refine ⟨_, hsafe, ⟨fun k hk hlt => ?_, fun k hk hlt f hf => ?_⟩, ?_⟩
  · rw [update_of_ne (by omega)]
    exact hclean.used k (by omega) (by omega)
  · rw [hdisk', hleft.other k (by omega)] at hf
    rw [update_of_ne (by omega)]
    exact hclean.size k (by omega) (by omega) f hf
  · rw [hlog, h.stores.logUpTo_eq_filter hh.done_le, hnext]

/-! ## Histories -/

/-- A state that calls of the storage and crashes lead to, with the records that are in
the log: a crash takes those from the LSN of the header on.  A call that begins
another file is made in a state that `leaves` allows. -/
inductive History (cfg : Config) (η : Type*) (leaves : Storage η → Prop) :
    Storage η → List (Nat × Bytes) → Prop
  | created {user : η} {buffer : Nat → UInt8} {st : Storage η}
      (hinit : lfsInit (lfsCreateNew cfg user) 1 buffer = some st) : History cfg η leaves st []
  | append {st st' : Storage η} {log : List (Nat × Bytes)} {rec : Bytes} {lsn : Nat}
      (hrun : History cfg η leaves st log) (himage : IsImage rec) (hbuf : rec.length ≤ cfg.bufSize)
      (hchunk : rec.length ≤ cfg.chunkSize - cfg.sectorSize)
      (hcall : lfsAppendRecord cfg rec st = some (lsn, st'))
      (hleaves : st'.info.lastFileNum ≠ st.info.lastFileNum → leaves st) :
      History cfg η leaves st' (log ++ [(lsn, rec)])
  | flush {st : Storage η} {log : List (Nat × Bytes)} {ulsn : Nat}
      (hrun : History cfg η leaves st log)
      (hbd : ∃ x ∈ log, ulsn = x.1 ∨ ulsn = x.1 + x.2.length) :
      History cfg η leaves (lfsFlush cfg ulsn st) log
  | flushAll {st : Storage η} {log : List (Nat × Bytes)} (hrun : History cfg η leaves st log) :
      History cfg η leaves (lfsFlushAll cfg st) log
  | writeHeader {st : Storage η} {log : List (Nat × Bytes)} (user : η)
      (hrun : History cfg η leaves st log) : History cfg η leaves (lfsWriteHeader cfg user st) log
  | archive {st st' : Storage η} {log : List (Nat × Bytes)} {user : Option η} {num : Nat}
      (hrun : History cfg η leaves st log)
      (hcall : lfsArchiveCurrentFile cfg user st = some (num, st'))
      (hleaves : st'.info.lastFileNum ≠ st.info.lastFileNum → leaves st) :
      History cfg η leaves st' log
  | crash {st st' : Storage η} {log : List (Nat × Bytes)} {disk : Disk η} {buffer : Nat → UInt8}
      (hrun : History cfg η leaves st log) (hleft : CrashLeaves cfg st disk)
      (hinit : lfsInit disk st.info.lastFileNum buffer = some st') :
      History cfg η leaves st' (log.filter fun x => x.1 < st'.info.nextLsn)

structure HistoryInv (cfg : Config) (st : Storage η) (recs : Nat → List Bytes)
    (log : List (Nat × Bytes)) : Prop where
  safe : Safe cfg noLsns st recs
  clean : LeftClean st recs
  log_eq : st.log cfg recs = log
  image : ∀ x ∈ log, IsImage x.2

theorem HistoryInv.headed (h : HistoryInv cfg st recs log) (hh : Headed st st') :
    HistoryInv cfg st' recs log :=
  ⟨hh.safe h.safe fun _ _ _ _ hlsn => absurd hlsn not_mem_nil, hh.leftClean h.clean,
    hh.log_eq.trans h.log_eq, h.image⟩

theorem HistoryInv.steps (h : HistoryInv cfg st recs log)
    (hsteps : LogSteps cfg st recs new st' recs') (hnew : ∀ x ∈ new, IsImage x.2)
    (htail : st'.info.lastFileNum ≠ st.info.lastFileNum → NoTail cfg st) :
    HistoryInv cfg st' recs' (log ++ new) := by
  refine ⟨hsteps.safe h.safe, hsteps.leftClean h.safe.stores h.clean htail, ?_,
    forall_mem_append.2 ⟨h.image, hnew⟩⟩
  rw [hsteps.log_eq h.safe.stores, h.log_eq]

theorem HistoryInv.flush (h : HistoryInv cfg st recs log) {ulsn : Nat}
    (hbd : Boundary cfg st recs ulsn) : HistoryInv cfg (lfsFlush cfg ulsn st) recs log := by
  have hlast := (flushBufLsn_flushed h.safe.stores ulsn).lastFileNum
  have hinv := h.steps (lfsFlush_steps h.safe.stores hbd)
    (fun x hx => absurd hx not_mem_nil) fun hne => absurd hlast hne
  rwa [append_nil] at hinv

theorem history_inv (hrun : History cfg η (NoTail cfg) st log) :
    ∃ recs, HistoryInv cfg st recs log := by
  induction hrun with
  | @created user buffer st hinit =>
    obtain ⟨hsafe, hlog⟩ := @safe_created η cfg noLsns user rfl buffer st hinit
    refine ⟨_, hsafe, ?_, hlog, fun x hx => absurd hx not_mem_nil⟩
    simp only [lfsInit, lfsCreateNew, update_self, bind_some, some.injEq]
      at hinit
    subst hinit
    exact ⟨fun k hk hlt => absurd hlt (not_lt.2 hk), fun k hk hlt => absurd hlt (not_lt.2 hk)⟩
  | @append st st' log rec lsn hrun himage hbuf hchunk hcall hleaves ih =>
    obtain ⟨recs, h⟩ := ih
    have hsector := cfg.sector_le
    have hne : rec ≠ [] := by
      rintro rfl
      exact absurd himage.head (by decide)
    obtain ⟨lsn', st'', recs', hcall', hsteps⟩ :=
      lfsAppendRecord_steps h.safe.stores hne hbuf (by omega)
    obtain ⟨rfl, rfl⟩ := Prod.mk.inj (some.inj (hcall.symm.trans hcall'))
    refine ⟨recs', h.steps hsteps (fun x hx => ?_) hleaves⟩
    rw [mem_singleton.1 hx]
    exact himage
  | @flush st log ulsn hrun hbd ih =>
    obtain ⟨recs, h⟩ := ih
    rw [← h.log_eq] at hbd
    exact ⟨recs, h.flush (h.safe.stores.boundary_of_mem hbd)⟩
  | @flushAll st log hrun ih =>
    obtain ⟨recs, h⟩ := ih
    exact ⟨recs, h.flush (boundary_high cfg st recs)⟩
  | writeHeader user _ ih =>
    obtain ⟨recs, h⟩ := ih
    exact ⟨recs, h.headed (lfsWriteHeader_headed user)⟩
  | archive _ hcall hleaves ih =>
    obtain ⟨recs, h⟩ := ih
    obtain ⟨num, st'', mid, recs', hcall', hsteps, hh, -⟩ :=
      lfsArchiveCurrentFile_steps h.safe.stores _
    obtain ⟨rfl, rfl⟩ := Prod.mk.inj (some.inj (hcall.symm.trans hcall'))
    rw [hh.info] at hleaves
    have hinv := h.steps hsteps (fun x hx => absurd hx not_mem_nil) hleaves
    rw [append_nil] at hinv
    exact ⟨recs', hinv.headed hh⟩
  | crash _ hleft hinit ih =>
    obtain ⟨recs, h⟩ := ih
    obtain ⟨recs', hsafe, hclean, hlog⟩ := crash_reopens h.safe h.clean hleft hinit
    rw [h.log_eq] at hlog
    exact ⟨recs', hsafe, hclean, hlog, fun x hx => h.image x (mem_of_mem_filter hx)⟩

/-! ## The scan -/

def scanAll (cfg : Config) (st : Storage η) (fuel startLsn : Nat) (rd : Reader) :
    Option (Reader × List (Nat × Record)) :=
  llScanRecords (llGetRecordFromDisc cfg st) [(.llDefault, ())]
    (fun _ lsn r seen => seen ++ [(lsn, r)]) (Logican.llGetNextRcvRec st.lfsGetHighLSNBoundary) none
    fuel (some startLsn) rd []

theorem foldl_notes (recs seen : List (Nat × Record)) :
    recs.foldl (fun seen x => llProcessRecord [(LlOperations.llDefault, ())]
      (fun _ lsn r seen => seen ++ [(lsn, r)]) none x.1 x.2 seen) seen = seen ++ recs := by
  have hfind : ∀ cop : UInt8, llFindRecInfo [(LlOperations.llDefault, ())] cop = some () := by
    intro cop
    unfold llFindRecInfo
    split <;> simp
  induction recs generalizing seen with
  | nil => simp
  | cons x recs ih => rw [foldl_cons, ih, llProcessRecord, hfind, append_assoc]; rfl

/-- In a history in which no file is left with bytes behind its records, the scan from
the first record comes by all records of the log in their order, and by nothing else. -/
theorem scan_visits_log {log rest : List (Nat × Bytes)} {x : Nat × Bytes}
    (hrun : History cfg η (NoTail cfg) st log) (hlog : log = x :: rest)
    (hhd : HeadWritten cfg st) {rd : Reader} (hrd : ReaderOk cfg st rd) {fuel : Nat}
    (hfuel : log.length < fuel) :
    ∃ rd', scanAll cfg st fuel x.1 rd = some (rd', log.map asRecord) := by
  obtain ⟨recs, h⟩ := history_inv hrun
  have hcut : st.log cfg recs = [] ++ x :: rest := h.log_eq.trans hlog
  have himages : ∀ y ∈ st.log cfg recs, IsImage y.2 := by
    rw [h.log_eq]
    exact h.image
  have hvis := (h.safe.stores.logSuffix h.clean hhd himages hcut (.inl rfl)).visits
  rw [← hlog] at hvis
  obtain ⟨rd', -, hscan⟩ := hvis.scan [(LlOperations.llDefault, ())]
    (fun _ lsn r seen => seen ++ [(lsn, r)]) none (by simpa using hfuel) hrd []
  exact ⟨rd', by rw [scanAll, hscan, foldl_notes, nil_append]⟩

def scanConfig : Config :=
  { sectorSize := 4, chunkSize := 64, bufSize := 64, readBufSize := 16,
    sector_pos := tinyConfig.sector_pos, sector_le := by decide, buf_pos := by decide,
    buf_lt := by decide }

def shortRecord (b : UInt8) : Bytes := Record.bytes { prevLsn := none, body := [b] }

/-- The second record is lost in a crash and overwritten by the third before its file is left. -/
theorem scan_visits_log_short :
    ∃ (st : Storage Unit) (log : List (Nat × Bytes)) (rd rd' : Reader),
      History scanConfig Unit (NoTail scanConfig) st log ∧ st.info.lastFileNum = 2 ∧
      log = [(4, shortRecord 1), (21, shortRecord 3), (68, shortRecord 4)] ∧
      scanAll scanConfig st 4 4 rd = some (rd', log.map asRecord) := by
  have hrun0 := @History.created scanConfig Unit (NoTail scanConfig) () (fun _ => 0) _ rfl
  have hrun1 := History.append hrun0 (by decide : IsImage (shortRecord 1)) (by decide) (by decide)
    rfl (fun hne => absurd rfl hne)
  have hrun2 := History.append (hrun1.flushAll.writeHeader ())
    (by decide : IsImage (shortRecord 2)) (by decide) (by decide) rfl (fun hne => absurd rfl hne)
  have hrun3 := History.crash hrun2.flushAll (crashLeaves_self fun f hf => by cases hf; decide)
    (@rfl (Option (Storage Unit)) (lfsInit _ 1 fun _ => 0))
  have hrun4 := History.append hrun3 (by decide : IsImage (shortRecord 3)) (by decide) (by decide)
    rfl (fun hne => absurd rfl hne)
  have hrun5 := History.archive hrun4.flushAll (@rfl (Option (Nat × Storage Unit))
    (lfsArchiveCurrentFile scanConfig none _)) (fun _ f hf => by cases hf; decide)
  have hrun6 := History.append hrun5 (by decide : IsImage (shortRecord 4)) (by decide) (by decide)
    rfl (fun hne => absurd rfl hne)
  obtain ⟨rd', hscan⟩ := scan_visits_log hrun6.flushAll rfl (fun _ => by decide)
    (readerOk_connect (by decide : (replicate 16 (0 : UInt8)).length = scanConfig.readBufSize))
    (by decide : 3 < 4)
  exact ⟨_, _, _, rd', hrun6.flushAll, rfl, rfl, hscan⟩

/-- The second record is lost in a crash, for the header has not been written since, but
its bytes are in the file.  The file is left before they are overwritten: the scan
comes by the lost record. -/
theorem scan_visits_lost_record :
    ∃ (st : Storage Unit) (log : List (Nat × Bytes)) (rd rd' : Reader) (seen : List (Nat × Record)),
      History scanConfig Unit (fun _ => True) st log ∧
      log = [(4, shortRecord 1), (68, shortRecord 3)] ∧
      HeadWritten scanConfig st ∧ ReaderOk scanConfig st rd ∧
      scanAll scanConfig st 9 4 rd = some (rd', seen) ∧
      seen = [(4, shortRecord 1), (21, shortRecord 2), (68, shortRecord 3)].map asRecord ∧
      seen ≠ log.map asRecord := by
  have hrun0 := @History.created scanConfig Unit (fun _ => True) () (fun _ => 0) _ rfl
  have hrun1 := History.append hrun0 (by decide : IsImage (shortRecord 1)) (by decide) (by decide)
    rfl (fun _ => trivial)
  have hrun2 := History.append (hrun1.flushAll.writeHeader ())
    (by decide : IsImage (shortRecord 2)) (by decide) (by decide) rfl (fun _ => trivial)
  have hrun3 := History.crash hrun2.flushAll (crashLeaves_self fun f hf => by cases hf; decide)
    (@rfl (Option (Storage Unit)) (lfsInit _ 1 fun _ => 0))
  have hrun4 := History.archive hrun3 (@rfl (Option (Nat × Storage Unit))
    (lfsArchiveCurrentFile scanConfig none _)) (fun _ => trivial)
  have hrun5 := History.append hrun4 (by decide : IsImage (shortRecord 3)) (by decide) (by decide)
    rfl (fun _ => trivial)
  refine ⟨_, _, Reader.connect (replicate 16 0), _, _, hrun5.flushAll, rfl, fun _ => by decide,
    readerOk_connect (by decide), rfl, rfl, by decide⟩

end Storage

end Sedna.Log
