import Sedna.Log.Reopening

/-!
# Calls of the logical log

`LlInv` ties the state of the logical log to its history: the storage holds the records
that were inserted, the pointers that go into a header are LSNs of such records, and the
records of each transaction are linked from the newest to the oldest.
-/

namespace Sedna.Log

open Library.Bytes Storage List Function Option LlGlobalInfo

/-! ## Records -/

theorem Record.length_bytes (r : Record) : r.bytes.length = llGetRecordSize r := by
  simp [Record.bytes, encodeLsn, llGetRecordSize, recordHeadSize]
  omega

/-- What the source's types can hold: a 64-bit LSN and a length that is an `int`. -/
structure Record.Fits (r : Record) : Prop where
  prevLsn_lt : ∀ lsn, r.prevLsn = some lsn → lsn < lfsInvalidLsn
  size_lt : llGetRecordSize r < 2 ^ 31

variable {r : Record} {lsn : Nat} {recoveryActive : Bool} {recBuf : Bytes} {rtype : LlRecordType}

theorem Record.Fits.isImage (h : r.Fits) : IsImage r.bytes := by
  have hlt := h.size_lt
  refine ⟨?_, by rw [r.length_bytes]; exact hlt, ?_⟩
  · rw [r.length_bytes]
    exact Nat.le_add_right _ _
  · have hlen : r.body.length < 256 ^ 4 := by
      unfold llGetRecordSize at hlt
      omega
    have hfield : (r.bytes.drop 8).take 4 = le 4 r.body.length := by
      have hhd : (encodeLsn r.prevLsn).length = 8 := length_le 8 _
      rw [Record.bytes, append_assoc, append_assoc, drop_left' hhd, take_left' (length_le 4 _)]
    rw [recLen, hfield, ofLe_le_of_lt hlen, r.length_bytes, llGetRecordSize,
      Nat.add_sub_cancel_left]

theorem decodeLsn_encodeLsn {lsn : Option Nat} (h : ∀ l, lsn = some l → l < lfsInvalidLsn) :
    decodeLsn (encodeLsn lsn) = lsn := by
  have hinvalid : lfsInvalidLsn < 256 ^ 8 := by decide
  cases lsn with
  | none => rw [encodeLsn, decodeLsn, getD_none, ofLe_le_of_lt hinvalid, if_pos rfl]
  | some l =>
    have hl := h l rfl
    rw [encodeLsn, decodeLsn, getD_some, ofLe_le_of_lt (by omega), if_neg (ne_of_lt hl)]

theorem Record.Fits.ofBytes_bytes (h : r.Fits) : Record.ofBytes r.bytes = r := by
  have hlsn : (encodeLsn r.prevLsn).length = 8 := length_le 8 _
  have htake : r.bytes.take 8 = encodeLsn r.prevLsn := by
    rw [Record.bytes, append_assoc, append_assoc, take_left' hlsn]
  have hdrop : r.bytes.drop recordHeadSize = r.body := drop_left' (by simp [hlsn, recordHeadSize])
  rw [Record.ofBytes, htake, hdrop, decodeLsn_encodeLsn h.prevLsn_lt]

/-! ## Histories -/

def inserted : List LlEvent → List (Nat × Record)
  | [] => []
  | .insert _ lsn r :: history => (lsn, r) :: inserted history
  | .transBegin _ :: history => inserted history
  | .transEnd _ :: history => inserted history

/-- The records that the current transaction of a slot has inserted, the latest first. -/
def ownRecords (trid : Trid) : List LlEvent → List (Nat × Record)
  | [] => []
  | .insert rtype lsn r :: history =>
    if rtype = .trRecord trid then (lsn, r) :: ownRecords trid history
    else ownRecords trid history
  | .transBegin t :: history => if t = trid then [] else ownRecords trid history
  | .transEnd t :: history => if t = trid then [] else ownRecords trid history

theorem ownRecords_sublist (trid : Trid) (history : List LlEvent) :
    (ownRecords trid history).Sublist (inserted history) := by
  induction history with
  | nil => exact List.Sublist.refl _
  | cons event history ih =>
    cases event with
    | insert rtype lsn r =>
      rw [ownRecords]
      split
      · exact ih.cons_cons _
      · exact ih.cons _
    | transBegin t | transEnd t =>
      rw [ownRecords]
      split
      · exact nil_sublist _
      · exact ih

inductive Links : Option Nat → List (Nat × Record) → Prop
  | nil : Links none []
  | cons {lsn : Nat} {r : Record} {rest : List (Nat × Record)} (hrest : Links r.prevLsn rest) :
      Links (some lsn) ((lsn, r) :: rest)

/-! ## The invariant -/

def LlFileHead.lsns (head : LlFileHead) : List Nat :=
  head.checkpointLsn.toList ++ head.lastChainLsn.toList ++ head.hbLsn.toList

def image (x : Nat × Record) : Nat × Bytes := (x.1, x.2.bytes)

structure LlInv (cfg : Config) (s : LlState) (rd : Reader) (recs : Nat → List Bytes) : Prop where
  safe : Safe cfg LlFileHead.lsns s.storage recs
  tight : Tight cfg s.storage recs
  reader : ReaderOk cfg s.storage rd
  log_eq : s.storage.log cfg recs = ((inserted s.history).map image).reverse
  fits : ∀ x ∈ inserted s.history, x.2.Fits
  chain : ∀ c, s.info.lastChainLsn = some c → ∃ r, (c, r) ∈ inserted s.history
  checkpoint : ∀ c, s.info.checkpointLsn = some c →
    (∃ r, (c, r) ∈ inserted s.history) ∧ ∀ l, s.info.lastChainLsn = some l → c ≤ l
  links : ∀ trid, Links (s.info.llTransInfoTable trid).lastLsn (ownRecords trid s.history)
  last : ∀ trid lsn, (s.info.llTransInfoTable trid).lastLsn = some lsn → lsn < lfsInvalidLsn ∧
    ∃ r, (lsn, r) ∈ inserted s.history ∧ (s.info.llTransInfoTable trid).lastLen = llGetRecordSize r

section

variable {cfg : Config} {s s' : LlState} {rd rd' : Reader} {recs recs' : Nat → List Bytes}
  {st' : Storage LlFileHead}

section

variable (h : LlInv cfg s rd recs)
include h

theorem LlInv.mem_log {x : Nat × Record} (hx : x ∈ inserted s.history) :
    image x ∈ s.storage.log cfg recs := by
  rw [h.log_eq, mem_reverse]
  exact mem_map_of_mem hx

theorem LlInv.steps (hsteps : LogSteps cfg s.storage recs [] st' recs') :
    LlInv cfg { s with storage := st' } rd recs' := by
  obtain ⟨-, htight, hreader, -⟩ := hsteps.round_trip h.safe.stores h.tight h.reader
  have hlog := hsteps.log_eq h.safe.stores
  rw [append_nil, h.log_eq] at hlog
  exact { h with safe := hsteps.safe h.safe, tight := htight, reader := hreader, log_eq := hlog }

theorem LlInv.headed (hh : Headed s.storage st')
    (hptr : ∀ header user, (st'.disk s.storage.info.lastFileNum).bind LogFile.header =
      some (header, user) → ∀ lsn ∈ user.lsns, OnDisk cfg s.storage recs lsn) :
    LlInv cfg { s with storage := st' } rd recs :=
  { h with
    safe := hh.safe h.safe hptr
    tight := hh.tight h.tight
    reader := hh.readerOk h.reader
    log_eq := hh.log_eq.trans h.log_eq }

/-! ## Inserting -/

theorem LlInv.fits_new (rtype : LlRecordType) (hbuf : recordHeadSize + recBuf.length ≤ cfg.bufSize)
    : Record.Fits { prevLsn := s.info.prevLsn rtype, body := recBuf } := by
  refine ⟨fun lsn hlsn => ?_, lt_of_le_of_lt hbuf cfg.buf_lt⟩
  cases rtype with
  | trRecord trid => exact (h.last trid lsn hlsn).1
  | physRecord | genRecord => exact absurd hlsn (by simp [prevLsn])

theorem LlInv.links_insert (rtype : LlRecordType) (lsn : Nat) (recBuf : Bytes) (trid : Trid) :
    Links ((s.info.link rtype lsn recBuf.length).llTransInfoTable trid).lastLsn
      (ownRecords trid
        (.insert rtype lsn { prevLsn := s.info.prevLsn rtype, body := recBuf } :: s.history)) := by
  rw [ownRecords]
  by_cases htr : rtype = .trRecord trid
  · subst htr
    simp only [link, update_self, LlTransInfo.appended]
    exact .cons (h.links trid)
  · rw [if_neg htr]
    have hsame : (s.info.link rtype lsn recBuf.length).llTransInfoTable trid =
        s.info.llTransInfoTable trid := by
      cases rtype with
      | trRecord t => exact update_of_ne (fun heq => htr (by rw [heq])) _ _
      | physRecord => rfl
      | genRecord => rfl
    rw [hsame]
    exact h.links trid

theorem llInsertRecord_inv (hbuf : recordHeadSize + recBuf.length ≤ cfg.bufSize)
    (hchunk : cfg.sectorSize + (recordHeadSize + recBuf.length) ≤ cfg.chunkSize)
    (hcall : llInsertRecord cfg rtype recBuf s = some (lsn, s'))
    (hlsn : ∀ trid, rtype = .trRecord trid → lsn < lfsInvalidLsn) :
    (∃ recs', LlInv cfg s' rd recs') ∧ (∃ r, (lsn, r) ∈ inserted s'.history) ∧
      s'.info = s.info.link rtype lsn recBuf.length := by
  have hfits := h.fits_new rtype hbuf
  have hlinks := h.links_insert rtype lsn recBuf
  unfold llInsertRecord at hcall
  generalize hr : ({ prevLsn := s.info.prevLsn rtype, body := recBuf } : Record) = r
    at hcall hfits hlinks
  have hsize : llGetRecordSize r = recordHeadSize + recBuf.length := by
    rw [← hr]
    rfl
  have hne : r.bytes ≠ [] := by
    rw [← length_pos_iff, r.length_bytes]
    exact llGetRecordSize_pos r
  obtain ⟨lsn', st', recs', happend, hsteps⟩ := lfsAppendRecord_steps h.safe.stores hne
    (by rw [r.length_bytes, hsize]; exact hbuf) (by rw [r.length_bytes, hsize]; exact hchunk)
  simp only [happend, some.injEq, Prod.mk.injEq] at hcall
  obtain ⟨rfl, rfl⟩ := hcall
  obtain ⟨-, htight, hreader, -⟩ := hsteps.round_trip h.safe.stores h.tight h.reader
  have hlog := hsteps.log_eq h.safe.stores
  have hnew : ∀ x ∈ inserted s.history, x.1 < lsn' := by
    intro x hx
    have hinc := (hsteps.stores h.safe.stores).increasing_log
    rw [hlog, pairwise_append] at hinc
    exact hinc.2.2 _ (h.mem_log hx) (lsn', r.bytes) (mem_singleton_self _)
  refine ⟨⟨recs', ?_⟩, ⟨r, mem_cons_self⟩, rfl⟩
  refine
    { safe := hsteps.safe h.safe, tight := htight, reader := hreader, log_eq := ?_, fits := ?_,
      chain := ?_, checkpoint := ?_, links := hlinks, last := ?_ }
  · rw [hlog, h.log_eq, inserted, map_cons, reverse_cons]
    rfl
  · exact forall_mem_cons.2 ⟨hfits, h.fits⟩
  · intro c hc
    cases rtype with
    | trRecord trid | genRecord =>
      obtain ⟨q, hq⟩ := h.chain c hc
      exact ⟨q, mem_cons_of_mem _ hq⟩
    | physRecord =>
      obtain rfl : lsn' = c := some.inj hc
      exact ⟨r, mem_cons_self⟩
  · intro c hc
    have hold : s.info.checkpointLsn = some c := by
      cases rtype <;> exact hc
    obtain ⟨⟨q, hq⟩, hle⟩ := h.checkpoint c hold
    refine ⟨⟨q, mem_cons_of_mem _ hq⟩, fun l hl => ?_⟩
    cases rtype with
    | trRecord trid => exact hle l hl
    | physRecord =>
      obtain rfl : lsn' = l := some.inj hl
      exact le_of_lt (hnew _ hq)
    | genRecord => exact hle l hl
  · intro trid l hl
    have hold : (s.info.llTransInfoTable trid).lastLsn = some l →
        l < lfsInvalidLsn ∧ ∃ q, (l, q) ∈ inserted (.insert rtype lsn' r :: s.history) ∧
          (s.info.llTransInfoTable trid).lastLen = llGetRecordSize q := by
      intro hl
      obtain ⟨hlt, q, hq, hlen⟩ := h.last trid l hl
      exact ⟨hlt, q, mem_cons_of_mem _ hq, hlen⟩
    cases rtype with
    | trRecord t =>
      by_cases ht : trid = t
      · subst ht
        simp only [link, update_self, LlTransInfo.appended, some.injEq] at hl ⊢
        subst hl
        exact ⟨hlsn trid rfl, r, mem_cons_self, by rw [hsize, add_comm]⟩
      · simp only [link, update_of_ne ht] at hl ⊢
        exact hold hl
    | physRecord => exact hold hl
    | genRecord => exact hold hl

end

theorem copyFields_length {maxLen : Nat} {rec rec' : Bytes} {fields : List Bytes}
    (hle : rec.length ≤ maxLen) (h : copyFields maxLen rec fields = some rec') :
    rec'.length ≤ maxLen := by
  induction fields generalizing rec with
  | nil => exact some.inj h ▸ hle
  | cons field fields ih =>
    rw [copyFields] at h
    split at h
    · cases h
    · exact ih (by rw [length_append]; omega) h

theorem llLogGeneral_insert {op : LlOperations} {fields : List Bytes}
    (hmax : 5 ≤ llGetMaxRecordSize cfg)
    (h : llLogGeneral cfg rtype op false fields s = some (lsn, s')) :
    ∃ rec, rec.length ≤ llGetMaxRecordSize cfg ∧
      llInsertRecord cfg rtype rec s = some (lsn, s') := by
  unfold llLogGeneral at h
  simp only at h
  split at h
  · cases h
  next rec hrec =>
    split at h
    · cases h
    next recLsn s1 hins =>
      obtain ⟨rfl, rfl⟩ := h
      refine ⟨rec, copyFields_length ?_ hrec, hins⟩
      cases rtype <;> simp <;> omega

end

/-! ## Flushing -/

/-- The sizes of a logical log.  The write buffer has one megabyte, and `llCreateNew` takes
files that a full buffer fits into. -/
structure LlConfig extends Config where
  writebuf_ge : 64 ≤ bufSize
  chunk_ge : sectorSize + bufSize ≤ chunkSize

section

variable {cfg : LlConfig} {s s' : LlState} {rd : Reader} {recs : Nat → List Bytes}

theorem LlConfig.max_ge (cfg : LlConfig) : 5 ≤ llGetMaxRecordSize cfg.toConfig := by
  have hbuf := cfg.writebuf_ge
  unfold llGetMaxRecordSize recordHeadSize
  omega

section

variable (h : LlInv cfg.toConfig s rd recs)
include h

theorem LlConfig.insert_inv (hlen : recBuf.length ≤ llGetMaxRecordSize cfg.toConfig)
    (hcall : llInsertRecord cfg.toConfig rtype recBuf s = some (lsn, s'))
    (hlsn : ∀ trid, rtype = .trRecord trid → lsn < lfsInvalidLsn) :
    (∃ recs', LlInv cfg.toConfig s' rd recs') ∧ (∃ r, (lsn, r) ∈ inserted s'.history) ∧
      s'.info = s.info.link rtype lsn recBuf.length := by
  have hbuf := cfg.writebuf_ge
  have hchunk := cfg.chunk_ge
  unfold llGetMaxRecordSize recordHeadSize at hlen
  exact llInsertRecord_inv h (by unfold recordHeadSize; omega) (by unfold recordHeadSize; omega)
    hcall hlsn

structure PointersOnDisk (cfg : Config) (s : LlState) (recs : Nat → List Bytes) : Prop where
  chain : ∀ c, s.info.lastChainLsn = some c → OnDisk cfg s.storage recs c
  checkpoint : ∀ c, s.info.checkpointLsn = some c → OnDisk cfg s.storage recs c

theorem LlInv.onDisk (hkeep : s.storage.info.bufKeepBytes = 0) (hr : (lsn, r) ∈ inserted s.history)
    : OnDisk cfg.toConfig s.storage recs lsn := by
  have hend := h.safe.stores.end_le_high (h.mem_log hr)
  unfold lfsGetHighLSNBoundary at hend
  exact ⟨r.bytes, h.mem_log hr, by simp only [image] at hend; omega⟩

theorem LlInv.pointersOnDisk (hkeep : s.storage.info.bufKeepBytes = 0) :
    PointersOnDisk cfg.toConfig s recs := by
  refine ⟨fun c hc => ?_, fun c hc => ?_⟩
  · obtain ⟨r, hr⟩ := h.chain c hc
    exact h.onDisk hkeep hr
  · obtain ⟨⟨r, hr⟩, -⟩ := h.checkpoint c hc
    exact h.onDisk hkeep hr

theorem LlInv.flushAll :
    LlInv cfg.toConfig { s with storage := lfsFlushAll cfg.toConfig s.storage } rd recs ∧
      (lfsFlushAll cfg.toConfig s.storage).info.bufKeepBytes = 0 :=
  ⟨h.steps (lfsFlushAll_steps h.safe.stores), (flushAll_info h.safe.stores).1⟩

theorem flushHotBackup_inv (hptr : PointersOnDisk cfg.toConfig s recs)
    {fileHead fileHead' : LlFileHead} (hhd : s.storage.lfsGetHeader = some fileHead)
    (hcall : flushHotBackup cfg.toConfig recoveryActive fileHead s = some (fileHead', s')) :
    ∃ recs', LlInv cfg.toConfig s' rd recs' ∧ PointersOnDisk cfg.toConfig s' recs' ∧
      ∀ lsn, fileHead'.hbLsn = some lsn → OnDisk cfg.toConfig s'.storage recs' lsn := by
  unfold flushHotBackup at hcall
  split at hcall
  · split at hcall
    · cases hcall
    next lsn s1 hlog =>
      obtain ⟨rfl, rfl⟩ := hcall
      obtain ⟨rec, hlen, hins⟩ := llLogGeneral_insert cfg.max_ge hlog
      obtain ⟨⟨recs', h1⟩, ⟨r, hr⟩, -⟩ :=
        LlConfig.insert_inv h hlen hins (fun trid htr => absurd htr (by simp))
      obtain ⟨h2, hkeep⟩ := h1.flushAll
      refine ⟨recs', h2, h2.pointersOnDisk hkeep, fun l hl => ?_⟩
      obtain rfl : lsn = l := some.inj hl
      exact h2.onDisk hkeep hr
  · obtain ⟨rfl, rfl⟩ := hcall
    refine ⟨recs, h, hptr, fun lsn hlsn => ?_⟩
    rw [lfsGetHeader, map_eq_some_iff] at hhd
    obtain ⟨⟨header, user⟩, hbind, rfl⟩ := hhd
    exact h.safe.header_onDisk hbind lsn (mem_append_right _ (mem_toList.2 hlsn))

theorem llFlushHeader_inv (hptr : PointersOnDisk cfg.toConfig s recs)
    (hcall : llFlushHeader cfg.toConfig recoveryActive s = some s') :
    ∃ recs', LlInv cfg.toConfig s' rd recs' := by
  unfold llFlushHeader at hcall
  split at hcall
  · cases hcall
  next fileHead hhd =>
    split at hcall
    · cases hcall
    next fileHead' s1 hbackup =>
      obtain ⟨recs', h1, hptr1, hhb⟩ := flushHotBackup_inv h hptr hhd hbackup
      simp only [some.injEq] at hcall
      subst hcall
      refine ⟨recs', h1.headed (lfsWriteHeader_headed _) fun header user hbind lsn hlsn => ?_⟩
      obtain ⟨f, hf, -⟩ := h1.safe.stores.lastFile
      simp only [lfsWriteHeader, put, DiskWrite.apply, update_self, hf,
        map_some, bind_some, some.injEq] at hbind
      obtain ⟨-, rfl⟩ := hbind
      simp only [LlFileHead.lsns, mem_append, mem_toList] at hlsn
      rcases hlsn with (hlsn | hlsn) | hlsn
      · exact hptr1.checkpoint lsn hlsn
      · exact hptr1.chain lsn hlsn
      · exact hhb lsn hlsn

theorem llFlushAll_inv (hcall : llFlushAll cfg.toConfig recoveryActive s = some s') :
    ∃ recs', LlInv cfg.toConfig s' rd recs' := by
  obtain ⟨h1, hkeep⟩ := h.flushAll
  exact llFlushHeader_inv h1 (h1.pointersOnDisk hkeep) hcall

theorem LlInv.flush_onDisk {end' : Nat} {x : Record} {l : Nat} (hl : (l, x) ∈ inserted s.history)
    (hend : end' = l + llGetRecordSize x) (hr : (lsn, r) ∈ inserted s.history) (hlt : lsn < end') :
    OnDisk cfg.toConfig (lfsFlush cfg.toConfig end' s.storage) recs lsn := by
  have hst := h.safe.stores
  have hle := hst.end_le_of_lt (h.mem_log hr) (h.mem_log hl)
    (by simp only [image, Record.length_bytes]; omega)
  have hhigh := hst.end_le_high (h.mem_log hr)
  have hfl := flushBufLsn_flushed hst end'
  have hbd : Boundary cfg.toConfig s.storage recs end' := hst.boundary_of_mem
    ⟨image (l, x), h.mem_log hl, .inr (by simp only [image, Record.length_bytes]; exact hend)⟩
  have hlog := (lfsFlush_steps hst hbd).log_eq hst
  rw [append_nil] at hlog
  refine ⟨r.bytes, by rw [hlog]; exact h.mem_log hr, ?_⟩
  have hnext : (lfsFlush cfg.toConfig end' s.storage).info.nextLsn =
      s.storage.info.nextLsn + s.storage.toFlush end' := by
    rw [lfsFlush, hfl.info]
  rw [hnext]
  unfold toFlush
  unfold lfsGetHighLSNBoundary at hhigh
  simp only [image, Record.length_bytes] at hle hhigh ⊢
  omega

theorem llFlushLsn_inv {l : Nat} {x : Record} (hl : (l, x) ∈ inserted s.history)
    (hend : lsn = l + llGetRecordSize x)
    (hcall : llFlushLsn cfg.toConfig recoveryActive (some lsn) s = some s') :
    ∃ recs', LlInv cfg.toConfig s' rd recs' := by
  unfold llFlushLsn at hcall
  simp only at hcall
  split at hcall
  · exact llFlushAll_inv h hcall
  next hchn =>
    obtain ⟨c, hc, hlt⟩ : ∃ c, s.info.lastChainLsn = some c ∧ c < lsn := by
      cases hcase : s.info.lastChainLsn with
      | none => simp [hcase] at hchn
      | some c => exact ⟨c, rfl, by simpa [hcase] using hchn⟩
    have hbd : Boundary cfg.toConfig s.storage recs lsn := h.safe.stores.boundary_of_mem
      ⟨image (l, x), h.mem_log hl, .inr (by simp only [image, Record.length_bytes]; exact hend)⟩
    have h1 := h.steps (lfsFlush_steps h.safe.stores hbd)
    refine llFlushHeader_inv h1 ⟨fun c' hc' => ?_, fun c' hc' => ?_⟩ hcall
    · obtain rfl : c = c' := some.inj (hc.symm.trans hc')
      obtain ⟨r, hr⟩ := h.chain c hc
      exact h.flush_onDisk hl hend hr hlt
    · -- the checkpoint stands before the head of the chain
      obtain ⟨⟨r, hr⟩, hle⟩ := h.checkpoint c' hc'
      exact h.flush_onDisk hl hend hr (lt_of_le_of_lt (hle c hc) hlt)

theorem llFlushTransRecs_inv {trid : Trid}
    (hcall : llFlushTransRecs cfg.toConfig recoveryActive trid s = some s') :
    ∃ recs', LlInv cfg.toConfig s' rd recs' := by
  unfold llFlushTransRecs at hcall
  split at hcall
  · exact some.inj hcall ▸ ⟨recs, h⟩
  next lsn hlsn =>
    obtain ⟨-, r, hr, hlen⟩ := h.last trid lsn hlsn
    exact llFlushLsn_inv h hr (by rw [hlen]) hcall

end

end

/-! ## Transactions and checkpoints -/

section

variable {cfg : LlConfig} {s s' : LlState} {rd : Reader} {recs : Nat → List Bytes}

theorem LlInv.resetSlot (h : LlInv cfg.toConfig s rd recs) (trid : Trid) {event : LlEvent}
    (hevent : event = .transBegin trid ∨ event = .transEnd trid) :
    LlInv cfg.toConfig (s.resetSlot trid event) rd recs := by
  have hins : inserted (s.resetSlot trid event).history = inserted s.history := by
    rcases hevent with rfl | rfl <;> rfl
  have hown : ∀ t, ownRecords t (s.resetSlot trid event).history =
      if trid = t then [] else ownRecords t s.history := by
    intro t
    rcases hevent with rfl | rfl <;> rfl
  refine
    { safe := h.safe, tight := h.tight, reader := h.reader,
      log_eq := by rw [hins]; exact h.log_eq,
      fits := by rw [hins]; exact h.fits, chain := by rw [hins]; exact h.chain,
      checkpoint := by rw [hins]; exact h.checkpoint, links := fun t => ?_,
      last := fun t lsn hlsn => ?_ }
  · rw [hown]
    by_cases ht : trid = t
    · subst ht
      simp only [LlState.resetSlot, update_self]
      exact .nil
    · rw [if_neg ht]
      simp only [LlState.resetSlot, update_of_ne (Ne.symm ht)]
      exact h.links t
  · rw [hins]
    by_cases ht : trid = t
    · subst ht
      simp only [LlState.resetSlot, update_self] at hlsn
      exact absurd hlsn (by simp [LlTransInfo.unused])
    · simp only [LlState.resetSlot, update_of_ne (Ne.symm ht)] at hlsn ⊢
      exact h.last t lsn hlsn

theorem llLogCheckpoint_inv (h : LlInv cfg.toConfig s rd recs) {isFirstRec : Bool}
    {persSnapshotTs count isGarbage : Nat} {buf mb : Bytes}
    (hcall : llLogCheckpoint cfg.toConfig isFirstRec persSnapshotTs buf count isGarbage mb s =
      some s') : ∃ recs', LlInv cfg.toConfig s' rd recs' := by
  unfold llLogCheckpoint at hcall
  split at hcall
  · simp only at hcall
    split at hcall
    · cases hcall
    next retLsn s1 hlog =>
      simp only [some.injEq] at hcall
      subst hcall
      -- the chain is empty for a moment
      have h0 : LlInv cfg.toConfig { s with info := s.info.beginChain persSnapshotTs } rd recs :=
        { h with
          chain := fun c hc => absurd hc (by simp [beginChain])
          checkpoint := fun c hc => ⟨(h.checkpoint c hc).1, fun l hl =>
            absurd hl (by simp [beginChain])⟩ }
      obtain ⟨rec, hlen, hins⟩ := llLogGeneral_insert cfg.max_ge hlog
      obtain ⟨⟨recs', h1⟩, ⟨r, hr⟩, hinfo⟩ :=
        LlConfig.insert_inv h0 hlen hins (fun trid htr => absurd htr (by simp))
      refine ⟨recs', { h1 with checkpoint := fun c hc => ?_ }⟩
      obtain rfl : retLsn = c := some.inj hc
      refine ⟨⟨r, hr⟩, fun l hl => ?_⟩
      rw [hinfo] at hl
      exact le_of_eq (some.inj hl)
  · split at hcall
    · cases hcall
    next retLsn s1 hlog =>
      obtain rfl : s1 = s' := some.inj hcall
      obtain ⟨rec, hlen, hins⟩ := llLogGeneral_insert cfg.max_ge hlog
      exact (LlConfig.insert_inv h hlen hins (fun trid htr => absurd htr (by simp))).1

end

/-! ## Runs -/

/-- A state that calls of the logical log lead to, with the read buffer of one process.  A
flush is asked for up to the end of a record, as `llLogGeneral` returns it, and the
flags that say how a header is written may be anything. -/
inductive LlRun (cfg : LlConfig) : LlState → Reader → Prop
  | created {buffer : Nat → UInt8} {memory : Bytes} {s : LlState}
      (hinit : llInit cfg.toConfig (llCreateNew cfg.toConfig) 1 buffer = some s)
      (hmemory : memory.length = cfg.readBufSize) : LlRun cfg s (Reader.connect memory)
  | insert {s s' : LlState} {rd : Reader} {rtype : LlRecordType} {recBuf : Bytes} {lsn : Nat}
      (hrun : LlRun cfg s rd) (hlen : recBuf.length ≤ llGetMaxRecordSize cfg.toConfig)
      (hcall : llInsertRecord cfg.toConfig rtype recBuf s = some (lsn, s'))
      (hlsn : lsn < lfsInvalidLsn) : LlRun cfg s' rd
  | flushLsn {s s' : LlState} {rd : Reader} {recoveryActive : Bool} {lsn : Option Nat}
      (hrun : LlRun cfg s rd)
      (hlsn : ∀ l, lsn = some l → ∃ x ∈ inserted s.history, l = x.1 + llGetRecordSize x.2)
      (hcall : llFlushLsn cfg.toConfig recoveryActive lsn s = some s') : LlRun cfg s' rd
  | flushTransRecs {s s' : LlState} {rd : Reader} {recoveryActive : Bool} {trid : Trid}
      (hrun : LlRun cfg s rd)
      (hcall : llFlushTransRecs cfg.toConfig recoveryActive trid s = some s') : LlRun cfg s' rd
  | flushAll {s s' : LlState} {rd : Reader} {recoveryActive : Bool} (hrun : LlRun cfg s rd)
      (hcall : llFlushAll cfg.toConfig recoveryActive s = some s') : LlRun cfg s' rd
  | transBegin {s : LlState} {rd : Reader} (trid : Trid) (hrun : LlRun cfg s rd) :
      LlRun cfg (llOnTransBegin trid s) rd
  | transEnd {s : LlState} {rd : Reader} (trid : Trid) (hrun : LlRun cfg s rd) :
      LlRun cfg (llOnTransEnd trid s) rd
  | checkpoint {s s' : LlState} {rd : Reader} {isFirstRec : Bool}
      {persSnapshotTs count isGarbage : Nat} {buf mb : Bytes} (hrun : LlRun cfg s rd)
      (hcall : llLogCheckpoint cfg.toConfig isFirstRec persSnapshotTs buf count isGarbage mb s =
        some s') : LlRun cfg s' rd
  | flags {s : LlState} {rd : Reader} (checkpointOn hotbackupNeeded : Bool) (nextArchFile : Nat)
      (hrun : LlRun cfg s rd) :
      LlRun cfg { s with info := { s.info with checkpointOn, hotbackupNeeded, nextArchFile } } rd
  | connect {s : LlState} {rd : Reader} {memory : Bytes} (hrun : LlRun cfg s rd)
      (hmemory : memory.length = cfg.readBufSize) : LlRun cfg s (Reader.connect memory)
  | read {s : LlState} {rd rd' : Reader} {x : Nat × Record} {answer : Option (Nat × Record)}
      (hrun : LlRun cfg s rd) (hx : x ∈ inserted s.history)
      (hcall : llGetRecordFromDisc cfg.toConfig s.storage rd x.1 = some (answer, rd')) :
      LlRun cfg s rd'

section

variable {cfg : LlConfig} {s : LlState} {rd : Reader} {recs : Nat → List Bytes}

theorem LlInv.reads (h : LlInv cfg.toConfig s rd recs) {x : Nat × Record}
    (hx : x ∈ inserted s.history) :
    Reads (llGetRecordFromDisc cfg.toConfig s.storage) (ReaderOk cfg.toConfig s.storage) x.1
      (some x) := by
  have hfits := h.fits x hx
  have hreads := h.safe.stores.reads (h.mem_log hx) hfits.isImage
  rw [hfits.ofBytes_bytes] at hreads
  exact hreads

theorem llInit_created {buffer : Nat → UInt8}
    (hinit : llInit cfg.toConfig (llCreateNew cfg.toConfig) 1 buffer = some s) {memory : Bytes}
    (hmemory : memory.length = cfg.readBufSize) :
    LlInv cfg.toConfig s (Reader.connect memory) fun _ => [] := by
  unfold llInit at hinit
  split at hinit
  · cases hinit
  next st hst =>
    split at hinit
    · cases hinit
    next fileHead hhd =>
      obtain ⟨hsafe, hlog⟩ := @safe_created _ _ LlFileHead.lsns _ (by rfl) _ _ hst
      obtain ⟨-, htight, -⟩ := stores_created hst
      -- the header that has just been read
      obtain rfl : fileHead = ⟨none, none, 0x10000, 0, none⟩ := by
        simp only [lfsInit, llCreateNew, lfsCreateNew, update_self, bind_some, some.injEq] at hst
        subst hst
        simpa [lfsGetHeader] using hhd.symm
      have hheaded : Headed st (lfsWriteHeader cfg.toConfig ⟨none, none, 0x10000, 0, none⟩ st) :=
        lfsWriteHeader_headed _
      rw [some.injEq] at hinit
      subst hinit
      refine
        { safe := hheaded.safe hsafe fun header user hbind lsn hlsn => ?_
          tight := hheaded.tight htight, reader := readerOk_connect hmemory
          log_eq := hheaded.log_eq.trans hlog, fits := fun x hx => absurd hx not_mem_nil
          chain := fun c hc => absurd hc (by simp)
          checkpoint := fun c hc => absurd hc (by simp), links := fun _ => .nil
          last := fun trid lsn hlsn => absurd hlsn (by simp [LlTransInfo.unused]) }
      obtain ⟨f, hf, -⟩ := hsafe.stores.lastFile
      simp only [lfsWriteHeader, put, DiskWrite.apply, update_self, hf,
        map_some, bind_some, some.injEq] at hbind
      obtain ⟨-, rfl⟩ := hbind
      exact absurd hlsn (by simp [LlFileHead.lsns])

theorem llRun_inv (hrun : LlRun cfg s rd) : ∃ recs, LlInv cfg.toConfig s rd recs := by
  induction hrun with
  | created hinit hmemory => exact ⟨_, llInit_created hinit hmemory⟩
  | insert _ hlen hcall hlsn ih =>
    obtain ⟨recs, h⟩ := ih
    exact (LlConfig.insert_inv h hlen hcall fun _ _ => hlsn).1
  | @flushLsn s s' rd recoveryActive lsn hrun hlsn hcall ih =>
    obtain ⟨recs, h⟩ := ih
    cases lsn with
    | none => exact some.inj hcall ▸ ⟨recs, h⟩
    | some l =>
      obtain ⟨x, hx, hl⟩ := hlsn l rfl
      exact llFlushLsn_inv h hx hl hcall
  | flushTransRecs _ hcall ih =>
    obtain ⟨recs, h⟩ := ih
    exact llFlushTransRecs_inv h hcall
  | flushAll _ hcall ih =>
    obtain ⟨recs, h⟩ := ih
    exact llFlushAll_inv h hcall
  | transBegin trid _ ih =>
    obtain ⟨recs, h⟩ := ih
    exact ⟨recs, h.resetSlot trid (.inl rfl)⟩
  | transEnd trid _ ih =>
    obtain ⟨recs, h⟩ := ih
    exact ⟨recs, h.resetSlot trid (.inr rfl)⟩
  | checkpoint _ hcall ih =>
    obtain ⟨recs, h⟩ := ih
    exact llLogCheckpoint_inv h hcall
  | flags checkpointOn hotbackupNeeded nextArchFile _ ih =>
    obtain ⟨recs, h⟩ := ih
    exact ⟨recs, { h with }⟩
  | connect _ hmemory ih =>
    obtain ⟨recs, h⟩ := ih
    exact ⟨recs, { h with reader := readerOk_connect hmemory }⟩
  | read _ hx hcall ih =>
    obtain ⟨recs, h⟩ := ih
    obtain ⟨rd'', hget, hrd''⟩ := h.reads hx _ h.reader
    rw [hcall, some.injEq, Prod.mk.injEq] at hget
    exact ⟨recs, { h with reader := hget.2 ▸ hrd'' }⟩

/-- At any time each record inserted so far is read back as it was inserted. -/
theorem inserted_record_read (hrun : LlRun cfg s rd) {x : Nat × Record}
    (hx : x ∈ inserted s.history) : ∃ rd', LlRun cfg s rd' ∧
      llGetRecordFromDisc cfg.toConfig s.storage rd x.1 = some (some x, rd') := by
  obtain ⟨recs, h⟩ := llRun_inv hrun
  obtain ⟨rd', hget, -⟩ := h.reads hx rd h.reader
  exact ⟨rd', hrun.read hx hget, hget⟩

end

def shortLogConfig : LlConfig :=
  { sectorSize := 4, chunkSize := 128, bufSize := 64, readBufSize := 16,
    sector_pos := scanConfig.sector_pos, sector_le := by decide, buf_pos := scanConfig.buf_pos,
    buf_lt := scanConfig.buf_lt, writebuf_ge := by decide, chunk_ge := by decide }

theorem inserted_record_read_short : ∃ s rd rd', LlRun shortLogConfig s rd' ∧
    llGetRecordFromDisc shortLogConfig.toConfig s.storage rd 4 =
      some (some (4, ⟨none, [LlOperations.llDecrease.code]⟩), rd') := by
  have hrun := @LlRun.insert shortLogConfig _ _ _ .physRecord [LlOperations.llDecrease.code] _
    (@LlRun.created shortLogConfig (fun _ => 0) (replicate 16 0) _ rfl rfl) (by decide)
    rfl (by decide)
  exact ⟨_, _, inserted_record_read hrun mem_cons_self⟩

/-! ## The header never runs ahead of the log -/

section

variable {cfg : LlConfig} {s : LlState} {rd : Reader}

/-- A header that is true points to records that were inserted, and a process that opens
the log after a crash reads them. -/
theorem LlInv.read_after_crash {recs recs' : Nat → List Bytes} (h : LlInv cfg.toConfig s rd recs)
    {first n w : Nat} {disk : Disk LlFileHead}
    (hdisk : DiskOk cfg.toConfig LlFileHead.lsns recs' first n w disk)
    (hsub : logUpTo cfg.toConfig recs' first n (recs' n) ⊆ s.storage.log cfg.toConfig recs)
    {f : LogFile LlFileHead} {header : LfsHeader} {head : LlFileHead} {done : List Bytes}
    (hh : HeaderOk cfg.toConfig LlFileHead.lsns recs' first n w disk f header head done) {lsn : Nat}
    (hlsn : lsn ∈ head.lsns) :
    ∃ r, (lsn, r) ∈ inserted s.history ∧ lsn + llGetRecordSize r ≤ header.nextLsn ∧
      ∀ (buffer : Nat → UInt8) (memory : Bytes), memory.length = cfg.readBufSize →
        ∃ st' rd', lfsInit disk n buffer = some st' ∧
          llGetRecordFromDisc cfg.toConfig st' (Reader.connect memory) lsn =
            some (some (lsn, r), rd') := by
  obtain ⟨b, hb⟩ := hh.pointers lsn hlsn
  have hmem := hsub (mem_logUpTo_mono hh.done_le hb)
  rw [h.log_eq, mem_reverse, List.mem_map] at hmem
  obtain ⟨⟨l, r⟩, hr, himage⟩ := hmem
  obtain ⟨rfl, rfl⟩ : l = lsn ∧ r.bytes = b := Prod.mk.inj himage
  have hfits := h.fits (l, r) hr
  refine ⟨r, hr, ?_, fun buffer memory hmemory => ?_⟩
  · -- the log that is opened ends at the LSN of the header
    obtain ⟨st', -, -, hinfo, hsafe, hlog⟩ := hdisk.opens hh fun _ => 0
    have hend := hsafe.stores.end_le_high (hlog ▸ hb)
    rw [lfsGetHighLSNBoundary, hinfo, r.length_bytes] at hend
    exact hend
  · obtain ⟨st', hinit, -, -, hsafe, hlog⟩ := hdisk.opens hh buffer
    have hreads := hsafe.stores.reads (hlog ▸ hb) hfits.isImage
    obtain ⟨rd', hget, -⟩ := hreads _ (readerOk_connect hmemory)
    rw [hfits.ofBytes_bytes] at hget
    exact ⟨st', rd', hinit, hget⟩

/-- At every point of a run the header that was written last is that of some file `n`: its
LSN is not behind the bytes of that file, and each LSN in it is that of an inserted
record which ends before the LSN of the header and is read after a crash. -/
theorem header_never_ahead (hrun : LlRun cfg s rd) {disk : Disk LlFileHead}
    (hdisk : disk ∈ s.storage.past) :
    ∃ n file header head, disk n = some file ∧ file.header = some (header, head) ∧
      (∀ k, n < k → (disk k).bind LogFile.header = none) ∧
      header.nextLsn ≤ startOf cfg.toConfig n + file.body.length ∧
      ∀ lsn ∈ head.lsns, ∃ r, (lsn, r) ∈ inserted s.history ∧
        lsn + llGetRecordSize r ≤ header.nextLsn ∧
        ∀ (buffer : Nat → UInt8) (memory : Bytes), memory.length = cfg.readBufSize →
          ∃ st' rd', lfsInit disk n buffer = some st' ∧
            llGetRecordFromDisc cfg.toConfig st' (Reader.connect memory) lsn =
              some (some (lsn, r), rd') := by
  obtain ⟨recs, h⟩ := llRun_inv hrun
  obtain ⟨recs', first, n, w, hok, hsub⟩ := h.safe.past disk hdisk
  obtain ⟨file, header, head, done, hh⟩ := hok.last
  have hlen := hh.body.length_le
  have hnext := hh.nextLsn_eq
  exact ⟨n, file, header, head, hh.file, hh.header_eq, hok.behind, by omega,
    fun lsn hlsn => h.read_after_crash hok hsub hh hlsn⟩

/-- A physical record has been inserted and flushed: the header points to it. -/
theorem header_never_ahead_short :
    ∃ (s : LlState) (rd : Reader) (disk : Disk LlFileHead) (header : LfsHeader) (head : LlFileHead),
      LlRun shortLogConfig s rd ∧ disk ∈ s.storage.past ∧
      (disk 1).bind LogFile.header = some (header, head) ∧ 4 ∈ head.lsns ∧
      ∃ r, (4, r) ∈ inserted s.history ∧ 4 + llGetRecordSize r ≤ header.nextLsn ∧
        ∀ (buffer : Nat → UInt8) (memory : Bytes), memory.length = 16 →
          ∃ st' rd', lfsInit disk 1 buffer = some st' ∧
            llGetRecordFromDisc shortLogConfig.toConfig st' (Reader.connect memory) 4 =
              some (some (4, r), rd') := by
  have hrun0 := @LlRun.created shortLogConfig (fun _ => 0) (replicate 16 0) _ rfl rfl
  have hrun1 := @LlRun.insert shortLogConfig _ _ _ .physRecord [LlOperations.llDecrease.code] _
    hrun0 (by decide) rfl (by decide)
  have hrun2 := @LlRun.flushAll shortLogConfig _ _ _ false hrun1 rfl
  obtain ⟨n, file, header, head, hfile, hhdr, -, -, hpointers⟩ :=
    header_never_ahead hrun2 mem_cons_self
  obtain _ | _ | n := n
  · cases hfile
  · cases hfile
    cases hhdr
    exact ⟨_, _, _, _, _, hrun2, mem_cons_self, rfl, by decide, hpointers 4 (by decide)⟩
  · cases hfile

/-! ## The scan of a rollback

`llLogRollbackTrn` goes from the last record of a slot along the links to the records before it.
The slots are used again, so the links have to end with the first record of the current
transaction. -/

open LlOperations

variable {τ : Type*}

def llGetPrevRollbackLsn (_currLsn : Nat) (r : Record) : Option Nat := llGetPrevLsnFromRecord r

def llLogRollbackTrn (cfg : Config) (s : LlState) (run : RcvFun → Nat → Record → τ → τ)
    (trid : Trid) (fuel : Nat) (rd : Reader) (t : τ) : Option (Reader × τ) :=
  match (s.info.llTransInfoTable trid).lastLsn with
  | none => some (rd, t)
  | some lsn =>
    llScanRecords (llGetRecordFromDisc cfg s.storage) llRcvLogRecsInfo run llGetPrevRollbackLsn none
      fuel (some lsn) rd t

def scanBack (cfg : Config) (s : LlState) (trid : Trid) (fuel : Nat) (rd : Reader) :
    Option (Reader × List (Nat × Record)) :=
  llScanRecords (llGetRecordFromDisc cfg s.storage) [(.llDefault, ())]
    (fun _ lsn r seen => seen ++ [(lsn, r)]) llGetPrevRollbackLsn none fuel
    (s.info.llTransInfoTable trid).lastLsn rd []

theorem Links.visits {σ : Type*} {get : GetRecord σ} {ready : σ → Prop} {start : Option Nat}
    {recs : List (Nat × Record)} (h : Links start recs)
    (hreads : ∀ x ∈ recs, Reads get ready x.1 (some x)) :
    Visits get ready llGetPrevRollbackLsn start recs := by
  induction h with
  | nil => exact .stop
  | @cons lsn r rest _ ih =>
    refine .step (hreads (lsn, r) mem_cons_self) ?_
    exact ih (forall_mem_cons.1 hreads).2

/-- A rollback comes by the records that the current transaction of the slot has inserted,
from the newest to the oldest and each of them once, and by no others: the functions
of the recovery are applied to these. -/
theorem rollback_visits_own_records (hrun : LlRun cfg s rd) (trid : Trid) {fuel : Nat}
    (hfuel : (ownRecords trid s.history).length < fuel) :
    (∃ rd', scanBack cfg.toConfig s trid fuel rd = some (rd', ownRecords trid s.history)) ∧
    ((ownRecords trid s.history).Pairwise fun x y => y.1 < x.1) ∧
    ∀ (run : RcvFun → Nat → Record → τ → τ) (t : τ), ∃ rd',
      llLogRollbackTrn cfg.toConfig s run trid fuel rd t =
        some (rd', (ownRecords trid s.history).foldl
          (fun t x => llProcessRecord llRcvLogRecsInfo run none x.1 x.2 t) t) := by
  obtain ⟨recs, h⟩ := llRun_inv hrun
  have hown := ownRecords_sublist trid s.history
  have hvis := (h.links trid).visits fun _ hx => h.reads (hown.subset hx)
  have hinc := h.safe.stores.increasing_log
  rw [h.log_eq, pairwise_reverse, pairwise_map] at hinc
  refine ⟨?_, hinc.sublist hown, fun run t => ?_⟩
  · obtain ⟨rd', -, hscan⟩ := hvis.scan [(llDefault, ())]
      (fun _ lsn r seen => seen ++ [(lsn, r)]) none hfuel h.reader []
    exact ⟨rd', by rw [scanBack, hscan, foldl_notes, nil_append]⟩
  · obtain ⟨rd', -, hscan⟩ := hvis.scan llRcvLogRecsInfo run none hfuel h.reader t
    unfold llLogRollbackTrn
    cases hlast : (s.info.llTransInfoTable trid).lastLsn with
    | none =>
      rw [hlast, llScanRecords] at hscan
      exact ⟨rd', hscan⟩
    | some lsn =>
      rw [hlast] at hscan
      exact ⟨rd', hscan⟩

/-- Two transactions have used slot 3 while another one was running in slot 5: the rollback
of the second one comes by its own record only. -/
theorem rollback_visits_own_records_reused :
    ∃ (s : LlState) (rd rd' : Reader), LlRun shortLogConfig s rd ∧
      (inserted s.history).length = 3 ∧
      scanBack shortLogConfig.toConfig s 3 2 rd =
        some (rd', [(39, { prevLsn := none, body := [LlOperations.llInsertText.code, 3] })]) := by
  have hrun0 := @LlRun.created shortLogConfig (fun _ => 0) (replicate 16 0) _ rfl rfl
  have hrun1 := @LlRun.insert shortLogConfig _ _ _ (.trRecord 3) [llInsertElem.code, 3]
    _ (hrun0.transBegin 3) (by decide) rfl (by decide)
  have hrun2 := @LlRun.insert shortLogConfig _ _ _ (.trRecord 5) [llInsertElem.code]
    _ (hrun1.transBegin 5) (by decide) rfl (by decide)
  have hrun3 := @LlRun.insert shortLogConfig _ _ _ (.trRecord 3) [llInsertText.code, 3]
    _ ((hrun2.transEnd 3).transBegin 3) (by decide) rfl (by decide)
  obtain ⟨⟨rd', hscan⟩, -⟩ :=
    @rollback_visits_own_records shortLogConfig _ _ Unit hrun3 3 2 (by decide)
  exact ⟨_, _, rd', hrun3, rfl, hscan⟩

end

end Sedna.Log
