import Sedna.Log.Reading

/-!
# What a crash leaves

`DiskOk` says that the last header written to the files is true: the records up to
its LSN are in the files, and so is every record that the header points to.  It
holds for every content the files ever had, and a log can be opened from it.
-/

namespace Sedna.Log

open List Function Option

namespace Storage

variable {η : Type*} {cfg : Config} {lsns : η → List Nat} {recs : Nat → List Bytes}
  {first n w : Nat} {disk : Disk η} {done : List Bytes} {f : LogFile η} {header : LfsHeader}
  {user : η}

def logUpTo (cfg : Config) (recs : Nat → List Bytes) (first n : Nat) (done : List Bytes) :
    List (Nat × Bytes) :=
  entries cfg recs first (n - first) ++ place (startOf cfg n) done

/-- The header of file `n` is true: the records `done` before its LSN, which is at most `w`
bytes behind the start of the file, are in the files, and those at the LSNs `lsns` of
the user's header are among them. -/
structure HeaderOk (cfg : Config) (lsns : η → List Nat) (recs : Nat → List Bytes) (first n w : Nat)
    (disk : Disk η) (f : LogFile η) (header : LfsHeader) (user : η) (done : List Bytes) : Prop where
  file : disk n = some f
  header_eq : f.header = some (header, user)
  size : f.body.length ≤ cfg.chunkSize - cfg.sectorSize
  first_eq : header.firstFileNum = first
  done_le : done <+: recs n
  nextLsn_eq : header.nextLsn = startOf cfg n + done.flatten.length
  le : done.flatten.length ≤ w
  body : done.flatten <+: f.body
  pointers : ∀ lsn ∈ lsns user, ∃ b, (lsn, b) ∈ logUpTo cfg recs first n done

structure DiskOk (cfg : Config) (lsns : η → List Nat) (recs : Nat → List Bytes) (first n w : Nat)
    (disk : Disk η) : Prop where
  first_pos : 1 ≤ first
  first_le : first ≤ n
  old : ∀ k, first ≤ k → k < n → ∃ f, disk k = some f ∧ f.header.isSome ∧
    f.body.length ≤ cfg.chunkSize - cfg.sectorSize ∧ (recs k).flatten <+: f.body
  last : ∃ f header user done, HeaderOk cfg lsns recs first n w disk f header user done
  behind : ∀ k, n < k → (disk k).bind LogFile.header = none
  nonempty : ∀ k, ∀ b ∈ recs k, b ≠ []

/-- The log can be opened after a crash that left these files: they hold records of it. -/
def CrashSafe (cfg : Config) (lsns : η → List Nat) (log : List (Nat × Bytes)) (disk : Disk η) :
    Prop :=
  ∃ recs first n w, DiskOk cfg lsns recs first n w disk ∧ logUpTo cfg recs first n (recs n) ⊆ log

structure Safe (cfg : Config) (lsns : η → List Nat) (st : Storage η) (recs : Nat → List Bytes) :
    Prop where
  stores : Stores cfg st recs
  disk : DiskOk cfg lsns recs st.info.firstFileNum st.info.lastFileNum (st.written cfg) st.disk
  past : ∀ disk ∈ st.past, CrashSafe cfg lsns (st.log cfg recs) disk

theorem CrashSafe.mono {log log' : List (Nat × Bytes)} (h : CrashSafe cfg lsns log disk)
    (hlog : log ⊆ log') : CrashSafe cfg lsns log' disk := by
  obtain ⟨recs, first, n, w, hdisk, hsub⟩ := h
  exact ⟨recs, first, n, w, hdisk, List.Subset.trans hsub hlog⟩

theorem logUpTo_congr {recs' : Nat → List Bytes} (h : ∀ k, first ≤ k → k < n → recs' k = recs k) :
    logUpTo cfg recs' first n done = logUpTo cfg recs first n done := by
  rw [logUpTo, logUpTo, entries_congr]
  intro k hk hlt
  exact h k hk (by omega)

theorem DiskOk.mono {w' : Nat} (h : DiskOk cfg lsns recs first n w disk) (hw : w ≤ w') :
    DiskOk cfg lsns recs first n w' disk := by
  obtain ⟨f, header, user, done, hh⟩ := h.last
  exact { h with last := ⟨f, header, user, done, { hh with le := le_trans hh.le hw }⟩ }

theorem Stores.log_eq_logUpTo {st : Storage η} (h : Stores cfg st recs) :
    st.log cfg recs = logUpTo cfg recs st.info.firstFileNum st.info.lastFileNum
      (recs st.info.lastFileNum) :=
  h.log_eq

theorem mem_logUpTo_mono {x : Nat × Bytes} {done' : List Bytes} (h : done <+: done')
    (hx : x ∈ logUpTo cfg recs first n done) : x ∈ logUpTo cfg recs first n done' := by
  obtain ⟨rest, rfl⟩ := h
  rw [logUpTo, place_append, ← append_assoc]
  exact mem_append_left _ hx

theorem logUpTo_succ (hn : first ≤ n) :
    logUpTo cfg recs first (n + 1) [] = logUpTo cfg recs first n (recs n) := by
  have hcount : n + 1 - first = n - first + 1 := by omega
  have hend : first + (n - first) = n := by omega
  rw [logUpTo, logUpTo, hcount, entries_succ, hend, place, append_nil]

/-! ## Opening -/

theorem HeaderOk.bind_eq (h : HeaderOk cfg lsns recs first n w disk f header user done) :
    (disk n).bind LogFile.header = some (header, user) := by
  rw [h.file]
  exact h.header_eq

section

variable (h : DiskOk cfg lsns recs first n w disk)
include h

section

variable (hh : HeaderOk cfg lsns recs first n w disk f header user done)
include hh

theorem DiskOk.setLast {last : List Bytes} {w' : Nat} (hlast : done <+: last)
    (hle : done.flatten.length ≤ w') (hne : ∀ b ∈ last, b ≠ []) :
    DiskOk cfg lsns (update recs n last) first n w' disk := by
  have hoth : ∀ k, k < n → update recs n last k = recs k := fun k hk =>
    update_of_ne (ne_of_lt hk) _ _
  refine { h with old := ?_, last := ⟨f, header, user, done, ?_⟩, nonempty := ?_ }
  · intro k hk hlt
    rw [hoth k hlt]
    exact h.old k hk hlt
  · refine { hh with done_le := ?_, le := hle, pointers := ?_ }
    · rw [update_self]
      exact hlast
    · rw [logUpTo_congr fun k _ hlt => hoth k hlt]
      exact hh.pointers
  · intro k b hb
    by_cases hk : k = n
    · subst hk
      rw [update_self] at hb
      exact hne b hb
    · rw [update_of_ne hk] at hb
      exact h.nonempty k b hb

theorem DiskOk.setBody {disk' : Disk η} {body : Bytes} (hoth : ∀ k, k ≠ n → disk' k = disk k)
    (hfile : disk' n = some { f with body := body })
    (hsize : body.length ≤ cfg.chunkSize - cfg.sectorSize) (hbody : done.flatten <+: body) :
    DiskOk cfg lsns recs first n w disk' := by
  refine { h with old := ?_, last := ?_, behind := ?_ }
  · intro k hk hlt
    rw [hoth k (ne_of_lt hlt)]
    exact h.old k hk hlt
  · exact ⟨_, header, user, done,
      { hh with file := hfile, header_eq := hh.header_eq, size := hsize, body := hbody }⟩
  · intro k hlt
    rw [hoth k (ne_of_gt hlt)]
    exact h.behind k hlt

theorem DiskOk.cut : DiskOk cfg lsns (update recs n done) first n done.flatten.length disk :=
  h.setLast hh (prefix_refl _) le_rfl fun b hb =>
    h.nonempty n b (hh.done_le.subset hb)

theorem DiskOk.opens (buffer : Nat → UInt8) :
    ∃ st', lfsInit disk n buffer = some st' ∧ st'.disk = disk ∧
      st'.info = ⟨header.nextLsn, first, n, 0, 0, 0⟩ ∧
      Safe cfg lsns st' (update recs n done) ∧
      st'.log cfg (update recs n done) = logUpTo cfg recs first n done := by
  have hcut := h.cut hh
  have hn := h.first_le
  have hpos := h.first_pos
  have hchunk := pred_mul_chunk cfg (by omega : 1 ≤ n)
  have hsector := cfg.sector_le
  have hlen := hh.body.length_le
  have hsize := hh.size
  have hlsn := hh.nextLsn_eq
  have hinit : lfsInit disk n buffer = some
      { disk, past := [disk], buffer, info := ⟨header.nextLsn, first, n, 0, 0, 0⟩ } := by
    rw [lfsInit, hh.bind_eq, ← hh.first_eq]
  have hlog : (⟨disk, [disk], ⟨header.nextLsn, first, n, 0, 0, 0⟩, buffer⟩ : Storage η).log cfg
      (update recs n done) = logUpTo cfg recs first n done := by
    have hcount : n + 1 - first = n - first + 1 := by omega
    have hend : first + (n - first) = n := by omega
    rw [log, hcount, entries_succ, hend, update_self, logUpTo, entries_congr]
    intro k _ hlt
    rw [hend] at hlt
    exact update_of_ne (ne_of_lt hlt) _ _
  have hwr : header.nextLsn - startOf cfg n = done.flatten.length := by omega
  refine ⟨_, hinit, rfl, rfl, ⟨?_, by rw [written, hwr]; exact hcut, ?_⟩, hlog⟩
  · refine
      { bufStart_lt := cfg.buf_pos, keep_le := Nat.zero_le _, bufOffset_eq := by simp,
        first_pos := hpos, first_le := hn, file := ?_,
        start_le := hlsn ▸ Nat.le_add_right _ _, high_le := ?_, old := ?_, last := ?_,
        boundary := ⟨done, [], by simp, hwr.symm⟩, nonempty := hcut.nonempty }
    · intro k hk hle
      by_cases hlast : k = n
      · subst hlast
        exact ⟨f, hh.file, by rw [hh.header_eq]; rfl, hsize⟩
      · obtain ⟨g, hg, hgheader, hgsize, -⟩ := hcut.old k hk (lt_of_le_of_ne hle hlast)
        exact ⟨g, hg, hgheader, hgsize⟩
    · show header.nextLsn + 0 ≤ n * cfg.chunkSize
      unfold startOf at hlsn
      omega
    · intro k hk hlt g hg
      obtain ⟨g', hg', -, -, hrecs⟩ := hcut.old k hk hlt
      obtain rfl : g = g' := some.inj (hg.symm.trans hg')
      exact hrecs
    · intro g hg
      obtain rfl : g = f := some.inj (hg.symm.trans hh.file)
      rw [written, hwr, pending, Sedna.Library.RingBuffer.contents_zero, append_nil,
        update_self]
      exact ⟨hlen, (prefix_iff_eq_take.1 hh.body).symm⟩
  · intro d hd
    rw [mem_singleton.1 hd]
    refine ⟨_, _, _, _, hcut, ?_⟩
    rw [hlog, update_self, logUpTo_congr fun k _ hlt =>
      update_of_ne (ne_of_lt hlt) _ _]
    exact List.Subset.refl _

end

end

/-! ## The created log -/

theorem diskOk_created (hlsns : lsns user = []) :
    DiskOk cfg lsns (fun _ => []) 1 1 0 (lfsCreateNew cfg user) := by
  refine
    { first_pos := le_refl _, first_le := le_refl _, old := ?_, last := ?_, behind := ?_,
      nonempty := fun _ _ hb => absurd hb not_mem_nil }
  · intro k hk hlt
    exact absurd hlt (not_lt.2 hk)
  · refine ⟨_, { nextLsn := cfg.sectorSize, firstFileNum := 1 }, user, [],
      update_self _ _ _,
      rfl, Nat.zero_le _, rfl, nil_prefix, ?_, le_refl _, nil_prefix, ?_⟩
    · simp [startOf]
    · rw [hlsns]
      exact fun lsn hlsn => absurd hlsn not_mem_nil
  · intro k hlt
    rw [lfsCreateNew, update_of_ne (ne_of_gt hlt)]
    rfl

theorem safe_created (hlsns : lsns user = []) {buffer : Nat → UInt8} {st : Storage η}
    (hinit : lfsInit (lfsCreateNew cfg user) 1 buffer = some st) :
    Safe cfg lsns st (fun _ => []) ∧ st.log cfg (fun _ => []) = [] := by
  have hdisk := @diskOk_created η cfg lsns user hlsns
  obtain ⟨f, header, user', done, hh⟩ := hdisk.last
  obtain ⟨st', hinit', -, -, hsafe, hlog⟩ := hdisk.opens hh buffer
  obtain rfl : done = [] := prefix_nil.1 hh.done_le
  obtain rfl : st = st' := some.inj (hinit.symm.trans hinit')
  rw [update_eq_self_iff.2 rfl] at hsafe hlog
  exact ⟨hsafe, hlog⟩

/-! ## Steps -/

variable {st st' : Storage η} {recs' : Nat → List Bytes} {new : List (Nat × Bytes)}

theorem DiskOk.writtenBehind
    (h : DiskOk cfg lsns recs first st.info.lastFileNum (st.written cfg) st.disk)
    (hw : WrittenBehind cfg st disk) :
    DiskOk cfg lsns recs first st.info.lastFileNum (st.written cfg) disk := by
  obtain ⟨f, header, user, done, hh⟩ := h.last
  obtain ⟨body, hf', hsize, hfront⟩ := hw.file f hh.file
  exact h.setBody hh hw.other hf' hsize ((prefix_take_iff.2 ⟨hh.body, hh.le⟩).trans hfront)

theorem DiskOk.created {disk' : Disk η} (h : DiskOk cfg lsns recs first n w disk)
    (hoth : ∀ k, k ≠ n + 1 → disk' k = disk k)
    (hnone : (disk' (n + 1)).bind LogFile.header = none) :
    DiskOk cfg lsns recs first n w disk' := by
  refine { h with old := ?_, last := ?_, behind := ?_ }
  · intro k hk hlt
    rw [hoth k (by omega)]
    exact h.old k hk hlt
  · obtain ⟨f, header, user, done, hh⟩ := h.last
    exact ⟨f, header, user, done, { hh with file := (hoth n (by omega)).trans hh.file }⟩
  · intro k hlt
    by_cases hk : k = n + 1
    · rw [hk]
      exact hnone
    · rw [hoth k hk]
      exact h.behind k hlt

theorem Extended.diskOk (h : Safe cfg lsns st recs) (he : Extended cfg st st')
    (hkeep : st.info.bufKeepBytes = 0) :
    DiskOk cfg lsns (update recs (st.info.lastFileNum + 1) []) st.info.firstFileNum
      (st.info.lastFileNum + 1) 0 st'.disk := by
  have hst := he.stores h.stores hkeep
  have hold := hst.old
  have hfile := hst.file
  rw [he.lastFileNum, he.firstFileNum] at hold hfile
  obtain ⟨header, user, hhdr, hnew⟩ := he.file
  obtain ⟨f, header', user', done, hh⟩ := h.disk.last
  obtain rfl : user = user' :=
    (Prod.mk.inj (some.inj (hhdr.symm.trans hh.bind_eq))).2
  refine
    { first_pos := h.disk.first_pos, first_le := Nat.le_succ_of_le h.disk.first_le, old := ?_,
      last := ?_, behind := ?_, nonempty := hst.nonempty }
  · intro k hk hlt
    obtain ⟨g, hg, hgheader, hgsize⟩ := hfile k hk (le_of_lt hlt)
    exact ⟨g, hg, hgheader, hgsize, hold k hk hlt g hg⟩
  · refine ⟨_, _, user, [], hnew, rfl, Nat.zero_le _, rfl, nil_prefix, rfl, le_refl _,
      nil_prefix, fun lsn hlsn => ?_⟩
    obtain ⟨b, hb⟩ := hh.pointers lsn hlsn
    have hoth : ∀ k, k < st.info.lastFileNum + 1 →
        update recs (st.info.lastFileNum + 1) [] k = recs k := fun k hk =>
      update_of_ne (ne_of_lt hk) _ _
    refine ⟨b, ?_⟩
    rw [logUpTo_congr fun k _ hlt => hoth k hlt, logUpTo_succ h.disk.first_le]
    exact mem_logUpTo_mono hh.done_le hb
  · intro k hlt
    rw [he.other k (ne_of_gt hlt)]
    exact h.disk.behind k (by omega)

theorem DiskOk.append (h : DiskOk cfg lsns recs first n w disk) {rec : Bytes} (hne : rec ≠ []) :
    DiskOk cfg lsns (update recs n (recs n ++ [rec])) first n w disk := by
  obtain ⟨f, header, user, done, hh⟩ := h.last
  exact h.setLast hh (hh.done_le.trans (prefix_append _ _)) hh.le
    (forall_mem_append.2 ⟨h.nonempty n, forall_mem_singleton.2 hne⟩)

theorem LogStep.safe (h : Safe cfg lsns st recs) (hstep : LogStep cfg st recs new st' recs') :
    Safe cfg lsns st' recs' := by
  have hst := hstep.stores h.stores
  have hgrow : st.log cfg recs ⊆ st'.log cfg recs' := by
    rw [hstep.log_eq h.stores]
    exact subset_append_left _ _
  have hpast : ∀ disk ∈ st.past, CrashSafe cfg lsns (st'.log cfg recs') disk :=
    fun disk hd => (h.past disk hd).mono hgrow
  cases hstep with
  | @flush _ n hf hbd =>
    have hnow : WrittenBehind cfg st st'.disk := by
      refine ⟨fun f hfile => ⟨_, hf.file f hfile, ?_, prefix_writeAt ( take_prefix _ _) ?_⟩,
        hf.other⟩
      · obtain ⟨f', hf', -, hsize⟩ := hst.file _ hst.first_le le_rfl
        rw [hf.lastFileNum, hf.file f hfile, some.injEq] at hf'
        subst hf'
        exact hsize
      · exact length_take_le _ _
    refine ⟨hst, ?_, fun disk hd => ?_⟩
    · rw [hf.lastFileNum, hf.firstFileNum, hf.written_eq h.stores]
      exact (h.disk.writtenBehind hnow).mono (Nat.le_add_right _ _)
    · rcases hf.past disk hd with hd | hd
      · exact hpast disk hd
      · exact ⟨_, _, _, _, h.disk.writtenBehind hd, h.stores.log_eq_logUpTo ▸ hgrow⟩
  | extend he hkeep hused =>
    have hdisk := he.diskOk h hkeep
    refine ⟨hst, ?_, fun disk hd => ?_⟩
    · rw [he.lastFileNum, he.firstFileNum]
      exact hdisk.mono (Nat.zero_le _)
    · rcases he.past disk hd with hd | rfl | ⟨hoth, hnone⟩
      · exact hpast disk hd
      · refine ⟨_, _, _, _, hdisk, ?_⟩
        have hlog := hst.log_eq
        rw [he.info] at hlog
        rw [hlog]
        exact List.Subset.refl _
      · exact ⟨_, _, _, _, h.disk.created hoth hnone, h.stores.log_eq_logUpTo ▸ hgrow⟩
  | buffer hb hne hroom hfit =>
    refine ⟨hst, ?_, fun disk hd => hpast disk (hb.past ▸ hd)⟩
    have hwr : st'.written cfg = st.written cfg := by rw [written, written, hb.info]
    rw [hb.disk, hwr, hb.info]
    exact h.disk.append hne

theorem LogSteps.safe (h : Safe cfg lsns st recs) (hsteps : LogSteps cfg st recs new st' recs') :
    Safe cfg lsns st' recs' := by
  induction hsteps with
  | refl => exact h
  | tail _ hstep ih => exact hstep.safe ih

/-! ## Headers -/

/-- A record of the log whose bytes are all in the files. -/
def OnDisk (cfg : Config) (st : Storage η) (recs : Nat → List Bytes) (lsn : Nat) : Prop :=
  ∃ b, (lsn, b) ∈ st.log cfg recs ∧ lsn + b.length ≤ st.info.nextLsn

theorem Stores.mem_logUpTo (h : Stores cfg st recs) {todo : List Bytes}
    (hcut : recs st.info.lastFileNum = done ++ todo) {lsn : Nat} {b : Bytes}
    (hmem : (lsn, b) ∈ st.log cfg recs)
    (hend : lsn + b.length ≤ startOf cfg st.info.lastFileNum + done.flatten.length) :
    (lsn, b) ∈ logUpTo cfg recs st.info.firstFileNum st.info.lastFileNum done := by
  rw [h.log_eq, hcut, place_append, ← append_assoc] at hmem
  rcases mem_append.1 hmem with hmem | hmem
  · exact hmem
  · obtain ⟨pre, post, hpost, hlsn⟩ := mem_place hmem
    have hpos : 0 < b.length := length_pos_iff.mpr
      (h.nonempty st.info.lastFileNum b (by simp [hcut, hpost]))
    omega

theorem Safe.header_onDisk (h : Safe cfg lsns st recs)
    (hhdr : (st.disk st.info.lastFileNum).bind LogFile.header = some (header, user)) :
    ∀ lsn ∈ lsns user, OnDisk cfg st recs lsn := by
  obtain ⟨f, header', user', done, hh⟩ := h.disk.last
  obtain ⟨rfl, rfl⟩ := Prod.mk.inj (some.inj (hhdr.symm.trans hh.bind_eq))
  intro lsn hlsn
  obtain ⟨b, hb⟩ := hh.pointers lsn hlsn
  have hle := hh.le
  have hsta := h.stores.start_le
  refine ⟨b, ?_, ?_⟩
  · rw [h.stores.log_eq]
    exact mem_logUpTo_mono hh.done_le hb
  · rcases mem_append.1 hb with hb | hb
    · obtain ⟨k, hk, hlt, hpl⟩ := mem_entries hb
      have hend := h.stores.old_end_le hk (by omega) hpl
      simp only at hend
      omega
    · have hbnd := (place_bounds hb).2
      unfold written at hle
      simp only at hbnd
      omega

theorem Headed.safe (h : Safe cfg lsns st recs) (hh : Headed st st')
    (hptr : ∀ header user, (st'.disk st.info.lastFileNum).bind LogFile.header =
      some (header, user) → ∀ lsn ∈ lsns user, OnDisk cfg st recs lsn) :
    Safe cfg lsns st' recs := by
  have hst := hh.stores h.stores
  have hwr : st'.written cfg = st.written cfg := by rw [written, written, hh.info]
  obtain ⟨f, header, user, done, hold⟩ := h.disk.last
  obtain ⟨f', hf', hbody', -⟩ := hh.file _ f hold.file
  have hdisk : DiskOk cfg lsns recs st.info.firstFileNum st.info.lastFileNum (st.written cfg)
      st'.disk := by
    refine { h.disk with old := ?_, last := ?_, behind := ?_ }
    · intro k hk hlt
      obtain ⟨g, hg, hgheader, hgsize, hgbody⟩ := h.disk.old k hk hlt
      obtain ⟨g', hg', hgbody', hgheader'⟩ := hh.file k g hg
      rw [← hgbody'] at hgsize hgbody
      exact ⟨g', hg', hgheader' hgheader, hgsize, hgbody⟩
    · rcases hh.lastHeader f f' hold.file hf' with hsame | ⟨user', hnew⟩
      · exact ⟨f', header, user, done, { hold with
          file := hf', header_eq := hsame.trans hold.header_eq, size := hbody' ▸ hold.size,
          body := hbody' ▸ hold.body }⟩
      · obtain ⟨now, todo, hcut, hlen⟩ := h.stores.boundary
        have hsta := h.stores.start_le
        have hnext : st.info.nextLsn = startOf cfg st.info.lastFileNum + now.flatten.length := by
          unfold written at hlen
          omega
        have hfront : now.flatten <+: f'.body := by
          obtain ⟨hin, hflat⟩ := h.stores.last f hold.file
          rw [hcut, flatten_append] at hflat
          rw [hbody', prefix_iff_eq_take, hlen]
          exact ((append_inj hflat (by rw [length_take]; omega)).1).symm
        refine ⟨f', _, user', now, hf', hnew, hbody' ▸ hold.size, rfl, ⟨todo, hcut.symm⟩, hnext,
          le_of_eq hlen, hfront, fun lsn hmem => ?_⟩
        obtain ⟨b, hb, hend⟩ := hptr _ user' (by rw [hf']; exact hnew) lsn hmem
        exact ⟨b, h.stores.mem_logUpTo hcut hb (by omega)⟩
    · intro k hlt
      rw [hh.behind k hlt]
      exact h.disk.behind k hlt
  refine ⟨hst, ?_, fun disk hd => ?_⟩
  · rw [hh.info, hwr]
    exact hdisk
  · rw [hh.log_eq]
    rcases hh.past disk hd with hd | rfl
    · exact h.past disk hd
    · exact ⟨_, _, _, _, hdisk, h.stores.log_eq_logUpTo ▸ List.Subset.refl _⟩

end Storage

end Sedna.Log
