import Sedna.Log.Storage

/-!
# What the storage holds

`Stores` ties the files and the write buffer to the records of each file.  The
records of a file that has been left stand at its beginning; those of the last
file are partly in the file and partly in the buffer.
-/

namespace Sedna.Log

open Library.RingBuffer List Function LogFile DiskWrite Option

variable {η : Type*} {cfg : Config}

/-! ## Positions -/

def startOf (cfg : Config) (fileNum : Nat) : Nat := (fileNum - 1) * cfg.chunkSize + cfg.sectorSize

variable {k pos n : Nat} {st' : Storage η} {rec : Bytes} {recs' : Nat → List Bytes}
  {new : List (Nat × Bytes)}

theorem mod_chunk {o : Nat} (ho : o < cfg.chunkSize) :
    ((k - 1) * cfg.chunkSize + o) % cfg.chunkSize = o := by
  rw [Nat.mul_comm, Nat.mul_add_mod, Nat.mod_eq_of_lt ho]

theorem div_chunk {o : Nat} (ho : o < cfg.chunkSize) :
    ((k - 1) * cfg.chunkSize + o) / cfg.chunkSize = k - 1 := by
  have hpos : 0 < cfg.chunkSize := by omega
  rw [mul_comm, Nat.mul_add_div hpos, Nat.div_eq_of_lt ho, Nat.add_zero]

theorem pred_mul_chunk (cfg : Config) (hk : 1 ≤ k) :
    (k - 1) * cfg.chunkSize + cfg.chunkSize = k * cfg.chunkSize := by
  obtain _ | k := k
  · omega
  rw [Nat.succ_sub_one, Nat.succ_mul]

theorem file_of_lsn {lsn : Nat} (hk : 1 ≤ k) (hsta : startOf cfg k ≤ lsn)
    (hend : lsn ≤ k * cfg.chunkSize) : Storage.fileNumOf cfg lsn = k ∧
      Storage.fileOffsOf cfg lsn = lsn - (k - 1) * cfg.chunkSize := by
  have hchunk := pred_mul_chunk cfg hk
  have hsector := cfg.sector_pos
  unfold startOf at hsta
  obtain ⟨o, rfl⟩ := Nat.exists_eq_add_of_le (by omega : (k - 1) * cfg.chunkSize ≤ lsn)
  unfold Storage.fileNumOf Storage.fileOffsOf
  by_cases hfull : o = cfg.chunkSize
  · rw [hfull, hchunk, if_pos (Nat.mul_mod_left _ _), if_pos (Nat.mul_mod_left _ _),
      Nat.mul_div_cancel _ (by omega)]
    omega
  · rw [mod_chunk (by omega), div_chunk (by omega), if_neg (by omega), if_neg (by omega)]
    omega

theorem fileOffsOf_eq {lsn : Nat} (hk : 1 ≤ k) (hsta : startOf cfg k ≤ lsn)
    (hend : lsn ≤ k * cfg.chunkSize) : Storage.fileOffsOf cfg lsn = lsn - (k - 1) * cfg.chunkSize :=
  (file_of_lsn hk hsta hend).2

theorem fileNumOf_eq {lsn : Nat} (hk : 1 ≤ k) (hsta : startOf cfg k ≤ lsn)
    (hend : lsn ≤ k * cfg.chunkSize) : Storage.fileNumOf cfg lsn = k :=
  (file_of_lsn hk hsta hend).1

/-! ## The ends of the buffer -/

theorem wrap_eq_mod {size offs : Nat} (h : offs ≤ size) :
    (if offs = size then 0 else offs) = offs % size := by
  split
  next heq => rw [heq, Nat.mod_self]
  · rw [Nat.mod_eq_of_lt (by omega)]

theorem sub_rest_eq_mod {size offs n : Nat} (hoffs : offs < size) (hsize : size ≤ offs + n)
    (hn : n ≤ size) : n - (size - offs) = (offs + n) % size := by
  rw [Nat.mod_eq_sub_mod hsize, Nat.mod_eq_of_lt (by omega)]
  omega

/-! ## Writes to a file -/

theorem length_writeAt (body bytes : Bytes) (pos : Nat) :
    (writeAt body pos bytes).length = max body.length (pos + bytes.length) := by
  simp only [writeAt, length_append, takeD_length, length_drop]
  omega

theorem take_writeAt {body : Bytes} (bytes : Bytes) (hpos : pos ≤ body.length) :
    (writeAt body pos bytes).take (pos + bytes.length) = body.take pos ++ bytes := by
  have hlen : pos + bytes.length = (body.take pos ++ bytes).length := by simp [hpos]
  rw [writeAt, takeD_eq_take _ hpos, hlen, take_left]

theorem prefix_writeAt {front body bytes : Bytes} (hfront : front <+: body)
    (hpos : front.length ≤ pos) : front <+: writeAt body pos bytes := by
  obtain ⟨rest, rfl⟩ := hfront
  induction front generalizing pos with
  | nil => exact nil_prefix
  | cons b front ih =>
    obtain ⟨pos, rfl⟩ := Nat.exists_eq_succ_of_ne_zero (by simp at hpos; omega : pos ≠ 0)
    have hstep : writeAt (b :: front ++ rest) (pos + 1) bytes =
        b :: writeAt (front ++ rest) pos bytes := by
      have hlen : pos + 1 + bytes.length = pos + bytes.length + 1 := by omega
      simp [writeAt, hlen]
    rw [hstep]
    exact cons_prefix_cons.2 ⟨rfl, ih (by simpa using hpos)⟩

theorem writeAt_writeAt {body a b : Bytes} (hpos : pos ≤ body.length) :
    writeAt (writeAt body pos a) (pos + a.length) b = writeAt body pos (a ++ b) := by
  have hlen : pos + a.length ≤ (writeAt body pos a).length := by
    rw [length_writeAt]
    exact le_max_right _ _
  have hdrop : (writeAt body pos a).drop (pos + a.length + b.length) =
      body.drop (pos + (a ++ b).length) := by
    have hfront : (body.takeD pos 0 ++ a).length = pos + a.length := by simp
    rw [writeAt, ← drop_drop, ← hfront, drop_left, drop_drop, hfront, length_append, add_assoc]
  rw [writeAt, hdrop, takeD_eq_take _ hlen, take_writeAt a hpos, writeAt,
    takeD_eq_take _ hpos, ← append_assoc]

namespace Storage

/-! ## The records in the files and in the buffer -/

def pending (cfg : Config) (st : Storage η) : Bytes :=
  contents st.buffer cfg.bufSize st.info.bufStart st.info.bufKeepBytes

def written (cfg : Config) (st : Storage η) : Nat :=
  st.info.nextLsn - startOf cfg st.info.lastFileNum

/-- The files and the buffer hold these records, by the number of the file. -/
structure Stores (cfg : Config) (st : Storage η) (recs : Nat → List Bytes) : Prop where
  bufStart_lt : st.info.bufStart < cfg.bufSize
  keep_le : st.info.bufKeepBytes ≤ cfg.bufSize
  bufOffset_eq : st.info.bufOffset = (st.info.bufStart + st.info.bufKeepBytes) % cfg.bufSize
  first_pos : 1 ≤ st.info.firstFileNum
  first_le : st.info.firstFileNum ≤ st.info.lastFileNum
  file : ∀ k, st.info.firstFileNum ≤ k → k ≤ st.info.lastFileNum →
    ∃ f, st.disk k = some f ∧ f.header.isSome ∧ f.body.length ≤ cfg.chunkSize - cfg.sectorSize
  start_le : startOf cfg st.info.lastFileNum ≤ st.info.nextLsn
  high_le : st.info.nextLsn + st.info.bufKeepBytes ≤ st.info.lastFileNum * cfg.chunkSize
  old : ∀ k, st.info.firstFileNum ≤ k → k < st.info.lastFileNum → ∀ f, st.disk k = some f →
    (recs k).flatten <+: f.body
  last : ∀ f, st.disk st.info.lastFileNum = some f → st.written cfg ≤ f.body.length ∧
    f.body.take (st.written cfg) ++ st.pending cfg = (recs st.info.lastFileNum).flatten
  boundary : ∃ done todo, recs st.info.lastFileNum = done ++ todo ∧
    done.flatten.length = st.written cfg
  nonempty : ∀ k, ∀ b ∈ recs k, b ≠ []

variable {st : Storage η} {recs : Nat → List Bytes}

section

variable (h : Stores cfg st recs)
include h

theorem Stores.lastFile :
    ∃ f, st.disk st.info.lastFileNum = some f ∧ f.header.isSome ∧
      f.body.length ≤ cfg.chunkSize - cfg.sectorSize ∧ st.written cfg ≤ f.body.length ∧
      f.body.take (st.written cfg) ++ st.pending cfg = (recs st.info.lastFileNum).flatten := by
  obtain ⟨f, hf, hhdr, hsize⟩ := h.file _ h.first_le le_rfl
  obtain ⟨hwr, hflat⟩ := h.last f hf
  exact ⟨f, hf, hhdr, hsize, hwr, hflat⟩

theorem Stores.last_pos : 1 ≤ st.info.lastFileNum := le_trans h.first_pos h.first_le

theorem Stores.length_last :
    (recs st.info.lastFileNum).flatten.length = st.written cfg + st.info.bufKeepBytes := by
  obtain ⟨f, -, -, -, hwr, hflat⟩ := h.lastFile
  rw [← hflat, length_append, length_take, Nat.min_eq_left hwr, pending, length_contents]

theorem Stores.room : st.written cfg + st.info.bufKeepBytes ≤ cfg.chunkSize - cfg.sectorSize := by
  have hsta := h.start_le
  have hhigh := h.high_le
  have hchunk := pred_mul_chunk cfg h.last_pos
  unfold written
  unfold startOf at hsta ⊢
  omega

/-! ## Flushing -/

/-- A content of the files that differs from the current one only behind the bytes
that have been written to the last file. -/
structure WrittenBehind (cfg : Config) (st : Storage η) (disk : Disk η) : Prop where
  file : ∀ f, st.disk st.info.lastFileNum = some f → ∃ body,
    disk st.info.lastFileNum = some { f with body := body } ∧
      body.length ≤ cfg.chunkSize - cfg.sectorSize ∧ f.body.take (st.written cfg) <+: body
  other : ∀ k, k ≠ st.info.lastFileNum → disk k = st.disk k

theorem WrittenBehind.refl : WrittenBehind cfg st st.disk := by
  refine ⟨fun f hf => ⟨f.body, hf, ?_, take_prefix _ _⟩, fun _ _ => rfl⟩
  obtain ⟨f', hf', -, hsize⟩ := h.file _ h.first_le le_rfl
  rw [some.inj (hf.symm.trans hf')]
  exact hsize

end

theorem WrittenBehind.body {disk : Disk η} (hw : WrittenBehind cfg st disk) {bytes : Bytes}
    (hpos : st.written cfg ≤ pos) (hend : pos + bytes.length ≤ cfg.chunkSize - cfg.sectorSize) :
    WrittenBehind cfg st
      ((DiskWrite.body st.info.lastFileNum (cfg.sectorSize + pos) bytes).apply cfg disk) := by
  refine ⟨fun f hf => ?_, fun k hk => ?_⟩
  · obtain ⟨body, hbody, hsize, hfront⟩ := hw.file f hf
    refine ⟨writeAt body pos bytes, ?_, ?_, prefix_writeAt hfront ?_⟩
    · simp [apply, hbody]
    · rw [length_writeAt]
      omega
    · exact le_trans (length_take_le _ _) hpos
  · rw [apply, update_of_ne hk, hw.other k hk]

structure Flushed (cfg : Config) (st st' : Storage η) (n : Nat) : Prop where
  le : n ≤ st.info.bufKeepBytes
  info : st'.info = { st.info with
    bufStart := (st.info.bufStart + n) % cfg.bufSize
    bufKeepBytes := st.info.bufKeepBytes - n
    nextLsn := st.info.nextLsn + n }
  buffer : st'.buffer = st.buffer
  file : ∀ f, st.disk st.info.lastFileNum = some f →
    st'.disk st.info.lastFileNum = some { f with
      body := writeAt f.body (st.written cfg) ((st.pending cfg).take n) }
  other : ∀ k, k ≠ st.info.lastFileNum → st'.disk k = st.disk k
  past : ∀ disk ∈ st'.past, disk ∈ st.past ∨ WrittenBehind cfg st disk

def toFlush (st : Storage η) (ulsn : Nat) : Nat := min st.info.bufKeepBytes (ulsn - st.info.nextLsn)

theorem take_pending (cfg : Config) (hn : n ≤ st.info.bufKeepBytes) :
    (st.pending cfg).take n = contents st.buffer cfg.bufSize st.info.bufStart n := by
  obtain ⟨rest, hrest⟩ := Nat.exists_eq_add_of_le hn
  rw [pending, hrest, contents_add]
  exact take_left' (length_contents _)

theorem drop_pending (cfg : Config) (hn : n ≤ st.info.bufKeepBytes) :
    (st.pending cfg).drop n = contents st.buffer cfg.bufSize
      ((st.info.bufStart + n) % cfg.bufSize) (st.info.bufKeepBytes - n) := by
  obtain ⟨rest, hrest⟩ := Nat.exists_eq_add_of_le hn
  rw [pending, hrest, contents_add, Nat.add_sub_cancel_left]
  exact drop_left' (length_contents _)

theorem Stores.nextLsn_mod (h : Stores cfg st recs) (hkeep : st.info.bufKeepBytes ≠ 0) :
    st.info.nextLsn % cfg.chunkSize = cfg.sectorSize + st.written cfg := by
  have hsta := h.start_le
  have hhigh := h.high_le
  have hchunk := pred_mul_chunk cfg h.last_pos
  unfold startOf at hsta
  have hlsn : st.info.nextLsn = (st.info.lastFileNum - 1) * cfg.chunkSize +
      (st.info.nextLsn - (st.info.lastFileNum - 1) * cfg.chunkSize) := by omega
  have hmod : st.info.nextLsn % cfg.chunkSize =
      st.info.nextLsn - (st.info.lastFileNum - 1) * cfg.chunkSize := by
    conv_lhs => rw [hlsn]
    exact mod_chunk (by omega)
  rw [written, startOf]
  omega

theorem put_disk_self (cfg : Config) (n offs : Nat) (bytes : Bytes) {f : LogFile η}
    (hf : st.disk n = some f) :
    (st.put cfg (.body n offs bytes)).disk n = some { f with
      body := writeAt f.body (offs - cfg.sectorSize) bytes } := by
  simp [put, apply, hf]

theorem put_disk_other {offs : Nat} {bytes : Bytes} (hk : k ≠ n) :
    (st.put cfg (.body n offs bytes)).disk k = st.disk k := by
  simp [put, apply, hk]

theorem Flushed.refl (h : Stores cfg st recs) : Flushed cfg st st 0 := by
  refine ⟨Nat.zero_le _, ?_, rfl, fun f hf => ?_, fun _ _ => rfl, fun _ hd => .inl hd⟩
  · show st.info = { st.info with bufStart := st.info.bufStart % cfg.bufSize }
    rw [Nat.mod_eq_of_lt h.bufStart_lt]
  · rw [hf]
    rw [writeAt, takeD_eq_take _ (h.last f hf).1]
    simp

theorem flushBufLsn_flushed (h : Stores cfg st recs) (ulsn : Nat) :
    Flushed cfg st (flushBufLsn cfg ulsn st) (st.toFlush ulsn) := by
  by_cases hnone : ulsn ≤ st.info.nextLsn ∨ st.info.bufKeepBytes = 0
  · have hzero : st.toFlush ulsn = 0 := by
      unfold toFlush
      omega
    rw [hzero, flushBufLsn, if_pos hnone]
    exact Flushed.refl h
  · have htoflush : (if st.info.nextLsn + st.info.bufKeepBytes ≤ ulsn then st.info.bufKeepBytes
        else ulsn - st.info.nextLsn) = st.toFlush ulsn := by
      unfold toFlush
      split <;> omega
    have hle : st.toFlush ulsn ≤ st.info.bufKeepBytes := min_le_left _ _
    have hkeep := h.keep_le
    have hsta := h.bufStart_lt
    have hpos := h.nextLsn_mod (by omega)
    obtain ⟨file, hfile, -, -, hwr, -⟩ := h.lastFile
    have hroom := h.room
    rw [flushBufLsn, if_neg hnone]
    simp only [htoflush]
    generalize st.toFlush ulsn = n at hle ⊢
    have htake := take_pending cfg hle
    by_cases hone : st.info.bufStart + n ≤ cfg.bufSize
    · rw [if_pos hone]
      refine ⟨hle, ?_, rfl, fun f hf => ?_, fun k hk => put_disk_other hk, fun disk hd => ?_⟩
      · rw [wrap_eq_mod hone]
      · rw [htake, contents_eq_read _ hone]
        have hstep := put_disk_self cfg _ (st.info.nextLsn % cfg.chunkSize)
          (read st.buffer st.info.bufStart n) hf
        rw [hpos, Nat.add_sub_cancel_left] at hstep
        rw [hpos]
        exact hstep
      · rcases mem_cons.1 hd with rfl | hd
        · rw [hpos]
          exact .inr ((WrittenBehind.refl h).body le_rfl (by rw [length_read]; omega))
        · exact .inl hd
    · rw [if_neg hone]
      refine ⟨hle, ?_, rfl, fun f hf => ?_, fun k hk => ?_, fun disk hd => ?_⟩
      · rw [sub_rest_eq_mod hsta (by omega) (by omega)]
      · obtain rfl : file = f := some.inj (hfile.symm.trans hf)
        have hfst := put_disk_self cfg _ (cfg.sectorSize + st.written cfg)
          (read st.buffer st.info.bufStart (cfg.bufSize - st.info.bufStart)) hf
        have hsnd := put_disk_self cfg _
          (cfg.sectorSize + st.written cfg + (cfg.bufSize - st.info.bufStart))
          (read st.buffer 0 (n - (cfg.bufSize - st.info.bufStart))) hfst
        have hoffs : st.written cfg + (cfg.bufSize - st.info.bufStart) = st.written cfg +
            (read st.buffer st.info.bufStart (cfg.bufSize - st.info.bufStart)).length := by
          rw [length_read]
        rw [Nat.add_sub_cancel_left, add_assoc, Nat.add_sub_cancel_left, hoffs,
          writeAt_writeAt hwr, ← add_assoc, length_read] at hsnd
        rw [htake, contents_eq_read_append _ hsta (by omega) (by omega), hpos]
        exact hsnd
      · exact (put_disk_other hk).trans (put_disk_other hk)
      · -- a crash may come between the two parts
        rw [hpos] at hd
        have hfst : WrittenBehind cfg st (st.put cfg (.body st.info.lastFileNum
            (cfg.sectorSize + st.written cfg)
            (read st.buffer st.info.bufStart (cfg.bufSize - st.info.bufStart)))).disk :=
          (WrittenBehind.refl h).body le_rfl (by rw [length_read]; omega)
        rcases mem_cons.1 hd with rfl | hd
        · rw [add_assoc]
          exact .inr (hfst.body (Nat.le_add_right _ _) (by rw [length_read]; omega))
        · rcases mem_cons.1 hd with rfl | hd
          · exact .inr hfst
          · exact .inl hd

section

variable {st' : Storage η} {n : Nat} (hf : Flushed cfg st st' n)
include hf

theorem Flushed.lastFileNum : st'.info.lastFileNum = st.info.lastFileNum := by
  rw [hf.info]

theorem Flushed.firstFileNum : st'.info.firstFileNum = st.info.firstFileNum := by
  rw [hf.info]

theorem Flushed.written_eq (h : Stores cfg st recs) : st'.written cfg = st.written cfg + n := by
  have hsta := h.start_le
  rw [written, written, hf.info]
  show st.info.nextLsn + n - startOf cfg st.info.lastFileNum = _
  omega

theorem Flushed.pending_eq : st'.pending cfg = (st.pending cfg).drop n := by
  rw [drop_pending cfg hf.le, pending, hf.info, hf.buffer]

theorem Flushed.high_eq : st'.lfsGetHighLSNBoundary = st.lfsGetHighLSNBoundary := by
  have hle := hf.le
  rw [lfsGetHighLSNBoundary, lfsGetHighLSNBoundary, hf.info]
  show st.info.nextLsn + n + (st.info.bufKeepBytes - n) = _
  omega

theorem Flushed.stores (h : Stores cfg st recs)
    (hbd : ∃ done todo, recs st.info.lastFileNum = done ++ todo ∧
      done.flatten.length = st.written cfg + n) : Stores cfg st' recs := by
  have hle := hf.le
  have hinfo := hf.info
  have hnum := hf.lastFileNum
  have hfirstNum := hf.firstFileNum
  obtain ⟨file, hfile, hhdr, hsize, hwr, hflat⟩ := h.lastFile
  have hfile' := hf.file file hfile
  have htake : ((st.pending cfg).take n).length = n := by rw [take_pending cfg hle, length_contents]
  have hkeep := h.keep_le
  have hhigh := h.high_le
  have hsta := h.start_le
  have hroom := h.room
  have hnext : st'.info.nextLsn = st.info.nextLsn + n := by rw [hinfo]
  have hkeep' : st'.info.bufKeepBytes = st.info.bufKeepBytes - n := by rw [hinfo]
  refine
    { bufStart_lt := ?_, keep_le := by omega, bufOffset_eq := ?_,
      first_pos := hfirstNum ▸ h.first_pos,
      first_le := by rw [hfirstNum, hnum]; exact h.first_le, file := ?_,
      start_le := by rw [hnum]; omega, high_le := by rw [hnum]; omega, old := ?_,
      last := ?_, boundary := ?_, nonempty := h.nonempty }
  · rw [hinfo]
    exact Nat.mod_lt _ cfg.buf_pos
  · rw [hinfo]
    rw [h.bufOffset_eq, Nat.mod_add_mod, add_assoc, Nat.add_sub_cancel' hle]
  · intro k hk hk'
    rw [hfirstNum] at hk
    rw [hnum] at hk'
    by_cases hlast : k = st.info.lastFileNum
    · subst hlast
      refine ⟨_, hfile', hhdr, ?_⟩
      rw [length_writeAt]
      omega
    · obtain ⟨f, hf', hrest⟩ := h.file k hk hk'
      exact ⟨f, (hf.other k hlast).trans hf', hrest⟩
  · intro k hk hk' f hf'
    rw [hfirstNum] at hk
    rw [hnum] at hk'
    rw [hf.other k (ne_of_lt hk')] at hf'
    exact h.old k hk hk' f hf'
  · intro f hf'
    rw [hnum, hfile', some.injEq] at hf'
    subst hf'
    rw [hf.written_eq h, hf.pending_eq, hnum, length_writeAt, htake]
    refine ⟨le_max_right _ _, ?_⟩
    have hfront := take_writeAt ((st.pending cfg).take n) hwr
    rw [htake] at hfront
    rw [hfront, append_assoc, take_append_drop, hflat]
  · obtain ⟨done, todo, hcut, hlen⟩ := hbd
    exact ⟨done, todo, by rw [hnum, hcut], by rw [hlen, hf.written_eq h]⟩

end

/-- An LSN up to which the buffer may be flushed: it is no place inside of a record
that is still in the buffer. -/
def Boundary (cfg : Config) (st : Storage η) (recs : Nat → List Bytes) (ulsn : Nat) : Prop :=
  ulsn ≤ st.info.nextLsn ∨ st.lfsGetHighLSNBoundary ≤ ulsn ∨
    ∃ done todo, recs st.info.lastFileNum = done ++ todo ∧
      startOf cfg st.info.lastFileNum + done.flatten.length = ulsn

theorem Boundary.cut {ulsn : Nat} (hbd : Boundary cfg st recs ulsn) (h : Stores cfg st recs) :
    ∃ done todo, recs st.info.lastFileNum = done ++ todo ∧
      done.flatten.length = st.written cfg + st.toFlush ulsn := by
  have hsta := h.start_le
  have hlen := h.length_last
  by_cases hold : ulsn ≤ st.info.nextLsn
  · have hzero : st.toFlush ulsn = 0 := by
      unfold toFlush
      omega
    rw [hzero]
    exact h.boundary
  · rcases hbd with hdone | hall | ⟨done, todo, hcut, hlsn⟩
    · exact absurd hdone hold
    · have hkeep : st.toFlush ulsn = st.info.bufKeepBytes := by
        unfold toFlush
        unfold lfsGetHighLSNBoundary at hall
        omega
      rw [hkeep]
      exact ⟨recs st.info.lastFileNum, [], by simp, hlen⟩
    · have hdone : done.flatten.length ≤ (recs st.info.lastFileNum).flatten.length := by
        rw [hcut, flatten_append, length_append]
        exact Nat.le_add_right _ _
      refine ⟨done, todo, hcut, ?_⟩
      unfold toFlush written
      unfold written at hlen
      omega

theorem boundary_high (cfg : Config) (st : Storage η) (recs : Nat → List Bytes) :
    Boundary cfg st recs (st.info.nextLsn + st.info.bufKeepBytes) :=
  .inr (.inl le_rfl)

/-! ## Another file -/

theorem startOf_succ (cfg : Config) (k : Nat) :
    startOf cfg (k + 1) = k * cfg.chunkSize + cfg.sectorSize := by
  rw [startOf, Nat.add_sub_cancel]

structure Extended (cfg : Config) (st st' : Storage η) : Prop where
  info : st'.info = { st.info with
    lastFileNum := st.info.lastFileNum + 1
    nextLsn := startOf cfg (st.info.lastFileNum + 1) }
  buffer : st'.buffer = st.buffer
  file : ∃ header user, (st.disk st.info.lastFileNum).bind LogFile.header = some (header, user) ∧
    st'.disk (st.info.lastFileNum + 1) = some
      { header := some ({ nextLsn := startOf cfg (st.info.lastFileNum + 1)
                          firstFileNum := st.info.firstFileNum }, user)
        body := [] }
  other : ∀ k, k ≠ st.info.lastFileNum + 1 → st'.disk k = st.disk k
  past : ∀ disk ∈ st'.past, disk ∈ st.past ∨ disk = st'.disk ∨
    (∀ k, k ≠ st.info.lastFileNum + 1 → disk k = st.disk k) ∧
      (disk (st.info.lastFileNum + 1)).bind LogFile.header = none

theorem Extended.lastFileNum (he : Extended cfg st st') :
    st'.info.lastFileNum = st.info.lastFileNum + 1 := by
  rw [he.info]

theorem Extended.firstFileNum (he : Extended cfg st st') :
    st'.info.firstFileNum = st.info.firstFileNum := by
  rw [he.info]

section

variable (h : Stores cfg st recs)
include h

theorem lfsExtend_extended : ∃ st', lfsExtend cfg st = some st' ∧ Extended cfg st st' := by
  obtain ⟨f, hf, hhdr, -⟩ := h.lastFile
  obtain ⟨⟨header, user⟩, hhdr⟩ := isSome_iff_exists.1 hhdr
  have hbind : (st.disk st.info.lastFileNum).bind LogFile.header = some (header, user) := by
    rw [hf]
    exact hhdr
  obtain ⟨st', hst'⟩ : ∃ st', lfsExtend cfg st = some st' := by simp [lfsExtend, hbind]
  refine ⟨st', hst', ?_⟩
  rw [lfsExtend, hbind, some.injEq] at hst'
  subst hst'
  refine ⟨?_, rfl, ⟨header, user, hbind, ?_⟩, fun k hk => ?_, fun disk hd => ?_⟩
  · rfl
  · simp [put, apply, startOf_succ]
  · simp [put, apply, hk]
  · rcases mem_cons.1 hd with rfl | hd
    · exact .inr (.inl rfl)
    · rcases mem_cons.1 hd with rfl | hd
      · exact .inr (.inr ⟨fun k hk => update_of_ne hk _ _,
          by simp [apply]⟩)
      · exact .inl hd

theorem Extended.stores (he : Extended cfg st st') (hkeep : st.info.bufKeepBytes = 0) :
    Stores cfg st' (Function.update recs (st.info.lastFileNum + 1) []) := by
  have hinfo := he.info
  have hnum := he.lastFileNum
  have hfirstNum := he.firstFileNum
  have hnext : st'.info.nextLsn = startOf cfg (st.info.lastFileNum + 1) := by rw [hinfo]
  have hkeep' : st'.info.bufKeepBytes = 0 := by
    rw [hinfo]
    exact hkeep
  have hsta' : st'.info.bufStart = st.info.bufStart := by rw [hinfo]
  have hwr : st'.written cfg = 0 := by rw [written, hnum, hnext, Nat.sub_self]
  have hpend : st'.pending cfg = [] := by rw [pending, hkeep', contents_zero]
  obtain ⟨header, user, -, hfile⟩ := he.file
  have hfst := h.first_le
  have hsector := cfg.sector_le
  refine
    { bufStart_lt := hsta' ▸ h.bufStart_lt, keep_le := by omega, bufOffset_eq := ?_,
      first_pos := hfirstNum ▸ h.first_pos, first_le := by omega, file := ?_,
      start_le := by rw [hnum, hnext], high_le := ?_, old := ?_,
      last := ?_, boundary := ?_, nonempty := ?_ }
  · rw [hinfo]
    exact h.bufOffset_eq
  · intro k hk hk'
    rw [hfirstNum] at hk
    by_cases hlast : k = st.info.lastFileNum + 1
    · rw [hlast]
      exact ⟨_, hfile, rfl, Nat.zero_le _⟩
    · obtain ⟨f, hf, hrest⟩ := h.file k hk (by omega)
      exact ⟨f, (he.other k hlast).trans hf, hrest⟩
  · rw [hnext, hnum, startOf_succ, Nat.succ_mul]
    omega
  · intro k hk hk' f hf
    rw [hfirstNum] at hk
    rw [he.other k (by omega)] at hf
    rw [update_of_ne (by omega)]
    by_cases hlast : k = st.info.lastFileNum
    · -- the file that is left: all of its records have been written
      subst hlast
      obtain ⟨-, hflat⟩ := h.last f hf
      rw [pending, hkeep, contents_zero, append_nil] at hflat
      rw [← hflat]
      exact take_prefix _ _
    · exact h.old k hk (by omega) f hf
  · intro f hf
    rw [hnum, hfile, some.injEq] at hf
    subst hf
    rw [hwr, hpend, hnum, update_self]
    exact ⟨le_refl _, rfl⟩
  · rw [hnum, update_self, hwr]
    exact ⟨[], [], rfl, rfl⟩
  · intro k b hb
    by_cases hlast : k = st.info.lastFileNum + 1
    · rw [hlast, update_self] at hb
      exact absurd hb not_mem_nil
    · rw [update_of_ne hlast] at hb
      exact h.nonempty k b hb

/-! ## A record in the buffer -/

structure Buffered (cfg : Config) (rec : Bytes) (st st' : Storage η) : Prop where
  disk : st'.disk = st.disk
  past : st'.past = st.past
  info : st'.info = { st.info with
    bufOffset := (st.info.bufOffset + rec.length) % cfg.bufSize
    bufKeepBytes := st.info.bufKeepBytes + rec.length }
  pending : st'.pending cfg = st.pending cfg ++ rec

omit h in
theorem Buffered.lastFileNum (hb : Buffered cfg rec st st') :
    st'.info.lastFileNum = st.info.lastFileNum := by
  rw [hb.info]

omit h in
theorem Buffered.firstFileNum (hb : Buffered cfg rec st st') :
    st'.info.firstFileNum = st.info.firstFileNum := by
  rw [hb.info]

theorem copyToBuffer_buffered (hroom : st.info.bufKeepBytes + rec.length ≤ cfg.bufSize) :
    Buffered cfg rec st (copyToBuffer cfg rec st) := by
  have hsta := h.bufStart_lt
  have hoff := h.bufOffset_eq
  have hlt : st.info.bufOffset < cfg.bufSize := by
    rw [hoff]
    exact Nat.mod_lt _ cfg.buf_pos
  have hwrap : st.info.bufOffset = st.info.bufStart + st.info.bufKeepBytes ∨
      st.info.bufOffset + cfg.bufSize = st.info.bufStart + st.info.bufKeepBytes := by
    by_cases hlt' : st.info.bufStart + st.info.bufKeepBytes < cfg.bufSize
    · exact .inl (by rw [hoff, Nat.mod_eq_of_lt hlt'])
    · refine .inr ?_
      rw [hoff, Nat.mod_eq_sub_mod (by omega), Nat.mod_eq_of_lt (by omega)]
      omega
  unfold copyToBuffer
  by_cases hone : st.info.bufOffset < st.info.bufStart ∨
      rec.length ≤ cfg.bufSize - st.info.bufOffset
  · have hfit : st.info.bufOffset + rec.length ≤ cfg.bufSize := by omega
    simp only [if_pos hone]
    refine ⟨rfl, rfl, ?_, contents_write _ _ hsta hoff.symm hroom hfit⟩
    rw [wrap_eq_mod hfit]
  · simp only [if_neg hone]
    have hfst : (rec.take (cfg.bufSize - st.info.bufOffset)).length =
        cfg.bufSize - st.info.bufOffset := by
      rw [length_take]
      omega
    have hsnd : (rec.drop (cfg.bufSize - st.info.bufOffset)).length =
        rec.length - (cfg.bufSize - st.info.bufOffset) := length_drop
    refine ⟨rfl, rfl, ?_, ?_⟩
    · rw [sub_rest_eq_mod hlt (by omega) (by omega)]
    · -- first up to the end of the memory, then from its beginning
      have hpart := contents_write st.buffer (rec.take (cfg.bufSize - st.info.bufOffset))
        hsta hoff.symm (by omega) (by omega)
      have hzero : (st.info.bufStart + (st.info.bufKeepBytes +
          (rec.take (cfg.bufSize - st.info.bufOffset)).length)) % cfg.bufSize = 0 := by
        rw [← add_assoc, ← Nat.mod_add_mod, ← hoff, hfst,
          Nat.add_sub_cancel' (le_of_lt hlt), Nat.mod_self]
      have hrest := contents_write
        (write st.buffer st.info.bufOffset (rec.take (cfg.bufSize - st.info.bufOffset)))
        (rec.drop (cfg.bufSize - st.info.bufOffset)) hsta hzero (by omega) (by omega)
      have hlen : st.info.bufKeepBytes + rec.length = st.info.bufKeepBytes +
          (rec.take (cfg.bufSize - st.info.bufOffset)).length +
            (rec.drop (cfg.bufSize - st.info.bufOffset)).length := by omega
      rw [hpart, append_assoc, take_append_drop] at hrest
      rw [hlen]
      exact hrest

theorem Buffered.stores (hb : Buffered cfg rec st st') (hne : rec ≠ [])
    (hroom : st.info.bufKeepBytes + rec.length ≤ cfg.bufSize)
    (hfit : st.lfsGetHighLSNBoundary + rec.length ≤ st.info.lastFileNum * cfg.chunkSize) :
    Stores cfg st' (Function.update recs st.info.lastFileNum
      (recs st.info.lastFileNum ++ [rec])) := by
  have hinfo := hb.info
  have hnum := hb.lastFileNum
  have hfirstNum := hb.firstFileNum
  have hnext : st'.info.nextLsn = st.info.nextLsn := by rw [hinfo]
  have hkeep : st'.info.bufKeepBytes = st.info.bufKeepBytes + rec.length := by rw [hinfo]
  have hsta : st'.info.bufStart = st.info.bufStart := by rw [hinfo]
  have hwr : st'.written cfg = st.written cfg := by rw [written, written, hnum, hnext]
  unfold lfsGetHighLSNBoundary at hfit
  refine
    { bufStart_lt := hsta ▸ h.bufStart_lt, keep_le := by omega, bufOffset_eq := ?_,
      first_pos := hfirstNum ▸ h.first_pos,
      first_le := by rw [hfirstNum, hnum]; exact h.first_le, file := ?_,
      start_le := by rw [hnum, hnext]; exact h.start_le, high_le := by rw [hnum]; omega,
      old := ?_, last := ?_, boundary := ?_, nonempty := ?_ }
  · rw [hinfo]
    rw [h.bufOffset_eq, Nat.mod_add_mod, add_assoc]
  · intro k hk hk'
    rw [hb.disk]
    exact h.file k (hfirstNum ▸ hk) (hnum ▸ hk')
  · intro k hk hk' f hf
    rw [hnum] at hk'
    rw [hb.disk] at hf
    rw [update_of_ne (ne_of_lt hk')]
    exact h.old k (hfirstNum ▸ hk) hk' f hf
  · intro f hf
    rw [hb.disk, hnum] at hf
    obtain ⟨hle, hflat⟩ := h.last f hf
    rw [hwr, hb.pending, hnum, ← append_assoc, hflat]
    exact ⟨hle, by simp⟩
  · obtain ⟨done, todo, hcut, hlen⟩ := h.boundary
    refine ⟨done, todo ++ [rec], ?_, by rw [hwr, hlen]⟩
    rw [hnum, update_self, hcut, append_assoc]
  · intro k b hmem
    by_cases hlast : k = st.info.lastFileNum
    · rw [hlast, update_self] at hmem
      rcases mem_append.1 hmem with hmem | hmem
      · exact h.nonempty _ b hmem
      · rw [mem_singleton.1 hmem]
        exact hne
    · rw [update_of_ne hlast] at hmem
      exact h.nonempty k b hmem

end

/-! ## Headers -/

structure Headed (st st' : Storage η) : Prop where
  info : st'.info = st.info
  buffer : st'.buffer = st.buffer
  file : ∀ k f, st.disk k = some f → ∃ f', st'.disk k = some f' ∧ f'.body = f.body ∧
    (f.header.isSome → f'.header.isSome)
  none : ∀ k, st.disk k = none → st'.disk k = none
  lastHeader : ∀ f f', st.disk st.info.lastFileNum = some f →
    st'.disk st.info.lastFileNum = some f' → f'.header = f.header ∨
      ∃ user, f'.header = some ({ nextLsn := st.info.nextLsn
                                  firstFileNum := st.info.firstFileNum }, user)
  behind : ∀ k, st.info.lastFileNum < k → st'.disk k = st.disk k
  past : ∀ disk ∈ st'.past, disk ∈ st.past ∨ disk = st'.disk

theorem Headed.refl (st : Storage η) : Headed st st := by
  refine ⟨rfl, rfl, fun k f hf => ⟨f, hf, rfl, id⟩, fun _ hf => hf, fun f f' hf hf' => ?_,
    fun _ _ => rfl, fun _ hd => .inl hd⟩
  rw [some.inj (hf.symm.trans hf')]
  exact .inl rfl

theorem put_header_headed {lfsHeader : LfsHeader} {user : η} (hle : n ≤ st.info.lastFileNum)
    (hn : n = st.info.lastFileNum → lfsHeader =
      { nextLsn := st.info.nextLsn, firstFileNum := st.info.firstFileNum }) :
    Headed st (st.put cfg (.header n lfsHeader user)) := by
  refine ⟨rfl, rfl, fun k f hf => ?_, fun k hf => ?_, fun f f' hf hf' => ?_, fun k hlt => ?_,
    fun disk hd => (mem_cons.1 hd).symm⟩
  · by_cases hk : k = n
    · subst hk
      exact ⟨{ f with header := some (lfsHeader, user) }, by simp [put, apply, hf], rfl,
        fun _ => rfl⟩
    · exact ⟨f, by simp [put, apply, hk, hf], rfl, id⟩
  · by_cases hk : k = n
    · subst hk
      simp [put, apply, hf]
    · simp [put, apply, hk, hf]
  · by_cases hk : n = st.info.lastFileNum
    · refine .inr ⟨user, ?_⟩
      subst hk
      simp only [put, apply, update_self, hf, map_some, some.injEq] at hf'
      rw [← hf', hn rfl]
    · refine .inl ?_
      simp only [put, apply, update_of_ne (Ne.symm hk), hf, some.injEq] at hf'
      rw [hf']
  · exact update_of_ne (by omega) _ _

theorem Headed.back (hh : Headed st st') {f' : LogFile η} (hf' : st'.disk k = some f') :
    ∃ f, st.disk k = some f ∧ f'.body = f.body := by
  cases hf : st.disk k with
  | none => rw [hh.none k hf] at hf'; cases hf'
  | some f =>
    obtain ⟨f'', hf'', hbody, -⟩ := hh.file k f hf
    rw [hf', some.injEq] at hf''
    exact ⟨f, rfl, hf'' ▸ hbody⟩

theorem Headed.stores (h : Stores cfg st recs) (hh : Headed st st') : Stores cfg st' recs := by
  have hwr : st'.written cfg = st.written cfg := by rw [written, written, hh.info]
  have hpend : st'.pending cfg = st.pending cfg := by rw [pending, pending, hh.info, hh.buffer]
  have hinfo := hh.info
  refine
    { bufStart_lt := by rw [hinfo]; exact h.bufStart_lt, keep_le := by rw [hinfo]; exact h.keep_le,
      bufOffset_eq := by rw [hinfo]; exact h.bufOffset_eq,
      first_pos := by rw [hinfo]; exact h.first_pos, first_le := by rw [hinfo]; exact h.first_le,
      file := ?_, start_le := by rw [hinfo]; exact h.start_le,
      high_le := by rw [hinfo]; exact h.high_le, old := ?_, last := ?_,
      boundary := by rw [hinfo, hwr]; exact h.boundary, nonempty := h.nonempty }
  · intro k hk hk'
    rw [hinfo] at hk hk'
    obtain ⟨f, hf, hhdr, hsize⟩ := h.file k hk hk'
    obtain ⟨f', hf', hbody, hhdr'⟩ := hh.file k f hf
    exact ⟨f', hf', hhdr' hhdr, hbody ▸ hsize⟩
  · intro k hk hk' f' hf'
    rw [hinfo] at hk hk'
    obtain ⟨f, hf, hbody⟩ := hh.back hf'
    rw [hbody]
    exact h.old k hk hk' f hf
  · intro f' hf'
    rw [hinfo] at hf'
    obtain ⟨f, hf, hbody⟩ := hh.back hf'
    rw [hwr, hpend, hbody, hinfo]
    exact h.last f hf

/-! ## Calls as steps -/

inductive LogStep (cfg : Config) (st : Storage η) (recs : Nat → List Bytes) :
    List (Nat × Bytes) → Storage η → (Nat → List Bytes) → Prop
  | flush {st' : Storage η} {n : Nat} (hf : Flushed cfg st st' n)
      (hbd : ∃ done todo, recs st.info.lastFileNum = done ++ todo ∧
        done.flatten.length = st.written cfg + n) : LogStep cfg st recs [] st' recs
  | extend {st' : Storage η} (he : Extended cfg st st') (hkeep : st.info.bufKeepBytes = 0)
      (hused : ∀ f, st.disk st.info.lastFileNum = some f → f.body ≠ []) :
      LogStep cfg st recs [] st' (Function.update recs (st.info.lastFileNum + 1) [])
  | buffer {st' : Storage η} {rec : Bytes} (hb : Buffered cfg rec st st') (hne : rec ≠ [])
      (hroom : st.info.bufKeepBytes + rec.length ≤ cfg.bufSize)
      (hfit : st.lfsGetHighLSNBoundary + rec.length ≤ st.info.lastFileNum * cfg.chunkSize) :
      LogStep cfg st recs [(st.lfsGetHighLSNBoundary, rec)] st'
        (Function.update recs st.info.lastFileNum (recs st.info.lastFileNum ++ [rec]))

inductive LogSteps (cfg : Config) (st : Storage η) (recs : Nat → List Bytes) :
    List (Nat × Bytes) → Storage η → (Nat → List Bytes) → Prop
  | refl : LogSteps cfg st recs [] st recs
  | tail {st' st'' : Storage η} {recs' recs'' : Nat → List Bytes} {new more : List (Nat × Bytes)}
      (hsteps : LogSteps cfg st recs new st' recs')
      (hstep : LogStep cfg st' recs' more st'' recs'') :
      LogSteps cfg st recs (new ++ more) st'' recs''

theorem LogStep.stores (h : Stores cfg st recs) (hstep : LogStep cfg st recs new st' recs') :
    Stores cfg st' recs' := by
  cases hstep with
  | flush hf hbd => exact hf.stores h hbd
  | extend he hkeep hused => exact he.stores h hkeep
  | buffer hb hne hroom hfit => exact hb.stores h hne hroom hfit

theorem LogSteps.stores (h : Stores cfg st recs) (hsteps : LogSteps cfg st recs new st' recs') :
    Stores cfg st' recs' := by
  induction hsteps with
  | refl => exact h
  | tail _ hstep ih => exact hstep.stores ih

theorem LogSteps.trans {st'' : Storage η} {recs'' : Nat → List Bytes} {more : List (Nat × Bytes)}
    (hfst : LogSteps cfg st recs new st' recs')
    (hsnd : LogSteps cfg st' recs' more st'' recs'') :
    LogSteps cfg st recs (new ++ more) st'' recs'' := by
  induction hsnd with
  | refl => simpa using hfst
  | tail _ hstep ih =>
    rw [← append_assoc]
    exact ih.tail hstep

theorem LogStep.steps (hstep : LogStep cfg st recs new st' recs') :
    LogSteps cfg st recs new st' recs' := by
  simpa using LogSteps.refl.tail hstep

section

variable (h : Stores cfg st recs)
include h

theorem Stores.flush_step {ulsn : Nat} (hbd : Boundary cfg st recs ulsn) :
    LogStep cfg st recs [] (flushBufLsn cfg ulsn st) recs :=
  .flush (flushBufLsn_flushed h ulsn) (hbd.cut h)

theorem flushAll_info :
    let st' := flushBufLsn cfg (st.info.nextLsn + st.info.bufKeepBytes) st
    st'.info.bufKeepBytes = 0 ∧ st'.info.lastFileNum = st.info.lastFileNum ∧
      st'.info.firstFileNum = st.info.firstFileNum ∧
      st'.info.nextLsn = st.lfsGetHighLSNBoundary := by
  have hfl := flushBufLsn_flushed h (st.info.nextLsn + st.info.bufKeepBytes)
  have hall : st.toFlush (st.info.nextLsn + st.info.bufKeepBytes) = st.info.bufKeepBytes := by
    unfold toFlush
    omega
  rw [hall] at hfl
  have hinfo := hfl.info
  refine ⟨?_, by rw [hinfo], by rw [hinfo], by rw [hinfo]; rfl⟩
  rw [hinfo]
  exact Nat.sub_self _

theorem roomInFile_steps (hchunk : cfg.sectorSize + rec.length ≤ cfg.chunkSize) :
    ∃ st' recs', roomInFile cfg rec st = some st' ∧ LogSteps cfg st recs [] st' recs' ∧
      st'.lfsGetHighLSNBoundary + rec.length ≤ st'.info.lastFileNum * cfg.chunkSize := by
  have hoffs : fileOffsOf cfg (st.info.nextLsn + st.info.bufKeepBytes) =
      st.lfsGetHighLSNBoundary - (st.info.lastFileNum - 1) * cfg.chunkSize :=
    fileOffsOf_eq h.last_pos (le_trans h.start_le (Nat.le_add_right _ _)) h.high_le
  have hpred := pred_mul_chunk cfg h.last_pos
  have hhigh := h.high_le
  unfold roomInFile
  by_cases hfull : cfg.chunkSize - fileOffsOf cfg (st.info.nextLsn + st.info.bufKeepBytes) <
      rec.length
  · have hflush := h.flush_step (boundary_high cfg st recs)
    obtain ⟨hkeep, hlast, -, hnext⟩ := flushAll_info h
    have hfl := hflush.stores h
    obtain ⟨st', hst', hextended⟩ := lfsExtend_extended hfl
    have hused : ∀ f, (flushBufLsn cfg (st.info.nextLsn + st.info.bufKeepBytes) st).disk
        (flushBufLsn cfg (st.info.nextLsn + st.info.bufKeepBytes) st).info.lastFileNum = some f →
          f.body ≠ [] := by
      intro f hf hnil
      have hle := (hfl.last f hf).1
      rw [hnil, written, hlast, length_nil] at hle
      unfold startOf at hle
      omega
    refine ⟨st', _, by rw [if_pos hfull, hst'], hflush.steps.tail (.extend hextended hkeep hused),
      ?_⟩
    have hnew := hextended.info
    have hlast' : st'.info.lastFileNum = st.info.lastFileNum + 1 := by rw [hnew, hlast]
    have hhigh' : st'.lfsGetHighLSNBoundary = startOf cfg (st.info.lastFileNum + 1) := by
      rw [lfsGetHighLSNBoundary, hnew]
      rw [hkeep, hlast, add_zero]
    rw [hhigh', hlast', startOf_succ, Nat.succ_mul]
    omega
  · refine ⟨st, recs, by rw [if_neg hfull], .refl, ?_⟩
    rw [hoffs] at hfull
    unfold lfsGetHighLSNBoundary at hfull ⊢
    omega

theorem roomInBuffer_steps (hbuf : rec.length ≤ cfg.bufSize) :
    LogSteps cfg st recs [] (roomInBuffer cfg rec st) recs ∧
      (roomInBuffer cfg rec st).info.bufKeepBytes + rec.length ≤ cfg.bufSize ∧
      (roomInBuffer cfg rec st).lfsGetHighLSNBoundary = st.lfsGetHighLSNBoundary ∧
      (roomInBuffer cfg rec st).info.lastFileNum = st.info.lastFileNum := by
  have hkeep := h.keep_le
  unfold roomInBuffer
  by_cases hfull : cfg.bufSize - st.info.bufKeepBytes < rec.length
  · rw [if_pos hfull]
    obtain ⟨hzero, hlast, -, hnext⟩ := flushAll_info h
    refine ⟨(h.flush_step (boundary_high cfg st recs)).steps, by omega, ?_, hlast⟩
    rw [lfsGetHighLSNBoundary, hzero, hnext, add_zero]
  · rw [if_neg hfull]
    exact ⟨.refl, by omega, rfl, rfl⟩

theorem lfsAppendRecord_steps (hne : rec ≠ []) (hbuf : rec.length ≤ cfg.bufSize)
    (hchunk : cfg.sectorSize + rec.length ≤ cfg.chunkSize) :
    ∃ lsn st' recs', lfsAppendRecord cfg rec st = some (lsn, st') ∧
      LogSteps cfg st recs [(lsn, rec)] st' recs' := by
  obtain ⟨mid, recs', hmid, hsteps, hfit⟩ := roomInFile_steps h hchunk
  have hst := hsteps.stores h
  obtain ⟨hflush, hroom, hhigh, hlast⟩ := roomInBuffer_steps hst hbuf
  have hbuffered := copyToBuffer_buffered (hflush.stores hst) hroom
  have happend : LogSteps cfg st recs [((roomInBuffer cfg rec mid).lfsGetHighLSNBoundary, rec)]
      (copyToBuffer cfg rec (roomInBuffer cfg rec mid)) _ :=
    (hsteps.trans hflush).tail (.buffer hbuffered hne hroom (by rw [hhigh, hlast]; exact hfit))
  exact ⟨_, _, _, by rw [lfsAppendRecord, hmid]; rfl, happend⟩

theorem lfsFlush_steps {ulsn : Nat} (hbd : Boundary cfg st recs ulsn) :
    LogSteps cfg st recs [] (lfsFlush cfg ulsn st) recs :=
  (h.flush_step hbd).steps

theorem lfsFlushAll_steps : LogSteps cfg st recs [] (lfsFlushAll cfg st) recs :=
  (h.flush_step (boundary_high cfg st recs)).steps

end

theorem lfsWriteHeader_headed (user : η) : Headed st (lfsWriteHeader cfg user st) :=
  put_header_headed le_rfl fun _ => rfl

theorem lfsArchiveCurrentFile_steps (h : Stores cfg st recs) (user : Option η) :
    ∃ num st' mid recs', lfsArchiveCurrentFile cfg user st = some (num, st') ∧
      LogSteps cfg st recs [] mid recs' ∧ Headed mid st' ∧
      st'.disk st'.info.lastFileNum = mid.disk st'.info.lastFileNum := by
  have hflush := h.flush_step (boundary_high cfg st recs)
  obtain ⟨hkeep, -, -, -⟩ := flushAll_info h
  have hfl := hflush.stores h
  obtain ⟨f, hf, hhdr, -⟩ := hfl.lastFile
  unfold lfsArchiveCurrentFile
  simp only [hf]
  by_cases hsize : cfg.sectorSize < f.size cfg
  · obtain ⟨st', hst', hextended⟩ := lfsExtend_extended hfl
    have hused : ∀ g, (flushBufLsn cfg (st.info.nextLsn + st.info.bufKeepBytes) st).disk
        (flushBufLsn cfg (st.info.nextLsn + st.info.bufKeepBytes) st).info.lastFileNum = some g →
          g.body ≠ [] := by
      intro g hg hnil
      obtain rfl : f = g := some.inj (hf.symm.trans hg)
      rw [size, hnil] at hsize
      split at hsize
      · exact lt_irrefl _ hsize
      · exact Nat.not_lt_zero _ hsize
    have hsteps := hflush.steps.tail (.extend hextended hkeep hused)
    rw [if_pos hsize, hst']
    cases user with
    | none => exact ⟨_, st', st', _, rfl, hsteps, .refl st', rfl⟩
    | some user =>
      have hlast : st'.info.lastFileNum =
          (flushBufLsn cfg (st.info.nextLsn + st.info.bufKeepBytes) st).info.lastFileNum + 1 := by
        rw [hextended.info]
      obtain ⟨⟨header, user'⟩, hhdr⟩ := isSome_iff_exists.1 hhdr
      have hbind : (st'.disk (st'.info.lastFileNum - 1)).bind LogFile.header =
          some (header, user') := by
        rw [hlast, Nat.add_sub_cancel, hextended.other _ (by omega), hf]
        exact hhdr
      have hold : st'.info.lastFileNum - 1 ≠ st'.info.lastFileNum := by omega
      simp only [hbind]
      refine ⟨_, _, st', _, rfl, hsteps,
        put_header_headed (Nat.sub_le _ _) fun heq => absurd heq hold, ?_⟩
      exact update_of_ne (Ne.symm hold) _ _
  · rw [if_neg hsize]
    exact ⟨_, _, _, _, rfl, hflush.steps, .refl _, rfl⟩

end Storage

end Sedna.Log
