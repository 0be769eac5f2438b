import Sedna.Library.RingBuffer
import Sedna.Log.Records

/-!
# The linear file storage

The functions of `lfsStorage.cpp`: a chain of numbered files of at most `chunkSize` bytes, each
with its header in the first sector, and a write buffer.  The byte at offset `o` of file `n` has
the LSN `(n - 1) * chunkSize + o`.  `past` remembers every content the files have had: a crash
leaves one of them.
-/

namespace Sedna.Log

open Library.RingBuffer

/-- The sizes that stay the same while a log is open.  The buffer sizes are `int`
parameters of `lfsInit`. -/
structure Config where
  sectorSize : Nat
  chunkSize : Nat
  bufSize : Nat
  readBufSize : Nat
  sector_pos : 0 < sectorSize
  sector_le : sectorSize ≤ chunkSize
  buf_pos : 0 < bufSize
  buf_lt : bufSize < 2 ^ 31

/-- `lfsHeader_t`; the chunk size that it also holds is that of the configuration. -/
structure LfsHeader where
  nextLsn : Nat
  firstFileNum : Nat
  deriving DecidableEq

/-- A file: the header sector, unless it has not been written yet, and the bytes
behind it.  `η` is the header of the user of the storage. -/
structure LogFile (η : Type*) where
  header : Option (LfsHeader × η)
  body : Bytes
  deriving DecidableEq

abbrev Disk (η : Type*) := Nat → Option (LogFile η)

structure LfsInfo where
  nextLsn : Nat
  firstFileNum : Nat
  lastFileNum : Nat
  bufStart : Nat
  bufOffset : Nat
  bufKeepBytes : Nat
  deriving DecidableEq

structure Storage (η : Type*) where
  disk : Disk η
  past : List (Disk η)
  info : LfsInfo
  buffer : Nat → UInt8

structure Reader where
  readBuf : Bytes
  startReadLsn : Nat
  endReadLsn : Nat
  deriving DecidableEq

variable {η : Type*}

/-! ## Files -/

/-- The bytes from `pos` on are overwritten; a gap before them reads as zeros. -/
def writeAt (body : Bytes) (pos : Nat) (bytes : Bytes) : Bytes :=
  body.takeD pos 0 ++ bytes ++ body.drop (pos + bytes.length)

inductive DiskWrite (η : Type*)
  | create (fileNum : Nat)
  | header (fileNum : Nat) (lfsHeader : LfsHeader) (user : η)
  | body (fileNum offs : Nat) (bytes : Bytes)

def DiskWrite.apply (cfg : Config) : DiskWrite η → Disk η → Disk η
  | .create n, disk => Function.update disk n (some { header := none, body := [] })
  | .header n lfsHeader user, disk =>
    Function.update disk n ((disk n).map fun file => { file with header := some (lfsHeader, user) })
  | .body n offs bytes, disk =>
    Function.update disk n ((disk n).map fun file =>
      { file with body := writeAt file.body (offs - cfg.sectorSize) bytes })

def LogFile.size (cfg : Config) (file : LogFile η) : Nat :=
  match file.header with
  | some _ => cfg.sectorSize + file.body.length
  | none => 0

/-- What `uReadFile` reads from an offset behind the header: `len` bytes, or fewer at
the end of the file. -/
def LogFile.read (cfg : Config) (file : LogFile η) (offs len : Nat) : Bytes :=
  (file.body.drop (offs - cfg.sectorSize)).take len

namespace Storage

variable (cfg : Config) (st : Storage η)

def put (w : DiskWrite η) : Storage η :=
  { st with disk := w.apply cfg st.disk, past := w.apply cfg st.disk :: st.past }

/-! ## Writing -/

def flushBufLsn (ulsn : Nat) (st : Storage η) : Storage η :=
  let info := st.info
  if ulsn ≤ info.nextLsn ∨ info.bufKeepBytes = 0 then st
  else
    let toflush :=
      if info.nextLsn + info.bufKeepBytes ≤ ulsn then info.bufKeepBytes else ulsn - info.nextLsn
    let fileOffs := info.nextLsn % cfg.chunkSize
    if info.bufStart + toflush ≤ cfg.bufSize then
      let st := st.put cfg (.body info.lastFileNum fileOffs (read st.buffer info.bufStart toflush))
      { st with info := { info with
          bufStart := if info.bufStart + toflush = cfg.bufSize then 0 else info.bufStart + toflush
          bufKeepBytes := info.bufKeepBytes - toflush
          nextLsn := info.nextLsn + toflush } }
    else
      let portion := cfg.bufSize - info.bufStart
      let st := st.put cfg (.body info.lastFileNum fileOffs (read st.buffer info.bufStart portion))
      let st := st.put cfg
        (.body info.lastFileNum (fileOffs + portion) (read st.buffer 0 (toflush - portion)))
      { st with info := { info with
          bufStart := toflush - portion
          bufKeepBytes := info.bufKeepBytes - toflush
          nextLsn := info.nextLsn + toflush } }

def lfsGetHighLSNBoundary : Nat := st.info.nextLsn + st.info.bufKeepBytes

def lfsFlush (untilLsn : Nat) (st : Storage η) : Storage η :=
  flushBufLsn cfg untilLsn st

def lfsFlushAll : Storage η :=
  flushBufLsn cfg (st.info.nextLsn + st.info.bufKeepBytes) st

/-- `_lfsExtend`: the new file gets the header of the last one, with its own start as
the next LSN.  It is created before the header is written to it. -/
def lfsExtend : Option (Storage η) :=
  match (st.disk st.info.lastFileNum).bind LogFile.header with
  | none => none
  | some (_, user) =>
    let lfsHeader : LfsHeader :=
      { nextLsn := st.info.lastFileNum * cfg.chunkSize + cfg.sectorSize
        firstFileNum := st.info.firstFileNum }
    let st := st.put cfg (.create (st.info.lastFileNum + 1))
    let st := st.put cfg (.header (st.info.lastFileNum + 1) lfsHeader user)
    some { st with info := { st.info with
      lastFileNum := st.info.lastFileNum + 1
      nextLsn := lfsHeader.nextLsn } }

def copyToBuffer (rec : Bytes) (st : Storage η) : Storage η :=
  let info := st.info
  let keep := info.bufKeepBytes + rec.length
  if info.bufOffset < info.bufStart ∨ rec.length ≤ cfg.bufSize - info.bufOffset then
    { st with
      buffer := write st.buffer info.bufOffset rec
      info := { info with
        bufOffset :=
          if info.bufOffset + rec.length = cfg.bufSize then 0 else info.bufOffset + rec.length
        bufKeepBytes := keep } }
  else
    let firstRecPart := cfg.bufSize - info.bufOffset
    { st with
      buffer := write (write st.buffer info.bufOffset (rec.take firstRecPart)) 0
        (rec.drop firstRecPart)
      info := { info with
        bufOffset := rec.length - firstRecPart
        bufKeepBytes := keep } }

/-- The offset in its file at which an LSN stands; the end of a full file is an offset
in that file. -/
def fileOffsOf (lsn : Nat) : Nat :=
  if lsn % cfg.chunkSize = 0 then cfg.chunkSize else lsn % cfg.chunkSize

def fileNumOf (lsn : Nat) : Nat :=
  if lsn % cfg.chunkSize = 0 then lsn / cfg.chunkSize else lsn / cfg.chunkSize + 1

def roomInFile (rec : Bytes) (st : Storage η) : Option (Storage η) :=
  if cfg.chunkSize - fileOffsOf cfg (st.info.nextLsn + st.info.bufKeepBytes) < rec.length then
    lfsExtend cfg (flushBufLsn cfg (st.info.nextLsn + st.info.bufKeepBytes) st)
  else some st

def roomInBuffer (rec : Bytes) (st : Storage η) : Storage η :=
  if cfg.bufSize - st.info.bufKeepBytes < rec.length then
    flushBufLsn cfg (st.info.nextLsn + st.info.bufKeepBytes) st
  else st

def lfsAppendRecord (rec : Bytes) (st : Storage η) : Option (Nat × Storage η) :=
  match roomInFile cfg rec st with
  | none => none
  | some st =>
    let st := roomInBuffer cfg rec st
    some (st.info.nextLsn + st.info.bufKeepBytes, copyToBuffer cfg rec st)

def lfsWriteHeader (user : η) (st : Storage η) : Storage η :=
  st.put cfg (.header st.info.lastFileNum
    { nextLsn := st.info.nextLsn, firstFileNum := st.info.firstFileNum } user)

def lfsGetHeader : Option η :=
  ((st.disk st.info.lastFileNum).bind LogFile.header).map Prod.snd

/-- `lfsArchiveCurrentFile`: another file is begun, unless the last one has only its
header.  The header given is written to the file that is left. -/
def lfsArchiveCurrentFile (user : Option η) (st : Storage η) : Option (Nat × Storage η) :=
  let st := flushBufLsn cfg (st.info.nextLsn + st.info.bufKeepBytes) st
  match st.disk st.info.lastFileNum with
  | none => none
  | some file =>
    if cfg.sectorSize < file.size cfg then
      match lfsExtend cfg st with
      | none => none
      | some st' =>
        match user with
        | none => some (st'.info.lastFileNum - 1, st')
        | some user =>
          match (st'.disk (st'.info.lastFileNum - 1)).bind LogFile.header with
          | none => none
          | some (lfsHeader, _) =>
            some (st'.info.lastFileNum - 1,
              st'.put cfg (.header (st'.info.lastFileNum - 1) lfsHeader user))
    else some (st.info.lastFileNum - 1, st)

/-! ## Reading -/

def getDataFromBuffer (len wbOff : Nat) : Bytes :=
  let offs :=
    if cfg.bufSize ≤ st.info.bufStart + wbOff then wbOff - (cfg.bufSize - st.info.bufStart)
    else st.info.bufStart + wbOff
  if offs + len ≤ cfg.bufSize then read st.buffer offs len
  else read st.buffer offs (cfg.bufSize - offs) ++ read st.buffer 0 (len - (cfg.bufSize - offs))

def readFromFile (fileNum fileOffs recLsn recSize : Nat)
    (rd : Reader) : Option (Option (Nat × Bytes) × Reader) :=
  if rd.startReadLsn ≤ recLsn ∧ recLsn + recSize ≤ rd.endReadLsn then
    some (some (recLsn, (rd.readBuf.drop (recLsn - rd.startReadLsn)).take recSize), rd)
  else
    match st.disk fileNum with
    | none => none
    | some file =>
      if cfg.readBufSize < recSize then
        let bytes := file.read cfg fileOffs recSize
        if bytes.length = recSize then some (some (recLsn, bytes), rd) else none
      else
        let bytes := file.read cfg fileOffs cfg.readBufSize
        -- a short read leaves the old bytes behind it in the buffer
        let readBuf := bytes ++ rd.readBuf.drop bytes.length
        some (some (recLsn, readBuf.take recSize),
          { readBuf, startReadLsn := recLsn, endReadLsn := recLsn + bytes.length })

/-- `lfsGetRecord`: `none` is an exception, `some none` an LSN out of bounds.  At the end
of a file it goes over to the next one and corrects the LSN. -/
def lfsGetRecord (recLsn recSize : Nat) (rd : Reader) : Option (Option (Nat × Bytes) × Reader) :=
  let fileNum := fileNumOf cfg recLsn
  let fileOffs := fileOffsOf cfg recLsn
  if fileNum = st.info.lastFileNum ∧ st.info.nextLsn ≤ recLsn ∧
      recLsn + recSize ≤ st.info.nextLsn + st.info.bufKeepBytes then
    some (some (recLsn, getDataFromBuffer cfg st recSize (recLsn - st.info.nextLsn)), rd)
  else if st.info.lastFileNum < fileNum then some (none, rd)
  else
    match st.disk fileNum with
    | none => none
    | some file =>
      if file.size cfg ≤ fileOffs then
        let offs := cfg.sectorSize + fileOffs - file.size cfg
        if st.info.lastFileNum < fileNum + 1 then some (none, rd)
        else readFromFile cfg st (fileNum + 1) offs (fileNum * cfg.chunkSize + offs) recSize rd
      else readFromFile cfg st fileNum fileOffs recLsn recSize rd

/-! ## Creating and opening -/

def lfsCreateNew (user : η) : Disk η :=
  Function.update (fun _ => none) 1
    (some { header := some ({ nextLsn := cfg.sectorSize, firstFileNum := 1 }, user), body := [] })

/-- `lfsInit` of a chain whose last file has this number: the state is taken from the
header of that file.  The buffer is whatever the memory holds. -/
def lfsInit (disk : Disk η) (lastNum : Nat) (buffer : Nat → UInt8) : Option (Storage η) :=
  match (disk lastNum).bind LogFile.header with
  | none => none
  | some (lfsHeader, _) =>
    some
      { disk
        past := [disk]
        info :=
          { nextLsn := lfsHeader.nextLsn
            firstFileNum := lfsHeader.firstFileNum
            lastFileNum := lastNum
            bufStart := 0
            bufOffset := 0
            bufKeepBytes := 0 }
        buffer }

end Storage

def Reader.connect (memory : Bytes) : Reader :=
  { readBuf := memory, startReadLsn := 0, endReadLsn := 0 }

end Sedna.Log
