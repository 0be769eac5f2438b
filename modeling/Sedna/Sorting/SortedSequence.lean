import Sedna.Library.BinaryHeap

/-!
# The external sort of tuples

`SortedSequence` collects serialized tuples in blocks of temporary memory.  An *accumulator* has a
chain of blocks with the values and one with pointers to them.  When it has too many blocks, its
pointers are sorted block by block, the sorted blocks are merged pairwise, and the values are
copied in order to a *chain*; `sort` merges the chains by a binary heap.  Blocks that are no
longer used go to a pool.
-/

namespace Sedna.Sorting

open Library.BinaryHeap

/-! ## Blocks -/

structure Place where
  blk : Nat
  off : Nat
deriving DecidableEq, Inhabited

structure DataPtr where
  value : Place
  size : Nat
deriving DecidableEq, Inhabited

/-- A byte of a block: a byte of a tuple, or the byte `i` of a `data_ptr` or of a `size_t`. -/
inductive Cell where
  | byte (b : UInt8)
  | ptrByte (p : DataPtr) (i : Nat)
  | sizeByte (n : Nat) (i : Nat)
deriving DecidableEq

def pageSize : Nat := 65536

structure Layout where
  headerSize : Nat
  ptrSize : Nat
  sizeSize : Nat
  headerSize_pos : 0 < headerSize
  ptrSize_pos : 0 < ptrSize
  sizeSize_pos : 0 < sizeSize
  ptr_fits : headerSize + ptrSize ≤ pageSize
  size_fits : headerSize + sizeSize < pageSize

def Layout.dataBlkSize (L : Layout) : Nat := pageSize - L.headerSize

def Layout.ptrBlkSize (L : Layout) : Nat := L.dataBlkSize / L.ptrSize

def Layout.freeSpace (L : Layout) (p : Place) : Nat :=
  (pageSize - (L.headerSize + p.off) % pageSize) % 65536

/-- The blocks: their bytes, their `nblk` fields, the pool (the block pushed last comes first)
and the first block that was never allocated. -/
structure Memory where
  cell : Nat → Nat → Cell
  nblk : Nat → Option Nat
  pool : List Nat
  fresh : Nat

inductive SortError where
  /-- `SE1003` -/
  | alreadySorted
  /-- a pointer is `XNULL`, or the bytes read are not what was expected there -/
  | badAccess
deriving DecidableEq

namespace Memory

def read (m : Memory) (p : Place) (n : Nat) : List Cell :=
  (List.range n).map fun i => m.cell p.blk (p.off + i)

@[simps -fullyApplied nblk pool fresh]
def write (m : Memory) (p : Place) (cells : List Cell) : Memory :=
  { m with
    cell := fun b o =>
      if b = p.blk ∧ p.off ≤ o then (cells[o - p.off]?).getD (m.cell b o) else m.cell b o }

@[simps -fullyApplied cell pool fresh]
def setNblk (m : Memory) (b : Nat) (next : Option Nat) : Memory :=
  { m with nblk := fun c => if c = b then next else m.nblk c }

def pushBack (m : Memory) (b : Nat) : Memory := { m with pool := b :: m.pool }

end Memory

def getFreeBlock (m : Memory) : Nat × Memory :=
  match m.pool with
  | b :: pool => (b, Memory.setNblk { m with pool := pool } b none)
  | [] => (m.fresh, Memory.setNblk { m with fresh := m.fresh + 1 } m.fresh none)

def addBlockToChain (m : Memory) (blk : Nat) : Nat × Memory :=
  let (newBlock, m) := getFreeBlock m
  (newBlock, m.setNblk blk (some newBlock))

def deref : Option Nat → Except SortError Nat
  | some b => .ok b
  | none => .error .badAccess

section

variable (L : Layout)

def readData (m : Memory) (size : Nat) (place : Place) : Except SortError (List Cell × Place) :=
  let fspace := L.freeSpace place
  if fspace ≤ size then do
    let nextBlock ← deref (m.nblk place.blk)
    pure (m.read place fspace ++ m.read ⟨nextBlock, 0⟩ (size - fspace), ⟨nextBlock, size - fspace⟩)
  else
    pure (m.read place size, ⟨place.blk, place.off + size⟩)

def writeData (m : Memory) (buf : List Cell) (place : Place) (splittingAllowed : Bool) :
    Place × Memory :=
  let fspace := L.freeSpace place
  if fspace ≤ buf.length then
    if !splittingAllowed then
      let (newBlock, m) := addBlockToChain m place.blk
      if fspace = buf.length then
        -- a second block is added; the one added before is no longer in the chain
        let (newBlock, m) := addBlockToChain m place.blk
        (⟨newBlock, 0⟩, m.write place buf)
      else
        (⟨newBlock, buf.length⟩, m.write ⟨newBlock, 0⟩ buf)
    else
      let (newBlock, m) := addBlockToChain m place.blk
      let m := m.write place (buf.take fspace)
      (⟨newBlock, buf.length - fspace⟩, m.write ⟨newBlock, 0⟩ (buf.drop fspace))
  else
    (⟨place.blk, place.off + buf.length⟩, m.write place buf)

end

/-! ## What stands in a block -/

def bytesOf (cells : List Cell) : Except SortError (List UInt8) :=
  cells.mapM fun
    | .byte b => .ok b
    | _ => .error .badAccess

def ptrCells (L : Layout) (p : DataPtr) : List Cell := (List.range L.ptrSize).map (.ptrByte p)

def sizeCells (L : Layout) (n : Nat) : List Cell := (List.range L.sizeSize).map (.sizeByte n)

def decodePtr (L : Layout) (cells : List Cell) : Except SortError DataPtr :=
  match cells.head? with
  | some (.ptrByte p _) => if cells = ptrCells L p then .ok p else .error .badAccess
  | _ => .error .badAccess

def decodeSize (L : Layout) (cells : List Cell) : Except SortError Nat :=
  match cells.head? with
  | some (.sizeByte n _) => if cells = sizeCells L n then .ok n else .error .badAccess
  | _ => .error .badAccess

/-- `ITupleSerializer`: `compare` is negative where the first tuple is less. -/
structure Serializer (T : Type*) where
  serialize : T → List UInt8
  deserialize : List UInt8 → T
  compare : List UInt8 → List UInt8 → Int

/-- What the class is used with: the sizes, a serializer and `std::sort`. -/
structure Config (T : Type*) where
  layout : Layout
  serializer : Serializer T
  stdSort : (DataPtr → DataPtr → Bool) → List DataPtr → List DataPtr

section

variable {T : Type*} (cfg : Config T) (m : Memory)

def getPtr (block ind : Nat) : Except SortError DataPtr := do
  let (cells, _) ← readData cfg.layout m cfg.layout.ptrSize ⟨block, ind * cfg.layout.ptrSize⟩
  decodePtr cfg.layout cells

def readVal (p : DataPtr) : Except SortError (List UInt8) := do
  let (cells, _) ← readData cfg.layout m p.size p.value
  bytesOf cells

def getVal (block ind : Nat) : Except SortError (List UInt8) := do
  let p ← decodePtr cfg.layout (m.read ⟨block, ind * cfg.layout.ptrSize⟩ cfg.layout.ptrSize)
  readVal cfg m p

def tupleComparator (p q : DataPtr) : Bool :=
  match readVal cfg m p, readVal cfg m q with
  | .ok a, .ok b => cfg.serializer.compare a b < 0
  | _, _ => false

/-- All values are read here, whether or not `std::sort` compares them. -/
def inBlockSort (p amount : Nat) : Except SortError Memory := do
  let indexes ← (List.range amount).mapM fun i =>
    decodePtr cfg.layout (m.read ⟨p, i * cfg.layout.ptrSize⟩ cfg.layout.ptrSize)
  let _ ← indexes.mapM (readVal cfg m)
  let sorted := cfg.stdSort (tupleComparator cfg m) indexes
  pure (m.write ⟨p, 0⟩ (sorted.flatMap (ptrCells cfg.layout)))

/-! ## Merging sorted blocks of pointers -/

structure Side where
  block : Option Nat
  size : Nat
  written : Nat
  ptr : DataPtr
  val : List UInt8

def Side.load (s : Side) : Except SortError Side :=
  if s.written < s.size then do
    let b ← deref s.block
    let ptr ← getPtr cfg m b (s.written % cfg.layout.ptrBlkSize)
    let val ← getVal cfg m b (s.written % cfg.layout.ptrBlkSize)
    pure { s with ptr := ptr, val := val }
  else
    pure s

/-- One more pointer was written: a block that was read to its end is freed. -/
def Side.release (s : Side) : Except SortError (Side × Memory) :=
  let s := { s with written := s.written + 1 }
  if s.written % cfg.layout.ptrBlkSize = 0 ∨ s.size = s.written then do
    let b ← deref s.block
    pure ({ s with block := m.nblk b }, m.pushBack b)
  else
    pure (s, m)

def Side.advance (s : Side) : Except SortError (Side × Memory) := do
  let (s, m) ← s.release cfg m
  let s ← s.load cfg m
  pure (s, m)

/-- The loop of `mergeBlocks` for the `n` pointers that are still to be written. -/
def mergeLoop : Nat → Memory → Place → Side → Side → Except SortError Memory
  | 0, m, _, _, _ => pure m
  | n + 1, m, ptrPlace, s1, s2 =>
    if s2.written = s2.size ∨
        s1.written < s1.size ∧ cfg.serializer.compare s1.val s2.val < 0 then do
      let (ptrPlace, m) := writeData cfg.layout m (ptrCells cfg.layout s1.ptr) ptrPlace false
      let (s1, m) ← s1.advance cfg m
      mergeLoop n m ptrPlace s1 s2
    else do
      let (ptrPlace, m) := writeData cfg.layout m (ptrCells cfg.layout s2.ptr) ptrPlace false
      let (s2, m) ← s2.advance cfg m
      mergeLoop n m ptrPlace s1 s2

def mergeBlocks (m : Memory) (p1 size1 p2 size2 : Nat) : Except SortError (Nat × Memory) := do
  let (firstBlock, m) := getFreeBlock m
  let s1 ← Side.load cfg m ⟨some p1, size1, 0, default, []⟩
  let s2 ← Side.load cfg m ⟨some p2, size2, 0, default, []⟩
  let m ← mergeLoop cfg (size1 + size2) m ⟨firstBlock, 0⟩ s1 s2
  pure (firstBlock, m)

def collectBlocks (m : Memory) : Nat → Nat → Except SortError (List Nat)
  | 0, _ => .error .badAccess
  | fuel + 1, it =>
    match m.nblk it with
    | none => pure [it]
    | some next => do
      let rest ← collectBlocks m fuel next
      pure (it :: rest)

/-- One round of `blocksSort`, on sequences with their first block and size. -/
def mergePass (m : Memory) : List (Nat × Nat) → Except SortError (List (Nat × Nat) × Memory)
  | (p1, size1) :: (p2, size2) :: rest => do
    let (p, m) ← mergeBlocks cfg m p1 size1 p2 size2
    let (merged, m) ← mergePass m rest
    pure ((p, size1 + size2) :: merged, m)
  | rest => pure (rest, m)

def mergePasses : Nat → Memory → List (Nat × Nat) → Except SortError (List (Nat × Nat) × Memory)
  | 0, _, _ => .error .badAccess
  | fuel + 1, m, seqs =>
    if 1 < seqs.length then do
      let (seqs, m) ← mergePass cfg m seqs
      mergePasses fuel m seqs
    else
      pure (seqs, m)

/-- Each block holds `SS_PTR_BLK_SIZE` pointers, the last one `ptrsInLast`. -/
def blockSizes (ptrsInLast : Nat) : List Nat → List (Nat × Nat)
  | [] => []
  | [b] => [(b, ptrsInLast)]
  | b :: bs => (b, cfg.layout.ptrBlkSize) :: blockSizes ptrsInLast bs

def blocksSort (m : Memory) (firstPtrBlock ptrsInLast : Nat) : Except SortError (Nat × Memory) := do
  let blocks ← collectBlocks m m.fresh firstPtrBlock
  let (seqs, m) ← mergePasses cfg blocks.length m (blockSizes cfg ptrsInLast blocks)
  match seqs with
  | [] => .error .badAccess
  | (first, _) :: _ => pure (first, m)

end

/-! ## Sorted chains -/

structure SSChain where
  value : List UInt8
  firstBlock : Nat
  place : Place
  toRead : Int

section

variable {T : Type*} (cfg : Config T)

def SSChain.create (m : Memory) : SSChain × Memory :=
  let (firstBlock, m) := getFreeBlock m
  (⟨[], firstBlock, ⟨firstBlock, 0⟩, 0⟩, m)

def SSChain.add (m : Memory) (c : SSChain) (buf : List UInt8) : SSChain × Memory :=
  let (place, m) := writeData cfg.layout m (sizeCells cfg.layout buf.length) c.place true
  let (place, m) := writeData cfg.layout m (buf.map .byte) place true
  ({ c with place := place, toRead := c.toRead + 1 }, m)

def SSChain.next (m : Memory) (c : SSChain) : Except SortError SSChain := do
  let (cells, place) ← readData cfg.layout m cfg.layout.sizeSize c.place
  let size ← decodeSize cfg.layout cells
  let (cells, place) ← readData cfg.layout m size place
  let value ← bytesOf cells
  pure { c with value := value, place := place, toRead := c.toRead - 1 }

def SSChain.setEnd (m : Memory) (c : SSChain) : Except SortError SSChain :=
  SSChain.next cfg m { c with place := ⟨c.firstBlock, 0⟩ }

def copyValues (block : Nat) : Nat → Nat → Memory → SSChain → Except SortError (SSChain × Memory)
  | 0, _, m, c => pure (c, m)
  | n + 1, i, m, c => do
    let val ← getVal cfg m block i
    let (c, m) := c.add cfg m val
    copyValues block n (i + 1) m c

/-- The outer loop of `makeNewChain`; the first argument bounds the number of blocks. -/
def copyBlocks (ptrsInLast : Nat) :
    Nat → Nat → Memory → SSChain → Except SortError (SSChain × Memory)
  | 0, _, _, _ => .error .badAccess
  | fuel + 1, it, m, c =>
    match m.nblk it with
    | none => copyValues cfg it ptrsInLast 0 m c
    | some next => do
      let (c, m) ← copyValues cfg it cfg.layout.ptrBlkSize 0 m c
      copyBlocks ptrsInLast fuel next m c

def makeNewChain (m : Memory) (firstPtrBlock ptrsInLast : Nat) :
    Except SortError (SSChain × Memory) := do
  let (c, m) := SSChain.create m
  let (c, m) ← copyBlocks cfg ptrsInLast m.fresh firstPtrBlock m c
  let c ← c.setEnd cfg m
  pure (c, m)

end

/-! ## The class -/

structure SortedSequence where
  mem : Memory
  firstPtrBlock : Nat
  firstValBlock : Nat
  ptrPlace : Place
  valPlace : Place
  blocksCount : Nat
  elementsCount : Nat
  chains : List SSChain
  heap : Heap SSChain
  finalized : Bool

def maxBlocksInChain : Nat := 10

namespace SortedSequence

variable {T : Type*} (cfg : Config T) (s : SortedSequence)

def initAccumulator : SortedSequence :=
  let (ptrBlock, m) := getFreeBlock s.mem
  let (valBlock, m) := getFreeBlock m
  { s with
    mem := m, firstPtrBlock := ptrBlock, firstValBlock := valBlock
    ptrPlace := ⟨ptrBlock, 0⟩, valPlace := ⟨valBlock, 0⟩, blocksCount := 2, elementsCount := 0 }

/-- Pushes the blocks of a chain to the pool; the first argument bounds their number. -/
def freeChain : Nat → Nat → Memory → Except SortError Memory
  | 0, _, _ => .error .badAccess
  | fuel + 1, it, m =>
    match m.nblk it with
    | none => pure (m.pushBack it)
    | some next => freeChain fuel next (m.pushBack it)

def freeAccumulator : Except SortError SortedSequence := do
  let m ← freeChain s.mem.fresh s.firstPtrBlock s.mem
  let m ← freeChain m.fresh s.firstValBlock m
  pure { s with mem := m }

def reinitAccumulator : Except SortError SortedSequence := do
  let s ← s.freeAccumulator
  pure s.initAccumulator

/-- Sorts each block of pointers; returns the number of pointers in the last block.  The first
argument bounds the number of blocks. -/
def sortBlocks : Nat → Nat → Nat → Memory → Except SortError (Nat × Memory)
  | 0, _, _, _ => .error .badAccess
  | fuel + 1, it, ptrsInBlock, m =>
    match m.nblk it with
    | some next => do
      let m ← inBlockSort cfg m it cfg.layout.ptrBlkSize
      sortBlocks fuel next (ptrsInBlock - cfg.layout.ptrBlkSize) m
    | none => do
      let m ← inBlockSort cfg m it ptrsInBlock
      pure (ptrsInBlock, m)

def finalizeAccumulator : Except SortError SortedSequence :=
  if s.elementsCount = 0 then
    pure s
  else do
    let (ptrsInLast, m) ← sortBlocks cfg s.mem.fresh s.firstPtrBlock s.elementsCount s.mem
    let (firstPtrBlock, m) ← blocksSort cfg m s.firstPtrBlock ptrsInLast
    let (chain, m) ← makeNewChain cfg m firstPtrBlock ptrsInLast
    pure { s with mem := m, firstPtrBlock := firstPtrBlock, chains := s.chains ++ [chain] }

def chainLess (c d : SSChain) : Bool := cfg.serializer.compare c.value d.value < 0

def heapOf (chains : List SSChain) : Heap SSChain :=
  ⟨chains.length, fun i => chains.getD (i - 1) ⟨[], 0, default, 0⟩⟩

def buildHeapFromChains : SortedSequence :=
  { s with heap := (heapOf s.chains).build (chainLess cfg) }

def create (m : Memory) : SortedSequence :=
  initAccumulator
    { mem := m, firstPtrBlock := 0, firstValBlock := 0, ptrPlace := default, valPlace := default
      blocksCount := 0, elementsCount := 0, chains := [], heap := heapOf [], finalized := false }

def store (t : T) (s : SortedSequence) : SortedSequence :=
  let buf := cfg.serializer.serialize t
  -- the size is stored in 16 bits
  let ptr : DataPtr := ⟨s.valPlace, buf.length % 65536⟩
  let (ptrPlace, m) := writeData cfg.layout s.mem (ptrCells cfg.layout ptr) s.ptrPlace false
  let (valPlace, m) := writeData cfg.layout m (buf.map .byte) s.valPlace true
  { s with
    mem := m, ptrPlace := ptrPlace, valPlace := valPlace, elementsCount := s.elementsCount + 1
    blocksCount := s.blocksCount + (if ptrPlace.blk = s.ptrPlace.blk then 0 else 1) +
      (if valPlace.blk = s.valPlace.blk then 0 else 1) }

def add (t : T) (s : SortedSequence) : Except SortError SortedSequence :=
  if s.finalized then
    .error .alreadySorted
  else
    let s := s.store cfg t
    if maxBlocksInChain < s.blocksCount then do
      let s ← s.finalizeAccumulator cfg
      s.reinitAccumulator
    else
      pure s

def sort : Except SortError SortedSequence :=
  if s.finalized then
    pure s
  else do
    let s ← finalizeAccumulator cfg { s with finalized := true }
    pure (s.buildHeapFromChains cfg)

def next (s : SortedSequence) : Option (Except SortError T) × SortedSequence :=
  if s.heap.size = 0 then
    (none, s)
  else
    let best := s.heap.item 1
    let s := { s with heap := s.heap.pop (chainLess cfg) }
    let t := cfg.serializer.deserialize best.value
    if best.toRead = 0 then
      (some (.ok t), s)
    else
      match best.next cfg s.mem with
      | .error e => (some (.error e), s)
      | .ok best => (some (.ok t), { s with heap := s.heap.push (chainLess cfg) best })

def addAll : List T → SortedSequence → Except SortError SortedSequence
  | [], s => pure s
  | t :: ts, s => do
    let s ← s.add cfg t
    addAll ts s

end SortedSequence

end Sedna.Sorting
