import JfsFuse.Storage

/-!
# The extent root

The block map of a file lives in 288 bytes of its inode: a 32-byte header and
sixteen descriptors of 16 bytes, which the source keeps in the slots 2 to 17 of an
array of eighteen.  `nextindex` is the slot after the last one in use.

This file translates `btree/xtree.rs`.  The loops that rebuild the array read the
slots in use first, and write back what they keep; here they are functions on the
list of these slots.
-/

namespace JfsFuse

open ByteBuf Program

/-! ## `xad_t` -/

/-- An extent of a file: a 40-bit logical offset and a physical extent. -/
structure Xad where
  flag : UInt8 := 0
  rsvrd : UInt16 := 0
  off1 : UInt8 := 0
  off2 : UInt32 := 0
  loc : Pxd := {}
  deriving DecidableEq, Repr

namespace Xad

/-- `XAD_NEW`. -/
def xadNew : UInt8 := 0x01

def offset (xad : Xad) : ℕ :=
  xad.off1.toNat * 2 ^ 32 + xad.off2.toNat

def length (xad : Xad) : ℕ :=
  xad.loc.length

def address (xad : Xad) : ℕ :=
  xad.loc.address

/-- The logical block after the last one. -/
def stop (xad : Xad) : ℕ :=
  xad.offset + xad.length

/-- `set_offset`; the offset is an `i64`, cut off to 40 bits. -/
def setOffset (xad : Xad) (offset : ℤ) : Xad :=
  let val := (offset % 2 ^ 64).toNat
  { xad with off1 := UInt8.ofNat (val / 2 ^ 32), off2 := UInt32.ofNat val }

def setLength (xad : Xad) (len : ℕ) : Xad :=
  { xad with loc := xad.loc.setLength len }

def setAddress (xad : Xad) (addr : ℕ) : Xad :=
  { xad with loc := xad.loc.setAddress addr }

/-- The sixteen on-disk bytes. -/
def toBytes (xad : Xad) : List UInt8 :=
  [xad.flag] ++ leBytes 2 xad.rsvrd.toNat ++ [xad.off1] ++ leBytes 4 xad.off2.toNat ++
    xad.loc.toBytes

/-- `parse_xad`, at offset `off` of `data`. -/
def read (data : List UInt8) (off : ℕ) : Xad where
  flag := data.getD off 0
  rsvrd := UInt16.ofNat (readLE data (off + 1) 2)
  off1 := data.getD (off + 3) 0
  off2 := UInt32.ofNat (readLE data (off + 4) 4)
  loc := Pxd.read data (off + 8)

end Xad

/-! ## `xtroot_t` -/

structure XtHeader where
  next : UInt64 := 0
  prev : UInt64 := 0
  flag : UInt8 := 0
  rsrvd1 : UInt8 := 0
  nextindex : UInt16 := 0
  maxentry : UInt16 := 0
  rsrvd2 : UInt16 := 0
  selfPxd : Pxd := {}
  deriving DecidableEq, Repr

/-- An extent as the methods return it. -/
structure Extent where
  offset : ℕ
  length : ℕ
  address : ℕ
  deriving DecidableEq, Repr

structure Xtree where
  header : XtHeader
  xad : Vector Xad xtRootMaxSlot
  deriving DecidableEq, Repr

namespace Xtree

/-- `from_inode_data`; descriptors past the end of the data are empty. -/
def fromInodeData (data : List UInt8) : Except StorageError Xtree :=
  if data.length < 96 then .error (.other "insufficient data for xtroot")
  else .ok
    { header :=
        { next := UInt64.ofNat (readLE data 0 8)
          prev := UInt64.ofNat (readLE data 8 8)
          flag := data.getD 16 0
          rsrvd1 := data.getD 17 0
          nextindex := UInt16.ofNat (readLE data 18 2)
          maxentry := UInt16.ofNat (readLE data 20 2)
          rsrvd2 := UInt16.ofNat (readLE data 22 2)
          selfPxd := Pxd.read data 24 }
      xad := Vector.ofFn fun i =>
        if xtEntryStart ≤ i.1 ∧ 32 + (i.1 - xtEntryStart) * 16 + 16 ≤ data.length then
          Xad.read data (32 + (i.1 - xtEntryStart) * 16)
        else {} }

/-- `to_bytes`. -/
def toBytes (xt : Xtree) : List UInt8 :=
  leBytes 8 xt.header.next.toNat ++ leBytes 8 xt.header.prev.toNat ++
    [xt.header.flag, xt.header.rsrvd1] ++ leBytes 2 xt.header.nextindex.toNat ++
    leBytes 2 xt.header.maxentry.toNat ++ leBytes 2 xt.header.rsrvd2.toNat ++
    xt.header.selfPxd.toBytes ++ (xt.xad.toList.drop xtEntryStart).flatMap Xad.toBytes

def nextIndex (xt : Xtree) : ℕ :=
  xt.header.nextindex.toNat

def setNextindex (xt : Xtree) (n : ℕ) : Xtree :=
  { xt with header := { xt.header with nextindex := UInt16.ofNat n } }

/-- The slots in use. -/
def slots (xt : Xtree) : List Xad :=
  (xt.xad.toList.take xt.nextIndex).drop xtEntryStart

/-- `lookup`: the first extent that holds the block. -/
def lookup (xt : Xtree) (offset : ℕ) : Option Xad :=
  xt.slots.find? fun xad => xad.offset ≤ offset && offset < xad.stop

/-- The loop of `map_blocks` from `current` to `stop`.  Each step but the last goes
forward, so `stop - current` steps are enough. -/
def mapBlocksFrom (xt : Xtree) (stop : ℕ) : ℕ → ℕ → List (ℕ × ℕ)
  | 0, _ => []
  | fuel + 1, current =>
      if stop ≤ current then []
      else match xt.lookup current with
        | some xad =>
            let rel := current - xad.offset
            let take := min (xad.length - rel) (stop - current)
            (xad.address + rel, take) :: xt.mapBlocksFrom stop fuel (current + take)
        | none => [(0, stop - current)]

/-- `map_blocks`: address and length of the parts, address 0 for a hole that reaches to the
end of the range. -/
def mapBlocks (xt : Xtree) (offset length : ℕ) : List (ℕ × ℕ) :=
  xt.mapBlocksFrom (offset + length) length offset

/-- The loop variables of `read_data`. -/
structure ReadState where
  result : List UInt8 := []
  remaining : ℕ
  bufOffset : ℕ
  deriving DecidableEq, Repr

/-- The loop of `read_data` over the blocks of a part. -/
def readRun : ℕ → ℕ → ReadState → StorageM ReadState
  | _, 0, s => return s
  | block, count + 1, s => do
      if s.remaining = 0 then return s
      else
        let data ← StorageM.readBlock block
        let toCopy := min (blockSize - s.bufOffset) s.remaining
        let bytes ← returnExcept (sliceOrPanic data s.bufOffset toCopy)
        readRun (block + 1) count
          { result := s.result ++ bytes, remaining := s.remaining - toCopy, bufOffset := 0 }

/-- The loop of `read_data` over the parts; address 0 stands for a hole. -/
def readParts : List (ℕ × ℕ) → ReadState → StorageM ReadState
  | [], s => return s
  | (blockAddr, blockCount) :: rest, s => do
      if blockAddr = 0 then
        let n := min (blockCount * blockSize) s.remaining
        let s : ReadState :=
          { result := s.result ++ zeros n, remaining := s.remaining - n, bufOffset := 0 }
        if s.remaining = 0 then return s else readParts rest s
      else readParts rest (← readRun blockAddr blockCount s)

/-- `read_data`. -/
def readData (xt : Xtree) (offset length : ℕ) : StorageM (List UInt8) := do
  let fsbOffset := offset / blockSize
  let byteOffset := offset % blockSize
  let fsbCount := (length + byteOffset + blockSize - 1) / blockSize
  let s ← readParts (xt.mapBlocks fsbOffset fsbCount) { remaining := length, bufOffset := byteOffset }
  return s.result.take length

/-- `iter_extents`. -/
def iterExtents (xt : Xtree) : List Extent :=
  (xt.slots.filter fun xad => xad.length ≠ 0).map fun xad =>
    { offset := xad.offset, length := xad.length, address := xad.address }

/-- The number of blocks of all extents. -/
def totalBlocks (xt : Xtree) : ℕ :=
  (xt.iterExtents.map Extent.length).sum

/-! ## Inserting -/

/-- The slot a new extent goes to. -/
def newSlot (xt : Xtree) : ℕ :=
  max xt.nextIndex xtEntryStart

/-- Put an extent into the next free slot. -/
def append (xt : Xtree) (logicalOffset : ℤ) (length physicalAddr : ℕ) (flag : UInt8) : Xtree :=
  let xad := (((xt.xad.toList.getD xt.newSlot {}).setOffset logicalOffset).setLength
    length).setAddress physicalAddr
  { xt with xad := xt.xad.setIfInBounds xt.newSlot { xad with flag } }.setNextindex (xt.newSlot + 1)

/-- The last extent ends where the new one starts, both logically and physically. -/
def continues (last : Xad) (logicalOffset : ℤ) (physicalAddr : ℕ) : Bool :=
  (last.stop : ℤ) = logicalOffset && last.address + last.length = physicalAddr

/-- `insert_extent`: `none` when the root is full. -/
def insertExtent (xt : Xtree) (logicalOffset : ℤ) (length physicalAddr : ℕ) : Option Xtree :=
  let lastIdx := xt.nextIndex - 1
  let last := xt.xad.toList.getD lastIdx {}
  if xtEntryStart < xt.nextIndex ∧ xtRootMaxSlot ≤ lastIdx then none
  else if xtEntryStart < xt.nextIndex ∧ continues last logicalOffset physicalAddr then
    some { xt with xad := xt.xad.setIfInBounds lastIdx (last.setLength (last.length + length)) }
  else if xtRootMaxSlot ≤ xt.nextIndex then none
  else some (xt.append logicalOffset length physicalAddr Xad.xadNew)

/-- `insert_taken_extent`: `none` when the root is full. -/
def insertTakenExtent (xt : Xtree) (logicalOffset : ℤ) (length physicalAddr : ℕ) : Option Xtree :=
  if xtRootMaxSlot ≤ xt.nextIndex then none
  else some (xt.append logicalOffset length physicalAddr 0)

/-! ## Removing -/

/-- Write the kept extents back and clear the slots behind them. -/
def storeKept (xt : Xtree) (kept : List Xad) : Xtree :=
  let newNext := xtEntryStart + kept.length
  { xt with
    xad := Vector.ofFn fun i =>
      if i.1 < xtEntryStart then xt.xad.get i
      else if i.1 < newNext then kept.getD (i.1 - xtEntryStart) {}
      else if i.1 < xt.nextIndex then {}
      else xt.xad.get i }.setNextindex newNext

/-- What `truncate_extents` keeps and frees of one extent. -/
def truncateXad (newEof : ℤ) (xad : Xad) : List Xad × List (ℕ × ℕ) :=
  if xad.length = 0 then ([], [])
  else if newEof ≤ xad.offset then ([], [(xad.address, xad.length)])
  else if newEof < xad.stop then
    let keepLen := (newEof - xad.offset).toNat
    ([xad.setLength keepLen], [(xad.address + keepLen, (xad.stop - newEof).toNat)])
  else ([xad], [])

/-- `truncate_extents`: the extents freed, as address and length. -/
def truncateExtents (xt : Xtree) (newEof : ℤ) : List (ℕ × ℕ) × Xtree :=
  let parts := xt.slots.map (truncateXad newEof)
  (parts.flatMap Prod.snd, xt.storeKept (parts.flatMap Prod.fst))

/-- What `punch_extents` keeps and frees of one extent. -/
def punchXad (start stop : ℤ) (xad : Xad) : List Xad × List (ℕ × ℕ) :=
  if xad.length = 0 then ([], [])
  else if xad.stop ≤ start then ([xad], [])
  else if stop ≤ xad.offset then ([xad], [])
  else if start ≤ xad.offset ∧ xad.stop ≤ stop then ([], [(xad.address, xad.length)])
  else if xad.offset < start ∧ stop < xad.stop then
    -- the address of the right part is that of the hole
    let leftLen := (start - xad.offset).toNat
    ([xad.setLength leftLen,
        ((xad.setOffset stop).setLength (xad.stop - stop).toNat).setAddress (xad.address + leftLen)],
      [(xad.address + leftLen, ((stop - start) % 2 ^ 32).toNat)])
  else if xad.offset < start then
    let keepLen := (start - xad.offset).toNat
    ([xad.setLength keepLen], [(xad.address + keepLen, xad.length - keepLen)])
  else
    let freeLen := (stop - xad.offset).toNat
    ([((xad.setOffset stop).setLength (xad.stop - stop).toNat).setAddress (xad.address + freeLen)],
      [(xad.address, freeLen)])

/-- `punch_extents`: the extents freed, as address and length. -/
def punchExtents (xt : Xtree) (start stop : ℤ) : List (ℕ × ℕ) × Xtree :=
  let parts := xt.slots.map (punchXad start stop)
  (parts.flatMap Prod.snd, xt.storeKept (parts.flatMap Prod.fst))

/-- What `take_extents` keeps and takes of one extent, the latter with its logical offset. -/
def takeXad (start stop : ℤ) (xad : Xad) : List Xad × List (ℤ × ℕ × ℕ) :=
  if xad.length = 0 then ([], [])
  else if xad.stop ≤ start then ([xad], [])
  else if stop ≤ xad.offset then ([xad], [])
  else if start ≤ xad.offset ∧ xad.stop ≤ stop then ([], [(xad.offset, xad.length, xad.address)])
  else if xad.offset < start ∧ stop < xad.stop then
    let leftLen := (start - xad.offset).toNat
    ([xad.setLength leftLen,
        ((xad.setOffset stop).setLength (xad.stop - stop).toNat).setAddress
          (xad.address + leftLen + ((stop - start) % 2 ^ 64).toNat)],
      [(start, ((stop - start) % 2 ^ 32).toNat, xad.address + leftLen)])
  else if xad.offset < start then
    let keepLen := (start - xad.offset).toNat
    ([xad.setLength keepLen], [(start, xad.length - keepLen, xad.address + keepLen)])
  else
    let takeLen := (stop - xad.offset).toNat
    ([((xad.setOffset stop).setLength (xad.length - takeLen)).setAddress (xad.address + takeLen)],
      [(xad.offset, takeLen, xad.address)])

/-- `take_extents`. -/
def takeExtents (xt : Xtree) (start stop : ℤ) : List (ℤ × ℕ × ℕ) × Xtree :=
  let parts := xt.slots.map (takeXad start stop)
  (parts.flatMap Prod.snd, xt.storeKept (parts.flatMap Prod.fst))

/-! ## Splitting -/

/-- The extent reaches over the block `splitAt` from both sides. -/
def straddles (splitAt : ℤ) (xad : Xad) : Bool :=
  xad.offset < splitAt && splitAt < xad.stop

/-- `split_extent`: whether an extent was split. -/
def splitExtent (xt : Xtree) (splitAt : ℤ) : Bool × Xtree :=
  if splitAt ≤ 0 then (false, xt)
  else match xt.slots.findIdx? (straddles splitAt) with
    | none => (false, xt)
    | some i =>
        let idx := xtEntryStart + i
        let xad := xt.xad.toList.getD idx {}
        let keepLen := (splitAt - xad.offset).toNat
        if xtRootMaxSlot < xt.nextIndex + 1 then (false, xt)
        else
          let xads := xt.xad.setIfInBounds idx (xad.setLength keepLen)
          let new := (((xads.toList.getD xt.nextIndex {}).setOffset splitAt).setLength
            (xad.length - keepLen)).setAddress (xad.address + keepLen)
          (true, { xt with
            xad := xads.setIfInBounds xt.nextIndex { new with flag := 0 } }.setNextindex (xt.nextIndex + 1))

end Xtree

end JfsFuse
