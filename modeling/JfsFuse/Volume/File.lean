import JfsFuse.Volume.Namespace

/-!
# File data and attributes

The operations of `volume.rs` on the content of a file and on its attributes.  Offsets and
sizes are `u64`, so sums of them wrap around.

An interrupt token is the list of its coming answers, `true` for an interrupt; a list that
has come to its end answers no.
-/

namespace JfsFuse

open ByteBuf Program

/-- `a + b` of a `u64`. -/
def addU64 (a b : ℕ) : ℕ :=
  (a + b) % 2 ^ 64

/-- The block after the one that a byte range of a file ends in. -/
def blocksUpTo (n : ℕ) : ℕ :=
  addU64 n (blockSize - 1) / blockSize

namespace Volume

/-- Write the extent root and the number of blocks of an inode. -/
def setXtree (xtree : Xtree) (nblocks : ℕ) (dinode : List UInt8) : List UInt8 :=
  Dinode.setNblocks nblocks (Dinode.setRoot xtree.toBytes dinode)

/-- `compute_nblocks`: the blocks of the extents, or the old count if there are none. -/
def computeNblocks (xtree : Xtree) (fallback : ℕ) : ℕ :=
  if 0 < xtree.totalBlocks then xtree.totalBlocks else fallback

/-- Ask the allocator for an extent; `none` when there is no allocator. -/
def allocExtent (nblocks hint : ℕ) : VolM (Option Pxd) := do
  match (← get).bmap with
  | none => return none
  | some bmap =>
      let result ← returnExcept (bmap.allocExtent nblocks hint)
      modify fun v => { v with
        bmap := some result.2
        allocations := v.allocations ++ [{ bmap, nblocks, hint, pxd := result.1 }] }
      return some result.1

/-! ## Writing -/

/-- The variables of the loops of `write_at_with_interrupt`. -/
structure WriteState where
  xtree : Xtree
  modified : Bool := false
  written : ℕ := 0
  dataPos : ℕ := 0
  remaining : ℕ
  byteOffset : ℕ
  nextLogical : ℕ
  token : List Bool

/-- `InterruptToken::check`. -/
def checkToken (token : List Bool) : VolM (List Bool) :=
  match token with
  | true :: _ => throw .interrupted
  | _ => return token.tail

/-- Copy `n` bytes of `data` from `pos` on into a block at `offset`. -/
def copyInto (block data : List UInt8) (offset pos n : ℕ) : List UInt8 :=
  splice block offset (slice data pos n)

/-- The loop over the blocks of a new extent, `count` of them from `block` on.  The offset in
the first block, which is `offset` here, is not cleared in the state. -/
def fillNewBlocks (data : List UInt8) : ℕ → ℕ → ℕ → WriteState → VolM WriteState
  | _, 0, _, s => return s
  | block, count + 1, offset, s => do
      let token ← checkToken s.token
      if s.remaining = 0 then return { s with token }
      else
        let toCopy := min (blockSize - offset) s.remaining
        let blockData :=
          if s.dataPos + toCopy ≤ data.length then
            copyInto (zeros blockSize) data offset s.dataPos toCopy
          else zeros blockSize
        onStorage (StorageM.writeBlock block blockData)
        fillNewBlocks data (block + 1) count 0 { s with
          written := s.written + toCopy
          dataPos := s.dataPos + toCopy
          remaining := s.remaining - toCopy
          token }

/-- Fill an extent that was allocated for a hole, and enter it into the extent root. -/
def writeHole (data : List UInt8) (pxd : Pxd) (s : WriteState) : VolM WriteState := do
  let s ← fillNewBlocks data pxd.address pxd.length s.byteOffset s
  let next := s.nextLogical + pxd.length
  match s.xtree.insertExtent s.nextLogical pxd.length pxd.address with
  | some xtree => return { s with xtree, modified := true, nextLogical := next }
  | none => return { s with nextLogical := next }

/-- Without an allocator a hole counts as written. -/
def skipHole (blockCount : ℕ) (s : WriteState) : WriteState :=
  let skipped := min (blockCount * blockSize - s.byteOffset) s.remaining
  { s with
    written := s.written + skipped
    dataPos := s.dataPos + skipped
    remaining := s.remaining - skipped
    byteOffset := 0 }

/-- The loop over the blocks of an extent, `count` of them from `block` on. -/
def writeBlocks (data : List UInt8) : ℕ → ℕ → WriteState → VolM WriteState
  | _, 0, s => return s
  | block, count + 1, s => do
      let token ← checkToken s.token
      if s.remaining = 0 then return { s with token }
      else
        let blockData ← onStorage (StorageM.readBlock block)
        let toCopy := min (blockSize - s.byteOffset) s.remaining
        let bytes ← returnExcept (sliceOrPanic data s.dataPos toCopy)
        onStorage (StorageM.writeBlock block (splice blockData s.byteOffset bytes))
        writeBlocks data (block + 1) count { s with
          written := s.written + toCopy
          dataPos := s.dataPos + toCopy
          remaining := s.remaining - toCopy
          byteOffset := 0
          token }

/-- A part of the range that is mapped to the blocks from `blockAddr` on. -/
def writeMapped (data : List UInt8) (blockAddr blockCount : ℕ) (s : WriteState) :
    VolM WriteState := do
  let s ← writeBlocks data blockAddr blockCount s
  return { s with nextLogical := s.nextLogical + blockCount }

/-- One part of the range.  A hole that cannot be allocated is skipped, and then treated as
mapped to block 0. -/
def writePart (data : List UInt8) (blockAddr blockCount : ℕ) (s : WriteState) : VolM WriteState := do
  if blockAddr = 0 then
    match ← allocExtent blockCount s.nextLogical with
    | some pxd => writeHole data pxd s
    | none => writeMapped data blockAddr blockCount (skipHole blockCount s)
  else writeMapped data blockAddr blockCount s

/-- The loop over the parts of the range. -/
def writeParts (data : List UInt8) : List (ℕ × ℕ) → WriteState → VolM WriteState
  | [], s => return s
  | (blockAddr, blockCount) :: rest, s => do
      let token ← checkToken s.token
      if s.remaining = 0 then return { s with token }
      else writeParts data rest (← writePart data blockAddr blockCount { s with token })

/-- The number of blocks that a write covers, as a `u32`. -/
def fsbCount (length byteOffset : ℕ) : ℕ :=
  (length + byteOffset + blockSize - 1) / blockSize % 2 ^ 32

def writeAtBody (ino : UInt32) (offset : ℕ) (data : List UInt8) (token : List Bool) :
    VolM (Exit ℕ ℕ) := do
  let inode ← readInode ino
  let xtree ← returnExcept inode.xtree
  let byteOffset := offset % blockSize
  let fsbOffset := offset / blockSize
  let parts := xtree.mapBlocks fsbOffset (fsbCount data.length byteOffset)
  let s ← writeParts data parts
    { xtree, remaining := data.length, byteOffset, nextLogical := fsbOffset, token }
  let _ ← checkToken s.token
  onStorage StorageM.flushData
  let newEnd := addU64 offset s.written
  if inode.size < newEnd then updateInode ino inode (Dinode.setSize newEnd)
  if s.modified then updateInode ino inode (setXtree s.xtree s.xtree.totalBlocks)
  markPageDirty ino inode.pageBlock
  return .commit s.written

/-- `write_at_with_interrupt`.  Unlike the other operations it aborts after a failed commit. -/
def writeAtWithInterrupt (ino : UInt32) (offset : ℕ) (data : List UInt8) (token : List Bool) :
    VolM ℕ := do
  let _ ← beginTransaction
  match ← writeAtBody ino offset data token with
  | .commit written =>
      tryCatch (do let _ ← commitTransaction) fun e => do
        abortTransaction
        throw e
      return written
  | .abort result =>
      abortTransaction
      returnExcept result

/-- `write_at`. -/
def writeAt (ino : UInt32) (offset : ℕ) (data : List UInt8) : VolM ℕ :=
  writeAtWithInterrupt ino offset data []

/-! ## Size and allocation -/

/-- Clear the end of the last block before a file grows. -/
def zeroTail (byteOffset : ℕ) : List (ℕ × ℕ) → VolM Unit
  | [] => return ()
  | (blockAddr, blockCount) :: rest => do
      if blockAddr ≠ 0 ∧ 0 < blockCount then
        let blockData ← onStorage (StorageM.readBlock blockAddr)
        onStorage (StorageM.writeBlock blockAddr
          (splice blockData byteOffset (zeros (blockSize - byteOffset))))
      zeroTail byteOffset rest

def truncateBody (ino : UInt32) (newSize : ℕ) : VolM (Exit Unit Unit) := do
  let inode ← readInode ino
  let xtree ← returnExcept inode.xtree
  let newEof := blocksUpTo newSize
  let currentEof := blocksUpTo inode.size
  if newEof < currentEof then
    let (freed, xtree) := xtree.truncateExtents newEof
    freeExtents freed
    updateInode ino inode fun dinode =>
      Dinode.setNblocks (computeNblocks xtree inode.nblocks)
        (Dinode.setSize newSize (Dinode.setRoot xtree.toBytes dinode))
  else
    if currentEof < newEof ∧ inode.size % blockSize ≠ 0 then
      zeroTail (inode.size % blockSize) (xtree.mapBlocks (inode.size / blockSize) 1)
    updateInode ino inode (Dinode.setSize newSize)
  markPageDirty ino inode.pageBlock
  return .commit ()

/-- `truncate`. -/
def truncate (ino : UInt32) (newSize : ℕ) : VolM Unit :=
  transaction (truncateBody ino newSize)

/-- The loop of `fallocate` over `count` blocks from `fsb` on: allocate the blocks that are not
mapped, one by one. -/
def allocateBlocks : ℕ → ℕ → Xtree × Bool → VolM (Xtree × Bool)
  | _, 0, state => return state
  | fsb, count + 1, (xtree, modified) => do
      if (xtree.lookup fsb).isSome then allocateBlocks (fsb + 1) count (xtree, modified)
      else
        match ← allocExtent 1 fsb with
        | none => allocateBlocks (fsb + 1) count (xtree, modified)
        | some pxd =>
            onStorage (StorageM.writeBlock pxd.address (zeros blockSize))
            match xtree.insertExtent fsb 1 pxd.address with
            | some xtree => allocateBlocks (fsb + 1) count (xtree, true)
            | none => allocateBlocks (fsb + 1) count (xtree, modified)

/-- `FALLOC_FL_KEEP_SIZE` is set. -/
def keepsSize (mode : ℕ) : Bool :=
  mode % 2 = 1

/-- `FALLOC_FL_KEEP_SIZE` and `FALLOC_FL_PUNCH_HOLE` are set. -/
def isPunch (mode : ℕ) : Bool :=
  mode % 4 = 3

/-- Punch out the blocks from `startFsb` to `endFsb`, or allocate them; nothing is done for an
empty range. -/
def changeBlocks (mode startFsb endFsb : ℕ) (xtree : Xtree) : VolM (Xtree × Bool) := do
  if startFsb = endFsb then return (xtree, false)
  else if isPunch mode then
    let result := xtree.punchExtents startFsb endFsb
    freeExtents result.1
    return (result.2, true)
  else allocateBlocks startFsb (endFsb - startFsb) (xtree, false)

def fallocateBody (ino : UInt32) (offset len mode : ℕ) : VolM (Exit Unit Unit) := do
  let inode ← readInode ino
  let xtree ← returnExcept inode.xtree
  let startFsb := offset / blockSize
  let endFsb := blocksUpTo (addU64 offset len)
  let (xtree, modified) ← changeBlocks mode startFsb endFsb xtree
  if !isPunch mode && !keepsSize mode && inode.size < addU64 offset len then
    updateInode ino inode (Dinode.setSize (addU64 offset len))
  if modified then updateInode ino inode (setXtree xtree xtree.totalBlocks)
  markPageDirty ino inode.pageBlock
  onStorage StorageM.flushData
  return .commit ()

/-- The modes that `fallocate` refuses: collapse, zero and insert range, and `NOCACHE`. -/
def unsupportedMode (mode : ℕ) : Bool :=
  mode / 8 % 16 ≠ 0

/-- The digits of `{:#x}`. -/
def toHex (n : ℕ) : String :=
  "0x" ++ String.ofList (Nat.toDigits 16 n)

/-- `fallocate`. -/
def fallocate (ino : UInt32) (offset len mode : ℕ) : VolM Unit := do
  if unsupportedMode mode then
    let shown := toHex mode
    throw (.other s!"fallocate mode {shown} is not supported")
  else transaction (fallocateBody ino offset len mode)

/-! ## Moving extents between files -/

/-- Insert the extents taken from the source; `none` when the root is full. -/
def insertTaken (srcStart dstStart : ℕ) : List (ℤ × ℕ × ℕ) → Xtree → Option Xtree
  | [], xtree => some xtree
  | (srcLogical, length, physicalAddr) :: rest, xtree => do
      let xtree ← xtree.insertTakenExtent (dstStart + (srcLogical - srcStart)) length physicalAddr
      insertTaken srcStart dstStart rest xtree

def copyFileRangeBody (srcIno : UInt32) (srcOffset : ℕ) (dstIno : UInt32) (dstOffset len : ℕ) :
    VolM (Exit (Option ℕ) (Option ℕ)) := do
  let srcStart := srcOffset / blockSize
  let srcEnd := srcStart + len / blockSize
  let dstStart := dstOffset / blockSize
  let srcInode ← readInode srcIno
  let srcXtree ← returnExcept srcInode.xtree
  let (taken, srcXtree) := srcXtree.takeExtents srcStart srcEnd
  if taken = [] then return .abort (.ok none)
  updateInode srcIno srcInode (setXtree srcXtree (computeNblocks srcXtree srcInode.nblocks))
  markPageDirty srcIno srcInode.pageBlock
  let dstInode ← readInode dstIno
  let dstXtree ← returnExcept dstInode.xtree
  let (freed, dstXtree) := dstXtree.punchExtents dstStart (dstStart + len / blockSize)
  freeExtents freed
  match insertTaken srcStart dstStart taken dstXtree with
  | none => return .abort (.ok none)
  | some dstXtree =>
      let newSize := max dstInode.size (addU64 dstOffset len)
      updateInode dstIno dstInode fun dinode =>
        Dinode.setNblocks (computeNblocks dstXtree dstInode.nblocks)
          (Dinode.setSize newSize (Dinode.setRoot dstXtree.toBytes dinode))
      markPageDirty dstIno dstInode.pageBlock
      return .commit (some len)

/-- `copy_file_range_extent`: `none` when the caller is to copy by reading and writing. -/
def copyFileRangeExtent (srcIno : UInt32) (srcOffset : ℕ) (dstIno : UInt32) (dstOffset len : ℕ) :
    VolM (Option ℕ) := do
  if srcOffset % blockSize ≠ 0 ∨ dstOffset % blockSize ≠ 0 ∨ len % blockSize ≠ 0 ∨ len = 0 then
    return none
  else transaction (copyFileRangeBody srcIno srcOffset dstIno dstOffset len)

/-! ## Attributes -/

/-- The fields that `setattr` is to change. -/
structure AttrChange where
  mode : Option ℕ := none
  uid : Option ℕ := none
  gid : Option ℕ := none
  atime : Option ℕ := none
  mtime : Option ℕ := none
  deriving DecidableEq, Repr

/-- Write a field, if there is a value for it. -/
def setField (value : Option ℕ) (off : ℕ) (dinode : List UInt8) : List UInt8 :=
  match value with
  | some n => writeLE dinode off 4 n
  | none => dinode

/-- Write the seconds of a time and clear its nanoseconds. -/
def setTime (value : Option ℕ) (off : ℕ) (dinode : List UInt8) : List UInt8 :=
  match value with
  | some n => writeLE (writeLE dinode off 4 n) (off + 4) 4 0
  | none => dinode

/-- The type bits of the old mode are kept; the bits above them are not. -/
def chmod (mode : ℕ) (dinode : List UInt8) : List UInt8 :=
  Dinode.setMode (Dinode.fileType dinode * 0x1000 + mode % 0x1000) dinode

def applyAttr (change : AttrChange) (dinode : List UInt8) : List UInt8 :=
  let dinode := match change.mode with
    | some mode => chmod mode dinode
    | none => dinode
  setTime change.mtime 72 (setTime change.atime 56 (setField change.gid 48
    (setField change.uid 44 dinode)))

def setattrBody (ino : UInt32) (change : AttrChange) : VolM (Exit Unit Unit) := do
  let inode ← readInode ino
  updateInode ino inode (applyAttr change)
  markPageDirty ino inode.pageBlock
  return .commit ()

/-- `setattr`. -/
def setattr (ino : UInt32) (change : AttrChange) : VolM Unit :=
  transaction (setattrBody ino change)

def fsyncBody (ino : UInt32) : VolM (Exit Unit Unit) := do
  let inode ← readInode ino
  onStorage StorageM.flushMetadata
  markPageDirty ino inode.pageBlock
  return .commit ()

/-- `fsync`. -/
def fsync (ino : UInt32) : VolM Unit :=
  transaction (fsyncBody ino)

end Volume

end JfsFuse
