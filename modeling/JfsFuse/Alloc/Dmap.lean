import JfsFuse.Lib.Bitmap
import JfsFuse.Storage

/-!
# The block allocation map

`BlockAllocMap` of `dmap.rs`.  The map is read from the pages of the BMAP inode:
a descriptor block with the number of blocks and of free blocks, and pages with two
bitmaps each, the working map and the persistent map.  Allocation and freeing work
on a copy in memory, and `commit` writes the copy back.

The source keeps the storage behind a shared pointer; here the methods that use it
are programs on the storage.  The set of dirty pages is a list without duplicates.
-/

namespace JfsFuse

open ByteBuf Program

/-- `BLOCKS_PER_DMAP`, blocks in a page of the map. -/
def blocksPerDmap : ℕ := 8192

/-- `BMAP_I`, the inode number of the map. -/
def bmapI : ℕ := 2

/-- `SUPER1_OFF`, the byte offset of the superblock. -/
def super1Off : ℕ := 0x8000

/-- Offset of the working map in a page. -/
def wmapOff : ℕ := 2048

/-- Offset of the persistent map in a page. -/
def pmapOff : ℕ := 3072

structure BlockAllocMap where
  mapsize : ℕ
  nfree : UInt64
  /-- `true` for a free block. -/
  freeMap : ℕ → Bool
  ndmap : ℕ
  /-- Block of the descriptor; the pages follow it. -/
  dmapStart : ℕ
  dmapLen : ℕ
  /-- Extents allocated and freed since the last commit, as start and length. -/
  allocated : List (ℕ × ℕ) := []
  freed : List (ℕ × ℕ) := []
  /-- Pages to be written back, numbered from 1. -/
  dirtyPages : List ℕ := []

namespace BlockAllocMap

/-! ## Reading the map -/

/-- The slot of the BMAP inode in a block of the inode table. -/
def bmapSlot (data : List UInt8) : Option ℕ :=
  (List.range inosPerPage).find? fun i =>
    readLE data (i * disize + 4) 4 == 1 && readLE data (i * disize + 8) 4 == bmapI

/-- The loop of `find_bmap_inode` over `count` blocks from `block` on. -/
def findBmapFrom : ℕ → ℕ → StorageM (ℕ × ℕ)
  | _, 0 => throw (.other "BMAP inode not found")
  | block, count + 1 => do
      if (← get).sizeBlocks ≤ block then findBmapFrom (block + 1) count
      else
        let data ← StorageM.readBlock block
        match bmapSlot data with
        | some i => return (block, i * disize)
        | none => findBmapFrom (block + 1) count

/-- `find_bmap_inode`: block and offset of the BMAP inode. -/
def findBmapInode : StorageM (ℕ × ℕ) := do
  let sbData ← StorageM.readBytes super1Off blockSize
  let ait := Pxd.read sbData 48
  findBmapFrom ait.address (ait.length + 32)

/-- `parse_bmap_xtroot`: address and length of the first extent that is not empty. -/
def parseBmapXtroot (dinode : List UInt8) : Except StorageError (ℕ × ℕ) :=
  let xt := dinode.drop 224
  let nextindex := readLE xt 18 2
  -- slots that reach past the inode end the search
  let slots := (List.range' 2 (nextindex - 2)).takeWhile fun i => 32 + (i - 2) * 16 + 16 ≤ xt.length
  match (slots.map fun i => Pxd.read xt (32 + (i - 2) * 16 + 8)).find? fun pxd => 0 < pxd.length with
  | some pxd => .ok (pxd.address, pxd.length)
  | none =>
      let selfPxd := Pxd.read xt 24
      if 0 < selfPxd.length then .ok (selfPxd.address, selfPxd.length)
      else .error (.other "no extents in bmap xtroot")

/-- `parse_dmap_page`: take the persistent map of a page over into `freeMap`. -/
def parseDmapPage (page : List UInt8) (startBlock mapsize : ℕ) (freeMap : ℕ → Bool) : ℕ → Bool :=
  fun blk =>
    if startBlock ≤ blk ∧ blk < startBlock + blocksPerDmap ∧ blk < mapsize then
      testBit page pmapOff (blk - startBlock)
    else freeMap blk

/-- The loop over the pages, from page `i` on. -/
def readDmapPages (dmapStart mapsize : ℕ) : ℕ → ℕ → (ℕ → Bool) → StorageM (ℕ → Bool)
  | _, 0, freeMap => return freeMap
  | i, count + 1, freeMap => do
      let dmapBlock := dmapStart + 1 + i
      if (← get).sizeBlocks ≤ dmapBlock then return freeMap
      else
        let page ← StorageM.readBlock dmapBlock
        readDmapPages dmapStart mapsize (i + 1) count
          (parseDmapPage page (i * blocksPerDmap) mapsize freeMap)

/-- `BlockAllocMap::new`. -/
def new : StorageM BlockAllocMap := do
  let (pageBlock, pageOffset) ← findBmapInode
  let pageData ← StorageM.readBlock pageBlock
  let (dmapStart, dmapLen) ← returnExcept (parseBmapXtroot (slice pageData pageOffset disize))
  let desc ← StorageM.readBlock dmapStart
  let mapsize := readLE desc 0 8
  let nfree := UInt64.ofNat (readLE desc 8 8)
  let ndmap := max ((dmapLen - 1) * blockSize / blocksPerDmap) 1
  let freeMap ← readDmapPages dmapStart mapsize 0 ndmap fun _ => false
  return { mapsize, nfree, freeMap, ndmap, dmapStart, dmapLen }

/-! ## Allocating and freeing -/

/-- The loop of `find_free_run` over `count` blocks from `blk` on, with a run of
`runLen` free blocks from `runStart` on right before `blk`. -/
def findFreeRunFrom (freeMap : ℕ → Bool) (nblocks : ℕ) : ℕ → ℕ → ℕ → ℕ → Option ℕ
  | _, 0, _, _ => none
  | blk, count + 1, runStart, runLen =>
      if freeMap blk then
        let runStart := if runLen = 0 then blk else runStart
        if nblocks ≤ runLen + 1 then some runStart
        else findFreeRunFrom freeMap nblocks (blk + 1) count runStart (runLen + 1)
      else findFreeRunFrom freeMap nblocks (blk + 1) count runStart 0

/-- `find_free_run`. -/
def findFreeRun (m : BlockAllocMap) (nblocks start : ℕ) : Option ℕ :=
  findFreeRunFrom m.freeMap nblocks start (m.mapsize - start) start 0

/-- Mark the blocks of an extent. -/
def mark (freeMap : ℕ → Bool) (start n : ℕ) (free : Bool) : ℕ → Bool :=
  fun blk => if start ≤ blk ∧ blk < start + n then free else freeMap blk

/-- Add the page of a block to the dirty pages. -/
def insertDirty (dirtyPages : List ℕ) (block : ℕ) : List ℕ :=
  List.insert (1 + block / blocksPerDmap) dirtyPages

/-- `saturating_sub` of a block count. -/
def saturatingSub (nfree : UInt64) (n : ℕ) : UInt64 :=
  UInt64.ofNat (nfree.toNat - n)

/-- `alloc_extent`: the first run of free blocks from `hint` on, or from the start. -/
def allocExtent (m : BlockAllocMap) (nblocks hint : ℕ) : Except StorageError (Pxd × BlockAllocMap) :=
  if nblocks = 0 ∨ m.mapsize < nblocks then .error (.other "invalid block count")
  else match (m.findFreeRun nblocks hint).orElse fun _ => m.findFreeRun nblocks 0 with
    | none => .error (.other "no contiguous free blocks available")
    | some start =>
        .ok ((Pxd.setAddress {} start).setLength nblocks,
          { m with
            freeMap := mark m.freeMap start nblocks false
            nfree := saturatingSub m.nfree nblocks
            allocated := m.allocated ++ [(start, nblocks % 2 ^ 32)]
            dirtyPages := insertDirty m.dirtyPages start })

/-- `free_extent`. -/
def freeExtent (m : BlockAllocMap) (pxd : Pxd) : Except StorageError BlockAllocMap :=
  let addr := pxd.address
  let len := pxd.length
  if m.mapsize < addr + len then .error (.other "extent exceeds aggregate size")
  else
    .ok { m with
      freeMap := mark m.freeMap addr len true
      nfree := m.nfree + UInt64.ofNat len
      freed := m.freed ++ [(addr, len)]
      dirtyPages := insertDirty m.dirtyPages addr }

/-- `rollback`: undo the allocations, then the frees, since the last commit. -/
def rollback (m : BlockAllocMap) : BlockAllocMap :=
  let afterAlloc := m.allocated.foldl (fun (map : (ℕ → Bool) × UInt64) e =>
    (mark map.1 e.1 e.2 true, map.2 + UInt64.ofNat e.2)) (m.freeMap, m.nfree)
  let afterFree := m.freed.foldl (fun (map : (ℕ → Bool) × UInt64) e =>
    (mark map.1 e.1 e.2 false, map.2 - UInt64.ofNat e.2)) afterAlloc
  { m with
    freeMap := afterFree.1, nfree := afterFree.2, allocated := [], freed := [], dirtyPages := [] }

/-! ## Writing the map back -/

/-- The bitmap word for the 32 blocks from `blkOffset` on. -/
def mapWord (m : BlockAllocMap) (blkOffset : ℕ) : ℕ :=
  (List.range 32).foldl (fun word bit =>
    if blkOffset + bit < m.mapsize ∧ m.freeMap (blkOffset + bit) then word ||| 2 ^ bit else word) 0

/-- The page with the map written into its working map. -/
def updatePage (m : BlockAllocMap) (dmapPage : ℕ) (page : List UInt8) : List UInt8 :=
  (List.range 256).foldl (fun page wordIdx =>
    writeLE page (wmapOff + wordIdx * 4) 4
      (m.mapWord ((dmapPage - 1) * blocksPerDmap + wordIdx * 32))) page

/-- The loop of `commit` over the dirty pages. -/
def commitPages (m : BlockAllocMap) : List ℕ → StorageM Unit
  | [] => return ()
  | dmapPage :: rest => do
      let block := m.dmapStart + dmapPage
      if (← get).sizeBlocks ≤ block then commitPages m rest
      else
        let page ← StorageM.readBlock block
        StorageM.writeBlock block (m.updatePage dmapPage page)
        commitPages m rest

/-- `commit`. -/
def commit (m : BlockAllocMap) : StorageM BlockAllocMap := do
  commitPages m m.dirtyPages
  let desc ← StorageM.readBlock m.dmapStart
  StorageM.writeBlock m.dmapStart (writeLE desc 8 8 m.nfree.toNat)
  return { m with dirtyPages := [], allocated := [], freed := [] }

end BlockAllocMap

end JfsFuse
