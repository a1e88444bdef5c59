import JfsFuse.Alloc.Dmap
import JfsFuse.Journal.Writer

/-!
# Making a filesystem

`mkfs.rs`: the image of an empty filesystem with an inline journal, as it is
written into a memory storage.
-/

namespace JfsFuse

open ByteBuf Program

namespace Mkfs

/-- `LOG_AREA_BLOCKS`, blocks of the inline journal. -/
def logAreaBlocks : ℕ := 256

/-- `make_pxd`. -/
def makePxd (length address : ℕ) : Pxd :=
  (Pxd.setLength {} length).setAddress address

/-- The superblock, 184 bytes. -/
def superblock (numBlocks : ℕ) : List UInt8 :=
  spliceAll [(0, [74, 70, 83, 49]), (4, leBytes 4 1), (8, leBytes 8 numBlocks), (16, leBytes 4 blockSize),
    (20, leBytes 2 12), (22, leBytes 2 3), (24, leBytes 4 512), (28, leBytes 2 9),
    (32, leBytes 4 8192), (36, leBytes 4 0x10200900), (48, (makePxd 4 24).toBytes),
    (56, (makePxd 2 22).toBytes), (72, (makePxd logAreaBlocks 3840).toBytes)] (zeros 184)

/-- The log superblock: 16 pages, marked as replayed. -/
def logSuper : LogSuper where
  magic := 0x87654321
  version := 1
  size := 16
  bsize := UInt32.ofNat logPSize
  l2bsize := 12
  flag := 0x10200900
  state := UInt32.ofNat logRedone

/-- An inode with the given fields set, as offset and bytes. -/
def dinode (fields : List (ℕ × List UInt8)) : List UInt8 :=
  spliceAll fields (zeros disize)

/-- `build_bmap_inode_bytes`: an extent of two blocks at block 17. -/
def bmapInodeBytes : List UInt8 :=
  dinode [(4, leBytes 4 1), (8, leBytes 4 bmapI), (12, leBytes 4 1), (24, leBytes 8 24576),
    (32, leBytes 8 2), (40, leBytes 4 1), (52, leBytes 4 0x18000), (240, [0x83]),
    (242, leBytes 2 3), (244, leBytes 2 18), (264, (makePxd 2 17).toBytes)]

/-- `build_aggregate_inode_bytes`. -/
def aggregateInodeBytes : List UInt8 :=
  dinode [(4, leBytes 4 1), (8, leBytes 4 filesystemI), (24, leBytes 8 8192), (40, leBytes 4 1),
    (52, leBytes 4 0x18000)]

/-- `build_root_inode_bytes`: an empty directory. -/
def rootInodeBytes : List UInt8 :=
  dinode [(4, leBytes 4 filesystemI), (8, leBytes 4 rootI), (12, leBytes 4 1),
    (16, (makePxd 1 28).toBytes), (24, leBytes 8 256), (40, leBytes 4 2), (52, leBytes 4 0x141ED),
    (240, [0x83]), (244, leBytes 4 2)]

/-- A block of the inode table with one inode in it. -/
def inodeBlock (slot : ℕ) (dinode : List UInt8) : List UInt8 :=
  splice (zeros blockSize) (slot * disize) dinode

/-- The extents that are in use in a new filesystem, as start and length. -/
def reserved : List (ℕ × ℕ) :=
  [(0, 17), (17, 3), (22, 2), (24, 5), (3840, logAreaBlocks)]

def isReserved (block : ℕ) : Bool :=
  reserved.any fun e => e.1 ≤ block && block < e.1 + e.2

/-- Free blocks of a new filesystem. -/
def freeBlocks (numBlocks : ℕ) : ℕ :=
  reserved.foldl (fun nfree e => nfree - e.2) numBlocks

/-- The descriptor of the block allocation map. -/
def bmapDesc (numBlocks : ℕ) : List UInt8 :=
  writeLE (writeLE (zeros blockSize) 0 8 numBlocks) 8 8 (freeBlocks numBlocks)

/-- A page of the block allocation map: its persistent map has a bit for every block
of the filesystem that is not reserved. -/
def dmapPage (numBlocks dmapIdx : ℕ) : List UInt8 :=
  (List.range blocksPerDmap).foldl (fun dmap blk =>
    let globalBlk := dmapIdx * blocksPerDmap + blk
    if numBlocks ≤ globalBlk ∨ isReserved globalBlk then dmap else setBit dmap pmapOff blk)
    (zeros blockSize)

/-- The writes of `build_filesystem`. -/
def imageWrites (numBlocks : ℕ) : List (ℕ × List UInt8) :=
  [(super1Off, superblock numBlocks),
    (3840 * blockSize + blockSize, LogManager.superFields logSuper),
    (24 * blockSize, inodeBlock 1 bmapInodeBytes),
    (26 * blockSize, inodeBlock 0 aggregateInodeBytes),
    (28 * blockSize, inodeBlock 2 rootInodeBytes),
    (17 * blockSize, bmapDesc numBlocks),
    (18 * blockSize, dmapPage numBlocks 0),
    (19 * blockSize, dmapPage numBlocks 1),
    (24 * blockSize, inodeBlock 1 bmapInodeBytes)]

/-- Perform the writes; the result of each is ignored. -/
def writeImage : List (ℕ × List UInt8) → StorageM Unit
  | [] => return ()
  | (offset, data) :: rest => do
      tryCatch (StorageM.writeBytes offset data) fun _ => return ()
      writeImage rest

/-- `build_filesystem`. -/
def buildFilesystem (numBlocks : ℕ) : StorageM Unit :=
  writeImage (imageWrites numBlocks)

/-- `create_filesystem_with_blocks`. -/
def createFilesystemWithBlocks (numBlocks : ℕ) : Storage :=
  final (buildFilesystem numBlocks (Storage.newMemory numBlocks))

/-! ## The image -/

@[simp] theorem length_superblock (numBlocks : ℕ) : (superblock numBlocks).length = 184 := by
  unfold superblock
  rw [length_spliceAll, length_zeros]
  simp [Pxd.toBytes]

@[simp] theorem length_bmapInodeBytes : bmapInodeBytes.length = disize := by
  decide +kernel

@[simp] theorem length_aggregateInodeBytes : aggregateInodeBytes.length = disize := by
  decide +kernel

@[simp] theorem length_rootInodeBytes : rootInodeBytes.length = disize := by
  decide +kernel

theorem length_inodeBlock {slot : ℕ} {dinode : List UInt8} (hslot : slot < inosPerPage)
    (hlen : dinode.length = disize) : (inodeBlock slot dinode).length = blockSize := by
  unfold inodeBlock
  rw [length_splice, length_zeros]
  rw [hlen, length_zeros]
  unfold inosPerPage at hslot
  unfold disize blockSize
  omega

@[simp] theorem length_bmapDesc (numBlocks : ℕ) : (bmapDesc numBlocks).length = blockSize := by
  have hfirst : (writeLE (zeros blockSize) 0 8 numBlocks).length = blockSize := by
    rw [length_writeLE _ (by rw [length_zeros]; decide), length_zeros]
  unfold bmapDesc
  rw [length_writeLE _ (by rw [hfirst]; decide), hfirst]

/-- The block is free in a new filesystem. -/
def isFree (numBlocks block : ℕ) : Bool :=
  block < numBlocks && !isReserved block

/-- The page after the first `count` blocks: its length and its bits. -/
theorem dmapPage_first (numBlocks dmapIdx : ℕ) {count : ℕ} (hcount : count ≤ blocksPerDmap) :
    let page := (List.range count).foldl (fun dmap blk =>
      let globalBlk := dmapIdx * blocksPerDmap + blk
      if numBlocks ≤ globalBlk ∨ isReserved globalBlk then dmap else setBit dmap pmapOff blk)
      (zeros blockSize)
    page.length = blockSize ∧ ∀ blk, testBit page pmapOff blk =
      (decide (blk < count) && isFree numBlocks (dmapIdx * blocksPerDmap + blk)) := by
  induction count with
  | zero =>
      refine ⟨length_zeros _, fun blk => ?_⟩
      rw [List.range_zero, List.foldl_nil, testBit_zeros]
      simp
  | succ count ih =>
      obtain ⟨hlen, hbits⟩ := ih (by omega)
      rw [List.range_succ, List.foldl_append, List.foldl_cons, List.foldl_nil]
      generalize (List.range count).foldl _ (zeros blockSize) = page at hlen hbits ⊢
      have hfits : pmapOff + count / 32 * 4 + 4 ≤ page.length := by
        rw [hlen]
        unfold blocksPerDmap at hcount
        unfold pmapOff blockSize
        omega
      have hnext : ∀ blk, decide (blk < count + 1) = (decide (blk < count) || decide (count = blk)) := by
        intro blk
        rw [← Bool.decide_or]
        exact decide_eq_decide.mpr (by omega)
      -- only the bit of block `count` can change
      by_cases hskip : numBlocks ≤ dmapIdx * blocksPerDmap + count ∨
          isReserved (dmapIdx * blocksPerDmap + count)
      · have hused : isFree numBlocks (dmapIdx * blocksPerDmap + count) = false := by
          unfold isFree
          rcases hskip with hout | hres
          · rw [decide_eq_false (Nat.not_lt.mpr hout), Bool.false_and]
          · rw [hres, Bool.not_true, Bool.and_false]
        simp only [if_pos hskip]
        refine ⟨hlen, fun blk => ?_⟩
        rw [hbits, hnext]
        by_cases heq : count = blk
        · rw [← heq, hused, Bool.and_false, Bool.and_false]
        · rw [decide_eq_false heq, Bool.or_false]
      · have hfree : isFree numBlocks (dmapIdx * blocksPerDmap + count) = true := by
          push Not at hskip
          unfold isFree
          rw [decide_eq_true hskip.1, Bool.eq_false_of_not_eq_true hskip.2]
          rfl
        simp only [if_neg hskip]
        refine ⟨by rw [length_setBit hfits, hlen], fun blk => ?_⟩
        rw [testBit_setBit hfits, hbits, hnext]
        by_cases heq : count = blk
        · rw [← heq, hfree, decide_eq_true rfl, Bool.or_true, Bool.or_true, Bool.true_and]
        · rw [decide_eq_false heq, Bool.or_false, Bool.or_false]

theorem length_dmapPage (numBlocks dmapIdx : ℕ) : (dmapPage numBlocks dmapIdx).length = blockSize :=
  (dmapPage_first numBlocks dmapIdx le_rfl).1

/-- The persistent map of a page has a bit for each free block. -/
theorem testBit_dmapPage (numBlocks dmapIdx : ℕ) {blk : ℕ} (hblk : blk < blocksPerDmap) :
    testBit (dmapPage numBlocks dmapIdx) pmapOff blk =
      isFree numBlocks (dmapIdx * blocksPerDmap + blk) := by
  have hbits := (dmapPage_first numBlocks dmapIdx le_rfl).2 blk
  rw [decide_eq_true hblk, Bool.true_and] at hbits
  exact hbits

/-- Writes inside a memory storage all take effect. -/
theorem writeImage_ok {writes : List (ℕ × List UInt8)} {s : Storage} (hfaults : s.faults = [])
    (hbackend : s.backend = .memory)
    (hin : ∀ write ∈ writes, write.1 + write.2.length ≤ s.size) :
    ∃ s', writeImage writes s = .ok () s' ∧ s'.faults = [] ∧ s'.backend = .memory ∧
      s'.size = s.size ∧ s'.data = Memory.writeAll writes s.data := by
  induction writes generalizing s with
  | nil => exact ⟨s, rfl, hfaults, hbackend, rfl, rfl⟩
  | cons write rest ih =>
      obtain ⟨offset, data⟩ := write
      have hacc : s.writeRefused offset data.length = none := by
        have hle := hin (offset, data) (List.mem_cons_self ..)
        unfold Storage.writeRefused
        simp only [hbackend]
        exact if_neg (Nat.not_lt.mpr hle)
      have hwrite : (tryCatch (StorageM.writeBytes offset data) fun _ => pure () : StorageM Unit) s =
          .ok () ((s.written offset data).record (.writeBytes offset data)) :=
        tryCatch_ok (StorageM.writeBytes_ok hfaults hacc)
      obtain ⟨s', hrun, hfaults', hbackend', hsize', hdata'⟩ := ih
        (s := (s.written offset data).record (.writeBytes offset data)) hfaults hbackend
        fun write hmem => hin write (List.mem_cons_of_mem _ hmem)
      refine ⟨s', ?_, hfaults', hbackend', hsize', hdata'⟩
      unfold writeImage
      rw [bind_ok hwrite]
      exact hrun

/-- The fields of the superblock that are read when it is mounted. -/
structure HasFields (superblock : List UInt8) (numBlocks : ℕ) : Prop where
  magic : slice superblock 0 4 = [74, 70, 83, 49]
  version : slice superblock 4 4 = leBytes 4 1
  size : slice superblock 8 8 = leBytes 8 numBlocks
  bsize : slice superblock 16 4 = leBytes 4 blockSize
  flag : slice superblock 36 4 = leBytes 4 0x10200900
  ait2 : slice superblock 48 8 = (makePxd 4 24).toBytes
  logpxd : slice superblock 72 8 = (makePxd logAreaBlocks 3840).toBytes

theorem hasFields_superblock (numBlocks : ℕ) : HasFields (superblock numBlocks) numBlocks := by
  constructor
  · exact slice_spliceAll 0 (by simp) (by simp [Pxd.toBytes]) (by simp)
  · exact slice_spliceAll 1 (by simp) (by simp [Pxd.toBytes]) (by simp)
  · exact slice_spliceAll 2 (by simp) (by simp [Pxd.toBytes]) (by simp)
  · exact slice_spliceAll 3 (by simp) (by simp [Pxd.toBytes]) (by simp)
  · exact slice_spliceAll 9 (by simp) (by simp [Pxd.toBytes]) (by simp)
  · exact slice_spliceAll 10 (by simp) (by simp [Pxd.toBytes]) (by simp [Pxd.toBytes])
  · exact slice_spliceAll 12 (by simp) (by simp [Pxd.toBytes]) (by simp)

/-- The storage that `create_filesystem_with_blocks` returns. -/
theorem createFilesystemWithBlocks_spec {numBlocks : ℕ} (hblocks : 4096 ≤ numBlocks) :
    let s := createFilesystemWithBlocks numBlocks
    s.faults = [] ∧ s.backend = .memory ∧ s.size = numBlocks * blockSize ∧
      s.data = Memory.writeAll (imageWrites numBlocks) fun _ => 0 := by
  have hin : ∀ write ∈ imageWrites numBlocks,
      write.1 + write.2.length ≤ (Storage.newMemory numBlocks).size := by
    have hsize : 4096 * blockSize ≤ (Storage.newMemory numBlocks).size :=
      Nat.mul_le_mul_right _ hblocks
    have h₁ := length_inodeBlock (show 1 < inosPerPage by decide) length_bmapInodeBytes
    have h₂ := length_inodeBlock (show 0 < inosPerPage by decide) length_aggregateInodeBytes
    have h₃ := length_inodeBlock (show 2 < inosPerPage by decide) length_rootInodeBytes
    unfold blockSize at hsize
    intro write hwrite
    simp only [imageWrites, List.mem_cons, List.not_mem_nil, or_false] at hwrite
    rcases hwrite with rfl | rfl | rfl | rfl | rfl | rfl | rfl | rfl | rfl <;>
      simp only [length_superblock, LogManager.length_superFields, h₁, h₂, h₃, length_bmapDesc,
        length_dmapPage, super1Off, blockSize] <;> omega
  obtain ⟨s, hrun, hfaults, hbackend, hsize, hdata⟩ :=
    writeImage_ok (s := Storage.newMemory numBlocks) rfl rfl hin
  unfold createFilesystemWithBlocks buildFilesystem
  rw [hrun]
  exact ⟨hfaults, hbackend, hsize, hdata⟩

section Blocks

variable (numBlocks : ℕ)

/-- A block that some write of the image stores and no later write meets. -/
private theorem read_image_block {first last : List (ℕ × List UInt8)} {block : ℕ}
    {data : List UInt8}
    (hsplit : imageWrites numBlocks = first ++ (block * blockSize, data) :: last)
    (hlen : data.length = blockSize)
    (hlater : ∀ later ∈ last,
      later.1 + later.2.length ≤ block * blockSize ∨ block * blockSize + blockSize ≤ later.1) :
    Memory.read (Memory.writeAll (imageWrites numBlocks) fun _ => 0) (block * blockSize) blockSize =
      data := by
  have hself := slice_zero_length data
  rw [hlen] at hself
  rw [hsplit, Memory.writeAll_append, Memory.writeAll_cons,
    Memory.read_writeAll_of_disjoint hlater,
    Memory.read_write_inside le_rfl (by rw [hlen]), Nat.sub_self, hself]

theorem read_image_bmapInode :
    Memory.read (Memory.writeAll (imageWrites numBlocks) fun _ => 0) (24 * blockSize) blockSize =
      inodeBlock 1 bmapInodeBytes := by
  have hsplit : imageWrites numBlocks = (imageWrites numBlocks).take 8 ++
      (24 * blockSize, inodeBlock 1 bmapInodeBytes) :: [] := rfl
  exact read_image_block numBlocks hsplit (length_inodeBlock (by decide) length_bmapInodeBytes)
    (by simp)

theorem read_image_desc :
    Memory.read (Memory.writeAll (imageWrites numBlocks) fun _ => 0) (17 * blockSize) blockSize =
      bmapDesc numBlocks := by
  have hsplit : imageWrites numBlocks = (imageWrites numBlocks).take 5 ++
      (17 * blockSize, bmapDesc numBlocks) :: (imageWrites numBlocks).drop 6 := rfl
  refine read_image_block numBlocks hsplit (length_bmapDesc _) ?_
  simp [imageWrites, blockSize]

theorem read_image_dmap :
    Memory.read (Memory.writeAll (imageWrites numBlocks) fun _ => 0) (18 * blockSize) blockSize =
      dmapPage numBlocks 0 := by
  have hsplit : imageWrites numBlocks = (imageWrites numBlocks).take 6 ++
      (18 * blockSize, dmapPage numBlocks 0) :: (imageWrites numBlocks).drop 7 := rfl
  refine read_image_block numBlocks hsplit (length_dmapPage _ _) ?_
  simp [imageWrites, blockSize]

/-- The bytes of the superblock. -/
theorem read_image_super {off n : ℕ} (hin : off + n ≤ 184) :
    Memory.read (Memory.writeAll (imageWrites numBlocks) fun _ => 0) (super1Off + off) n =
      slice (superblock numBlocks) off n := by
  have hsplit : imageWrites numBlocks =
      (super1Off, superblock numBlocks) :: (imageWrites numBlocks).tail := rfl
  have hl₁ := length_inodeBlock (show 1 < inosPerPage by decide) length_bmapInodeBytes
  have hl₂ := length_inodeBlock (show 0 < inosPerPage by decide) length_aggregateInodeBytes
  have hl₃ := length_inodeBlock (show 2 < inosPerPage by decide) length_rootInodeBytes
  have hlater : ∀ later ∈ (imageWrites numBlocks).tail,
      later.1 + later.2.length ≤ super1Off + off ∨ super1Off + off + n ≤ later.1 := by
    intro write hwrite
    simp only [imageWrites, List.tail_cons, List.mem_cons, List.not_mem_nil, or_false] at hwrite
    rcases hwrite with rfl | rfl | rfl | rfl | rfl | rfl | rfl | rfl <;>
      simp only [super1Off, blockSize] <;> omega
  rw [hsplit, Memory.writeAll_cons, Memory.read_writeAll_of_disjoint hlater,
    Memory.read_write_inside (Nat.le_add_right ..) (by rw [length_superblock]; omega),
    Nat.add_sub_cancel_left]

theorem read_image_ait :
    Memory.read (Memory.writeAll (imageWrites numBlocks) fun _ => 0) (super1Off + 48) 8 =
      (makePxd 4 24).toBytes := by
  rw [read_image_super numBlocks (by decide), (hasFields_superblock numBlocks).ait2]

/-- The fixed-size fields of the log superblock. -/
theorem read_image_log {off n : ℕ} (hin : off + n ≤ 36) :
    Memory.read (Memory.writeAll (imageWrites numBlocks) fun _ => 0) (3841 * blockSize + off) n =
      slice (LogManager.superWords logSuper) off n := by
  have hsplit : imageWrites numBlocks = (imageWrites numBlocks).take 1 ++
      (3840 * blockSize + blockSize, LogManager.superFields logSuper) ::
        (imageWrites numBlocks).drop 2 := rfl
  have hl₁ := length_inodeBlock (show 1 < inosPerPage by decide) length_bmapInodeBytes
  have hl₂ := length_inodeBlock (show 0 < inosPerPage by decide) length_aggregateInodeBytes
  have hl₃ := length_inodeBlock (show 2 < inosPerPage by decide) length_rootInodeBytes
  have hlater : ∀ later ∈ (imageWrites numBlocks).drop 2,
      later.1 + later.2.length ≤ 3841 * blockSize + off ∨ 3841 * blockSize + off + n ≤ later.1 := by
    intro write hwrite
    simp only [imageWrites, List.drop_succ_cons, List.drop_zero, List.mem_cons, List.not_mem_nil,
      or_false] at hwrite
    rcases hwrite with rfl | rfl | rfl | rfl | rfl | rfl | rfl <;>
      simp only [hl₁, hl₂, hl₃, length_bmapDesc, length_dmapPage, blockSize] <;> omega
  have hwords : (LogManager.superWords logSuper).length = 36 := by
    simp [LogManager.superWords]
  have hbase : 3841 * blockSize + off - (3840 * blockSize + blockSize) = off := by
    unfold blockSize
    omega
  rw [hsplit, Memory.writeAll_append, Memory.writeAll_cons, Memory.read_writeAll_of_disjoint hlater,
    Memory.read_write_inside (by unfold blockSize; omega)
      (by rw [LogManager.length_superFields]; unfold blockSize; omega), hbase]
  unfold LogManager.superFields
  rw [List.append_assoc, List.append_assoc, slice_append_left _ (by rw [hwords]; exact hin)]

theorem read_image_aggregateInode :
    Memory.read (Memory.writeAll (imageWrites numBlocks) fun _ => 0) (26 * blockSize) blockSize =
      inodeBlock 0 aggregateInodeBytes := by
  have hsplit : imageWrites numBlocks = (imageWrites numBlocks).take 3 ++
      (26 * blockSize, inodeBlock 0 aggregateInodeBytes) :: (imageWrites numBlocks).drop 4 := rfl
  have h₁ := length_inodeBlock (show 1 < inosPerPage by decide) length_bmapInodeBytes
  have h₂ := length_inodeBlock (show 2 < inosPerPage by decide) length_rootInodeBytes
  refine read_image_block numBlocks hsplit
    (length_inodeBlock (by decide) length_aggregateInodeBytes) ?_
  simp [imageWrites, blockSize, h₁, h₂, length_dmapPage]

theorem read_image_rootInode :
    Memory.read (Memory.writeAll (imageWrites numBlocks) fun _ => 0) (28 * blockSize) blockSize =
      inodeBlock 2 rootInodeBytes := by
  have hsplit : imageWrites numBlocks = (imageWrites numBlocks).take 4 ++
      (28 * blockSize, inodeBlock 2 rootInodeBytes) :: (imageWrites numBlocks).drop 5 := rfl
  have h₁ := length_inodeBlock (show 1 < inosPerPage by decide) length_bmapInodeBytes
  refine read_image_block numBlocks hsplit (length_inodeBlock (by decide) length_rootInodeBytes) ?_
  simp [imageWrites, blockSize, h₁, length_dmapPage]

/-- The other blocks that hold inodes are empty. -/
theorem read_image_table {block : ℕ} (hlow : 24 ≤ block) (hhigh : block < 3840)
    (h₁ : block ≠ 24) (h₂ : block ≠ 26) (h₃ : block ≠ 28) :
    Memory.read (Memory.writeAll (imageWrites numBlocks) fun _ => 0) (block * blockSize) blockSize =
      zeros blockSize := by
  have hl₁ := length_inodeBlock (show 1 < inosPerPage by decide) length_bmapInodeBytes
  have hl₂ := length_inodeBlock (show 0 < inosPerPage by decide) length_aggregateInodeBytes
  have hl₃ := length_inodeBlock (show 2 < inosPerPage by decide) length_rootInodeBytes
  have hzero : Memory.read (fun _ => (0 : UInt8)) (block * blockSize) blockSize = zeros blockSize := by
    refine ext_getD 0 (by rw [Memory.length_read, length_zeros]) fun i hi => ?_
    rw [Memory.length_read] at hi
    rw [getD_zeros, Memory.getD_read _ 0 hi]
  rw [← hzero]
  apply Memory.read_writeAll_of_disjoint
  intro write hwrite
  simp only [imageWrites, List.mem_cons, List.not_mem_nil, or_false] at hwrite
  rcases hwrite with rfl | rfl | rfl | rfl | rfl | rfl | rfl | rfl | rfl <;>
    simp only [length_superblock, LogManager.length_superFields, hl₁, hl₂, hl₃, length_bmapDesc,
      length_dmapPage, super1Off, blockSize] <;> omega

end Blocks

end Mkfs

end JfsFuse
