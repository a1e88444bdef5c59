import JfsFuse.Mkfs

/-!
# What a remount reads of the block allocation map

`commit` writes the map in memory into the working maps of the dirty pages, and
`BlockAllocMap::new` reads the persistent maps, which `commit` does not touch.  So
the map that a remount reads is the one that was read before, with the count of
free blocks of the commit.
-/

namespace JfsFuse

open ByteBuf Program

namespace Storage

/-- A memory storage of at least 4096 blocks that does not fail. -/
structure Whole (s : Storage) : Prop where
  faults : s.faults = []
  backend : s.backend = .memory
  size : 4096 * blockSize ≤ s.size

theorem Whole.sizeBlocks {s : Storage} (h : s.Whole) : 4096 ≤ s.sizeBlocks := by
  unfold Storage.sizeBlocks
  rw [Nat.le_div_iff_mul_le (by decide)]
  exact h.size

theorem Whole.readBytes {s : Storage} (h : s.Whole) {offset n : ℕ}
    (hin : offset + n ≤ 4096 * blockSize) :
    StorageM.readBytes offset n s = .ok (Memory.read s.data offset n) s := by
  have hresult : s.readResult offset n = .ok (Memory.read s.data offset n) := by
    unfold readResult
    simp only [h.backend]
    exact if_neg (Nat.not_lt.mpr (hin.trans h.size))
  rw [StorageM.readBytes_eq h.faults, hresult]
  rfl

theorem Whole.readBlock {s : Storage} (h : s.Whole) {b : ℕ} (hb : b < 4096) :
    StorageM.readBlock b s = .ok (s.block b) s := by
  refine h.readBytes ?_
  rw [← Nat.succ_mul]
  exact Nat.mul_le_mul_right _ hb

/-- A block write replaces the block. -/
theorem Whole.writeBlock {s : Storage} (h : s.Whole) {b : ℕ} (hb : b < 4096) {data : List UInt8}
    (hlen : data.length = blockSize) :
    ∃ s', StorageM.writeBlock b data s = .ok () s' ∧ s'.Whole ∧ s'.sizeBlocks = s.sizeBlocks ∧
      s'.data = Memory.write s.data (b * blockSize) data := by
  have hacc : s.writeBlockRefused b data = none := by
    have hin : (b + 1) * blockSize ≤ s.size := (Nat.mul_le_mul_right _ hb).trans h.size
    rw [Nat.succ_mul] at hin
    unfold writeBlockRefused writeRefused
    simp only [h.backend, hlen]
    exact if_neg (Nat.not_lt.mpr hin)
  exact ⟨_, StorageM.writeBlock_ok h.faults hacc, ⟨h.faults, h.backend, h.size⟩, rfl, rfl⟩

theorem block_write_self {data : ℕ → UInt8} {b : ℕ} {page : List UInt8}
    (hlen : page.length = blockSize) :
    Memory.read (Memory.write data (b * blockSize) page) (b * blockSize) blockSize = page := by
  rw [← hlen, Memory.read_write_self]

theorem read_write_other_block {data : ℕ → UInt8} {b offset n : ℕ} {page : List UInt8}
    (hlen : page.length = blockSize)
    (hdisj : offset + n ≤ b * blockSize ∨ (b + 1) * blockSize ≤ offset) :
    Memory.read (Memory.write data (b * blockSize) page) offset n = Memory.read data offset n := by
  refine Memory.read_write_of_disjoint ?_
  rw [hlen, ← Nat.succ_mul]
  exact hdisj

end Storage

namespace BlockAllocMap

/-! ## Reading the map of an image -/

/-- The storage has the superblock and the BMAP inode of an image. -/
structure HasMap (s : Storage) : Prop extends s.Whole where
  ait : Memory.read s.data (super1Off + 48) 8 = (Mkfs.makePxd 4 24).toBytes
  inode : s.block 24 = Mkfs.inodeBlock 1 Mkfs.bmapInodeBytes

/-- The map that is then read. -/
def loaded (s : Storage) : BlockAllocMap where
  mapsize := readLE (s.block 17) 0 8
  nfree := UInt64.ofNat (readLE (s.block 17) 8 8)
  freeMap := parseDmapPage (s.block 18) 0 (readLE (s.block 17) 0 8) fun _ => false
  ndmap := 1
  dmapStart := 17
  dmapLen := 2

@[simp] theorem loaded_mapsize (s : Storage) : (loaded s).mapsize = readLE (s.block 17) 0 8 := by
  rw [loaded]

@[simp] theorem loaded_nfree (s : Storage) :
    (loaded s).nfree = UInt64.ofNat (readLE (s.block 17) 8 8) := by
  rw [loaded]

@[simp] theorem loaded_freeMap (s : Storage) :
    (loaded s).freeMap = parseDmapPage (s.block 18) 0 (readLE (s.block 17) 0 8) fun _ => false := by
  rw [loaded]

@[simp] theorem loaded_dmapStart (s : Storage) : (loaded s).dmapStart = 17 := by
  rw [loaded]

@[simp] theorem loaded_dirtyPages (s : Storage) : (loaded s).dirtyPages = [] := by
  rw [loaded]

theorem bmapSlot_image : bmapSlot (Mkfs.inodeBlock 1 Mkfs.bmapInodeBytes) = some 1 := by
  decide +kernel

theorem parseBmapXtroot_image :
    parseBmapXtroot (slice (Mkfs.inodeBlock 1 Mkfs.bmapInodeBytes) disize disize) = .ok (17, 2) := by
  decide +kernel

theorem findBmapInode_ok {s : Storage} (h : HasMap s) : findBmapInode s = .ok (24, disize) s := by
  have hsuper : StorageM.readBytes super1Off blockSize s =
      .ok (Memory.read s.data super1Off blockSize) s := h.readBytes (by decide)
  have hpxd : Pxd.read (Memory.read s.data super1Off blockSize) 48 = Mkfs.makePxd 4 24 := by
    apply Pxd.read_of_slice
    rw [Memory.slice_read _ (by decide)]
    exact h.ait
  have hrange : ¬ s.sizeBlocks ≤ 24 := by
    have := h.sizeBlocks
    omega
  have haddr : (Mkfs.makePxd 4 24).address = 24 ∧ (Mkfs.makePxd 4 24).length + 32 = 35 + 1 := by
    decide
  unfold findBmapInode
  rw [bind_ok hsuper]
  simp only [hpxd, haddr.1, haddr.2]
  unfold findBmapFrom
  rw [bind_ok (get_apply s), if_neg hrange, bind_ok (h.readBlock (by decide)), h.inode,
    bmapSlot_image]
  rfl

/-- **Reading the map of an image** depends on the descriptor and the first page. -/
theorem new_ok {s : Storage} (h : HasMap s) : new s = .ok (loaded s) s := by
  have hparse : (returnExcept (parseBmapXtroot (slice (s.block 24) disize disize)) :
      StorageM (ℕ × ℕ)) s = .ok (17, 2) s := by
    rw [h.inode, parseBmapXtroot_image]
    rfl
  have hpages : readDmapPages 17 (readLE (s.block 17) 0 8) 0 1 (fun _ => false) s =
      .ok (loaded s).freeMap s := by
    have hrange : ¬ s.sizeBlocks ≤ 17 + 1 + 0 := by
      have := h.sizeBlocks
      omega
    unfold readDmapPages
    rw [bind_ok (get_apply s), if_neg hrange, bind_ok (h.readBlock (by decide))]
    rfl
  have hndmap : max ((2 - 1) * blockSize / blocksPerDmap) 1 = 1 := by decide
  unfold new
  rw [bind_ok (findBmapInode_ok h)]
  simp only
  rw [bind_ok (h.readBlock (by decide)), bind_ok hparse]
  simp only [hndmap]
  rw [bind_ok (h.readBlock (by decide)), bind_ok hpages]
  rfl

/-- The storage that `mkfs` makes. -/
theorem hasMap_create {numBlocks : ℕ} (hblocks : 4096 ≤ numBlocks) :
    HasMap (Mkfs.createFilesystemWithBlocks numBlocks) := by
  obtain ⟨hfaults, hbackend, hsize, hdata⟩ := Mkfs.createFilesystemWithBlocks_spec hblocks
  refine ⟨⟨hfaults, hbackend, ?_⟩, ?_, ?_⟩
  · rw [hsize]
    exact Nat.mul_le_mul_right _ hblocks
  · rw [hdata]
    exact Mkfs.read_image_ait numBlocks
  · unfold Storage.block
    rw [hdata]
    exact Mkfs.read_image_bmapInode numBlocks

/-! ## Writing the map back -/

/-- The persistent map of a page is not touched. -/
theorem updatePage_pmap (m : BlockAllocMap) (dmapPage : ℕ) {page : List UInt8}
    (hlen : page.length = blockSize) :
    (m.updatePage dmapPage page).length = blockSize ∧
      ∀ blk, blk < blocksPerDmap →
        testBit (m.updatePage dmapPage page) pmapOff blk = testBit page pmapOff blk := by
  unfold updatePage
  have hwords : ∀ wordIdx ∈ List.range 256, wordIdx < 256 := fun _ => List.mem_range.mp
  generalize List.range 256 = words at hwords
  induction words generalizing page with
  | nil => exact ⟨hlen, fun _ _ => rfl⟩
  | cons wordIdx rest ih =>
      have hword := hwords wordIdx (List.mem_cons_self ..)
      have hfits : wmapOff + wordIdx * 4 + 4 ≤ page.length := by
        rw [hlen]
        unfold wmapOff blockSize
        omega
      have hnext : (writeLE page (wmapOff + wordIdx * 4) 4
          (m.mapWord ((dmapPage - 1) * blocksPerDmap + wordIdx * 32))).length = blockSize := by
        rw [length_writeLE _ hfits, hlen]
      obtain ⟨hlen', hbits⟩ := ih hnext fun w hmem => hwords w (List.mem_cons_of_mem _ hmem)
      rw [List.foldl_cons]
      refine ⟨hlen', fun blk hblk => ?_⟩
      rw [hbits blk hblk]
      refine testBit_splice_of_disjoint (by rw [length_leBytes]; exact hfits) (Or.inr ?_)
      rw [length_leBytes]
      unfold wmapOff pmapOff
      omega

/-- What writing pages back keeps: the storage, everything outside the pages, and the
persistent map of the first page. -/
structure KeepsMap (s s' : Storage) : Prop where
  whole : s'.Whole
  sizeBlocks : s'.sizeBlocks = s.sizeBlocks
  outside : ∀ i, i < 18 * blockSize ∨ 20 * blockSize ≤ i → s'.data i = s.data i
  pmap : ∀ blk, blk < blocksPerDmap →
    testBit (s'.block 18) pmapOff blk = testBit (s.block 18) pmapOff blk

theorem commitPages_ok (m : BlockAllocMap) (hstart : m.dmapStart = 17) {pages : List ℕ}
    (hpages : ∀ page ∈ pages, page = 1 ∨ page = 2) {s : Storage} (h : s.Whole) :
    ∃ s', commitPages m pages s = .ok () s' ∧ KeepsMap s s' := by
  induction pages generalizing s with
  | nil => exact ⟨s, rfl, ⟨h, rfl, fun _ _ => rfl, fun _ _ => rfl⟩⟩
  | cons page rest ih =>
      have hpage := hpages page (List.mem_cons_self ..)
      have hblock : m.dmapStart + page = 18 ∨ m.dmapStart + page = 19 := by omega
      have hrange : ¬ s.sizeBlocks ≤ m.dmapStart + page := by
        have := h.sizeBlocks
        omega
      obtain ⟨hlen, hbits⟩ := updatePage_pmap m page (s.length_block (m.dmapStart + page))
      obtain ⟨s₁, hwrite, hwhole₁, hsize₁, hdata₁⟩ :=
        h.writeBlock (b := m.dmapStart + page) (by omega) hlen
      obtain ⟨s', hrun, hkeeps⟩ := ih (fun p hmem => hpages p (List.mem_cons_of_mem _ hmem)) hwhole₁
      refine ⟨s', ?_, ⟨hkeeps.whole, hkeeps.sizeBlocks.trans hsize₁, ?_, ?_⟩⟩
      · unfold commitPages
        rw [bind_ok (get_apply s), if_neg hrange, bind_ok (h.readBlock (by omega)), bind_ok hwrite]
        exact hrun
      · intro i hi
        rw [hkeeps.outside i hi, hdata₁]
        refine Memory.write_outside ?_
        rw [hlen]
        unfold blockSize at *
        omega
      · intro blk hblk
        rw [hkeeps.pmap blk hblk]
        rcases hblock with heq | heq
        · have hself : s₁.block 18 = m.updatePage page (s.block (m.dmapStart + page)) := by
            unfold Storage.block
            rw [hdata₁, heq, Storage.block_write_self (heq ▸ hlen)]
            rfl
          rw [hself, hbits blk hblk, heq]
        · have hother : s₁.block 18 = s.block 18 := by
            unfold Storage.block
            rw [hdata₁]
            refine Storage.read_write_other_block hlen (Or.inl ?_)
            rw [heq]
            decide
          rw [hother]

/-- **A commit keeps everything that a remount reads, but for the count of free
blocks.** -/
theorem commit_ok (m : BlockAllocMap) (hstart : m.dmapStart = 17)
    (hpages : ∀ page ∈ m.dirtyPages, page = 1 ∨ page = 2) {s : Storage} (h : HasMap s) :
    ∃ m' s', commit m s = .ok m' s' ∧ HasMap s' ∧
      (loaded s').mapsize = (loaded s).mapsize ∧ (loaded s').nfree = m.nfree ∧
      (loaded s').freeMap = (loaded s).freeMap := by
  obtain ⟨s₁, hrun, hkeeps⟩ := commitPages_ok m hstart hpages h.toWhole
  have hdesc : s₁.block 17 = s.block 17 :=
    Memory.read_congr fun i _ hi => hkeeps.outside i (Or.inl (by unfold blockSize at *; omega))
  have hlen : (writeLE (s.block 17) 8 8 m.nfree.toNat).length = blockSize := by
    rw [length_writeLE _ (by rw [s.length_block]; decide), s.length_block]
  obtain ⟨s', hwrite, hwhole, hsize, hdata⟩ := hkeeps.whole.writeBlock (b := 17) (by decide) hlen
  have hnew : s'.block 17 = writeLE (s.block 17) 8 8 m.nfree.toNat := by
    unfold Storage.block
    rw [hdata, Storage.block_write_self hlen]
    rfl
  have hoff : 8 ≤ (s.block 17).length := by
    rw [s.length_block]
    decide
  have hmapsize : readLE (s'.block 17) 0 8 = readLE (s.block 17) 0 8 := by
    rw [hnew, readLE_writeLE_of_disjoint _ (by rw [s.length_block]; decide) (Or.inl (by decide))]
  refine ⟨{ m with dirtyPages := [], allocated := [], freed := [] }, s', ?_, ⟨hwhole, ?_, ?_⟩,
    ?_, ?_, ?_⟩
  · have hread := hkeeps.whole.readBlock (show 17 < 4096 by omega)
    rw [hdesc] at hread
    unfold commit
    rw [bind_ok hrun, hstart, bind_ok hread, bind_ok hwrite]
    rfl
  · rw [hdata, Storage.read_write_other_block hlen (Or.inl (by decide)), ← h.ait]
    exact Memory.read_congr fun i _ hi => hkeeps.outside i (Or.inl (by
      unfold super1Off at hi
      unfold blockSize
      omega))
  · unfold Storage.block
    rw [hdata, Storage.read_write_other_block hlen (Or.inr (by decide)), ← h.inode]
    exact Memory.read_congr fun i hi _ => hkeeps.outside i (Or.inr (by unfold blockSize at *; omega))
  · rw [loaded_mapsize, loaded_mapsize, hmapsize]
  · have hlt : m.nfree.toNat < 256 ^ 8 := m.nfree.toNat_lt
    rw [loaded_nfree, hnew, readLE_writeLE_self _ hoff, Nat.mod_eq_of_lt hlt, UInt64.ofNat_toNat]
  · have hpage : s'.block 18 = s₁.block 18 := by
      unfold Storage.block
      rw [hdata, Storage.read_write_other_block hlen (Or.inr (by decide))]
    rw [loaded_freeMap, loaded_freeMap, hmapsize, hpage]
    funext blk
    unfold parseDmapPage
    split
    · next hblk =>
        exact hkeeps.pmap _ (by omega)
    · rfl

/-! ## Calls of the allocator -/

/-- What a run that `find_free_run` returns is: free blocks inside the map. -/
theorem findFreeRunFrom_spec {freeMap : ℕ → Bool} {nblocks blk count runStart runLen start : ℕ}
    (hrun : runLen = 0 ∨ runStart + runLen = blk)
    (hfree : ∀ b, runStart ≤ b → b < runStart + runLen → freeMap b = true)
    (hlt : runLen < nblocks)
    (h : findFreeRunFrom freeMap nblocks blk count runStart runLen = some start) :
    start + nblocks ≤ blk + count ∧ ∀ b, start ≤ b → b < start + nblocks → freeMap b = true := by
  induction count generalizing blk runStart runLen with
  | zero => cases h
  | succ count ih =>
      unfold findFreeRunFrom at h
      by_cases hblk : freeMap blk = true
      · rw [if_pos hblk] at h
        simp only at h
        have hstart : (if runLen = 0 then blk else runStart) + runLen = blk := by
          split
          · omega
          · omega
        have hfree' : ∀ b, (if runLen = 0 then blk else runStart) ≤ b →
            b < (if runLen = 0 then blk else runStart) + (runLen + 1) → freeMap b = true := by
          intro b hlow hhigh
          by_cases heq : b = blk
          · rw [heq]
            exact hblk
          · refine hfree b ?_ ?_
            · split at hlow <;> omega
            · split at hhigh <;> omega
        generalize (if runLen = 0 then blk else runStart) = runStart' at h hstart hfree'
        by_cases hdone : nblocks ≤ runLen + 1
        · rw [if_pos hdone] at h
          cases h
          refine ⟨by omega, fun b hlow hhigh => hfree' b hlow (by omega)⟩
        · rw [if_neg hdone] at h
          have hnext := ih (Or.inr (by omega)) hfree' (by omega) h
          exact ⟨by omega, hnext.2⟩
      · rw [if_neg hblk] at h
        have hnext := ih (Or.inl rfl) (fun b hlow hhigh => absurd hhigh (by omega)) (by omega) h
        exact ⟨by omega, hnext.2⟩

theorem findFreeRun_spec {m : BlockAllocMap} {nblocks hint start : ℕ} (hpos : 0 < nblocks)
    (h : m.findFreeRun nblocks hint = some start) :
    start + nblocks ≤ m.mapsize ∧ ∀ b, start ≤ b → b < start + nblocks → m.freeMap b = true := by
  unfold findFreeRun at h
  by_cases hhint : hint < m.mapsize
  · have hspec := findFreeRunFrom_spec (Or.inl rfl) (fun b hlow hhigh => absurd hhigh (by omega))
      hpos h
    exact ⟨by omega, hspec.2⟩
  · have hzero : m.mapsize - hint = 0 := by omega
    rw [hzero] at h
    cases h

/-- **What `alloc_extent` does when it returns**: it takes a run of free blocks. -/
theorem allocExtent_ok {m m' : BlockAllocMap} {nblocks hint : ℕ} {pxd : Pxd}
    (h : m.allocExtent nblocks hint = .ok (pxd, m')) :
    ∃ start, 0 < nblocks ∧ start + nblocks ≤ m.mapsize ∧
      (∀ b, start ≤ b → b < start + nblocks → m.freeMap b = true) ∧
      pxd = (Pxd.setAddress {} start).setLength nblocks ∧
      m' = { m with
        freeMap := mark m.freeMap start nblocks false
        nfree := saturatingSub m.nfree nblocks
        allocated := m.allocated ++ [(start, nblocks % 2 ^ 32)]
        dirtyPages := insertDirty m.dirtyPages start } := by
  unfold allocExtent at h
  split at h
  · cases h
  next hcount =>
    have hpos : 0 < nblocks := by omega
    split at h
    · cases h
    next start hfound =>
      cases h
      refine ⟨start, hpos, ?_⟩
      have hspec : start + nblocks ≤ m.mapsize ∧
          ∀ b, start ≤ b → b < start + nblocks → m.freeMap b = true := by
        cases hfirst : m.findFreeRun nblocks hint with
        | some first =>
            rw [hfirst] at hfound
            cases hfound
            exact findFreeRun_spec hpos hfirst
        | none =>
            rw [hfirst] at hfound
            exact findFreeRun_spec hpos hfound
      exact ⟨hspec.1, hspec.2, rfl, rfl⟩

theorem freeExtent_ok {m m' : BlockAllocMap} {pxd : Pxd} (h : m.freeExtent pxd = .ok m') :
    pxd.address + pxd.length ≤ m.mapsize ∧
      m' = { m with
        freeMap := mark m.freeMap pxd.address pxd.length true
        nfree := m.nfree + UInt64.ofNat pxd.length
        freed := m.freed ++ [(pxd.address, pxd.length)]
        dirtyPages := insertDirty m.dirtyPages pxd.address } := by
  unfold freeExtent at h
  simp only at h
  split at h
  · cases h
  next hfits =>
    cases h
    exact ⟨by omega, rfl⟩

/-- A call of the allocator. -/
inductive AllocOp
  | alloc (nblocks hint : ℕ)
  | free (pxd : Pxd)
  deriving DecidableEq, Repr

/-- The map after a call with the given result; an error changes nothing. -/
def afterCall (m : BlockAllocMap) : Except StorageError BlockAllocMap → BlockAllocMap
  | .ok m' => m'
  | .error _ => m

def perform (m : BlockAllocMap) : AllocOp → BlockAllocMap
  | .alloc nblocks hint => m.afterCall ((m.allocExtent nblocks hint).map Prod.snd)
  | .free pxd => m.afterCall (m.freeExtent pxd)

def performAll (m : BlockAllocMap) (ops : List AllocOp) : BlockAllocMap :=
  ops.foldl perform m

/-- What calls keep of a map of at most one page. -/
structure Located (m : BlockAllocMap) : Prop where
  start : m.dmapStart = 17
  size : m.mapsize ≤ blocksPerDmap
  dirty : ∀ page ∈ m.dirtyPages, page = 1 ∨ page = 2

theorem mem_insertDirty {dirtyPages : List ℕ} {block page : ℕ}
    (h : page ∈ insertDirty dirtyPages block) :
    page = 1 + block / blocksPerDmap ∨ page ∈ dirtyPages := by
  unfold insertDirty at h
  exact List.mem_insert_iff.mp h

theorem dirty_insert {dirtyPages : List ℕ} {block : ℕ} (hblock : block ≤ blocksPerDmap)
    (h : ∀ page ∈ dirtyPages, page = 1 ∨ page = 2) :
    ∀ page ∈ insertDirty dirtyPages block, page = 1 ∨ page = 2 := by
  intro page hmem
  rcases mem_insertDirty hmem with rfl | hold
  · unfold blocksPerDmap at *
    omega
  · exact h page hold

theorem performAll_singleton (m : BlockAllocMap) (op : AllocOp) :
    m.performAll [op] = m.perform op := rfl

theorem afterCall_cases (m : BlockAllocMap) (result : Except StorageError BlockAllocMap) :
    m.afterCall result = m ∨ result = .ok (m.afterCall result) := by
  cases result with
  | ok m' => exact Or.inr rfl
  | error e => exact Or.inl rfl

theorem map_snd_ok {result : Except StorageError (Pxd × BlockAllocMap)} {m' : BlockAllocMap}
    (h : result.map Prod.snd = .ok m') : ∃ pxd, result = .ok (pxd, m') := by
  cases result with
  | ok pair => exact ⟨pair.1, by cases h; rfl⟩
  | error e => cases h

theorem perform_cases (m : BlockAllocMap) (op : AllocOp) :
    m.perform op = m ∨
      (∃ nblocks hint pxd, m.allocExtent nblocks hint = .ok (pxd, m.perform op)) ∨
      ∃ pxd, m.freeExtent pxd = .ok (m.perform op) := by
  cases op with
  | alloc nblocks hint =>
      rcases m.afterCall_cases ((m.allocExtent nblocks hint).map Prod.snd) with hsame | hok
      · exact Or.inl hsame
      · obtain ⟨pxd, hrun⟩ := map_snd_ok hok
        exact Or.inr (Or.inl ⟨nblocks, hint, pxd, hrun⟩)
  | free pxd =>
      rcases m.afterCall_cases (m.freeExtent pxd) with hsame | hok
      · exact Or.inl hsame
      · exact Or.inr (Or.inr ⟨pxd, hok⟩)

theorem perform_alloc_of_found {m : BlockAllocMap} {nblocks hint start : ℕ} (hpos : 0 < nblocks)
    (hle : nblocks ≤ m.mapsize) (hfound : m.findFreeRun nblocks hint = some start) :
    (m.perform (.alloc nblocks hint)).freeMap = mark m.freeMap start nblocks false ∧
      (m.perform (.alloc nblocks hint)).mapsize = m.mapsize := by
  have hrun : ∃ pxd m', m.allocExtent nblocks hint = .ok (pxd, m') ∧
      m'.freeMap = mark m.freeMap start nblocks false ∧ m'.mapsize = m.mapsize := by
    unfold allocExtent
    rw [if_neg (by omega), hfound]
    exact ⟨_, _, rfl, rfl, rfl⟩
  obtain ⟨pxd, m', hrun, hmap, hsize⟩ := hrun
  have hperform : m.perform (.alloc nblocks hint) =
      m.afterCall ((m.allocExtent nblocks hint).map Prod.snd) := rfl
  rw [hperform, hrun]
  exact ⟨hmap, hsize⟩

theorem perform_free_of_fits {m : BlockAllocMap} {pxd : Pxd}
    (hfits : pxd.address + pxd.length ≤ m.mapsize) :
    (m.perform (.free pxd)).freeMap = mark m.freeMap pxd.address pxd.length true := by
  have hrun : ∃ m', m.freeExtent pxd = .ok m' ∧
      m'.freeMap = mark m.freeMap pxd.address pxd.length true := by
    unfold freeExtent
    simp only
    rw [if_neg (by omega)]
    exact ⟨_, rfl, rfl⟩
  obtain ⟨m', hrun, hmap⟩ := hrun
  have hperform : m.perform (.free pxd) = m.afterCall (m.freeExtent pxd) := rfl
  rw [hperform, hrun]
  exact hmap

theorem Located.update {m : BlockAllocMap} (h : m.Located) (freeMap : ℕ → Bool) (nfree : UInt64)
    (allocated freed : List (ℕ × ℕ)) {dirtyPages : List ℕ}
    (hdirty : ∀ page ∈ dirtyPages, page = 1 ∨ page = 2) :
    Located { m with freeMap, nfree, allocated, freed, dirtyPages } :=
  ⟨h.start, h.size, hdirty⟩

theorem Located.perform {m : BlockAllocMap} (h : m.Located) (op : AllocOp) :
    (m.perform op).Located := by
  have hsize := h.size
  rcases m.perform_cases op with hsame | ⟨nblocks, hint, pxd, hrun⟩ | ⟨pxd, hrun⟩
  · rwa [hsame]
  · obtain ⟨start, hpos, hfits, -, -, hmap⟩ := allocExtent_ok hrun
    rw [hmap]
    exact h.update _ _ _ _ (dirty_insert (by omega) h.dirty)
  · obtain ⟨hfits, hmap⟩ := freeExtent_ok hrun
    rw [hmap]
    exact h.update _ _ _ _ (dirty_insert (by omega) h.dirty)

theorem Located.performAll {m : BlockAllocMap} (h : m.Located) (ops : List AllocOp) :
    (m.performAll ops).Located := by
  unfold BlockAllocMap.performAll
  induction ops generalizing m with
  | nil => exact h
  | cons op rest ih => exact ih (h.perform op)

/-! ## A remount -/

section Create

variable {numBlocks : ℕ}

theorem block_desc_create (hblocks : 4096 ≤ numBlocks) :
    (Mkfs.createFilesystemWithBlocks numBlocks).block 17 = Mkfs.bmapDesc numBlocks := by
  unfold Storage.block
  rw [(Mkfs.createFilesystemWithBlocks_spec hblocks).2.2.2]
  exact Mkfs.read_image_desc numBlocks

theorem mapsize_loaded_create (hblocks : 4096 ≤ numBlocks) (hmax : numBlocks < 2 ^ 64) :
    (loaded (Mkfs.createFilesystemWithBlocks numBlocks)).mapsize = numBlocks := by
  have hfirst : (writeLE (zeros blockSize) 0 8 numBlocks).length = blockSize := by
    rw [length_writeLE _ (by rw [length_zeros]; decide), length_zeros]
  rw [loaded_mapsize, block_desc_create hblocks, Mkfs.bmapDesc,
    readLE_writeLE_of_disjoint _ (by rw [hfirst]; decide) (Or.inl (by decide)),
    readLE_writeLE_self _ (Nat.zero_le _), Nat.mod_eq_of_lt]
  omega

/-- The blocks of the first page of the map are free or in use as `mkfs` has laid them out. -/
theorem freeMap_loaded_create (hblocks : 4096 ≤ numBlocks) (hmax : numBlocks < 2 ^ 64) {blk : ℕ}
    (hpage : blk < blocksPerDmap) :
    (loaded (Mkfs.createFilesystemWithBlocks numBlocks)).freeMap blk = Mkfs.isFree numBlocks blk := by
  have hblock : (Mkfs.createFilesystemWithBlocks numBlocks).block 18 = Mkfs.dmapPage numBlocks 0 := by
    unfold Storage.block
    rw [(Mkfs.createFilesystemWithBlocks_spec hblocks).2.2.2]
    exact Mkfs.read_image_dmap numBlocks
  have hsize := mapsize_loaded_create hblocks hmax
  rw [loaded_mapsize] at hsize
  rw [loaded_freeMap, hsize, hblock]
  unfold parseDmapPage
  by_cases hblk : blk < numBlocks
  · rw [if_pos ⟨Nat.zero_le _, by omega, hblk⟩, Nat.sub_zero,
      Mkfs.testBit_dmapPage numBlocks 0 hpage, Nat.zero_mul, Nat.zero_add]
  · rw [if_neg (by omega)]
    unfold Mkfs.isFree
    rw [decide_eq_false hblk, Bool.false_and]

theorem mapsize_create (hblocks : 4096 ≤ numBlocks) (hmax : numBlocks ≤ blocksPerDmap) :
    (loaded (Mkfs.createFilesystemWithBlocks numBlocks)).mapsize = numBlocks := by
  unfold blocksPerDmap at hmax
  exact mapsize_loaded_create hblocks (by omega)

/-- The map of a new filesystem that fits into one page. -/
theorem freeMap_create (hblocks : 4096 ≤ numBlocks) (hmax : numBlocks ≤ blocksPerDmap) :
    (loaded (Mkfs.createFilesystemWithBlocks numBlocks)).freeMap = Mkfs.isFree numBlocks := by
  have hsize : numBlocks < 2 ^ 64 := by
    unfold blocksPerDmap at hmax
    omega
  funext blk
  by_cases hpage : blk < blocksPerDmap
  · exact freeMap_loaded_create hblocks hsize hpage
  · rw [loaded_freeMap]
    unfold parseDmapPage Mkfs.isFree
    rw [if_neg (by omega), decide_eq_false (by omega), Bool.false_and]

theorem located_create (hblocks : 4096 ≤ numBlocks) (hmax : numBlocks ≤ blocksPerDmap) :
    (loaded (Mkfs.createFilesystemWithBlocks numBlocks)).Located := by
  refine ⟨rfl, ?_, fun page hmem => absurd hmem List.not_mem_nil⟩
  rw [mapsize_create hblocks hmax]
  exact hmax

/-- Commit after any calls, and read the map again: it is the map that was read first,
with the count of free blocks of the commit. -/
theorem remount_create (hblocks : 4096 ≤ numBlocks) (hmax : numBlocks ≤ blocksPerDmap)
    (ops : List AllocOp) :
    let s := Mkfs.createFilesystemWithBlocks numBlocks
    let m := (loaded s).performAll ops
    ∃ m' s', commit m s = .ok m' s' ∧ new s' = .ok (loaded s') s' ∧
      (loaded s').mapsize = numBlocks ∧ (loaded s').freeMap = (loaded s).freeMap ∧
      (loaded s').nfree = m.nfree := by
  have hlocated := (located_create hblocks hmax).performAll ops
  obtain ⟨m', s', hrun, hmap, hsize, hnfree, hfree⟩ :=
    commit_ok _ hlocated.start hlocated.dirty (hasMap_create hblocks)
  exact ⟨m', s', hrun, new_ok hmap, hsize.trans (mapsize_create hblocks hmax), hfree, hnfree⟩

end Create

/-- The map read from `s`, after calls and a commit, is read back as it was committed. -/
def Persists (s : Storage) (numBlocks : ℕ) (ops : List AllocOp) : Prop :=
  ∀ m₀ s₀ m' s', new s = .ok m₀ s₀ → commit (m₀.performAll ops) s₀ = .ok m' s' →
    ∃ m₁ s₁, new s' = .ok m₁ s₁ ∧
      (∀ b < numBlocks, m₁.freeMap b = (m₀.performAll ops).freeMap b) ∧
      m₁.nfree = (m₀.performAll ops).nfree

/-- Before the commit, every block is as free or as used as it was read from `s`. -/
def NoNetChange (s : Storage) (numBlocks : ℕ) (ops : List AllocOp) : Prop :=
  ∀ m₀ s₀, new s = .ok m₀ s₀ →
    ∀ b < numBlocks, (m₀.performAll ops).freeMap b = m₀.freeMap b

/-- **Persistence of the allocation map.**  After a commit, which always succeeds, a
remount reads the committed map exactly when the calls before it had no net effect. -/
theorem remount_reads_committed_iff (numBlocks : ℕ) (hblocks : 4096 ≤ numBlocks)
    (hmax : numBlocks ≤ 8192) (ops : List AllocOp) :
    let s := Mkfs.createFilesystemWithBlocks numBlocks
    (∃ m₀ s₀ m' s', new s = .ok m₀ s₀ ∧ commit (m₀.performAll ops) s₀ = .ok m' s') ∧
      (Persists s numBlocks ops ↔ NoNetChange s numBlocks ops) := by
  have hload := new_ok (hasMap_create hblocks)
  obtain ⟨m', s', hcommit, hreload, -, hfree, hnfree⟩ := remount_create hblocks hmax ops
  generalize Mkfs.createFilesystemWithBlocks numBlocks = s at *
  generalize loaded s = m₀ at *
  generalize loaded s' = m₁ at *
  refine ⟨⟨m₀, s, m', s', hload, hcommit⟩, ?_, ?_⟩
  · intro hpersists m₂ s₂ hnew b hb
    rw [hload] at hnew
    cases hnew
    obtain ⟨m₃, s₃, hnew, hsame, -⟩ := hpersists m₀ s m' s' hload hcommit
    rw [hreload] at hnew
    cases hnew
    rw [← hsame b hb, hfree]
  · intro hnone m₂ s₂ m₃ s₃ hnew hrun
    rw [hload] at hnew
    cases hnew
    rw [hcommit] at hrun
    cases hrun
    refine ⟨m₁, s', hreload, fun b hb => ?_, hnfree⟩
    rw [hfree, hnone m₀ s hload b hb]

/-- The first allocation in a filesystem of 4096 blocks takes block 20. -/
theorem perform_alloc_create :
    ((loaded (Mkfs.createFilesystemWithBlocks 4096)).perform (.alloc 1 0)).freeMap =
        mark (Mkfs.isFree 4096) 20 1 false ∧
      ((loaded (Mkfs.createFilesystemWithBlocks 4096)).perform (.alloc 1 0)).mapsize = 4096 := by
  have hmap := freeMap_create (le_refl 4096) (by decide)
  have hsize := mapsize_create (le_refl 4096) (by decide)
  generalize loaded (Mkfs.createFilesystemWithBlocks 4096) = m at *
  have hfound : m.findFreeRun 1 0 = some 20 := by
    unfold findFreeRun
    rw [hmap, hsize]
    decide
  obtain ⟨hafter, hsize'⟩ := perform_alloc_of_found Nat.one_pos (by omega) hfound
  exact ⟨hafter.trans (by rw [hmap]), hsize'.trans hsize⟩

/-- An allocation and the matching free are read back as they were committed. -/
theorem remount_reads_committed_iff_allocFree :
    Persists (Mkfs.createFilesystemWithBlocks 4096) 4096
      [.alloc 1 0, .free (Mkfs.makePxd 1 20)] := by
  apply (remount_reads_committed_iff 4096 le_rfl (by decide) _).2.mpr
  intro m₀ s₀ hnew
  have hload := new_ok (hasMap_create (le_refl 4096))
  have hmap := freeMap_create (le_refl 4096) (by decide)
  obtain ⟨hafter, hsize⟩ := perform_alloc_create
  have hpxd : (Mkfs.makePxd 1 20).address = 20 ∧ (Mkfs.makePxd 1 20).length = 1 := by
    decide
  generalize Mkfs.createFilesystemWithBlocks 4096 = s at *
  generalize loaded s = m at *
  rw [hload] at hnew
  cases hnew
  have hfits : (Mkfs.makePxd 1 20).address + (Mkfs.makePxd 1 20).length ≤
      (m₀.perform (.alloc 1 0)).mapsize := by
    rw [hpxd.1, hpxd.2, hsize]
    decide
  have hfreed := perform_free_of_fits hfits
  intro b _
  rw [hmap]
  unfold performAll
  rw [List.foldl_cons, List.foldl_cons, List.foldl_nil, hfreed, hafter, hpxd.1, hpxd.2]
  unfold mark
  by_cases hb : b = 20
  · subst hb
    decide
  · rw [if_neg (by omega), if_neg (by omega)]

/-- After an allocation of one block in a filesystem of 4096 blocks, the remount reads
the block as free again. -/
theorem remount_frees_allocated_block :
    ¬ Persists (Mkfs.createFilesystemWithBlocks 4096) 4096 [.alloc 1 0] := by
  have hload := new_ok (hasMap_create (le_refl 4096))
  obtain ⟨m', s', hcommit, hreload, -, hfree, -⟩ :=
    remount_create (le_refl 4096) (by decide) [.alloc 1 0]
  have hafter := perform_alloc_create.1
  rw [freeMap_create (le_refl 4096) (by decide)] at hfree
  generalize Mkfs.createFilesystemWithBlocks 4096 = s at *
  generalize loaded s = m₀ at *
  generalize loaded s' = m₁ at *
  intro hpersists
  obtain ⟨m₂, s₂, hnew, hsame, -⟩ := hpersists m₀ s m' s' hload hcommit
  rw [hreload] at hnew
  cases hnew
  have hblock := hsame 20 (by decide)
  have hused : (m₀.performAll [.alloc 1 0]).freeMap 20 = false := by
    rw [performAll_singleton, hafter]
    decide
  have hunused : m₁.freeMap 20 = true := by
    rw [hfree]
    decide
  rw [hunused, hused] at hblock
  cases hblock

end BlockAllocMap

end JfsFuse
