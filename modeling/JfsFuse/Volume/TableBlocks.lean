import JfsFuse.Alloc.FirstFit
import JfsFuse.Alloc.FreshMap
import JfsFuse.Volume.NewDirectories
import JfsFuse.Volume.RunSteps

/-!
# Table blocks that are given to files

The searches of the inode table scan the blocks 24 to 59 of a new filesystem, and `mkfs` reserves 24
to 28 of them.  The allocator takes the first fit, wherever it lies, so it returns a block of the
table exactly when the first fit is one.  On every new filesystem a file of one block can be written
whose block is one.
-/

namespace JfsFuse

open ByteBuf Program

/-- A block of the extent. -/
def Pxd.Covers (pxd : Pxd) (block : ℕ) : Prop :=
  pxd.address ≤ block ∧ block < pxd.address + pxd.length

instance Pxd.decidableCovers (pxd : Pxd) (block : ℕ) : Decidable (pxd.Covers block) :=
  inferInstanceAs (Decidable (_ ∧ _))

namespace Volume

/-- A block that the searches for inodes look at. -/
def Scanned (v : Volume) (block : ℕ) : Prop :=
  v.ait2.address ≤ block ∧ block < v.ait2.address + (v.ait2.length + scanSlack) ∧ block < v.aggSize

/-- No block of the inode table was ever returned by the allocator. -/
def TableSpared (v : Volume) : Prop :=
  ∀ a ∈ v.allocations, ∀ block, a.pxd.Covers block → ¬ v.Scanned block

/-- The place where the request fits first is clear of the inode table. -/
def FitsClear (v : Volume) (a : Allocation) : Prop :=
  ∀ start, a.bmap.IsFirstFit a.nblocks a.hint start →
    ∀ block, (BlockAllocMap.extentAt start a.nblocks).Covers block → ¬ v.Scanned block

/-! ## Runs -/

/-- The extent of the allocation is what `alloc_extent` returns for its request. -/
def IsReturned (a : Allocation) : Prop :=
  ∃ m', a.bmap.allocExtent a.nblocks a.hint = .ok (a.pxd, m')

/-- Allocations are only added, and each one is returned by `alloc_extent`; the inode table stays. -/
structure Allocated (v w : Volume) : Prop where
  ait2 : w.ait2 = v.ait2
  aggSize : w.aggSize = v.aggSize
  added : ∃ new, w.allocations = v.allocations ++ new ∧ ∀ a ∈ new, IsReturned a

instance : IsPreorder Volume Allocated where
  refl v := ⟨rfl, rfl, [], (List.append_nil _).symm, fun _ ha => absurd ha List.not_mem_nil⟩
  trans v w x h h' := by
    obtain ⟨new, hnew, hall⟩ := h.added
    obtain ⟨new', hnew', hall'⟩ := h'.added
    refine ⟨h'.ait2.trans h.ait2, h'.aggSize.trans h.aggSize, new ++ new', ?_, fun a ha => ?_⟩
    · rw [hnew', hnew, List.append_assoc]
    · rcases List.mem_append.mp ha with ha | ha
      · exact hall a ha
      · exact hall' a ha

theorem allocated_of_eq {v w : Volume} (hait2 : w.ait2 = v.ait2) (hagg : w.aggSize = v.aggSize)
    (hsame : w.allocations = v.allocations) : Allocated v w :=
  ⟨hait2, hagg, [], by rw [hsame, List.append_nil], fun _ ha => absurd ha List.not_mem_nil⟩

theorem runSteps_allocated : RunSteps Allocated where
  storage _ _ := allocated_of_eq rfl rfl rfl
  cache _ _ := allocated_of_eq rfl rfl rfl
  txn _ _ _ _ := allocated_of_eq rfl rfl rfl
  alloc v bmap nblocks hint pxd bmap' hbmap halloc := by
    refine ⟨rfl, rfl, [{ bmap, nblocks, hint, pxd }], rfl, fun a ha => ?_⟩
    rw [List.mem_singleton.mp ha]
    exact ⟨bmap', halloc⟩
  free _ _ _ _ _ _ := allocated_of_eq rfl rfl rfl
  txMgr _ _ := allocated_of_eq rfl rfl rfl
  log _ _ _ := allocated_of_eq rfl rfl rfl
  flushed _ _ _ _ _ _ := allocated_of_eq rfl rfl rfl
  rolledBack _ := allocated_of_eq rfl rfl rfl
  handles _ _ := allocated_of_eq rfl rfl rfl

/-- An allocation spares the table exactly when the first fit is clear of it. -/
theorem fitsClear_iff {v : Volume} {a : Allocation} (ha : IsReturned a) :
    FitsClear v a ↔ ∀ block, a.pxd.Covers block → ¬ v.Scanned block := by
  obtain ⟨m', halloc⟩ := ha
  obtain ⟨start, hfirst, hpxd⟩ := BlockAllocMap.exists_firstFit halloc
  constructor
  · intro hclear block hcovers
    rw [hpxd] at hcovers
    exact hclear start hfirst block hcovers
  · intro hspared start' hfirst' block hcovers
    rw [hfirst.unique hfirst', ← hpxd] at hcovers
    exact hspared block hcovers

theorem scanned_afterAll (ops : List Operation) (v : Volume) (block : ℕ) :
    (Operation.afterAll ops v).Scanned block ↔ v.Scanned block := by
  obtain ⟨hait2, hagg, -⟩ := runSteps_allocated.afterAll ops v
  unfold Scanned
  rw [hait2, hagg]

/-- **A run spares the table** exactly when each of its requests fits first in a place clear of it. -/
theorem tableSpared_iff {v : Volume} (hnone : v.allocations = []) (ops : List Operation) :
    (Operation.afterAll ops v).TableSpared ↔
      ∀ a ∈ (Operation.afterAll ops v).allocations, FitsClear v a := by
  obtain ⟨-, -, new, hnew, hall⟩ := runSteps_allocated.afterAll ops v
  rw [hnone, List.nil_append] at hnew
  unfold TableSpared
  simp only [scanned_afterAll]
  rw [hnew]
  exact forall₂_congr fun a ha => (fitsClear_iff (hall a ha)).symm

/-! ## A file in the table -/

/-- On the map of a new filesystem, a block that is asked for behind block 29 is block 29. -/
theorem allocExtent_create {numBlocks : ℕ} (hblocks : 4096 ≤ numBlocks) (hmax : numBlocks < 2 ^ 64)
    {m : BlockAllocMap} (hsize : m.mapsize = numBlocks)
    (hfree : ∀ b < blocksPerDmap, m.freeMap b = Mkfs.isFree numBlocks b) :
    ∃ pxd m', m.allocExtent 1 29 = .ok (pxd, m') ∧ pxd.Covers 29 := by
  have hused : m.freeMap 29 = true := by
    rw [hfree 29 (by decide)]
    unfold Mkfs.isFree
    rw [decide_eq_true (by omega), Bool.true_and]
    decide
  have hrun : m.IsFreeRun 29 1 := by
    refine ⟨by omega, fun b hlow hhigh => ?_⟩
    rwa [show b = 29 by omega]
  obtain ⟨pxd, m', halloc⟩ := BlockAllocMap.allocExtent_of_run Nat.one_pos hrun 29
  refine ⟨pxd, m', halloc, ?_⟩
  obtain ⟨start, hfirst, rfl⟩ := BlockAllocMap.exists_firstFit halloc
  have hfits : m.IsFirstFit 1 29 29 := ⟨hrun, Or.inl ⟨le_rfl, fun s hlow _ => hlow⟩⟩
  rw [hfits.unique hfirst]
  decide

/-- A file that has no extents, of which one block is written far behind its end. -/
theorem exists_writeAt {n : ℕ} {table : ℕ → ℕ → List UInt8} {v : Volume} (h : v.HasTable n table) {ino : UInt32}
    {b j : ℕ} (hin : foundIn table ino b j = true) {xtree : Xtree}
    (hxtree : (v.inodeAt ino b j).xtree = .ok xtree) (hhole : xtree.mapBlocks 29 1 = [(0, 1)])
    {m m' : BlockAllocMap} {pxd : Pxd} (hbmap : v.bmap = some m) (halloc : m.allocExtent 1 29 = .ok (pxd, m')) :
    ∃ a ∈ ((Operation.writeAt ino (29 * blockSize) [1]).after v).allocations, a.pxd = pxd := by
  have hsteps := runSteps_allocated
  let a : Allocation := { bmap := m, nblocks := 1, hint := 29, pxd }
  let w : Volume := { v.begun with bmap := some m', allocations := v.allocations ++ [a] }
  have hrun : allocExtent 1 29 v.begun = .ok (some pxd) w := by
    unfold allocExtent
    rw [bind_ok (get_apply v.begun), show v.begun.bmap = some m from hbmap]
    dsimp only
    rw [halloc]
    rfl
  -- once the block is taken, it stays on record whatever follows
  have hpart : ∀ s : WriteState, s.nextLogical = 29 → Allocated w (final (writePart [1] 0 1 s v.begun)) := by
    intro s hnext
    unfold writePart
    rw [if_pos rfl, hnext, bind_ok hrun]
    exact hsteps.writeHole _ _ _ w
  have hparts : ∀ s : WriteState, s.nextLogical = 29 → s.remaining = 1 → s.token = [] →
      Allocated w (final (writeParts [1] [(0, 1)] s v.begun)) := by
    intro s hnext hremaining htoken
    have hcheck : checkToken s.token v.begun = .ok [] v.begun := by
      rw [htoken]
      rfl
    unfold writeParts
    rw [bind_ok hcheck, if_neg (by omega)]
    exact Within.bind_from (hpart { s with token := [] } hnext) fun s => hsteps.writeParts _ _ s
  have hbody : Allocated w (final (writeAtBody ino (29 * blockSize) [1] [] v.begun)) := by
    have hread := h.readInode_begun hin
    have htree : returnExcept (v.inodeAt ino b j).xtree v.begun = .ok xtree v.begun := by
      rw [hxtree]
      rfl
    unfold writeAtBody
    rw [bind_ok hread, bind_ok htree]
    refine Within.bind_from ?_ fun s => hsteps.finishWrite _ _ _ s
    have hmap : xtree.mapBlocks (29 * blockSize / blockSize) (fsbCount [(1 : UInt8)].length (29 * blockSize % blockSize)) =
        [(0, 1)] := hhole
    rw [hmap]
    exact hparts _ rfl rfl rfl
  have hwhole : Allocated w ((Operation.writeAt ino (29 * blockSize) [1]).after v) := by
    show Allocated w (final (Operation.forget (Volume.writeAt ino (29 * blockSize) [1]) v))
    unfold Operation.forget Volume.writeAt writeAtWithInterrupt
    refine Within.bind_from ?_ fun _ => Within.pure _
    rw [bind_ok (beginTransaction_of_idle h.idle)]
    refine Within.bind_from hbody hsteps.endWrite
  obtain ⟨new, hnew, -⟩ := hwhole.added
  refine ⟨a, ?_, rfl⟩
  rw [hnew]
  exact List.mem_append_left _ (List.mem_append_right _ (List.mem_singleton_self a))

/-- The root of a new filesystem with the file `a`. -/
def rootWithFileA : Dtree :=
  final (Dtree.insert (encodeUtf16 "a") 16 0 (rootIn newTable 28 2))

def tableWithFileA : ℕ → ℕ → List UInt8 :=
  tableWith newTable 24 0 28 2 (newDinode 0x81a4 0 1 16 (newTable 24 0))
    (Dinode.setRoot rootWithFileA.toBytes (newTable 28 2))

/-- The file `a` is made on a new filesystem; the map is the one that was mounted. -/
theorem exists_fileA {numBlocks : ℕ} (hblocks : 4096 ≤ numBlocks) (hmax : numBlocks < 2 ^ 64) :
    ∃ v₀ v₁, openFromStorage (Mkfs.createFilesystemWithBlocks numBlocks) =
        .ok v₀ (Mkfs.createFilesystemWithBlocks numBlocks) ∧
      createFile 18 "a" v₀ = .ok 16 v₁ ∧ v₁.HasTable 19 tableWithFileA ∧ v₀.ait2 = Mkfs.makePxd 4 24 ∧
      v₀.aggSize = numBlocks ∧ v₀.allocations = [] ∧
      v₁.bmap = some (flushedMap (BlockAllocMap.loaded (Mkfs.createFilesystemWithBlocks numBlocks))) := by
  obtain ⟨v₀, hopen, h₀⟩ := exists_hasTable hblocks hmax
  obtain ⟨logsuper, hmounted⟩ := openFromStorage_ok (replayed_create hblocks hmax)
  have hempty : Dtree.IsEmptyRoot (rootIn newTable 28 2) := by
    refine ⟨?_, ?_, ?_, ?_⟩ <;> decide +kernel
  have hparent : foundIn newTable 18 28 2 = true := by decide
  have hfree : freeIn newTable 24 0 = true := by decide
  have hchild : 16 = UInt32.ofNat (inoAt (24 - 24) 0) := by decide
  have hname : validName (encodeUtf16 "a") = true := by decide
  obtain ⟨v₁, d₁, hcreate, hbmap, hinsert, h₁⟩ := h₀.exists_createFile hparent hfree (by decide) hchild (by decide)
    (by decide) hempty.represents.shows hname rfl (by decide)
  have hroot : d₁ = rootWithFileA := (congrArg final hinsert).symm
  rw [hroot] at h₁
  have hsame := hopen.symm.trans hmounted
  injection hsame with hv
  subst hv
  exact ⟨_, v₁, hopen, hcreate, h₁, rfl, rfl, rfl, hbmap⟩

theorem foundIn_tableWithFileA : foundIn tableWithFileA 16 24 0 = true := by
  decide +kernel

/-- The file has no extents. -/
theorem exists_hole : ∃ xtree, Xtree.fromInodeData (Dinode.root (tableWithFileA 24 0)) = .ok xtree ∧
    xtree.mapBlocks 29 1 = [(0, 1)] := by
  have hmap : (Xtree.fromInodeData (Dinode.root (tableWithFileA 24 0))).toOption.map
      (fun xtree => xtree.mapBlocks 29 1) = some [(0, 1)] := by
    decide +kernel
  cases hxtree : Xtree.fromInodeData (Dinode.root (tableWithFileA 24 0)) with
  | error e =>
      rw [hxtree] at hmap
      cases hmap
  | ok xtree =>
      rw [hxtree] at hmap
      exact ⟨xtree, rfl, Option.some.inj hmap⟩

/-- **On every new filesystem the allocator returns a block of the inode table**, when a file is
written far enough behind its end. -/
theorem exists_scanned {numBlocks : ℕ} (hblocks : 4096 ≤ numBlocks) (hmax : numBlocks < 2 ^ 64) :
    ∃ v, openFromStorage (Mkfs.createFilesystemWithBlocks numBlocks) =
        .ok v (Mkfs.createFilesystemWithBlocks numBlocks) ∧ v.allocations = [] ∧ v.Scanned 29 ∧
      ∃ a ∈ (Operation.afterAll [.createFile 18 "a", .writeAt 16 (29 * blockSize) [1]] v).allocations,
        a.pxd.Covers 29 := by
  obtain ⟨v₀, v₁, hopen, hcreate, h₁, hait2, hagg, hnone, hbmap⟩ := exists_fileA hblocks hmax
  have hfree := fun b (hb : b < blocksPerDmap) => BlockAllocMap.freeMap_loaded_create hblocks hmax hb
  have hsize := BlockAllocMap.mapsize_loaded_create hblocks hmax
  generalize BlockAllocMap.loaded (Mkfs.createFilesystemWithBlocks numBlocks) = m at *
  obtain ⟨pxd, m', halloc, hcovers⟩ := allocExtent_create (m := flushedMap m) hblocks hmax hsize hfree
  obtain ⟨xtree, hroot, hhole⟩ := exists_hole
  have hxtree : (v₁.inodeAt 16 24 0).xtree = .ok xtree := by
    rw [h₁.inodeAt_eq (by decide) (by decide) (by decide)]
    exact hroot
  obtain ⟨a, ha, rfl⟩ := exists_writeAt h₁ foundIn_tableWithFileA hxtree hhole hbmap halloc
  have hafter : (Operation.createFile 18 "a").after v₀ = v₁ := by
    show final (Operation.forget (createFile 18 "a") v₀) = v₁
    rw [Operation.final_forget, hcreate]
    rfl
  refine ⟨v₀, hopen, hnone, ?_, a, ?_, hcovers⟩
  · unfold Scanned
    rw [hait2, hagg]
    have hscan : (Mkfs.makePxd 4 24).address ≤ 29 ∧
        29 < (Mkfs.makePxd 4 24).address + ((Mkfs.makePxd 4 24).length + scanSlack) := by decide
    omega
  · show a ∈ ((Operation.writeAt 16 (29 * blockSize) [1]).after ((Operation.createFile 18 "a").after v₀)).allocations
    rwa [hafter]

/-- **A run on a new filesystem spares the inode table** exactly when each of its requests fits first
in a place clear of the table, and there is a run that does not spare it. -/
theorem table_spared_iff (numBlocks : ℕ) (hblocks : 4096 ≤ numBlocks) (hmax : numBlocks < 2 ^ 64) (v : Volume)
    (s : Storage) (hopen : openFromStorage (Mkfs.createFilesystemWithBlocks numBlocks) = .ok v s) :
    (∀ ops, (Operation.afterAll ops v).TableSpared ↔
      ∀ a ∈ (Operation.afterAll ops v).allocations, FitsClear v a) ∧
    ∃ ops, ¬ (Operation.afterAll ops v).TableSpared := by
  obtain ⟨v₀, hopen₀, hnone, hscanned, a, ha, hcovers⟩ := exists_scanned hblocks hmax
  have hsame := hopen₀.symm.trans hopen
  injection hsame with hv
  subst hv
  refine ⟨fun ops => tableSpared_iff hnone ops, [.createFile 18 "a", .writeAt 16 (29 * blockSize) [1]],
    fun hspared => ?_⟩
  exact hspared a ha 29 hcovers ((scanned_afterAll _ _ _).mpr hscanned)

/-- A mount without any call. -/
theorem table_spared_mount : ∃ v s, openFromStorage (Mkfs.createFilesystemWithBlocks 4096) = .ok v s ∧
    ((Operation.afterAll [] v).TableSpared ↔ ∀ a ∈ (Operation.afterAll [] v).allocations, FitsClear v a) := by
  obtain ⟨v, hopen, -⟩ := exists_scanned le_rfl (by norm_num)
  exact ⟨v, _, hopen, (table_spared_iff 4096 le_rfl (by norm_num) v _ hopen).1 []⟩

/-- **A block of the inode table is allocated to a file** on the smallest filesystem: the block behind
the root directory's. -/
theorem allocated_in_table : ∃ v, openFromStorage (Mkfs.createFilesystemWithBlocks 4096) =
      .ok v (Mkfs.createFilesystemWithBlocks 4096) ∧
    (Operation.afterAll [.createFile 18 "a", .writeAt 16 (29 * blockSize) [1]] v).Scanned 29 ∧
    ∃ a ∈ (Operation.afterAll [.createFile 18 "a", .writeAt 16 (29 * blockSize) [1]] v).allocations,
      a.pxd.Covers 29 := by
  obtain ⟨v, hopen, -, hscanned, hallocated⟩ := exists_scanned le_rfl (by norm_num)
  exact ⟨v, hopen, (scanned_afterAll _ _ _).mpr hscanned, hallocated⟩

end Volume

end JfsFuse
