import JfsFuse.Volume.Creating
import JfsFuse.Volume.FreshVolume

/-!
# Calls on a new filesystem

The inode table of a new filesystem is known slot by slot, and each call that succeeds says which
slots it changes.  So the table after a few calls can be computed, and an inode can be looked for in
it.
-/

namespace JfsFuse

open ByteBuf Program

namespace Volume

/-- The slots that are searched for inodes in a new filesystem. -/
def newTable (block slot : ℕ) : List UInt8 :=
  if block = 24 ∧ slot = 1 then Mkfs.bmapInodeBytes
  else if block = 26 ∧ slot = 0 then Mkfs.aggregateInodeBytes
  else if block = 28 ∧ slot = 2 then Mkfs.rootInodeBytes
  else zeros disize

theorem slotOf_zeros {j : ℕ} (hj : j < inosPerPage) : slotOf (zeros blockSize) j = zeros disize := by
  unfold inosPerPage at hj
  unfold slotOf slice zeros disize blockSize
  rw [List.drop_replicate, List.take_replicate, Nat.min_eq_left (by omega)]

theorem slotOf_inodeBlock {i : ℕ} (hi : i < inosPerPage) {dinode : List UInt8} (hlen : dinode.length = disize)
    {j : ℕ} (hj : j < inosPerPage) :
    slotOf (Mkfs.inodeBlock i dinode) j = if j = i then dinode else zeros disize := by
  unfold Mkfs.inodeBlock slotOf
  split
  · next heq =>
      have hin : i * disize ≤ (zeros blockSize).length := by
        rw [length_zeros]
        unfold inosPerPage at hi
        unfold disize blockSize
        omega
      have hself := slice_splice_self dinode hin
      rw [hlen] at hself
      subst heq
      exact hself
  · next hne =>
      have hzero : slice (splice (zeros blockSize) (i * disize) dinode) (j * disize) disize =
          slice (zeros blockSize) (j * disize) disize := by
        apply slice_splice_of_disjoint
        · rw [length_zeros, hlen]
          unfold inosPerPage at hi
          unfold disize blockSize
          omega
        · rw [hlen]
          unfold disize
          omega
      rw [hzero]
      exact slotOf_zeros hj

/-- A volume at rest with the layout of a new filesystem, whose table has these slots. -/
structure HasTable (n : ℕ) (table : ℕ → ℕ → List UInt8) (v : Volume) : Prop extends AtRest n v where
  ait2 : v.ait2 = Mkfs.makePxd 4 24
  aggSize : 4096 ≤ v.aggSize
  plain : ∀ block, 24 ≤ block → block < 60 → v.IsPlain block
  table : ∀ block slot, 24 ≤ block → block < 60 → slot < inosPerPage →
    slotOf (v.storage.block block) slot = table block slot

/-- **A new filesystem** is at rest once it is mounted. -/
theorem exists_hasTable {numBlocks : ℕ} (hblocks : 4096 ≤ numBlocks) (hmax : numBlocks < 2 ^ 64) :
    ∃ v, openFromStorage (Mkfs.createFilesystemWithBlocks numBlocks) =
      .ok v (Mkfs.createFilesystemWithBlocks numBlocks) ∧ v.HasTable 20 newTable := by
  have hreplayed := replayed_create hblocks hmax
  obtain ⟨hfaults, hbackend, hsize, -⟩ := Mkfs.createFilesystemWithBlocks_spec hblocks
  obtain ⟨logsuper, hopen⟩ := openFromStorage_ok hreplayed
  have htable := freshTable_create hblocks
  have hcalm := (fresh_mounted hblocks logsuper hreplayed.toWhole hsize.ge htable
    (BlockAllocMap.loaded (Mkfs.createFilesystemWithBlocks numBlocks))).calm
  have hstart := BlockAllocMap.loaded_dmapStart (Mkfs.createFilesystemWithBlocks numBlocks)
  have hclean := BlockAllocMap.loaded_dirtyPages (Mkfs.createFilesystemWithBlocks numBlocks)
  generalize BlockAllocMap.loaded (Mkfs.createFilesystemWithBlocks numBlocks) = bmap at *
  generalize Mkfs.createFilesystemWithBlocks numBlocks = s at *
  refine ⟨_, hopen, ⟨⟨hcalm, hbackend, ?_, ?_⟩, rfl, rfl, ?_⟩, rfl, hblocks, ?_, ?_⟩
  · rintro m ⟨⟩
    show bmap.dmapStart < numBlocks
    omega
  · rintro lm ⟨⟩
    refine ⟨length_zeros _, ?_⟩
    show 3840 * blockSize + 2 * blockSize + 0 + 20 * commitRoom + logPSize ≤ s.size
    rw [hsize]
    unfold commitRoom logBufferSize logPSize blockSize
    omega
  · show 4 ≤ 256
    decide
  · intro block hlow hhigh i hi
    refine ⟨?_, ?_⟩
    · rintro ⟨lm, ⟨⟩, hin⟩
      have hbase : 3840 * blockSize + blockSize ≤ i := hin
      unfold blockSize at hbase hi
      omega
    · rintro ⟨m, ⟨⟩, htouch⟩
      unfold BlockAllocMap.Touches at htouch
      rw [hclean] at htouch
      rcases htouch with hdesc | ⟨page, hpage, -⟩
      · omega
      · cases hpage
  · intro block slot hlow hhigh hslot
    show slotOf (s.block block) slot = newTable block slot
    by_cases h₁ : block = 24
    · rw [h₁, htable.block24, slotOf_inodeBlock (by decide) Mkfs.length_bmapInodeBytes hslot]
      simp [newTable]
    by_cases h₂ : block = 26
    · rw [h₂, htable.block26, slotOf_inodeBlock (by decide) Mkfs.length_aggregateInodeBytes hslot]
      simp [newTable]
    by_cases h₃ : block = 28
    · rw [h₃, htable.block28, slotOf_inodeBlock (by decide) Mkfs.length_rootInodeBytes hslot]
      simp [newTable]
    · rw [htable.others block hlow hhigh h₁ h₂ h₃, slotOf_zeros hslot]
      simp [newTable, h₁, h₂, h₃]

/-! ## Searching the table -/

/-- No slot before slot `j` of block `b` has the property. -/
def noneBefore (p : ℕ → ℕ → Bool) (b j : ℕ) : Bool :=
  ((List.range' 24 (b - 24)).all fun b' => (List.range inosPerPage).all fun j' => !p b' j') &&
    (List.range j).all fun j' => !p b j'

theorem of_noneBefore {p : ℕ → ℕ → Bool} {b j : ℕ} (h : noneBefore p b j = true) {b' j' : ℕ} (hlow : 24 ≤ b')
    (hbefore : b' < b ∨ b' = b ∧ j' < j) (hj' : j' < inosPerPage) : p b' j' = false := by
  obtain ⟨hblocks, hslots⟩ := Bool.and_eq_true_iff.mp h
  rcases hbefore with hlt | ⟨rfl, hlt⟩
  · have hblock := List.all_eq_true.mp hblocks b' (List.mem_range'_1.mpr ⟨hlow, by omega⟩)
    simpa using List.all_eq_true.mp hblock j' (List.mem_range.mpr hj')
  · simpa using List.all_eq_true.mp hslots j' (List.mem_range.mpr hlt)

/-- The first slot of the table with the key of the inode. -/
def foundIn (table : ℕ → ℕ → List UInt8) (ino : UInt32) (b j : ℕ) : Bool :=
  (24 ≤ b && b < 60 && j < inosPerPage && Dinode.HasKey (inodeKey ino) (table b j)) &&
    noneBefore (fun b' j' => Dinode.HasKey (inodeKey ino) (table b' j')) b j

/-- The slot can be given to a new inode, and its number is not that of the root directory. -/
def freeIn (table : ℕ → ℕ → List UInt8) (b j : ℕ) : Bool :=
  (24 ≤ b && b < 60 && j < inosPerPage && isFreeIn table b j) && noneBefore (isFreeIn table) b j
where
  isFreeIn (table : ℕ → ℕ → List UInt8) (b j : ℕ) : Bool :=
    Dinode.mode (table b j) = 0 && inoAt (b - 24) j ≠ filesystemI + rootI

/-- The directory root in a slot of the table. -/
def rootIn (table : ℕ → ℕ → List UInt8) (b j : ℕ) : Dtree :=
  ⟨Dinode.root (table b j)⟩

namespace HasTable

variable {n : ℕ} {table : ℕ → ℕ → List UInt8} {v : Volume}

theorem slotOf_shown (h : v.HasTable n table) {block slot : ℕ} (hlow : 24 ≤ block) (hhigh : block < 60)
    (hslot : slot < inosPerPage) : slotOf (v.shown block) slot = table block slot := by
  rw [h.toAtRest.shown, h.table block slot hlow hhigh hslot]

theorem address (h : v.HasTable n table) : v.ait2.address = 24 := by
  rw [h.ait2]
  decide

theorem length (h : v.HasTable n table) : v.ait2.length = 4 := by
  rw [h.ait2]
  decide

theorem bounds_of_foundIn {ino : UInt32} {b j : ℕ} (hin : foundIn table ino b j = true) :
    24 ≤ b ∧ b < 60 ∧ j < inosPerPage := by
  unfold foundIn at hin
  simp only [Bool.and_eq_true, decide_eq_true_eq] at hin
  exact ⟨hin.1.1.1.1, hin.1.1.1.2, hin.1.1.2⟩

theorem bounds_of_freeIn {b j : ℕ} (hin : freeIn table b j = true) : 24 ≤ b ∧ b < 60 ∧ j < inosPerPage := by
  unfold freeIn at hin
  simp only [Bool.and_eq_true, decide_eq_true_eq] at hin
  exact ⟨hin.1.1.1.1, hin.1.1.1.2, hin.1.1.2⟩

theorem foundAt (h : v.HasTable n table) {ino : UInt32} {b j : ℕ} (hin : foundIn table ino b j = true) :
    v.FoundAt ino b j := by
  have haddress := h.address
  have hlength := h.length
  have hagg := h.aggSize
  obtain ⟨hlow, hhigh, hj⟩ := bounds_of_foundIn hin
  unfold foundIn at hin
  simp only [Bool.and_eq_true, decide_eq_true_eq] at hin
  obtain ⟨⟨-, hkey⟩, hnone⟩ := hin
  refine ⟨by omega, by unfold scanSlack; omega, by omega, hj, ?_, fun b' j' hlow' hbefore hj' => ?_⟩
  · rwa [h.slotOf_shown hlow hhigh hj]
  · have hfalse := of_noneBefore hnone (by omega) hbefore hj'
    rw [h.slotOf_shown (by omega) (by omega) hj']
    simpa using hfalse

theorem freeAt (h : v.HasTable n table) {b j : ℕ} (hin : freeIn table b j = true) : v.FreeAt b j := by
  have haddress := h.address
  have hlength := h.length
  have hagg := h.aggSize
  obtain ⟨hlow, hhigh, hj⟩ := bounds_of_freeIn hin
  unfold freeIn freeIn.isFreeIn at hin
  simp only [Bool.and_eq_true, decide_eq_true_eq] at hin
  obtain ⟨⟨-, hfree⟩, hnone⟩ := hin
  refine ⟨by omega, by unfold scanSlack; omega, by omega, hj, ?_, fun b' j' hlow' hbefore hj' hfree' => ?_⟩
  · unfold FreeSlot
    rwa [h.slotOf_shown hlow hhigh hj, haddress]
  · have hfalse := of_noneBefore hnone (by omega) hbefore hj'
    unfold FreeSlot at hfree'
    rw [h.slotOf_shown (by omega) (by omega) hj', haddress] at hfree'
    simp [hfree'] at hfalse

theorem inodeAt_eq (h : v.HasTable n table) {ino : UInt32} {b j : ℕ} (hlow : 24 ≤ b) (hhigh : b < 60)
    (hj : j < inosPerPage) : v.inodeAt ino b j =
      { dinode := table b j, ino, pageBlock := b, pageOffset := j * disize } := by
  unfold inodeAt
  rw [h.toAtRest.own, h.table b j hlow hhigh hj]

theorem dtree_inodeAt (h : v.HasTable n table) (ino : UInt32) {b j : ℕ} (hlow : 24 ≤ b) (hhigh : b < 60)
    (hj : j < inosPerPage) (hroot : (rootIn table b j).data.length = 288) :
    (v.inodeAt ino b j).dtree = .ok (rootIn table b j) := by
  rw [h.inodeAt_eq hlow hhigh hj]
  exact if_neg (by rw [show (Dinode.root (table b j)).length = 288 from hroot]; decide)

end HasTable

/-! ## Calls -/

/-- The table with other contents in two slots. -/
def tableWith (table : ℕ → ℕ → List UInt8) (cb cj b j : ℕ) (child parent : List UInt8) (block slot : ℕ) :
    List UInt8 :=
  if block = b ∧ slot = j then parent else if block = cb ∧ slot = cj then child else table block slot

/-- The table after a call that changed a slot in each of two blocks. -/
theorem HasTable.of_becomes {n : ℕ} {table : ℕ → ℕ → List UInt8} {v v' : Volume} (h : v.HasTable (n + 1) table)
    {b j cb cj : ℕ} (hblocks : cb ≠ b) {data data' child parent : List UInt8}
    (hv : Becomes n v (Function.update (Function.update v.storage.block cb data) b data') v')
    (hdata : ∀ slot < inosPerPage, slotOf data slot = if slot = cj then child else slotOf (v.storage.block cb) slot)
    (hdata' : ∀ slot < inosPerPage, slotOf data' slot = if slot = j then parent else slotOf (v.storage.block b) slot) :
    v'.HasTable n (tableWith table cb cj b j child parent) where
  toAtRest := hv.toAtRest
  ait2 := hv.ait2.trans h.ait2
  aggSize := hv.aggSize ▸ h.aggSize
  plain block hlow hhigh := hv.plain block (h.plain block hlow hhigh)
  table block slot hlow hhigh hslot := by
    unfold tableWith
    rw [hv.blocks block (h.plain block hlow hhigh), ← h.table block slot hlow hhigh hslot]
    by_cases hb : block = b
    · rw [hb, Function.update_self, hdata' slot hslot]
      simp [Ne.symm hblocks]
    by_cases hcb : block = cb
    · rw [hcb, Function.update_of_ne hblocks, Function.update_self, hdata slot hslot]
      simp [hblocks]
    · rw [Function.update_of_ne hb, Function.update_of_ne hcb]
      simp [hb, hcb]

section Made

variable {n : ℕ} {table : ℕ → ℕ → List UInt8} {v : Volume} (h : v.HasTable (n + 1) table)
  {parent child : UInt32} {b j cb cj : ℕ} (hparent : foundIn table parent b j = true)
  (hfree : freeIn table cb cj = true) (hblocks : cb ≠ b) (hchild : child = UInt32.ofNat (inoAt (cb - 24) cj))
  (hino : filesystemI ≤ child.toNat) (hne : child ≠ parent) {live : List (ℕ × DirEntry)}
  (hshows : (rootIn table b j).Shows live) {name : String} (hname : validName (encodeUtf16 name) = true)
  (habsent : (live.map Prod.snd).find? (fun e => e.name = encodeUtf16 name) = none) (hroom : live.length < 8)

include h hparent hfree hblocks hchild hino hne hshows hname habsent hroom

/-- **A directory is made** in the table. -/
theorem HasTable.exists_mkdir :
    ∃ v' d', mkdir parent name v = .ok child v' ∧
      Dtree.insert (encodeUtf16 name) child (UInt32.ofNat live.length) (rootIn table b j) = .ok true d' ∧
      d'.Shows (Dtree.placed live (live.length + 1) ⟨child, encodeUtf16 name, UInt32.ofNat live.length⟩) ∧
      v'.HasTable n (tableWith table cb cj b j (newDirectory child parent (table cb cj))
        (relinked addLink (Dinode.setRoot d'.toBytes (table b j)))) := by
  obtain ⟨hlow, hhigh, hj⟩ := bounds_of_foundIn hparent
  obtain ⟨hlow', hhigh', hcj⟩ := bounds_of_freeIn hfree
  obtain ⟨v', d', hrun, hinsert, hshows', hbecomes⟩ := Volume.exists_mkdir h.toAtRest (h.foundAt hparent)
    (h.freeAt hfree) hblocks (by rw [h.address]; exact hchild) hino hne (h.dtree_inodeAt _ hlow hhigh hj hshows.size)
    hshows hname habsent hroom
  have hedit : Dinode.IsEdit (Dinode.setRoot d'.toBytes) := isEdit_setRoot_bytes hshows'.size
  refine ⟨v', d', hrun, hinsert, hshows', h.of_becomes hblocks hbecomes (fun slot hslot => ?_) fun slot hslot => ?_⟩
  · have hlen := v.storage.length_block cb
    rw [slotOf_updateAt_of_length hlen hcj (newDirectory_spec (length_slotOf hlen hcj) parent hino).1,
      h.table cb cj hlow' hhigh' hcj]
  · have hlen := v.storage.length_block b
    rw [slotOf_updateAt (length_updateAt_slot hlen hj hedit) hj (isEdit_relinked addLink), slotOf_updateAt hlen hj hedit,
      slotOf_updateAt hlen hj hedit, if_pos rfl, h.table b j hlow hhigh hj]
    split <;> rfl

/-- **A file is made** in the table, and the allocator keeps its map. -/
theorem HasTable.exists_createFile :
    ∃ v' d', createFile parent name v = .ok child v' ∧ v'.bmap = v.bmap.map flushedMap ∧
      Dtree.insert (encodeUtf16 name) child (UInt32.ofNat live.length) (rootIn table b j) = .ok true d' ∧
      v'.HasTable n (tableWith table cb cj b j (newDinode 0x81a4 0 1 child (table cb cj))
        (Dinode.setRoot d'.toBytes (table b j))) := by
  obtain ⟨hlow, hhigh, hj⟩ := bounds_of_foundIn hparent
  obtain ⟨hlow', hhigh', hcj⟩ := bounds_of_freeIn hfree
  obtain ⟨v', d', hrun, hbmap, hinsert, hshows', hbecomes⟩ := Volume.exists_createFile h.toAtRest (h.foundAt hparent)
    (h.freeAt hfree) hblocks (by rw [h.address]; exact hchild) hino hne (h.dtree_inodeAt _ hlow hhigh hj hshows.size)
    hshows hname habsent hroom
  have hedit : Dinode.IsEdit (Dinode.setRoot d'.toBytes) := isEdit_setRoot_bytes hshows'.size
  refine ⟨v', d', hrun, hbmap, hinsert, h.of_becomes hblocks hbecomes (fun slot hslot => ?_) fun slot hslot => ?_⟩
  · have hlen := v.storage.length_block cb
    rw [slotOf_updateAt_of_length hlen hcj (newDinode_spec (length_slotOf hlen hcj) 0x81a4 0 1 hino).1,
      h.table cb cj hlow' hhigh' hcj]
  · rw [slotOf_updateAt (v.storage.length_block b) hj hedit, h.table b j hlow hhigh hj]

end Made

end Volume

end JfsFuse
