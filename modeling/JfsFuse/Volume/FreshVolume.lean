import JfsFuse.Volume.Mount
import JfsFuse.Volume.Table

/-!
# A volume that was just made

The inode table of a new filesystem has three inodes: the block map in block 24, the aggregate
inode in block 26 and the root directory in block 28.
-/

namespace JfsFuse

open ByteBuf Program

namespace Volume

/-- The inode table of a new filesystem. -/
structure FreshTable (s : Storage) : Prop where
  block24 : s.block 24 = Mkfs.inodeBlock 1 Mkfs.bmapInodeBytes
  block26 : s.block 26 = Mkfs.inodeBlock 0 Mkfs.aggregateInodeBytes
  block28 : s.block 28 = Mkfs.inodeBlock 2 Mkfs.rootInodeBytes
  others : ∀ block, 24 ≤ block → block < 60 → block ≠ 24 → block ≠ 26 → block ≠ 28 →
    s.block block = zeros blockSize

theorem freshTable_create {numBlocks : ℕ} (hblocks : 4096 ≤ numBlocks) :
    FreshTable (Mkfs.createFilesystemWithBlocks numBlocks) := by
  obtain ⟨-, -, -, hdata⟩ := Mkfs.createFilesystemWithBlocks_spec hblocks
  refine ⟨?_, ?_, ?_, fun block hlow hhigh h₁ h₂ h₃ => ?_⟩ <;> unfold Storage.block <;> rw [hdata]
  · exact Mkfs.read_image_bmapInode numBlocks
  · exact Mkfs.read_image_aggregateInode numBlocks
  · exact Mkfs.read_image_rootInode numBlocks
  · exact Mkfs.read_image_table numBlocks hlow (by omega) h₁ h₂ h₃

/-- The volume shows the inode table of a new filesystem, and has no page cached. -/
structure Fresh (v : Volume) : Prop where
  whole : v.storage.Whole
  ait2 : v.ait2 = Mkfs.makePxd 4 24
  aggSize : 4096 ≤ v.aggSize
  size : v.aggSize * blockSize ≤ v.storage.size
  cache : v.pageCache = PageCache.new 256
  table : FreshTable v.storage

theorem fresh_mounted {numBlocks : ℕ} (hblocks : 4096 ≤ numBlocks) (logsuper : LogSuper) {s : Storage}
    (hwhole : s.Whole) (hsize : numBlocks * blockSize ≤ s.size) (htable : FreshTable s)
    (bmap : BlockAllocMap) : (mounted numBlocks logsuper s bmap).Fresh :=
  ⟨hwhole, rfl, hblocks, hsize, rfl, htable⟩

/-- A new filesystem is mounted as it is. -/
theorem fresh_create {numBlocks : ℕ} (hblocks : 4096 ≤ numBlocks) (hmax : numBlocks < 2 ^ 64) :
    ∃ v, openFromStorage (Mkfs.createFilesystemWithBlocks numBlocks) =
        .ok v (Mkfs.createFilesystemWithBlocks numBlocks) ∧ v.Fresh := by
  have hreplayed := replayed_create hblocks hmax
  obtain ⟨-, -, hsize, -⟩ := Mkfs.createFilesystemWithBlocks_spec hblocks
  obtain ⟨logsuper, hopen⟩ := openFromStorage_ok hreplayed
  exact ⟨_, hopen,
    fresh_mounted hblocks logsuper hreplayed.toWhole hsize.ge (freshTable_create hblocks) _⟩

namespace Fresh

variable {v : Volume} (h : v.Fresh)

include h

theorem calm : v.Calm where
  faults := h.whole.faults
  size := h.size
  pages := fun key page hpage => by
    rw [h.cache, PageCache.peek_new] at hpage
    cases hpage

theorem shown (block : ℕ) : v.shown block = v.storage.block block := by
  unfold Volume.shown
  rw [h.cache, PageCache.peekBlock_new, Option.map_none, Option.getD_none]

/-- Only one slot of the table is that of the root directory. -/
theorem hasKey_root_iff {b j : ℕ} (hlow : 24 ≤ b) (hhigh : b < 60) (hj : j < inosPerPage) :
    Dinode.HasKey (inodeKey 18) (slotOf (v.shown b) j) ↔ b = 28 ∧ j = 2 := by
  rw [h.shown]
  by_cases h₁ : b = 24
  · have hnone : ∀ j < inosPerPage,
        ¬ Dinode.HasKey (inodeKey 18) (slotOf (Mkfs.inodeBlock 1 Mkfs.bmapInodeBytes) j) := by
      decide +kernel
    rw [h₁, h.table.block24]
    exact iff_of_false (hnone j hj) (by omega)
  by_cases h₂ : b = 26
  · have hnone : ∀ j < inosPerPage,
        ¬ Dinode.HasKey (inodeKey 18) (slotOf (Mkfs.inodeBlock 0 Mkfs.aggregateInodeBytes) j) := by
      decide +kernel
    rw [h₂, h.table.block26]
    exact iff_of_false (hnone j hj) (by omega)
  by_cases h₃ : b = 28
  · have hone : ∀ j < inosPerPage,
        (Dinode.HasKey (inodeKey 18) (slotOf (Mkfs.inodeBlock 2 Mkfs.rootInodeBytes) j) ↔ j = 2) := by
      decide +kernel
    rw [h₃, h.table.block28, hone j hj]
    exact (and_iff_right rfl).symm
  · have hnone : ∀ j < inosPerPage, ¬ Dinode.HasKey (inodeKey 18) (slotOf (zeros blockSize) j) := by
      decide +kernel
    rw [h.table.others b hlow hhigh h₁ h₂ h₃]
    exact iff_of_false (hnone j hj) (fun heq => h₃ heq.1)

theorem foundAt_root : v.FoundAt 18 28 2 := by
  have haddress : v.ait2.address = 24 := by
    rw [h.ait2]
    decide
  have hlength : v.ait2.length = 4 := by
    rw [h.ait2]
    decide
  refine ⟨by omega, by rw [haddress, hlength]; decide, ?_, by decide, ?_, ?_⟩
  · have := h.aggSize
    omega
  · exact (h.hasKey_root_iff (by decide) (by decide) (by decide)).mpr ⟨rfl, rfl⟩
  · intro b' j' hlow hbefore hj' hkey
    rw [haddress] at hlow
    have heq := (h.hasKey_root_iff hlow (by omega) hj').mp hkey
    omega

/-- **The root directory of a new filesystem.** -/
theorem readInode_root :
    readInode 18 v =
      .ok { dinode := Mkfs.rootInodeBytes, ino := 18, pageBlock := 28, pageOffset := 2 * disize } v := by
  have hread := h.calm.readInode_of_foundAt h.foundAt_root
  have hslot : slotOf (v.own 18 28) 2 = Mkfs.rootInodeBytes := by
    have hown : v.own 18 28 = v.storage.block 28 := by
      unfold own
      rw [h.cache, PageCache.peek_new, Option.map_none, Option.getD_none]
    rw [hown, h.table.block28]
    decide +kernel
  unfold inodeAt at hread
  rwa [hslot] at hread

end Fresh

end Volume

end JfsFuse
