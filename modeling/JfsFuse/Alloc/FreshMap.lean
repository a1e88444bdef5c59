import JfsFuse.Alloc.Persistence

/-!
# The block map of a new filesystem

`mkfs` writes two pages of the map behind its descriptor, but gives the BMAP inode an extent of
two blocks, descriptor included.  `BlockAllocMap::new` takes the number of pages from that
extent and reads one.  So a filesystem of more than 8192 blocks is mounted with all blocks
behind the first page in use.
-/

namespace JfsFuse

open ByteBuf Program

namespace BlockAllocMap

/-- Mounting a new filesystem reads the map that `mkfs` has laid out. -/
def ReadsFresh (numBlocks : ℕ) : Prop :=
  ∃ m s, new (Mkfs.createFilesystemWithBlocks numBlocks) = .ok m s ∧
    m.mapsize = numBlocks ∧
    (∀ b, m.freeMap b = true ↔ b < numBlocks ∧ Mkfs.isReserved b = false) ∧
    m.nfree.toNat = (List.range m.mapsize).countP m.freeMap

theorem isReserved_of_le {b : ℕ} (h : 4096 ≤ b) : Mkfs.isReserved b = false := by
  unfold Mkfs.isReserved
  rw [List.any_eq_false]
  intro e he
  have hend : e.1 + e.2 ≤ 4096 := by
    revert e
    decide
  simp only [Bool.and_eq_true, decide_eq_true_eq]
  omega

/-- The reserved blocks lie below block 4096. -/
theorem countP_isReserved {n : ℕ} (h : 4096 ≤ n) : (List.range n).countP Mkfs.isReserved = 283 := by
  induction n, h using Nat.le_induction with
  | base => decide +kernel
  | succ n hn ih =>
      rw [List.range_succ, List.countP_append, ih, List.countP_singleton, isReserved_of_le hn]
      rfl

theorem freeBlocks_eq (numBlocks : ℕ) : Mkfs.freeBlocks numBlocks = numBlocks - 283 := by
  unfold Mkfs.freeBlocks Mkfs.reserved Mkfs.logAreaBlocks
  simp only [List.foldl_cons, List.foldl_nil]
  omega

/-- The count of free blocks is that of the map. -/
theorem countP_isFree {n : ℕ} (h : 4096 ≤ n) : (List.range n).countP (Mkfs.isFree n) = Mkfs.freeBlocks n := by
  have hsplit := List.length_eq_countP_add_countP Mkfs.isReserved (l := List.range n)
  have hfree : (List.range n).countP (Mkfs.isFree n) =
      (List.range n).countP fun b => decide ¬ Mkfs.isReserved b = true := by
    refine List.countP_congr fun b hb => ?_
    unfold Mkfs.isFree
    rw [decide_eq_true (List.mem_range.mp hb)]
    simp
  rw [countP_isReserved h, List.length_range] at hsplit
  rw [hfree, freeBlocks_eq]
  omega

theorem nfree_create {numBlocks : ℕ} (hblocks : 4096 ≤ numBlocks) (hmax : numBlocks ≤ blocksPerDmap) :
    (loaded (Mkfs.createFilesystemWithBlocks numBlocks)).nfree.toNat = Mkfs.freeBlocks numBlocks := by
  have hfirst : (writeLE (zeros blockSize) 0 8 numBlocks).length = blockSize := by
    rw [length_writeLE _ (by rw [length_zeros]; decide), length_zeros]
  have hsmall : Mkfs.freeBlocks numBlocks < 2 ^ 64 := by
    rw [freeBlocks_eq]
    unfold blocksPerDmap at hmax
    omega
  rw [loaded_nfree, block_desc_create hblocks, Mkfs.bmapDesc, readLE_writeLE_self _ (by rw [hfirst]; decide),
    UInt64.toNat_ofNat', Nat.mod_eq_of_lt (a := Mkfs.freeBlocks numBlocks % 256 ^ 8) (by omega),
    Nat.mod_eq_of_lt (by omega)]

theorem freeMap_loaded_of_le (s : Storage) {b : ℕ} (hb : blocksPerDmap ≤ b) : (loaded s).freeMap b = false := by
  rw [loaded_freeMap]
  unfold parseDmapPage
  exact if_neg (by omega)

theorem freeMap_of_new {s s' : Storage} {m : BlockAllocMap} (hload : new s = .ok (loaded s) s)
    (hnew : new s = .ok m s') {b : ℕ} (hb : blocksPerDmap ≤ b) : m.freeMap b = false := by
  have hfree := freeMap_loaded_of_le s hb
  generalize loaded s = m₀ at *
  rw [hload] at hnew
  cases hnew
  exact hfree

/-- **Mount and `mkfs` agree on the block map exactly when it fits into one page.** -/
theorem readsFresh_iff (numBlocks : ℕ) (hblocks : 4096 ≤ numBlocks) :
    ReadsFresh numBlocks ↔ numBlocks ≤ 8192 := by
  have hload := new_ok (hasMap_create hblocks)
  constructor
  · rintro ⟨m, s, hnew, -, hfree, -⟩
    by_contra hlarge
    have hmapped := (hfree 8192).mpr ⟨by omega, isReserved_of_le (by decide)⟩
    rw [freeMap_of_new hload hnew (show blocksPerDmap ≤ 8192 by decide)] at hmapped
    cases hmapped
  · intro hmax
    have hsize := mapsize_create hblocks hmax
    have hfree := freeMap_create hblocks hmax
    have hnfree := nfree_create hblocks hmax
    refine ⟨_, _, hload, hsize, fun b => ?_, ?_⟩
    · rw [hfree]
      unfold Mkfs.isFree
      simp
    · rw [hnfree, hsize, hfree, countP_isFree hblocks]

theorem readsFresh_iff_smallest : 4096 ≤ 4096 ∧ ReadsFresh 4096 :=
  ⟨le_rfl, (readsFresh_iff 4096 le_rfl).mpr (by decide)⟩

/-- In a filesystem of two pages, the last block of the first page is free and the first block
of the second, which `mkfs` has marked free as well, is not. -/
theorem not_readsFresh_two_pages :
    ¬ ReadsFresh 16384 ∧
      ∃ m s, new (Mkfs.createFilesystemWithBlocks 16384) = .ok m s ∧ m.freeMap 8192 = false ∧
        Mkfs.isFree 16384 8192 = true := by
  have hload := new_ok (hasMap_create (show 4096 ≤ 16384 by decide))
  have hused : (loaded (Mkfs.createFilesystemWithBlocks 16384)).freeMap 8192 = false :=
    freeMap_loaded_of_le _ le_rfl
  have hfresh : Mkfs.isReserved 8192 = false := isReserved_of_le (by decide)
  refine ⟨?_, _, _, hload, hused, ?_⟩
  · rintro ⟨m, s, hnew, -, hfree, -⟩
    have hmapped := (hfree 8192).mpr ⟨by decide, hfresh⟩
    rw [freeMap_of_new hload hnew (show blocksPerDmap ≤ 8192 by decide)] at hmapped
    cases hmapped
  · unfold Mkfs.isFree
    rw [hfresh]
    rfl

end BlockAllocMap

end JfsFuse
