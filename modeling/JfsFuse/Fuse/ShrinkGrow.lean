import JfsFuse.Volume.LastExtent
import JfsFuse.Volume.Truncate

/-!
# Shrinking a file and growing it again

The two calls blank the blocks that the first one cuts off and the block end that the second one
clears.  A growth within the last block clears nothing, and blocks that were allocated behind the
end of the file are not cut off when the number of blocks stays the same.
-/

namespace JfsFuse

open ByteBuf Program

namespace Volume

open Dinode

variable {lo hi : ℕ} {v v₁ v₂ : Volume} {ino : UInt32} {b j : ℕ} {d : List UInt8} {xtree : Xtree} {s₁ s₂ : ℕ}

/-- What is read below `s₁` is read again, and zeros are read from there to `s₂`. -/
def GrewBlank (v v' : Volume) (ino : UInt32) (s₁ s₂ : ℕ) : Prop :=
  (∀ i < s₁, ∀ x, v.ReadsByte ino i x → v'.ReadsByte ino i x) ∧
    ∀ i, s₁ ≤ i → i < s₂ → v'.ReadsByte ino i 0

/-- The blocks of the file hold zeros below `s₂` but for bytes that are below `s₁` and stay, and
bytes from `s₁` on that one of the two changes of size takes away. -/
def BlankBehind (v : Volume) (xtree : Xtree) (size s₁ s₂ : ℕ) : Prop :=
  ∀ i < s₂, xtree.byteAt v.storage i ≠ 0 → (s₁ ≤ i ↔ Blanks size s₁ i ∨ Blanks s₁ s₂ i)

/-- Sizes whose number of blocks does not overflow blank nothing below the smaller one. -/
theorem le_of_blanks {size : ℕ} (hsize : size + blockSize ≤ 2 ^ 64) (hs₂ : s₂ + blockSize ≤ 2 ^ 64) (h₁ : s₁ ≤ size)
    (h₂ : s₁ ≤ s₂) {i : ℕ} (h : Blanks size s₁ i ∨ Blanks s₁ s₂ i) : s₁ ≤ i := by
  unfold Blanks at h
  unfold blockSize at hsize hs₂
  rw [blocksUpTo_eq (n := size) (by unfold blockSize; omega), blocksUpTo_eq (n := s₁) (by unfold blockSize; omega),
    blocksUpTo_eq (n := s₂) (by unfold blockSize; omega)] at h
  unfold blockSize at h
  omega

/-- The file after one change of its size. -/
theorem FileAt.resized (h : FileAt lo hi v ino b j d) (hxtree : Xtree.fromInodeData (root d) = .ok xtree)
    (hsited : Sited lo hi v xtree) {newSize : ℕ} (hrun : Volume.truncate ino newSize v = .ok () v₁) :
    ∃ d₁ xtree₁, FileAt lo hi v₁ ino b j d₁ ∧ Xtree.fromInodeData (root d₁) = .ok xtree₁ ∧
      size d₁ = newSize % 2 ^ 64 ∧ Sited lo hi v₁ xtree₁ ∧ ∀ i,
        (Blanks (size d) newSize i → xtree₁.byteAt v₁.storage i = 0) ∧
        (¬ Blanks (size d) newSize i → xtree₁.byteAt v₁.storage i = xtree.byteAt v.storage i) := by
  obtain ⟨hfile, hput, hbytes⟩ := h.truncate hxtree hsited hrun
  obtain ⟨xtree₁, hxtree₁, hphysical⟩ := xtree_truncated h.length hxtree newSize
  have hsited₁ : Sited lo hi v₁ xtree₁ := by
    refine (hsited.of_staysPut hput).of_physical fun block a ha => ?_
    rw [hphysical] at ha
    exact physical_cutXtree ha
  refine ⟨_, xtree₁, hfile, hxtree₁, size_truncated h.length xtree newSize, hsited₁, fun i => ?_⟩
  rw [Xtree.byteAt_congr (hphysical _) fun _ _ => rfl]
  exact hbytes i

/-- The file after both calls. -/
theorem FileAt.shrink_grow (h : FileAt lo hi v ino b j d) (hxtree : Xtree.fromInodeData (root d) = .ok xtree)
    (hsited : Sited lo hi v xtree) (hs₁ : s₁ < 2 ^ 64) (hrun₁ : Volume.truncate ino s₁ v = .ok () v₁)
    (hrun₂ : Volume.truncate ino s₂ v₁ = .ok () v₂) :
    ∃ d₂ xtree₂, FileAt lo hi v₂ ino b j d₂ ∧ Xtree.fromInodeData (root d₂) = .ok xtree₂ ∧
      size d₂ = s₂ % 2 ^ 64 ∧ Sited lo hi v₂ xtree₂ ∧ ∀ i,
        (Blanks (size d) s₁ i ∨ Blanks s₁ s₂ i → xtree₂.byteAt v₂.storage i = 0) ∧
        (¬ (Blanks (size d) s₁ i ∨ Blanks s₁ s₂ i) →
          xtree₂.byteAt v₂.storage i = xtree.byteAt v.storage i) := by
  obtain ⟨d₁, xtree₁, hfile₁, hxtree₁, hsize₁, hsited₁, hbytes₁⟩ := h.resized hxtree hsited hrun₁
  rw [Nat.mod_eq_of_lt hs₁] at hsize₁
  obtain ⟨d₂, xtree₂, hfile₂, hxtree₂, hsize₂, hsited₂, hbytes₂⟩ := hfile₁.resized hxtree₁ hsited₁ hrun₂
  rw [hsize₁] at hbytes₂
  refine ⟨d₂, xtree₂, hfile₂, hxtree₂, hsize₂, hsited₂, fun i => ⟨fun hblank => ?_, fun hkept => ?_⟩⟩
  · by_cases hsecond : Blanks s₁ s₂ i
    · exact (hbytes₂ i).1 hsecond
    · rw [(hbytes₂ i).2 hsecond]
      exact (hbytes₁ i).1 (hblank.resolve_right hsecond)
  · rw [not_or] at hkept
    rw [(hbytes₂ i).2 hkept.2, (hbytes₁ i).2 hkept.1]

/-- Where no number of blocks overflows, the first condition is empty. -/
theorem blankBehind_iff {size : ℕ} (hsize : size + blockSize ≤ 2 ^ 64) (hs₂ : s₂ + blockSize ≤ 2 ^ 64)
    (hshrink : s₁ ≤ size) (hgrow : s₁ ≤ s₂) :
    BlankBehind v xtree size s₁ s₂ ↔ ∀ i, s₁ ≤ i → i < s₂ → xtree.byteAt v.storage i ≠ 0 →
      Blanks size s₁ i ∨ Blanks s₁ s₂ i :=
  ⟨fun h i hle hi hne => (h i hi hne).mp hle,
    fun h i hi hne => ⟨fun hle => h i hle hi hne, le_of_blanks hsize hs₂ hshrink hgrow⟩⟩

section OneFile

variable (content : ℕ → UInt8)

theorem sited_threeBlocks : Sited 4 4 (oneFile Xtree.threeBlocks 12288 content) Xtree.threeBlocks.stored :=
  sited_oneFile _ _ _ Xtree.unshared_threeBlocks (by decide)

theorem xtree_threeBlocks :
    Xtree.fromInodeData (root (fileInode Xtree.threeBlocks 12288)) = .ok Xtree.threeBlocks.stored :=
  xtree_fileInode ..

theorem size_threeBlocks : size (fileInode Xtree.threeBlocks 12288) = 12288 :=
  size_fileInode ..

/-- A file of three blocks is cut off in its second block, and then grows within this block. -/
theorem exists_shrink_grow : ∃ v₁ v₂, Volume.truncate 19 4500 (oneFile Xtree.threeBlocks 12288 content) = .ok () v₁ ∧
    Volume.truncate 19 5000 v₁ = .ok () v₂ := by
  have hfile := fileAt_oneFile Xtree.threeBlocks 12288 content
  obtain ⟨v₁, hrun₁, hquiet₁, hidle₁⟩ := (settled_oneFile Xtree.threeBlocks 12288 content).exists_truncate
    hfile.guarded hfile.low rfl hfile.placed hfile.high 4500
    (show ((oneFile Xtree.threeBlocks 12288 content).inodeAt 19 4 0).xtree = .ok Xtree.threeBlocks.stored by
      rw [inodeAt_oneFile]
      exact xtree_threeBlocks) (by
      rw [inodeAt_oneFile]
      change ¬ (blocksUpTo (size (fileInode Xtree.threeBlocks 12288)) < _ ∧ _)
      rw [size_threeBlocks]
      decide)
  obtain ⟨d₁, xtree₁, hfile₁, hxtree₁, hsize₁, -⟩ := hfile.resized xtree_threeBlocks (sited_threeBlocks content) hrun₁
  have hinode : v₁.inodeAt 19 4 0 = { dinode := d₁, ino := 19, pageBlock := 4, pageOffset := 0 * disize } := by
    unfold inodeAt
    rw [hfile₁.inode]
  obtain ⟨v₂, hrun₂, -⟩ := hquiet₁.exists_truncate hfile₁.guarded hfile₁.low hidle₁ hfile₁.placed hfile₁.high
    5000 (show (v₁.inodeAt 19 4 0).xtree = .ok xtree₁ by rw [hinode]; exact hxtree₁) (by
      rw [hinode]
      intro hgrows
      change blocksUpTo (size d₁) < blocksUpTo 5000 ∧ _ at hgrows
      rw [hsize₁] at hgrows
      exact absurd hgrows.1 (by decide))
  exact ⟨v₁, v₂, hrun₁, hrun₂⟩

end OneFile

end Volume

end JfsFuse
