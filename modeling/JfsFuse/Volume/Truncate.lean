import JfsFuse.Btree.XtreeBytes
import JfsFuse.Btree.XtreeCuts
import JfsFuse.Fuse.FileRead
import JfsFuse.Volume.FileAt
import JfsFuse.Volume.OneFile

/-!
# Truncating a file

`truncate` compares numbers of blocks.  Fewer blocks than before cut extents off, more blocks
clear the end of the block that the old size lies in, and the same number only changes the size.
-/

namespace JfsFuse

open ByteBuf Program

namespace Xtree

theorem physical_of_slots {xt xt' : Xtree} (h : xt'.slots = xt.slots) (block : ℕ) :
    xt'.physical block = xt.physical block := by
  rw [physical_eq_locate, physical_eq_locate]
  unfold runs
  rw [h]

theorem physical_stored (xt : Xtree) (block : ℕ) : xt.stored.physical block = xt.physical block :=
  physical_of_slots xt.slots_stored block

/-- The byte of a file depends on its block only. -/
theorem byteAt_congr {xt xt' : Xtree} {s s' : Storage} {i : ℕ}
    (hphysical : xt'.physical (i / blockSize) = xt.physical (i / blockSize))
    (hbyte : ∀ a, xt.physical (i / blockSize) = some a →
      (s'.block a).getD (i % blockSize) 0 = (s.block a).getD (i % blockSize) 0) :
    xt'.byteAt s' i = xt.byteAt s i := by
  unfold byteAt
  rw [hphysical]
  cases hblock : xt.physical (i / blockSize) with
  | none => rw [Option.map_none, Option.map_none]
  | some a => rw [Option.map_some, Option.map_some, hbyte a hblock]

theorem byteAt_of_none {xt : Xtree} (s : Storage) {i : ℕ} (h : xt.physical (i / blockSize) = none) :
    xt.byteAt s i = 0 := by
  unfold byteAt
  rw [h, Option.map_none, Option.getD_none]

theorem mem_span_of_physical {xt : Xtree} {block a : ℕ} (h : xt.physical block = some a) :
    ∃ xad, xt.lookup block = some xad ∧ xad.address + (block - xad.offset) = a ∧ a ∈ xad.run.span := by
  obtain ⟨xad, hxad, haddr⟩ := Option.map_eq_some_iff.mp h
  obtain ⟨-, hlow, hhigh⟩ := lookup_eq_some hxad
  unfold Xad.stop at hhigh
  refine ⟨xad, hxad, haddr, ?_⟩
  rw [Run.span, mem_addressSpan]
  show xad.address ≤ a ∧ a < xad.address + xad.length
  omega

theorem mem_blocks_of_physical {xt : Xtree} {block a : ℕ} (h : xt.physical block = some a) : a ∈ xt.blocks := by
  obtain ⟨xad, hxad, -, hmem⟩ := mem_span_of_physical h
  exact mem_blocks.mpr ⟨xad, (lookup_eq_some hxad).1, hmem⟩

/-- Extents that lie apart on the disk map different blocks to different blocks. -/
theorem Unshared.injective {xt : Xtree} (h : xt.Unshared) {block block' a : ℕ}
    (hblock : xt.physical block = some a) (hblock' : xt.physical block' = some a) : block = block' := by
  obtain ⟨xad, hxad, haddr, hmem⟩ := mem_span_of_physical hblock
  obtain ⟨xad', hxad', haddr', hmem'⟩ := mem_span_of_physical hblock'
  obtain ⟨hslot, hlow, -⟩ := lookup_eq_some hxad
  obtain ⟨hslot', hlow', -⟩ := lookup_eq_some hxad'
  have hsame := h.eq_of_mem hslot hslot' hmem hmem'
  rw [hsame] at haddr hlow
  omega

end Xtree

namespace Volume

open Dinode

variable {lo hi : ℕ} {v w : Volume} {ino : UInt32} {b j : ℕ} {d : List UInt8} {xtree xtree' : Xtree}

/-- Different blocks of the file lie in different blocks of the volume, which hold nothing else. -/
structure Sited (lo hi : ℕ) (v : Volume) (xtree : Xtree) : Prop where
  injective : ∀ block block' a, xtree.physical block = some a → xtree.physical block' = some a → block = block'
  inside : v.InVolume xtree
  apart : ∀ block a, xtree.physical block = some a → Apart lo hi v a

namespace Sited

theorem of_staysPut (h : Sited lo hi v xtree) (hput : StaysPut v w) : Sited lo hi w xtree where
  injective := h.injective
  inside block a ha := by
    rw [hput.aggSize]
    exact h.inside block a ha
  apart block a ha := (h.apart block a ha).of_staysPut hput

theorem of_physical (h : Sited lo hi v xtree)
    (hphysical : ∀ block a, xtree'.physical block = some a → xtree.physical block = some a) :
    Sited lo hi v xtree' where
  injective block block' a ha ha' := h.injective block block' a (hphysical block a ha) (hphysical block' a ha')
  inside block a ha := h.inside block a (hphysical block a ha)
  apart block a ha := h.apart block a (hphysical block a ha)

/-- The part of a single block is not in the inode table. -/
theorem not_table (h : Sited lo hi v xtree) {block addr count : ℕ} (hmem : (addr, count) ∈ xtree.mapBlocks block 1)
    (haddr : addr ≠ 0) : ∀ a, addr ≤ a → a < addr + count → ¬ (lo ≤ a ∧ a ≤ hi) := by
  rw [Xtree.mapBlocks_one] at hmem
  obtain ⟨rfl, rfl⟩ := Prod.mk.inj (List.mem_singleton.mp hmem)
  intro a hlow hhigh
  rw [Nat.le_antisymm (Nat.le_of_lt_succ hhigh) hlow]
  cases hphysical : xtree.physical block with
  | none =>
      rw [hphysical] at haddr
      exact absurd rfl haddr
  | some addr => exact (h.apart block addr hphysical).table

end Sited

/-! ## What a truncation leaves -/

/-- Rounding up, where it does not overflow. -/
theorem blocksUpTo_eq {n : ℕ} (h : n + (blockSize - 1) < 2 ^ 64) : blocksUpTo n = (n + (blockSize - 1)) / blockSize := by
  unfold blocksUpTo addU64
  rw [Nat.mod_eq_of_lt h]

/-- The extents of a file after a change of its size. -/
def cutXtree (size newSize : ℕ) (xtree : Xtree) : Xtree :=
  if blocksUpTo newSize < blocksUpTo size then (xtree.truncateExtents (blocksUpTo newSize)).2 else xtree

/-- The change of size leaves nothing at position `i`: the block is cut off, or it is the one that
the old size lies in, and its end is cleared. -/
def Blanks (size newSize i : ℕ) : Prop :=
  blocksUpTo newSize < blocksUpTo size ∧ blocksUpTo newSize ≤ i / blockSize ∨
    blocksUpTo size < blocksUpTo newSize ∧ size % blockSize ≠ 0 ∧ i / blockSize = size / blockSize ∧ size ≤ i

instance (size newSize i : ℕ) : Decidable (Blanks size newSize i) :=
  inferInstanceAs (Decidable (_ ∨ _))

/-- The inode after `truncate`. -/
def truncated (xtree : Xtree) (newSize : ℕ) (d : List UInt8) : List UInt8 :=
  if blocksUpTo newSize < blocksUpTo (size d) then
    resize (xtree.truncateExtents (blocksUpTo newSize)).2 newSize
      (computeNblocks (xtree.truncateExtents (blocksUpTo newSize)).2 (nblocks d)) d
  else setSize newSize d

theorem size_truncated (h : d.length = disize) (xtree : Xtree) (newSize : ℕ) :
    size (truncated xtree newSize d) = newSize % 2 ^ 64 := by
  unfold truncated resize
  have hroot := length_setRoot h
  split
  · rw [size_setNblocks (length_setSize (hroot _) newSize), size_setSize (hroot _)]
  · exact size_setSize h newSize

theorem xtree_truncated (h : d.length = disize) (hxtree : Xtree.fromInodeData (root d) = .ok xtree)
    (newSize : ℕ) : ∃ xtree', Xtree.fromInodeData (root (truncated xtree newSize d)) = .ok xtree' ∧
      ∀ block, xtree'.physical block = (cutXtree (size d) newSize xtree).physical block := by
  unfold truncated cutXtree resize
  split
  · have hroot := length_setRoot h (xtree.truncateExtents ↑(blocksUpTo newSize)).2
    rw [root_setNblocks (length_setSize hroot newSize), root_setSize hroot, root_setRoot h]
    exact ⟨_, Xtree.fromInodeData_toBytes _, Xtree.physical_stored _⟩
  · rw [root_setSize h]
    exact ⟨xtree, hxtree, fun _ => rfl⟩

theorem physical_cutXtree {size newSize block : ℕ} {a : ℕ}
    (h : (cutXtree size newSize xtree).physical block = some a) : xtree.physical block = some a := by
  unfold cutXtree at h
  split at h
  · obtain ⟨hbelow, habove, -⟩ := xtree.truncateExtents_partition (blocksUpTo newSize)
    by_cases hblock : block < blocksUpTo newSize
    · rwa [← hbelow block (by exact_mod_cast hblock)]
    · have hnone := habove block (by exact_mod_cast Nat.le_of_not_lt hblock)
      unfold Xtree.physical at h
      rw [hnone, Option.map_none] at h
      cases h
  · exact h

/-- **Clearing the end of a block.** -/
theorem Calm.of_zeroTail (h : v.Calm) {off a : ℕ} (hoff : off ≤ blockSize) (ha : a ≠ 0) (hin : a < v.aggSize)
    (hrun : zeroTail off [(a, 1)] v = .ok () w) :
    w.storage.block a = splice (v.storage.block a) off (zeros (blockSize - off)) ∧
      ∀ block, block ≠ a → w.storage.block block = v.storage.block block := by
  have hread : onStorage (StorageM.readBlock a) v = .ok (v.storage.block a) v := zoom_ok (h.readBlock hin)
  unfold zeroTail at hrun
  rw [if_pos ⟨ha, one_pos⟩, bind_ok hread] at hrun
  obtain ⟨_, v₁, hwrite, hrun⟩ := of_bind_ok hrun
  cases hrun
  have hlen : (splice (v.storage.block a) off (zeros (blockSize - off))).length = blockSize := by
    rw [length_splice, v.storage.length_block]
    rw [length_zeros, v.storage.length_block]
    omega
  unfold onStorage zoom at hwrite
  cases hdone : StorageM.writeBlock a (splice (v.storage.block a) off (zeros (blockSize - off))) v.storage with
  | error e s =>
      rw [hdone] at hwrite
      cases hwrite
  | ok _ s =>
      rw [hdone] at hwrite
      cases hwrite
      exact StorageM.of_writeBlock_ok hlen hdone

theorem zeroTail_hole (off count : ℕ) (v : Volume) : zeroTail off [(0, count)] v = .ok () v := by
  unfold zeroTail
  rw [if_neg fun hmapped => hmapped.1 rfl]
  rfl

/-- The position in a block that is cleared behind the size. -/
theorem mod_le_mod_iff {m n : ℕ} (h : n / blockSize = m / blockSize) :
    m % blockSize ≤ n % blockSize ↔ m ≤ n := by
  have hm := Nat.div_add_mod m blockSize
  have hn := Nat.div_add_mod n blockSize
  rw [h] at hn
  omega

/-- **Clearing behind the size** of a file. -/
theorem Calm.byteAt_of_zeroTail (h : v.Calm) (hsited : Sited lo hi v xtree) (size : ℕ)
    (hrun : zeroTail (size % blockSize) (xtree.mapBlocks (size / blockSize) 1) v = .ok () w) (i : ℕ) :
    (i / blockSize = size / blockSize ∧ size ≤ i → xtree.byteAt w.storage i = 0) ∧
      (¬ (i / blockSize = size / blockSize ∧ size ≤ i) → xtree.byteAt w.storage i = xtree.byteAt v.storage i) := by
  rw [Xtree.mapBlocks_one] at hrun
  cases hphysical : xtree.physical (size / blockSize) with
  | none =>
      rw [hphysical, Option.getD_none, zeroTail_hole] at hrun
      cases hrun
      refine ⟨fun hblank => Xtree.byteAt_of_none _ ?_, fun _ => rfl⟩
      rw [hblank.1, hphysical]
  | some a =>
      rw [hphysical, Option.getD_some] at hrun
      have hmod : size % blockSize < blockSize := Nat.mod_lt _ (by decide)
      obtain ⟨hnonzero, hin⟩ := hsited.inside _ a hphysical
      obtain ⟨hcleared, hothers⟩ := h.of_zeroTail hmod.le hnonzero hin hrun
      have hfits : size % blockSize + (zeros (blockSize - size % blockSize)).length ≤ (v.storage.block a).length := by
        rw [length_zeros, v.storage.length_block]
        omega
      have hbyte : ∀ k, (w.storage.block a).getD k 0 =
          if size % blockSize ≤ k ∧ k < blockSize then 0 else (v.storage.block a).getD k 0 := by
        intro k
        rw [hcleared, getD_splice k 0 hfits, length_zeros, Nat.add_sub_cancel' hmod.le]
        split
        · unfold zeros
          rw [List.getD_replicate]
          omega
        · rfl
      have hi : i % blockSize < blockSize := Nat.mod_lt _ (by decide)
      refine ⟨fun ⟨hblock, hle⟩ => ?_, fun hkept => Xtree.byteAt_congr rfl fun a' ha' => ?_⟩
      · unfold Xtree.byteAt
        rw [hblock, hphysical, Option.map_some, Option.getD_some, hbyte,
          if_pos ⟨(mod_le_mod_iff hblock).mpr hle, hi⟩]
      · by_cases heq : a' = a
        · have hblock := hsited.injective _ _ a (heq ▸ ha') hphysical
          rw [heq, hbyte, if_neg fun hcut => hkept ⟨hblock, (mod_le_mod_iff hblock).mp hcut.1⟩]
        · rw [hothers a' heq]

namespace FileAt

variable (h : FileAt lo hi v ino b j d)

include h

/-- The inode is updated, and its page is marked. -/
theorem updateAndMark (hdirty : v.DirtyOnly ino b) {f : List UInt8 → List UInt8} (hf : IsEdit f)
    {exit : Exit Unit Unit} (hrun : (do
      updateInodePage ino b (j * disize) f
      markPageDirty ino b
      return .commit () : VolM (Exit Unit Unit)) v = .ok exit w) :
    exit = .commit () ∧ FileAt lo hi w ino b j (f d) ∧ PagesOnly v w ∧ w.DirtyOnly ino b := by
  obtain ⟨_, v₁, hupdate, hrun⟩ := of_bind_ok hrun
  obtain ⟨_, v₂, hmark, hrun⟩ := of_bind_ok hrun
  cases hrun
  obtain ⟨hfile, hpages, htx⟩ := h.update hf hupdate
  have hdirty₁ : v₁.DirtyOnly ino b := by
    unfold DirtyOnly
    rw [htx]
    exact hdirty
  obtain ⟨hfile', hpages', hdirty'⟩ := hfile.mark hdirty₁ hmark
  refine ⟨rfl, hfile', ?_, hdirty'⟩
  unfold PagesOnly at hpages hpages' ⊢
  rw [hpages', hpages]

/-- **The body of `truncate`.** -/
theorem truncateBody (hdirty : v.DirtyOnly ino b) (hxtree : Xtree.fromInodeData (root d) = .ok xtree)
    (hsited : Sited lo hi v xtree) {newSize : ℕ} {exit : Exit Unit Unit}
    (hbody : Volume.truncateBody ino newSize v = .ok exit w) :
    exit = .commit () ∧ FileAt lo hi w ino b j (truncated xtree newSize d) ∧ StaysPut v w ∧
      w.DirtyOnly ino b ∧ ∀ i,
        (Blanks (size d) newSize i → (cutXtree (size d) newSize xtree).byteAt w.storage i = 0) ∧
        (¬ Blanks (size d) newSize i →
          (cutXtree (size d) newSize xtree).byteAt w.storage i = xtree.byteAt v.storage i) := by
  obtain ⟨inode, v₁, hread, hrun⟩ := of_bind_ok hbody
  obtain ⟨rfl, rfl⟩ := h.of_readInode hread
  obtain ⟨xtree', v₂, hxtree', hrun⟩ := of_bind_ok hrun
  obtain ⟨hsame, rfl⟩ := of_returnExcept_ok hxtree'
  cases hsame.symm.trans hxtree
  -- the update comes behind a phase that writes no inode
  have hupdate : ∀ {u : Volume} {f : List UInt8 → List UInt8}, DataPhase (fun block => lo ≤ block ∧ block ≤ hi) v₂ u →
      IsEdit f → (do
        updateInodePage ino b (j * disize) f
        markPageDirty ino b
        return .commit () : VolM (Exit Unit Unit)) u = .ok exit w →
      exit = .commit () ∧ FileAt lo hi w ino b j (f d) ∧ StaysPut v₂ w ∧ w.DirtyOnly ino b ∧
        w.storage = u.storage := by
    intro u f hphase hf hrun
    have hdirty' : u.DirtyOnly ino b := by
      rw [hphase.rest]
      exact hdirty
    obtain ⟨hexit, hfile, hpages, hdirty''⟩ := (h.dataPhase hphase).updateAndMark hdirty' hf hrun
    exact ⟨hexit, hfile, trans_of StaysPut hphase.staysPut hpages.staysPut, hdirty'', by rw [hpages]⟩
  change (if blocksUpTo newSize < blocksUpTo (size d) then _ else _ : VolM (Exit Unit Unit)) v₂ = .ok exit w at hrun
  unfold truncated cutXtree Blanks
  split at hrun
  · next hshrink =>
      obtain ⟨_, v₃, hfree, hrun⟩ := of_bind_ok hrun
      have hphase : DataPhase (fun block => lo ≤ block ∧ block ≤ hi) v₂ v₃ :=
        Returns.of_run hfree (dataPhase_freeExtents _ _).returns
      cases hfree
      obtain ⟨hexit, hfile, hput, hdirty', hstorage⟩ := hupdate hphase (isEdit_resize _ newSize _) hrun
      simp only [if_pos hshrink]
      refine ⟨hexit, hfile, hput, hdirty', fun i => ?_⟩
      obtain ⟨hbelow, habove, -⟩ := xtree.truncateExtents_partition (blocksUpTo newSize)
      refine ⟨fun hblank => ?_, fun hkept => ?_⟩
      · have hcut : blocksUpTo newSize ≤ i / blockSize := by omega
        have hnone := habove _ (by exact_mod_cast hcut)
        refine Xtree.byteAt_of_none _ ?_
        unfold Xtree.physical
        rw [hnone, Option.map_none]
      · have hblock : i / blockSize < blocksUpTo newSize := by omega
        refine Xtree.byteAt_congr (hbelow _ (by exact_mod_cast hblock)) fun a ha => ?_
        rw [hstorage]
  · next hkeep =>
      simp only [if_neg hkeep]
      split at hrun
      · next hgrows =>
          obtain ⟨_, v₃, hclear, hrun⟩ := of_bind_ok hrun
          have hphase : DataPhase (fun block => lo ≤ block ∧ block ≤ hi) v₂ v₃ := by
            refine Returns.of_run hclear (dataPhase_zeroTail (Nat.mod_lt _ (by decide)).le ?_).returns
            exact fun _ _ => hsited.not_table
          obtain ⟨hexit, hfile, hput, hdirty', hstorage⟩ := hupdate hphase (isEdit_setSize newSize) hrun
          refine ⟨hexit, hfile, hput, hdirty', fun i => ?_⟩
          obtain ⟨hcleared, hkept⟩ := h.guarded.toCalm.byteAt_of_zeroTail hsited (size d) hclear i
          rw [hstorage]
          refine ⟨fun hblank => hcleared ?_, fun hblank => hkept fun hboth => hblank ?_⟩
          · exact (hblank.resolve_left fun hcut => hkeep hcut.1).2.2
          · exact Or.inr ⟨hgrows.1, hgrows.2, hboth⟩
      · next hplain =>
          obtain ⟨hexit, hfile, hput, hdirty', hstorage⟩ :=
            hupdate (refl_of (DataPhase _) v₂) (isEdit_setSize newSize) hrun
          refine ⟨hexit, hfile, hput, hdirty', fun i => ?_⟩
          rw [hstorage]
          refine ⟨fun hblank => ?_, fun _ => rfl⟩
          rcases hblank with hcut | hclear
          · exact absurd hcut.1 hkeep
          · exact absurd ⟨hclear.1, hclear.2.1⟩ hplain

/-- **A truncation** changes the inode, and takes away the bytes that it blanks. -/
theorem truncate (hxtree : Xtree.fromInodeData (root d) = .ok xtree) (hsited : Sited lo hi v xtree) {newSize : ℕ}
    (hrun : Volume.truncate ino newSize v = .ok () w) :
    FileAt lo hi w ino b j (truncated xtree newSize d) ∧ StaysPut v w ∧ ∀ i,
      (Blanks (size d) newSize i → (cutXtree (size d) newSize xtree).byteAt w.storage i = 0) ∧
      (¬ Blanks (size d) newSize i →
        (cutXtree (size d) newSize xtree).byteAt w.storage i = xtree.byteAt v.storage i) := by
  have hidle : v.begun.DirtyOnly ino b := by
    intro active hactive key hkey
    cases hactive
    cases hkey
  have hput : StaysPut v v.begun := PagesOnly.staysPut rfl
  obtain ⟨hfile, hstays, u, hbytes, hblocks⟩ := transaction hrun
    (Q := fun u => ∀ i,
      (Blanks (size d) newSize i → (cutXtree (size d) newSize xtree).byteAt u.storage i = 0) ∧
      (¬ Blanks (size d) newSize i →
        (cutXtree (size d) newSize xtree).byteAt u.storage i = xtree.byteAt v.storage i))
    fun exit u hbody => by
      obtain ⟨hexit, hrest⟩ := h.begun.truncateBody hidle hxtree (hsited.of_staysPut hput) hbody
      exact ⟨⟨(), hexit⟩, hrest⟩
  refine ⟨hfile, hstays, fun i => ?_⟩
  have hsame : (cutXtree (size d) newSize xtree).byteAt w.storage i =
      (cutXtree (size d) newSize xtree).byteAt u.storage i := by
    refine Xtree.byteAt_congr rfl fun a ha => ?_
    rw [hblocks a (hsited.apart _ a (physical_cutXtree ha))]
  rw [hsame]
  exact hbytes i

/-- **A byte of the file.** -/
theorem readsByte_iff (hxtree : Xtree.fromInodeData (root d) = .ok xtree) (hsited : Sited lo hi v xtree) {i : ℕ}
    (hi : i < size d) {x : UInt8} : v.ReadsByte ino i x ↔ xtree.byteAt v.storage i = x :=
  h.guarded.toCalm.readsByte_iff h.readInode hxtree hsited.inside hi

end FileAt

section OneFile

variable (xtree : Xtree) (size : ℕ) (content : ℕ → UInt8)

theorem fileAt_oneFile : FileAt 4 4 (oneFile xtree size content) 19 4 0 (fileInode xtree size) where
  guarded := guarded_oneFile ..
  low := (ait2_oneFile ..).ge
  high := le_rfl
  placed := placed_oneFile ..
  alone i _ := PageCache.peek_new ..
  inode := by
    unfold own
    rw [show (oneFile xtree size content).pageCache.peek (19, 4) = none from PageCache.peek_new ..]
    rw [Option.map_none, Option.getD_none, slotOf_oneFile]

theorem sited_oneFile (hunshared : xtree.Unshared) (hblocks : ∀ a ∈ xtree.blocks, 5 ≤ a ∧ a < 128) :
    Sited 4 4 (oneFile xtree size content) xtree.stored := by
  have hrange : ∀ block a, xtree.stored.physical block = some a → 5 ≤ a ∧ a < 128 := by
    intro block a ha
    rw [Xtree.physical_stored] at ha
    exact hblocks a (Xtree.mem_blocks_of_physical ha)
  refine ⟨fun block block' a ha ha' => ?_, fun block a ha => ?_, fun block a ha => ⟨?_, ?_, ?_⟩⟩
  · rw [Xtree.physical_stored] at ha ha'
    exact hunshared.injective ha ha'
  · obtain ⟨hlow, hhigh⟩ := hrange block a ha
    refine ⟨by omega, ?_⟩
    show a < 128
    exact hhigh
  · have hlow := (hrange block a ha).1
    omega
  · rintro i ⟨lm, hlm, -⟩
    cases hlm
  · intro m hm page hpage heq
    cases hm
    have hle : page ≤ 1 + 128 / blocksPerDmap := hpage
    have hlow := (hrange block a ha).1
    have haddr : 1 + page = a := heq
    unfold blocksPerDmap at hle
    omega

/-- A byte of the file is a byte of the given content. -/
theorem byteAt_oneFile (hblocks : ∀ a ∈ xtree.blocks, 5 ≤ a ∧ a < 128) (i : ℕ) :
    xtree.stored.byteAt (oneFile xtree size content).storage i =
      ((xtree.physical (i / blockSize)).map fun a => content (a * blockSize + i % blockSize)).getD 0 := by
  unfold Xtree.byteAt
  rw [Xtree.physical_stored]
  cases hphysical : xtree.physical (i / blockSize) with
  | none => rw [Option.map_none, Option.map_none]
  | some a =>
      have hmod : i % blockSize < blockSize := Nat.mod_lt _ (by decide)
      have hlow := (hblocks a (Xtree.mem_blocks_of_physical hphysical)).1
      have hlen := Mkfs.length_inodeBlock (show 0 < inosPerPage by decide) (length_fileInode xtree size)
      rw [Option.map_some, Option.map_some, Option.getD_some, Option.getD_some]
      refine (Memory.getD_read _ 0 hmod).trans (Memory.write_outside ?_)
      rw [hlen]
      unfold blockSize
      omega

end OneFile

end Volume

end JfsFuse
