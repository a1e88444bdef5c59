import JfsFuse.Btree.XtreeTotal
import JfsFuse.Volume.FileSteps

/-!
# The number of blocks of an inode

`di_nblocks` is written together with the extent root.  Writing and allocating write the sum of
the lengths of the extents; `truncate` and `copy_file_range_extent` take it from
`compute_nblocks`, which gives back the old count where no extent is left.
-/

namespace JfsFuse

open ByteBuf Program

namespace Dinode

/-- The number of blocks is the sum of the lengths of the extents. -/
def CountsBlocks (dinode : List UInt8) : Prop :=
  ∃ xtree, Xtree.fromInodeData (root dinode) = .ok xtree ∧ nblocks dinode = xtree.totalBlocks

theorem countsBlocks_setSize {dinode : List UInt8} (h : dinode.length = disize) (n : ℕ)
    (hcounts : CountsBlocks dinode) : CountsBlocks (setSize n dinode) := by
  unfold CountsBlocks
  rw [root_setSize h, nblocks_setSize h]
  exact hcounts

/-- A root is written, and then a number of blocks. -/
theorem countsBlocks_setNblocks_iff {dinode : List UInt8} (h : dinode.length = disize) {xtree : Xtree}
    (hroot : root dinode = xtree.toBytes) (n : ℕ) :
    CountsBlocks (setNblocks n dinode) ↔ n % 2 ^ 64 = xtree.totalBlocks := by
  unfold CountsBlocks
  rw [root_setNblocks h, nblocks_setNblocks h, hroot, Xtree.fromInodeData_toBytes]
  have htotal : xtree.stored.totalBlocks = xtree.totalBlocks :=
    Xtree.totalBlocks_of_slots xtree.slots_stored
  constructor
  · rintro ⟨_, hread, hcount⟩
    cases hread
    rw [hcount, htotal]
  · intro hcount
    exact ⟨_, rfl, hcount.trans htotal.symm⟩

theorem nblocks_lt (dinode : List UInt8) : nblocks dinode < 2 ^ 64 :=
  readLE_lt dinode 32 8

end Dinode

namespace Volume

open Dinode

theorem isEdit_setXtree (xtree : Xtree) (n : ℕ) : IsEdit (setXtree xtree n) :=
  (isEdit_setNblocks n).comp (isEdit_setRoot xtree)

theorem countsBlocks_setXtree_iff {dinode : List UInt8} (h : dinode.length = disize) (xtree : Xtree)
    (n : ℕ) : CountsBlocks (setXtree xtree n dinode) ↔ n % 2 ^ 64 = xtree.totalBlocks :=
  countsBlocks_setNblocks_iff (length_setRoot h xtree) (root_setRoot h xtree) n

/-- A root that is stored with its number of blocks. -/
theorem countsBlocks_setXtree (xtree : Xtree) {dinode : List UInt8} (hlen : dinode.length = disize) :
    CountsBlocks (setXtree xtree xtree.totalBlocks dinode) :=
  (countsBlocks_setXtree_iff hlen _ _).mpr (Nat.mod_eq_of_lt xtree.totalBlocks_lt)

/-- The change of `truncate` when it shrinks a file, and of `copy_file_range_extent` for the
destination. -/
def resize (xtree : Xtree) (size n : ℕ) (dinode : List UInt8) : List UInt8 :=
  setNblocks n (setSize size (setRoot xtree.toBytes dinode))

theorem isEdit_resize (xtree : Xtree) (size n : ℕ) : IsEdit (resize xtree size n) :=
  (isEdit_setNblocks n).comp ((isEdit_setSize size).comp (isEdit_setRoot xtree))

theorem countsBlocks_resize_iff {dinode : List UInt8} (h : dinode.length = disize) (xtree : Xtree)
    (size n : ℕ) : CountsBlocks (resize xtree size n dinode) ↔ n % 2 ^ 64 = xtree.totalBlocks := by
  have hlen := length_setRoot h xtree
  refine countsBlocks_setNblocks_iff (length_setSize hlen size) ?_ n
  rw [root_setSize hlen, root_setRoot h]

/-- The number that is written for a file is right unless it has no extent any more. -/
theorem computeNblocks_eq_iff (xtree : Xtree) {fallback : ℕ} (hfallback : fallback < 2 ^ 64) :
    computeNblocks xtree fallback % 2 ^ 64 = xtree.totalBlocks ↔
      (xtree.totalBlocks = 0 → fallback = 0) := by
  have hlt := xtree.totalBlocks_lt
  unfold computeNblocks
  split
  · next hpos =>
      rw [Nat.mod_eq_of_lt hlt]
      exact iff_of_true rfl fun hzero => by omega
  · next hzero =>
      rw [Nat.mod_eq_of_lt hfallback]
      omega

/-! ## The calls -/

/-- A call on the content of files. -/
inductive FileCall
  | writeAt (ino : UInt32) (offset : ℕ) (data : List UInt8) (token : List Bool)
  | truncate (ino : UInt32) (newSize : ℕ)
  | fallocate (ino : UInt32) (offset len mode : ℕ)
  | copyFileRangeExtent (srcIno : UInt32) (srcOffset : ℕ) (dstIno : UInt32) (dstOffset len : ℕ)

namespace FileCall

def run : FileCall → VolM Unit
  | writeAt ino offset data token => do
      let _ ← writeAtWithInterrupt ino offset data token
  | truncate ino newSize => Volume.truncate ino newSize
  | fallocate ino offset len mode => Volume.fallocate ino offset len mode
  | copyFileRangeExtent srcIno srcOffset dstIno dstOffset len => do
      let _ ← Volume.copyFileRangeExtent srcIno srcOffset dstIno dstOffset len

/-- The files that a call is about. -/
def files : FileCall → List UInt32
  | writeAt ino _ _ _ => [ino]
  | truncate ino _ => [ino]
  | fallocate ino _ _ _ => [ino]
  | copyFileRangeExtent srcIno _ dstIno _ _ => [srcIno, dstIno]

end FileCall

/-- The file has extents, and all of them satisfy `cut`. -/
def LosesAll (v : Volume) (ino : UInt32) (cut : Inode → Xad → Prop) : Prop :=
  ∃ inode xtree, readInode ino v = .ok inode v ∧ inode.xtree = .ok xtree ∧ xtree.totalBlocks ≠ 0 ∧
    ∀ xad ∈ xtree.slots, xad.length ≠ 0 → cut inode xad

/-- **The call takes away the last extent of a file**: `truncate` to fewer blocks, or
`copy_file_range_extent` from one file to another. -/
def FileCall.TakesLast (v : Volume) : FileCall → Prop
  | writeAt _ _ _ _ => False
  | truncate ino newSize => LosesAll v ino fun inode xad =>
      blocksUpTo newSize < blocksUpTo inode.size ∧ blocksUpTo newSize ≤ xad.offset
  | fallocate _ _ _ _ => False
  | copyFileRangeExtent srcIno srcOffset dstIno dstOffset len =>
      srcOffset % blockSize = 0 ∧ dstOffset % blockSize = 0 ∧ len % blockSize = 0 ∧ srcIno ≠ dstIno ∧
        LosesAll v srcIno fun _ xad => srcOffset / blockSize ≤ xad.offset ∧
          xad.stop ≤ srcOffset / blockSize + len / blockSize

/-! ## Calls that keep the count -/

/-- The inode of a file with a place in the table. -/
theorem Calm.readInode_of_placed {v : Volume} (h : v.Calm) {ino : UInt32} {b j : ℕ}
    (hplaced : v.Placed ino b j) {inode : Inode} {w : Volume} (hread : readInode ino v = .ok inode w) :
    w = v ∧ inode = v.inodeAt ino b j := by
  cases hread.symm.trans (h.readInode_of_foundAt hplaced.foundAt)
  exact ⟨rfl, rfl⟩

section Bodies

variable {lo hi : ℕ} {v : Volume} (hv : v.Guarded lo hi) {ino : UInt32} {b j : ℕ}
  (hplaced : v.Placed ino b j) (hb : b ≤ hi)

include hv hplaced hb

/-- **The body of `truncate`** carries over what a change of the size and the cut of the root leave. -/
theorem Guarded.carries_truncateBody {P : List UInt8 → Prop} {newSize : ℕ}
    (hsize : ∀ n dinode, dinode.length = disize → P dinode → P (Dinode.setSize n dinode))
    (hcut : ∀ xtree, (v.inodeAt ino b j).xtree = .ok xtree →
      blocksUpTo newSize < blocksUpTo (v.inodeAt ino b j).size → ∀ dinode, dinode.length = disize → P dinode →
        P (resize (xtree.truncateExtents (blocksUpTo newSize)).2 newSize
          (computeNblocks (xtree.truncateExtents (blocksUpTo newSize)).2 (v.inodeAt ino b j).nblocks) dinode))
    (hextents : ∀ xtree, (v.inodeAt ino b j).xtree = .ok xtree →
      ∀ a ∈ xtree.blocks, ¬ (lo ≤ a ∧ a ≤ hi))
    {exit : Exit Unit Unit} {w : Volume} (hrun : truncateBody ino newSize v = .ok exit w) : Safe P lo hi v w := by
  obtain ⟨inode, v₁, hread, hrun⟩ := of_bind_ok hrun
  obtain ⟨rfl, rfl⟩ := hv.toCalm.readInode_of_placed hplaced hread
  obtain ⟨xtree, v₂, hxtree, hrun⟩ := of_bind_ok hrun
  obtain ⟨hxtree, rfl⟩ := of_returnExcept_ok hxtree
  have hslot := hplaced.slot
  have hupdate : ∀ {f : List UInt8 → List UInt8}, IsEdit f →
      (∀ dinode, dinode.length = disize → P dinode → P (f dinode)) →
      Returns (Safe P lo hi) (do
        updateInode ino (v₂.inodeAt ino b j) f
        markPageDirty ino b
        return (.commit () : Exit Unit Unit)) := by
    intro f hf hP
    exact Returns.bind (returns_updateInodePage hf hP hb hslot ino) fun _ =>
      Returns.bind (returns_markPageDirty ino b) fun _ => Returns.pure _
  simp only at hrun
  split at hrun
  · next hshrink =>
      refine Returns.of_run hrun (Returns.bind (returns_of_dataPhase (dataPhase_freeExtents _ _)) fun _ => ?_)
      exact hupdate (isEdit_resize _ newSize _) (hcut xtree hxtree hshrink)
  · have hresized := hupdate (isEdit_setSize newSize) (hsize newSize)
    split at hrun
    · refine Returns.of_run hrun (Returns.bind (returns_of_dataPhase ?_) fun _ => hresized)
      refine dataPhase_zeroTail (Nat.mod_lt _ (by decide)).le fun addr count hmem haddr a hlow hhigh => ?_
      exact hextents xtree hxtree a (Xtree.mem_blocks_of_mapBlocks hmem haddr a hlow hhigh)
    · exact Returns.of_run hrun hresized

/-- **The body of `write_at_with_interrupt`** carries over what a change of the size and a new root
leave. -/
theorem Guarded.carries_writeAtBody {P : List UInt8 → Prop} {offset : ℕ} {data : List UInt8} {token : List Bool}
    (hsize : ∀ n dinode, dinode.length = disize → P dinode → P (Dinode.setSize n dinode))
    (hroot : ∀ (xtree : Xtree) dinode, dinode.length = disize → P dinode → P (setXtree xtree xtree.totalBlocks dinode))
    (hspared : Spared (fun a => lo ≤ a ∧ a ≤ hi) v)
    (hextents : ∀ xtree, (v.inodeAt ino b j).xtree = .ok xtree →
      ∀ a ∈ xtree.blocks, ¬ (lo ≤ a ∧ a ≤ hi))
    {exit : Exit ℕ ℕ} {w : Volume} (hrun : writeAtBody ino offset data token v = .ok exit w) : Safe P lo hi v w := by
  obtain ⟨inode, v₁, hread, hrun⟩ := of_bind_ok hrun
  obtain ⟨rfl, rfl⟩ := hv.toCalm.readInode_of_placed hplaced hread
  obtain ⟨xtree, v₂, hxtree, hrun⟩ := of_bind_ok hrun
  obtain ⟨hxtree, rfl⟩ := of_returnExcept_ok hxtree
  have hslot := hplaced.slot
  obtain ⟨s, v₃, hparts, hrun⟩ := of_bind_ok hrun
  have hwrites : Writes (fun a => lo ≤ a ∧ a ≤ hi) v₂ v₃ := by
    refine Returns.of_run hparts (writes_writeParts data (fun addr count hmem haddr a hlow hhigh => ?_)
      (Nat.mod_lt _ (by decide)).le).returns
    exact hextents xtree hxtree a (Xtree.mem_blocks_of_mapBlocks hmem haddr a hlow hhigh)
  refine trans_of (Safe P lo hi) (hwrites hspared).2.safe (Returns.of_run hrun ?_)
  refine Returns.bind (within_checkToken _).returns fun _ => ?_
  refine Returns.bind (returns_of_dataPhase (dataPhase_onStorage (storageKeeps_flush _ _))) fun _ => ?_
  have hmark : Returns (Safe P lo hi) (do
      markPageDirty ino b
      return (.commit s.written : Exit ℕ ℕ)) :=
    Returns.bind (returns_markPageDirty ino b) fun _ => Returns.pure _
  have hstored : Returns (Safe P lo hi) (do
      if s.modified then updateInode ino (v₂.inodeAt ino b j) (setXtree s.xtree s.xtree.totalBlocks)
      markPageDirty ino b
      return (.commit s.written : Exit ℕ ℕ)) := by
    refine Returns.ite (Returns.bind ?_ fun _ => hmark) hmark
    exact returns_updateInodePage (isEdit_setXtree _ _) (hroot s.xtree) hb hslot ino
  refine Returns.ite (Returns.bind ?_ fun _ => hstored) hstored
  exact returns_updateInodePage (isEdit_setSize _) (hsize _) hb hslot ino

/-- **The body of `fallocate`** carries over what a change of the size and a new root leave. -/
theorem Guarded.carries_fallocateBody {P : List UInt8 → Prop} {offset len mode : ℕ}
    (hsize : ∀ n dinode, dinode.length = disize → P dinode → P (Dinode.setSize n dinode))
    (hroot : ∀ (xtree : Xtree) dinode, dinode.length = disize → P dinode → P (setXtree xtree xtree.totalBlocks dinode))
    (hspared : Spared (fun a => lo ≤ a ∧ a ≤ hi) v)
    {exit : Exit Unit Unit} {w : Volume} (hrun : fallocateBody ino offset len mode v = .ok exit w) :
    Safe P lo hi v w := by
  obtain ⟨inode, v₁, hread, hrun⟩ := of_bind_ok hrun
  obtain ⟨rfl, rfl⟩ := hv.toCalm.readInode_of_placed hplaced hread
  obtain ⟨xtree, v₂, hxtree, hrun⟩ := of_bind_ok hrun
  obtain ⟨hxtree, rfl⟩ := of_returnExcept_ok hxtree
  have hslot := hplaced.slot
  obtain ⟨⟨xtree', modified⟩, v₃, hchange, hrun⟩ := of_bind_ok hrun
  have hphase : DataPhase (fun a => lo ≤ a ∧ a ≤ hi) v₂ v₃ := by
    unfold changeBlocks at hchange
    split at hchange
    · cases hchange
      exact refl_of (DataPhase _) _
    · split at hchange
      · exact Returns.of_run hchange
          (Returns.bind (dataPhase_freeExtents _ _).returns fun _ => Returns.pure _)
      · exact (Returns.of_run hchange (writes_allocateBlocks _ _ _).returns hspared).2
  refine trans_of (Safe P lo hi) hphase.safe (Returns.of_run hrun ?_)
  have hmark : Returns (Safe P lo hi) (do
      markPageDirty ino b
      onStorage StorageM.flushData
      return (.commit () : Exit Unit Unit)) := by
    refine Returns.bind (returns_markPageDirty ino b) fun _ => ?_
    refine Returns.bind (returns_of_dataPhase (dataPhase_onStorage (storageKeeps_flush _ _))) fun _ => ?_
    exact Returns.pure _
  have hstored : Returns (Safe P lo hi) (do
      if modified then updateInode ino (v₂.inodeAt ino b j) (setXtree xtree' xtree'.totalBlocks)
      markPageDirty ino b
      onStorage StorageM.flushData
      return (.commit () : Exit Unit Unit)) := by
    refine Returns.ite (Returns.bind ?_ fun _ => hmark) hmark
    exact returns_updateInodePage (isEdit_setXtree _ _) (hroot xtree') hb hslot ino
  refine Returns.ite (Returns.bind ?_ fun _ => hstored) hstored
  exact returns_updateInodePage (isEdit_setSize _) (hsize _) hb hslot ino

/-- `truncate` keeps the count. -/
theorem Guarded.safe_truncateBody {newSize : ℕ} (hcounts : v.Everywhere b j CountsBlocks)
    (hextents : ∀ xtree, (v.inodeAt ino b j).xtree = .ok xtree →
      ∀ a ∈ xtree.blocks, ¬ (lo ≤ a ∧ a ≤ hi))
    (hkeeps : ∀ xtree, (v.inodeAt ino b j).xtree = .ok xtree →
      blocksUpTo newSize < blocksUpTo (v.inodeAt ino b j).size → xtree.totalBlocks ≠ 0 →
      ∃ xad ∈ xtree.slots, xad.length ≠ 0 ∧ xad.offset < blocksUpTo newSize)
    {exit : Exit Unit Unit} {w : Volume} (hrun : truncateBody ino newSize v = .ok exit w) :
    Safe CountsBlocks lo hi v w := by
  refine hv.carries_truncateBody hplaced hb (fun n dinode hlen => countsBlocks_setSize hlen n)
    (fun xtree hxtree hshrink dinode hlen _ => ?_) hextents hrun
  have hnblocks : (v.inodeAt ino b j).nblocks = xtree.totalBlocks := by
    obtain ⟨xtree', hxtree', hcount⟩ := hcounts _ (v.shows_own ino b)
    cases hxtree.symm.trans hxtree'
    exact hcount
  refine (countsBlocks_resize_iff hlen _ newSize _).mpr ?_
  refine (computeNblocks_eq_iff _ (nblocks_lt (slotOf (v.own ino b) j))).mpr fun hzero => ?_
  have hcut := (xtree.totalBlocks_truncateExtents _).mp hzero
  by_contra hne
  have htotal : xtree.totalBlocks ≠ 0 := fun h => hne (hnblocks.trans h)
  obtain ⟨xad, hxad, hlen, hbelow⟩ := hkeeps xtree hxtree hshrink htotal
  have := hcut xad hxad hlen
  omega

/-- `write_at_with_interrupt` keeps the count. -/
theorem Guarded.safe_writeAtBody {offset : ℕ} {data : List UInt8} {token : List Bool}
    (hspared : Spared (fun a => lo ≤ a ∧ a ≤ hi) v)
    (hextents : ∀ xtree, (v.inodeAt ino b j).xtree = .ok xtree →
      ∀ a ∈ xtree.blocks, ¬ (lo ≤ a ∧ a ≤ hi))
    {exit : Exit ℕ ℕ} {w : Volume} (hrun : writeAtBody ino offset data token v = .ok exit w) :
    Safe CountsBlocks lo hi v w :=
  hv.carries_writeAtBody hplaced hb (fun n dinode hlen => countsBlocks_setSize hlen n)
    (fun xtree dinode hlen _ => countsBlocks_setXtree xtree hlen) hspared hextents hrun

/-- `fallocate` keeps the count. -/
theorem Guarded.safe_fallocateBody {offset len mode : ℕ}
    (hspared : Spared (fun a => lo ≤ a ∧ a ≤ hi) v)
    {exit : Exit Unit Unit} {w : Volume} (hrun : fallocateBody ino offset len mode v = .ok exit w) :
    Safe CountsBlocks lo hi v w :=
  hv.carries_fallocateBody hplaced hb (fun n dinode hlen => countsBlocks_setSize hlen n)
    (fun xtree dinode hlen _ => countsBlocks_setXtree xtree hlen) hspared hrun

end Bodies

end Volume

end JfsFuse
