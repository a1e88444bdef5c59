import JfsFuse.Fuse.Interruptible
import JfsFuse.Fuse.ShrinkGrow

/-!
# Where a block of a file lies

BMAP answers with the device block of a block of a file, 0 for a hole.  Who reads the device there
finds the bytes that a read of the file finds.
-/

namespace JfsFuse

open ByteBuf Program

namespace FuseFs

/-- `bmap`: the device block, and the length of the extent that it is in. -/
def bmap (ino : UInt32) (fileBlock : ℕ) : FuseM (ℕ × ℕ) := do
  let inode ← onVolume Errno.enoent (Volume.readInode ino)
  let xtree ← onVolume Errno.eio (returnExcept inode.xtree)
  match xtree.lookup fileBlock with
  | some xad => return (xad.address + (fileBlock - xad.offset), xad.length)
  | none => return (0, 0)

variable {fs : FuseFs} {ino : UInt32} {inode : Inode} {xtree : Xtree}

theorem onVolume_returnExcept {α : Type} {result : Except StorageError α} {a : α} (h : result = .ok a) (errno : ℤ)
    (fs : FuseFs) : onVolume errno (returnExcept result) fs = .ok a fs := by
  rw [h]
  exact onVolume_ok (returnExcept_ok a fs.volume) errno

/-- **BMAP is the block map.** -/
theorem bmap_eq (hread : Volume.readInode ino fs.volume = .ok inode fs.volume) (hxtree : inode.xtree = .ok xtree)
    (fileBlock : ℕ) : ∃ n, bmap ino fileBlock fs = .ok ((xtree.physical fileBlock).getD 0, n) fs := by
  have hinode : onVolume Errno.enoent (Volume.readInode ino) fs = .ok inode fs := onVolume_ok hread _
  have hroot := onVolume_returnExcept hxtree Errno.eio fs
  unfold bmap Xtree.physical
  rw [bind_ok hinode, bind_ok hroot]
  cases xtree.lookup fileBlock with
  | none =>
      rw [Option.map_none, Option.getD_none]
      exact ⟨0, rfl⟩
  | some xad =>
      rw [Option.map_some, Option.getD_some]
      exact ⟨xad.length, rfl⟩

/-- **Reading behind the file system.**  A byte of a file is the byte of the block that BMAP names, and zero
where it names none. -/
theorem readsByte_iff_bmap (hcalm : fs.volume.Calm) (hread : Volume.readInode ino fs.volume = .ok inode fs.volume)
    (hxtree : inode.xtree = .ok xtree) (hin : fs.volume.InVolume xtree) {i : ℕ} (hi : i < inode.size) :
    ∃ block n, bmap ino (i / blockSize) fs = .ok (block, n) fs ∧ (block ≠ 0 → block < fs.volume.aggSize) ∧
      ∀ x, fs.volume.ReadsByte ino i x ↔
        (if block = 0 then 0 else (fs.volume.storage.block block).getD (i % blockSize) 0) = x := by
  obtain ⟨n, hrun⟩ := bmap_eq hread hxtree (i / blockSize)
  refine ⟨_, n, hrun, fun hmapped => ?_, fun x => (hcalm.readsByte_iff hread hxtree hin hi).trans ?_⟩
  · cases hphysical : xtree.physical (i / blockSize) with
    | none =>
        rw [hphysical, Option.getD_none] at hmapped
        exact (hmapped rfl).elim
    | some a => exact (hin _ a hphysical).2
  · unfold Xtree.byteAt
    cases hphysical : xtree.physical (i / blockSize) with
    | none => rw [Option.map_none, Option.getD_none, Option.getD_none, if_pos rfl]
    | some a => rw [Option.map_some, Option.getD_some, Option.getD_some, if_neg (hin _ a hphysical).1]

open Volume

/-- The blocks of a file of three blocks. -/
theorem readsByte_iff_bmap_threeBlocks :
    ∃ block n, bmap 19 1 { volume := oneFile Xtree.threeBlocks 12288 fun _ => 7 } =
        .ok (block, n) { volume := oneFile Xtree.threeBlocks 12288 fun _ => 7 } ∧
      ((oneFile Xtree.threeBlocks 12288 fun _ => 7).ReadsByte 19 5000 7 ↔
        (if block = 0 then 0 else
          ((oneFile Xtree.threeBlocks 12288 fun _ => 7).storage.block block).getD 904 0) = 7) := by
  have hfile := fileAt_oneFile Xtree.threeBlocks 12288 fun _ => 7
  have hsize : 5000 < Inode.size { dinode := fileInode Xtree.threeBlocks 12288, ino := 19, pageBlock := 4, pageOffset := 0 } := by
    change 5000 < Dinode.size (fileInode Xtree.threeBlocks 12288)
    rw [size_threeBlocks]
    decide
  obtain ⟨block, n, hrun, -, hiff⟩ := @readsByte_iff_bmap { volume := oneFile Xtree.threeBlocks 12288 fun _ => 7 } 19 _ _
    hfile.guarded.toCalm hfile.readInode xtree_threeBlocks (sited_threeBlocks _).inside 5000 hsize
  exact ⟨block, n, hrun, hiff 7⟩

end FuseFs

end JfsFuse
