import JfsFuse.Btree.XtreeRead
import JfsFuse.Fuse.Core
import JfsFuse.Volume.Table

/-!
# Reading a file

`FuseFs::read` cuts the range off at the size of the file and reads it through the block map.
A byte read on its own is the byte of the block map (`readsByte_iff`), so this is how the
content of a file is observed.
-/

namespace JfsFuse

open ByteBuf Program

namespace FuseFs

/-- The part of `FuseFs::read` that can fail. -/
def readFile (ino : UInt32) (offset length : ℕ) : VolM (List UInt8) := do
  let inode ← Volume.readInode ino
  if inode.size ≤ offset then return []
  else
    let xtree ← returnExcept inode.xtree
    Volume.onStorage (xtree.readData offset (min length (inode.size - offset)))

/-- `FuseFs::read`; a failure is answered with no data. -/
def read (ino : UInt32) (offset length : ℕ) : FuseM (Option (List UInt8)) := fun fs =>
  match readFile ino offset length fs.volume with
  | .ok bytes volume => .ok (some bytes) { fs with volume }
  | .error _ volume => .ok none { fs with volume }

end FuseFs

/-! ## One byte -/

namespace Xtree

/-- The byte at position `i` of a file, as its blocks hold it. -/
def byteAt (xt : Xtree) (s : Storage) (i : ℕ) : UInt8 :=
  ((xt.physical (i / blockSize)).map fun a => (s.block a).getD (i % blockSize) 0).getD 0

theorem readRun_one {a : ℕ} {s : Storage} (hread : StorageM.readBlock a s = .ok (s.block a) s) {j : ℕ}
    (hj : j < blockSize) : readRun a 1 { remaining := 1, bufOffset := j } s =
      .ok { result := [(s.block a).getD j 0], remaining := 0, bufOffset := 0 } s := by
  have hone : min (blockSize - j) 1 = 1 := by omega
  have hin : j < (s.block a).length := by rwa [s.length_block]
  have hbytes : sliceOrPanic (s.block a) j 1 = .ok [(s.block a).getD j 0] := by
    rw [sliceOrPanic_of_le (Nat.succ_le_of_lt hin)]
    unfold slice
    rw [List.getD_eq_getElem _ _ hin, List.drop_eq_getElem_cons hin, List.take_succ_cons, List.take_zero]
  unfold readRun
  rw [if_neg one_ne_zero, bind_ok hread]
  simp only [hone, hbytes]
  rfl

/-- One byte is read from the block that it lies in. -/
theorem readData_one {xt : Xtree} {s : Storage} {i : ℕ}
    (hread : ∀ a, xt.physical (i / blockSize) = some a →
      a ≠ 0 ∧ StorageM.readBlock a s = .ok (s.block a) s) : xt.readData i 1 s = .ok [xt.byteAt s i] s := by
  have hmod : i % blockSize < blockSize := Nat.mod_lt _ (by decide)
  have hcount : (1 + i % blockSize + blockSize - 1) / blockSize = 1 := by
    rw [show 1 + i % blockSize + blockSize - 1 = i % blockSize + blockSize by omega,
      Nat.add_div_right _ (by decide), Nat.div_eq_of_lt hmod]
  unfold readData byteAt
  simp only [hcount, mapBlocks_one]
  cases hphysical : xt.physical (i / blockSize) with
  | none =>
      have hhole : (1 : ℕ) ≤ 1 * blockSize := by decide
      rw [Option.getD_none, Option.map_none, Option.getD_none, bind_ok (readParts_hole hhole s)]
      rfl
  | some a =>
      obtain ⟨haddr, hblock⟩ := hread a hphysical
      rw [Option.getD_some, Option.map_some, Option.getD_some]
      unfold readParts
      rw [if_neg haddr]
      have hparts := (bind_ok (f := readParts []) (readRun_one hblock hmod)).trans rfl
      rw [bind_ok hparts]
      rfl

end Xtree

namespace Volume

/-- Byte `i` of the file is read as `x`. -/
def ReadsByte (v : Volume) (ino : UInt32) (i : ℕ) (x : UInt8) : Prop :=
  ∀ fs : FuseFs, fs.volume = v → FuseFs.read ino i 1 fs = .ok (some [x]) fs

/-- The blocks of the file lie in the volume, and none of them is block 0. -/
def InVolume (v : Volume) (xtree : Xtree) : Prop :=
  ∀ block a, xtree.physical block = some a → a ≠ 0 ∧ a < v.aggSize

/-- **A byte of a file.** -/
theorem Calm.readsByte_iff {v : Volume} (h : v.Calm) {ino : UInt32} {inode : Inode}
    (hread : readInode ino v = .ok inode v) {xtree : Xtree} (hxtree : inode.xtree = .ok xtree)
    (hin : v.InVolume xtree) {i : ℕ} (hi : i < inode.size) {x : UInt8} :
    v.ReadsByte ino i x ↔ xtree.byteAt v.storage i = x := by
  have hbyte : xtree.readData i 1 v.storage = .ok [xtree.byteAt v.storage i] v.storage :=
    Xtree.readData_one fun a ha => ⟨(hin _ a ha).1, h.readBlock (hin _ a ha).2⟩
  have hrun : FuseFs.readFile ino i 1 v = .ok [xtree.byteAt v.storage i] v := by
    unfold FuseFs.readFile
    rw [bind_ok hread, if_neg (Nat.not_le.mpr hi), hxtree, bind_ok (returnExcept_ok xtree v)]
    rw [show min 1 (inode.size - i) = 1 by omega]
    exact zoom_ok hbyte
  have hfs : ∀ fs : FuseFs, fs.volume = v →
      FuseFs.read ino i 1 fs = .ok (some [xtree.byteAt v.storage i]) fs := by
    rintro fs rfl
    unfold FuseFs.read
    rw [hrun]
  constructor
  · intro hreads
    have hsame := (hfs { volume := v } rfl).symm.trans (hreads { volume := v } rfl)
    injection hsame with hvalue
    simpa using hvalue
  · rintro rfl
    exact hfs

end Volume

end JfsFuse
