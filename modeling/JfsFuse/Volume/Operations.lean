import JfsFuse.Volume.File
import JfsFuse.Volume.Xattr

/-!
# The operations of a volume

The operations that change a volume, as values, so that a run is a list of them.
-/

namespace JfsFuse

open Program

/-- A call of an operation that changes the volume. -/
inductive Operation
  | writeAt (ino : UInt32) (offset : ℕ) (data : List UInt8)
  | writeAtWithInterrupt (ino : UInt32) (offset : ℕ) (data : List UInt8) (token : List Bool)
  | truncate (ino : UInt32) (newSize : ℕ)
  | fallocate (ino : UInt32) (offset len mode : ℕ)
  | copyFileRangeExtent (srcIno : UInt32) (srcOffset : ℕ) (dstIno : UInt32) (dstOffset len : ℕ)
  | setattr (ino : UInt32) (change : Volume.AttrChange)
  | fsync (ino : UInt32)
  | createFile (parentIno : UInt32) (name : String)
  | mkdir (parentIno : UInt32) (name : String)
  | mknod (parentIno : UInt32) (name : String) (mode rdev : ℕ)
  | rename (oldParent : UInt32) (oldName : String) (newParent : UInt32) (newName : String)
  | rmdir (parentIno : UInt32) (name : String)
  | unlinkFile (parentIno : UInt32) (name : String)
  | linkFile (parentIno : UInt32) (name : String) (targetIno : UInt32)
  | symlink (parentIno : UInt32) (name target : String)
  | setxattr (ino : UInt32) (name : String) (value : List UInt8) (flags : ℕ)
  | removexattr (ino : UInt32) (name : String)
  | openFile (ino : UInt32)
  | releaseFile (ino : UInt32)
  deriving DecidableEq, Repr

namespace Operation

/-- Run a program for its effect. -/
def forget {α : Type} (x : VolM α) : VolM Unit := do
  let _ ← x

theorem final_forget {α : Type} (x : VolM α) (v : Volume) : final (forget x v) = final (x v) := by
  unfold forget
  cases hrun : x v with
  | ok a w => rw [bind_ok hrun]; rfl
  | error e w => rw [bind_error hrun]; rfl

/-- The call; its result is left out. -/
def run : Operation → VolM Unit
  | writeAt ino offset data => forget (Volume.writeAt ino offset data)
  | writeAtWithInterrupt ino offset data token =>
      forget (Volume.writeAtWithInterrupt ino offset data token)
  | truncate ino newSize => Volume.truncate ino newSize
  | fallocate ino offset len mode => Volume.fallocate ino offset len mode
  | copyFileRangeExtent srcIno srcOffset dstIno dstOffset len =>
      forget (Volume.copyFileRangeExtent srcIno srcOffset dstIno dstOffset len)
  | setattr ino change => Volume.setattr ino change
  | fsync ino => Volume.fsync ino
  | createFile parentIno name => forget (Volume.createFile parentIno name)
  | mkdir parentIno name => forget (Volume.mkdir parentIno name)
  | mknod parentIno name mode rdev => forget (Volume.mknod parentIno name mode rdev)
  | rename oldParent oldName newParent newName =>
      forget (Volume.rename oldParent oldName newParent newName)
  | rmdir parentIno name => forget (Volume.rmdir parentIno name)
  | unlinkFile parentIno name => forget (Volume.unlinkFile parentIno name)
  | linkFile parentIno name targetIno => forget (Volume.linkFile parentIno name targetIno)
  | symlink parentIno name target => forget (Volume.symlink parentIno name target)
  | setxattr ino name value flags => Volume.setxattr ino name value flags
  | removexattr ino name => forget (Volume.removexattr ino name)
  | openFile ino => Volume.openFile ino
  | releaseFile ino => Volume.releaseFile ino

/-- The volume after a call, whether it returned or failed. -/
def after (op : Operation) (v : Volume) : Volume :=
  final (op.run v)

/-- The volume after a run of calls. -/
def afterAll (ops : List Operation) (v : Volume) : Volume :=
  ops.foldl (fun v op => op.after v) v

end Operation

end JfsFuse
