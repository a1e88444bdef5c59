import JfsFuse.Volume.Inode

/-!
# The FUSE server

The part of `FuseFs` that the modelled requests use.  A request holds the lock around `FuseFs`
while it runs, so requests that run at the same time take effect one after the other.
-/

namespace JfsFuse

open Program

namespace Errno

def enoent : ℤ := 2
def eintr : ℤ := 4
def eagain : ℤ := 11
def enotdir : ℤ := 20
def einval : ℤ := 22
def erofs : ℤ := 30

/-- No `errno`: the thread of the request has panicked. -/
def panicked : ℤ := -1

end Errno

/-- A byte-range lock (`fcntl`). -/
structure PosixLock where
  lType : ℤ
  start : ℕ
  stop : ℕ
  owner : UInt64
  deriving DecidableEq, Repr

/-- A whole-file lock (`flock`). -/
structure FlockLock where
  kind : UInt32
  owner : UInt64
  deriving DecidableEq, Repr

/-- An inode without an entry in a table has no locks. -/
structure FuseFs where
  volume : Volume
  writable : Bool := false
  locks : UInt32 → List PosixLock := fun _ => []
  flockLocks : UInt32 → List FlockLock := fun _ => []

/-- A request: it ends with a value or an `errno`. -/
abbrev FuseM := EStateM ℤ FuseFs

namespace FuseFs

/-- Read something of the volume; its errors are replaced by `errno`. -/
def onVolume {α : Type} (errno : ℤ) (x : VolM α) : FuseM α := fun fs =>
  match x fs.volume with
  | .ok a volume => .ok a { fs with volume }
  | .error _ volume => .error errno { fs with volume }

end FuseFs

end JfsFuse
