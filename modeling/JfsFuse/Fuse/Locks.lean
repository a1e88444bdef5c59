import JfsFuse.Fuse.Core

/-!
# The lock tables

`FuseFs` keeps two tables of advisory locks: byte ranges (`fcntl`) and whole files (`flock`),
each a list of locks per inode.  An interleaving of requests is a sequence of calls.

A lock is granted when no stored lock of another owner conflicts with it.  Then any two stored
locks of different owners are compatible, in every state that calls can reach.
-/

namespace JfsFuse

open Program

/-- `F_RDLCK`, `F_WRLCK` and `F_UNLCK`. -/
def fRdlck : ℤ := 0
def fWrlck : ℤ := 1
def fUnlck : ℤ := 2

/-- `LOCK_SH`, `LOCK_EX`, `LOCK_NB` and `LOCK_UN`. -/
def lockSh : UInt32 := 1
def lockEx : UInt32 := 2
def lockNb : UInt32 := 4
def lockUn : UInt32 := 8

def seekEnd : ℤ := 2

/-- A request for a byte-range lock; `l_pid` is not looked at. -/
structure Flock where
  lType : ℤ
  lWhence : ℤ
  lStart : ℤ
  lLen : ℤ
  deriving DecidableEq, Repr

namespace FuseFs

/-- Replace the locks of an inode. -/
def setLocks (fs : FuseFs) (ino : UInt32) (locks : List PosixLock) : FuseFs :=
  { fs with locks := Function.update fs.locks ino locks }

def setFlockLocks (fs : FuseFs) (ino : UInt32) (locks : List FlockLock) : FuseFs :=
  { fs with flockLocks := Function.update fs.flockLocks ino locks }

/-! ## Byte-range locks -/

/-- `x as u64`. -/
def asU64 (x : ℤ) : ℕ :=
  (x % 2 ^ 64).toNat

/-- `resolve_flock`.  The sum of start and length wraps around. -/
def resolveFlock (flock : Flock) (fileSize : ℕ) : ℕ × ℕ :=
  let start :=
    if flock.lWhence = seekEnd then min (fileSize + asU64 flock.lStart) (2 ^ 64 - 1)
    else asU64 flock.lStart
  let stop := if flock.lLen ≤ 0 then 2 ^ 64 - 1 else (start + asU64 flock.lLen) % 2 ^ 64
  (start, stop)

/-- A stored lock stands in the way of a new one. -/
def blocks (start stop : ℕ) (lType : ℤ) (owner : UInt64) (existing : PosixLock) : Bool :=
  !(stop ≤ existing.start || existing.stop ≤ start) && existing.owner != owner &&
    (lType == fWrlck || existing.lType == fWrlck)

/-- `check_lock_conflict`. -/
def checkLockConflict (fs : FuseFs) (ino : UInt32) (start stop : ℕ) (lType : ℤ) (owner : UInt64) :
    Option PosixLock :=
  (fs.locks ino).find? (blocks start stop lType owner)

/-- `release_owner_locks`. -/
def releaseOwnerLocks (fs : FuseFs) (ino : UInt32) (owner : UInt64) : FuseFs :=
  fs.setLocks ino ((fs.locks ino).filter fun lock => lock.owner != owner)

/-- The locks of an inode after a lock was granted: those of the owner in its range give
way. -/
def granted (locks : List PosixLock) (lock : PosixLock) : List PosixLock :=
  (locks.filter fun l => l.owner != lock.owner || l.stop ≤ lock.start || lock.stop ≤ l.start) ++ [lock]

/-- `do_setlk`. -/
def doSetlk (ino : UInt32) (flock : Flock) (owner : UInt64) : FuseM Unit := do
  let inode ← onVolume Errno.enoent (Volume.readInode ino)
  let (start, stop) := resolveFlock flock inode.size
  if flock.lType = fUnlck then modify fun fs => fs.releaseOwnerLocks ino owner
  else
    match (← get).checkLockConflict ino start stop flock.lType owner with
    | some _ => throw Errno.eagain
    | none =>
        modify fun fs =>
          fs.setLocks ino (granted (fs.locks ino) { lType := flock.lType, start, stop, owner })

/-- `setlk`. -/
def setlk (ino : UInt32) (flock : Flock) (owner : UInt64) : FuseM Unit := do
  if !(← get).writable then throw Errno.erofs
  else if flock.lType ≠ fUnlck ∧ flock.lType ≠ fRdlck ∧ flock.lType ≠ fWrlck then throw Errno.einval
  else doSetlk ino flock owner

/-- `setlkw`, which does not wait but fails as `setlk` does. -/
def setlkw (ino : UInt32) (flock : Flock) (owner : UInt64) : FuseM Unit :=
  setlk ino flock owner

/-! ## Whole-file locks -/

/-- `FlockLock::conflicts_with`. -/
def conflictsWith (lock other : FlockLock) : Bool :=
  lock.owner != other.owner && (lock.kind == lockEx || other.kind == lockEx)

/-- `release_flock_owner`. -/
def releaseFlockOwner (fs : FuseFs) (ino : UInt32) (owner : UInt64) : FuseFs :=
  fs.setFlockLocks ino ((fs.flockLocks ino).filter fun lock => lock.owner != owner)

/-- `flock`.  With and without `LOCK_NB` it fails with `EAGAIN` when it would have to wait. -/
def flock (ino : UInt32) (operation : UInt32) (owner : UInt64) : FuseM Unit := do
  let kind := operation &&& ~~~lockNb
  if !(← get).writable then throw Errno.erofs
  else if kind = lockUn then modify fun fs => fs.releaseFlockOwner ino owner
  else if kind ≠ lockSh ∧ kind ≠ lockEx then throw Errno.einval
  else if ((← get).flockLocks ino).any fun lock => lock.owner != owner && conflictsWith lock ⟨kind, owner⟩ then
    throw Errno.eagain
  else
    modify fun fs =>
      (fs.releaseFlockOwner ino owner).setFlockLocks ino
        ((fs.releaseFlockOwner ino owner).flockLocks ino ++ [⟨kind, owner⟩])

/-- `release_locks`. -/
def releaseLocks (ino : UInt32) (owner : UInt64) : FuseM Unit :=
  modify fun fs => (fs.releaseOwnerLocks ino owner).releaseFlockOwner ino owner

end FuseFs

/-- A request that changes a lock table, or any other one, which can change the volume only. -/
inductive LockCall
  | setlk (ino : UInt32) (flock : Flock) (owner : UInt64)
  | setlkw (ino : UInt32) (flock : Flock) (owner : UInt64)
  | flock (ino operation : UInt32) (owner : UInt64)
  | releaseLocks (ino : UInt32) (owner : UInt64)
  | other (volume : Volume)

namespace FuseFs

/-- The state after a request, whether it was granted or refused. -/
def perform (fs : FuseFs) : LockCall → FuseFs
  | .setlk ino flock owner => final (setlk ino flock owner fs)
  | .setlkw ino flock owner => final (setlkw ino flock owner fs)
  | .flock ino operation owner => final (flock ino operation owner fs)
  | .releaseLocks ino owner => final (releaseLocks ino owner fs)
  | .other volume => { fs with volume }

/-- The state after a sequence of requests. -/
def performAll (fs : FuseFs) (calls : List LockCall) : FuseFs :=
  calls.foldl perform fs

/-! ## Exclusion -/

/-- Byte-range locks that may be held together: of one owner, without a common byte, or both
for reading. -/
def Compatible (lock other : PosixLock) : Prop :=
  lock.owner ≠ other.owner → lock.lType = fWrlck ∨ other.lType = fWrlck →
    ∀ byte, ¬ ((lock.start ≤ byte ∧ byte < lock.stop) ∧ other.start ≤ byte ∧ byte < other.stop)

/-- Whole-file locks that may be held together. -/
def FlockCompatible (lock other : FlockLock) : Prop :=
  lock.owner ≠ other.owner → lock.kind ≠ lockEx ∧ other.kind ≠ lockEx

/-- Any two locks on an inode may be held together. -/
structure Exclusive (fs : FuseFs) : Prop where
  posix : ∀ ino, (fs.locks ino).Pairwise Compatible
  whole : ∀ ino, (fs.flockLocks ino).Pairwise FlockCompatible

namespace Exclusive

variable {fs : FuseFs} (h : fs.Exclusive)
include h

theorem setLocks {ino : UInt32} {locks : List PosixLock} (hlocks : locks.Pairwise Compatible) :
    (fs.setLocks ino locks).Exclusive := by
  refine ⟨fun ino' => ?_, h.whole⟩
  change (Function.update fs.locks ino locks ino').Pairwise Compatible
  by_cases heq : ino' = ino
  · rw [heq, Function.update_self]
    exact hlocks
  · rw [Function.update_of_ne heq]
    exact h.posix ino'

theorem setFlockLocks {ino : UInt32} {locks : List FlockLock} (hlocks : locks.Pairwise FlockCompatible) :
    (fs.setFlockLocks ino locks).Exclusive := by
  refine ⟨h.posix, fun ino' => ?_⟩
  change (Function.update fs.flockLocks ino locks ino').Pairwise FlockCompatible
  by_cases heq : ino' = ino
  · rw [heq, Function.update_self]
    exact hlocks
  · rw [Function.update_of_ne heq]
    exact h.whole ino'

theorem releaseOwnerLocks (ino : UInt32) (owner : UInt64) : (fs.releaseOwnerLocks ino owner).Exclusive :=
  h.setLocks ((h.posix ino).filter _)

theorem releaseFlockOwner (ino : UInt32) (owner : UInt64) : (fs.releaseFlockOwner ino owner).Exclusive :=
  h.setFlockLocks ((h.whole ino).filter _)

theorem withVolume (volume : Volume) : Exclusive { fs with volume } :=
  ⟨h.posix, h.whole⟩

end Exclusive

/-- A lock that no stored lock stands in the way of. -/
theorem compatible_of_not_blocks {start stop : ℕ} {lType : ℤ} {owner : UInt64} {existing : PosixLock}
    (h : ¬ blocks start stop lType owner existing = true) :
    Compatible existing { lType, start, stop, owner } := by
  intro howner htype byte hbyte
  refine h ?_
  unfold blocks
  simp only [Bool.and_eq_true, Bool.not_eq_true', Bool.or_eq_false_iff, decide_eq_false_iff_not,
    bne_iff_ne, Bool.or_eq_true, beq_iff_eq]
  simp only at howner htype hbyte
  exact ⟨⟨⟨by omega, by omega⟩, howner⟩, htype.symm⟩

theorem pairwise_granted {locks : List PosixLock} {lock : PosixLock} (hlocks : locks.Pairwise Compatible)
    (hnew : ∀ existing ∈ locks, Compatible existing lock) : (granted locks lock).Pairwise Compatible := by
  unfold granted
  rw [List.pairwise_append]
  refine ⟨hlocks.filter _, List.pairwise_singleton _ _, fun existing hmem new hnew' => ?_⟩
  rw [List.mem_singleton.mp hnew']
  exact hnew existing (List.mem_of_mem_filter hmem)

theorem flockLocks_releaseFlockOwner (fs : FuseFs) (ino : UInt32) (owner : UInt64) :
    (fs.releaseFlockOwner ino owner).flockLocks ino =
      (fs.flockLocks ino).filter fun lock => lock.owner != owner :=
  Function.update_self ..

theorem flockCompatible_of_not_conflicts {lock other : FlockLock} (h : ¬ conflictsWith lock other = true) :
    FlockCompatible lock other := by
  intro howner
  unfold conflictsWith at h
  simp only [Bool.and_eq_true, bne_iff_ne, Bool.or_eq_true, beq_iff_eq, not_and, not_or] at h
  exact h howner

/-- Exclusive locks stay so. -/
def KeepsExclusive (fs fs' : FuseFs) : Prop :=
  fs.Exclusive → fs'.Exclusive

instance : IsPreorder FuseFs KeepsExclusive where
  refl _ h := h
  trans _ _ _ h h' hstart := h' (h hstart)

theorem within_onVolume {α : Type} (errno : ℤ) (x : VolM α) : Within KeepsExclusive (onVolume errno x) := by
  intro fs h
  unfold onVolume
  cases x fs.volume with
  | ok a volume => exact h.withVolume volume
  | error e volume => exact h.withVolume volume

theorem within_modify {f : FuseFs → FuseFs} (h : ∀ fs, fs.Exclusive → (f fs).Exclusive) :
    Within KeepsExclusive (modify f : FuseM Unit) :=
  fun fs hstart => h fs hstart

theorem within_doSetlk (ino : UInt32) (flock : Flock) (owner : UInt64) :
    Within KeepsExclusive (doSetlk ino flock owner) := by
  unfold doSetlk
  refine (within_onVolume _ _).bind fun inode => ?_
  generalize resolveFlock flock inode.size = range
  obtain ⟨start, stop⟩ := range
  refine Within.ite (within_modify fun fs h => h.releaseOwnerLocks ino owner) ?_
  refine Within.get_bind fun fs => ?_
  cases hconflict : fs.checkLockConflict ino start stop flock.lType owner with
  | some conflict => exact fun h => h
  | none =>
      -- no stored lock stands in the way
      intro h
      refine h.setLocks (pairwise_granted (h.posix ino) fun existing hmem => ?_)
      exact compatible_of_not_blocks (List.find?_eq_none.mp hconflict existing hmem)

theorem within_setlk (ino : UInt32) (flock : Flock) (owner : UInt64) :
    Within KeepsExclusive (setlk ino flock owner) := by
  unfold setlk
  refine Within.get_bind fun fs => ?_
  exact Within.ite (Within.throw _) (Within.ite (Within.throw _) (within_doSetlk ino flock owner)) fs

theorem within_flock (ino operation : UInt32) (owner : UInt64) :
    Within KeepsExclusive (flock ino operation owner) := by
  unfold flock
  refine Within.get_bind fun fs => ?_
  refine Within.ite (Within.throw _) (Within.ite ?_ (Within.ite (Within.throw _) ?_)) fs
  · exact within_modify fun fs h => h.releaseFlockOwner ino owner
  · refine Within.get_bind fun fs => ?_
    split
    · exact fun h => h
    · rename_i hgranted
      intro h
      refine (h.releaseFlockOwner ino owner).setFlockLocks ?_
      rw [List.pairwise_append]
      refine ⟨(h.releaseFlockOwner ino owner).whole ino, List.pairwise_singleton _ _, ?_⟩
      intro existing hmem new hnew
      obtain rfl := List.mem_singleton.mp hnew
      refine flockCompatible_of_not_conflicts ?_
      rw [flockLocks_releaseFlockOwner] at hmem
      have hnone := List.any_eq_false.mp (Bool.eq_false_of_not_eq_true hgranted) existing
        (List.mem_of_mem_filter hmem)
      simpa [conflictsWith] using hnone

theorem Exclusive.perform {fs : FuseFs} (h : fs.Exclusive) (call : LockCall) : (fs.perform call).Exclusive := by
  cases call with
  | setlk ino flock owner => exact within_setlk ino flock owner fs h
  | setlkw ino flock owner => exact within_setlk ino flock owner fs h
  | flock ino operation owner => exact within_flock ino operation owner fs h
  | releaseLocks ino owner => exact (h.releaseOwnerLocks ino owner).releaseFlockOwner ino owner
  | other volume => exact h.withVolume volume

theorem Exclusive.performAll {fs : FuseFs} (h : fs.Exclusive) (calls : List LockCall) :
    (fs.performAll calls).Exclusive := by
  induction calls generalizing fs with
  | nil => exact h
  | cons call rest ih => exact ih (h.perform call)

/-- **The locks of different owners exclude each other**, after any requests to a filesystem just
mounted. -/
theorem locks_exclusive (volume : Volume) (writable : Bool) (calls : List LockCall) :
    Exclusive (performAll { volume, writable } calls) := by
  refine Exclusive.performAll ⟨fun ino => ?_, fun ino => ?_⟩ calls
  · exact List.Pairwise.nil
  · exact List.Pairwise.nil

example (volume : Volume) :
    (performAll { volume, writable := true } [.flock 18 lockEx 1, .flock 18 lockSh 2]).flockLocks 18 =
      [⟨lockEx, 1⟩] := by
  rfl

end FuseFs

end JfsFuse
