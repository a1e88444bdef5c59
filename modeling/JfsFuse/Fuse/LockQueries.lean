import JfsFuse.Fuse.LockRanges

/-!
# Asking for a lock

`getlk` says whether `setlk` would be granted, and which lock stands in its way.  The answer describes
the range of that lock by a signed start and a signed length; for the locks that requests can make,
the description is resolved to the range again.
-/

namespace JfsFuse

open Program

def seekSet : ℤ := 0

/-- `x as i64`. -/
def asI64 (x : ℕ) : ℤ :=
  Int.bmod x (2 ^ 64)

namespace FuseFs

/-- `end - start` of a lock. -/
def spanLength (lock : PosixLock) : ℕ :=
  (lock.stop + 2 ^ 64 - lock.start) % 2 ^ 64

/-- The answer that names a lock, and its `l_pid`. -/
def describe (conflict : PosixLock) : Flock × UInt64 :=
  ({ lType := conflict.lType
     lWhence := seekSet
     lStart := asI64 conflict.start
     lLen := if conflict.stop = 2 ^ 64 - 1 then 0 else asI64 (spanLength conflict) },
   conflict.owner)

/-- `do_getlk`. -/
def doGetlk (ino : UInt32) (flock : Flock) (owner : UInt64) : FuseM (Flock × UInt64) := do
  let inode ← onVolume Errno.enoent (Volume.readInode ino)
  let (start, stop) := resolveFlock flock inode.size
  match (← get).checkLockConflict ino start stop flock.lType owner with
  | some conflict => return describe conflict
  | none => return ({ flock with lType := fUnlck }, 0)

/-- `getlk`. -/
def getlk (ino : UInt32) (flock : Flock) (owner : UInt64) : FuseM (Flock × UInt64) := do
  if !(← get).writable then throw Errno.erofs
  else if flock.lType ≠ fRdlck ∧ flock.lType ≠ fWrlck then throw Errno.einval
  else doGetlk ino flock owner

/-! ## Locks that requests can make -/

/-- The lock is for reading or writing, and its range goes on for ever or has a length. -/
structure Describable (lock : PosixLock) : Prop where
  kind : lock.lType = fRdlck ∨ lock.lType = fWrlck
  start : lock.start < 2 ^ 64
  stop : lock.stop = 2 ^ 64 - 1 ∨ ∃ len, 0 < len ∧ len < 2 ^ 63 ∧ lock.stop = (lock.start + len) % 2 ^ 64

theorem asU64_lt (x : ℤ) : asU64 x < 2 ^ 64 := by
  unfold asU64
  omega

theorem asU64_asI64 {x : ℕ} (h : x < 2 ^ 64) : asU64 (asI64 x) = x := by
  unfold asU64 asI64 Int.bmod
  dsimp only
  split <;> omega

theorem asI64_of_lt {x : ℕ} (h : x < 2 ^ 63) : asI64 x = x := by
  unfold asI64
  rw [Int.bmod_eq_of_le] <;> omega

/-- **The description of a lock** is resolved to its range, whatever the size of the file is. -/
theorem resolveFlock_describe {lock : PosixLock} (h : Describable lock) (fileSize : ℕ) :
    resolveFlock (describe lock).1 fileSize = (lock.start, lock.stop) := by
  have hset : (describe lock).1.lWhence ≠ seekEnd := show seekSet ≠ seekEnd by decide
  have hfirst : (describe lock).1.lStart = asI64 lock.start := by simp only [describe]
  have hstart := asU64_asI64 h.start
  unfold resolveFlock
  rw [if_neg hset, hfirst, hstart]
  by_cases hever : lock.stop = 2 ^ 64 - 1
  · have hzero : (describe lock).1.lLen = 0 := if_pos hever
    rw [hzero, hever]
    exact congrArg (Prod.mk lock.start) (if_pos le_rfl)
  · obtain ⟨len, hpos, hlen, hstop⟩ := h.stop.resolve_left hever
    have hback : spanLength lock = len := by
      have hlow := h.start
      unfold spanLength
      omega
    have hsome : (describe lock).1.lLen = len := by
      refine (if_neg hever).trans ?_
      rw [hback, asI64_of_lt hlen]
    have hlength : asU64 len = len := by
      unfold asU64
      omega
    have hpositive : ¬ (len : ℤ) ≤ 0 := by omega
    rw [hsome, hlength, hstop]
    exact congrArg (Prod.mk lock.start) (if_neg hpositive)

/-- The range of a request whose length is an `i64`. -/
theorem describable_of_request {flock : Flock} (hkind : flock.lType = fRdlck ∨ flock.lType = fWrlck)
    (hlen : flock.lLen < 2 ^ 63) {fileSize start stop : ℕ} (hrange : resolveFlock flock fileSize = (start, stop))
    (owner : UInt64) : Describable { lType := flock.lType, start, stop, owner } := by
  obtain ⟨hstart, hstop⟩ := Prod.mk.inj hrange
  refine ⟨hkind, ?_, ?_⟩
  · show start < 2 ^ 64
    rw [← hstart]
    have hlow := asU64_lt flock.lStart
    split <;> omega
  · show stop = 2 ^ 64 - 1 ∨ ∃ len, 0 < len ∧ len < 2 ^ 63 ∧ stop = (start + len) % 2 ^ 64
    by_cases hnone : flock.lLen ≤ 0
    · rw [if_pos hnone] at hstop
      exact .inl hstop.symm
    · rw [if_neg hnone, hstart] at hstop
      refine .inr ⟨asU64 flock.lLen, ?_, ?_, hstop.symm⟩ <;>
      · unfold asU64
        omega

/-- Every stored lock is describable. -/
def AllDescribable (fs : FuseFs) : Prop :=
  ∀ ino, ∀ lock ∈ fs.locks ino, Describable lock

/-- The length in the request is an `i64`. -/
def SignedLength : LockCall → Prop
  | .setlk _ flock _ | .setlkw _ flock _ => flock.lLen < 2 ^ 63
  | _ => True

theorem AllDescribable.setLocks {fs : FuseFs} (h : fs.AllDescribable) {ino : UInt32} {locks : List PosixLock}
    (hlocks : ∀ lock ∈ locks, Describable lock) : (fs.setLocks ino locks).AllDescribable := by
  intro ino' lock hmem
  change lock ∈ Function.update fs.locks ino locks ino' at hmem
  by_cases heq : ino' = ino
  · rw [heq, Function.update_self] at hmem
    exact hlocks lock hmem
  · rw [Function.update_of_ne heq] at hmem
    exact h ino' lock hmem

theorem AllDescribable.releaseOwnerLocks {fs : FuseFs} (h : fs.AllDescribable) (ino : UInt32) (owner : UInt64) :
    (fs.releaseOwnerLocks ino owner).AllDescribable :=
  h.setLocks fun lock hmem => h ino lock (List.mem_of_mem_filter hmem)

theorem AllDescribable.setlk {fs : FuseFs} (h : fs.AllDescribable) (ino : UInt32) {flock : Flock}
    (hlen : flock.lLen < 2 ^ 63) (owner : UInt64) : (final (setlk ino flock owner fs)).AllDescribable := by
  unfold FuseFs.setlk
  rw [bind_ok (get_apply fs)]
  split
  · exact h
  · split
    · exact h
    · next hkind =>
        rcases onVolume_cases Errno.enoent (Volume.readInode ino) fs with ⟨inode, volume, hok⟩ | ⟨volume, herror⟩
        · by_cases htype : flock.lType = fUnlck
          · have hrun : doSetlk ino flock owner fs = .ok () (FuseFs.releaseOwnerLocks { fs with volume } ino owner) := by
              unfold doSetlk
              rw [bind_ok hok]
              exact congrFun (if_pos htype) _
            rw [hrun]
            exact @AllDescribable.releaseOwnerLocks { fs with volume } h ino owner
          · obtain ⟨-, hrun | hrun⟩ := doSetlk_cases owner hok htype rfl
            · rw [hrun]
              exact h
            · rw [hrun]
              have hkinds : flock.lType = fRdlck ∨ flock.lType = fWrlck := by tauto
              refine @AllDescribable.setLocks { fs with volume } h _ _ fun lock hmem => ?_
              rcases List.mem_append.mp hmem with hold | hnew
              · exact h ino lock (List.mem_of_mem_filter hold)
              · rw [List.mem_singleton.mp hnew]
                exact describable_of_request hkinds hlen rfl owner
        · have hrun : doSetlk ino flock owner fs = .error Errno.enoent { fs with volume } := by
            unfold doSetlk
            exact bind_error herror
          rw [hrun]
          exact h

theorem locks_flock (ino operation : UInt32) (owner : UInt64) (fs : FuseFs) :
    (final (flock ino operation owner fs)).locks = fs.locks := by
  unfold flock
  rw [bind_ok (get_apply fs)]
  split
  · rfl
  · split
    · rfl
    · split
      · rfl
      · rw [bind_ok (get_apply fs)]
        split <;> rfl

theorem AllDescribable.perform {fs : FuseFs} (h : fs.AllDescribable) {call : LockCall} (hcall : SignedLength call) :
    (fs.perform call).AllDescribable := by
  cases call with
  | setlk ino flock owner => exact h.setlk ino hcall owner
  | setlkw ino flock owner => exact h.setlk ino hcall owner
  | flock ino operation owner =>
      intro ino' lock hmem
      rw [show (fs.perform (.flock ino operation owner)).locks = fs.locks from locks_flock ino operation owner fs] at hmem
      exact h ino' lock hmem
  | releaseLocks ino owner => exact h.releaseOwnerLocks ino owner
  | other volume => exact h

theorem AllDescribable.performAll {fs : FuseFs} (h : fs.AllDescribable) {calls : List LockCall}
    (hcalls : ∀ call ∈ calls, SignedLength call) : (fs.performAll calls).AllDescribable := by
  induction calls generalizing fs with
  | nil => exact h
  | cons call rest ih =>
      have hfirst := hcalls call (List.mem_cons_self ..)
      exact ih (h.perform hfirst) fun call' hmem => hcalls call' (List.mem_cons_of_mem _ hmem)

/-! ## The answers -/

/-- What the answer of `getlk` says about `setlk` with the same request. -/
inductive Foretells (fs : FuseFs) (ino : UInt32) (flock : Flock) (owner : UInt64) : Prop
  /-- Nothing stands in the way: the answer is the request itself, with `F_UNLCK`. -/
  | free {fs₁ fs₂ : FuseFs} (hanswer : getlk ino flock owner fs = .ok ({ flock with lType := fUnlck }, 0) fs₁)
      (hset : setlk ino flock owner fs = .ok () fs₂)
  /-- A lock of another owner stands in the way, and the answer names its kind, range and owner. -/
  | taken {fs₁ : FuseFs} {lock : PosixLock} {answer : Flock} (hlock : lock ∈ fs.locks ino)
      (hother : lock.owner ≠ owner) (hkind : flock.lType = fWrlck ∨ lock.lType = fWrlck)
      (hanswer : getlk ino flock owner fs = .ok (answer, lock.owner) fs₁) (htype : answer.lType = lock.lType)
      (hrange : ∀ fileSize, resolveFlock answer fileSize = (lock.start, lock.stop))
      (hset : setlk ino flock owner fs = .error Errno.eagain fs₁)
  /-- Both are refused. -/
  | refused {errno : ℤ} {fs₁ : FuseFs} (hanswer : getlk ino flock owner fs = .error errno fs₁)
      (hset : setlk ino flock owner fs = .error errno fs₁) (herrno : errno ≠ Errno.eagain)

section Requests

variable {fs fs₁ : FuseFs} {ino : UInt32} {flock : Flock} {owner : UInt64} {inode : Inode} {start stop : ℕ}

theorem getlk_of_writable (hwritable : fs.writable = true) (hkind : flock.lType = fRdlck ∨ flock.lType = fWrlck) :
    getlk ino flock owner fs = doGetlk ino flock owner fs := by
  have hopen : ¬ (!fs.writable) = true := by simp [hwritable]
  unfold getlk
  rw [bind_ok (get_apply fs), if_neg hopen, if_neg (by tauto)]

theorem setlk_of_writable (hwritable : fs.writable = true) (hkind : flock.lType = fRdlck ∨ flock.lType = fWrlck) :
    setlk ino flock owner fs = doSetlk ino flock owner fs := by
  have hopen : ¬ (!fs.writable) = true := by simp [hwritable]
  unfold setlk
  rw [bind_ok (get_apply fs), if_neg hopen, if_neg (by tauto)]

/-- **Nothing stands in the way** of the request, or the lock that does is described. -/
theorem doGetlk_of_read (hread : onVolume Errno.enoent (Volume.readInode ino) fs = .ok inode fs₁)
    (hrange : resolveFlock flock inode.size = (start, stop)) : doGetlk ino flock owner fs =
      match fs₁.checkLockConflict ino start stop flock.lType owner with
      | some conflict => .ok (describe conflict) fs₁
      | none => .ok ({ flock with lType := fUnlck }, 0) fs₁ := by
  unfold doGetlk
  rw [bind_ok hread, hrange]
  dsimp only
  rw [bind_ok (get_apply fs₁)]
  cases fs₁.checkLockConflict ino start stop flock.lType owner <;> rfl

theorem doSetlk_of_read (hread : onVolume Errno.enoent (Volume.readInode ino) fs = .ok inode fs₁)
    (hlocking : flock.lType ≠ fUnlck) (hrange : resolveFlock flock inode.size = (start, stop)) :
    doSetlk ino flock owner fs =
      match fs₁.checkLockConflict ino start stop flock.lType owner with
      | some _ => .error Errno.eagain fs₁
      | none => .ok () (fs₁.setLocks ino (granted (fs₁.locks ino) { lType := flock.lType, start, stop, owner })) := by
  unfold doSetlk
  rw [bind_ok hread, hrange]
  dsimp only
  rw [if_neg hlocking, bind_ok (get_apply fs₁)]
  cases fs₁.checkLockConflict ino start stop flock.lType owner <;> rfl

theorem foretells_of_describable (h : fs.AllDescribable) (ino : UInt32)
    (hkind : flock.lType = fRdlck ∨ flock.lType = fWrlck) (owner : UInt64) : Foretells fs ino flock owner := by
  by_cases hwritable : fs.writable = true
  · have hlocking : flock.lType ≠ fUnlck := by
      rcases hkind with heq | heq <;> rw [heq] <;> decide
    have hget := @getlk_of_writable fs ino flock owner hwritable hkind
    have hset := @setlk_of_writable fs ino flock owner hwritable hkind
    rcases onVolume_cases Errno.enoent (Volume.readInode ino) fs with ⟨inode, volume, hok⟩ | ⟨volume, herror⟩
    · obtain ⟨⟨start, stop⟩, hrange⟩ : ∃ range, resolveFlock flock inode.size = range := ⟨_, rfl⟩
      have hget' := hget.trans (doGetlk_of_read hok hrange)
      have hset' := hset.trans (doSetlk_of_read hok hlocking hrange)
      cases hconflict : checkLockConflict { fs with volume } ino start stop flock.lType owner with
      | none =>
          rw [hconflict] at hget' hset'
          exact .free hget' hset'
      | some lock =>
          rw [hconflict] at hget' hset'
          have hmem : lock ∈ fs.locks ino := List.mem_of_find?_eq_some hconflict
          have hblocks := List.find?_some hconflict
          unfold blocks at hblocks
          simp only [Bool.and_eq_true, bne_iff_ne, Bool.or_eq_true, beq_iff_eq] at hblocks
          exact .taken hmem hblocks.1.2 hblocks.2 hget' rfl (resolveFlock_describe (h ino lock hmem)) hset'
    · exact .refused (hget.trans (bind_error herror)) (hset.trans (bind_error herror)) (by decide)
  · have hclosed : (!fs.writable) = true := by simp [hwritable]
    have hget : getlk ino flock owner fs = .error Errno.erofs fs := by
      unfold getlk
      rw [bind_ok (get_apply fs), if_pos hclosed]
      rfl
    have hset : setlk ino flock owner fs = .error Errno.erofs fs := by
      unfold setlk
      rw [bind_ok (get_apply fs), if_pos hclosed]
      rfl
    exact .refused hget hset (by decide)

end Requests

end FuseFs

end JfsFuse
