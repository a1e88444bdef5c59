import JfsFuse.Fuse.Locks
import JfsFuse.Volume.OneFile
import Mathlib.Data.List.Find

/-!
# Byte ranges of one owner

A granted lock takes the place of the locks of its owner that share a byte with it.  They are
removed as a whole: where one of them reaches out of the new range, its bytes outside are no longer
locked.  So the bytes outside keep their locks exactly if no removed lock has one
(`setlk_exact_iff`).
-/

namespace JfsFuse

open Program

/-- The lock is on the byte. -/
def PosixLock.Covers (lock : PosixLock) (byte : ℕ) : Prop :=
  lock.start ≤ byte ∧ byte < lock.stop

instance (lock : PosixLock) (byte : ℕ) : Decidable (lock.Covers byte) := inferInstanceAs (Decidable (_ ∧ _))

namespace FuseFs

/-- The type of the lock that an owner has on a byte. -/
def heldType (locks : List PosixLock) (owner : UInt64) (byte : ℕ) : Option ℤ :=
  (locks.find? fun lock => lock.owner = owner ∧ lock.Covers byte).map PosixLock.lType

/-- Locks of one owner have no byte in common. -/
def Apart (lock other : PosixLock) : Prop :=
  lock.owner = other.owner → ∀ byte, ¬ (lock.Covers byte ∧ other.Covers byte)

instance : Std.Symm Apart where
  symm _ _ h howner byte hboth := h howner.symm byte hboth.symm

/-- No owner has two locks on a byte. -/
def Separate (locks : List PosixLock) : Prop :=
  locks.Pairwise Apart

/-- The lock is removed when the new one is granted. -/
def GivesWay (new lock : PosixLock) : Prop :=
  lock.owner = new.owner ∧ new.start < lock.stop ∧ lock.start < new.stop

/-- The bytes of the new lock have its type, and nothing else is changed. -/
structure ReplacesExactly (new : PosixLock) (locks locks' : List PosixLock) : Prop where
  inside : ∀ byte, new.Covers byte → heldType locks' new.owner byte = some new.lType
  outside : ∀ byte, ¬ new.Covers byte → heldType locks' new.owner byte = heldType locks new.owner byte
  others : (locks'.filter fun lock => lock.owner ≠ new.owner) = locks.filter fun lock => lock.owner ≠ new.owner

section Granted

variable {locks : List PosixLock} {new : PosixLock}

theorem stays_iff {lock : PosixLock} :
    (lock.owner != new.owner || lock.stop ≤ new.start || new.stop ≤ lock.start) = true ↔ ¬ GivesWay new lock := by
  unfold GivesWay
  rw [not_and_or, not_and_or, not_lt, not_lt, ← or_assoc, Bool.or_eq_true, Bool.or_eq_true, bne_iff_ne,
    decide_eq_true_eq, decide_eq_true_eq]

theorem mem_granted_iff {lock : PosixLock} :
    lock ∈ granted locks new ↔ lock ∈ locks ∧ ¬ GivesWay new lock ∨ lock = new := by
  unfold granted
  rw [List.mem_append, List.mem_filter, List.mem_singleton, stays_iff]

/-- A lock on a byte of the new one gives way. -/
theorem givesWay_of_covers {lock : PosixLock} (howner : lock.owner = new.owner) {byte : ℕ} (hlock : lock.Covers byte)
    (hnew : new.Covers byte) : GivesWay new lock := by
  unfold PosixLock.Covers at hlock hnew
  exact ⟨howner, by omega, by omega⟩

theorem heldType_eq_none {owner : UInt64} {byte : ℕ} :
    heldType locks owner byte = none ↔ ∀ lock ∈ locks, lock.owner = owner → ¬ lock.Covers byte := by
  unfold heldType
  rw [Option.map_eq_none_iff, List.find?_eq_none]
  simp only [decide_eq_true_eq, not_and]

theorem heldType_granted_of_covers {byte : ℕ} (hbyte : new.Covers byte) :
    heldType (granted locks new) new.owner byte = some new.lType := by
  unfold heldType granted
  rw [List.find?_append, List.find?_eq_none.mpr, Option.none_or, List.find?_cons_of_pos (by simpa using hbyte)]
  · rfl
  · intro lock hlock hfound
    obtain ⟨-, hstays⟩ := List.mem_filter.mp hlock
    obtain ⟨howner, hcovers⟩ := of_decide_eq_true hfound
    exact stays_iff.mp hstays (givesWay_of_covers howner hcovers hbyte)

theorem heldType_granted_of_not_covers {byte : ℕ} (hbyte : ¬ new.Covers byte) :
    heldType (granted locks new) new.owner byte =
      heldType (locks.filter fun lock => lock.owner != new.owner || lock.stop ≤ new.start || new.stop ≤ lock.start)
        new.owner byte := by
  unfold heldType granted
  rw [List.find?_append, List.find?_cons_of_neg (by simpa using hbyte), List.find?_nil, Option.or_none]

theorem filter_granted : (granted locks new).filter (fun lock => lock.owner ≠ new.owner) =
    locks.filter fun lock => lock.owner ≠ new.owner := by
  unfold granted
  rw [List.filter_append, List.filter_filter, List.filter_cons_of_neg (by simp), List.filter_nil, List.append_nil]
  refine List.filter_congr fun lock _ => ?_
  by_cases howner : lock.owner = new.owner
  · simp [howner]
  · simp [howner]

theorem separate_granted (h : Separate locks) : Separate (granted locks new) := by
  unfold Separate granted
  rw [List.pairwise_append]
  refine ⟨List.Pairwise.filter _ h, List.pairwise_singleton _ _, fun lock hlock other hother howner byte hboth => ?_⟩
  rw [List.mem_singleton.mp hother] at howner hboth
  exact stays_iff.mp (List.mem_filter.mp hlock).2 (givesWay_of_covers howner hboth.1 hboth.2)

/-- **The exact condition** for one grant. -/
theorem replacesExactly_granted_iff (h : Separate locks) : ReplacesExactly new locks (granted locks new) ↔
    ∀ lock ∈ locks, GivesWay new lock → ∀ byte, lock.Covers byte → new.Covers byte := by
  constructor
  · intro hexact lock hlock hway byte hcovers
    by_contra hout
    have hsame := hexact.outside byte hout
    -- the owner has no other lock on the byte
    have hnone : heldType (granted locks new) new.owner byte = none := by
      refine heldType_eq_none.mpr fun other hother howner hcovers' => ?_
      rcases mem_granted_iff.mp hother with ⟨hmem, hstays⟩ | rfl
      · have hne : lock ≠ other := by
          rintro rfl
          exact hstays hway
        exact List.Pairwise.forall h hlock hmem hne (hway.1.trans howner.symm) byte ⟨hcovers, hcovers'⟩
      · exact hout hcovers'
    exact heldType_eq_none.mp (hsame.symm.trans hnone) lock hlock hway.1 hcovers
  · intro hinside
    refine ⟨fun byte => heldType_granted_of_covers, fun byte hout => ?_, filter_granted⟩
    rw [heldType_granted_of_not_covers hout]
    unfold heldType
    rw [List.find?_filter]
    refine congrArg _ (List.find?_congr fun lock hlock => ?_)
    rw [Bool.eq_iff_iff, decide_eq_true_eq, stays_iff, decide_eq_true_eq]
    exact and_iff_right_of_imp fun hheld hway => hout (hinside lock hlock hway byte hheld.2)

end Granted

/-! ## Requests -/

@[simp] theorem locks_setLocks (fs : FuseFs) (ino : UInt32) (locks : List PosixLock) :
    (fs.setLocks ino locks).locks ino = locks :=
  Function.update_self ..

/-- What a request does to the byte-range locks of an inode. -/
inductive LocksStep (locks : List PosixLock) : List PosixLock → Prop
  | same : LocksStep locks locks
  | released (owner : UInt64) : LocksStep locks (locks.filter fun lock => lock.owner != owner)
  | granted (new : PosixLock) : LocksStep locks (granted locks new)

theorem LocksStep.separate {locks locks' : List PosixLock} (hstep : LocksStep locks locks') (h : Separate locks) :
    Separate locks' := by
  cases hstep with
  | same => exact h
  | released owner => exact List.Pairwise.filter _ h
  | granted new => exact separate_granted h

section Requests

variable {fs : FuseFs} {ino : UInt32} {flock : Flock} {owner : UInt64}

theorem locksStep_update (fs : FuseFs) {ino ino' : UInt32} {locks : List PosixLock} (hstep : LocksStep (fs.locks ino) locks) :
    LocksStep (fs.locks ino') ((fs.setLocks ino locks).locks ino') := by
  show LocksStep _ (Function.update fs.locks ino locks ino')
  by_cases heq : ino' = ino
  · rw [heq, Function.update_self]
    exact hstep
  · rw [Function.update_of_ne heq]
    exact LocksStep.same

theorem onVolume_cases {α : Type} (errno : ℤ) (x : VolM α) (fs : FuseFs) :
    (∃ a volume, onVolume errno x fs = .ok a { fs with volume }) ∨
      ∃ volume, onVolume errno x fs = .error errno { fs with volume } := by
  unfold onVolume
  cases x fs.volume with
  | ok a volume => exact Or.inl ⟨a, volume, rfl⟩
  | error e volume => exact Or.inr ⟨volume, rfl⟩

/-- **The lock is refused or granted**, once the inode has been read. -/
theorem doSetlk_cases (owner : UInt64) {inode : Inode} {fs₁ : FuseFs} (hread : onVolume Errno.enoent (Volume.readInode ino) fs = .ok inode fs₁)
    (htype : flock.lType ≠ fUnlck) {start stop : ℕ} (hrange : resolveFlock flock inode.size = (start, stop)) :
    fs₁.locks = fs.locks ∧ (doSetlk ino flock owner fs = .error Errno.eagain fs₁ ∨
      doSetlk ino flock owner fs =
        .ok () (fs₁.setLocks ino (granted (fs.locks ino) { lType := flock.lType, start, stop, owner }))) := by
  have hlocks : fs₁.locks = fs.locks := by
    rcases onVolume_cases Errno.enoent (Volume.readInode ino) fs with ⟨a, volume, hok⟩ | ⟨volume, herror⟩
    · cases hread.symm.trans hok
      rfl
    · cases hread.symm.trans herror
  refine ⟨hlocks, ?_⟩
  unfold doSetlk
  rw [bind_ok hread, hrange]
  dsimp only
  rw [if_neg htype, bind_ok (get_apply fs₁), ← hlocks]
  cases fs₁.checkLockConflict ino start stop flock.lType owner with
  | some conflict => exact Or.inl rfl
  | none => exact Or.inr rfl

theorem locksStep_doSetlk (fs : FuseFs) (ino ino' : UInt32) (flock : Flock) (owner : UInt64) :
    LocksStep (fs.locks ino') ((final (doSetlk ino flock owner fs)).locks ino') := by
  rcases onVolume_cases Errno.enoent (Volume.readInode ino) fs with ⟨inode, volume, hok⟩ | ⟨volume, herror⟩
  · by_cases htype : flock.lType = fUnlck
    · have hrun : doSetlk ino flock owner fs = .ok () (releaseOwnerLocks { fs with volume } ino owner) := by
        unfold doSetlk
        rw [bind_ok hok]
        exact congrFun (if_pos htype) _
      rw [hrun]
      exact locksStep_update { fs with volume } (LocksStep.released owner)
    · obtain ⟨-, hrun | hrun⟩ := doSetlk_cases owner hok htype rfl
      · rw [hrun]
        exact LocksStep.same
      · rw [hrun]
        exact locksStep_update { fs with volume } (LocksStep.granted _)
  · have hrun : doSetlk ino flock owner fs = .error Errno.enoent { fs with volume } := by
      unfold doSetlk
      exact bind_error herror
    rw [hrun]
    exact LocksStep.same

theorem locksStep_setlk (fs : FuseFs) (ino ino' : UInt32) (flock : Flock) (owner : UInt64) :
    LocksStep (fs.locks ino') ((final (setlk ino flock owner fs)).locks ino') := by
  unfold setlk
  rw [bind_ok (get_apply fs)]
  split
  · exact LocksStep.same
  · split
    · exact LocksStep.same
    · exact locksStep_doSetlk fs ino ino' flock owner

/-- **One request.** -/
theorem locksStep_perform (fs : FuseFs) (call : LockCall) (ino : UInt32) :
    LocksStep (fs.locks ino) ((fs.perform call).locks ino) := by
  cases call with
  | setlk ino' flock owner => exact locksStep_setlk fs ino' ino flock owner
  | setlkw ino' flock owner => exact locksStep_setlk fs ino' ino flock owner
  | flock ino' operation owner =>
      have hsame : (final (FuseFs.flock ino' operation owner fs)).locks = fs.locks := by
        unfold FuseFs.flock
        rw [bind_ok (get_apply fs)]
        split
        · rfl
        split
        · rfl
        split
        · rfl
        rw [bind_ok (get_apply fs)]
        split <;> rfl
      show LocksStep _ ((final (FuseFs.flock ino' operation owner fs)).locks ino)
      rw [hsame]
      exact LocksStep.same
  | releaseLocks ino' owner => exact locksStep_update _ (LocksStep.released owner)
  | other volume => exact LocksStep.same

/-- **A run of requests.** -/
theorem separate_performAll (calls : List LockCall) (h : ∀ ino, Separate (fs.locks ino)) (ino : UInt32) :
    Separate ((fs.performAll calls).locks ino) := by
  induction calls generalizing fs with
  | nil => exact h ino
  | cons call calls ih => exact ih fun ino' => (locksStep_perform fs call ino').separate (h ino')

/-- **Lock replacement.**  After any requests to a filesystem just mounted, a granted lock replaces
the locks of its owner exactly if those that give way have no byte outside its range; a refused
one leaves the table as it is. -/
theorem setlk_exact_iff {volume : Volume} {writable : Bool} {calls : List LockCall}
    (hreach : performAll { volume, writable } calls = fs) {inode : Inode} {fs₁ : FuseFs}
    (hread : onVolume Errno.enoent (Volume.readInode ino) fs = .ok inode fs₁)
    (htype : flock.lType = fRdlck ∨ flock.lType = fWrlck) {start stop : ℕ}
    (hrange : resolveFlock flock inode.size = (start, stop)) :
    (∀ fs', setlk ino flock owner fs = .ok () fs' →
      ((∀ ino', ino' ≠ ino → fs'.locks ino' = fs.locks ino') ∧
        ReplacesExactly { lType := flock.lType, start, stop, owner } (fs.locks ino) (fs'.locks ino) ↔
      ∀ lock ∈ fs.locks ino, GivesWay { lType := flock.lType, start, stop, owner } lock →
        ∀ byte, lock.Covers byte → start ≤ byte ∧ byte < stop)) ∧
    (∀ fs', setlk ino flock owner fs = .error Errno.eagain fs' → fs'.locks = fs.locks) := by
  have hseparate : Separate (fs.locks ino) := by
    have hstart : ∀ ino', Separate (({ volume, writable } : FuseFs).locks ino') := fun _ => List.Pairwise.nil
    rw [← hreach]
    exact separate_performAll calls hstart ino
  have hnot : flock.lType ≠ fUnlck := by
    rcases htype with h | h <;> rw [h] <;> decide
  have hcall : ∀ {result : EStateM.Result ℤ FuseFs Unit}, setlk ino flock owner fs = result →
      doSetlk ino flock owner fs = result ∨ result = .error Errno.erofs fs := by
    intro result hresult
    unfold setlk at hresult
    rw [bind_ok (get_apply fs)] at hresult
    split at hresult
    · exact Or.inr hresult.symm
    · rw [if_neg (by tauto)] at hresult
      exact Or.inl hresult
  obtain ⟨hsame, hresult⟩ := doSetlk_cases owner hread hnot hrange
  constructor
  · intro fs' hok
    rcases hcall hok with hrun | hno
    · rcases hresult with hresult | hresult
      · cases hrun.symm.trans hresult
      · cases hrun.symm.trans hresult
        rw [locks_setLocks, replacesExactly_granted_iff hseparate]
        refine and_iff_right fun ino' hne => ?_
        show Function.update fs₁.locks ino _ ino' = _
        rw [Function.update_of_ne hne, hsame]
    · cases hno
  · intro fs' herror
    rcases hcall herror with hrun | hno
    · rcases hresult with hresult | hresult
      · cases hrun.symm.trans hresult
        exact hsame
      · cases hrun.symm.trans hresult
    · injection hno with herrno
      exact absurd herrno (by decide)

end Requests

/-! ## A file with a lock -/

/-- A lock that nothing stands in the way of is granted. -/
theorem setlk_granted (owner : UInt64) {fs : FuseFs} {ino : UInt32} {flock : Flock} (hwritable : fs.writable = true)
    (htype : flock.lType = fRdlck ∨ flock.lType = fWrlck) {inode : Inode} {fs₁ : FuseFs}
    (hread : onVolume Errno.enoent (Volume.readInode ino) fs = .ok inode fs₁) {start stop : ℕ}
    (hrange : resolveFlock flock inode.size = (start, stop))
    (hfree : fs₁.checkLockConflict ino start stop flock.lType owner = none) :
    setlk ino flock owner fs =
      .ok () (fs₁.setLocks ino (granted (fs₁.locks ino) { lType := flock.lType, start, stop, owner })) := by
  have hnot : flock.lType ≠ fUnlck := by
    rcases htype with h | h <;> rw [h] <;> decide
  unfold setlk doSetlk
  rw [bind_ok (get_apply fs), hwritable, if_neg (by decide), if_neg (by tauto), bind_ok hread, hrange]
  dsimp only
  rw [if_neg hnot, bind_ok (get_apply fs₁), hfree]
  rfl

/-- An empty file. -/
def unlockedFile : FuseFs :=
  { volume := Volume.oneInode Volume.emptyInode fun _ => 0, writable := true }

/-- The same file, with its first 100 bytes locked for writing by owner 7. -/
def lockedFile : FuseFs :=
  unlockedFile.setLocks 19 [⟨fWrlck, 0, 100, 7⟩]

theorem read_unlockedFile {fs : FuseFs} (hvolume : fs.volume = unlockedFile.volume) :
    onVolume Errno.enoent (Volume.readInode 19) fs =
      .ok { dinode := Volume.emptyInode, ino := 19, pageBlock := 4, pageOffset := 0 } fs := by
  have hread := Volume.readInode_oneInode (fun _ => 0) Volume.length_emptyInode (by decide +kernel)
  have hok : Volume.readInode 19 fs.volume =
      .ok { dinode := Volume.emptyInode, ino := 19, pageBlock := 4, pageOffset := 0 } fs.volume := by
    rw [hvolume]
    exact hread
  unfold onVolume
  simp only [hok]

theorem resolveFlock_start (lType lStart lLen : ℤ) (hlen : 0 < lLen) (size : ℕ) :
    resolveFlock ⟨lType, 0, lStart, lLen⟩ size = (asU64 lStart, (asU64 lStart + asU64 lLen) % 2 ^ 64) := by
  unfold resolveFlock
  simp only
  rw [if_neg (show ¬ (0 : ℤ) = seekEnd by decide), if_neg (not_le.mpr hlen)]

theorem performAll_setlk (fs : FuseFs) (ino : UInt32) (flock : Flock) (owner : UInt64) :
    performAll fs [.setlk ino flock owner] = final (setlk ino flock owner fs) := rfl

theorem performAll_lockedFile :
    performAll unlockedFile [.setlk 19 ⟨fWrlck, 0, 0, 100⟩ 7] = lockedFile := by
  have hrun := setlk_granted 7 rfl (Or.inr rfl) (read_unlockedFile rfl)
    (resolveFlock_start fWrlck 0 100 (by decide) _) rfl
  have hlocks : granted [] ⟨fWrlck, asU64 0, (asU64 0 + asU64 100) % 2 ^ 64, 7⟩ = [⟨fWrlck, 0, 100, 7⟩] := by decide
  have hnone : unlockedFile.locks 19 = [] := rfl
  rw [hnone, hlocks] at hrun
  rw [performAll_setlk, hrun, final_ok, lockedFile]

theorem locks_lockedFile : lockedFile.locks 19 = [⟨fWrlck, 0, 100, 7⟩] :=
  locks_setLocks ..

theorem setlk_lockedFile {lType : ℤ} (htype : lType = fRdlck ∨ lType = fWrlck) (lStart : ℤ) {lLen : ℤ} (hlen : 0 < lLen) :
    setlk 19 ⟨lType, 0, lStart, lLen⟩ 7 lockedFile =
      .ok () (lockedFile.setLocks 19 (granted [⟨fWrlck, 0, 100, 7⟩]
        ⟨lType, asU64 lStart, (asU64 lStart + asU64 lLen) % 2 ^ 64, 7⟩)) := by
  have hvolume : lockedFile.volume = unlockedFile.volume := rfl
  have hfree : lockedFile.checkLockConflict 19 (asU64 lStart) ((asU64 lStart + asU64 lLen) % 2 ^ 64) lType 7 = none := by
    unfold checkLockConflict blocks
    rw [locks_lockedFile]
    simp
  rw [setlk_granted 7 rfl htype (read_unlockedFile hvolume) (resolveFlock_start lType lStart lLen hlen _) hfree,
    locks_lockedFile]

/-- A longer range takes the place of the lock. -/
theorem setlk_exact_longer : ∃ fs', setlk 19 ⟨fRdlck, 0, 0, 200⟩ 7 lockedFile = .ok () fs' ∧
    ReplacesExactly ⟨fRdlck, 0, 200, 7⟩ (lockedFile.locks 19) (fs'.locks 19) := by
  have hvolume : lockedFile.volume = unlockedFile.volume := rfl
  have hrun := setlk_lockedFile (Or.inl rfl) 0 (show (0 : ℤ) < 200 by decide)
  have hrange := resolveFlock_start fRdlck 0 200 (by decide) (Inode.size ⟨Volume.emptyInode, 19, 4, 0⟩)
  have hexact := (setlk_exact_iff performAll_lockedFile (read_unlockedFile hvolume) (Or.inl rfl) hrange).1 _ hrun
  refine ⟨_, hrun, (hexact.mpr fun lock hlock _ byte hcovers => ?_).2⟩
  rw [locks_lockedFile, List.mem_singleton] at hlock
  subst hlock
  obtain ⟨-, hhigh⟩ := hcovers
  exact ⟨Nat.zero_le _, lt_trans hhigh (by decide)⟩

/-- **A shorter range takes the lock off the other bytes.** -/
theorem setlk_drops_bytes : performAll unlockedFile [.setlk 19 ⟨fWrlck, 0, 0, 100⟩ 7] = lockedFile ∧
    ∃ fs', setlk 19 ⟨fWrlck, 0, 50, 10⟩ 7 lockedFile = .ok () fs' ∧
      heldType (lockedFile.locks 19) 7 0 = some fWrlck ∧ heldType (fs'.locks 19) 7 0 = none := by
  have hrun := setlk_lockedFile (Or.inr rfl) 50 (show (0 : ℤ) < 10 by decide)
  refine ⟨performAll_lockedFile, _, hrun, ?_, ?_⟩
  · rw [locks_lockedFile]
    decide
  · rw [locks_setLocks]
    decide

end FuseFs

end JfsFuse
