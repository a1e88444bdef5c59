import JfsFuse.Mkfs
import JfsFuse.Volume.BodySteps
import JfsFuse.Volume.Operations

/-!
# Transactions that stay open

An operation closes its transaction when it commits, whether the commit returns or fails,
and when it aborts.  A failure that its body passes on with `?` does neither: the
transaction stays open, and no later operation can begin one.
-/

namespace JfsFuse

open Program

namespace Volume

/-! ## Closing a transaction -/

/-- The transaction manager is the same. -/
def SameTxMgr (v v' : Volume) : Prop :=
  v'.txMgr = v.txMgr

instance : IsPreorder Volume SameTxMgr where
  refl _ := rfl
  trans _ _ _ h h' := Eq.trans h' h

theorem sameTxMgr_onStorage {α : Type} (x : StorageM α) : Within SameTxMgr (onStorage x) := by
  intro v
  unfold onStorage
  rw [final_zoom]
  rfl

theorem sameTxMgr_onLog (x : LogM Unit) : Within SameTxMgr (onLog x) := by
  intro v
  unfold onLog
  cases v.log with
  | none => rfl
  | some manager =>
      simp only
      split
      · rfl
      · rfl

theorem sameTxMgr_modifyCache (f : PageCache → PageCache) : Within SameTxMgr (modifyCache f) :=
  fun _ => rfl

theorem sameTxMgr_orAbortPages {α : Type} (keys : List (UInt32 × ℕ)) {x : VolM α}
    (hx : Within SameTxMgr x) : Within SameTxMgr (orAbortPages keys x) :=
  Within.tryCatch hx fun _ => Within.bind (sameTxMgr_modifyCache _) fun _ => Within.throw _

theorem sameTxMgr_getPage (inode : UInt32) (block : ℕ) : Within SameTxMgr (getPage inode block) :=
  fun _ => rfl

theorem sameTxMgr_journalPages (txid : ℕ) (keys : List (UInt32 × ℕ)) :
    Within SameTxMgr (journalPages txid keys) := by
  induction keys with
  | nil => exact Within.pure ()
  | cons key rest ih =>
      refine Within.bind (sameTxMgr_getPage _ _) fun found => ?_
      cases found with
      | none => exact ih
      | some page => exact Within.bind (sameTxMgr_onLog _) fun _ => ih

theorem sameTxMgr_writePages (keys : List (UInt32 × ℕ)) : Within SameTxMgr (writePages keys) := by
  induction keys with
  | nil => exact Within.pure 0
  | cons key rest ih =>
      refine Within.bind (sameTxMgr_getPage _ _) fun found => ?_
      cases found with
      | none => exact ih
      | some page =>
          exact Within.bind (sameTxMgr_onStorage _) fun _ => Within.bind ih fun _ => Within.pure _

theorem sameTxMgr_writeBack (active : ActiveTxn) : Within SameTxMgr (writeBack active) := by
  have hflush : ∀ call, Within SameTxMgr
      (orAbortPages active.dirtyPages (onStorage (StorageM.flush call))) :=
    fun call => sameTxMgr_orAbortPages _ (sameTxMgr_onStorage _)
  have hrest : Within SameTxMgr (do
      let written ← orAbortPages active.dirtyPages (writePages active.dirtyPages)
      orAbortPages active.dirtyPages (onStorage StorageM.flushMetadata)
      return written : VolM ℕ) :=
    Within.bind (sameTxMgr_orAbortPages _ (sameTxMgr_writePages _)) fun _ =>
      Within.bind (hflush .flushMetadata) fun _ => Within.pure _
  refine Within.bind (hflush .flushData) fun _ => Within.bind Within.get fun v => Within.ite ?_ hrest
  refine Within.bind (sameTxMgr_orAbortPages _ ?_) fun _ => hrest
  exact Within.bind (sameTxMgr_journalPages _ _) fun _ => sameTxMgr_onLog _

theorem sameTxMgr_commitBmap : Within SameTxMgr commitBmap := by
  refine Within.bind Within.get fun v => ?_
  cases v.bmap with
  | none => exact Within.pure _
  | some bmap => exact Within.bind (sameTxMgr_onStorage _) fun _ => fun _ => rfl

/-- A transaction that is closed stays closed. -/
def StaysClosed (v v' : Volume) : Prop :=
  v.txMgr.active = none → v'.txMgr.active = none

instance : IsPreorder Volume StaysClosed where
  refl _ := id
  trans _ _ _ h h' := h' ∘ h

theorem staysClosed_of_sameTxMgr {α : Type} {x : VolM α} (h : Within SameTxMgr x) :
    Within StaysClosed x := by
  intro v hclosed
  rw [h v]
  exact hclosed

theorem active_of_commitPages (v : Volume) : (final (commitPages v)).txMgr.active = none := by
  unfold commitPages
  rw [bind_ok (get_apply v)]
  cases hactive : v.txMgr.active with
  | none => exact hactive
  | some active =>
      have hrest : Within StaysClosed (do
          let written ← writeBack active
          releasePages active.dirtyPages
          modifyTxMgr fun txMgr => { txMgr with lastCommitted := active.txid }
          return { pagesWritten := written, txid := active.txid } : VolM CommitResult) :=
        Within.bind (staysClosed_of_sameTxMgr (sameTxMgr_writeBack active)) fun _ =>
          Within.bind (fun _ => id) fun _ => Within.bind (fun _ => id) fun _ => Within.pure _
      exact hrest { v with txMgr := { v.txMgr with active := none } } rfl

/-- **A commit closes the transaction**, even when it fails. -/
theorem active_of_commit (v : Volume) : (final (commitTransaction v)).txMgr.active = none := by
  have hpages := active_of_commitPages v
  unfold commitTransaction
  cases hrun : commitPages v with
  | error e w =>
      rw [hrun] at hpages
      rw [bind_error hrun]
      exact hpages
  | ok result w =>
      rw [hrun] at hpages
      have hmap : Within SameTxMgr (do commitBmap; return result : VolM CommitResult) :=
        Within.bind sameTxMgr_commitBmap fun _ => Within.pure _
      rw [bind_ok hrun, hmap w]
      exact hpages

theorem active_of_abort (v : Volume) :
    ∃ w, abortTransaction v = .ok () w ∧ w.txMgr.active = none := by
  refine ⟨_, rfl, ?_⟩
  dsimp only
  split
  · next hactive => exact hactive
  · rfl

/-! ## Operations -/

/-- A transaction is open in both or in neither. -/
def SameOpen (v v' : Volume) : Prop :=
  v'.txMgr.active.isSome = v.txMgr.active.isSome

instance : IsPreorder Volume SameOpen where
  refl _ := rfl
  trans _ _ _ h h' := Eq.trans h' h

theorem steps_sameOpen : Steps SameOpen where
  storage _ _ := rfl
  cache _ _ := rfl
  txn v active _ h := by
    unfold SameOpen
    rw [h]
    rfl
  alloc _ _ _ _ _ _ _ _ := rfl
  free _ _ _ _ _ _ := rfl

/-- **What ends an operation closes its transaction**, and nothing else does. -/
theorem closed_iff {α β : Type} {body : VolM α} (hbody : Within SameOpen body) {close : α → VolM β}
    (hclose : ∀ exit w, (final (close exit w)).txMgr.active = none) {v : Volume}
    (hidle : v.txMgr.active = none) :
    (final ((do
      let _ ← beginTransaction
      let exit ← body
      close exit : VolM β) v)).txMgr.active = none ↔ failed (body v.begun) = false := by
  rw [bind_ok (beginTransaction_of_idle hidle)]
  have hopen := hbody v.begun
  cases hrun : body v.begun with
  | ok exit w =>
      rw [bind_ok hrun]
      exact iff_of_true (hclose exit w) rfl
  | error e w =>
      rw [hrun] at hopen
      rw [bind_error hrun]
      have hsome : w.txMgr.active.isSome = true := hopen
      refine iff_of_false (fun hnone => ?_) (by simp)
      rw [show w.txMgr.active = none from hnone] at hsome
      cases hsome

/-- An abort, and the result of the operation. -/
theorem active_of_abort_return {α : Type} (result : Except StorageError α) (w : Volume) :
    (final ((do abortTransaction; returnExcept result : VolM α) w)).txMgr.active = none := by
  obtain ⟨w', habort, hclosed⟩ := active_of_abort w
  rw [bind_ok habort]
  cases result with
  | ok a => exact hclosed
  | error e => exact hclosed

theorem transaction_closed_iff {α : Type} {body : VolM (Exit α α)} (hbody : Within SameOpen body)
    {v : Volume} (hidle : v.txMgr.active = none) :
    (final (transaction body v)).txMgr.active = none ↔ failed (body v.begun) = false := by
  refine closed_iff hbody (fun exit w => ?_) hidle
  cases exit with
  | commit a =>
      have hcommit := active_of_commit w
      simp only
      cases hend : commitTransaction w with
      | ok result w' =>
          rw [hend] at hcommit
          rw [bind_ok hend]
          exact hcommit
      | error e w' =>
          rw [hend] at hcommit
          rw [bind_error hend]
          exact hcommit
  | abort result => exact active_of_abort_return result w

/-- `write_at_with_interrupt` aborts once more after a failed commit. -/
theorem writeAt_closed_iff (ino : UInt32) (offset : ℕ) (data : List UInt8) (token : List Bool)
    {v : Volume} (hidle : v.txMgr.active = none) :
    (final (writeAtWithInterrupt ino offset data token v)).txMgr.active = none ↔
      failed (writeAtBody ino offset data token v.begun) = false := by
  refine closed_iff (steps_sameOpen.writeAtBody ino offset data token) (fun exit w => ?_) hidle
  cases exit with
  | commit written =>
      have hcommit := active_of_commit w
      simp only
      cases hend : commitTransaction w with
      | ok result w' =>
          have hdone : (tryCatch (do let _ ← commitTransaction) fun e => do
              abortTransaction
              throw e : VolM Unit) w = .ok () w' := tryCatch_ok (bind_ok hend)
          rw [hend] at hcommit
          rw [bind_ok hdone]
          exact hcommit
      | error e w' =>
          obtain ⟨w'', habort, hclosed⟩ := active_of_abort w'
          have hdone : (tryCatch (do let _ ← commitTransaction) fun e => do
              abortTransaction
              throw e : VolM Unit) w = .error e w'' :=
            (tryCatch_error (bind_error hend)).trans (bind_ok habort)
          rw [bind_error hdone]
          exact hclosed
  | abort result => exact active_of_abort_return result w

/-- The volume after a handle was given back. -/
def released (v : Volume) (pageBlock : ℕ) : Volume :=
  { v with
    openHandles := Function.update v.openHandles pageBlock (v.openHandles pageBlock - 1) }

end Volume

namespace Operation

open Volume

/-- A step between the begin of the call's transaction and its end fails, and the failure is
passed on with `?`. -/
def stopsInside (v : Volume) : Operation → Bool
  | writeAt ino offset data => failed (writeAtBody ino offset data [] v.begun)
  | writeAtWithInterrupt ino offset data token => failed (writeAtBody ino offset data token v.begun)
  | truncate ino newSize => failed (truncateBody ino newSize v.begun)
  | fallocate ino offset len mode =>
      !unsupportedMode mode && failed (fallocateBody ino offset len mode v.begun)
  | copyFileRangeExtent srcIno srcOffset dstIno dstOffset len =>
      !decide (srcOffset % blockSize ≠ 0 ∨ dstOffset % blockSize ≠ 0 ∨ len % blockSize ≠ 0 ∨ len = 0) &&
        failed (copyFileRangeBody srcIno srcOffset dstIno dstOffset len v.begun)
  | setattr ino change => failed (setattrBody ino change v.begun)
  | fsync ino => failed (fsyncBody ino v.begun)
  | createFile parentIno name => failed (createFileBody parentIno (encodeUtf16 name) v.begun)
  | mkdir parentIno name => failed (mkdirBody parentIno (encodeUtf16 name) v.begun)
  | mknod parentIno name mode rdev =>
      failed (mknodBody parentIno (encodeUtf16 name) mode rdev v.begun)
  | rename oldParent oldName newParent newName =>
      failed (renameBody oldParent (encodeUtf16 oldName) newParent (encodeUtf16 newName) v.begun)
  | rmdir parentIno name => failed (rmdirBody parentIno (encodeUtf16 name) v.begun)
  | unlinkFile parentIno name => failed (unlinkFileBody parentIno (encodeUtf16 name) v.begun)
  | linkFile parentIno name targetIno =>
      failed (linkFileBody parentIno (encodeUtf16 name) targetIno v.begun)
  | symlink parentIno name target =>
      failed (symlinkBody parentIno (encodeUtf16 name) target.toUTF8.toList v.begun)
  | setxattr ino name value flags =>
      failed (setxattrBody ino name.toUTF8.toList value flags v.begun)
  | removexattr ino name => failed (removexattrBody ino name.toUTF8.toList v.begun)
  | openFile _ => false
  | releaseFile ino =>
      match readInode ino v with
      | .ok inode w => failed (releaseFileBody ino inode (w.released inode.pageBlock).begun)
      | .error _ _ => false

theorem active_of_readInode (ino : UInt32) {v : Volume} (hidle : v.txMgr.active = none) :
    (final (readInode ino v)).txMgr.active = none := by
  have hsame : (final (readInode ino v)).txMgr.active.isSome = v.txMgr.active.isSome :=
    steps_sameOpen.readInode ino v
  rw [hidle] at hsame
  exact Option.isNone_iff_eq_none.mp (by rw [← Option.not_isSome, hsame]; rfl)

theorem releaseFile_closed_iff (ino : UInt32) {v : Volume} (hidle : v.txMgr.active = none) :
    (final (Volume.releaseFile ino v)).txMgr.active = none ↔
      (releaseFile ino).stopsInside v = false := by
  have hread := active_of_readInode ino hidle
  unfold Volume.releaseFile stopsInside
  simp only
  cases hrun : readInode ino v with
  | error e w =>
      rw [hrun] at hread
      rw [bind_error hrun]
      exact iff_of_true hread rfl
  | ok inode w =>
      rw [hrun] at hread
      rw [bind_ok hrun]
      exact transaction_closed_iff (v := w.released inode.pageBlock)
        (steps_sameOpen.releaseFileBody ino inode) hread

/-- **An operation closes its transaction** exactly when no step inside it stops it. -/
theorem closed_iff_not_stopsInside (op : Operation) {v : Volume} (hidle : v.txMgr.active = none) :
    (op.after v).txMgr.active = none ↔ op.stopsInside v = false := by
  have h := steps_sameOpen
  unfold after
  cases op with
  | writeAt ino offset data =>
      rw [run, final_forget]
      exact writeAt_closed_iff ino offset data [] hidle
  | writeAtWithInterrupt ino offset data token =>
      rw [run, final_forget]
      exact writeAt_closed_iff ino offset data token hidle
  | truncate ino newSize => exact transaction_closed_iff (h.truncateBody _ _) hidle
  | fallocate ino offset len mode =>
      rw [run, stopsInside, Volume.fallocate]
      cases hmode : unsupportedMode mode with
      | true => exact iff_of_true hidle rfl
      | false => exact transaction_closed_iff (h.fallocateBody _ _ _ _) hidle
  | copyFileRangeExtent srcIno srcOffset dstIno dstOffset len =>
      rw [run, final_forget, stopsInside, Volume.copyFileRangeExtent]
      split
      · next hskip =>
          rw [decide_eq_true hskip]
          exact iff_of_true hidle rfl
      · next haligned =>
          rw [decide_eq_false haligned]
          exact transaction_closed_iff (h.copyFileRangeBody _ _ _ _ _) hidle
  | setattr ino change => exact transaction_closed_iff (h.setattrBody _ _) hidle
  | fsync ino => exact transaction_closed_iff (h.fsyncBody _) hidle
  | createFile parentIno name =>
      rw [run, final_forget]
      exact transaction_closed_iff (h.createFileBody _ _) hidle
  | mkdir parentIno name =>
      rw [run, final_forget]
      exact transaction_closed_iff (h.mkdirBody _ _) hidle
  | mknod parentIno name mode rdev =>
      rw [run, final_forget]
      exact transaction_closed_iff (h.mknodBody _ _ _ _) hidle
  | rename oldParent oldName newParent newName =>
      rw [run, final_forget]
      exact transaction_closed_iff (h.renameBody _ _ _ _) hidle
  | rmdir parentIno name =>
      rw [run, final_forget]
      exact transaction_closed_iff (h.rmdirBody _ _) hidle
  | unlinkFile parentIno name =>
      rw [run, final_forget]
      exact transaction_closed_iff (h.unlinkFileBody _ _) hidle
  | linkFile parentIno name targetIno =>
      rw [run, final_forget]
      exact transaction_closed_iff (h.linkFileBody _ _ _) hidle
  | symlink parentIno name target =>
      rw [run, final_forget]
      exact transaction_closed_iff (h.symlinkBody _ _ _) hidle
  | setxattr ino name value flags => exact transaction_closed_iff (h.setxattrBody _ _ _ _) hidle
  | removexattr ino name =>
      rw [run, final_forget]
      exact transaction_closed_iff (h.removexattrBody _ _) hidle
  | openFile ino =>
      have hkeeps : Within StaysClosed (Volume.openFile ino) :=
        Within.bind (fun _ => active_of_readInode _) fun _ => fun _ => id
      exact iff_of_true (hkeeps v hidle) rfl
  | releaseFile ino => exact releaseFile_closed_iff ino hidle

/-- A mounted filesystem whose device fails the next call. -/
def failingVolume : Volume where
  ait2 := Mkfs.makePxd 4 24
  aggSize := 4096
  log := none
  storage := { Mkfs.createFilesystemWithBlocks 4096 with faults := [true] }
  bmap := none

/-- A call that is refused for its empty name, and aborts. -/
theorem closed_after_invalid_name :
    ((mknod 18 "" 0x1000 0).after failingVolume).txMgr.active = none :=
  (closed_iff_not_stopsInside (mknod 18 "" 0x1000 0) (v := failingVolume) rfl).mpr rfl

/-- A `setattr` of the root directory whose first read fails: the next begin fails too. -/
theorem open_after_failed_read :
    failingVolume.txMgr.active = none ∧
      ((setattr 18 {}).after failingVolume).txMgr.active = some { txid := 1 } ∧
      failed (beginTransaction ((setattr 18 {}).after failingVolume)) = true := by
  have hafter : ((setattr 18 {}).after failingVolume).txMgr.active = some { txid := 1 } := rfl
  refine ⟨rfl, hafter, ?_⟩
  unfold beginTransaction
  rw [bind_ok (get_apply _), hafter]
  rfl

end Operation

end JfsFuse
