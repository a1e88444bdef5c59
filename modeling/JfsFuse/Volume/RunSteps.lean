import JfsFuse.Volume.BodySteps
import JfsFuse.Volume.Operations

/-!
# What an operation does to a volume

Around the body of an operation stand its begin and its end: a commit, which also writes the
journal and the allocation map, or an abort, which rolls the map back.  `RunSteps` adds the steps of
these to those of a body, and every operation is made of them.
-/

namespace JfsFuse

open Program

namespace Volume

/-- The steps of a body are in `R`, and so are the begin and the end of an operation. -/
structure CallSteps (R : Volume → Volume → Prop) : Prop extends PageSteps R where
  begin : ∀ v, v.txMgr.active = none → R v v.begun
  commit : Within R commitTransaction
  abort : Within R abortTransaction
  handles : ∀ v openHandles, R v { v with openHandles }

namespace CallSteps

variable {R : Volume → Volume → Prop} (h : CallSteps R) [IsPreorder Volume R]

include h

theorem beginTransaction : Within R beginTransaction := by
  intro v
  cases hactive : v.txMgr.active with
  | some active =>
      unfold Volume.beginTransaction
      rw [bind_ok (get_apply v), hactive]
      exact refl_of R v
  | none =>
      rw [beginTransaction_of_idle hactive]
      exact h.begin v hactive

theorem transaction {α : Type} {body : VolM (Exit α α)} (hbody : Within R body) :
    Within R (transaction body) := by
  refine Within.bind h.beginTransaction fun _ => Within.bind hbody fun exit => ?_
  cases exit with
  | commit a => exact Within.bind h.commit fun _ => Within.pure _
  | abort result => exact Within.bind h.abort fun _ => Within.returnExcept _

/-! ## Operations -/

/-- How a write ends. -/
theorem endWrite (exit : Exit ℕ ℕ) : Within R (match exit with
    | .commit written => do
        tryCatch (do let _ ← Volume.commitTransaction) fun e => do
          Volume.abortTransaction
          throw e
        return written
    | .abort result => do
        Volume.abortTransaction
        returnExcept result : VolM ℕ) := by
  cases exit with
  | commit written =>
      refine Within.bind (Within.tryCatch ?_ fun _ => ?_) fun _ => Within.pure _
      · exact Within.bind h.commit fun _ => Within.pure _
      · exact Within.bind h.abort fun _ => Within.throw _
  | abort result => exact Within.bind h.abort fun _ => Within.returnExcept _

theorem writeAtWithInterrupt (ino : UInt32) (offset : ℕ) (data : List UInt8) (token : List Bool) :
    Within R (writeAtWithInterrupt ino offset data token) :=
  Within.bind h.beginTransaction fun _ => Within.bind (h.writeAtBody _ _ _ _) h.endWrite

theorem releaseFile (ino : UInt32) : Within R (releaseFile ino) := by
  refine Within.bind (h.readInode _) fun inode => Within.bind (fun v => h.handles v _) fun _ => ?_
  exact h.transaction (h.releaseFileBody _ _)

omit h in
theorem forget {α : Type} {x : VolM α} (hx : Within R x) : Within R (Operation.forget x) :=
  Within.bind hx fun _ => Within.pure _

/-- **Every operation is made of these steps.** -/
theorem operation (op : Operation) : Within R op.run := by
  cases op with
  | writeAt ino offset data => exact forget (h.writeAtWithInterrupt _ _ _ _)
  | writeAtWithInterrupt ino offset data token => exact forget (h.writeAtWithInterrupt _ _ _ _)
  | truncate ino newSize => exact h.transaction (h.truncateBody _ _)
  | fallocate ino offset len mode =>
      exact Within.ite (Within.throw _) (h.transaction (h.fallocateBody _ _ _ _))
  | copyFileRangeExtent srcIno srcOffset dstIno dstOffset len =>
      exact forget (Within.ite (Within.pure _) (h.transaction (h.copyFileRangeBody _ _ _ _ _)))
  | setattr ino change => exact h.transaction (h.setattrBody _ _)
  | fsync ino => exact h.transaction (h.fsyncBody _)
  | createFile parentIno name => exact forget (h.transaction (h.createFileBody _ _))
  | mkdir parentIno name => exact forget (h.transaction (h.mkdirBody _ _))
  | mknod parentIno name mode rdev => exact forget (h.transaction (h.mknodBody _ _ _ _))
  | rename oldParent oldName newParent newName => exact forget (h.transaction (h.renameBody _ _ _ _))
  | rmdir parentIno name => exact forget (h.transaction (h.rmdirBody _ _))
  | unlinkFile parentIno name => exact forget (h.transaction (h.unlinkFileBody _ _))
  | linkFile parentIno name targetIno => exact forget (h.transaction (h.linkFileBody _ _ _))
  | symlink parentIno name target => exact forget (h.transaction (h.symlinkBody _ _ _))
  | setxattr ino name value flags => exact h.transaction (h.setxattrBody _ _ _ _)
  | removexattr ino name => exact forget (h.transaction (h.removexattrBody _ _))
  | openFile ino => exact Within.bind (h.readInode _) fun _ => fun v => h.handles v _
  | releaseFile ino => exact h.releaseFile ino

/-- **A run of operations.** -/
theorem afterAll (ops : List Operation) (v : Volume) : R v (Operation.afterAll ops v) := by
  induction ops generalizing v with
  | nil => exact refl_of R v
  | cons op rest ih => exact trans_of R (h.operation op v) (ih (op.after v))

end CallSteps

/-- The steps that a whole operation is made of are in `R`. -/
structure RunSteps (R : Volume → Volume → Prop) : Prop extends Steps R where
  txMgr : ∀ v txMgr, R v { v with txMgr }
  log : ∀ v log storage, R v { v with log, storage }
  flushed : ∀ v bmap bmap' s, v.bmap = some bmap → bmap.commit v.storage = .ok bmap' s →
    R v { v with storage := s, bmap := some bmap' }
  rolledBack : ∀ v, R v { v with bmap := v.bmap.map BlockAllocMap.rollback }
  handles : ∀ v openHandles, R v { v with openHandles }

namespace RunSteps

variable {R : Volume → Volume → Prop} (h : RunSteps R) [IsPreorder Volume R]

include h

omit [IsPreorder Volume R] in
theorem modifyTxMgr (f : TransactionManager → TransactionManager) : Within R (modifyTxMgr f) :=
  fun v => h.txMgr v _

theorem onLog (x : LogM Unit) : Within R (onLog x) := by
  intro v
  unfold Volume.onLog
  cases v.log with
  | none => exact refl_of R v
  | some manager =>
      simp only
      split
      · exact h.log v _ _
      · exact h.log v _ _

/-! ## Commit -/

theorem orAbortPages {α : Type} (keys : List (UInt32 × ℕ)) {x : VolM α} (hx : Within R x) :
    Within R (orAbortPages keys x) :=
  Within.tryCatch hx fun _ => Within.bind (h.modifyCache _) fun _ => Within.throw _

theorem getPage (inode : UInt32) (block : ℕ) : Within R (getPage inode block) :=
  Within.bind Within.get fun _ => Within.bind (h.modifyCache _) fun _ => Within.pure _

theorem journalPages (txid : ℕ) (keys : List (UInt32 × ℕ)) : Within R (journalPages txid keys) := by
  induction keys with
  | nil => exact Within.pure ()
  | cons key rest ih =>
      refine Within.bind (h.getPage _ _) fun found => ?_
      cases found with
      | none => exact ih
      | some page => exact Within.bind (h.onLog _) fun _ => ih

theorem writePages (keys : List (UInt32 × ℕ)) : Within R (writePages keys) := by
  induction keys with
  | nil => exact Within.pure 0
  | cons key rest ih =>
      refine Within.bind (h.getPage _ _) fun found => ?_
      cases found with
      | none => exact ih
      | some page => exact Within.bind (h.onStorage _) fun _ => Within.bind ih fun _ => Within.pure _

theorem writeBack (active : ActiveTxn) : Within R (writeBack active) := by
  have hrest : Within R (do
      let written ← Volume.orAbortPages active.dirtyPages (Volume.writePages active.dirtyPages)
      Volume.orAbortPages active.dirtyPages (Volume.onStorage StorageM.flushMetadata)
      return written : VolM ℕ) :=
    Within.bind (h.orAbortPages _ (h.writePages _)) fun _ =>
      Within.bind (h.orAbortPages _ (h.onStorage _)) fun _ => Within.pure _
  refine Within.bind (h.orAbortPages _ (h.onStorage _)) fun _ => Within.bind Within.get fun v =>
    Within.ite ?_ hrest
  refine Within.bind (h.orAbortPages _ ?_) fun _ => hrest
  exact Within.bind (h.journalPages _ _) fun _ => h.onLog _

theorem commitPages : Within R commitPages := by
  refine Within.bind Within.get fun v => ?_
  cases v.txMgr.active with
  | none => exact Within.throw _
  | some active =>
      refine Within.bind (h.modifyTxMgr _) fun _ => Within.bind (h.writeBack _) fun _ => ?_
      refine Within.bind (h.modifyCache _) fun _ => Within.bind (h.modifyTxMgr _) fun _ => ?_
      exact Within.pure _

theorem commitBmap : Within R commitBmap := by
  refine Within.get_bind fun v => ?_
  cases hbmap : v.bmap with
  | none => exact refl_of R v
  | some bmap =>
      simp only
      cases hcommit : bmap.commit v.storage with
      | error e s =>
          have hrun : Volume.onStorage bmap.commit v = .error e { v with storage := s } := zoom_error hcommit
          rw [bind_error hrun]
          exact h.storage v s
      | ok bmap' s =>
          have hrun : Volume.onStorage bmap.commit v = .ok bmap' { v with storage := s } := zoom_ok hcommit
          rw [bind_ok hrun]
          exact h.flushed v bmap bmap' s hbmap hcommit

theorem commitTransaction : Within R commitTransaction :=
  Within.bind h.commitPages fun _ => Within.bind h.commitBmap fun _ => Within.pure _

/-! ## Abort -/

theorem abortTransaction : Within R abortTransaction := by
  intro v
  have hrolled := h.rolledBack v
  show R v (final (Volume.abortTransaction v))
  unfold Volume.abortTransaction
  rw [modify_apply]
  dsimp only [final_ok]
  split
  · exact hrolled
  · exact trans_of R hrolled (trans_of R (h.txMgr _ _) (h.cache _ _))

theorem calls : CallSteps R where
  toPageSteps := h.toPageSteps
  begin v _ := h.txMgr v _
  commit := h.commitTransaction
  abort := h.abortTransaction
  handles := h.handles

theorem endWrite (exit : Exit ℕ ℕ) : Within R (match exit with
    | .commit written => do
        tryCatch (do let _ ← Volume.commitTransaction) fun e => do
          Volume.abortTransaction
          throw e
        return written
    | .abort result => do
        Volume.abortTransaction
        returnExcept result : VolM ℕ) :=
  h.calls.endWrite exit

theorem afterAll (ops : List Operation) (v : Volume) : R v (Operation.afterAll ops v) :=
  h.calls.afterAll ops v

end RunSteps

end Volume

end JfsFuse
