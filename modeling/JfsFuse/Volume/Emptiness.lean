import JfsFuse.Volume.Operations

/-!
# Empty directories

`rmdir` counts the entries of a directory and takes one with up to two for empty.  `rename` lists
the entries of the directory that it would replace and wants none at all.  A new directory has the
entries `.` and `..`, so it can be removed but not replaced.

That a call is refused for this reason can be told from its error, since no other part of the two
calls has the same one.
-/

namespace JfsFuse

open ByteBuf Program

/-- The answer of `rename` to a directory in the place of another one. -/
def notEmptyError : StorageError :=
  .other "destination directory not empty"

/-- The error says nothing about a directory that is not empty. -/
def Unrelated (e : StorageError) : Prop :=
  e ≠ .directoryNotEmpty ∧ e ≠ notEmptyError

theorem unrelated_other {message : String} (h : message.toList.head? ≠ some 'd') : Unrelated (.other message) := by
  refine ⟨by simp, fun heq => h ?_⟩
  rw [StorageError.other.inj heq]
  decide

/-- A message that goes on after `first`. -/
theorem unrelated_append {first rest : String} (hne : first.toList ≠ []) (h : first.toList.head? ≠ some 'd') :
    Unrelated (.other (first ++ rest)) := by
  apply unrelated_other
  rw [String.toList_append, List.head?_append_of_ne_nil _ hne]
  exact h

theorem unrelated_panic : Unrelated .panic :=
  ⟨by decide, by decide⟩

theorem unrelated_io : Unrelated .io :=
  ⟨by decide, by decide⟩

/-! ## The device -/

namespace StorageM

theorem raises_attempt : Raises Unrelated attempt := by
  intro s e s' hrun
  unfold attempt at hrun
  split at hrun
  · cases hrun
  · cases hrun
  · cases hrun
    exact unrelated_io

theorem raises_readBytes (offset n : ℕ) : Raises Unrelated (readBytes offset n) := by
  refine raises_attempt.bind fun _ => Raises.get_bind fun s => Raises.returnExcept fun e he => ?_
  unfold Storage.readResult at he
  split at he
  · simp only at he
    split at he
    · cases he
      simp only [String.append_assoc]
      exact unrelated_append (by decide) (by decide)
    · cases he
  · split at he
    · cases he
    · cases he
      exact ⟨by simp, by simp [notEmptyError]⟩

theorem unrelated_writeRefused {s : Storage} {offset n : ℕ} {e : StorageError}
    (h : s.writeRefused offset n = some e) : Unrelated e := by
  unfold Storage.writeRefused at h
  split at h
  · simp only at h
    split at h
    · cases h
      simp only [String.append_assoc]
      exact unrelated_append (by decide) (by decide)
    · cases h
  · split at h
    · cases h
      exact ⟨by decide, by decide⟩
    · cases h

theorem unrelated_writeBlockRefused {s : Storage} {block : ℕ} {data : List UInt8} {e : StorageError}
    (h : s.writeBlockRefused block data = some e) : Unrelated e := by
  unfold Storage.writeBlockRefused at h
  split at h
  · exact unrelated_writeRefused h
  · split at h
    · cases h
      exact ⟨by decide, by decide⟩
    · unfold Storage.validateBlockWrite at h
      simp only at h
      split at h
      · cases h
        simp only [String.append_assoc]
        exact unrelated_append (by decide) (by decide)
      · split at h
        · cases h
          exact ⟨by simp, by simp [notEmptyError]⟩
        · cases h

theorem raises_writeBytes (offset : ℕ) (data : List UInt8) : Raises Unrelated (writeBytes offset data) := by
  refine raises_attempt.bind fun _ => Raises.get_bind fun s => ?_
  cases hrefused : s.writeRefused offset data.length with
  | some e => exact Raises.throw (unrelated_writeRefused hrefused)
  | none => exact Raises.set _

theorem raises_writeBlock (block : ℕ) (data : List UInt8) : Raises Unrelated (writeBlock block data) := by
  refine raises_attempt.bind fun _ => Raises.get_bind fun s => ?_
  cases hrefused : s.writeBlockRefused block data with
  | some e => exact Raises.throw (unrelated_writeBlockRefused hrefused)
  | none => exact Raises.set _

theorem raises_flush (call : StorageCall) : Raises Unrelated (flush call) :=
  raises_attempt.bind fun _ => Raises.modify _

end StorageM

namespace LogManager

theorem raises_onStorage {α : Type} {x : StorageM α} (hx : Raises Unrelated x) : Raises Unrelated (onStorage x) :=
  Raises.zoom hx

theorem raises_modifyManager (f : LogManager → LogManager) : Raises Unrelated (modifyManager f) :=
  Raises.modify _

theorem raises_writePages (startPage i count : ℕ) : Raises Unrelated (writePages startPage i count) := by
  induction count generalizing i with
  | zero => exact Raises.pure ()
  | succ count ih =>
      refine Raises.get_bind fun _ => Raises.bind ?_ fun _ => ih (i + 1)
      exact Raises.get_bind fun _ => raises_onStorage (StorageM.raises_writeBytes _ _)

theorem raises_flushJournal : Raises Unrelated flushJournal := by
  have hbuffer : Raises Unrelated writeBuffer :=
    Raises.get_bind fun _ => Raises.ite (raises_writePages _ _ _) (Raises.pure ())
  refine hbuffer.bind fun _ => (raises_onStorage (StorageM.raises_flush _)).bind fun _ => ?_
  refine (raises_onStorage (StorageM.raises_flush _)).bind fun _ => (raises_modifyManager _).bind fun _ => ?_
  exact Raises.get_bind fun _ => Raises.get_bind fun _ => raises_onStorage (StorageM.raises_writeBytes _ _)

theorem raises_makeRoom (recordTotal : ℕ) : Raises Unrelated (makeRoom recordTotal) := by
  refine Raises.get_bind fun _ => Raises.ite ?_ (Raises.pure ())
  exact raises_flushJournal.bind fun _ => raises_modifyManager _

theorem raises_copyToBuffer (off : ℕ) (bytes : List UInt8) : Raises Unrelated (copyToBuffer off bytes) :=
  Raises.get_bind fun _ => Raises.ite (Raises.throw unrelated_panic) (raises_modifyManager _)

theorem raises_appendLogRecord (txid block : ℕ) (data : List UInt8) :
    Raises Unrelated (appendLogRecord txid block data) := by
  refine (raises_makeRoom _).bind fun _ => Raises.get_bind fun _ => ?_
  refine (raises_copyToBuffer _ _).bind fun _ => (raises_modifyManager _).bind fun _ => ?_
  exact (raises_copyToBuffer _ _).bind fun _ => raises_modifyManager _

theorem raises_commitTransaction (txid : ℕ) : Raises Unrelated (commitTransaction txid) := by
  refine (raises_makeRoom _).bind fun _ => Raises.get_bind fun _ => ?_
  refine (raises_copyToBuffer _ _).bind fun _ => (raises_modifyManager _).bind fun _ => ?_
  exact raises_flushJournal.bind fun _ => raises_modifyManager _

end LogManager

namespace BlockAllocMap

theorem raises_commitPages (m : BlockAllocMap) (pages : List ℕ) : Raises Unrelated (commitPages m pages) := by
  induction pages with
  | nil => exact Raises.pure ()
  | cons page rest ih =>
      refine Raises.get_bind fun _ => Raises.ite ih ?_
      refine (StorageM.raises_readBytes _ _).bind fun _ => ?_
      exact (StorageM.raises_writeBlock _ _).bind fun _ => ih

theorem raises_commit (m : BlockAllocMap) : Raises Unrelated m.commit := by
  refine (m.raises_commitPages _).bind fun _ => (StorageM.raises_readBytes _ _).bind fun _ => ?_
  exact (StorageM.raises_writeBlock _ _).bind fun _ => Raises.pure _

end BlockAllocMap

namespace Volume

/-! ## The parts of the calls -/

theorem raises_onStorage {α : Type} {x : StorageM α} (hx : Raises Unrelated x) : Raises Unrelated (onStorage x) :=
  Raises.zoom hx

theorem raises_onLog {x : LogM Unit} (hx : Raises Unrelated x) : Raises Unrelated (onLog x) := by
  intro v e v' hrun
  unfold onLog at hrun
  split at hrun
  · cases hrun
  · split at hrun
    · cases hrun
    · next hlog =>
        cases hrun
        exact hx _ _ _ hlog

theorem raises_getPage (inode : UInt32) (block : ℕ) : Raises Unrelated (getPage inode block) :=
  Raises.of_ok fun _ => ⟨_, _, rfl⟩

theorem raises_getOrLoad (inode : UInt32) (block index : ℕ) : Raises Unrelated (getOrLoad inode block index) := by
  refine (raises_getPage inode block).bind fun found => ?_
  cases found with
  | some page => exact Raises.pure page
  | none =>
      have hload : Raises Unrelated (loadData inode block) := by
        refine Raises.get_bind fun v => ?_
        cases v.pageCache.otherCopy inode block with
        | some data => exact Raises.pure data
        | none =>
            exact (raises_onStorage (StorageM.raises_readBytes _ _)).tryCatch fun _ _ => Raises.pure []
      exact hload.bind fun _ => Raises.bind (Raises.modify _) fun _ => Raises.pure _

theorem raises_updateInodePage (ino : UInt32) (block offset : ℕ) (f : List UInt8 → List UInt8) :
    Raises Unrelated (updateInodePage ino block offset f) := by
  refine (raises_getOrLoad ino block 0).bind fun _ => Raises.get_bind fun v => ?_
  refine Raises.bind (Raises.returnExcept fun e he => ?_) fun _ => Raises.modify _
  unfold PageCache.updateForWrite at he
  split at he
  · cases he
    exact ⟨by decide, by decide⟩
  · cases he

theorem raises_markPageDirty (inode : UInt32) (block : ℕ) : Raises Unrelated (markPageDirty inode block) := by
  refine Raises.get_bind fun v => ?_
  cases v.txMgr.active with
  | none => exact Raises.throw (unrelated_other (by decide))
  | some active => exact Raises.bind (Raises.modify _) fun _ => Raises.modify _

theorem raises_orAbortPages {α : Type} (keys : List (UInt32 × ℕ)) {x : VolM α} (hx : Raises Unrelated x) :
    Raises Unrelated (orAbortPages keys x) := by
  intro v e v' hrun
  unfold orAbortPages at hrun
  cases h : x v with
  | ok a w =>
      rw [tryCatch_ok h] at hrun
      cases hrun
  | error e' w =>
      rw [tryCatch_error h] at hrun
      cases hrun
      exact hx _ _ _ h

theorem raises_journalPages (txid : ℕ) (keys : List (UInt32 × ℕ)) : Raises Unrelated (journalPages txid keys) := by
  induction keys with
  | nil => exact Raises.pure ()
  | cons key rest ih =>
      refine (raises_getPage key.1 key.2).bind fun page => ?_
      cases page with
      | none => exact ih
      | some page => exact (raises_onLog (LogManager.raises_appendLogRecord _ _ _)).bind fun _ => ih

theorem raises_writePages (keys : List (UInt32 × ℕ)) : Raises Unrelated (writePages keys) := by
  induction keys with
  | nil => exact Raises.pure 0
  | cons key rest ih =>
      refine (raises_getPage key.1 key.2).bind fun page => ?_
      cases page with
      | none => exact ih
      | some page =>
          exact (raises_onStorage (StorageM.raises_writeBlock _ _)).bind fun _ => ih.bind fun _ => Raises.pure _

theorem raises_writeBack (active : ActiveTxn) : Raises Unrelated (writeBack active) := by
  have hflush : ∀ call, Raises Unrelated (orAbortPages active.dirtyPages (onStorage (StorageM.flush call))) :=
    fun call => raises_orAbortPages _ (raises_onStorage (StorageM.raises_flush call))
  have hrest : Raises Unrelated (do
      let written ← orAbortPages active.dirtyPages (writePages active.dirtyPages)
      orAbortPages active.dirtyPages (onStorage StorageM.flushMetadata)
      return written) :=
    (raises_orAbortPages _ (raises_writePages _)).bind fun _ => (hflush _).bind fun _ => Raises.pure _
  refine (hflush _).bind fun _ => Raises.get_bind fun _ => Raises.ite ?_ hrest
  refine Raises.bind (raises_orAbortPages _ ?_) fun _ => hrest
  exact (raises_journalPages _ _).bind fun _ => raises_onLog (LogManager.raises_commitTransaction _)

theorem raises_commitTransaction : Raises Unrelated commitTransaction := by
  have hpages : Raises Unrelated commitPages := by
    refine Raises.get_bind fun v => ?_
    cases v.txMgr.active with
    | none => exact Raises.throw (unrelated_other (by decide))
    | some active =>
        refine Raises.bind (Raises.modify _) fun _ => (raises_writeBack active).bind fun _ => ?_
        exact Raises.bind (Raises.modify _) fun _ => Raises.bind (Raises.modify _) fun _ => Raises.pure _
  have hmap : Raises Unrelated commitBmap := by
    refine Raises.get_bind fun v => ?_
    cases v.bmap with
    | none => exact Raises.pure ()
    | some m => exact (raises_onStorage m.raises_commit).bind fun _ => Raises.modify _
  exact hpages.bind fun _ => hmap.bind fun _ => Raises.pure _

/-! ## Inodes and directories -/

theorem unrelated_sliceOrPanic {data : List UInt8} {off n : ℕ} {e : StorageError}
    (h : sliceOrPanic data off n = .error e) : Unrelated e := by
  unfold sliceOrPanic at h
  split at h
  · cases h
  · cases h
    exact unrelated_panic

theorem unrelated_findSlot {data : List UInt8} {fileset number i count : ℕ} {e : StorageError}
    (h : findSlot data fileset number i count = .error e) : Unrelated e := by
  induction count generalizing i with
  | zero => cases h
  | succ count ih =>
      unfold findSlot at h
      cases hslice : sliceOrPanic data (i * disize) disize with
      | error e' =>
          rw [hslice] at h
          cases h
          exact unrelated_sliceOrPanic hslice
      | ok dinode =>
          rw [hslice] at h
          simp only [bind, Except.bind] at h
          split at h
          · cases h
          · exact ih h

theorem raises_findInodeFrom (fileset number block count : ℕ) :
    Raises Unrelated (findInodeFrom fileset number block count) := by
  induction count generalizing block with
  | zero => exact Raises.pure _
  | succ count ih =>
      refine Raises.get_bind fun v => Raises.ite (ih _) ?_
      have hpage : Raises Unrelated (tablePage block) := by
        refine Raises.get_bind fun v => ?_
        cases v.pageCache.peekBlock block with
        | some page => exact Raises.pure _
        | none => exact raises_onStorage (StorageM.raises_readBytes _ _)
      refine hpage.bind fun data => Raises.bind (Raises.returnExcept fun e => unrelated_findSlot) fun found => ?_
      cases found with
      | some offset => exact Raises.pure _
      | none => exact ih _

theorem raises_readInode (ino : UInt32) : Raises Unrelated (readInode ino) := by
  have hplace : Raises Unrelated (findInodePage ino) := by
    refine Raises.get_bind fun v => (raises_findInodeFrom _ _ _ _).bind fun place => ?_
    cases place with
    | some place => exact Raises.pure _
    | none =>
        refine Raises.throw ?_
        simp only [String.append_assoc]
        exact unrelated_append (by decide) (by decide)
  refine hplace.bind fun place => Raises.get_bind fun v => ?_
  obtain ⟨block, offset⟩ := place
  have hrest : ∀ data, Raises Unrelated (do
      let dinode ← returnExcept (sliceOrPanic data offset disize)
      return { dinode, ino, pageBlock := block, pageOffset := offset } : VolM Inode) :=
    fun data => Raises.bind (Raises.returnExcept fun e => unrelated_sliceOrPanic) fun _ => Raises.pure _
  dsimp only
  split
  · exact (Raises.pure _).bind hrest
  · exact (raises_onStorage (StorageM.raises_readBytes _ _)).bind hrest

theorem unrelated_dtree {inode : Inode} {e : StorageError} (h : inode.dtree = .error e) : Unrelated e := by
  unfold Inode.dtree Dtree.fromInodeData at h
  split at h
  · cases h
    exact unrelated_other (by decide)
  · cases h

theorem raises_readDtree (inode : Inode) : Raises Unrelated (readDtree inode) :=
  Raises.returnExcept fun _ => unrelated_dtree

end Volume

namespace Dtree

theorem unrelated_readEntry {t : Dtree} {offset : ℕ} {e : StorageError} (h : t.readEntry offset = .error e) :
    Unrelated e := by
  unfold readEntry parseLdtEntry at h
  split at h
  · cases h
    exact unrelated_other (by decide)
  · simp only [bind, Except.bind] at h
    split at h
    · next hslice =>
        cases h
        exact Volume.unrelated_sliceOrPanic hslice
    · cases h

theorem unrelated_lookupIn {t : Dtree} {name : List UInt16} {slots : List ℕ} {e : StorageError}
    (h : t.lookupIn name slots = .error e) : Unrelated e := by
  induction slots with
  | nil => cases h
  | cons slot rest ih =>
      unfold lookupIn at h
      split at h
      · exact ih h
      · cases hentry : t.readEntry (slot * dtSlotSize) with
        | error e' =>
            rw [hentry] at h
            cases h
            exact unrelated_readEntry hentry
        | ok entry =>
            rw [hentry] at h
            simp only [bind, Except.bind] at h
            split at h
            · cases h
            · exact ih h

theorem unrelated_lookup {t : Dtree} {name : List UInt16} {e : StorageError} (h : t.lookup name = .error e) :
    Unrelated e := by
  unfold lookup at h
  split at h
  · cases h
  · exact unrelated_lookupIn h

theorem unrelated_entriesIn {t : Dtree} {slots : List ℕ} {e : StorageError} (h : t.entriesIn slots = .error e) :
    Unrelated e := by
  induction slots with
  | nil => cases h
  | cons slot rest ih =>
      unfold entriesIn at h
      split at h
      · exact ih h
      · cases hentry : t.readEntry (slot * dtSlotSize) with
        | error e' =>
            rw [hentry] at h
            cases h
            exact unrelated_readEntry hentry
        | ok entry =>
            rw [hentry] at h
            cases hrest : t.entriesIn rest with
            | error e' =>
                rw [hrest] at h
                cases h
                exact ih hrest
            | ok entries =>
                rw [hrest] at h
                cases h

theorem unrelated_entries {t : Dtree} {e : StorageError} (h : t.entries = .error e) : Unrelated e :=
  unrelated_entriesIn h

theorem unrelated_readStblEntry {t : Dtree} {idx : ℕ} {e : StorageError} (h : t.readStblEntry idx = .error e) :
    Unrelated e := by
  unfold readStblEntry at h
  split at h
  · cases h
    exact unrelated_other (by decide)
  · cases h

theorem raises_setStblEntry (idx slot : ℕ) : Raises Unrelated (setStblEntry idx slot) :=
  Raises.get_bind fun _ => Raises.ite (Raises.throw (unrelated_other (by decide))) (Raises.set _)

theorem raises_setNextindex (val : ℕ) : Raises Unrelated (setNextindex val) :=
  Raises.get_bind fun _ => Raises.ite (Raises.set _) (Raises.pure _)

theorem raises_insert (name : List UInt16) (ino index : UInt32) : Raises Unrelated (insert name ino index) := by
  refine Raises.get_bind fun t => Raises.bind (Raises.returnExcept fun e => unrelated_lookup) fun found => ?_
  refine Raises.ite (Raises.pure _) (Raises.ite (Raises.pure _) ?_)
  have halloc : Raises Unrelated (allocSlot t.nextIndex) :=
    Raises.get_bind fun t => Raises.ite (Raises.bind (Raises.set _) fun _ => Raises.pure _) (Raises.pure _)
  refine halloc.bind fun slot => Raises.ite (Raises.pure _) ?_
  have hwrite : Raises Unrelated (writeLdtEntry (slot * dtSlotSize) ino name index) :=
    Raises.get_bind fun _ => Raises.ite (Raises.throw (unrelated_other (by decide))) (Raises.set _)
  refine hwrite.bind fun _ => (raises_setStblEntry _ _).bind fun _ => ?_
  exact (raises_setNextindex _).bind fun _ => Raises.pure _

theorem raises_shiftStbl (count j : ℕ) : Raises Unrelated (shiftStbl j count) := by
  induction count generalizing j with
  | zero => exact Raises.pure ()
  | succ count ih =>
      refine Raises.get_bind fun t => Raises.bind (Raises.returnExcept fun e => unrelated_readStblEntry) fun _ => ?_
      exact ((raises_setStblEntry _ _).tryCatch fun _ _ => Raises.pure ()).bind fun _ => ih (j + 1)

theorem raises_removeIn (name : List UInt16) (k : ℕ) (slots : List ℕ) : Raises Unrelated (removeIn name k slots) := by
  induction slots generalizing k with
  | nil => exact Raises.pure _
  | cons slot rest ih =>
      refine Raises.get_bind fun t => Raises.ite (ih _) ?_
      refine Raises.bind (Raises.returnExcept fun e => unrelated_readEntry) fun entry => Raises.ite ?_ (ih _)
      refine Raises.get_bind fun _ => (raises_shiftStbl _ _).bind fun _ => ?_
      refine ((raises_setStblEntry _ _).tryCatch fun _ _ => Raises.pure ()).bind fun _ => ?_
      exact (raises_setNextindex _).bind fun _ => Raises.bind (Raises.modify _) fun _ => Raises.pure _

theorem raises_remove (name : List UInt16) : Raises Unrelated (remove name) :=
  Raises.get_bind fun _ => raises_removeIn name 0 _

end Dtree

namespace Volume

theorem raises_runDtree {α : Type} {x : Dtree.DtreeM α} (hx : Raises Unrelated x) (dtree : Dtree) :
    Raises Unrelated (runDtree x dtree) := by
  unfold runDtree
  split
  · exact Raises.pure _
  · next h => exact Raises.throw (hx _ _ _ h)

theorem raises_numEntries (dtree : Dtree) : Raises Unrelated (numEntries dtree) := by
  unfold numEntries
  split
  · exact Raises.pure _
  · exact Raises.throw unrelated_panic
  · exact Raises.pure _

theorem raises_nextEntryIndex (parentIno : UInt32) : Raises Unrelated (nextEntryIndex parentIno) :=
  (raises_readInode _).bind fun parent => (raises_readDtree parent).bind fun dtree => raises_numEntries dtree

theorem raises_insertDirEntry (parentIno : UInt32) (name : List UInt16) (childIno index : UInt32) :
    Raises Unrelated (insertDirEntry parentIno name childIno index) := by
  refine (raises_readInode _).bind fun inode => (raises_readDtree inode).bind fun dtree => ?_
  refine (raises_runDtree (Dtree.raises_insert _ _ _) dtree).bind fun result => ?_
  exact Raises.ite ((raises_updateInodePage _ _ _ _).bind fun _ => Raises.pure _) (Raises.pure _)

theorem raises_removeDirEntry (parentIno : UInt32) (name : List UInt16) :
    Raises Unrelated (removeDirEntry parentIno name) := by
  refine (raises_readInode _).bind fun inode => (raises_readDtree inode).bind fun dtree => ?_
  refine (raises_runDtree (Dtree.raises_remove _) dtree).bind fun result => ?_
  exact Raises.ite ((raises_updateInodePage _ _ _ _).bind fun _ => Raises.pure _) (Raises.pure _)

theorem raises_markInodeDirty (ino : UInt32) : Raises Unrelated (markInodeDirty ino) :=
  (raises_readInode _).bind fun _ => raises_markPageDirty _ _

theorem raises_changeNlink (ino : UInt32) (f : ℕ → ℕ) : Raises Unrelated (changeNlink ino f) :=
  (raises_readInode _).bind fun _ => (raises_updateInodePage _ _ _ _).bind fun _ => raises_markPageDirty _ _

theorem raises_moveDirectory (childIno oldParent newParent : UInt32) :
    Raises Unrelated (moveDirectory childIno oldParent newParent) :=
  (raises_readInode _).bind fun _ => (raises_updateInodePage _ _ _ _).bind fun _ =>
    (raises_markPageDirty _ _).bind fun _ => (raises_changeNlink _ _).bind fun _ => raises_changeNlink _ _

theorem raises_renameEntry (oldName newName : List UInt16) (childIno index : UInt32) :
    Raises Unrelated (renameEntry oldName newName childIno index) := by
  have hrest : Raises Unrelated (do
      let _ ← Dtree.remove newName
      let _ ← Dtree.insert newName childIno index : Dtree.DtreeM Unit) :=
    (Dtree.raises_remove _).bind fun _ => (Dtree.raises_insert _ _ _).bind fun _ => Raises.pure _
  exact Raises.ite ((Dtree.raises_remove _).bind fun _ => hrest) hrest

theorem unrelated_replaceRefused {childIsDir : Bool} {dest : Inode} {e : StorageError}
    (h : replaceRefused childIsDir dest = .error e) : Unrelated e := by
  unfold replaceRefused at h
  split at h
  · cases h
  · simp only at h
    split at h
    · cases h
    · split at h
      · cases hdtree : dest.dtree with
        | error e' =>
            rw [hdtree] at h
            cases h
            exact unrelated_dtree hdtree
        | ok dtree =>
            rw [hdtree] at h
            cases hentries : dtree.entries with
            | error e' =>
                simp only [bind, Except.bind, hentries] at h
                cases h
                exact Dtree.unrelated_entries hentries
            | ok entries =>
                simp only [bind, Except.bind, hentries] at h
                split at h <;> cases h
      · cases h

theorem raises_removeReplaced (newParent : UInt32) (newName : List UInt16) (childIsDir : Bool) :
    Raises Unrelated (removeReplaced newParent newName childIsDir) := by
  refine (raises_removeDirEntry _ _).bind fun removed => ?_
  cases removed with
  | none => exact Raises.pure _
  | some destIno =>
      refine (raises_readInode _).bind fun dest => ?_
      refine Raises.bind (Raises.returnExcept fun e => unrelated_replaceRefused) fun refusal => ?_
      cases refusal with
      | some e => exact Raises.pure _
      | none => exact (raises_markPageDirty _ _).bind fun _ => Raises.pure _

theorem raises_renameAcross (oldParent : UInt32) (oldName : List UInt16) (newParent : UInt32)
    (newName : List UInt16) (childIno : UInt32) (childIsDir : Bool) :
    Raises Unrelated (renameAcross oldParent oldName newParent newName childIno childIsDir) := by
  refine (raises_removeReplaced _ _ _).bind fun refusal => ?_
  cases refusal with
  | some e => exact Raises.pure _
  | none =>
      refine (raises_nextEntryIndex _).bind fun _ => (raises_insertDirEntry _ _ _ _).bind fun _ => ?_
      refine Raises.ite (Raises.pure _) ?_
      refine (raises_markInodeDirty _).bind fun _ => (raises_removeDirEntry _ _).bind fun _ => ?_
      refine (raises_markInodeDirty _).bind fun _ => Raises.ite ?_ (Raises.pure _)
      exact (raises_moveDirectory _ _ _).bind fun _ => Raises.pure _

theorem raises_renameWithin (parentIno : UInt32) (oldName newName : List UInt16) (childIno : UInt32)
    (childIsDir : Bool) : Raises Unrelated (renameWithin parentIno oldName newName childIno childIsDir) := by
  have hrest : ∀ dtree, Raises Unrelated (renameChecked parentIno oldName newName childIno dtree) := by
    intro dtree
    refine (raises_numEntries _).bind fun _ => (raises_readInode _).bind fun _ => ?_
    refine (raises_readDtree _).bind fun dtree => ?_
    refine (raises_runDtree (raises_renameEntry _ _ _ _) dtree).bind fun _ => ?_
    exact (raises_updateInodePage _ _ _ _).bind fun _ => (raises_markPageDirty _ _).bind fun _ => Raises.pure _
  refine (raises_readInode _).bind fun parent => (raises_readDtree parent).bind fun dtree => ?_
  refine Raises.bind (Raises.returnExcept fun e => Dtree.unrelated_lookup) fun found => ?_
  cases found with
  | none => exact hrest dtree
  | some entry =>
      refine (raises_readInode _).bind fun dest => ?_
      refine Raises.bind (Raises.returnExcept fun e => unrelated_replaceRefused) fun refusal => ?_
      cases refusal with
      | some e => exact Raises.pure _
      | none => exact hrest dtree

theorem raises_renameBody (oldParent : UInt32) (oldName : List UInt16) (newParent : UInt32)
    (newName : List UInt16) : Raises Unrelated (renameBody oldParent oldName newParent newName) := by
  refine Raises.ite (Raises.pure _) (Raises.ite (Raises.pure _) ?_)
  refine (raises_readInode _).bind fun parent => (raises_readDtree parent).bind fun dtree => ?_
  refine Raises.bind (Raises.returnExcept fun e => Dtree.unrelated_lookup) fun found => ?_
  cases found with
  | none => exact Raises.pure _
  | some entry =>
      refine (raises_readInode _).bind fun child => ?_
      exact Raises.ite (raises_renameAcross _ _ _ _ _ _) (raises_renameWithin _ _ _ _ _)

theorem raises_rmdirBody (parentIno : UInt32) (name : List UInt16) :
    Raises Unrelated (rmdirBody parentIno name) := by
  refine (raises_removeDirEntry _ _).bind fun removed => ?_
  cases removed with
  | none => exact Raises.pure _
  | some childIno =>
      refine (raises_readInode _).bind fun child => Raises.ite (Raises.pure _) ?_
      refine (raises_readDtree child).bind fun dtree => Raises.ite (Raises.pure _) ?_
      refine (raises_updateInodePage _ _ _ _).bind fun _ => (raises_markPageDirty _ _).bind fun _ => ?_
      exact (raises_changeNlink _ _).bind fun _ => Raises.pure _

/-! ## Refused calls -/

/-- **A refusal comes from the body** of a call, which ends with it. -/
theorem refused_iff {α : Type} {v : Volume} (hidle : v.txMgr.active = none) {body : VolM (Exit α α)}
    (hbody : Raises Unrelated body) {e : StorageError} (he : ¬ Unrelated e) :
    (∃ v', transaction body v = .error e v') ↔ ∃ w, body v.begun = .ok (.abort (.error e)) w := by
  unfold transaction
  rw [bind_ok (beginTransaction_of_idle hidle)]
  constructor
  · rintro ⟨v', hrun⟩
    cases h : body v.begun with
    | error e' w =>
        rw [bind_error h] at hrun
        cases hrun
        exact absurd (hbody _ _ _ h) he
    | ok exit w =>
        rw [bind_ok h] at hrun
        cases exit with
        | commit a =>
            have hcommit : Raises Unrelated (do
                let _ ← commitTransaction
                return a : VolM α) := raises_commitTransaction.bind fun _ => Raises.pure _
            exact absurd (hcommit _ _ _ hrun) he
        | abort result =>
            cases result with
            | ok a => cases hrun
            | error e' =>
                cases hrun
                exact ⟨w, rfl⟩
  · rintro ⟨w, h⟩
    rw [bind_ok h]
    exact ⟨_, rfl⟩

/-- While a transaction is open no call is refused for another reason. -/
theorem not_refused_of_active {α : Type} {v : Volume} {active : ActiveTxn} (hactive : v.txMgr.active = some active)
    (body : VolM (Exit α α)) {e : StorageError} (he : ¬ Unrelated e) :
    ¬ ∃ v', transaction body v = .error e v' := by
  have hbegin : beginTransaction v = .error (.other "transaction already in progress") v := by
    unfold beginTransaction
    rw [bind_ok (get_apply v), hactive]
    rfl
  rintro ⟨v', hrun⟩
  unfold transaction at hrun
  rw [bind_error hbegin] at hrun
  cases hrun
  exact he (unrelated_other (by decide))

/-! ## A directory in the place of another one -/

theorem replaceRefused_of_dirs {dest : Inode} {dtree : Dtree} (hdir : dest.isDir = true)
    (hdtree : dest.dtree = .ok dtree) : replaceRefused true dest =
      dtree.entries.map fun entries => if entries ≠ [] then some notEmptyError else none := by
  unfold replaceRefused
  rw [hdir, hdtree, if_neg (by decide), if_neg (by decide), if_pos (by decide)]
  cases hentries : dtree.entries with
  | error e => simp [bind, Except.bind, Except.map, hentries]
  | ok entries =>
      simp only [bind, Except.bind, Except.map, hentries]
      split <;> rfl

end Volume

/-- Listing the directory root gives an entry. -/
def Dtree.ListsEntry (dtree : Dtree) : Prop :=
  ∃ entries, dtree.entries = .ok entries ∧ entries ≠ []

namespace Volume

theorem replaceRefused_eq_iff {dest : Inode} {dtree : Dtree} (hdir : dest.isDir = true)
    (hdtree : dest.dtree = .ok dtree) :
    replaceRefused true dest = .ok (some notEmptyError) ↔ dtree.ListsEntry := by
  rw [replaceRefused_of_dirs hdir hdtree]
  constructor
  · intro h
    cases hentries : dtree.entries with
    | error e =>
        rw [hentries] at h
        cases h
    | ok entries =>
        refine ⟨entries, hentries, ?_⟩
        rintro rfl
        rw [hentries] at h
        cases h
  · rintro ⟨entries, hentries, hne⟩
    rw [hentries]
    exact congrArg Except.ok (if_pos hne)

/-- A directory is refused for no other reason. -/
theorem of_replaceRefused_ok {dest : Inode} {dtree : Dtree} (hdir : dest.isDir = true)
    (hdtree : dest.dtree = .ok dtree) {refusal : Option StorageError}
    (h : replaceRefused true dest = .ok refusal) : refusal = none ∨ refusal = some notEmptyError := by
  rw [replaceRefused_of_dirs hdir hdtree] at h
  cases hentries : dtree.entries with
  | error e =>
      rw [hentries] at h
      cases h
  | ok entries =>
      rw [hentries] at h
      by_cases hne : entries ≠ []
      · exact Or.inr ((Except.ok.inj h).symm.trans (if_pos hne))
      · exact Or.inl ((Except.ok.inj h).symm.trans (if_neg hne))

/-- `ino` is read as a directory with this root. -/
def IsDirectory (v : Volume) (ino : UInt32) (dtree : Dtree) : Prop :=
  ∃ inode, readInode ino v = .ok inode v ∧ inode.isDir = true ∧ inode.dtree = .ok dtree

/-- The name is that of a directory in the directory root. -/
structure NamesDirectory (v : Volume) (parentRoot : Dtree) (name : List UInt16) (dtree : Dtree) : Prop where
  valid : validName name = true
  directory : ∃ entry, parentRoot.lookup name = .ok (some entry) ∧ v.IsDirectory entry.inumber dtree

/-- Taking the name out of its parent leaves a directory with this root. -/
def TakesDirectory (v : Volume) (parentIno : UInt32) (name : List UInt16) (dtree : Dtree) : Prop :=
  ∃ ino w, removeDirEntry parentIno name v = .ok (some ino) w ∧ w.IsDirectory ino dtree

/-- **`rmdir` refuses** a directory with more than two entries. -/
theorem rmdirBody_refused_iff {v : Volume} {parentIno : UInt32} {name : List UInt16} {dtree : Dtree}
    (h : v.TakesDirectory parentIno name dtree) :
    (∃ w, rmdirBody parentIno name v = .ok (.abort (.error .directoryNotEmpty)) w) ↔ 2 < dtree.nextIndex := by
  obtain ⟨ino, w, hremove, child, hread, hdir, hdtree⟩ := h
  have hchild : readDtree child w = .ok dtree w := by
    unfold readDtree
    rw [hdtree]
    rfl
  unfold rmdirBody
  rw [bind_ok hremove]
  simp only
  rw [bind_ok hread, if_neg (by rw [hdir]; decide), bind_ok hchild]
  by_cases hmany : 2 < dtree.nextIndex
  · rw [if_pos hmany]
    exact iff_of_true ⟨w, rfl⟩ hmany
  · rw [if_neg hmany]
    refine iff_of_false ?_ hmany
    rintro ⟨w', hrun⟩
    have hyields : Yields (fun exit : Exit Bool Bool => exit ≠ .abort (.error .directoryNotEmpty)) (do
        updateInode ino child freedDinode
        markPageDirty ino child.pageBlock
        changeNlink parentIno subLink
        return .commit true) :=
      Yields.bind _ fun _ => Yields.bind _ fun _ => Yields.bind _ fun _ => Yields.pure (by simp)
    exact hyields _ _ _ hrun rfl

/-- **A rename into another directory refuses** to replace a directory with an entry. -/
theorem renameAcross_refused_iff {v : Volume} {oldParent newParent childIno : UInt32}
    {oldName newName : List UInt16} {dtree : Dtree} (h : v.TakesDirectory newParent newName dtree) :
    (∃ w, renameAcross oldParent oldName newParent newName childIno true v =
      .ok (.abort (.error notEmptyError)) w) ↔ dtree.ListsEntry := by
  obtain ⟨ino, w, hremove, dest, hread, hdir, hdtree⟩ := h
  have hyields : Yields (fun exit : Exit Bool Bool => exit ≠ .abort (.error notEmptyError)) (do
      let index ← nextEntryIndex newParent
      let inserted ← insertDirEntry newParent newName childIno index
      if !inserted then return .abort (.error (.other "failed to insert directory entry"))
      markInodeDirty newParent
      let _ ← removeDirEntry oldParent oldName
      markInodeDirty oldParent
      if true then moveDirectory childIno oldParent newParent
      return .commit true : VolM (Exit Bool Bool)) := by
    refine Yields.bind _ fun _ => Yields.bind _ fun _ => Yields.ite (Yields.pure (by simp [notEmptyError])) ?_
    refine Yields.bind _ fun _ => Yields.bind _ fun _ => Yields.bind _ fun _ => ?_
    exact Yields.bind _ fun _ => Yields.pure (by simp)
  have hreplaced : removeReplaced newParent newName true v =
      (returnExcept (replaceRefused true dest) >>= fun refusal =>
        refusal.elim (do markPageDirty newParent dest.pageBlock; return none) fun e => pure (some e)) w := by
    refine (bind_ok hremove).trans ((bind_ok hread).trans ?_)
    refine congrFun (congrArg (returnExcept (replaceRefused true dest) >>= ·) (funext fun refusal => ?_)) w
    cases refusal <;> rfl
  constructor
  · rintro ⟨w', hrun⟩
    obtain ⟨refusal, w₁, hfirst, hrest⟩ := of_bind_ok hrun
    rw [hreplaced] at hfirst
    obtain ⟨answer, w₂, hanswer, hfirst⟩ := of_bind_ok hfirst
    obtain ⟨hanswer, rfl⟩ := of_returnExcept_ok hanswer
    cases answer with
    | none =>
        obtain ⟨_, w₃, -, hfirst⟩ := of_bind_ok hfirst
        cases hfirst
        exact absurd rfl (hyields _ _ _ hrest)
    | some e =>
        cases hfirst
        cases hrest
        exact (replaceRefused_eq_iff hdir hdtree).mp (of_returnExcept_ok hanswer).1
  · intro hlists
    have hrefused : removeReplaced newParent newName true v = .ok (some notEmptyError) w := by
      rw [hreplaced, (replaceRefused_eq_iff hdir hdtree).mpr hlists]
      rfl
    exact ⟨w, bind_ok hrefused⟩

/-- **A rename within a directory refuses** to replace a directory with an entry. -/
theorem renameWithin_refused_iff {v : Volume} {parentIno childIno : UInt32} {oldName newName : List UInt16}
    {parent : Inode} {parentRoot dtree : Dtree} (hparent : readInode parentIno v = .ok parent v)
    (hroot : parent.dtree = .ok parentRoot) (h : v.NamesDirectory parentRoot newName dtree) :
    (∃ w, renameWithin parentIno oldName newName childIno true v =
      .ok (.abort (.error notEmptyError)) w) ↔ dtree.ListsEntry := by
  obtain ⟨-, entry, hlookup, dest, hread, hdir, hdtree⟩ := h
  have hyields : Yields (fun exit : Exit Bool Bool => exit ≠ .abort (.error notEmptyError))
      (renameChecked parentIno oldName newName childIno parentRoot) := by
    refine Yields.bind _ fun _ => Yields.bind _ fun _ => Yields.bind _ fun _ => Yields.bind _ fun _ => ?_
    exact Yields.bind _ fun _ => Yields.bind _ fun _ => Yields.pure (by simp)
  have hchecked : renameWithin parentIno oldName newName childIno true v =
      (returnExcept (replaceRefused true dest) >>= fun refusal =>
        refusal.elim (renameChecked parentIno oldName newName childIno parentRoot) fun e =>
          pure (.abort (.error e))) v := by
    unfold renameWithin readDtree
    rw [bind_ok hparent, hroot, bind_ok (returnExcept_ok parentRoot v), hlookup,
      bind_ok (returnExcept_ok _ v)]
    simp only
    rw [bind_ok hread]
    refine congrFun (congrArg (returnExcept (replaceRefused true dest) >>= ·) (funext fun refusal => ?_)) v
    cases refusal <;> rfl
  rw [hchecked]
  constructor
  · rintro ⟨w, hrun⟩
    obtain ⟨answer, w', hanswer, hrest⟩ := of_bind_ok hrun
    cases answer with
    | none => exact absurd rfl (hyields _ _ _ hrest)
    | some e =>
        cases hrest
        exact (replaceRefused_eq_iff hdir hdtree).mp (of_returnExcept_ok hanswer).1
  · intro hlists
    rw [(replaceRefused_eq_iff hdir hdtree).mpr hlists]
    exact ⟨v, rfl⟩

/-- The name is that of a directory in the directory `parentIno`. -/
def NamedIn (v : Volume) (parentIno : UInt32) (name : List UInt16) (dtree : Dtree) : Prop :=
  ∃ parent parentRoot, readInode parentIno v = .ok parent v ∧ parent.dtree = .ok parentRoot ∧
    v.NamesDirectory parentRoot name dtree

/-- **A rename refuses** to replace a directory with an entry.  Within a directory it looks at the
directory as it is, and across directories once the name is taken out of the parent. -/
theorem renameBody_refused_iff {v : Volume} {oldParent newParent : UInt32} {oldName newName : List UInt16}
    {source dtree taken : Dtree} (hsource : v.NamedIn oldParent oldName source)
    (hnamed : v.NamedIn newParent newName dtree) (htaken : v.TakesDirectory newParent newName taken) :
    (∃ w, renameBody oldParent oldName newParent newName v = .ok (.abort (.error notEmptyError)) w) ↔
      (if oldParent = newParent then dtree else taken).ListsEntry := by
  obtain ⟨parent, parentRoot, hparent, hroot, hold, entry, hlookup, child, hread, hdir, -⟩ := hsource
  have hrun : renameBody oldParent oldName newParent newName v =
      (if oldParent ≠ newParent then renameAcross oldParent oldName newParent newName entry.inumber child.isDir
        else renameWithin oldParent oldName newName entry.inumber child.isDir) v := by
    obtain ⟨-, -, -, -, hnew, -⟩ := hnamed
    unfold renameBody readDtree
    rw [if_neg (by rw [hold]; decide), if_neg (by rw [hnew]; decide), bind_ok hparent, hroot,
      bind_ok (returnExcept_ok parentRoot v), hlookup, bind_ok (returnExcept_ok _ v)]
    simp only
    rw [bind_ok hread]
  rw [hrun, hdir]
  by_cases hsame : oldParent = newParent
  · obtain ⟨parent, parentRoot, hparent, hroot, hnames⟩ := hnamed
    rw [if_neg (not_not_intro hsame), if_pos hsame, hsame]
    exact renameWithin_refused_iff hparent hroot hnames
  · rw [if_pos hsame, if_neg hsame]
    exact renameAcross_refused_iff htaken

end Volume

end JfsFuse
