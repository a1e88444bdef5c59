import JfsFuse.Journal.Recovery

/-!
# What a replay writes

The backward pass decides what to write from its own tables and the records
alone; it never reads the filesystem.  `passWrites` is the list of block writes
it decides on, and `backward_eq` says that the pass is these writes, one after
the other.

`issue` performs such a list.  If it returns, every write was accepted and the
content is that of `Memory.writeAll`; whether a write is accepted depends only on
the backend and the size of the storage (`issue_ok`, `issue_of_accepted`).
-/

namespace JfsFuse

open ByteBuf Program

/-! ## Lists of block writes -/

namespace Storage

/-- The storages have the same backend, size and length. -/
def SameShape (s t : Storage) : Prop :=
  s.backend = t.backend ∧ s.size = t.size ∧ s.grown = t.grown

theorem SameShape.refl (s : Storage) : SameShape s s :=
  ⟨rfl, rfl, rfl⟩

theorem SameShape.symm {s t : Storage} (h : SameShape s t) : SameShape t s :=
  ⟨h.1.symm, h.2.1.symm, h.2.2.symm⟩

theorem SameShape.trans {s t u : Storage} (h : SameShape s t) (h' : SameShape t u) :
    SameShape s u :=
  ⟨h.1.trans h'.1, h.2.1.trans h'.2.1, h.2.2.trans h'.2.2⟩

theorem SameShape.writeBlockRefused {s t : Storage} (h : SameShape s t) (block : ℕ)
    (data : List UInt8) : s.writeBlockRefused block data = t.writeBlockRefused block data := by
  simp only [Storage.writeBlockRefused, writeRefused, sizeBlocks, h.1, h.2.1]

theorem validateBlockWrite_none {storageSize block : ℕ} {data : List UInt8}
    (h : validateBlockWrite storageSize block data = none) :
    data.length = blockSize ∧ block < storageSize := by
  simp only [validateBlockWrite] at h
  by_cases hlen : data.length = blockSize
  · rw [if_neg (not_not.mpr hlen)] at h
    refine ⟨hlen, ?_⟩
    by_contra hrange
    rw [if_pos (Nat.not_lt.mp hrange)] at h
    cases h
  · rw [if_pos hlen] at h
    cases h

/-- A file accepts whole blocks inside its size only. -/
theorem accepted_file {s : Storage} {block : ℕ} {data : List UInt8} {readOnly : Bool}
    (hbackend : s.backend = .file readOnly) (h : s.writeBlockRefused block data = none) :
    data.length = blockSize ∧ block < s.sizeBlocks := by
  simp only [writeBlockRefused, hbackend] at h
  split at h
  · cases h
  · exact validateBlockWrite_none h

/-- An accepted block write stays inside the storage. -/
theorem accepted_le {s : Storage} {block : ℕ} {data : List UInt8}
    (h : s.writeBlockRefused block data = none) : block * blockSize + data.length ≤ s.size := by
  cases hbackend : s.backend with
  | memory =>
      simp only [writeBlockRefused, writeRefused, hbackend] at h
      split at h
      · cases h
      · omega
  | file readOnly =>
      obtain ⟨hlen, hrange⟩ := accepted_file hbackend h
      rw [sizeBlocks] at hrange
      rw [hlen]
      simp only [blockSize] at hrange ⊢
      omega

/-- A writable storage accepts whole blocks inside its size. -/
theorem accepted_of_lt {s : Storage} {block : ℕ} {data : List UInt8}
    (hbackend : s.backend ≠ .file true) (hlen : data.length = blockSize)
    (hblock : block < s.sizeBlocks) : s.writeBlockRefused block data = none := by
  cases hcase : s.backend with
  | memory =>
      have hfits : ¬ s.size < block * blockSize + data.length := by
        rw [hlen]
        simp only [sizeBlocks, blockSize] at hblock ⊢
        omega
      simp only [writeBlockRefused, writeRefused, hcase]
      exact if_neg hfits
  | file readOnly =>
      have hwritable : ¬ readOnly = true := fun hro => hbackend (by rw [hcase, hro])
      simp only [writeBlockRefused, validateBlockWrite, hcase]
      rw [if_neg hwritable, if_neg (not_not.mpr hlen), if_neg (Nat.not_le.mpr hblock)]

/-- An accepted block write does not change the shape. -/
theorem sameShape_written {s : Storage} {block : ℕ} {data : List UInt8} (call : StorageCall)
    (h : s.writeBlockRefused block data = none) :
    SameShape s ((s.written (block * blockSize) data).record call) := by
  have hle := accepted_le h
  refine ⟨rfl, rfl, ?_⟩
  change s.grown = if data = [] then s.grown else max s.grown (block * blockSize + data.length - s.size)
  split
  · rfl
  · omega

end Storage

/-- A block write: block number and data. -/
abbrev BlockWrite := ℕ × List UInt8

namespace BlockWrite

/-- The same write as a write of bytes. -/
def toBytes (w : BlockWrite) : ℕ × List UInt8 :=
  (w.1 * blockSize, w.2)

def call (w : BlockWrite) : StorageCall :=
  .writeBlock w.1 w.2

/-- Byte `i` lies in the range of the write. -/
def Covers (w : BlockWrite) (i : ℕ) : Prop :=
  Memory.Covers w.toBytes i

end BlockWrite

/-- A whole-block write covers the bytes of its own block and no others. -/
theorem covers_iff_block {w : BlockWrite} (hlen : w.2.length = blockSize) (i : ℕ) :
    w.Covers i ↔ i / blockSize = w.1 := by
  rw [BlockWrite.Covers, Memory.Covers, BlockWrite.toBytes]
  simp only [hlen, blockSize]
  omega

/-- Perform block writes in order. -/
def issue : List BlockWrite → StorageM Unit
  | [] => return ()
  | w :: rest => do
      StorageM.writeBlock w.1 w.2
      issue rest

/-- The content after block writes. -/
def afterWrites (writes : List BlockWrite) (data : ℕ → UInt8) : ℕ → UInt8 :=
  Memory.writeAll (writes.map BlockWrite.toBytes) data

theorem issue_append (first second : List BlockWrite) (s : Storage) :
    issue (first ++ second) s = (issue first >>= fun _ => issue second) s := by
  induction first generalizing s with
  | nil => rfl
  | cons w rest ih =>
      rw [List.cons_append, issue, issue]
      cases h : StorageM.writeBlock w.1 w.2 s with
      | ok _ s' =>
          rw [bind_ok h, ih]
          cases hrest : issue rest s' with
          | ok _ s'' => rw [bind_ok hrest, bind_ok ((bind_ok h).trans hrest)]
          | error e s'' => rw [bind_error hrest, bind_error ((bind_ok h).trans hrest)]
      | error e s' => rw [bind_error h, bind_error (bind_error h)]

/-- A single write that returned was accepted and took effect. -/
theorem writeBlock_inv {w : BlockWrite} {s s' : Storage}
    (h : StorageM.writeBlock w.1 w.2 s = .ok () s') :
    s.writeBlockRefused w.1 w.2 = none ∧ Storage.SameShape s s' ∧
      s'.data = Memory.write s.data (w.1 * blockSize) w.2 ∧ s'.trace = s.trace ++ [w.call] := by
  obtain ⟨_, t, hattempt, h⟩ := of_bind_ok h
  have ht : t = { s with faults := t.faults } := by
    rw [StorageM.attempt] at hattempt
    split at hattempt <;> cases hattempt <;> rfl
  rw [bind_ok (get_apply t)] at h
  have hrefused : t.writeBlockRefused w.1 w.2 = s.writeBlockRefused w.1 w.2 := by
    rw [ht]
    rfl
  cases hacc : t.writeBlockRefused w.1 w.2 with
  | some e => rw [hacc] at h; cases h
  | none =>
      rw [hacc] at h
      have hshape := Storage.sameShape_written w.call hacc
      cases h
      rw [ht] at hshape ⊢
      exact ⟨hrefused ▸ hacc, hshape, rfl, rfl⟩

/-- **Writes that all returned were all accepted and took effect in order.** -/
theorem issue_ok {writes : List BlockWrite} {s s' : Storage} (h : issue writes s = .ok () s') :
    (∀ w ∈ writes, s.writeBlockRefused w.1 w.2 = none) ∧ Storage.SameShape s s' ∧
      s'.data = afterWrites writes s.data ∧ s'.trace = s.trace ++ writes.map BlockWrite.call := by
  induction writes generalizing s with
  | nil =>
      cases h
      exact ⟨by simp, Storage.SameShape.refl _, rfl, by simp⟩
  | cons w rest ih =>
      obtain ⟨_, t, hwrite, hrest⟩ := of_bind_ok h
      obtain ⟨hacc, hshape, hdata, htrace⟩ := writeBlock_inv hwrite
      obtain ⟨hacc', hshape', hdata', htrace'⟩ := ih hrest
      refine ⟨?_, hshape.trans hshape', ?_, ?_⟩
      · intro w' hw'
        rcases List.mem_cons.mp hw' with rfl | hw'
        · exact hacc
        · rw [hshape.writeBlockRefused]
          exact hacc' w' hw'
      · rw [hdata', hdata]
        rfl
      · rw [htrace', htrace, List.append_assoc]
        rfl

/-- On a storage that does not fail, accepted writes return. -/
theorem issue_of_accepted {writes : List BlockWrite} {s : Storage} (hfaults : s.faults = [])
    (hacc : ∀ w ∈ writes, s.writeBlockRefused w.1 w.2 = none) :
    ∃ s', issue writes s = .ok () s' ∧ s'.faults = [] := by
  induction writes generalizing s with
  | nil => exact ⟨s, rfl, hfaults⟩
  | cons w rest ih =>
      have hw := hacc w (List.mem_cons_self ..)
      have hshape := Storage.sameShape_written w.call hw
      obtain ⟨s', hrun, hfaults'⟩ := ih (s := (s.written (w.1 * blockSize) w.2).record w.call)
        hfaults fun w' hw' => by
          rw [← hshape.writeBlockRefused]
          exact hacc w' (List.mem_cons_of_mem _ hw')
      refine ⟨s', ?_, hfaults'⟩
      rw [issue, bind_ok (StorageM.writeBlock_ok hfaults hw)]
      exact hrun

/-! ## Committed images -/

/-- A commit record of transaction `tid` is among `records`. -/
def CommittedIn (records : List LogRecord) (tid : UInt32) : Prop :=
  ∃ record ∈ records, record.1.isCommit ∧ record.1.logtid = tid

instance (records : List LogRecord) (tid : UInt32) : Decidable (CommittedIn records tid) :=
  inferInstanceAs (Decidable (∃ record ∈ records, _))

/-- The target block and payload of an after-image. -/
def imageOf (record : LogRecord) : BlockWrite :=
  (record.1.redopagePxd.address, record.2)

/-- The write `w` is an after-image of the log whose transaction commits later
in the log. -/
def IsCommittedImage (records : List LogRecord) (w : BlockWrite) : Prop :=
  ∃ before record after, records = before ++ record :: after ∧ w = imageOf record ∧
    record.1.isRedopage ∧
    (record.1.redopageType = logInode ∨ record.1.redopageType &&& logData ≠ 0) ∧
    CommittedIn after record.1.logtid

/-! ## The decisions of the backward pass -/

namespace JournalRecovery

/-- The write that `process_record` issues for a record, if any. -/
def recordWrite (r : JournalRecovery) (record : LogRecord) : Option BlockWrite :=
  let lrd := record.1
  if lrd.isCommit ∨ lrd.isMount ∨ lrd.isSyncpt ∨ lrd.logtid ∉ r.commits ∨ ¬ lrd.isRedopage then none
  else if r.volumes lrd.aggregate = .clean ∨ r.volumes lrd.aggregate = .logredo then none
  else if lrd.redopageType ≠ logInode ∧ lrd.inode ∈ r.noRedoFiles then none
  else if (r.pages lrd.redopagePxd.address).any PageTracker.isComplete then none
  else if lrd.redopageType = logInode ∨ lrd.redopageType &&& logData ≠ 0 then
    some (lrd.redopagePxd.address, record.2)
  else none

/-- The tables after `process_record`. -/
def recordTables (r : JournalRecovery) (record : LogRecord) : JournalRecovery :=
  let lrd := record.1
  if lrd.isCommit then { r with commits := lrd.logtid :: r.commits }
  else if lrd.isMount then { r with volumes := Function.update r.volumes lrd.aggregate .clean }
  else if lrd.isSyncpt ∨ lrd.logtid ∉ r.commits then r
  else if lrd.isRedopage then
    if (r.recordWrite record).isSome ∧ lrd.redopageType = logInode then
      noteInodePage lrd.redopagePxd.address r
    else r
  else if lrd.isNoredopage then filterPage lrd.redopagePxd.address r
  else if lrd.isNoredoinoext then
    filterPages r lrd.redopagePxd.address
      (min ((lrd.redopagePxd.length + blockSize - 1) / blockSize) 4)
  else r

/-- Issue the write of a record, then update the tables. -/
def perform (write : Option BlockWrite) (tables : JournalRecovery) : RecoveryM Unit := do
  onFs (issue write.toList)
  modifyRecovery fun _ => tables

theorem perform_none (tables : JournalRecovery) (s : RecoveryState) :
    perform none tables s = .ok () { s with recovery := tables } := rfl

theorem updatePage_eq (lrd : Lrd) (data : List UInt8) (s : RecoveryState) :
    updatePage lrd data s =
      if (s.recovery.pages lrd.redopagePxd.address).any PageTracker.isComplete then .ok () s
      else if lrd.redopageType = logInode then
        perform (some (lrd.redopagePxd.address, data))
          (noteInodePage lrd.redopagePxd.address s.recovery) s
      else if lrd.redopageType &&& logData ≠ 0 then
        perform (some (lrd.redopagePxd.address, data)) s.recovery s
      else .ok () s := by
  have hissue : ∀ tables : JournalRecovery, perform (some (lrd.redopagePxd.address, data)) tables s =
      (do
        onFs (StorageM.writeBlock lrd.redopagePxd.address data)
        modifyRecovery fun _ => tables : RecoveryM Unit) s := by
    intro tables
    have hone : issue [(lrd.redopagePxd.address, data)] =
        StorageM.writeBlock lrd.redopagePxd.address data := by
      funext fs
      rw [issue]
      cases h : StorageM.writeBlock lrd.redopagePxd.address data fs with
      | ok _ fs' => rw [bind_ok h]; rfl
      | error e fs' => rw [bind_error h]
    rw [perform, Option.toList_some, hone]
  rw [updatePage, bind_ok (get_apply s)]
  split
  · rfl
  split
  · rw [hissue]
    cases h : onFs (StorageM.writeBlock lrd.redopagePxd.address data) s with
    | ok _ s' =>
        rw [bind_ok h, bind_ok h]
        have hrec : s'.recovery = s.recovery := by
          rw [onFs, zoom] at h
          split at h <;> cases h
          rfl
        rw [modifyRecovery, modifyRecovery, modify_apply, modify_apply, hrec]
    | error e s' => rw [bind_error h, bind_error h]
  split
  · rw [hissue]
    cases h : onFs (StorageM.writeBlock lrd.redopagePxd.address data) s with
    | ok _ s' =>
        rw [bind_ok h]
        have hrec : s'.recovery = s.recovery := by
          rw [onFs, zoom] at h
          split at h <;> cases h
          rfl
        rw [modifyRecovery, modify_apply, ← hrec]
    | error e s' => rw [bind_error h]
  · rfl

theorem processRecord_eq (record : LogRecord) (s : RecoveryState) :
    processRecord record.1 record.2 s =
      perform (s.recovery.recordWrite record) (s.recovery.recordTables record) s := by
  obtain ⟨lrd, data⟩ := record
  rw [processRecord, bind_ok (get_apply s)]
  by_cases hcommit : lrd.isCommit
  · have hwrite : s.recovery.recordWrite (lrd, data) = none := if_pos (Or.inl hcommit)
    rw [if_pos hcommit, hwrite, perform_none, recordTables, if_pos hcommit]
    rfl
  by_cases hmount : lrd.isMount
  · have hwrite : s.recovery.recordWrite (lrd, data) = none := if_pos (Or.inr (Or.inl hmount))
    rw [if_neg hcommit, if_pos hmount, hwrite, perform_none, recordTables, if_neg hcommit,
      if_pos hmount]
    rfl
  by_cases hsync : lrd.isSyncpt
  · have hwrite : s.recovery.recordWrite (lrd, data) = none :=
      if_pos (Or.inr (Or.inr (Or.inl hsync)))
    rw [if_neg hcommit, if_neg hmount, if_pos hsync, hwrite, perform_none, recordTables,
      if_neg hcommit, if_neg hmount, if_pos (Or.inl hsync)]
    rfl
  by_cases htid : lrd.logtid ∉ s.recovery.commits
  · have hwrite : s.recovery.recordWrite (lrd, data) = none :=
      if_pos (Or.inr (Or.inr (Or.inr (Or.inl htid))))
    rw [if_neg hcommit, if_neg hmount, if_neg hsync, if_pos htid, hwrite, perform_none,
      recordTables, if_neg hcommit, if_neg hmount, if_pos (Or.inr htid)]
    rfl
  have hskip : ¬ (lrd.isSyncpt ∨ lrd.logtid ∉ s.recovery.commits) := by tauto
  rw [if_neg hcommit, if_neg hmount, if_neg hsync, if_neg htid, recordTables, if_neg hcommit,
    if_neg hmount, if_neg hskip]
  by_cases hredo : lrd.isRedopage
  · -- an after-image of a committed transaction: the filters of `do_after` and `update_page`
    have hkeep : ¬ (lrd.isCommit ∨ lrd.isMount ∨ lrd.isSyncpt ∨
        lrd.logtid ∉ s.recovery.commits ∨ ¬ lrd.isRedopage) := by tauto
    rw [if_pos hredo, if_pos hredo, doAfter, bind_ok (get_apply s)]
    simp only [recordWrite, if_neg hkeep]
    split
    · rfl
    split
    · rfl
    rw [updatePage_eq]
    split
    · rfl
    by_cases hinode : lrd.redopageType = logInode
    · simp [hinode]
    · by_cases hdata : lrd.redopageType &&& logData = 0
      · simp [hinode, hdata, perform_none]
      · simp [hinode, hdata]
  · have hwrite : s.recovery.recordWrite (lrd, data) = none :=
      if_pos (Or.inr (Or.inr (Or.inr (Or.inr hredo))))
    rw [if_neg hredo, if_neg hredo, hwrite, perform_none]
    split
    · rfl
    split <;> rfl

/-- The writes of the backward pass over `records`, given newest first. -/
def passWrites (dataStart readerPos : ℕ) : ℕ → List LogRecord → JournalRecovery → List BlockWrite
  | _, [], _ => []
  | lastAddr, record :: rest, r =>
      let lastAddr :=
        if record.1.isSyncpt ∧ 0 < record.1.syncptSync then
          dataStart + record.1.syncptSync * logPSize
        else lastAddr
      (r.recordWrite record).toList ++
        if 0 < lastAddr ∧ readerPos ≤ lastAddr then []
        else passWrites dataStart readerPos lastAddr rest (r.recordTables record)

/-- At most the page trackers differ. -/
def SameButPages (r r' : JournalRecovery) : Prop :=
  ∃ pages, r' = { r with pages }

theorem SameButPages.trans {r r' r'' : JournalRecovery} (h : SameButPages r r')
    (h' : SameButPages r' r'') : SameButPages r r'' := by
  obtain ⟨pages, rfl⟩ := h
  obtain ⟨pages', rfl⟩ := h'
  exact ⟨pages', rfl⟩

theorem findOrCreate_sameButPages (r : JournalRecovery) (addr : ℕ) :
    SameButPages r (r.findOrCreate addr) := by
  rw [findOrCreate]
  split
  · exact ⟨r.pages, rfl⟩
  · exact ⟨_, rfl⟩

theorem noteInodePage_sameButPages (addr : ℕ) (r : JournalRecovery) :
    SameButPages r (noteInodePage addr r) := by
  rw [noteInodePage]
  split
  · exact ⟨_, rfl⟩
  · exact findOrCreate_sameButPages r addr

theorem filterPage_sameButPages (addr : ℕ) (r : JournalRecovery) :
    SameButPages r (filterPage addr r) := by
  rw [filterPage]
  split
  · exact ⟨_, rfl⟩
  · exact findOrCreate_sameButPages r addr

theorem filterPages_sameButPages (r : JournalRecovery) (addr count : ℕ) :
    SameButPages r (filterPages r addr count) := by
  induction count generalizing r addr with
  | zero => exact ⟨r.pages, rfl⟩
  | succ count ih =>
      rw [filterPages]
      refine SameButPages.trans ?_ (ih _ (addr + blockSize))
      split
      · exact filterPage_sameButPages addr r
      · exact findOrCreate_sameButPages r _

/-- A record other than a commit changes neither the superblock nor the set of
committed transactions. -/
theorem recordTables_of_not_commit {r : JournalRecovery} {record : LogRecord}
    (h : ¬ record.1.isCommit) :
    (r.recordTables record).logsuper = r.logsuper ∧
      (r.recordTables record).commits = r.commits := by
  have hpages : ∀ {r' : JournalRecovery}, SameButPages r r' →
      r'.logsuper = r.logsuper ∧ r'.commits = r.commits := by
    rintro _ ⟨pages, rfl⟩
    exact ⟨rfl, rfl⟩
  rw [recordTables, if_neg h]
  split
  · exact ⟨rfl, rfl⟩
  split
  · exact ⟨rfl, rfl⟩
  split
  · split
    · exact hpages (noteInodePage_sameButPages ..)
    · exact ⟨rfl, rfl⟩
  split
  · exact hpages (filterPage_sameButPages ..)
  split
  · exact hpages (filterPages_sameButPages ..)
  · exact ⟨rfl, rfl⟩

theorem recordTables_of_commit {r : JournalRecovery} {record : LogRecord}
    (h : record.1.isCommit) :
    r.recordTables record = { r with commits := record.1.logtid :: r.commits } :=
  if_pos h

theorem recordTables_logsuper (r : JournalRecovery) (record : LogRecord) :
    (r.recordTables record).logsuper = r.logsuper := by
  by_cases h : record.1.isCommit
  · rw [recordTables_of_commit h]
  · exact (recordTables_of_not_commit h).1

/-- **The backward pass performs its writes and leaves the log alone.** -/
theorem backward_eq (dataStart readerPos lastAddr : ℕ) (records : List LogRecord)
    (s : RecoveryState) :
    ∃ r', r'.logsuper = s.recovery.logsuper ∧
      backward dataStart readerPos lastAddr records s =
        match issue (passWrites dataStart readerPos lastAddr records s.recovery) s.media.fs with
        | .ok _ fs => .ok () ⟨r', { s.media with fs }⟩
        | .error e fs => .error e ⟨r', { s.media with fs }⟩ := by
  induction records generalizing lastAddr s with
  | nil => exact ⟨s.recovery, rfl, rfl⟩
  | cons record rest ih =>
      have hrecord := processRecord_eq record s
      cases hwrite : issue (s.recovery.recordWrite record).toList s.media.fs with
      | error e fs =>
          have hfs : onFs (issue (s.recovery.recordWrite record).toList) s =
              .error e { s with media := { s.media with fs } } := zoom_error hwrite
          rw [perform, bind_error hfs] at hrecord
          refine ⟨s.recovery, rfl, ?_⟩
          rw [backward, bind_error hrecord, passWrites, issue_append, bind_error hwrite]
      | ok _ fs =>
          have hfs : onFs (issue (s.recovery.recordWrite record).toList) s =
              .ok () { s with media := { s.media with fs } } := zoom_ok hwrite
          rw [perform, bind_ok hfs] at hrecord
          rw [backward, bind_ok hrecord, passWrites, issue_append, bind_ok hwrite]
          simp only
          generalize (if record.1.isSyncpt ∧ 0 < record.1.syncptSync then
            dataStart + record.1.syncptSync * logPSize else lastAddr) = addr
          by_cases hstop : 0 < addr ∧ readerPos ≤ addr
          · rw [if_pos hstop, if_pos hstop]
            exact ⟨s.recovery.recordTables record, recordTables_logsuper .., rfl⟩
          · rw [if_neg hstop, if_neg hstop]
            obtain ⟨r', hsuper, hrest⟩ := ih addr
              ⟨s.recovery.recordTables record, { s.media with fs }⟩
            exact ⟨r', hsuper.trans (recordTables_logsuper ..), hrest⟩

/-- A record that is written is a redo record of a page type the replay knows,
of a transaction seen to commit. -/
theorem recordWrite_eq_some {r : JournalRecovery} {record : LogRecord} {w : BlockWrite}
    (h : r.recordWrite record = some w) :
    w = imageOf record ∧ record.1.isRedopage ∧ record.1.logtid ∈ r.commits ∧
      (record.1.redopageType = logInode ∨ record.1.redopageType &&& logData ≠ 0) := by
  simp only [recordWrite] at h
  split at h
  · cases h
  next hkeep =>
    split at h
    · cases h
    split at h
    · cases h
    split at h
    · cases h
    split at h
    · next htype =>
        refine ⟨(Option.some.inj h).symm, ?_, ?_, htype⟩
        · by_contra hredo
          exact hkeep (by tauto)
        · by_contra htid
          exact hkeep (by tauto)
    · cases h

/-- **Every write of the pass is a committed image of the log.**  `records` is
what is left of the log, newest first, and `newer` what has been passed. -/
theorem passWrites_committed (dataStart readerPos lastAddr : ℕ) {records newer : List LogRecord}
    {r : JournalRecovery} (hcommits : ∀ tid ∈ r.commits, CommittedIn newer tid) :
    ∀ w ∈ passWrites dataStart readerPos lastAddr records r,
      IsCommittedImage (records.reverse ++ newer) w := by
  induction records generalizing lastAddr newer r with
  | nil => simp [passWrites]
  | cons record rest ih =>
      intro w hw
      have hlog : (record :: rest).reverse ++ newer = rest.reverse ++ record :: newer := by simp
      rw [hlog]
      simp only [passWrites] at hw
      generalize (if record.1.isSyncpt ∧ 0 < record.1.syncptSync then
        dataStart + record.1.syncptSync * logPSize else lastAddr) = addr at hw
      rcases List.mem_append.mp hw with hw | hw
      · obtain ⟨himage, hredo, htid, htype⟩ := recordWrite_eq_some (Option.mem_toList.mp hw)
        exact ⟨rest.reverse, record, newer, rfl, himage, hredo, htype, hcommits _ htid⟩
      · split at hw
        · simp at hw
        · refine ih _ ?_ w hw
          intro tid htid
          by_cases hcommit : record.1.isCommit
          · rw [recordTables_of_commit hcommit] at htid
            rcases List.mem_cons.mp htid with rfl | htid
            · exact ⟨record, List.mem_cons_self .., hcommit, rfl⟩
            · obtain ⟨other, hmem, hother⟩ := hcommits tid htid
              exact ⟨other, List.mem_cons_of_mem _ hmem, hother⟩
          · rw [(recordTables_of_not_commit hcommit).2] at htid
            obtain ⟨other, hmem, hother⟩ := hcommits tid htid
            exact ⟨other, List.mem_cons_of_mem _ hmem, hother⟩

end JournalRecovery

end JfsFuse
