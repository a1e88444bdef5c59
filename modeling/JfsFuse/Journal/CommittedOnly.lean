import JfsFuse.Journal.Scan

/-!
# A replay applies committed after-images only

`replayWrites` lists the block writes of a replay; it depends on the log alone.
Each of them is an after-image of the scanned log whose transaction commits later
in the log, and a replay that returns has issued exactly these, in order, and
then the write of the log superblock (`replay_applies_committed_images`).

The blocks a replay changes are the targets of these images as long as no image
reaches past the end of its block.  A file refuses such an image.  A memory
storage writes it, over the start of the next block.
-/

namespace JfsFuse

open ByteBuf Program

/-! ## A replay that returns -/

namespace StorageM

theorem writeBytes_inv {offset : ℕ} {data : List UInt8} {s s' : Storage}
    (h : writeBytes offset data s = .ok () s') :
    s'.data = Memory.write s.data offset data ∧
      s'.trace = s.trace ++ [.writeBytes offset data] := by
  obtain ⟨_, t, hattempt, h⟩ := of_bind_ok h
  have ht : t = { s with faults := t.faults } := by
    unfold attempt at hattempt
    split at hattempt <;> cases hattempt <;> rfl
  rw [bind_ok (get_apply t)] at h
  cases hacc : t.writeRefused offset data.length with
  | some e => rw [hacc] at h; cases h
  | none =>
      rw [hacc] at h
      cases h
      rw [ht]
      exact ⟨rfl, rfl⟩

end StorageM

namespace Media

@[simp] theorem logStorage_setLogStorage (storage : Storage) (m : Media) :
    (m.setLogStorage storage).logStorage = storage := by
  unfold setLogStorage logStorage
  cases m.log <;> rfl

end Media

/-- The superblock as a replay leaves it. -/
def replayedSuper (logsuper : LogSuper) : LogSuper :=
  { logsuper with state := UInt32.ofNat logRedone }

namespace JournalRecovery

theorem replay_of_ne {logsuper : LogSuper} (hstate : logsuper.state.toNat ≠ logRedone)
    (dataStart : ℕ) (m : Media) :
    replay dataStart ⟨new logsuper, m⟩ = replayLog logsuper dataStart ⟨new logsuper, m⟩ := by
  unfold replay
  rw [bind_ok (get_apply _)]
  exact congrFun (if_neg hstate) _

theorem replay_of_redone {logsuper : LogSuper} (hstate : logsuper.state.toNat = logRedone)
    (dataStart : ℕ) (m : Media) :
    replay dataStart ⟨new logsuper, m⟩ = .ok () ⟨new logsuper, m⟩ := by
  unfold replay
  rw [bind_ok (get_apply _)]
  exact congrFun (if_pos hstate) _

/-- The parts of a replay of a log that was not replayed before. -/
theorem replay_inv {logsuper : LogSuper} (hstate : logsuper.state.toNat ≠ logRedone)
    {dataStart : ℕ} {m : Media} {s' : RecoveryState}
    (h : replay dataStart ⟨new logsuper, m⟩ = .ok () s') :
    ∃ records pos log₁ fs log₂,
      LogReader.scan logsuper dataStart m.logStorage = .ok (records, pos) log₁ ∧
      issue (passWrites dataStart pos 0 records.reverse (new logsuper))
        (m.setLogStorage log₁).fs = .ok () fs ∧
      StorageM.writeBytes (dataStart - blockSize) (finalBytes (replayedSuper logsuper))
        { m.setLogStorage log₁ with fs }.logStorage = .ok () log₂ ∧
      s'.media = { m.setLogStorage log₁ with fs }.setLogStorage log₂ := by
  rw [replay_of_ne hstate] at h
  unfold replayLog at h
  obtain ⟨⟨records, pos⟩, s₁, hscan, h⟩ := of_bind_ok h
  obtain ⟨log₁, hlog, rfl⟩ : ∃ log₁, LogReader.scan logsuper dataStart m.logStorage =
      .ok (records, pos) log₁ ∧ s₁ = ⟨new logsuper, m.setLogStorage log₁⟩ := by
    unfold onLog zoom at hscan
    split at hscan
    · next a t hrun => cases hscan; exact ⟨t, hrun, rfl⟩
    · cases hscan
  obtain ⟨_, s₂, hback, h⟩ := of_bind_ok h
  obtain ⟨r', hsuper, hback'⟩ := backward_eq dataStart pos 0 records.reverse
    ⟨new logsuper, m.setLogStorage log₁⟩
  rw [hback] at hback'
  cases hissue : issue (passWrites dataStart pos 0 records.reverse (new logsuper))
      (m.setLogStorage log₁).fs with
  | error e fs => rw [hissue] at hback'; cases hback'
  | ok _ fs =>
      rw [hissue] at hback'
      cases hback'
      rw [bind_ok (modifyRecovery_apply _ _), bind_ok (get_apply _)] at h
      have hfinal : (markReplayed r').logsuper = replayedSuper logsuper := by
        unfold markReplayed replayedSuper
        rw [hsuper]
        rfl
      unfold onLog zoom at h
      split at h
      · next _ log₂ hwrite =>
          cases h
          simp only [hfinal] at hwrite
          exact ⟨records, pos, log₁, fs, log₂, hlog, hissue, hwrite, rfl⟩
      · cases h

/-- A replay changes the state in its superblock and no other field. -/
theorem replay_logsuper {logsuper : LogSuper} {dataStart : ℕ} {m : Media} {s' : RecoveryState}
    (h : replay dataStart ⟨new logsuper, m⟩ = .ok () s') :
    (markReplayed s'.recovery).logsuper = replayedSuper logsuper := by
  by_cases hstate : logsuper.state.toNat = logRedone
  · rw [replay_of_redone hstate] at h
    cases h
    rfl
  rw [replay_of_ne hstate] at h
  unfold replayLog at h
  obtain ⟨⟨records, pos⟩, s₁, hscan, h⟩ := of_bind_ok h
  obtain ⟨log₁, -, rfl⟩ := of_zoom_ok hscan
  obtain ⟨u, s₂, hback, h⟩ := of_bind_ok h
  obtain ⟨r', hsuper, hback'⟩ := backward_eq dataStart pos 0 records.reverse
    ⟨new logsuper, m.setLogStorage log₁⟩
  rw [hback] at hback'
  have hrecovery : s₂.recovery = r' := by
    split at hback'
    · cases hback'
      rfl
    · cases hback'
  rw [bind_ok (modifyRecovery_apply _ _), bind_ok (get_apply _)] at h
  obtain ⟨log₂, -, rfl⟩ := of_zoom_ok h
  unfold markReplayed replayedSuper
  simp only
  rw [hrecovery, hsuper]
  rfl

/-- Such a replay, from its parts. -/
theorem replay_of_parts {logsuper : LogSuper} (hstate : logsuper.state.toNat ≠ logRedone)
    {dataStart pos : ℕ} {m : Media} {records : List LogRecord} {log₁ fs log₂ : Storage}
    (hscan : LogReader.scan logsuper dataStart m.logStorage = .ok (records, pos) log₁)
    (hissue : issue (passWrites dataStart pos 0 records.reverse (new logsuper))
      (m.setLogStorage log₁).fs = .ok () fs)
    (hwrite : StorageM.writeBytes (dataStart - blockSize) (finalBytes (replayedSuper logsuper))
      { m.setLogStorage log₁ with fs }.logStorage = .ok () log₂) :
    ∃ s', replay dataStart ⟨new logsuper, m⟩ = .ok () s' ∧
      s'.media = { m.setLogStorage log₁ with fs }.setLogStorage log₂ := by
  obtain ⟨r', hsuper, hback⟩ := backward_eq dataStart pos 0 records.reverse
    ⟨new logsuper, m.setLogStorage log₁⟩
  rw [hissue] at hback
  replace hback : backward dataStart pos 0 records.reverse
      ⟨new logsuper, m.setLogStorage log₁⟩ = .ok () ⟨r', { m.setLogStorage log₁ with fs }⟩ := hback
  have hlog : onLog (LogReader.scan logsuper dataStart) ⟨new logsuper, m⟩ =
      .ok (records, pos) ⟨new logsuper, m.setLogStorage log₁⟩ := zoom_ok hscan
  have hfinal : (markReplayed r').logsuper = replayedSuper logsuper := by
    unfold markReplayed replayedSuper
    rw [hsuper]
    rfl
  rw [replay_of_ne hstate]
  unfold replayLog
  rw [bind_ok hlog]
  simp only
  rw [bind_ok hback, bind_ok (modifyRecovery_apply _ _), bind_ok (get_apply _)]
  simp only [hfinal]
  exact ⟨_, zoom_ok hwrite, rfl⟩

end JournalRecovery

/-! ## The writes of a replay -/

/-- The records the scan returns and the position it ends at; nothing if it
fails. -/
def scanned (logsuper : LogSuper) (dataStart : ℕ) (log : Storage) : List LogRecord × ℕ :=
  match LogReader.scan logsuper dataStart log with
  | .ok result _ => result
  | .error _ _ => ([], dataStart)

/-- The records of a log. -/
def logRecords (logsuper : LogSuper) (dataStart : ℕ) (log : Storage) : List LogRecord :=
  (scanned logsuper dataStart log).1

/-- The block writes of a replay of this log. -/
def replayWrites (logsuper : LogSuper) (dataStart : ℕ) (log : Storage) : List BlockWrite :=
  if logsuper.state.toNat = logRedone then []
  else JournalRecovery.passWrites dataStart (scanned logsuper dataStart log).2 0
    (logRecords logsuper dataStart log).reverse (.new logsuper)

/-- **Every write of a replay is a committed image of the log.** -/
theorem replayWrites_committed (logsuper : LogSuper) (dataStart : ℕ) (log : Storage) :
    ∀ w ∈ replayWrites logsuper dataStart log,
      IsCommittedImage (logRecords logsuper dataStart log) w := by
  intro w hw
  unfold replayWrites at hw
  split at hw
  · simp at hw
  · have hcommits : ∀ tid ∈ (JournalRecovery.new logsuper).commits, CommittedIn [] tid := by
      intro tid htid
      cases htid
    have himage := JournalRecovery.passWrites_committed _ _ _ hcommits w hw
    rwa [List.reverse_reverse, List.append_nil] at himage

/-- The call that marks the log superblock, if the replay makes one on the
filesystem's own storage. -/
def superCalls (logsuper : LogSuper) (dataStart : ℕ) (m : Media) : List StorageCall :=
  if m.log = none ∧ logsuper.state.toNat ≠ logRedone then
    [.writeBytes (dataStart - blockSize)
      (JournalRecovery.finalBytes (replayedSuper logsuper))]
  else []

/-- Byte `i` of the filesystem's storage is in the log superblock's page. -/
def InLogSuper (m : Media) (dataStart i : ℕ) : Prop :=
  m.log = none ∧ dataStart - blockSize ≤ i ∧ i < dataStart - blockSize + blockSize

theorem length_finalBytes (logsuper : LogSuper) :
    (JournalRecovery.finalBytes logsuper).length = 128 := by
  have hwords : (LogManager.superWords logsuper).length = 36 := by
    simp [LogManager.superWords]
  unfold JournalRecovery.finalBytes
  rw [length_splice (by rw [hwords, length_zeros]; omega), length_zeros]

/-- What a replay that returns has done to the filesystem's storage. -/
theorem replay_fs {logsuper : LogSuper} {dataStart : ℕ} {m : Media} {s' : RecoveryState}
    (h : JournalRecovery.replay dataStart ⟨.new logsuper, m⟩ = .ok () s') :
    s'.media.fs.trace = m.fs.trace ++
        (replayWrites logsuper dataStart m.logStorage).map BlockWrite.call ++
        superCalls logsuper dataStart m ∧
      (∀ w ∈ replayWrites logsuper dataStart m.logStorage,
        m.fs.writeBlockRefused w.1 w.2 = none) ∧
      ∀ i, ¬ InLogSuper m dataStart i →
        s'.media.fs.data i =
          afterWrites (replayWrites logsuper dataStart m.logStorage) m.fs.data i := by
  by_cases hstate : logsuper.state.toNat = logRedone
  · rw [JournalRecovery.replay_of_redone hstate] at h
    cases h
    have hwrites : replayWrites logsuper dataStart m.logStorage = [] := if_pos hstate
    have hcalls : superCalls logsuper dataStart m = [] := if_neg fun hcond => hcond.2 hstate
    rw [hwrites, hcalls]
    exact ⟨by simp, by simp, fun i _ => rfl⟩
  obtain ⟨records, pos, log₁, fs, log₂, hscan, hissue, hwrite, hmedia⟩ :=
    JournalRecovery.replay_inv hstate h
  have hscanned : scanned logsuper dataStart m.logStorage = (records, pos) := by
    unfold scanned
    rw [hscan]
  have hwrites : replayWrites logsuper dataStart m.logStorage =
      JournalRecovery.passWrites dataStart pos 0 records.reverse (.new logsuper) := by
    unfold replayWrites logRecords
    rw [if_neg hstate, hscanned]
  have hsame := LogReader.scan_sameButFaults logsuper dataStart m.logStorage
  rw [hscan, final_ok] at hsame
  obtain ⟨hacc, -, hdata, htrace⟩ := issue_ok hissue
  obtain ⟨hdata₂, htrace₂⟩ := StorageM.writeBytes_inv hwrite
  rw [hwrites, hmedia]
  cases hlog : m.log with
  | some log =>
      have hcalls : superCalls logsuper dataStart m = [] := if_neg fun hcond => by
        rw [hlog] at hcond
        cases hcond.1
      simp only [Media.setLogStorage, hlog] at hdata htrace hacc ⊢
      rw [hcalls, htrace, hdata]
      exact ⟨by simp, hacc, fun i _ => rfl⟩
  | none =>
      have hcalls : superCalls logsuper dataStart m = [.writeBytes (dataStart - blockSize)
          (JournalRecovery.finalBytes (replayedSuper logsuper))] := if_pos ⟨hlog, hstate⟩
      have hfs : m.logStorage = m.fs := by
        unfold Media.logStorage
        rw [hlog]
        rfl
      rw [hfs] at hsame
      simp only [Media.setLogStorage, Media.logStorage, hlog, Option.getD_none]
        at hdata htrace hacc hdata₂ htrace₂ ⊢
      rw [hcalls, htrace₂, hdata₂, htrace, hdata, hsame.data, hsame.trace]
      refine ⟨rfl, ?_, ?_⟩
      · intro w hw
        rw [hsame.sameShape.writeBlockRefused]
        exact hacc w hw
      · intro i hi
        refine Memory.write_outside fun hin => hi ⟨hlog, hin.1, ?_⟩
        rw [length_finalBytes] at hin
        simp only [blockSize] at hin ⊢
        omega

/-! ## Where the writes land -/

/-- The block is the target of a committed image. -/
def IsTarget (records : List LogRecord) (block : ℕ) : Prop :=
  ∃ w, IsCommittedImage records w ∧ w.1 = block

/-- Every byte outside the target blocks, and outside the log superblock's page,
is unchanged. -/
def OthersUnchanged (records : List LogRecord) (dataStart : ℕ) (m m' : Media) : Prop :=
  ∀ i, ¬ IsTarget records (i / blockSize) → ¬ InLogSuper m dataStart i →
    m'.fs.data i = m.fs.data i

/-- No write reaches a byte outside the target blocks and the log superblock's
page. -/
def StayInTargets (records : List LogRecord) (writes : List BlockWrite) (m : Media)
    (dataStart : ℕ) : Prop :=
  ∀ w ∈ writes, ∀ i, w.Covers i → IsTarget records (i / blockSize) ∨ InLogSuper m dataStart i

/-- The media with another filesystem content. -/
def Media.withContent (m : Media) (data : ℕ → UInt8) : Media :=
  { m with fs := { m.fs with data } }

theorem attempt_withContent {s s' : Storage} (data : ℕ → UInt8)
    (h : StorageM.attempt s = .ok () s') :
    StorageM.attempt { s with data } = .ok () { s' with data } := by
  obtain ⟨backend, size, grown, old, faults, trace⟩ := s
  rcases faults with _ | ⟨fault, faults⟩
  · cases h
    rfl
  · cases fault
    · cases h
      rfl
    · cases h

/-- The same writes return on any content. -/
theorem issue_withContent {writes : List BlockWrite} {s s' : Storage} (data : ℕ → UInt8)
    (h : issue writes s = .ok () s') :
    issue writes { s with data } = .ok () { s' with data := afterWrites writes data } := by
  induction writes generalizing s data with
  | nil =>
      cases h
      rfl
  | cons w rest ih =>
      obtain ⟨_, t, hwrite, hrest⟩ := of_bind_ok h
      have hfirst : StorageM.writeBlock w.1 w.2 { s with data } =
          .ok () { t with data := Memory.write data (w.1 * blockSize) w.2 } := by
        obtain ⟨_, u, hattempt, hset⟩ := of_bind_ok hwrite
        rw [bind_ok (get_apply u)] at hset
        unfold StorageM.writeBlock
        rw [bind_ok (attempt_withContent data hattempt), bind_ok (get_apply _)]
        have hsame : ({ u with data } : Storage).writeBlockRefused w.1 w.2 =
            u.writeBlockRefused w.1 w.2 := rfl
        rw [hsame]
        cases hacc : u.writeBlockRefused w.1 w.2 with
        | some e => rw [hacc] at hset; cases hset
        | none =>
            rw [hacc] at hset
            cases hset
            rfl
      unfold issue
      rw [bind_ok hfirst]
      exact ih _ hrest

/-- With the log on a storage of its own, a replay returns whatever the content
of the filesystem. -/
theorem replay_withContent {logsuper : LogSuper} {dataStart : ℕ} {m : Media} {s' : RecoveryState}
    (hlog : m.log ≠ none)
    (h : JournalRecovery.replay dataStart ⟨.new logsuper, m⟩ = .ok () s') (data : ℕ → UInt8) :
    ∃ s'', JournalRecovery.replay dataStart ⟨.new logsuper, m.withContent data⟩ = .ok () s'' := by
  by_cases hstate : logsuper.state.toNat = logRedone
  · exact ⟨_, JournalRecovery.replay_of_redone hstate ..⟩
  obtain ⟨records, pos, log₁, fs, log₂, hscan, hissue, hwrite, -⟩ :=
    JournalRecovery.replay_inv hstate h
  obtain ⟨log, hsome⟩ := Option.ne_none_iff_exists'.mp hlog
  have hmedia : (m.withContent data).setLogStorage log₁ =
      (m.setLogStorage log₁).withContent data := by
    simp only [Media.withContent, Media.setLogStorage, hsome]
  have hstorage : (m.withContent data).logStorage = m.logStorage := by
    simp only [Media.withContent, Media.logStorage, hsome, Option.getD_some]
  have hfs := issue_withContent data hissue
  have hfinal : StorageM.writeBytes (dataStart - blockSize)
      (JournalRecovery.finalBytes (replayedSuper logsuper)) log₁ = .ok () log₂ := by
    simpa only [Media.setLogStorage, Media.logStorage, hsome, Option.getD_some] using hwrite
  obtain ⟨s'', hrun, -⟩ := JournalRecovery.replay_of_parts hstate
    (by rw [hstorage]; exact hscan) (by rw [hmedia]; exact hfs)
    (by simpa only [Media.setLogStorage, Media.withContent, Media.logStorage, hsome,
      Option.getD_some] using hfinal)
  exact ⟨s'', hrun⟩

/-- An image that lands on a byte outside the targets changes that byte on some
content. -/
theorem exists_changed_of_not_stay {logsuper : LogSuper} {dataStart : ℕ} {m : Media}
    {s' : RecoveryState} (hlog : m.log ≠ none)
    (h : JournalRecovery.replay dataStart ⟨.new logsuper, m⟩ = .ok () s')
    (hleaves : ¬ StayInTargets (logRecords logsuper dataStart m.logStorage)
      (replayWrites logsuper dataStart m.logStorage) m dataStart) :
    ∃ data s'', JournalRecovery.replay dataStart ⟨.new logsuper, m.withContent data⟩ =
        .ok () s'' ∧
      ¬ OthersUnchanged (logRecords logsuper dataStart m.logStorage) dataStart
        (m.withContent data) s''.media := by
  unfold StayInTargets at hleaves
  push Not at hleaves
  obtain ⟨w, hw, i, hcov, htarget, -⟩ := hleaves
  have hnoSuper : ∀ data, ¬ InLogSuper (m.withContent data) dataStart i := fun data hin =>
    hlog hin.1
  -- byte `i` ends with a value that does not depend on the content before
  have hvalue : ∀ data, afterWrites (replayWrites logsuper dataStart m.logStorage) data i =
      afterWrites (replayWrites logsuper dataStart m.logStorage) m.fs.data i := fun data =>
    Memory.writeAll_congr (Or.inl ⟨w.toBytes, List.mem_map_of_mem hw, hcov⟩)
  generalize hv : afterWrites (replayWrites logsuper dataStart m.logStorage) m.fs.data i = v
    at hvalue
  obtain ⟨s'', hrun⟩ := replay_withContent hlog h fun _ => v + 1
  refine ⟨fun _ => v + 1, s'', hrun, fun hsame => ?_⟩
  have hfs := (replay_fs hrun).2.2 i (hnoSuper _)
  obtain ⟨log, hsome⟩ := Option.ne_none_iff_exists'.mp hlog
  have hstorage : (m.withContent fun _ => v + 1).logStorage = m.logStorage := by
    simp only [Media.withContent, Media.logStorage, hsome, Option.getD_some]
  rw [hsame i htarget (hnoSuper _), hstorage] at hfs
  have habs : v + 1 = v := hfs.trans (hvalue _)
  simp at habs

/-- On a file every image has the length of a block, so it stays in its target. -/
theorem stayInTargets_of_file {logsuper : LogSuper} {dataStart : ℕ} {m : Media}
    {readOnly : Bool} (hbackend : m.fs.backend = .file readOnly)
    (hacc : ∀ w ∈ replayWrites logsuper dataStart m.logStorage,
      m.fs.writeBlockRefused w.1 w.2 = none) :
    StayInTargets (logRecords logsuper dataStart m.logStorage)
      (replayWrites logsuper dataStart m.logStorage) m dataStart := by
  intro w hw i hcov
  have hlen := (Storage.accepted_file hbackend (hacc w hw)).1
  refine Or.inl ⟨w, replayWrites_committed _ _ _ w hw, ?_⟩
  exact ((covers_iff_block hlen i).mp hcov).symm

/-- **A replay that returns has issued exactly its committed images, then the
superblock write.  It leaves every other block alone if no image reaches outside
the target blocks, which is always so on a file; with the log on its own storage,
it leaves them alone on every content only then.** -/
theorem replay_applies_committed_images (logsuper : LogSuper) (dataStart : ℕ) (m : Media)
    (s' : RecoveryState)
    (h : JournalRecovery.replay dataStart ⟨.new logsuper, m⟩ = .ok () s') :
    let records := logRecords logsuper dataStart m.logStorage
    let writes := replayWrites logsuper dataStart m.logStorage
    s'.media.fs.trace = m.fs.trace ++ writes.map BlockWrite.call ++
        superCalls logsuper dataStart m ∧
      (∀ w ∈ writes, IsCommittedImage records w) ∧
      (StayInTargets records writes m dataStart → OthersUnchanged records dataStart m s'.media) ∧
      (∀ readOnly, m.fs.backend = .file readOnly → StayInTargets records writes m dataStart) ∧
      (m.log ≠ none →
        (∀ data s'', JournalRecovery.replay dataStart ⟨.new logsuper, m.withContent data⟩ =
            .ok () s'' → OthersUnchanged records dataStart (m.withContent data) s''.media) →
        StayInTargets records writes m dataStart) := by
  intro records writes
  obtain ⟨htrace, hacc, hdata⟩ := replay_fs h
  refine ⟨htrace, replayWrites_committed _ _ _, ?_, ?_, ?_⟩
  · intro hstay i htarget hsuper
    rw [hdata i hsuper]
    refine Memory.writeAll_of_not_covered fun entry hentry hcov => ?_
    obtain ⟨w, hw, rfl⟩ := List.mem_map.mp hentry
    rcases hstay w hw i hcov with hin | hin
    · exact htarget hin
    · exact hsuper hin
  · intro readOnly hbackend
    exact stayInTargets_of_file hbackend hacc
  · intro hlog hall
    by_contra hleaves
    obtain ⟨data, s'', hrun, hchanged⟩ := exists_changed_of_not_stay hlog h hleaves
    exact hchanged (hall data s'' hrun)

/-! ## An image longer than a block -/

/-- The descriptor of an image of block 1 with 4097 bytes. -/
def longImageLrd : Lrd :=
  LogManager.redoLrd 1 1 0 4097

/-- A log with that image, zero but for the last byte, and its commit. -/
def longImageLog : Storage :=
  { Storage.newMemory 6 with
    data := Memory.writeAll [(8192, lrdBytes longImageLrd), (12324, [255]),
      (12328, lrdBytes (LogManager.commitLrd 1 0))] fun _ => 0 }

/-- Its superblock: two pages, end after the commit. -/
def longImageSuper : LogSuper :=
  { size := 2, logEnd := 4172 }

/-- The log on its own storage, over an empty filesystem of four blocks. -/
def longImageMedia : Media :=
  ⟨Storage.newMemory 4, some longImageLog⟩

/-- The payload as it is read back. -/
def longImage : List UInt8 :=
  Memory.read longImageLog.data 8228 4097

private theorem longImage_scan :
    LogReader.scan longImageSuper 8192 longImageLog =
      .ok ([(longImageLrd, longImage), (LogManager.commitLrd 1 0, [])], 12364) longImageLog := by
  have hlen : longImageLrd.length.toNat = 4097 := by decide
  have hredo : Memory.read longImageLog.data 8192 lrdSize = lrdBytes longImageLrd := by
    decide
  have hcommit : Memory.read longImageLog.data 12328 lrdSize =
      lrdBytes (LogManager.commitLrd 1 0) := by
    decide
  have hzero : Memory.read longImageLog.data 12364 4 = zeros 4 := by decide
  have hread : ∀ stop, stop ≤ 24576 → LogReader.Readable longImageLog stop := fun stop hstop => hstop
  have hfirst := LogReader.nextResult_of_stored (show 8192 < 16384 by decide) (by decide) hredo
    (hread _ (by rw [hlen]; decide))
  have hsecond := LogReader.nextResult_of_stored (show 12328 < 16384 by decide) (by decide) hcommit
    (hread _ (by decide))
  have hthird : LogReader.nextResult longImageLog 16384 12364 = .ok none :=
    LogReader.nextResult_of_zero hzero (hread _ (by decide))
  rw [hlen] at hfirst
  have hrest : LogReader.collect 16384 8192 4172 8191 12328 longImageLog =
      .ok ([(LogManager.commitLrd 1 0, [])], 12364) longImageLog :=
    LogReader.collect_step rfl hsecond (by decide)
      (LogReader.collect_stop rfl hthird 8192 4172 8189)
  have hsize : longImageSuper.size.toNat * logPSize = 8192 := by decide
  have hend : longImageSuper.logEnd.toNat = 4172 := by decide
  rw [LogReader.scan_of_logEnd hsize hend (by decide)]
  exact LogReader.collect_step rfl hfirst (by decide) hrest

private theorem longImage_records :
    logRecords longImageSuper 8192 longImageMedia.logStorage =
      [(longImageLrd, longImage), (LogManager.commitLrd 1 0, [])] := by
  have hstorage : longImageMedia.logStorage = longImageLog := rfl
  unfold logRecords scanned
  rw [hstorage, longImage_scan]

private theorem longImage_writes :
    JournalRecovery.passWrites 8192 12364 0
      [(longImageLrd, longImage), (LogManager.commitLrd 1 0, [])].reverse (.new longImageSuper) =
      [(1, longImage)] := by
  have hcommit : (LogManager.commitLrd 1 0).isCommit = true ∧
      (LogManager.commitLrd 1 0).isSyncpt = false ∧ (LogManager.commitLrd 1 0).logtid = 1 := by
    decide
  have hkind : longImageLrd.isCommit = false ∧ longImageLrd.isMount = false ∧
      longImageLrd.isSyncpt = false ∧ longImageLrd.isRedopage = true := by
    decide
  have hfields : longImageLrd.redopageType = logInode ∧ longImageLrd.logtid = 1 ∧
      longImageLrd.redopagePxd.address = 1 := by
    decide
  simp [JournalRecovery.passWrites, JournalRecovery.recordWrite, JournalRecovery.recordTables,
    JournalRecovery.new, hcommit, hkind, hfields]

/-- The replay writes all 4097 bytes from the start of block 1 on. -/
private theorem longImage_replay :
    ∃ s, JournalRecovery.replay 8192 ⟨.new longImageSuper, longImageMedia⟩ = .ok () s ∧
      s.media.fs.data = Memory.write (fun _ => 0) 4096 longImage := by
  have hlen : longImage.length = 4097 := Memory.length_read ..
  have haccepted : (Storage.newMemory 4).writeBlockRefused 1 longImage = none := by
    unfold Storage.writeBlockRefused Storage.writeRefused
    rw [hlen]
    rfl
  obtain ⟨fs, hissue, -⟩ := issue_of_accepted rfl
    (show ∀ w ∈ [(1, longImage)], (Storage.newMemory 4).writeBlockRefused w.1 w.2 = none by
      simpa using haccepted)
  have hdata : fs.data = afterWrites [(1, longImage)] fun _ => 0 := (issue_ok hissue).2.2.1
  rw [← longImage_writes] at hissue
  have hsuper : longImageLog.writeRefused 4096
      (JournalRecovery.finalBytes (replayedSuper longImageSuper)).length = none := by
    rw [length_finalBytes]
    rfl
  have hstate : longImageSuper.state.toNat ≠ logRedone := by decide
  obtain ⟨s, hrun, hmedia⟩ := JournalRecovery.replay_of_parts (m := longImageMedia) hstate
    longImage_scan hissue (StorageM.writeBytes_ok rfl hsuper)
  have hfs : s.media.fs = fs := by
    rw [hmedia]
    rfl
  have hoffset : 1 * blockSize = 4096 := by decide
  refine ⟨s, hrun, ?_⟩
  rw [hfs, hdata]
  simp only [afterWrites, BlockWrite.toBytes, List.map_cons, List.map_nil, Memory.writeAll_cons,
    Memory.writeAll_nil, hoffset]

/-- The descriptor of the image names the only target. -/
private theorem longImage_target {block : ℕ}
    (h : IsTarget [(longImageLrd, longImage), (LogManager.commitLrd 1 0, [])] block) :
    block = 1 := by
  obtain ⟨w, ⟨before, record, after, hsplit, himage, hredo, -, -⟩, rfl⟩ := h
  have hmem : record ∈ [(longImageLrd, longImage), (LogManager.commitLrd 1 0, [])] := by
    rw [hsplit]
    simp
  rw [himage]
  simp only [List.mem_cons, List.not_mem_nil, or_false] at hmem
  rcases hmem with rfl | rfl
  · show longImageLrd.redopagePxd.address = 1
    decide
  · exact absurd hredo (by decide)

theorem replay_applies_committed_images_longImage :
    ∃ s, JournalRecovery.replay 8192 ⟨.new longImageSuper, longImageMedia⟩ = .ok () s ∧
      ∀ w ∈ replayWrites longImageSuper 8192 longImageMedia.logStorage,
        IsCommittedImage (logRecords longImageSuper 8192 longImageMedia.logStorage) w := by
  obtain ⟨s, hrun, -⟩ := longImage_replay
  exact ⟨s, hrun, (replay_applies_committed_images longImageSuper 8192 longImageMedia s hrun).2.1⟩

/-- The first byte of block 2, which no record of the log names, is overwritten. -/
theorem replay_changes_next_block :
    ∃ s, JournalRecovery.replay 8192 ⟨.new longImageSuper, longImageMedia⟩ = .ok () s ∧
      ¬ OthersUnchanged (logRecords longImageSuper 8192 longImageMedia.logStorage) 8192
        longImageMedia s.media := by
  obtain ⟨s, hrun, hdata⟩ := longImage_replay
  refine ⟨s, hrun, fun hsame => ?_⟩
  have hbyte := hsame 8192 (fun htarget => by
      rw [longImage_records] at htarget
      exact absurd (longImage_target htarget) (by decide))
    (fun hsuper => by cases hsuper.1)
  have hlen : longImage.length = 4097 := Memory.length_read ..
  have hlast : Memory.write (fun _ => 0) 4096 longImage 8192 = longImageLog.data 12324 := by
    rw [Memory.write_inside 0 ⟨by decide, by rw [hlen]; decide⟩]
    exact Memory.getD_read longImageLog.data 0 (by decide)
  rw [hdata, hlast] at hbyte
  exact absurd hbyte (by decide)

end JfsFuse
