import JfsFuse.Journal.CommittedOnly

/-!
# Recovery can be restarted

A recovery reads the log superblock and replays the log.  One that is cut off has
issued some first part of its block writes.  If these left the bytes that the
recovery reads alone, a second one reads the same log, issues the same writes over
the first part, and marks the log as replayed; a third one then finds nothing to
do.

With the log on its own storage the block writes cannot reach it.  On a shared
storage they may, even if none of them targets the log area: the reader checks
that a record starts inside the area, and not that it ends there.
-/

namespace JfsFuse

open ByteBuf Program

/-- Run `read_super` on the log, and `replay` with the superblock that it returns. -/
def recover (logBase : ℕ) : EStateM StorageError Media Unit := fun m =>
  match LogManager.readSuper logBase m.logStorage with
  | .error e log => .error e (m.setLogStorage log)
  | .ok logsuper log =>
      match JournalRecovery.replay (logBase + 2 * blockSize)
          ⟨.new logsuper, m.setLogStorage log⟩ with
      | .error e s => .error e s.media
      | .ok _ s => .ok () s.media

/-- The block writes of a recovery of `m`. -/
def recoveryWrites (logsuper : LogSuper) (logBase : ℕ) (m : Media) : List BlockWrite :=
  replayWrites logsuper (logBase + 2 * blockSize) m.logStorage

/-- The bytes from the log superblock to the end of the log area, and to the end
of the last record the scan reads. -/
def InLog (logsuper : LogSuper) (logBase : ℕ) (m : Media) (i : ℕ) : Prop :=
  logBase + blockSize ≤ i ∧
    i < max (logBase + 2 * blockSize + logsuper.size.toNat * logPSize)
      (scanned logsuper (logBase + 2 * blockSize) m.logStorage).2

/-- If the log shares the storage of the filesystem, no write of the recovery
reaches into the log. -/
def LogUntouched (logsuper : LogSuper) (logBase : ℕ) (m : Media) : Prop :=
  m.log = none → ∀ w ∈ recoveryWrites logsuper logBase m, ∀ i, w.Covers i →
    ¬ InLog logsuper logBase m i

/-! ## Parts of a recovery -/

namespace Media

theorem setLogStorage_logStorage (m : Media) : m.setLogStorage m.logStorage = m := by
  unfold setLogStorage logStorage
  split
  · next log hlog =>
      rw [hlog, Option.getD_some, ← hlog]
  · next hlog =>
      rw [hlog, Option.getD_none, ← hlog]

end Media

/-- The superblock in a page. -/
def superOf (page : List UInt8) : LogSuper where
  magic := UInt32.ofNat (readLE page 0 4)
  version := UInt32.ofNat (readLE page 4 4)
  serial := UInt32.ofNat (readLE page 8 4)
  size := UInt32.ofNat (readLE page 12 4)
  bsize := UInt32.ofNat (readLE page 16 4)
  l2bsize := UInt32.ofNat (readLE page 20 4)
  flag := UInt32.ofNat (readLE page 24 4)
  state := UInt32.ofNat (readLE page 28 4)
  logEnd := UInt32.ofNat (readLE page 32 4)
  uuid := Vector.ofFn fun i => page.getD (36 + i) 0
  label := Vector.ofFn fun i => page.getD (52 + i) 0

/-- `read_super` on a storage that does not fail. -/
theorem readSuper_eq {s : Storage} (hfaults : s.faults = []) (logBase : ℕ) :
    LogManager.readSuper logBase s =
      match s.readResult (logBase + blockSize) blockSize with
      | .ok page => .ok (superOf page) s
      | .error e => .error e s := by
  unfold LogManager.readSuper
  cases hresult : s.readResult (logBase + blockSize) blockSize with
  | ok page =>
      have hread : StorageM.readBytes (logBase + blockSize) blockSize s = .ok page s := by
        rw [StorageM.readBytes_eq hfaults, hresult]
        rfl
      rw [bind_ok hread]
      rfl
  | error e =>
      have hread : StorageM.readBytes (logBase + blockSize) blockSize s = .error e s := by
        rw [StorageM.readBytes_eq hfaults, hresult]
        rfl
      rw [bind_error hread]

/-- A recovery is a replay with the superblock in the storage. -/
theorem recover_of_super {logBase : ℕ} {m : Media} {logsuper : LogSuper}
    (hsuper : LogManager.readSuper logBase m.logStorage = .ok logsuper m.logStorage) :
    recover logBase m =
      match JournalRecovery.replay (logBase + 2 * blockSize) ⟨.new logsuper, m⟩ with
      | .error e s => .error e s.media
      | .ok _ s => .ok () s.media := by
  unfold recover
  rw [hsuper]
  simp only [Media.setLogStorage_logStorage]

/-- On a storage that does not fail, block writes that returned leave it so. -/
theorem issue_faults {writes : List BlockWrite} {s s' : Storage} (hfaults : s.faults = [])
    (h : issue writes s = .ok () s') : s'.faults = [] := by
  obtain ⟨t, hrun, ht⟩ := issue_of_accepted hfaults (issue_ok h).1
  rw [h] at hrun
  cases hrun
  exact ht

/-- A write of bytes that returned on a storage that does not fail. -/
theorem writeBytes_accepted {offset : ℕ} {data : List UInt8} {s s' : Storage}
    (hfaults : s.faults = []) (h : StorageM.writeBytes offset data s = .ok () s') :
    s.writeRefused offset data.length = none ∧
      s' = (s.written offset data).record (.writeBytes offset data) := by
  cases hacc : s.writeRefused offset data.length with
  | none =>
      rw [StorageM.writeBytes_ok hfaults hacc] at h
      cases h
      exact ⟨rfl, rfl⟩
  | some e =>
      unfold StorageM.writeBytes at h
      rw [bind_ok (StorageM.attempt_ok hfaults), bind_ok (get_apply s), hacc] at h
      cases h

theorem writeRefused_congr {s t : Storage} (hshape : Storage.SameShape s t) (offset n : ℕ) :
    s.writeRefused offset n = t.writeRefused offset n := by
  unfold Storage.writeRefused
  rw [hshape.1, hshape.2.1]

/-- The log after the filesystem's writes, for two storages of one shape. -/
theorem sameShape_logStorage {m : Media} {fs fs' : Storage} (h : Storage.SameShape fs fs') :
    Storage.SameShape { m with fs }.logStorage { m with fs := fs' }.logStorage := by
  obtain ⟨fs₀, log⟩ := m
  cases log with
  | some log => exact Storage.SameShape.refl log
  | none => exact h

theorem logStorage_faults {m : Media} {fs : Storage} (hlog : m.logStorage.faults = [])
    (hfs : fs.faults = []) : { m with fs }.logStorage.faults = [] := by
  obtain ⟨fs₀, log⟩ := m
  cases log with
  | some log => exact hlog
  | none => exact hfs

/-- Writing a first part of the writes, then all of them, leaves the same content
as writing all of them. -/
theorem afterWrites_take (writes : List BlockWrite) (k : ℕ) (data : ℕ → UInt8) :
    afterWrites writes (afterWrites (writes.take k) data) = afterWrites writes data := by
  unfold afterWrites
  refine Memory.writeAll_absorb_subset data ?_
  intro entry hentry
  obtain ⟨w, hw, rfl⟩ := List.mem_map.mp hentry
  exact List.mem_map_of_mem (List.mem_of_mem_take hw)

/-! ## The log after a cut-off -/

section CutOff

variable {logBase k pos : ℕ} {m : Media} {logsuper : LogSuper} {fs : Storage}
  {records : List LogRecord}

/-- The storage of the log keeps its shape. -/
theorem cutOff_sameShape (hcut : issue ((recoveryWrites logsuper logBase m).take k) m.fs = .ok () fs) :
    Storage.SameShape m.logStorage { m with fs }.logStorage :=
  sameShape_logStorage (issue_ok hcut).2.1

theorem cutOff_faults (hfs : m.fs.faults = []) (hlogFaults : m.logStorage.faults = [])
    (hcut : issue ((recoveryWrites logsuper logBase m).take k) m.fs = .ok () fs) :
    { m with fs }.logStorage.faults = [] :=
  logStorage_faults hlogFaults (issue_faults hfs hcut)

/-- The bytes of the log are unchanged. -/
theorem cutOff_agree (huntouched : LogUntouched logsuper logBase m)
    (hcut : issue ((recoveryWrites logsuper logBase m).take k) m.fs = .ok () fs) {i : ℕ}
    (hi : InLog logsuper logBase m i) :
    m.logStorage.data i = { m with fs }.logStorage.data i := by
  obtain ⟨fs₀, log⟩ := m
  cases log with
  | some log => rfl
  | none =>
      show fs₀.data i = fs.data i
      rw [(issue_ok hcut).2.2.1]
      refine (Memory.writeAll_of_not_covered fun entry hentry hcov => ?_).symm
      obtain ⟨w, hw, rfl⟩ := List.mem_map.mp hentry
      exact huntouched rfl w (List.mem_of_mem_take hw) i hcov hi

/-- So a second recovery reads the same superblock, -/
theorem cutOff_super (hfs : m.fs.faults = []) (hlogFaults : m.logStorage.faults = [])
    (huntouched : LogUntouched logsuper logBase m)
    (hcut : issue ((recoveryWrites logsuper logBase m).take k) m.fs = .ok () fs)
    (hsuper : LogManager.readSuper logBase m.logStorage = .ok logsuper m.logStorage) :
    LogManager.readSuper logBase { m with fs }.logStorage =
      .ok logsuper { m with fs }.logStorage := by
  have hagree : LogReader.AgreeOn m.logStorage { m with fs }.logStorage (logBase + blockSize)
      (logBase + blockSize + blockSize) := by
    intro i hlow hhigh
    refine cutOff_agree huntouched hcut ⟨hlow, ?_⟩
    omega
  have hread := LogReader.readResult_congr (cutOff_sameShape hcut) hagree
  rw [readSuper_eq hlogFaults] at hsuper
  rw [readSuper_eq (cutOff_faults hfs hlogFaults hcut), ← hread]
  cases hresult : m.logStorage.readResult (logBase + blockSize) blockSize with
  | error e => rw [hresult] at hsuper; cases hsuper
  | ok page =>
      rw [hresult] at hsuper
      cases hsuper
      rfl

/-- and scans the same records. -/
theorem cutOff_scan (hfs : m.fs.faults = []) (hlogFaults : m.logStorage.faults = [])
    (huntouched : LogUntouched logsuper logBase m)
    (hcut : issue ((recoveryWrites logsuper logBase m).take k) m.fs = .ok () fs)
    (hscan : LogReader.scan logsuper (logBase + 2 * blockSize) m.logStorage =
      .ok (records, pos) m.logStorage) :
    LogReader.scan logsuper (logBase + 2 * blockSize) { m with fs }.logStorage =
      .ok (records, pos) { m with fs }.logStorage := by
  refine LogReader.scan_congr hlogFaults (cutOff_faults hfs hlogFaults hcut)
    (cutOff_sameShape hcut) hscan ?_
  intro i hlow hhigh
  refine cutOff_agree huntouched hcut ⟨by omega, ?_⟩
  unfold scanned
  rwa [hscan]

/-- Conversely, what a second recovery scans is what an uninterrupted one scans. -/
theorem uncut_scan (hfs : m.fs.faults = []) (hlogFaults : m.logStorage.faults = [])
    (huntouched : LogUntouched logsuper logBase m)
    (hcut : issue ((recoveryWrites logsuper logBase m).take k) m.fs = .ok () fs)
    (hscan : LogReader.scan logsuper (logBase + 2 * blockSize) { m with fs }.logStorage =
      .ok (records, pos) { m with fs }.logStorage) :
    LogReader.scan logsuper (logBase + 2 * blockSize) m.logStorage =
      .ok (records, pos) m.logStorage := by
  cases hscan₁ : LogReader.scan logsuper (logBase + 2 * blockSize) m.logStorage with
  | error e log =>
      -- a recovery whose scan fails has no writes, so nothing was cut off
      have hnone : recoveryWrites logsuper logBase m = [] := by
        unfold recoveryWrites replayWrites logRecords scanned
        rw [hscan₁]
        split <;> rfl
      rw [hnone, List.take_nil] at hcut
      cases hcut
      rw [hscan₁] at hscan
      cases hscan
  | ok result log =>
      obtain rfl := LogReader.scan_eq_self hlogFaults hscan₁
      obtain ⟨records₁, pos₁⟩ := result
      have hcopy := cutOff_scan hfs hlogFaults huntouched hcut hscan₁
      rw [hscan] at hcopy
      cases hcopy
      rfl

end CutOff

/-! ## After a recovery -/

theorem readResult_inv {s : Storage} {offset n : ℕ} {data : List UInt8}
    (h : s.readResult offset n = .ok data) : data = Memory.read s.data offset n := by
  unfold Storage.readResult at h
  cases hbackend : s.backend <;> simp only [hbackend] at h <;> split at h <;> cases h <;> rfl

/-- The `i`-th of a list of words, in their bytes. -/
theorem readLE_flatMap_words (words : List UInt32) (i : ℕ) :
    readLE (words.flatMap fun word => leBytes 4 word.toNat) (4 * i) 4 =
      (words.getD i 0).toNat := by
  induction words generalizing i with
  | nil => simp [readLE, slice, leNat]
  | cons word rest ih =>
      have hlt : word.toNat < 256 ^ 4 := word.toNat_lt
      rw [List.flatMap_cons]
      cases i with
      | zero =>
          rw [readLE_append_left _ (by simp), Nat.mul_zero, readLE_leBytes, Nat.mod_eq_of_lt hlt]
          rfl
      | succ i =>
          have hoff : 4 * (i + 1) - 4 = 4 * i := by omega
          rw [readLE_append_right _ _ (by simp), length_leBytes, hoff, ih]
          rfl

/-- A replay leaves its mark in the superblock. -/
theorem superOf_replayed (logsuper : LogSuper) {s : Storage} {offset : ℕ} {page : List UInt8}
    {data : ℕ → UInt8}
    (hdata : s.data = Memory.write data offset (JournalRecovery.finalBytes (replayedSuper logsuper)))
    (hread : s.readResult offset blockSize = .ok page) :
    (superOf page).state.toNat = logRedone := by
  have hpage : page = splice (Memory.read data offset blockSize) 0
      (JournalRecovery.finalBytes (replayedSuper logsuper)) := by
    rw [readResult_inv hread, hdata, Memory.read_write_window le_rfl
      (by rw [length_finalBytes]; unfold blockSize; omega), Nat.sub_self]
  have hwords : (LogManager.superWords (replayedSuper logsuper)).length = 36 := by
    simp [LogManager.superWords]
  have hstate : readLE page 28 4 = logRedone := by
    calc readLE page 28 4
        = readLE (JournalRecovery.finalBytes (replayedSuper logsuper)) 28 4 := by
          rw [hpage]
          exact readLE_splice_inside (by simp) (by omega) (by rw [length_finalBytes]; omega)
      _ = readLE (LogManager.superWords (replayedSuper logsuper)) 28 4 := by
          unfold JournalRecovery.finalBytes
          exact readLE_splice_inside (by simp) (by omega) (by rw [hwords]; omega)
      _ = logRedone := readLE_flatMap_words _ 7
  show (UInt32.ofNat (readLE page 28 4)).toNat = logRedone
  rw [hstate]
  decide

/-- What can be read from a storage can be read from one that is no shorter. -/
theorem readResult_of_le {s t : Storage} (hbackend : s.backend = t.backend) (hsize : s.size = t.size)
    (hlen : s.len ≤ t.len) {offset n : ℕ} {page : List UInt8}
    (h : s.readResult offset n = .ok page) : ∃ page', t.readResult offset n = .ok page' := by
  unfold Storage.readResult at h ⊢
  rw [hbackend, hsize] at h
  cases hcase : t.backend with
  | memory =>
      simp only [hcase] at h ⊢
      split at h
      · cases h
      next hfits => exact ⟨_, if_neg hfits⟩
  | file readOnly =>
      simp only [hcase] at h ⊢
      split at h
      next hfits => exact ⟨_, if_pos (hfits.imp_right fun hle => hle.trans hlen)⟩
      · cases h

theorem len_le_written (s : Storage) (offset : ℕ) (data : List UInt8) (call : StorageCall) :
    s.len ≤ ((s.written offset data).record call).len := by
  unfold Storage.len Storage.record Storage.written
  simp only
  split <;> omega

/-- A recovery of a log that is marked as replayed does nothing. -/
theorem recover_of_redone {logBase : ℕ} {m : Media} {logsuper : LogSuper}
    (hsuper : LogManager.readSuper logBase m.logStorage = .ok logsuper m.logStorage)
    (hstate : logsuper.state.toNat = logRedone) : recover logBase m = .ok () m := by
  rw [recover_of_super hsuper, JournalRecovery.replay_of_redone hstate]

/-- The parts of a recovery that returned: all its writes, then the mark in the
superblock. -/
theorem recover_inv {logBase : ℕ} {m m' : Media} {logsuper : LogSuper}
    (hlogFaults : m.logStorage.faults = [])
    (hsuper : LogManager.readSuper logBase m.logStorage = .ok logsuper m.logStorage)
    (hstate : logsuper.state.toNat ≠ logRedone) (h : recover logBase m = .ok () m') :
    ∃ records pos fs log,
      LogReader.scan logsuper (logBase + 2 * blockSize) m.logStorage =
        .ok (records, pos) m.logStorage ∧
      issue (JournalRecovery.passWrites (logBase + 2 * blockSize) pos 0 records.reverse
        (.new logsuper)) m.fs = .ok () fs ∧
      StorageM.writeBytes (logBase + blockSize)
        (JournalRecovery.finalBytes (replayedSuper logsuper)) { m with fs }.logStorage =
        .ok () log ∧
      m' = { m with fs }.setLogStorage log := by
  have hoffset : logBase + 2 * blockSize - blockSize = logBase + blockSize := by omega
  rw [recover_of_super hsuper] at h
  cases hreplay : JournalRecovery.replay (logBase + 2 * blockSize) ⟨.new logsuper, m⟩ with
  | error e s => rw [hreplay] at h; cases h
  | ok _ s =>
      rw [hreplay] at h
      cases h
      obtain ⟨records, pos, log₁, fs, log, hscan, hissue, hwrite, hmedia⟩ :=
        JournalRecovery.replay_inv hstate hreplay
      obtain rfl := LogReader.scan_eq_self hlogFaults hscan
      rw [Media.setLogStorage_logStorage] at hissue hwrite hmedia
      rw [hoffset] at hwrite
      exact ⟨records, pos, fs, log, hscan, hissue, hwrite, hmedia⟩

theorem recover_of_parts {logBase pos : ℕ} {m : Media} {logsuper : LogSuper}
    {records : List LogRecord} {fs log : Storage}
    (hsuper : LogManager.readSuper logBase m.logStorage = .ok logsuper m.logStorage)
    (hstate : logsuper.state.toNat ≠ logRedone)
    (hscan : LogReader.scan logsuper (logBase + 2 * blockSize) m.logStorage =
      .ok (records, pos) m.logStorage)
    (hissue : issue (JournalRecovery.passWrites (logBase + 2 * blockSize) pos 0 records.reverse
      (.new logsuper)) m.fs = .ok () fs)
    (hwrite : StorageM.writeBytes (logBase + blockSize)
      (JournalRecovery.finalBytes (replayedSuper logsuper)) { m with fs }.logStorage =
      .ok () log) :
    recover logBase m = .ok () ({ m with fs }.setLogStorage log) := by
  have hoffset : logBase + 2 * blockSize - blockSize = logBase + blockSize := by omega
  rw [← hoffset] at hwrite
  rw [← Media.setLogStorage_logStorage m] at hissue hwrite
  obtain ⟨s, hrun, hmedia⟩ := JournalRecovery.replay_of_parts hstate hscan hissue hwrite
  rw [Media.setLogStorage_logStorage] at hmedia
  rw [recover_of_super hsuper, hrun]
  simp only [hmedia]

/-- A write to the log adds at most its own call to the trace. -/
theorem trace_setLogStorage {m : Media} {fs log : Storage} {call : StorageCall}
    (hlog : log.trace = { m with fs }.logStorage.trace ++ [call]) :
    fs.trace <+: ({ m with fs }.setLogStorage log).fs.trace := by
  obtain ⟨fs₀, own⟩ := m
  cases own with
  | some own => exact List.prefix_rfl
  | none =>
      show fs.trace <+: log.trace
      rw [hlog]
      exact List.prefix_append ..

/-- The same write to the log leaves the same filesystem content. -/
theorem setLogStorage_data {m : Media} {fs fs' log log' : Storage} {offset : ℕ}
    {data : List UInt8} (hdata : fs.data = fs'.data)
    (hlog : log.data = Memory.write { m with fs }.logStorage.data offset data)
    (hlog' : log'.data = Memory.write { m with fs := fs' }.logStorage.data offset data) :
    ({ m with fs }.setLogStorage log).fs.data =
      ({ m with fs := fs' }.setLogStorage log').fs.data := by
  obtain ⟨fs₀, own⟩ := m
  cases own with
  | some own => exact hdata
  | none =>
      have hleft : log.data = Memory.write fs.data offset data := hlog
      have hright : log'.data = Memory.write fs'.data offset data := hlog'
      show log.data = log'.data
      rw [hleft, hright, hdata]

/-- A further recovery after one that returned changes nothing. -/
theorem recover_again {logBase : ℕ} {m m' : Media} {logsuper : LogSuper}
    (hfs : m.fs.faults = []) (hlogFaults : m.logStorage.faults = [])
    (hsuper : LogManager.readSuper logBase m.logStorage = .ok logsuper m.logStorage)
    (h : recover logBase m = .ok () m') : recover logBase m' = .ok () m' := by
  by_cases hstate : logsuper.state.toNat = logRedone
  · have hsame := recover_of_redone hsuper hstate
    rw [h] at hsame
    cases hsame
    exact h
  obtain ⟨records, pos, fs, log, -, hissue, hwrite, rfl⟩ :=
    recover_inv hlogFaults hsuper hstate h
  have hshape : Storage.SameShape m.logStorage { m with fs }.logStorage :=
    sameShape_logStorage (issue_ok hissue).2.1
  have hfaults : { m with fs }.logStorage.faults = [] :=
    logStorage_faults hlogFaults (issue_faults hfs hissue)
  obtain ⟨-, hlog⟩ := writeBytes_accepted hfaults hwrite
  have hlogFaults' : log.faults = [] := by
    rw [hlog]
    exact hfaults
  have hlen : m.logStorage.len ≤ log.len := by
    have hsame : m.logStorage.len = { m with fs }.logStorage.len := by
      unfold Storage.len
      rw [hshape.2.1, hshape.2.2]
    rw [hlog, hsame]
    exact len_le_written ..
  -- the superblock can still be read, and its state is the mark
  obtain ⟨page, hpage⟩ : ∃ page, log.readResult (logBase + blockSize) blockSize = .ok page := by
    rw [readSuper_eq hlogFaults] at hsuper
    cases hresult : m.logStorage.readResult (logBase + blockSize) blockSize with
    | error e => rw [hresult] at hsuper; cases hsuper
    | ok page =>
        refine readResult_of_le ?_ ?_ hlen hresult
        · rw [hlog]
          exact hshape.1
        · rw [hlog]
          exact hshape.2.1
  have hsuper' : LogManager.readSuper logBase ({ m with fs }.setLogStorage log).logStorage =
      .ok (superOf page) ({ m with fs }.setLogStorage log).logStorage := by
    rw [Media.logStorage_setLogStorage, readSuper_eq hlogFaults', hpage]
  exact recover_of_redone hsuper'
    (superOf_replayed logsuper (StorageM.writeBytes_inv hwrite).1 hpage)

/-- **A recovery that was cut off after some of its block writes can be restarted:
if the writes left the log alone and the second recovery returns, the content is
that of one uninterrupted recovery, and a third recovery changes nothing.** -/
theorem recover_restart (logBase k : ℕ) (m m₂ : Media) (logsuper : LogSuper) (fs : Storage)
    (hfs : m.fs.faults = []) (hlogFaults : m.logStorage.faults = [])
    (hsuper : LogManager.readSuper logBase m.logStorage = .ok logsuper m.logStorage)
    (huntouched : LogUntouched logsuper logBase m)
    (hcut : issue ((recoveryWrites logsuper logBase m).take k) m.fs = .ok () fs)
    (hsecond : recover logBase { m with fs } = .ok () m₂) :
    ∃ m₁, recover logBase m = .ok () m₁ ∧ fs.trace <+: m₁.fs.trace ∧
      m₂.fs.data = m₁.fs.data ∧ recover logBase m₂ = .ok () m₂ := by
  have hsuper' := cutOff_super hfs hlogFaults huntouched hcut hsuper
  have hfaults' := cutOff_faults hfs hlogFaults hcut
  have hagain : recover logBase m₂ = .ok () m₂ :=
    recover_again (issue_faults hfs hcut) hfaults' hsuper' hsecond
  by_cases hstate : logsuper.state.toNat = logRedone
  · -- nothing was written, and nothing is
    have hwrites : recoveryWrites logsuper logBase m = [] := if_pos hstate
    rw [hwrites, List.take_nil] at hcut
    cases hcut
    have hfirst : recover logBase m = .ok () m := recover_of_redone hsuper hstate
    have hsame : EStateM.Result.ok () m = .ok () m₂ := hfirst.symm.trans hsecond
    cases hsame
    exact ⟨m, hfirst, List.prefix_rfl, rfl, hagain⟩
  obtain ⟨records, pos, fs₂, log₂, hscan₂, hissue₂, hwrite₂, rfl⟩ :=
    recover_inv hfaults' hsuper' hstate hsecond
  have hscan := uncut_scan hfs hlogFaults huntouched hcut hscan₂
  have hwrites : recoveryWrites logsuper logBase m =
      JournalRecovery.passWrites (logBase + 2 * blockSize) pos 0 records.reverse
        (.new logsuper) := by
    unfold recoveryWrites replayWrites logRecords scanned
    rw [if_neg hstate, hscan]
  rw [← hwrites] at hissue₂
  obtain ⟨haccepted, hshape₂, hdata₂, -⟩ := issue_ok hissue₂
  obtain ⟨-, hshape, hdata, htrace⟩ := issue_ok hcut
  -- the uninterrupted run issues the same writes and leaves the same content
  obtain ⟨fs₁, hissue₁, hfs₁⟩ := issue_of_accepted hfs fun w hw =>
    (hshape.writeBlockRefused w.1 w.2).trans (haccepted w hw)
  obtain ⟨-, hshape₁, hdata₁, htrace₁⟩ := issue_ok hissue₁
  have hsame : fs₂.data = fs₁.data := by
    rw [hdata₂, hdata, hdata₁, afterWrites_take]
  have hshape₁₂ : Storage.SameShape { m with fs := fs₂ }.logStorage { m with fs := fs₁ }.logStorage :=
    sameShape_logStorage ((hshape.trans hshape₂).symm.trans hshape₁)
  have hlogFaults₂ : { m with fs := fs₂ }.logStorage.faults = [] :=
    logStorage_faults hlogFaults (issue_faults (issue_faults hfs hcut) hissue₂)
  obtain ⟨hacc, -⟩ := writeBytes_accepted hlogFaults₂ hwrite₂
  rw [writeRefused_congr hshape₁₂] at hacc
  have hwrite₁ := StorageM.writeBytes_ok (logStorage_faults hlogFaults hfs₁) hacc
  have hfirst := recover_of_parts hsuper hstate hscan (hwrites ▸ hissue₁) hwrite₁
  refine ⟨_, hfirst, ?_, ?_, hagain⟩
  · have hprefix : fs.trace <+: fs₁.trace := by
      rw [htrace, htrace₁, List.map_take]
      exact (List.prefix_append_right_inj _).mpr (List.take_prefix k _)
    exact hprefix.trans (trace_setLogStorage (StorageM.writeBytes_inv hwrite₁).2)
  · exact setLogStorage_data hsame (StorageM.writeBytes_inv hwrite₂).1
      (StorageM.writeBytes_inv hwrite₁).1

/-! ## A commit record that runs past the log area -/

/-- A log of three pages at the start of the storage, its area up to block 5.
Transaction 1 writes blocks 7 and 5, and transaction 2, which never commits,
block 6.  The commit record of transaction 1 starts in the last 4 bytes of the
area.  All payloads are zero but for the first byte of the image of block 7. -/
def straddlingData : ℕ → UInt8 :=
  Memory.writeAll [(4096, LogManager.superWords { magic := 0x87654321, version := 1, size := 3, logEnd := 12320 }),
    (8192, lrdBytes (LogManager.redoLrd 1 7 0 4096)), (8228, [1]),
    (12324, lrdBytes (LogManager.redoLrd 1 5 0 4096)),
    (16456, lrdBytes (LogManager.redoLrd 2 6 0 3984)),
    (20476, lrdBytes (LogManager.commitLrd 1 0))] fun _ => 0

def straddlingLog : Storage :=
  { Storage.newMemory 8 with data := straddlingData }

/-- The superblock in it. -/
def straddlingSuper : LogSuper :=
  superOf (Memory.read straddlingData 4096 blockSize)

private theorem word_of_read (data : ℕ → UInt8) (off i : ℕ) (hi : i + 4 ≤ blockSize) :
    readLE (Memory.read data off blockSize) i 4 = leNat (Memory.read data (off + i) 4) := by
  unfold readLE
  rw [Memory.slice_read data hi]

private theorem straddlingSuper_fields :
    straddlingSuper.size = 3 ∧ straddlingSuper.logEnd = 12320 ∧ straddlingSuper.state = 0 := by
  have hfits : ∀ i, i ≤ 4000 → i + 4 ≤ blockSize := fun i hi => by unfold blockSize; omega
  refine ⟨?_, ?_, ?_⟩
  · show UInt32.ofNat (readLE _ 12 4) = 3
    rw [word_of_read _ _ _ (hfits 12 (by omega))]
    decide
  · show UInt32.ofNat (readLE _ 32 4) = 12320
    rw [word_of_read _ _ _ (hfits 32 (by omega))]
    decide
  · show UInt32.ofNat (readLE _ 28 4) = 0
    rw [word_of_read _ _ _ (hfits 28 (by omega))]
    decide

/-- The records that a scan finds when the descriptors are where they are in
`straddlingLog`, with `last` in the place of the commit record. -/
def straddlingRecords (data : ℕ → UInt8) (last : Lrd) : List LogRecord :=
  [(LogManager.redoLrd 1 7 0 4096, Memory.read data 8228 4096),
    (LogManager.redoLrd 1 5 0 4096, Memory.read data 12360 4096),
    (LogManager.redoLrd 2 6 0 3984, Memory.read data 16492 3984), (last, [])]

private theorem straddling_scan {s : Storage} (hshape : Storage.SameShape straddlingLog s)
    (hfaults : s.faults = []) (hsame : ∀ i, i < 20480 → s.data i = straddlingData i)
    {last : Lrd} (htid : last.logtid ≠ 0) (hlength : last.length.toNat = 0)
    (hlast : Memory.read s.data 20476 lrdSize = lrdBytes last) :
    LogReader.scan straddlingSuper 8192 s = .ok (straddlingRecords s.data last, 20512) s := by
  have hread : ∀ stop, stop ≤ 32768 → LogReader.Readable s stop := by
    intro stop hstop
    have hbackend : s.backend = .memory := hshape.1.symm
    have hsize : s.size = 32768 := hshape.2.1.symm
    unfold LogReader.Readable
    rw [hbackend]
    exact hsize ▸ hstop
  have hkeep : ∀ off, off + lrdSize ≤ 20480 →
      Memory.read s.data off lrdSize = Memory.read straddlingData off lrdSize := fun off hoff =>
    Memory.read_congr fun i _ hi => hsame i (by omega)
  have hlen₁ : (LogManager.redoLrd 1 7 0 4096).length.toNat = 4096 := by decide
  have hlen₂ : (LogManager.redoLrd 1 5 0 4096).length.toNat = 4096 := by decide
  have hlen₃ : (LogManager.redoLrd 2 6 0 3984).length.toNat = 3984 := by decide
  have hfirst := LogReader.nextResult_of_stored (show 8192 < 20480 by decide) (by decide)
    ((hkeep 8192 (by decide)).trans (by decide :
      _ = lrdBytes (LogManager.redoLrd 1 7 0 4096))) (hread _ (by rw [hlen₁]; decide))
  have hsecond := LogReader.nextResult_of_stored (show 12324 < 20480 by decide) (by decide)
    ((hkeep 12324 (by decide)).trans (by decide :
      _ = lrdBytes (LogManager.redoLrd 1 5 0 4096))) (hread _ (by rw [hlen₂]; decide))
  have hthird := LogReader.nextResult_of_stored (show 16456 < 20480 by decide) (by decide)
    ((hkeep 16456 (by decide)).trans (by decide :
      _ = lrdBytes (LogManager.redoLrd 2 6 0 3984))) (hread _ (by rw [hlen₃]; decide))
  have hfourth := LogReader.nextResult_of_stored (show 20476 < 20480 by decide) htid hlast
    (hread _ (by rw [hlength]; decide))
  have hend : LogReader.nextResult s 20480 20512 = .ok none := rfl
  rw [hlen₁] at hfirst
  rw [hlen₂] at hsecond
  rw [hlen₃] at hthird
  rw [hlength] at hfourth
  have hsize : straddlingSuper.size.toNat * logPSize = 12288 := by
    rw [straddlingSuper_fields.1]
    decide
  have hlogEnd : straddlingSuper.logEnd.toNat = 12320 := by
    rw [straddlingSuper_fields.2.1]
    decide
  rw [LogReader.scan_of_logEnd hsize hlogEnd (by decide)]
  have hcollect₄ : LogReader.collect 20480 8192 12320 12285 20476 s =
      .ok ([(last, [])], 20512) s :=
    LogReader.collect_step hfaults hfourth (by decide)
      (LogReader.collect_stop hfaults hend 8192 12320 12283)
  have hcollect₃ := LogReader.collect_step hfaults hthird (by decide) hcollect₄
  have hcollect₂ := LogReader.collect_step hfaults hsecond (by decide) hcollect₃
  exact LogReader.collect_step hfaults hfirst (by decide) hcollect₂

private theorem straddling_redo_facts (lrd : Lrd)
    (hlrd : lrd ∈ [LogManager.redoLrd 1 7 0 4096, LogManager.redoLrd 1 5 0 4096,
      LogManager.redoLrd 2 6 0 3984]) :
    lrd.isCommit = false ∧ lrd.isMount = false ∧ lrd.isSyncpt = false ∧ lrd.isRedopage = true ∧
      lrd.redopageType = logInode := by
  simp only [List.mem_cons, List.not_mem_nil, or_false] at hlrd
  rcases hlrd with rfl | rfl | rfl <;> decide

/-- The uninterrupted pass writes block 5 first, then block 7. -/
private theorem straddling_writes (data : ℕ → UInt8) :
    JournalRecovery.passWrites 8192 20512 0
      (straddlingRecords data (LogManager.commitLrd 1 0)).reverse (.new straddlingSuper) =
      [(5, Memory.read data 12360 4096), (7, Memory.read data 8228 4096)] := by
  have hcommit : (LogManager.commitLrd 1 0).isCommit = true ∧
      (LogManager.commitLrd 1 0).isSyncpt = false ∧ (LogManager.commitLrd 1 0).logtid = 1 := by
    decide
  have h₁ := straddling_redo_facts (LogManager.redoLrd 1 7 0 4096) (by simp)
  have h₂ := straddling_redo_facts (LogManager.redoLrd 1 5 0 4096) (by simp)
  have h₃ := straddling_redo_facts (LogManager.redoLrd 2 6 0 3984) (by simp)
  have htids : (LogManager.redoLrd 1 7 0 4096).logtid = 1 ∧
      (LogManager.redoLrd 1 5 0 4096).logtid = 1 ∧ (LogManager.redoLrd 2 6 0 3984).logtid = 2 := by
    decide
  have haddrs : (LogManager.redoLrd 1 7 0 4096).redopagePxd.address = 7 ∧
      (LogManager.redoLrd 1 5 0 4096).redopagePxd.address = 5 := by
    decide
  have hother : ¬ (2 : UInt32) = 1 := by decide
  simp [straddlingRecords, JournalRecovery.passWrites, JournalRecovery.recordWrite,
    JournalRecovery.recordTables, JournalRecovery.noteInodePage, JournalRecovery.findOrCreate,
    JournalRecovery.new, hcommit, h₁, h₂, h₃, htids, haddrs, hother]

/-- Without the commit record nothing is written. -/
private theorem straddling_no_writes (data : ℕ → UInt8) {last : Lrd} (hcommit : last.isCommit = false)
    (hmount : last.isMount = false) (hsyncpt : last.isSyncpt = false) :
    JournalRecovery.passWrites 8192 20512 0 (straddlingRecords data last).reverse
      (.new straddlingSuper) = [] := by
  have h₁ := straddling_redo_facts (LogManager.redoLrd 1 7 0 4096) (by simp)
  have h₂ := straddling_redo_facts (LogManager.redoLrd 1 5 0 4096) (by simp)
  have h₃ := straddling_redo_facts (LogManager.redoLrd 2 6 0 3984) (by simp)
  simp [straddlingRecords, JournalRecovery.passWrites, JournalRecovery.recordWrite,
    JournalRecovery.recordTables, JournalRecovery.new, hcommit, hmount, hsyncpt, h₁, h₂, h₃]

private theorem straddling_readSuper {s : Storage} (hshape : Storage.SameShape straddlingLog s)
    (hfaults : s.faults = []) (hsame : ∀ i, i < 20480 → s.data i = straddlingData i) :
    LogManager.readSuper 0 s = .ok straddlingSuper s := by
  have hread : s.readResult (0 + blockSize) blockSize =
      .ok (Memory.read straddlingData 4096 blockSize) := by
    rw [← LogReader.readResult_congr hshape fun i _ hi => (hsame i (by unfold blockSize at hi; omega)).symm]
    rfl
  rw [readSuper_eq hfaults, hread]
  rfl

/-- A recovery with `writes`, on a filesystem storage of 8 blocks. -/
private theorem straddling_recover {m : Media} {last : Lrd} {writes : List BlockWrite}
    (hfs : m.fs.faults = []) (hfsShape : Storage.SameShape straddlingLog m.fs)
    (hfaults : m.logStorage.faults = [])
    (hshape : Storage.SameShape straddlingLog m.logStorage)
    (hsame : ∀ i, i < 20480 → m.logStorage.data i = straddlingData i)
    (htid : last.logtid ≠ 0) (hlength : last.length.toNat = 0)
    (hlast : Memory.read m.logStorage.data 20476 lrdSize = lrdBytes last)
    (hwrites : JournalRecovery.passWrites 8192 20512 0
      (straddlingRecords m.logStorage.data last).reverse (.new straddlingSuper) = writes)
    (haccepted : ∀ w ∈ writes, straddlingLog.writeBlockRefused w.1 w.2 = none) :
    ∃ fs log, issue writes m.fs = .ok () fs ∧
      recover 0 m = .ok () ({ m with fs }.setLogStorage log) ∧
      log.data = Memory.write { m with fs }.logStorage.data 4096
        (JournalRecovery.finalBytes (replayedSuper straddlingSuper)) := by
  have hstate : straddlingSuper.state.toNat ≠ logRedone := by
    rw [straddlingSuper_fields.2.2]
    decide
  obtain ⟨fs, hissue, hfsFaults⟩ := issue_of_accepted hfs fun w hw => by
    rw [← hfsShape.writeBlockRefused]
    exact haccepted w hw
  have hlogShape : Storage.SameShape straddlingLog { m with fs }.logStorage :=
    hshape.trans (sameShape_logStorage (issue_ok hissue).2.1)
  have hrefused : { m with fs }.logStorage.writeRefused 4096
      (JournalRecovery.finalBytes (replayedSuper straddlingSuper)).length = none := by
    rw [← writeRefused_congr hlogShape, length_finalBytes]
    rfl
  have hwrite := StorageM.writeBytes_ok (logStorage_faults hfaults hfsFaults) hrefused
  have hrun := recover_of_parts (straddling_readSuper hshape hfaults hsame) hstate
    (straddling_scan hshape hfaults hsame htid hlength hlast) (hwrites ▸ hissue) hwrite
  exact ⟨fs, _, hissue, hrun, (StorageM.writeBytes_inv hwrite).1⟩

private theorem straddling_accepted (data : ℕ → UInt8) :
    ∀ w ∈ [((5 : ℕ), Memory.read data 12360 4096), (7, Memory.read data 8228 4096)],
      straddlingLog.writeBlockRefused w.1 w.2 = none := by
  have hbackend : straddlingLog.backend ≠ .file true := by decide
  have hblocks : straddlingLog.sizeBlocks = 8 := by decide
  intro w hw
  have hblock : w.1 < 8 ∧ w.2.length = blockSize := by
    simp only [List.mem_cons, List.not_mem_nil, or_false] at hw
    rcases hw with rfl | rfl
    · exact ⟨by norm_num, by rw [Memory.length_read]; rfl⟩
    · exact ⟨by norm_num, by rw [Memory.length_read]; rfl⟩
  exact Storage.accepted_of_lt hbackend hblock.2 (hblocks ▸ hblock.1)

private theorem straddling_commit :
    Memory.read straddlingData 20476 lrdSize = lrdBytes (LogManager.commitLrd 1 0) := by
  decide

private theorem straddling_recoveryWrites {m : Media} (hlog : m.logStorage = straddlingLog) :
    recoveryWrites straddlingSuper 0 m =
      [(5, Memory.read straddlingData 12360 4096), (7, Memory.read straddlingData 8228 4096)] := by
  have hstate : straddlingSuper.state.toNat ≠ logRedone := by
    rw [straddlingSuper_fields.2.2]
    decide
  have hscan := straddling_scan (Storage.SameShape.refl straddlingLog) rfl (fun _ _ => rfl)
    (by decide) (by decide) straddling_commit
  have hstart : 0 + 2 * blockSize = 8192 := by decide
  unfold recoveryWrites replayWrites logRecords scanned
  rw [hlog, if_neg hstate, hstart, hscan]
  exact straddling_writes straddlingData

/-- With the log on its own storage the recovery can be cut off after block 5. -/
theorem recover_restart_straddling :
    ∃ fs m₁ m₂, issue ((recoveryWrites straddlingSuper 0 ⟨Storage.newMemory 8, straddlingLog⟩).take 1)
        (Storage.newMemory 8) = .ok () fs ∧
      recover 0 ⟨fs, straddlingLog⟩ = .ok () m₂ ∧
      recover 0 ⟨Storage.newMemory 8, straddlingLog⟩ = .ok () m₁ ∧ m₂.fs.data = m₁.fs.data := by
  have hwrites := straddling_recoveryWrites (m := ⟨Storage.newMemory 8, straddlingLog⟩) rfl
  have hshape : Storage.SameShape straddlingLog (Storage.newMemory 8) := ⟨rfl, rfl, rfl⟩
  have haccepted : ∀ w ∈ (recoveryWrites straddlingSuper 0
      ⟨Storage.newMemory 8, straddlingLog⟩).take 1,
      (Storage.newMemory 8).writeBlockRefused w.1 w.2 = none := by
    rw [hwrites]
    intro w hw
    rw [← hshape.writeBlockRefused]
    exact straddling_accepted straddlingData w (List.mem_of_mem_take hw)
  obtain ⟨fs, hcut, hfaults⟩ := issue_of_accepted rfl haccepted
  obtain ⟨fs₂, log₂, -, hsecond, -⟩ := straddling_recover (m := ⟨fs, straddlingLog⟩) hfaults
    (hshape.trans (issue_ok hcut).2.1) rfl (Storage.SameShape.refl _) (fun _ _ => rfl) (by decide)
    (by decide) straddling_commit (straddling_writes straddlingData)
    (straddling_accepted straddlingData)
  obtain ⟨m₁, hfirst, -, hsame, -⟩ := recover_restart 0 1 ⟨Storage.newMemory 8, straddlingLog⟩ _
    straddlingSuper fs rfl rfl
    (straddling_readSuper (Storage.SameShape.refl _) rfl fun _ _ => rfl)
    (fun hnone => by cases hnone) hcut hsecond
  exact ⟨fs, m₁, _, hcut, hsecond, hfirst, hsame⟩

/-- What is left of the commit record under an image of zeros. -/
def straddlingRest : Lrd :=
  { logtid := 1 }

/-- The content after the write of block 5. -/
private theorem straddling_cut_data {fs : Storage}
    (hdata : fs.data = Memory.write straddlingData 20480 (Memory.read straddlingData 12360 4096)) :
    (∀ i, i < 20480 → fs.data i = straddlingData i) ∧
      Memory.read fs.data 20476 lrdSize = lrdBytes straddlingRest ∧ fs.data 28672 = 0 := by
  have hlen : (Memory.read straddlingData 12360 4096).length = 4096 := Memory.length_read ..
  refine ⟨?_, ?_, ?_⟩
  · intro i hi
    rw [hdata, Memory.write_outside (by omega)]
  · have hvalue : Memory.read fs.data 20476 lrdSize = Memory.read
        (fun i => if i < 20480 then straddlingData i else straddlingData (12360 + (i - 20480)))
        20476 lrdSize := by
      refine Memory.read_congr fun i _ hi => ?_
      unfold lrdSize at hi
      split
      · next hlow => rw [hdata, Memory.write_outside (by omega)]
      · rw [hdata, Memory.write_inside 0 (by omega)]
        exact Memory.getD_read straddlingData 0 (by omega)
    rw [hvalue]
    decide
  · rw [hdata, Memory.write_outside (by omega)]
    decide

/-- On the shared storage the image of block 5, which is outside the log area, wipes
the rest of the commit record.  The second recovery misses block 7. -/
theorem recover_restart_misses_block :
    ∃ fs m₁ m₂, (∀ w ∈ recoveryWrites straddlingSuper 0 ⟨straddlingLog, none⟩,
        8192 + straddlingSuper.size.toNat * logPSize ≤ w.1 * blockSize) ∧
      LogManager.readSuper 0 straddlingLog = .ok straddlingSuper straddlingLog ∧
      straddlingSuper.state.toNat ≠ logRedone ∧
      issue ((recoveryWrites straddlingSuper 0 ⟨straddlingLog, none⟩).take 1) straddlingLog =
        .ok () fs ∧
      recover 0 ⟨fs, none⟩ = .ok () m₂ ∧ recover 0 ⟨straddlingLog, none⟩ = .ok () m₁ ∧
      m₂.fs.data ≠ m₁.fs.data := by
  have hwrites := straddling_recoveryWrites (m := ⟨straddlingLog, none⟩) rfl
  have hfinal := length_finalBytes (replayedSuper straddlingSuper)
  have hsize : straddlingSuper.size.toNat * logPSize = 12288 := by
    rw [straddlingSuper_fields.1]
    decide
  have hstate : straddlingSuper.state.toNat ≠ logRedone := by
    rw [straddlingSuper_fields.2.2]
    decide
  have hfirst : ∀ w ∈ [((5 : ℕ), Memory.read straddlingData 12360 4096)],
      straddlingLog.writeBlockRefused w.1 w.2 = none := by
    intro w hw
    rw [List.mem_singleton.mp hw]
    exact straddling_accepted straddlingData _ (List.mem_cons_self ..)
  obtain ⟨fs, hcut, hfaults⟩ := issue_of_accepted rfl hfirst
  obtain ⟨-, hshape, hdata, -⟩ := issue_ok hcut
  have hfive : (5 : ℕ) * blockSize = 20480 := by decide
  simp only [afterWrites, List.map_cons, List.map_nil, Memory.writeAll_cons, Memory.writeAll_nil,
    BlockWrite.toBytes, hfive] at hdata
  obtain ⟨hsame, hrest, hblock⟩ := straddling_cut_data hdata
  -- the first recovery, not interrupted, has written block 7
  obtain ⟨fs₁, log₁, hissue₁, hrun₁, hlog₁⟩ := straddling_recover (m := ⟨straddlingLog, none⟩) rfl
    (Storage.SameShape.refl _) rfl (Storage.SameShape.refl _) (fun _ _ => rfl) (by decide)
    (by decide) straddling_commit (straddling_writes straddlingData)
    (straddling_accepted straddlingData)
  have hbyte₁ : log₁.data 28672 = 1 := by
    have hfs₁ : log₁.data = Memory.write fs₁.data 4096
        (JournalRecovery.finalBytes (replayedSuper straddlingSuper)) := hlog₁
    have hseven : (7 : ℕ) * blockSize = 28672 := by decide
    have hlen : (Memory.read straddlingData 8228 4096).length = 4096 := Memory.length_read ..
    rw [hfs₁, Memory.write_outside (by omega), (issue_ok hissue₁).2.2.1]
    simp only [afterWrites, List.map_cons, List.map_nil, Memory.writeAll_cons, Memory.writeAll_nil,
      BlockWrite.toBytes, hseven]
    rw [Memory.write_inside 0 (by omega), Memory.getD_read straddlingData 0 (by norm_num)]
    decide
  -- the second one finds no commit record
  obtain ⟨fs₂, log₂, hissue₂, hrun₂, hlog₂⟩ := straddling_recover (m := ⟨fs, none⟩) hfaults hshape
    hfaults hshape hsame (by decide) (by decide) hrest
    (straddling_no_writes _ (by decide) (by decide) (by decide)) (by simp)
  have hbyte₂ : log₂.data 28672 = 0 := by
    cases hissue₂
    rw [hlog₂, Memory.write_outside (by omega)]
    exact hblock
  refine ⟨fs, _, _, ?_, straddling_readSuper (Storage.SameShape.refl _) rfl fun _ _ => rfl, hstate,
    ?_, hrun₂, hrun₁, ?_⟩
  · rw [hwrites, hsize]
    intro w hw
    simp only [List.mem_cons, List.not_mem_nil, or_false] at hw
    rcases hw with rfl | rfl <;> norm_num [blockSize]
  · rw [hwrites]
    exact hcut
  · intro heq
    have hbytes : log₂.data 28672 = log₁.data 28672 := congrFun heq 28672
    rw [hbyte₁, hbyte₂] at hbytes
    exact absurd hbytes (by decide)

end JfsFuse
