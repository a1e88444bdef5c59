import JfsFuse.Journal.CutOff

/-!
# Replaying a log that was cut off

A mount starts its log at the beginning again, over the records of the mount before.
The reader stops at the first zero word, and a whole flush of the first buffer leaves
one behind its records, so the reader sees the records of one session only.  Between
the two page writes of a flush, though, a record of the new session runs into the old
page behind it, and the old commit record makes it count.
-/

namespace JfsFuse

open ByteBuf Program

namespace LogReader

/-! ## Reading what a session left -/

/-- The length field and the padding of the record are right. -/
def Sized (record : LogRecord) : Prop :=
  record.1.length.toNat = record.2.length ∧ (lrdSize + record.2.length) % 4 = 0

/-- **The reader collects the first of the records** that follow each other from `pos` to a
zero word. -/
theorem collect_of_bytes {s : Storage} (hfaults : s.faults = []) {pos : ℕ}
    {records : List LogRecord} (hsized : ∀ record ∈ records, Sized record)
    (hread : Readable s (pos + (bytesOf records).length + 4))
    (hbytes : Memory.read s.data pos (bytesOf records).length = bytesOf records)
    (hzero : Memory.read s.data (pos + (bytesOf records).length) 4 = zeros 4)
    (areaEnd dataStart logEnd fuel : ℕ) :
    ∃ n last, collect areaEnd dataStart logEnd fuel pos s = .ok (records.take n, last) s := by
  induction records generalizing pos fuel with
  | nil =>
      cases fuel with
      | zero => exact ⟨0, pos, rfl⟩
      | succ fuel => exact ⟨0, pos, collect_stop hfaults (nextResult_of_zero hzero hread) ..⟩
  | cons record rest ih =>
      obtain ⟨hlength, hpad⟩ := hsized record (List.mem_cons_self ..)
      obtain ⟨hfirst, hrest⟩ := read_bytesOf_cons hbytes
      have hlen := length_bytesOf_cons record rest
      cases fuel with
      | zero => exact ⟨0, pos, rfl⟩
      | succ fuel =>
          by_cases hstop : areaEnd ≤ pos ∨ record.1.logtid = 0
          · have hnone : nextResult s areaEnd pos = .ok none := by
              rcases hstop with hend | htid
              · exact if_pos hend
              · -- transaction 0 looks like the end of the log
                have hword : Memory.read s.data pos 4 = zeros 4 := by
                  have hslice : slice (Memory.read s.data pos (lrdSize + record.2.length)) 0 4 =
                      Memory.read s.data (pos + 0) 4 :=
                    Memory.slice_read s.data (by unfold lrdSize; omega)
                  rw [hfirst, recordBytes, slice_append_left _ (by rw [length_lrdBytes]; decide),
                    take_lrdBytes, htid] at hslice
                  exact hslice.symm
                exact nextResult_of_zero hword (hread.mono (by unfold lrdSize at hlen; omega))
            exact ⟨0, pos, collect_stop hfaults hnone ..⟩
          · obtain ⟨hpos, htid⟩ := not_or.mp hstop
            have hnext := nextResult_of_record (Nat.not_le.mp hpos) htid hlength hpad hfirst
              (hread.mono (by omega))
            rw [hlen, ← Nat.add_assoc] at hread hzero
            obtain ⟨n, last, hcollect⟩ := ih (fun r hr => hsized r (List.mem_cons_of_mem _ hr))
              hread hrest hzero fuel
            rw [collect_succ hfaults, hnext]
            simp only
            split
            · exact ⟨0, _, rfl⟩
            · exact ⟨n + 1, last, by rw [hcollect]; rfl⟩

/-- **The records of a log that begins with these**, whatever its superblock says, are the
first of them. -/
theorem logRecords_of_bytes {s : Storage} (hfaults : s.faults = []) {dataStart : ℕ}
    {records : List LogRecord} (hsized : ∀ record ∈ records, Sized record)
    (hread : Readable s (dataStart + (bytesOf records).length + 4))
    (hbytes : Memory.read s.data dataStart (bytesOf records).length = bytesOf records)
    (hzero : Memory.read s.data (dataStart + (bytesOf records).length) 4 = zeros 4)
    (logsuper : LogSuper) : logRecords logsuper dataStart s <+: records := by
  have hcollect := fun areaEnd logEnd fuel =>
    collect_of_bytes hfaults hsized hread hbytes hzero areaEnd dataStart logEnd fuel
  unfold logRecords scanned
  cases hscan : scan logsuper dataStart s with
  | error e s' => exact List.nil_prefix
  | ok result s' =>
      obtain ⟨stop, t, hend, hrest⟩ := of_bind_ok hscan
      have hsame : t = s := by
        split at hend
        · cases hend
          rfl
        · exact (findEndFrom_advances hfaults hend).1
      obtain ⟨n, last, hfound⟩ := hcollect (dataStart + logsuper.size.toNat * logPSize) stop
        (logsuper.size.toNat * logPSize)
      rw [hsame, hfound] at hrest
      cases hrest
      exact List.take_prefix ..

end LogReader

namespace LogOp

open LogManager

/-! ## The records of a session -/

variable {ops : List LogOp}

theorem sized_recordsFrom (hsized : ∀ op ∈ ops, op.BlockSized) (off prev : ℕ) :
    ∀ record ∈ recordsFrom off prev ops, LogReader.Sized record := by
  induction ops generalizing off prev with
  | nil => exact fun _ hmem => absurd hmem List.not_mem_nil
  | cons op rest ih =>
      intro record hmem
      rcases List.mem_cons.mp hmem with rfl | hrest
      · cases op with
        | append txid block data =>
            have hlen := hsized _ (List.mem_cons_self ..) txid block data rfl
            show (UInt16.ofNat data.length).toNat = data.length ∧ (lrdSize + data.length) % 4 = 0
            rw [hlen]
            decide
        | commit txid => exact ⟨rfl, (by decide : (lrdSize + 0) % 4 = 0)⟩
      · exact ih (fun op hop => hsized op (List.mem_cons_of_mem _ hop)) _ _ record hrest

/-- The record of a call among those that follow each other, and where it starts. -/
theorem recordsFrom_getElem? {off prev i : ℕ} {record : LogRecord}
    (h : (recordsFrom off prev ops)[i]? = some record) :
    ∃ op prev', ops[i]? = some op ∧ record = op.record prev' ∧
      slice (bytesOf (recordsFrom off prev ops)) (total (ops.take i)) op.size =
        recordBytes record := by
  induction ops generalizing off prev i with
  | nil => cases h
  | cons op rest ih =>
      have hbytes : bytesOf (recordsFrom off prev (op :: rest)) = recordBytes (op.record prev) ++
          bytesOf (recordsFrom (off + op.size) (op.nextPrev off) rest) := rfl
      have hlen := op.length_recordBytes prev
      cases i with
      | zero =>
          have heq : op.record prev = record := Option.some.inj h
          refine ⟨op, prev, rfl, heq.symm, ?_⟩
          show slice _ 0 op.size = _
          rw [hbytes, slice_append_left _ (by omega), ← hlen, slice_zero_length, heq]
      | succ i =>
          obtain ⟨op', prev', hop, hrecord, hslice⟩ := ih h
          refine ⟨op', prev', hop, hrecord, ?_⟩
          show slice _ (op.size + total (rest.take i)) op'.size = _
          rw [hbytes, slice_append_right _ _ (by omega), hlen, Nat.add_sub_cancel_left, hslice]

theorem offsetAfter_of_fits {off : ℕ} (h : off + total ops < logBufferSize) :
    offsetAfter off ops = off + total ops := by
  induction ops generalizing off with
  | nil => rfl
  | cons op rest ih =>
      have htotal : total (op :: rest) = op.size + total rest := rfl
      unfold offsetAfter
      rw [LogState.startOf_of_fits (by omega) (by omega), ih (by omega)]
      omega

theorem total_append (first second : List LogOp) :
    total (first ++ second) = total first + total second := by
  unfold total
  rw [List.map_append, List.sum_append]

theorem total_take_add_le {i : ℕ} {op : LogOp} (hop : ops[i]? = some op) :
    total (ops.take i) + op.size ≤ total ops := by
  obtain ⟨hi, hget⟩ := List.getElem?_eq_some_iff.mp hop
  have hsplit : ops = ops.take i ++ op :: ops.drop (i + 1) := by
    rw [← hget, List.getElem_cons_drop hi, List.take_append_drop]
  have htotal := total_append (ops.take i) (op :: ops.drop (i + 1))
  rw [← hsplit] at htotal
  have hcons : total (op :: ops.drop (i + 1)) = op.size + total (ops.drop (i + 1)) := rfl
  omega

/-- Where the calls that fit in the first buffer put their records. -/
theorem start_of_fits {i : ℕ} {op : LogOp} (hop : ops[i]? = some op)
    (h : total ops < logBufferSize) {lm : LogManager} (hlm : lm.writeOffset = 0) :
    op.start (nextAll (ops.take i) lm) = total (ops.take i) := by
  have hle := total_take_add_le hop
  have hoffset : (nextAll (ops.take i) lm).writeOffset = total (ops.take i) := by
    rw [writeOffset_nextAll, hlm, offsetAfter_of_fits (by omega), Nat.zero_add]
  unfold start
  rw [writeOffset_roomed, hoffset, LogState.startOf_of_fits (by omega) (by omega)]

/-- The payload is that of an image of the session whose commit record, too, the session
has stored in `data`. -/
def CommittedBy (ops : List LogOp) (lm : LogManager) (data : ℕ → UInt8) (payload : List UInt8) :
    Prop :=
  ∃ i j txid block, i < j ∧ ops[i]? = some (append txid block payload) ∧
    ops[j]? = some (commit txid) ∧
    OnStorage data (lm.dataStart + (commit txid).start (nextAll (ops.take j) lm)) (commit txid)

theorem append_of_isRedopage {op : LogOp} {prev : ℕ} (h : (op.record prev).1.isRedopage = true) :
    ∃ txid block data, op = append txid block data := by
  cases op with
  | append txid block data => exact ⟨txid, block, data, rfl⟩
  | commit txid => exact absurd h (by change ¬ (logCommit &&& logRedopage != 0) = true; decide)

theorem commit_of_isCommit {op : LogOp} {prev : ℕ} (h : (op.record prev).1.isCommit = true) :
    ∃ txid, op = commit txid := by
  cases op with
  | append txid block data =>
      exact absurd h (by change ¬ (logRedopage &&& logCommit != 0) = true; decide)
  | commit txid => exact ⟨txid, rfl⟩

/-- **A committed image among the first records of a session** is one of the session's own
transactions. -/
theorem committedBy_of_image (hids : ∀ op ∈ ops, op.txid < 2 ^ 32) {n : ℕ}
    (hlt : total (ops.take n) < logBufferSize) {lm : LogManager} (hlm : lm.writeOffset = 0)
    {data : ℕ → UInt8}
    (hstored : Memory.read data lm.dataStart (bytesOf (recordsFrom 0 0 (ops.take n))).length =
      bytesOf (recordsFrom 0 0 (ops.take n)))
    {records : List LogRecord} (hfront : records <+: recordsFrom 0 0 (ops.take n)) {w : BlockWrite}
    (hw : IsCommittedImage records w) : CommittedBy ops lm data w.2 := by
  obtain ⟨before, record, after, rfl, rfl, hredo, -, other, hother, hcommit, htid⟩ := hw
  obtain ⟨k, hk⟩ := List.mem_iff_getElem?.mp hother
  obtain ⟨more, hmore⟩ := hfront
  have hfirst : (recordsFrom 0 0 (ops.take n))[before.length]? = some record := by
    rw [← hmore, List.append_assoc, List.getElem?_append_right le_rfl, Nat.sub_self]
    rfl
  have hsecond : (recordsFrom 0 0 (ops.take n))[before.length + (k + 1)]? = some other := by
    rw [← hmore, List.append_assoc, List.getElem?_append_right (by omega), Nat.add_sub_cancel_left]
    show (after ++ more)[k]? = _
    rw [List.getElem?_append_left (List.getElem?_eq_some_iff.mp hk).1, hk]
  obtain ⟨op, prev, hop, rfl, -⟩ := recordsFrom_getElem? hfirst
  obtain ⟨op', prev', hop', rfl, hslice⟩ := recordsFrom_getElem? hsecond
  obtain ⟨txid, block, payload, rfl⟩ := append_of_isRedopage hredo
  obtain ⟨txid', rfl⟩ := commit_of_isCommit hcommit
  have htake : ∀ i op, (ops.take n)[i]? = some op → i < n ∧ ops[i]? = some op := by
    intro i op hget
    rw [List.getElem?_take] at hget
    split at hget
    · next hi => exact ⟨hi, hget⟩
    · cases hget
  obtain ⟨-, himage⟩ := htake _ _ hop
  obtain ⟨hj, hlast⟩ := htake _ _ hop'
  -- the two records name the same transaction
  have hsame : txid' = txid := by
    have hnat := congrArg UInt32.toNat (show UInt32.ofNat txid' = UInt32.ofNat txid from htid)
    have hlow := hids _ (List.mem_of_getElem? himage)
    have hlow' := hids _ (List.mem_of_getElem? hlast)
    change txid < 2 ^ 32 at hlow
    change txid' < 2 ^ 32 at hlow'
    rwa [UInt32.toNat_ofNat', UInt32.toNat_ofNat', Nat.mod_eq_of_lt hlow, Nat.mod_eq_of_lt hlow']
      at hnat
  subst hsame
  have hle := total_take_add_le hop'
  have hstart := start_of_fits hop' hlt hlm
  rw [List.take_take, Nat.min_eq_left hj.le] at hle hslice hstart
  refine ⟨before.length, before.length + (k + 1), txid', block, by omega, himage, hlast, ?_⟩
  rw [hstart]
  have hread : Memory.read data (lm.dataStart + total (ops.take (before.length + (k + 1))))
      (commit txid').size = recordBytes ((commit txid').record prev') := by
    rw [← hslice, ← hstored, Memory.slice_read data]
    rw [length_bytesOf]
    exact hle
  exact onStorage_of_read (blockSized_commit txid') hread

/-! ## Two sessions on one log -/

theorem holding_new (logsuper : LogSuper) (logBase : ℕ) :
    (LogManager.new logsuper logBase).Holding [] :=
  ⟨rfl, by decide, rfl, fun hne => absurd rfl hne⟩

theorem behind_new (ops : List LogOp) : behind [] 0 ops = bytesOf (recordsFrom 0 0 ops) := rfl

/-- The calls of a run that returns. -/
theorem trace_of_performAll (hsized : ∀ op ∈ ops, op.BlockSized) {lm : LogManager}
    (hbuffer : lm.logBuffer.length = logBufferSize) {storage : Storage} {s : LogState}
    (h : performAll ops ⟨lm, storage⟩ = .ok () s) :
    s.storage.trace = storage.trace ++ callsAll ops lm := by
  have hissues := issues_performAll (fun op hmem => size_le (hsized op hmem)) hbuffer
  rcases hissues.cases storage with ⟨s', hrun, -, htrace⟩ | ⟨e, _, _, _, _, _, hrun, -⟩
  · rw [hrun] at h
    cases h
    exact htrace
  · rw [hrun] at h
    cases h

/-- The log storage that a recovery finds. -/
structure Recoverable (m : Media) (lm : LogManager) (data : ℕ → UInt8) : Prop where
  content : m.logStorage.data = data
  faults : m.logStorage.faults = []
  room : LogReader.Readable m.logStorage (lm.dataStart + logBufferSize)

/-- What a replay writes when the log begins with the records of a session. -/
theorem committedBy_of_replay (hsized : ∀ op ∈ ops, op.BlockSized)
    (hids : ∀ op ∈ ops, op.txid < 2 ^ 32) {n : ℕ} (hlt : total (ops.take n) < logBufferSize)
    (hsum : IsSum (total (ops.take n))) {lm : LogManager} (hlm : lm.writeOffset = 0)
    {data stored : ℕ → UInt8} {m : Media} (hm : Recoverable m lm data)
    (hbegins : lm.Begins (behind [] 0 (ops.take n)) data)
    (hstored : lm.Begins (behind [] 0 (ops.take n)) stored) (logsuper : LogSuper) :
    ∀ w ∈ replayWrites logsuper lm.dataStart m.logStorage, CommittedBy ops lm stored w.2 := by
  intro w hw
  have himage := replayWrites_committed logsuper lm.dataStart m.logStorage w hw
  rw [behind_new] at hbegins hstored
  have hlen := length_bytesOf 0 0 (ops.take n)
  have hfour := hsum.add_four_le hlt
  have hfront := LogReader.logRecords_of_bytes hm.faults
    (sized_recordsFrom (fun op hop => hsized op (List.take_subset _ _ hop)) 0 0)
    (hm.room.mono (by omega)) (hm.content ▸ hbegins.1) (hm.content ▸ hbegins.2) logsuper
  exact committedBy_of_image hids hlt hlm hstored.1 hfront himage

/-- A replay of a log that begins with zeros writes nothing. -/
theorem replayWrites_of_zero {s : Storage} (hfaults : s.faults = []) {dataStart : ℕ}
    (hzero : ∀ i < logBufferSize, s.data (dataStart + i) = 0)
    (hroom : LogReader.Readable s (dataStart + logBufferSize)) (logsuper : LogSuper)
    (w : BlockWrite) : w ∉ replayWrites logsuper dataStart s := by
  intro hw
  have hword : Memory.read s.data dataStart 4 = zeros 4 := by
    refine ext_getD 0 (by rw [Memory.length_read, length_zeros]) fun i hi => ?_
    rw [Memory.length_read] at hi
    rw [Memory.getD_read _ _ hi, getD_zeros]
    exact hzero i (by unfold logBufferSize logPSize; omega)
  have hnone : ∀ record ∈ ([] : List LogRecord), LogReader.Sized record := by simp
  have hempty := LogReader.logRecords_of_bytes hfaults hnone
    (hroom.mono (by simp [bytesOf, logBufferSize, logPSize])) rfl hword logsuper
  obtain ⟨before, record, after, hsplit, -⟩ := replayWrites_committed logsuper dataStart s w hw
  rw [List.prefix_nil.mp hempty] at hsplit
  simp at hsplit

/-- A transaction with one image of the block, filled with the byte. -/
private def oneImage (block : ℕ) (byte : UInt8) : List LogOp :=
  [append 1 block (List.replicate blockSize byte), commit 1]

private theorem length_image (byte : UInt8) : (List.replicate blockSize byte).length = blockSize :=
  List.length_replicate ..

private theorem oneImage_blockSized {block : ℕ} {byte : UInt8} :
    ∀ op ∈ oneImage block byte, op.BlockSized := by
  intro op hmem txid block' data heq
  unfold oneImage at hmem
  rw [heq] at hmem
  simp only [List.mem_cons, List.not_mem_nil, or_false, reduceCtorEq, append.injEq] at hmem
  rw [hmem.2.2]
  exact length_image byte

private theorem image_total (block : ℕ) (byte : UInt8) :
    (append 1 block (List.replicate blockSize byte)).size = 4132 := by
  show lrdSize + (List.replicate blockSize byte).length = 4132
  rw [length_image]
  rfl

private theorem commit_total : (commit 1).size = 36 := rfl

private theorem oneImage_ids {block : ℕ} {byte : UInt8} :
    ∀ op ∈ oneImage block byte, op.txid < 2 ^ 32 := by
  unfold oneImage
  simp [txid]

private theorem oneImage_offset (block : ℕ) (byte : UInt8) :
    offsetAfter 0 (oneImage block byte) < 2 ^ 44 := by
  simp [oneImage, offsetAfter, image_total, commit_total, LogState.startOf, logBufferSize, logPSize]

/-- An empty file for the log. -/
private def emptyFile : Storage where
  backend := .file false
  size := 20 * blockSize
  data := fun _ => 0

/-- A log of 16 pages that was not replayed. -/
private def mountedSuper : LogSuper :=
  { size := 16, logEnd := 4168 }

/-- The crashed log on its own storage. -/
private def crashed (data : ℕ → UInt8) : Media :=
  ⟨Storage.newMemory 16, some { emptyFile with data }⟩

private theorem recoverable_crashed (data : ℕ → UInt8) :
    Recoverable (crashed data) (.new mountedSuper 0) data :=
  ⟨rfl, rfl, by
    show _ ≤ 20 * blockSize + 0
    unfold LogManager.dataStart logBufferSize logPSize blockSize
    decide⟩

/-- The two sessions, each with one image. -/
private theorem oneImage_runs :
    ∃ s₁ s₂ : LogState,
      performAll (oneImage 5 7) ⟨.new mountedSuper 0, emptyFile⟩ = .ok () s₁ ∧
      performAll (oneImage 6 9) ⟨.new mountedSuper 0, s₁.storage⟩ = .ok () s₂ ∧
      s₁.storage.data = StorageCall.effects (callsAll (oneImage 5 7) (.new mountedSuper 0))
        (fun _ => 0) ∧
      s₂.storage.trace = s₁.storage.trace ++ callsAll (oneImage 6 9) (.new mountedSuper 0) := by
  have hsize : ∀ block byte, ∀ op ∈ oneImage block byte, op.size ≤ logBufferSize :=
    fun _ _ op hmem => size_le (oneImage_blockSized op hmem)
  have hbuffer : (LogManager.new mountedSuper 0).logBuffer.length = logBufferSize :=
    length_zeros _
  obtain ⟨storage₁, hrun₁, htrace₁, hfile, hfaults⟩ := performAll_file (hsize 5 7) hbuffer
    (show emptyFile.backend = .file false from rfl) (show emptyFile.faults = [] from rfl)
  obtain ⟨storage₂, hrun₂, htrace₂, -⟩ := performAll_file (hsize 6 9) hbuffer hfile hfaults
  exact ⟨_, _, hrun₁, hrun₂, (performAll_ok oneImage_blockSized hbuffer hrun₁).2, htrace₂⟩

/-- The record that the first page of the new session and the second page of the old one
make. -/
private def tornImage : List UInt8 :=
  List.replicate 4060 9 ++ List.replicate 36 7

private theorem length_tornImage : tornImage.length = blockSize := by
  unfold tornImage
  rw [List.length_append, List.length_replicate, List.length_replicate]
  rfl

/-- The bytes of a session with one image. -/
private theorem behind_oneImage (block : ℕ) (byte : UInt8) :
    behind [] 0 (oneImage block byte) = lrdBytes (redoLrd 1 block 0 4096) ++
      List.replicate 4096 byte ++ lrdBytes (commitLrd 1 0) := by
  have hbytes : behind [] 0 (oneImage block byte) =
      (lrdBytes (redoLrd 1 block 0 (List.replicate blockSize byte).length) ++
        List.replicate blockSize byte) ++ ((lrdBytes (commitLrd 1 0) ++ []) ++ []) := rfl
  rw [hbytes, length_image, List.append_nil, List.append_nil]
  rfl

private theorem length_behind_oneImage (block : ℕ) (byte : UInt8) :
    (behind [] 0 (oneImage block byte)).length = 4168 := by
  rw [behind_oneImage, List.length_append, List.length_append, length_lrdBytes, length_lrdBytes,
    List.length_replicate]
  rfl

/-- The calls of such a session are one flush of the first buffer. -/
private theorem oneImage_calls (block : ℕ) (byte : UInt8) (logsuper : LogSuper) :
    ∃ lm : LogManager, lm.logBase = 0 ∧ lm.Holding (behind [] 0 (oneImage block byte)) ∧
      callsAll (oneImage block byte) (.new logsuper 0) = lm.flushCalls := by
  set first := append 1 block (List.replicate blockSize byte) with hfirst
  have hsize : first.size = 4132 := image_total block byte
  have hnew := holding_new logsuper 0
  have hfits : ([] : List UInt8).length + first.size < logBufferSize := by
    rw [hsize]
    decide
  have hnone := (roomed_of_fits hnew hfits).2
  have hnext := holding_next hnew hfits
  have hbase := first.logBase_next (LogManager.new logsuper 0)
  have hprev : (first.next (LogManager.new logsuper 0)).prevRecordOffset = 0 :=
    prevRecordOffset_next hnew hfits
  have hlen : ([] ++ recordBytes (first.record (LogManager.new logsuper 0).prevRecordOffset)).length =
      4132 := by
    rw [List.nil_append, first.length_recordBytes, hsize]
  have hfits' : ([] ++ recordBytes (first.record
      (LogManager.new logsuper 0).prevRecordOffset)).length + (commit 1).size < logBufferSize := by
    rw [hlen, commit_total]
    decide
  have hnone' := (roomed_of_fits hnext hfits').2
  have hplaced := holding_placed hnext hfits'
  have hbase' := (commit 1).logBase_placed (first.next (LogManager.new logsuper 0))
  refine ⟨_, hbase'.trans hbase, ?_, ?_⟩
  · rw [hprev] at hplaced
    have heq : behind [] 0 (oneImage block byte) =
        ([] ++ recordBytes (first.record (LogManager.new logsuper 0).prevRecordOffset)) ++
          recordBytes ((commit 1).record 0) := by
      have hcons : oneImage block byte = [first, commit 1] := rfl
      rw [hcons, behind_cons, behind_cons, behind_nil]
      rfl
    rw [heq]
    exact hplaced
  · show first.calls _ ++ ((commit 1).calls (first.next _) ++ []) = _
    have hcalls : first.calls (LogManager.new logsuper 0) =
        (LogManager.new logsuper 0).roomCalls first.size := rfl
    have hcalls' : (commit 1).calls (first.next (LogManager.new logsuper 0)) =
        (first.next (LogManager.new logsuper 0)).roomCalls (commit 1).size ++
          ((commit 1).placed (first.next (LogManager.new logsuper 0))).flushCalls := rfl
    rw [hcalls, hcalls', hnone, hnone', List.nil_append, List.nil_append, List.append_nil]

/-- The front of one record over another of the same shape. -/
private theorem splice_front (front front' tail tail' : List UInt8) (a b : UInt8) {n k : ℕ}
    (hlen : front'.length = front.length) :
    splice (front' ++ List.replicate (n + k) b ++ tail) 0
        (slice (front ++ List.replicate (n + k) a ++ tail') 0 (front.length + n)) =
      front ++ (List.replicate n a ++ List.replicate k b) ++ tail := by
  have htake : slice (front ++ List.replicate (n + k) a ++ tail') 0 (front.length + n) =
      front ++ List.replicate n a := by
    rw [slice_append_left _ (by simp), ← List.replicate_append_replicate, ← List.append_assoc,
      slice_append_left _ (by simp)]
    have hwhole := slice_zero_length (front ++ List.replicate n a)
    rwa [List.length_append, List.length_replicate] at hwhole
  have hdrop : (front' ++ List.replicate (n + k) b ++ tail).drop (front.length + n) =
      List.replicate k b ++ tail := by
    rw [← List.replicate_append_replicate, ← List.append_assoc, List.append_assoc (front' ++ List.replicate n b)]
    exact List.drop_left' (by simp [hlen])
  unfold splice
  rw [htake, List.length_append, List.length_replicate, Nat.zero_add, hdrop]
  simp

/-- The log after the first page of the second session. -/
private theorem torn_bytes {lm : LogManager} (hbase : lm.logBase = 0)
    (hholding : lm.Holding (behind [] 0 (oneImage 6 9))) {data : ℕ → UInt8}
    (hdata : lm.Begins (behind [] 0 (oneImage 5 7)) data) :
    lm.Begins (bytesOf [(redoLrd 1 6 0 4096, tornImage), (commitLrd 1 0, [])])
      (StorageCall.effects [lm.pageCall 0] data) := by
  have hstart : lm.dataStart = 8192 := by
    unfold LogManager.dataStart
    rw [hbase]
    rfl
  have hlrd := fun block => length_lrdBytes (redoLrd 1 block 0 4096)
  have hcommit := length_lrdBytes (commitLrd 1 0)
  have hlen := length_behind_oneImage
  have hbytes : bytesOf [(redoLrd 1 6 0 4096, tornImage), (commitLrd 1 0, [])] =
      lrdBytes (redoLrd 1 6 0 4096) ++ tornImage ++ (lrdBytes (commitLrd 1 0) ++ [] ++ []) := rfl
  have htorn : (bytesOf [(redoLrd 1 6 0 4096, tornImage), (commitLrd 1 0, [])]).length = 4168 := by
    rw [hbytes, List.append_nil, List.append_nil, List.length_append, List.length_append, hlrd,
      hcommit, length_tornImage]
    rfl
  have hpage : StorageCall.effects [lm.pageCall 0] data =
      Memory.write data 8192 (slice (behind [] 0 (oneImage 6 9)) 0 4096) := by
    have hfront := effects_pages lm hholding.length_buffer (show 1 * logPSize ≤ logBufferSize by decide)
      data
    rw [hholding.bufferStart_eq, Nat.zero_div, Nat.zero_mod, Nat.zero_mul, Nat.add_zero, hstart,
      hholding.buffer, slice_append_left _ (by rw [hlen]; decide)] at hfront
    exact hfront
  have hslice : (slice (behind [] 0 (oneImage 6 9)) 0 4096).length = 4096 :=
    length_slice_of_le (by rw [hlen]; decide)
  unfold Begins at hdata ⊢
  rw [hlen, hstart] at hdata
  rw [htorn, hstart, hpage]
  constructor
  · rw [Memory.read_write_window le_rfl (by rw [hslice]; decide), hdata.1, hbytes, behind_oneImage,
      behind_oneImage]
    have hfront := splice_front (n := 4060) (k := 36) (lrdBytes (redoLrd 1 6 0 4096))
      (lrdBytes (redoLrd 1 5 0 4096)) (lrdBytes (commitLrd 1 0)) (lrdBytes (commitLrd 1 0)) 9 7
      (by rw [hlrd, hlrd])
    rw [hlrd] at hfront
    rw [List.append_nil, List.append_nil]
    exact hfront
  · rw [Memory.read_write_of_disjoint (Or.inr (by rw [hslice]; decide))]
    exact hdata.2

/-- What the reader finds there. -/
private theorem torn_scan {log : Storage} (hfaults : log.faults = [])
    (hread : LogReader.Readable log 16384)
    (hbytes : Memory.read log.data 8192
      (bytesOf [(redoLrd 1 6 0 4096, tornImage), (commitLrd 1 0, [])]).length =
        bytesOf [(redoLrd 1 6 0 4096, tornImage), (commitLrd 1 0, [])])
    (hzero : Memory.read log.data 12360 4 = zeros 4) :
    LogReader.scan mountedSuper 8192 log =
      .ok ([(redoLrd 1 6 0 4096, tornImage), (commitLrd 1 0, [])], 12360) log := by
  obtain ⟨hfirst, hrest⟩ := read_bytesOf_cons hbytes
  obtain ⟨hsecond, -⟩ := read_bytesOf_cons hrest
  have hlen : lrdSize + tornImage.length = 4132 := by
    rw [length_tornImage]
    rfl
  have hlength : (redoLrd 1 6 0 4096).length.toNat = tornImage.length := by
    rw [length_tornImage]
    decide
  simp only [hlen] at hfirst hsecond
  have hredo : LogReader.nextResult log 73728 8192 = .ok (some ((redoLrd 1 6 0 4096, tornImage),
      8192 + (lrdSize + tornImage.length))) :=
    nextResult_of_record (by decide) (by decide) hlength (by rw [hlen]) (by rw [hlen]; exact hfirst)
      (hread.mono (by rw [hlen]; decide))
  have hcommit : LogReader.nextResult log 73728 12324 = .ok (some ((commitLrd 1 0, []), 12360)) :=
    nextResult_of_record (by decide) (by decide) (by decide) (by decide) hsecond
      (hread.mono (by decide))
  have hstop : LogReader.nextResult log 73728 12360 = .ok none :=
    LogReader.nextResult_of_zero hzero (hread.mono (by decide))
  rw [hlen] at hredo
  have hlast : LogReader.collect 73728 8192 4168 65535 12324 log =
      .ok ([(commitLrd 1 0, [])], 12360) log :=
    LogReader.collect_step hfaults hcommit (by decide)
      (LogReader.collect_stop hfaults hstop 8192 4168 65533)
  have hsize : mountedSuper.size.toNat * logPSize = 65536 := by decide
  have hend : mountedSuper.logEnd.toNat = 4168 := by decide
  rw [LogReader.scan_of_logEnd hsize hend (by decide)]
  exact LogReader.collect_step hfaults hredo (by decide) hlast

private theorem torn_writes :
    JournalRecovery.passWrites 8192 12360 0
      [(redoLrd 1 6 0 4096, tornImage), (commitLrd 1 0, [])].reverse (.new mountedSuper) =
      [(6, tornImage)] := by
  have hcommit : (commitLrd 1 0).isCommit = true ∧ (commitLrd 1 0).isSyncpt = false ∧
      (commitLrd 1 0).logtid = 1 := by
    decide
  have hkind : (redoLrd 1 6 0 4096).isCommit = false ∧ (redoLrd 1 6 0 4096).isMount = false ∧
      (redoLrd 1 6 0 4096).isSyncpt = false ∧ (redoLrd 1 6 0 4096).isRedopage = true := by
    decide
  have hfields : (redoLrd 1 6 0 4096).redopageType = logInode ∧ (redoLrd 1 6 0 4096).logtid = 1 ∧
      (redoLrd 1 6 0 4096).redopagePxd.address = 6 := by
    decide +kernel
  simp [JournalRecovery.passWrites, JournalRecovery.recordWrite, JournalRecovery.recordTables,
    JournalRecovery.new, hcommit, hkind, hfields]

/-- The replay of that log writes the mixed record to block 6. -/
private theorem torn_replay {data : ℕ → UInt8}
    (hbytes : Memory.read data 8192
      (bytesOf [(redoLrd 1 6 0 4096, tornImage), (commitLrd 1 0, [])]).length =
        bytesOf [(redoLrd 1 6 0 4096, tornImage), (commitLrd 1 0, [])])
    (hzero : Memory.read data 12360 4 = zeros 4) :
    .writeBlock 6 tornImage ∈ (final (JournalRecovery.replay 8192
      ⟨.new mountedSuper, crashed data⟩)).media.fs.trace := by
  have hscan : LogReader.scan mountedSuper 8192 (crashed data).logStorage =
      .ok ([(redoLrd 1 6 0 4096, tornImage), (commitLrd 1 0, [])], 12360)
        (crashed data).logStorage :=
    torn_scan rfl (show 16384 ≤ 20 * blockSize + 0 by decide) hbytes hzero
  have haccepted : (Storage.newMemory 16).writeBlockRefused 6 tornImage = none := by
    unfold Storage.writeBlockRefused Storage.writeRefused
    rw [length_tornImage]
    rfl
  obtain ⟨fs, hissue, -⟩ := issue_of_accepted rfl
    (show ∀ w ∈ [(6, tornImage)], (Storage.newMemory 16).writeBlockRefused w.1 w.2 = none by
      simpa using haccepted)
  have htrace : fs.trace = [.writeBlock 6 tornImage] := (issue_ok hissue).2.2.2
  rw [← torn_writes] at hissue
  have hsuper : (crashed data).logStorage.writeRefused 4096
      (JournalRecovery.finalBytes (replayedSuper mountedSuper)).length = none := rfl
  have hstate : mountedSuper.state.toNat ≠ logRedone := by decide
  obtain ⟨s, hrun, hmedia⟩ := JournalRecovery.replay_of_parts (m := crashed data) hstate
    hscan hissue (StorageM.writeBytes_ok rfl hsuper)
  have hfs : s.media.fs = fs := by
    rw [hmedia]
    rfl
  rw [hrun, final_ok, hfs, htrace]
  exact List.mem_singleton_self _

private theorem behind_oneImage_ne (block : ℕ) (byte : UInt8) :
    behind [] 0 (oneImage block byte) ≠ [] := by
  intro hnil
  have hlen := length_behind_oneImage block byte
  rw [hnil] at hlen
  cases hlen

/-- An image of the session is filled with its byte. -/
private theorem payload_of_getElem? {block i txid block' : ℕ} {byte : UInt8} {payload : List UInt8}
    (h : (oneImage block byte)[i]? = some (append txid block' payload)) :
    payload = List.replicate blockSize byte := by
  have hmem := List.mem_of_getElem? h
  unfold oneImage at hmem
  simp only [List.mem_cons, List.not_mem_nil, or_false, reduceCtorEq, append.injEq] at hmem
  exact hmem.2.2

private theorem tornImage_ne (byte : UInt8) : tornImage ≠ List.replicate blockSize byte := by
  intro heq
  have hnew : (9 : UInt8) ∈ tornImage :=
    List.mem_append_left _ (List.mem_replicate.mpr ⟨by decide, rfl⟩)
  have hold : (7 : UInt8) ∈ tornImage :=
    List.mem_append_right _ (List.mem_replicate.mpr ⟨by decide, rfl⟩)
  rw [heq] at hnew hold
  exact absurd ((List.eq_of_mem_replicate hnew).trans (List.eq_of_mem_replicate hold).symm)
    (by decide)

end LogOp

end JfsFuse
