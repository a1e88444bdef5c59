import JfsFuse.Journal.Recovery

/-!
# The log manager on a working storage

What `flush_journal`, `append_log_record` and `commit_transaction` do when no
storage call fails: a flush writes the pages of the buffer in use to their place in
the log data area, and a record is put into the buffer behind the last one, or at
the start of a fresh buffer if it does not fit.
-/

namespace JfsFuse

open ByteBuf Program

/-! ## The log manager on a storage that does not fail -/

/-- A call of the writer: an image of a block, or a commit. -/
inductive LogOp
  | append (txid block : ℕ) (data : List UInt8)
  | commit (txid : ℕ)
  deriving DecidableEq, Repr

namespace LogOp

/-- Perform the call. -/
def perform : LogOp → LogM Unit
  | append txid block data => LogManager.appendLogRecord txid block data
  | commit txid => LogManager.commitTransaction txid

/-- Perform calls one after the other. -/
def performAll : List LogOp → LogM Unit
  | [] => return ()
  | op :: rest => do
      op.perform
      performAll rest

def txid : LogOp → ℕ
  | append txid _ _ => txid
  | commit txid => txid

/-- The call is one of those considered here: a block-sized image, and a
transaction number that is not 0 in 32 bits. -/
def Valid (op : LogOp) : Prop :=
  UInt32.ofNat op.txid ≠ 0 ∧ ∀ txid block data, op = append txid block data →
    data.length = blockSize

/-- Bytes the record of the call takes. -/
def size : LogOp → ℕ
  | append _ _ data => lrdSize + data.length
  | commit _ => lrdSize

/-- The record of the call, given the offset of the previous record of its
transaction. -/
def record (prev : ℕ) : LogOp → LogRecord
  | append txid block data => (LogManager.redoLrd txid block prev data.length, data)
  | commit txid => (LogManager.commitLrd txid prev, [])

end LogOp

/-- The bytes of a record in the log. -/
def recordBytes (record : LogRecord) : List UInt8 :=
  lrdBytes record.1 ++ record.2

namespace LogState

/-- The storage works and holds the log area, and the buffer has its size. -/
structure Ready (s : LogState) : Prop where
  faults : s.storage.faults = []
  writable : s.storage.backend ≠ .file true
  room : s.manager.dataStart + s.manager.logPages * logPSize ≤ s.storage.size
  buffer : s.manager.logBuffer.length = logBufferSize

/-- Byte `i` of the log data area. -/
def area (s : LogState) (i : ℕ) : UInt8 :=
  s.storage.data (s.manager.dataStart + i)

/-- The start of the buffer's pages in the area. -/
def bufferStart (s : LogState) : ℕ :=
  s.manager.writeOffset - s.manager.writeOffset % logBufferSize

/-- The state with a record put into the buffer. -/
def place (s : LogState) (record : LogRecord) (prev : ℕ) : LogState :=
  { s with
    manager := { s.manager with
      logBuffer := splice s.manager.logBuffer (s.manager.writeOffset % logBufferSize)
        (recordBytes record)
      bufferDirty := true
      writeOffset := s.manager.writeOffset + (recordBytes record).length
      prevRecordOffset := prev } }

/-- The end of the last page of the buffer that is in use. -/
def pagesEnd (s : LogState) : ℕ :=
  (s.manager.writeOffset + logPSize - 1) / logPSize * logPSize

end LogState

namespace StorageM

/-- A write inside a working, writable storage takes effect. -/
theorem writeBytes_inside {s : Storage} (hfaults : s.faults = []) (hwritable : s.backend ≠ .file true)
    {offset : ℕ} {data : List UInt8} (hin : offset + data.length ≤ s.size) :
    ∃ s', writeBytes offset data s = .ok () s' ∧ s'.faults = [] ∧ s'.backend = s.backend ∧
      s'.size = s.size ∧ s'.data = Memory.write s.data offset data := by
  have hacc : s.writeRefused offset data.length = none := by
    unfold Storage.writeRefused
    cases hbackend : s.backend with
    | memory =>
        simp only
        exact if_neg (by omega)
    | file readOnly =>
        simp only
        refine if_neg fun hro => hwritable ?_
        rw [hbackend, hro]
  exact ⟨_, writeBytes_ok hfaults hacc, hfaults, rfl, rfl, rfl⟩

end StorageM

namespace LogManager

/-- Two states with the same manager, the second with another content of a storage
of the same kind. -/
structure SameKind (s s' : LogState) : Prop where
  faults : s'.storage.faults = []
  backend : s'.storage.backend = s.storage.backend
  size : s'.storage.size = s.storage.size

/-- A write through the manager. -/
theorem onStorage_write {s : LogState} (hready : s.Ready) {offset : ℕ} {data : List UInt8}
    (hin : offset + data.length ≤ s.storage.size) :
    ∃ storage, onStorage (StorageM.writeBytes offset data) s = .ok () ⟨s.manager, storage⟩ ∧
      SameKind s ⟨s.manager, storage⟩ ∧
      storage.data = Memory.write s.storage.data offset data := by
  obtain ⟨storage, hrun, hfaults, hbackend, hsize, hdata⟩ :=
    StorageM.writeBytes_inside hready.faults hready.writable hin
  exact ⟨storage, zoom_ok hrun, ⟨hfaults, hbackend, hsize⟩, hdata⟩

theorem SameKind.refl {s : LogState} (hready : s.Ready) : SameKind s s :=
  ⟨hready.faults, rfl, rfl⟩

theorem SameKind.trans {s s' s'' : LogState} (h : SameKind s s') (h' : SameKind s' s'') :
    SameKind s s'' :=
  ⟨h'.faults, h'.backend.trans h.backend, h'.size.trans h.size⟩

/-- Readiness only depends on the kind of the storage and the fixed fields of the
manager. -/
theorem SameKind.ready {s s' : LogState} (h : SameKind s s') (hready : s.Ready)
    (hbase : s'.manager.logBase = s.manager.logBase)
    (hpages : s'.manager.logPages = s.manager.logPages)
    (hbuffer : s'.manager.logBuffer.length = logBufferSize) : s'.Ready where
  faults := h.faults
  writable := h.backend ▸ hready.writable
  room := by
    have hroom := hready.room
    unfold dataStart at hroom ⊢
    rw [hbase, hpages, h.size]
    exact hroom
  buffer := hbuffer

/-- The page loop writes one stretch of the buffer. -/
theorem writePages_ok {s : LogState} (hready : s.Ready) (startPage i count : ℕ)
    (hbuf : (i + count) * logPSize ≤ logBufferSize)
    (hroom : startPage + i + count ≤ s.manager.logPages) :
    ∃ storage, writePages startPage i count s = .ok () ⟨s.manager, storage⟩ ∧
      SameKind s ⟨s.manager, storage⟩ ∧
      storage.data = Memory.write s.storage.data
        (s.manager.dataStart + (startPage + i) * logPSize)
        (slice s.manager.logBuffer (i * logPSize) (count * logPSize)) := by
  induction count generalizing i s with
  | zero =>
      refine ⟨s.storage, rfl, SameKind.refl hready, ?_⟩
      rw [Nat.zero_mul]
      unfold slice
      rw [List.take_zero, Memory.write_nil]
  | succ count ih =>
      have hpos : (i + 1) * logPSize ≤ (i + (count + 1)) * logPSize :=
        Nat.mul_le_mul_right _ (by omega)
      have hlen : (slice s.manager.logBuffer (i * logPSize) logPSize).length = logPSize := by
        apply length_slice_of_le
        rw [hready.buffer, ← Nat.succ_mul]
        exact hpos.trans hbuf
      have hin : s.manager.dataStart + (startPage + i) * logPSize +
          (slice s.manager.logBuffer (i * logPSize) logPSize).length ≤ s.storage.size := by
        have hpage : (startPage + i + 1) * logPSize ≤ s.manager.logPages * logPSize :=
          Nat.mul_le_mul_right _ (by omega)
        have hroom' := hready.room
        rw [hlen]
        rw [Nat.succ_mul] at hpage
        omega
      obtain ⟨storage, hwrite, hkind, hdata⟩ := onStorage_write hready hin
      have hnext : (⟨s.manager, storage⟩ : LogState).Ready :=
        hkind.ready hready rfl rfl hready.buffer
      have hsum : i + 1 + count = i + (count + 1) := by omega
      have hroom' : startPage + (i + 1) + count ≤ s.manager.logPages := by omega
      obtain ⟨storage', hrun, hkind', hdata'⟩ := ih hnext (i + 1) (hsum ▸ hbuf) hroom'
      refine ⟨storage', ?_, hkind.trans hkind', ?_⟩
      · unfold writePages
        rw [bind_ok (get_apply s)]
        have hpage : writePage (startPage + i) (slice s.manager.logBuffer (i * logPSize) logPSize) s =
            .ok () ⟨s.manager, storage⟩ := by
          unfold writePage
          rw [bind_ok (get_apply s)]
          exact hwrite
        rw [bind_ok hpage]
        exact hrun
      · have hoff : s.manager.dataStart + (startPage + (i + 1)) * logPSize =
            s.manager.dataStart + (startPage + i) * logPSize +
              (slice s.manager.logBuffer (i * logPSize) logPSize).length := by
          rw [hlen, Nat.add_assoc s.manager.dataStart, ← Nat.succ_mul]
          rfl
        have hslice : slice s.manager.logBuffer (i * logPSize) logPSize ++
            slice s.manager.logBuffer ((i + 1) * logPSize) (count * logPSize) =
            slice s.manager.logBuffer (i * logPSize) ((count + 1) * logPSize) := by
          rw [Nat.succ_mul i, slice_append_slice, Nat.succ_mul count, Nat.add_comm logPSize]
        rw [hdata']
        simp only [hdata, hoff, Memory.write_append, hslice]

theorem length_superFields (logsuper : LogSuper) : (superFields logsuper).length = 2116 := by
  have hactive : (logsuper.active.toList.flatMap Vector.toList).length = 2048 := by
    rw [List.length_flatMap, List.map_congr_left (fun v _ => v.length_toList), List.map_const',
      Vector.length_toList, List.sum_replicate_nat]
  have hwords : (superWords logsuper).length = 36 := by
    simp [superWords]
  unfold superFields
  simp only [List.length_append, Vector.length_toList, hwords, hactive]

theorem length_superBytes (logsuper : LogSuper) : (superBytes logsuper).length = logPSize := by
  unfold superBytes
  rw [length_splice, length_zeros]
  rw [length_superFields, length_zeros]
  decide

/-- The pages of the buffer in use are written to their place in the area. -/
theorem writeBuffer_ok {s : LogState} (hready : s.Ready)
    (hoff : s.manager.writeOffset ≤ s.manager.logPages * logPSize) :
    ∃ storage, writeBuffer s = .ok () ⟨s.manager, storage⟩ ∧
      SameKind s ⟨s.manager, storage⟩ ∧
      ∀ i, LogState.area ⟨s.manager, storage⟩ i =
        if s.manager.bufferDirty ∧ s.bufferStart ≤ i ∧ i < s.pagesEnd then
          s.manager.logBuffer.getD (i - s.bufferStart) 0
        else s.area i := by
  unfold writeBuffer
  rw [bind_ok (get_apply s)]
  by_cases hdirty : s.manager.bufferDirty ∧ 0 < s.manager.writeOffset
  · have hpages : s.manager.logPages < 2 ^ 32 := s.manager.logsuper.size.toNat_lt
    have hmod : s.bufferStart / logPSize % 2 ^ 32 = s.bufferStart / logPSize := by
      apply Nat.mod_eq_of_lt
      unfold LogState.bufferStart logPSize logBufferSize at *
      omega
    have hcount : (s.manager.writeOffset - s.bufferStart + logPSize - 1) / logPSize * logPSize =
        s.pagesEnd - s.bufferStart := by
      unfold LogState.pagesEnd LogState.bufferStart logBufferSize logPSize
      omega
    obtain ⟨storage, hrun, hkind, hdata⟩ := writePages_ok hready (s.bufferStart / logPSize) 0
      ((s.manager.writeOffset - s.bufferStart + logPSize - 1) / logPSize) (by
        unfold LogState.bufferStart logBufferSize logPSize
        omega) (by
        unfold LogState.bufferStart logBufferSize logPSize at *
        omega)
    refine ⟨storage, ?_, hkind, ?_⟩
    · rw [if_pos hdirty]
      rw [← hmod] at hrun
      exact hrun
    · intro i
      have hstart : (s.bufferStart / logPSize + 0) * logPSize = s.bufferStart := by
        unfold LogState.bufferStart logBufferSize logPSize
        omega
      have hslice : slice s.manager.logBuffer (0 * logPSize)
          ((s.manager.writeOffset - s.bufferStart + logPSize - 1) / logPSize * logPSize) =
          slice s.manager.logBuffer 0 (s.pagesEnd - s.bufferStart) := by
        rw [hcount, Nat.zero_mul]
      have hlen : (slice s.manager.logBuffer 0 (s.pagesEnd - s.bufferStart)).length =
          s.pagesEnd - s.bufferStart := by
        apply length_slice_of_le
        rw [hready.buffer]
        unfold LogState.pagesEnd LogState.bufferStart logBufferSize logPSize
        omega
      rw [hstart, hslice] at hdata
      show storage.data (s.manager.dataStart + i) = _
      rw [hdata]
      by_cases hin : s.bufferStart ≤ i ∧ i < s.pagesEnd
      · rw [if_pos ⟨hdirty.1, hin⟩, Memory.write_inside 0 (by rw [hlen]; omega),
          Nat.add_sub_add_left, getD_slice _ _ _ _ _ (by omega), Nat.zero_add]
      · rw [if_neg fun hcond => hin hcond.2, Memory.write_outside (by rw [hlen]; omega)]
        rfl
  · refine ⟨s.storage, ?_, SameKind.refl hready, ?_⟩
    · rw [if_neg hdirty]
      rfl
    · intro i
      have hnone : ¬ (s.manager.bufferDirty ∧ s.bufferStart ≤ i ∧ i < s.pagesEnd) := by
        intro hcond
        refine hdirty ⟨hcond.1, ?_⟩
        have hend := hcond.2.2
        unfold LogState.pagesEnd logPSize at hend
        omega
      rw [if_neg hnone]

/-- **A flush stores the pages of the buffer in use**, and the end of the log in the
superblock, which is outside the area. -/
theorem flushJournal_ok {s : LogState} (hready : s.Ready)
    (hoff : s.manager.writeOffset ≤ s.manager.logPages * logPSize) :
    ∃ s', flushJournal s = .ok () s' ∧ SameKind s s' ∧
      s'.manager = { s.manager with
        logsuper := { s.manager.logsuper with logEnd := UInt32.ofNat s.manager.writeOffset } } ∧
      ∀ i, s'.area i =
        if s.manager.bufferDirty ∧ s.bufferStart ≤ i ∧ i < s.pagesEnd then
          s.manager.logBuffer.getD (i - s.bufferStart) 0
        else s.area i := by
  obtain ⟨storage, hrun, hkind, harea⟩ := writeBuffer_ok hready hoff
  have hflush : ∀ call, ∀ t : Storage, t.faults = [] →
      onStorage (StorageM.flush call) ⟨s.manager, t⟩ = .ok () ⟨s.manager, t.record call⟩ :=
    fun call t ht => zoom_ok (StorageM.flush_ok ht call)
  let lm : LogManager := { s.manager with
    logsuper := { s.manager.logsuper with logEnd := UInt32.ofNat s.manager.writeOffset } }
  let t : Storage := (storage.record .flushMetadata).record .sync
  have hready' : (⟨lm, t⟩ : LogState).Ready := by
    have hkind' : SameKind s ⟨lm, t⟩ := ⟨hkind.faults, hkind.backend, hkind.size⟩
    exact hkind'.ready hready rfl rfl hready.buffer
  have hin : lm.logBase + blockSize + (superBytes lm.logsuper).length ≤ t.size := by
    have hroom : s.manager.logBase + blockSize * 2 + s.manager.logPages * logPSize ≤ t.size :=
      hready'.room
    rw [length_superBytes]
    show s.manager.logBase + blockSize + logPSize ≤ t.size
    unfold blockSize logPSize at *
    omega
  obtain ⟨storage', hwrite, hkind', hdata⟩ := onStorage_write hready' hin
  refine ⟨⟨lm, storage'⟩, ?_, ⟨hkind'.faults, ?_, ?_⟩, rfl, ?_⟩
  · unfold flushJournal StorageM.flushMetadata StorageM.sync
    rw [bind_ok hrun, bind_ok (hflush _ storage hkind.faults),
      bind_ok (hflush _ (storage.record .flushMetadata) hkind.faults)]
    have hmodify : modifyManager (fun lm =>
        { lm with logsuper := { lm.logsuper with logEnd := UInt32.ofNat lm.writeOffset } })
        ⟨s.manager, t⟩ = .ok () ⟨lm, t⟩ := rfl
    rw [bind_ok hmodify, bind_ok (get_apply _)]
    unfold writeSuper
    rw [bind_ok (get_apply _)]
    exact hwrite
  · exact hkind'.backend.trans hkind.backend
  · exact hkind'.size.trans hkind.size
  · intro i
    rw [← harea i]
    show storage'.data (s.manager.dataStart + i) = storage.data (s.manager.dataStart + i)
    rw [hdata]
    refine Memory.write_outside ?_
    rw [length_superBytes]
    show ¬ (s.manager.logBase + blockSize ≤ s.manager.logBase + blockSize * 2 + i ∧
      s.manager.logBase + blockSize * 2 + i < s.manager.logBase + blockSize + logPSize)
    unfold blockSize logPSize
    omega

theorem makeRoom_stay {s : LogState} {n : ℕ}
    (hfits : s.manager.writeOffset % logBufferSize + n ≤ logBufferSize) :
    makeRoom n s = .ok () s := by
  unfold makeRoom
  rw [bind_ok (get_apply s), if_neg (by omega)]
  rfl

/-- Making room stores the buffer and starts a new one. -/
theorem makeRoom_flush {s : LogState} (hready : s.Ready) {n : ℕ}
    (hoff : s.manager.writeOffset ≤ s.manager.logPages * logPSize)
    (hfull : logBufferSize < s.manager.writeOffset % logBufferSize + n) :
    ∃ s', makeRoom n s = .ok () s' ∧ s'.Ready ∧
      s'.manager.logBase = s.manager.logBase ∧ s'.manager.logPages = s.manager.logPages ∧
      s'.manager.writeOffset =
        (s.manager.writeOffset + logBufferSize - 1) / logBufferSize * logBufferSize ∧
      ∀ i, s'.area i =
        if s.manager.bufferDirty ∧ s.bufferStart ≤ i ∧ i < s.pagesEnd then
          s.manager.logBuffer.getD (i - s.bufferStart) 0
        else s.area i := by
  obtain ⟨s₁, hflush, hkind, hmanager, harea⟩ := flushJournal_ok hready hoff
  refine ⟨⟨{ s₁.manager with
      logBuffer := zeros logBufferSize, bufferDirty := false,
      writeOffset :=
        (s₁.manager.writeOffset + logBufferSize - 1) / logBufferSize * logBufferSize },
    s₁.storage⟩, ?_, ?_, ?_, ?_, ?_, harea⟩
  · unfold makeRoom
    rw [bind_ok (get_apply s), if_pos hfull, bind_ok hflush]
    rfl
  · have hkind' : SameKind s ⟨{ s₁.manager with
        logBuffer := zeros logBufferSize, bufferDirty := false,
        writeOffset :=
          (s₁.manager.writeOffset + logBufferSize - 1) / logBufferSize * logBufferSize },
        s₁.storage⟩ := ⟨hkind.faults, hkind.backend, hkind.size⟩
    refine hkind'.ready hready ?_ ?_ (length_zeros _)
    · show s₁.manager.logBase = s.manager.logBase
      rw [hmanager]
    · show s₁.manager.logPages = s.manager.logPages
      rw [hmanager]
      rfl
  · show s₁.manager.logBase = s.manager.logBase
    rw [hmanager]
  · show s₁.manager.logPages = s.manager.logPages
    rw [hmanager]
    rfl
  · show (s₁.manager.writeOffset + _ - 1) / _ * _ = _
    rw [hmanager]

theorem copyToBuffer_ok {s : LogState} {off : ℕ} {bytes : List UInt8}
    (hfits : off + bytes.length ≤ s.manager.logBuffer.length) :
    copyToBuffer off bytes s = .ok () { s with
      manager := { s.manager with logBuffer := splice s.manager.logBuffer off bytes } } := by
  unfold copyToBuffer
  rw [bind_ok (get_apply s), if_neg (by omega)]
  rfl

/-- Once there is room, an image is put into the buffer. -/
theorem appendLogRecord_eq {s s₁ : LogState}
    (hbuffer : s₁.manager.logBuffer.length = logBufferSize) (txid block : ℕ)
    {data : List UInt8} (hroom : makeRoom (lrdSize + data.length) s = .ok () s₁)
    (hfits : s₁.manager.writeOffset % logBufferSize + (lrdSize + data.length) ≤ logBufferSize) :
    appendLogRecord txid block data s =
      .ok () (s₁.place ((LogOp.append txid block data).record s₁.manager.prevRecordOffset)
        s₁.manager.writeOffset) := by
  generalize hlrd : redoLrd txid block s₁.manager.prevRecordOffset data.length = lrd
  have hlen : (lrdBytes lrd).length = lrdSize := length_lrdBytes lrd
  generalize hoff : s₁.manager.writeOffset % logBufferSize = off at hfits
  have hfirst := copyToBuffer_ok (show off + (lrdBytes lrd).length ≤ s₁.manager.logBuffer.length by
    omega)
  -- the payload goes right behind the descriptor
  have hboth : splice (splice s₁.manager.logBuffer off (lrdBytes lrd)) (off + lrdSize) data =
      splice s₁.manager.logBuffer off (recordBytes (lrd, data)) := by
    rw [← hlen]
    exact splice_append (by omega)
  have hlength : (splice s₁.manager.logBuffer off (lrdBytes lrd)).length = logBufferSize := by
    rw [length_splice (by omega), hbuffer]
  have hsecond := copyToBuffer_ok (s := ⟨{ s₁.manager with
      logBuffer := splice s₁.manager.logBuffer off (lrdBytes lrd), bufferDirty := true },
    s₁.storage⟩) (show off + lrdSize + data.length ≤
      (splice s₁.manager.logBuffer off (lrdBytes lrd)).length by omega)
  have hsize : (recordBytes (lrd, data)).length = lrdSize + data.length := by
    unfold recordBytes
    rw [List.length_append, hlen]
  unfold appendLogRecord
  rw [bind_ok hroom, bind_ok (get_apply s₁)]
  simp only [hlrd, hoff]
  rw [bind_ok hfirst]
  show (copyToBuffer (off + lrdSize) data >>= _) _ = _
  rw [bind_ok hsecond]
  unfold LogState.place LogOp.record
  simp only [hlrd, hoff, hsize, ← hboth]
  rfl

/-- Once there is room, a commit record is put into the buffer, and the buffer is
stored. -/
theorem commitTransaction_eq {s s₁ : LogState} (s₂ : LogState) (hready : s₁.Ready) (txid : ℕ)
    (hroom : makeRoom lrdSize s = .ok () s₁)
    (hfits : s₁.manager.writeOffset % logBufferSize + lrdSize ≤ logBufferSize)
    (hflush : flushJournal (s₁.place ((LogOp.commit txid).record s₁.manager.prevRecordOffset)
      s₁.manager.prevRecordOffset) = .ok () s₂) :
    commitTransaction txid s =
      .ok () { s₂ with manager := { s₂.manager with prevRecordOffset := 0 } } := by
  have hbuffer := hready.buffer
  have hlen := length_lrdBytes (commitLrd txid s₁.manager.prevRecordOffset)
  have hcopy := copyToBuffer_ok (show s₁.manager.writeOffset % logBufferSize +
    (lrdBytes (commitLrd txid s₁.manager.prevRecordOffset)).length ≤
      s₁.manager.logBuffer.length by omega)
  have hbytes : recordBytes (commitLrd txid s₁.manager.prevRecordOffset, []) =
      lrdBytes (commitLrd txid s₁.manager.prevRecordOffset) := List.append_nil _
  unfold LogState.place LogOp.record at hflush
  simp only [hbytes, hlen] at hflush
  unfold commitTransaction
  rw [bind_ok hroom, bind_ok (get_apply s₁), bind_ok hcopy]
  exact bind_ok hflush

end LogManager

end JfsFuse
