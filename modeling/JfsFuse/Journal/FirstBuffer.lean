import JfsFuse.Journal.Writer

/-!
# The first buffer of the log

A run of the writer puts its records into the first buffer as long as they fit.
The first record that does not fit starts at the next buffer, and from then on the
first buffer stays as it is, with zeros behind its last record.
-/

namespace JfsFuse

open ByteBuf Program

/-! ## Filling the first buffer -/

namespace LogOp

/-- Offset of the previous record for the call after this one, if this one's record
starts at `off`. -/
def nextPrev (off : ℕ) : LogOp → ℕ
  | append _ _ _ => off
  | commit _ => 0

theorem length_recordBytes (op : LogOp) (prev : ℕ) :
    (recordBytes (op.record prev)).length = op.size := by
  cases op with
  | append txid block data =>
      unfold record recordBytes size
      rw [List.length_append, length_lrdBytes]
  | commit txid =>
      unfold record recordBytes size
      rw [List.append_nil, length_lrdBytes]

end LogOp

namespace LogState

/-- Only `written` has been put into the log so far, and it lies in the first
buffer.  Pages of the area behind it are still zero. -/
structure Filling (s : LogState) (written : List UInt8) : Prop where
  ready : s.Ready
  offset : s.manager.writeOffset = written.length
  bounded : written.length < logBufferSize
  buffer : s.manager.logBuffer = written ++ zeros (logBufferSize - written.length)
  dirty : written ≠ [] → s.manager.bufferDirty = true
  rest : ∀ i, s.pagesEnd ≤ i → i < s.manager.logPages * logPSize → s.area i = 0

/-- The area holds `written` and zeros. -/
def Stored (s : LogState) (written : List UInt8) : Prop :=
  ∀ i, i < s.manager.logPages * logPSize → s.area i = written.getD i 0

variable {s : LogState} {written : List UInt8}

theorem Filling.mod_offset (h : s.Filling written) :
    s.manager.writeOffset % logBufferSize = written.length := by
  rw [h.offset]
  exact Nat.mod_eq_of_lt h.bounded

/-- A record that fits is put behind the others. -/
theorem Filling.place (h : s.Filling written) (record : LogRecord) (prev : ℕ)
    (hfits : written.length + (recordBytes record).length < logBufferSize) :
    (s.place record prev).Filling (written ++ recordBytes record) := by
  have hbuffer : (s.place record prev).manager.logBuffer =
      written ++ recordBytes record ++
        zeros (logBufferSize - (written ++ recordBytes record).length) := by
    show splice s.manager.logBuffer (s.manager.writeOffset % logBufferSize) _ = _
    rw [h.mod_offset, h.buffer, splice_append_zeros, List.length_append, Nat.sub_sub]
  refine ⟨⟨h.ready.faults, h.ready.writable, h.ready.room, ?_⟩, ?_, ?_, hbuffer, fun _ => rfl, ?_⟩
  · rw [hbuffer, List.length_append, length_zeros, List.length_append]
    omega
  · show s.manager.writeOffset + _ = _
    rw [h.offset, List.length_append]
  · rw [List.length_append]
    exact hfits
  · intro i hi hlt
    refine h.rest i (le_trans ?_ hi) hlt
    unfold pagesEnd LogState.place logPSize
    simp only
    omega

theorem Filling.bufferStart_eq (h : s.Filling written) : s.bufferStart = 0 := by
  unfold bufferStart
  rw [h.mod_offset, h.offset, Nat.sub_self]

/-- With its pages in use replaced by those of the buffer, the area holds what has
been written. -/
theorem Filling.stored_area (h : s.Filling written) {i : ℕ}
    (hi : i < s.manager.logPages * logPSize) :
    (if s.manager.bufferDirty = true ∧ s.bufferStart ≤ i ∧ i < s.pagesEnd then
      s.manager.logBuffer.getD (i - s.bufferStart) 0 else s.area i) = written.getD i 0 := by
  rw [h.bufferStart_eq, Nat.sub_zero, h.buffer]
  by_cases hlt : i < written.length
  · have hne : written ≠ [] := fun hnil => by simp [hnil] at hlt
    have hend : i < s.pagesEnd := by
      unfold pagesEnd logPSize
      rw [h.offset]
      omega
    rw [if_pos ⟨h.dirty hne, Nat.zero_le _, hend⟩, List.getD_append _ _ _ _ hlt]
  rw [List.getD_eq_default written 0 (by omega)]
  split
  · rw [List.getD_append_right _ _ _ _ (by omega), getD_zeros]
  · next hcond =>
      by_cases hend : i < s.pagesEnd
      · -- a page in use is dirty
        have hne : written ≠ [] := by
          rintro rfl
          unfold pagesEnd logPSize at hend
          rw [h.offset, List.length_nil] at hend
          omega
        exact absurd ⟨h.dirty hne, Nat.zero_le _, hend⟩ hcond
      · exact h.rest i (by omega) hi

/-- A flush stores what has been written. -/
theorem Filling.flush (h : s.Filling written)
    (hroom : written.length ≤ s.manager.logPages * logPSize) :
    ∃ s', LogManager.flushJournal s = .ok () s' ∧ s'.Filling written ∧ s'.Stored written ∧
      s'.manager.logBase = s.manager.logBase ∧ s'.manager.logPages = s.manager.logPages := by
  obtain ⟨s', hrun, hkind, hmanager, harea⟩ :=
    LogManager.flushJournal_ok h.ready (h.offset ▸ hroom)
  have hbase : s'.manager.logBase = s.manager.logBase := by
    rw [hmanager]
  have hpages : s'.manager.logPages = s.manager.logPages := by
    rw [hmanager]
    rfl
  have hbuffer : s'.manager.logBuffer = s.manager.logBuffer := by
    rw [hmanager]
  have hoffset : s'.manager.writeOffset = s.manager.writeOffset := by
    rw [hmanager]
  have hstored : s'.Stored written := by
    intro i hi
    rw [hpages] at hi
    rw [harea i, h.stored_area hi]
  refine ⟨s', hrun, ⟨?_, ?_, h.bounded, ?_, ?_, ?_⟩, hstored, hbase, hpages⟩
  · exact hkind.ready h.ready hbase hpages (hbuffer ▸ h.ready.buffer)
  · rw [hoffset, h.offset]
  · rw [hbuffer, h.buffer]
  · intro hne
    rw [hmanager]
    exact h.dirty hne
  · intro i hi hlt
    have hle : written.length ≤ i := by
      unfold pagesEnd logPSize at hi
      rw [hoffset, h.offset] at hi
      omega
    rw [hstored i hlt, List.getD_eq_default _ _ hle]

/-- Forgetting the previous record changes nothing else. -/
theorem Filling.resetPrev (h : s.Filling written) (prev : ℕ) :
    Filling { s with manager := { s.manager with prevRecordOffset := prev } } written :=
  ⟨⟨h.ready.faults, h.ready.writable, h.ready.room, h.ready.buffer⟩, h.offset, h.bounded,
    h.buffer, h.dirty, h.rest⟩

/-- **A call whose record fits in the first buffer adds it there**; a commit also
stores everything. -/
theorem Filling.step (h : s.Filling written) (op : LogOp)
    (hfits : written.length + op.size < logBufferSize)
    (hroom : written.length + op.size ≤ s.manager.logPages * logPSize) :
    ∃ s', op.perform s = .ok () s' ∧
      s'.Filling (written ++ recordBytes (op.record s.manager.prevRecordOffset)) ∧
      s'.manager.prevRecordOffset = op.nextPrev written.length ∧
      s'.manager.logBase = s.manager.logBase ∧ s'.manager.logPages = s.manager.logPages ∧
      ∀ txid, op = .commit txid →
        s'.Stored (written ++ recordBytes (op.record s.manager.prevRecordOffset)) := by
  have hsize := op.length_recordBytes s.manager.prevRecordOffset
  have hstay : LogManager.makeRoom op.size s = .ok () s :=
    LogManager.makeRoom_stay (by rw [h.mod_offset]; omega)
  cases op with
  | append txid block data =>
      have hrun := LogManager.appendLogRecord_eq h.ready.buffer txid block hstay
        (by rw [h.mod_offset]; exact hfits.le)
      refine ⟨_, hrun, h.place _ _ (by rw [hsize]; exact hfits), h.offset, rfl, rfl, ?_⟩
      intro txid' heq
      cases heq
  | commit txid =>
      have hplaced := h.place ((LogOp.commit txid).record s.manager.prevRecordOffset)
        s.manager.prevRecordOffset (by rw [hsize]; exact hfits)
      obtain ⟨s₂, hflush, hfilling, hstored, hbase, hpages⟩ := hplaced.flush
        (by rw [List.length_append, hsize]; exact hroom)
      have hrun := LogManager.commitTransaction_eq s₂ h.ready txid hstay
        (by rw [h.mod_offset]; exact hfits.le) hflush
      exact ⟨_, hrun, hfilling.resetPrev 0, rfl, hbase, hpages, fun _ _ => hstored⟩

/-! ## After the first buffer -/

/-- The writer has left the first buffer, with `written` and zeros in it. -/
structure Passed (s : LogState) (written : List UInt8) : Prop where
  ready : s.Ready
  offset : logBufferSize ≤ s.manager.writeOffset
  area : ∀ i, i < logBufferSize → s.area i = written.getD i 0

/-- Where a record of `n` bytes starts when the writer is at `off`. -/
def startOf (off n : ℕ) : ℕ :=
  if logBufferSize < off % logBufferSize + n then
    (off + logBufferSize - 1) / logBufferSize * logBufferSize
  else off

theorem startOf_mod_add_le (off : ℕ) {n : ℕ} (hn : n ≤ logBufferSize) :
    startOf off n % logBufferSize + n ≤ logBufferSize := by
  unfold startOf
  split
  · rw [Nat.mul_mod_left]
    omega
  · omega

theorem le_startOf (off n : ℕ) : off ≤ startOf off n := by
  unfold startOf logBufferSize logPSize
  split <;> omega

/-- Once there is room for its record, a call returns; when the writer has left the
first buffer, that stays as it is. -/
theorem perform_of_room {op : LogOp} {s s₁ : LogState} (hready : s₁.Ready)
    (hmake : LogManager.makeRoom op.size s = .ok () s₁)
    (hfits : s₁.manager.writeOffset % logBufferSize + op.size ≤ logBufferSize)
    (hroom : s₁.manager.writeOffset + op.size ≤ s₁.manager.logPages * logPSize) :
    ∃ s', op.perform s = .ok () s' ∧ s'.Ready ∧
      s'.manager.writeOffset = s₁.manager.writeOffset + op.size ∧
      s'.manager.logBase = s₁.manager.logBase ∧ s'.manager.logPages = s₁.manager.logPages ∧
      (logBufferSize ≤ s₁.manager.writeOffset →
        ∀ i, i < logBufferSize → s'.area i = s₁.area i) := by
  have hsize := op.length_recordBytes s₁.manager.prevRecordOffset
  have hplaced : ∀ prev,
      (s₁.place (op.record s₁.manager.prevRecordOffset) prev).Ready := by
    intro prev
    refine ⟨hready.faults, hready.writable, hready.room, ?_⟩
    show (splice s₁.manager.logBuffer _ _).length = _
    rw [length_splice (by rw [hsize, hready.buffer]; exact hfits), hready.buffer]
  cases op with
  | append txid block data =>
      have hrun := LogManager.appendLogRecord_eq hready.buffer txid block hmake hfits
      refine ⟨_, hrun, hplaced _, ?_, rfl, rfl, fun _ _ _ => rfl⟩
      show s₁.manager.writeOffset + _ = _
      rw [hsize]
  | commit txid =>
      have hready' := hplaced s₁.manager.prevRecordOffset
      have hoff : (s₁.place ((LogOp.commit txid).record s₁.manager.prevRecordOffset)
          s₁.manager.prevRecordOffset).manager.writeOffset =
          s₁.manager.writeOffset + (LogOp.commit txid).size := by
        rw [← hsize]
        rfl
      have hbase : (s₁.place ((LogOp.commit txid).record s₁.manager.prevRecordOffset)
          s₁.manager.prevRecordOffset).manager.logBase = s₁.manager.logBase := rfl
      have hpages : (s₁.place ((LogOp.commit txid).record s₁.manager.prevRecordOffset)
          s₁.manager.prevRecordOffset).manager.logPages = s₁.manager.logPages := rfl
      have harea : ∀ i, (s₁.place ((LogOp.commit txid).record s₁.manager.prevRecordOffset)
          s₁.manager.prevRecordOffset).area i = s₁.area i := fun _ => rfl
      have hcommit := fun s₂ => LogManager.commitTransaction_eq s₂ hready txid hmake hfits
      generalize s₁.place ((LogOp.commit txid).record s₁.manager.prevRecordOffset)
        s₁.manager.prevRecordOffset = t at hready' hoff hbase hpages harea hcommit
      obtain ⟨s₂, hflush, hkind, hmanager, harea₂⟩ := LogManager.flushJournal_ok hready'
        (by rw [hoff, hpages]; exact hroom)
      have hbase₂ : s₂.manager.logBase = t.manager.logBase := by rw [hmanager]
      have hpages₂ : s₂.manager.logPages = t.manager.logPages := by
        rw [hmanager]
        rfl
      have hready₂ : s₂.Ready :=
        hkind.ready hready' hbase₂ hpages₂ (by rw [hmanager]; exact hready'.buffer)
      refine ⟨_, hcommit s₂ hflush,
        ⟨hready₂.faults, hready₂.writable, hready₂.room, hready₂.buffer⟩, ?_, hbase₂.trans hbase,
        hpages₂.trans hpages, ?_⟩
      · show s₂.manager.writeOffset = _
        rw [hmanager]
        exact hoff
      · intro hpast i hi
        -- the flush writes pages behind the first buffer only
        have hstart : ¬ t.bufferStart ≤ i := by
          unfold bufferStart
          rw [hoff]
          unfold logBufferSize logPSize at *
          omega
        show s₂.area i = s₁.area i
        rw [harea₂ i, if_neg fun hcond => hstart hcond.2.1, harea]

/-- A call after the first buffer leaves it as it is. -/
theorem Passed.step {s : LogState} {written : List UInt8} (h : s.Passed written) (op : LogOp)
    (hsize : op.size ≤ logBufferSize)
    (hroom : startOf s.manager.writeOffset op.size + op.size ≤ s.manager.logPages * logPSize) :
    ∃ s', op.perform s = .ok () s' ∧ s'.Passed written ∧
      s'.manager.writeOffset = startOf s.manager.writeOffset op.size + op.size ∧
      s'.manager.logBase = s.manager.logBase ∧ s'.manager.logPages = s.manager.logPages := by
  have hmod := startOf_mod_add_le s.manager.writeOffset hsize
  by_cases hfull : logBufferSize < s.manager.writeOffset % logBufferSize + op.size
  · have hstart : startOf s.manager.writeOffset op.size =
        (s.manager.writeOffset + logBufferSize - 1) / logBufferSize * logBufferSize := if_pos hfull
    have hle := le_startOf s.manager.writeOffset op.size
    obtain ⟨s₁, hmake, hready₁, hbase₁, hpages₁, hoff₁, harea₁⟩ :=
      LogManager.makeRoom_flush h.ready (by omega) hfull
    rw [← hstart] at hoff₁
    obtain ⟨s', hrun, hready, hoff, hbase, hpages, harea⟩ := perform_of_room hready₁ hmake
      (by rw [hoff₁]; exact hmod) (by rw [hoff₁, hpages₁]; exact hroom)
    have hpast : logBufferSize ≤ s₁.manager.writeOffset := by
      have := h.offset
      omega
    refine ⟨s', hrun, ⟨hready, ?_, ?_⟩, ?_, hbase.trans hbase₁, hpages.trans hpages₁⟩
    · omega
    · intro i hi
      have hbuffer : ¬ s.bufferStart ≤ i := by
        have hoffset := h.offset
        unfold bufferStart
        unfold logBufferSize logPSize at *
        omega
      rw [harea hpast i hi, harea₁ i, if_neg fun hcond => hbuffer hcond.2.1]
      exact h.area i hi
    · rw [hoff, hoff₁]
  · have hstart : startOf s.manager.writeOffset op.size = s.manager.writeOffset := if_neg hfull
    rw [hstart] at hmod hroom ⊢
    obtain ⟨s', hrun, hready, hoff, hbase, hpages, harea⟩ := perform_of_room h.ready
      (LogManager.makeRoom_stay hmod) hmod hroom
    refine ⟨s', hrun, ⟨hready, ?_, ?_⟩, hoff, hbase, hpages⟩
    · have := h.offset
      omega
    · intro i hi
      rw [harea h.offset i hi]
      exact h.area i hi

/-- **A call whose record does not fit in the first buffer leaves it behind.** -/
theorem Filling.leave {s : LogState} {written : List UInt8} (h : s.Filling written) (op : LogOp)
    (hsize : op.size ≤ logBufferSize) (hfull : logBufferSize < written.length + op.size)
    (hroom : startOf s.manager.writeOffset op.size + op.size ≤ s.manager.logPages * logPSize) :
    ∃ s', op.perform s = .ok () s' ∧ s'.Passed written ∧
      s'.manager.writeOffset = startOf s.manager.writeOffset op.size + op.size ∧
      s'.manager.logBase = s.manager.logBase ∧ s'.manager.logPages = s.manager.logPages := by
  have hmod := startOf_mod_add_le s.manager.writeOffset hsize
  have hfull' : logBufferSize < s.manager.writeOffset % logBufferSize + op.size := by
    rw [h.mod_offset]
    exact hfull
  have hstart : startOf s.manager.writeOffset op.size =
      (s.manager.writeOffset + logBufferSize - 1) / logBufferSize * logBufferSize := if_pos hfull'
  have hnext : startOf s.manager.writeOffset op.size = logBufferSize := by
    have hbounded := h.bounded
    rw [hstart, h.offset]
    unfold logBufferSize logPSize at *
    omega
  obtain ⟨s₁, hmake, hready₁, hbase₁, hpages₁, hoff₁, harea₁⟩ :=
    LogManager.makeRoom_flush h.ready (by
      have := le_startOf s.manager.writeOffset op.size
      omega) hfull'
  rw [← hstart] at hoff₁
  obtain ⟨s', hrun, hready, hoff, hbase, hpages, harea⟩ := perform_of_room hready₁ hmake
    (by rw [hoff₁]; exact hmod) (by rw [hoff₁, hpages₁]; exact hroom)
  refine ⟨s', hrun, ⟨hready, by omega, ?_⟩, by rw [hoff, hoff₁], hbase.trans hbase₁,
    hpages.trans hpages₁⟩
  intro i hi
  rw [harea (by omega) i hi, harea₁ i]
  exact h.stored_area (by omega)

end LogState

/-! ## Whole runs of the writer -/

namespace LogOp

/-- Bytes of all records together. -/
def total (ops : List LogOp) : ℕ :=
  (ops.map size).sum

/-- The records of calls that start at offset `off` and follow each other without a
gap. -/
def recordsFrom (off prev : ℕ) : List LogOp → List LogRecord
  | [] => []
  | op :: rest => op.record prev :: recordsFrom (off + op.size) (op.nextPrev off) rest

/-- The write offset after calls that start at `off`. -/
def offsetAfter (off : ℕ) : List LogOp → ℕ
  | [] => off
  | op :: rest => offsetAfter (LogState.startOf off op.size + op.size) rest

/-- The sum of record sizes so far.  A block-sized image takes 4132 bytes and a
commit 36, so the sum is never a multiple of the buffer size below it. -/
def IsSum (n : ℕ) : Prop :=
  ∃ images commits, n = 4132 * images + 36 * commits

theorem IsSum.ne_buffer {n : ℕ} (h : IsSum n) (hle : n ≤ logBufferSize) : n < logBufferSize := by
  obtain ⟨images, commits, rfl⟩ := h
  unfold logBufferSize logPSize at *
  omega

/-- An image is a whole block. -/
def BlockSized (op : LogOp) : Prop :=
  ∀ txid block data, op = append txid block data → data.length = blockSize

theorem size_eq_or {op : LogOp} (hsized : op.BlockSized) : op.size = 4132 ∨ op.size = 36 := by
  cases op with
  | append txid block data =>
      have hlen := hsized txid block data rfl
      left
      show lrdSize + data.length = 4132
      rw [hlen]
      rfl
  | commit txid => exact Or.inr rfl

theorem size_le {op : LogOp} (hsized : op.BlockSized) : op.size ≤ logBufferSize := by
  have hsize := size_eq_or hsized
  unfold logBufferSize logPSize
  omega

theorem IsSum.add_size {n : ℕ} (h : IsSum n) {op : LogOp} (hsized : op.BlockSized) :
    IsSum (n + op.size) := by
  obtain ⟨images, commits, rfl⟩ := h
  rcases size_eq_or hsized with hsize | hsize
  · exact ⟨images + 1, commits, by omega⟩
  · exact ⟨images, commits + 1, by omega⟩

theorem le_offsetAfter (off : ℕ) (ops : List LogOp) : off ≤ offsetAfter off ops := by
  induction ops generalizing off with
  | nil => exact le_rfl
  | cons op rest ih =>
      have hstart := LogState.le_startOf off op.size
      have hrest := ih (LogState.startOf off op.size + op.size)
      unfold offsetAfter
      omega

end LogOp

/-- The bytes of records that follow each other. -/
def bytesOf (records : List LogRecord) : List UInt8 :=
  records.flatMap recordBytes

theorem LogOp.length_bytesOf (off prev : ℕ) (ops : List LogOp) :
    (bytesOf (recordsFrom off prev ops)).length = total ops := by
  induction ops generalizing off prev with
  | nil => rfl
  | cons op rest ih =>
      show (recordBytes (op.record prev) ++ bytesOf (recordsFrom _ _ rest)).length = _
      rw [List.length_append, op.length_recordBytes, ih]
      rfl

namespace LogState

variable {s : LogState} {written : List UInt8} {ops : List LogOp}

theorem startOf_of_fits {off n : ℕ} (hoff : off < logBufferSize) (hfits : off + n ≤ logBufferSize) :
    startOf off n = off := by
  refine if_neg ?_
  rw [Nat.mod_eq_of_lt hoff]
  omega

/-- **Calls that fit in the first buffer put their records there, one after the
other; if the last call is a commit, all of them are stored.** -/
theorem Filling.run (h : s.Filling written) (hsum : LogOp.IsSum written.length)
    (hvalid : ∀ op ∈ ops, op.Valid)
    (hfits : written.length + LogOp.total ops ≤ logBufferSize)
    (hroom : LogOp.offsetAfter written.length ops ≤ s.manager.logPages * logPSize) :
    ∃ s', LogOp.performAll ops s = .ok () s' ∧
      s'.Filling (written ++
        bytesOf (LogOp.recordsFrom written.length s.manager.prevRecordOffset ops)) ∧
      s'.manager.writeOffset = LogOp.offsetAfter written.length ops ∧
      s'.manager.logBase = s.manager.logBase ∧ s'.manager.logPages = s.manager.logPages ∧
      ∀ txid, ops.getLast? = some (.commit txid) → s'.Stored (written ++
        bytesOf (LogOp.recordsFrom written.length s.manager.prevRecordOffset ops)) := by
  induction ops generalizing s written with
  | nil =>
      refine ⟨s, rfl, ?_, h.offset, rfl, rfl, fun txid hlast => by cases hlast⟩
      show s.Filling (written ++ [])
      rwa [List.append_nil]
  | cons op rest ih =>
      have hop : op.Valid := hvalid op (List.mem_cons_self ..)
      have htotal : LogOp.total (op :: rest) = op.size + LogOp.total rest := rfl
      have hlt : written.length + op.size < logBufferSize :=
        (hsum.add_size hop.2).ne_buffer (by omega)
      have hstart := startOf_of_fits h.bounded (show written.length + op.size ≤ _ by omega)
      have hafter : LogOp.offsetAfter written.length (op :: rest) =
          LogOp.offsetAfter (written.length + op.size) rest := by
        show LogOp.offsetAfter (startOf written.length op.size + op.size) rest = _
        rw [hstart]
      have hle := LogOp.le_offsetAfter (written.length + op.size) rest
      rw [hafter] at hroom ⊢
      obtain ⟨s₁, hrun₁, hfilling₁, hprev₁, hbase₁, hpages₁, hstored₁⟩ := h.step op hlt (by omega)
      have hlen : (written ++ recordBytes (op.record s.manager.prevRecordOffset)).length =
          written.length + op.size := by
        rw [List.length_append, op.length_recordBytes]
      obtain ⟨s', hrun, hfilling, hoff, hbase, hpages, hstored⟩ := ih hfilling₁
        (by rw [hlen]; exact hsum.add_size hop.2)
        (fun op' hmem => hvalid op' (List.mem_cons_of_mem _ hmem))
        (by rw [hlen]; omega) (by rw [hlen, hpages₁]; exact hroom)
      rw [hlen, hprev₁, List.append_assoc] at hfilling hstored
      rw [hlen] at hoff
      refine ⟨s', ?_, hfilling, hoff, hbase.trans hbase₁, hpages.trans hpages₁, ?_⟩
      · show (op.perform >>= fun _ => LogOp.performAll rest) s = _
        rw [bind_ok hrun₁]
        exact hrun
      · intro txid hlast
        cases rest with
        | nil =>
            cases hlast
            cases hrun
            have hone := hstored₁ txid rfl
            show Stored _ (written ++ (recordBytes _ ++ []))
            rwa [List.append_nil]
        | cons next rest =>
            rw [List.getLast?_cons_cons] at hlast
            exact hstored txid hlast

/-- Calls after the first buffer leave it as it is. -/
theorem Passed.run (h : s.Passed written) (hvalid : ∀ op ∈ ops, op.Valid)
    (hroom : LogOp.offsetAfter s.manager.writeOffset ops ≤ s.manager.logPages * logPSize) :
    ∃ s', LogOp.performAll ops s = .ok () s' ∧ s'.Passed written ∧
      s'.manager.writeOffset = LogOp.offsetAfter s.manager.writeOffset ops ∧
      s'.manager.logBase = s.manager.logBase ∧ s'.manager.logPages = s.manager.logPages := by
  induction ops generalizing s with
  | nil => exact ⟨s, rfl, h, rfl, rfl, rfl⟩
  | cons op rest ih =>
      have hop : op.Valid := hvalid op (List.mem_cons_self ..)
      have hafter : LogOp.offsetAfter s.manager.writeOffset (op :: rest) =
          LogOp.offsetAfter (startOf s.manager.writeOffset op.size + op.size) rest := rfl
      have hle := LogOp.le_offsetAfter (startOf s.manager.writeOffset op.size + op.size) rest
      rw [hafter] at hroom ⊢
      obtain ⟨s₁, hrun₁, hpassed₁, hoff₁, hbase₁, hpages₁⟩ :=
        h.step op (LogOp.size_le hop.2) (by omega)
      rw [← hoff₁] at hroom ⊢
      rw [← hpages₁] at hroom
      obtain ⟨s', hrun, hpassed, hoff, hbase, hpages⟩ := ih hpassed₁
        (fun op' hmem => hvalid op' (List.mem_cons_of_mem _ hmem)) hroom
      refine ⟨s', ?_, hpassed, hoff, hbase.trans hbase₁, hpages.trans hpages₁⟩
      show (op.perform >>= fun _ => LogOp.performAll rest) s = _
      rw [bind_ok hrun₁]
      exact hrun

/-- **Calls that do not fit in the first buffer leave only the records of some first
part of them in it.** -/
theorem Filling.run_leave (h : s.Filling written) (hsum : LogOp.IsSum written.length)
    (hvalid : ∀ op ∈ ops, op.Valid)
    (hfull : logBufferSize < written.length + LogOp.total ops)
    (hroom : LogOp.offsetAfter written.length ops ≤ s.manager.logPages * logPSize) :
    ∃ s' k, LogOp.performAll ops s = .ok () s' ∧ k < ops.length ∧
      s'.Passed (written ++
        bytesOf (LogOp.recordsFrom written.length s.manager.prevRecordOffset (ops.take k))) ∧
      written.length + LogOp.total (ops.take k) < logBufferSize ∧
      s'.manager.writeOffset = LogOp.offsetAfter written.length ops ∧
      s'.manager.logBase = s.manager.logBase ∧ s'.manager.logPages = s.manager.logPages := by
  induction ops generalizing s written with
  | nil =>
      have hbounded := h.bounded
      have hzero : LogOp.total [] = 0 := rfl
      omega
  | cons op rest ih =>
      have hop : op.Valid := hvalid op (List.mem_cons_self ..)
      have hvalid' : ∀ op' ∈ rest, op'.Valid := fun op' hmem =>
        hvalid op' (List.mem_cons_of_mem _ hmem)
      have htotal : LogOp.total (op :: rest) = op.size + LogOp.total rest := rfl
      have hafter : LogOp.offsetAfter written.length (op :: rest) =
          LogOp.offsetAfter (startOf written.length op.size + op.size) rest := rfl
      have hle := LogOp.le_offsetAfter (startOf written.length op.size + op.size) rest
      rw [hafter] at hroom ⊢
      by_cases hfits : written.length + op.size ≤ logBufferSize
      · have hlt : written.length + op.size < logBufferSize := (hsum.add_size hop.2).ne_buffer hfits
        rw [startOf_of_fits h.bounded hfits] at hroom hle ⊢
        obtain ⟨s₁, hrun₁, hfilling₁, hprev₁, hbase₁, hpages₁, -⟩ := h.step op hlt (by omega)
        have hlen : (written ++ recordBytes (op.record s.manager.prevRecordOffset)).length =
            written.length + op.size := by
          rw [List.length_append, op.length_recordBytes]
        obtain ⟨s', k, hrun, hk, hpassed, hshort, hoff, hbase, hpages⟩ := ih hfilling₁
          (by rw [hlen]; exact hsum.add_size hop.2) hvalid' (by rw [hlen]; omega)
          (by rw [hlen, hpages₁]; exact hroom)
        rw [hlen, hprev₁, List.append_assoc] at hpassed
        rw [hlen] at hshort hoff
        refine ⟨s', k + 1, ?_, Nat.succ_lt_succ hk, hpassed, ?_, hoff, hbase.trans hbase₁,
          hpages.trans hpages₁⟩
        · show (op.perform >>= fun _ => LogOp.performAll rest) s = _
          rw [bind_ok hrun₁]
          exact hrun
        · have htake : LogOp.total ((op :: rest).take (k + 1)) =
              op.size + LogOp.total (rest.take k) := rfl
          omega
      · -- this record is the first one outside
        have hoffset := h.offset
        rw [← hoffset] at hroom hle ⊢
        obtain ⟨s₁, hrun₁, hpassed₁, hoff₁, hbase₁, hpages₁⟩ :=
          h.leave op (LogOp.size_le hop.2) (by omega) (by omega)
        rw [← hoff₁] at hroom ⊢
        rw [← hpages₁] at hroom
        obtain ⟨s', hrun, hpassed, hoff, hbase, hpages⟩ := hpassed₁.run hvalid' hroom
        refine ⟨s', 0, ?_, Nat.succ_pos _, ?_, ?_, hoff, hbase.trans hbase₁, hpages.trans hpages₁⟩
        · show (op.perform >>= fun _ => LogOp.performAll rest) s = _
          rw [bind_ok hrun₁]
          exact hrun
        · show s'.Passed (written ++ [])
          rwa [List.append_nil]
        · have hbounded := h.bounded
          have hzero : LogOp.total ((op :: rest).take 0) = 0 := rfl
          omega

end LogState

end JfsFuse
