import JfsFuse.Journal.Calls

/-!
# Where the records of the log are

Every record that was put into the log is in the buffer or on the storage, at the
offset it was given.  A flush moves the buffer to the storage, and since no sequence
of records ends exactly at a buffer boundary, none is left behind.
-/

namespace JfsFuse

open ByteBuf Program

namespace LogManager

/-! ## What a flush leaves on the storage -/

theorem effects_pages (lm : LogManager) (hbuffer : lm.logBuffer.length = logBufferSize)
    {count : ℕ} (hcount : count * logPSize ≤ logBufferSize) (data : ℕ → UInt8) :
    StorageCall.effects ((List.range count).map lm.pageCall) data =
      Memory.write data (lm.dataStart + lm.bufferStart / logPSize % 2 ^ 32 * logPSize)
        (slice lm.logBuffer 0 (count * logPSize)) := by
  induction count with
  | zero =>
      rw [Nat.zero_mul]
      unfold slice
      rw [List.take_zero, Memory.write_nil]
      rfl
  | succ count ih =>
      have hle : count * logPSize ≤ (count + 1) * logPSize := Nat.mul_le_mul_right _ (by omega)
      have hlen : (slice lm.logBuffer 0 (count * logPSize)).length = count * logPSize :=
        length_slice_of_le (by omega)
      have happend : slice lm.logBuffer 0 (count * logPSize) ++
          slice lm.logBuffer (count * logPSize) logPSize =
          slice lm.logBuffer 0 ((count + 1) * logPSize) := by
        have hboth := slice_append_slice lm.logBuffer 0 (count * logPSize) logPSize
        rw [Nat.zero_add] at hboth
        rw [hboth, Nat.succ_mul]
      rw [List.range_succ, List.map_append, StorageCall.effects_append, ih (hle.trans hcount),
        ← happend, ← Memory.write_append, hlen, Nat.add_assoc, ← Nat.add_mul]
      rfl

theorem dirtyPages_le (lm : LogManager) : lm.dirtyPages * logPSize ≤ logBufferSize := by
  unfold dirtyPages bufferStart logBufferSize logPSize
  omega

/-- The bytes that a flush leaves in the log data area. -/
theorem effects_flush_area {lm : LogManager} (hbuffer : lm.logBuffer.length = logBufferSize)
    (hoff : lm.writeOffset < 2 ^ 44) (data : ℕ → UInt8) (i : ℕ) :
    StorageCall.effects lm.flushCalls data (lm.dataStart + i) =
      if lm.bufferDirty ∧ lm.bufferStart ≤ i ∧ i < lm.bufferStart + lm.dirtyPages * logPSize then
        lm.logBuffer.getD (i - lm.bufferStart) 0
      else data (lm.dataStart + i) := by
  have hsuper : ∀ m : ℕ → UInt8, StorageCall.effects [.flushMetadata, .sync, lm.superCall] m
      (lm.dataStart + i) = m (lm.dataStart + i) := by
    intro m
    refine Memory.write_outside ?_
    rw [length_superBytes]
    unfold dataStart blockSize logPSize
    omega
  unfold flushCalls pageCalls
  rw [StorageCall.effects_append, hsuper]
  by_cases hdirty : lm.bufferDirty = true ∧ 0 < lm.writeOffset
  · have hpage : lm.bufferStart / logPSize % 2 ^ 32 * logPSize = lm.bufferStart := by
      unfold bufferStart logBufferSize logPSize
      omega
    have hlen : (slice lm.logBuffer 0 (lm.dirtyPages * logPSize)).length =
        lm.dirtyPages * logPSize := by
      apply length_slice_of_le
      rw [hbuffer, Nat.zero_add]
      exact lm.dirtyPages_le
    rw [if_pos hdirty, effects_pages lm hbuffer lm.dirtyPages_le, hpage]
    by_cases hin : lm.bufferStart ≤ i ∧ i < lm.bufferStart + lm.dirtyPages * logPSize
    · rw [if_pos ⟨hdirty.1, hin⟩, Memory.write_inside 0 (by rw [hlen]; omega),
        Nat.add_sub_add_left, getD_slice _ _ _ _ _ (by omega), Nat.zero_add]
    · rw [if_neg fun hcond => hin hcond.2, Memory.write_outside (by rw [hlen]; omega)]
  · have hnone : ¬ (lm.bufferDirty = true ∧ lm.bufferStart ≤ i ∧
        i < lm.bufferStart + lm.dirtyPages * logPSize) := by
      intro hcond
      refine hdirty ⟨hcond.1, ?_⟩
      have hlt := hcond.2.2
      unfold dirtyPages bufferStart logPSize at hlt
      omega
    rw [if_neg hdirty, if_neg hnone]
    rfl

/-- The superblock page after a flush. -/
theorem effects_flush_super (lm : LogManager) (data : ℕ → UInt8) :
    Memory.read (StorageCall.effects lm.flushCalls data) (lm.logBase + blockSize) blockSize =
      superBytes lm.ended.logsuper := by
  have hlen : (superBytes lm.ended.logsuper).length = blockSize := length_superBytes _
  unfold flushCalls
  rw [StorageCall.effects_append]
  show Memory.read (Memory.write _ (lm.logBase + blockSize) (superBytes lm.ended.logsuper))
    (lm.logBase + blockSize) blockSize = _
  rw [← hlen, Memory.read_write_self]

/-- The end of the log in a superblock page. -/
theorem readLE_superBytes_logEnd (logsuper : LogSuper) :
    readLE (superBytes logsuper) 32 4 = logsuper.logEnd.toNat := by
  have hlt : logsuper.logEnd.toNat < 256 ^ 4 := logsuper.logEnd.toNat_lt
  have hwords : (superWords logsuper).length = 36 := by
    simp [superWords]
  have hend : readLE (superWords logsuper) 32 4 = logsuper.logEnd.toNat := by
    unfold superWords
    simp only [List.flatMap_cons, List.flatMap_nil, List.append_nil]
    simp (disch := simp) only [readLE_append_right, length_leBytes, Nat.reduceSub, readLE_leBytes]
    exact Nat.mod_eq_of_lt hlt
  unfold superBytes
  rw [readLE_splice_inside (Nat.zero_le _) (Nat.zero_le _) (by rw [length_superFields]; decide)]
  unfold superFields
  rw [List.append_assoc, List.append_assoc, readLE_append_left _ (by rw [hwords])]
  exact hend

/-- The end of the log in the superblock page of a content. -/
def storedEnd (lm : LogManager) (data : ℕ → UInt8) : ℕ :=
  readLE (Memory.read data (lm.logBase + blockSize) blockSize) 32 4

theorem readLE_superBytes_ended (lm : LogManager) :
    readLE (superBytes lm.ended.logsuper) 32 4 = lm.writeOffset % 2 ^ 32 := by
  rw [readLE_superBytes_logEnd]
  exact UInt32.toNat_ofNat' ..

/-! ## Records in the buffer and on the storage -/

/-- The buffer holds whole records, and is marked when it holds any. -/
structure Framed (lm : LogManager) : Prop where
  buffer : lm.logBuffer.length = logBufferSize
  sum : LogOp.IsSum (lm.writeOffset % logBufferSize)
  dirty : lm.writeOffset % logBufferSize ≠ 0 → lm.bufferDirty = true

/-- Every record, given by its offset and its bytes, is in the buffer or in the part of
the log data area before it. -/
structure Layout (lm : LogManager) (data : ℕ → UInt8) (records : List (ℕ × List UInt8)) : Prop
    extends lm.Framed where
  below : ∀ r ∈ records, r.1 + r.2.length ≤ lm.writeOffset
  held : ∀ r ∈ records,
    (lm.bufferStart ≤ r.1 ∧ slice lm.logBuffer (r.1 - lm.bufferStart) r.2.length = r.2) ∨
    (r.1 + r.2.length ≤ lm.bufferStart ∧
      Memory.read data (lm.dataStart + r.1) r.2.length = r.2)

/-- All records are on the storage. -/
def Stored (lm : LogManager) (data : ℕ → UInt8) (records : List (ℕ × List UInt8)) : Prop :=
  ∀ r ∈ records, Memory.read data (lm.dataStart + r.1) r.2.length = r.2

variable {lm : LogManager} {data : ℕ → UInt8} {records : List (ℕ × List UInt8)}

theorem restarted_mod (lm : LogManager) : lm.restarted.writeOffset % logBufferSize = 0 :=
  Nat.mul_mod_left ..

theorem Framed.roomed (h : lm.Framed) (n : ℕ) : (lm.roomed n).Framed := by
  unfold LogManager.roomed
  split
  · have hmod := lm.ended.restarted_mod
    refine ⟨length_zeros _, ?_, fun hne => absurd hmod hne⟩
    rw [hmod]
    exact ⟨0, 0, rfl⟩
  · exact h

theorem Framed.ended (h : lm.Framed) (prev : ℕ) :
    LogManager.Framed { lm.ended with prevRecordOffset := prev } :=
  ⟨h.buffer, h.sum, h.dirty⟩

section Place

variable {record : LogRecord}
  (hfits : lm.writeOffset % logBufferSize + (recordBytes record).length ≤ logBufferSize)
  (hsum : LogOp.IsSum (lm.writeOffset % logBufferSize + (recordBytes record).length))

include hfits hsum

theorem placed_mod (prev : ℕ) : (lm.placed record prev).writeOffset % logBufferSize =
    lm.writeOffset % logBufferSize + (recordBytes record).length := by
  have hlt := hsum.ne_buffer hfits
  show (lm.writeOffset + (recordBytes record).length) % logBufferSize = _
  rw [Nat.add_mod, Nat.mod_eq_of_lt (show (recordBytes record).length < logBufferSize by omega),
    Nat.mod_eq_of_lt hlt]

theorem Framed.place (h : lm.Framed) (prev : ℕ) : (lm.placed record prev).Framed := by
  refine ⟨?_, ?_, fun _ => rfl⟩
  · show (splice lm.logBuffer _ _).length = _
    rw [length_splice (by rw [h.buffer]; exact hfits), h.buffer]
  · rw [placed_mod hfits hsum]
    exact hsum

end Place

theorem bufferStart_add (lm : LogManager) :
    lm.bufferStart + lm.writeOffset % logBufferSize = lm.writeOffset := by
  unfold bufferStart
  have := Nat.mod_le lm.writeOffset logBufferSize
  omega

/-- **After a flush all records are on the storage.** -/
theorem Layout.flush (h : lm.Layout data records) (hoff : lm.writeOffset < 2 ^ 44) :
    lm.Stored (StorageCall.effects lm.flushCalls data) records := by
  intro r hr
  have hbelow := h.below r hr
  have hstart := lm.bufferStart_add
  have harea := effects_flush_area h.buffer hoff data
  rcases h.held r hr with ⟨hin, hslice⟩ | ⟨hout, hread⟩
  · -- the record lies in the pages that are written
    by_cases hempty : r.2.length = 0
    · rw [List.eq_nil_of_length_eq_zero hempty]
      exact List.eq_nil_of_length_eq_zero (Memory.length_read ..)
    have hdirty : lm.bufferDirty = true := h.dirty (by omega)
    have hpages : r.1 + r.2.length ≤ lm.bufferStart + lm.dirtyPages * logPSize := by
      unfold dirtyPages logPSize
      omega
    have hpagesLe := lm.dirtyPages_le
    refine ext_getD 0 (Memory.length_read ..) fun i => ?_
    rw [Memory.length_read]
    intro hi
    rw [Memory.getD_read _ 0 hi, Nat.add_assoc, harea,
      if_pos ⟨hdirty, by omega, by omega⟩]
    have hget : r.2.getD i 0 = lm.logBuffer.getD (r.1 - lm.bufferStart + i) 0 := by
      rw [← getD_slice _ _ r.2.length _ _ hi, hslice]
    rw [hget]
    congr 1
    omega
  · refine (Memory.read_congr fun i hlow hhigh => ?_).trans hread
    have hi : lm.dataStart + (i - lm.dataStart) = i := by omega
    have hcontent := harea (i - lm.dataStart)
    rw [hi, if_neg (by omega)] at hcontent
    exact hcontent

/-- The previous records once there is room for the next one. -/
theorem Layout.roomed (h : lm.Layout data records) (hoff : lm.writeOffset < 2 ^ 44) (n : ℕ) :
    (lm.roomed n).Layout (StorageCall.effects (lm.roomCalls n) data) records := by
  unfold LogManager.roomed roomCalls
  by_cases hfull : lm.Full n
  · have hstored := h.flush hoff
    rw [if_pos hfull, if_pos hfull]
    have hframed := h.toFramed.roomed n
    rw [LogManager.roomed, if_pos hfull] at hframed
    have hmod := lm.ended.restarted_mod
    have hle : lm.writeOffset ≤ lm.ended.restarted.writeOffset := by
      show _ ≤ (lm.writeOffset + logBufferSize - 1) / logBufferSize * logBufferSize
      unfold logBufferSize logPSize
      omega
    refine ⟨hframed, fun r hr => (h.below r hr).trans hle, fun r hr => ?_⟩
    have hbelow := h.below r hr
    have hstart := lm.ended.restarted.bufferStart_add
    exact Or.inr ⟨by omega, hstored r hr⟩
  · rw [if_neg hfull, if_neg hfull]
    exact h

/-- A record that fits is put behind the others. -/
theorem Layout.place (h : lm.Layout data records) (record : LogRecord) (prev : ℕ)
    (hfits : lm.writeOffset % logBufferSize + (recordBytes record).length ≤ logBufferSize)
    (hsum : LogOp.IsSum (lm.writeOffset % logBufferSize + (recordBytes record).length)) :
    (lm.placed record prev).Layout data
      (records ++ [(lm.writeOffset, recordBytes record)]) := by
  have hframed := h.toFramed.place hfits hsum prev
  have hoffset : (lm.placed record prev).writeOffset =
      lm.writeOffset + (recordBytes record).length := rfl
  have hmod := placed_mod hfits hsum prev
  have hbufferStart : (lm.placed record prev).bufferStart = lm.bufferStart := by
    unfold bufferStart
    rw [hmod, hoffset]
    omega
  have hstart := lm.bufferStart_add
  have hsplice : lm.writeOffset % logBufferSize + (recordBytes record).length ≤
      lm.logBuffer.length := by
    rw [h.buffer]
    exact hfits
  refine ⟨hframed, ?_, ?_⟩
  · intro r hr
    rw [hoffset]
    rcases List.mem_append.mp hr with hold | hnew
    · have hbelow := h.below r hold
      omega
    · rw [List.mem_singleton.mp hnew]
  · intro r hr
    rw [hbufferStart]
    rcases List.mem_append.mp hr with hold | hnew
    · have hbelow := h.below r hold
      rcases h.held r hold with ⟨hin, hslice⟩ | hout
      · refine Or.inl ⟨hin, ?_⟩
        show slice (splice lm.logBuffer _ _) _ _ = _
        rw [slice_splice_of_disjoint hsplice (Or.inl (by omega)), hslice]
      · exact Or.inr hout
    · rw [List.mem_singleton.mp hnew]
      refine Or.inl ⟨by omega, ?_⟩
      have hpos : lm.writeOffset - lm.bufferStart = lm.writeOffset % logBufferSize := by omega
      show slice (splice lm.logBuffer _ _) (lm.writeOffset - lm.bufferStart) _ = _
      rw [hpos, slice_splice_self _ (by omega)]

/-- The buffer keeps its records when it is stored. -/
theorem Layout.ended (h : lm.Layout data records) (hoff : lm.writeOffset < 2 ^ 44) (prev : ℕ) :
    LogManager.Layout { lm.ended with prevRecordOffset := prev }
      (StorageCall.effects lm.flushCalls data) records := by
  refine ⟨h.toFramed.ended prev, h.below, fun r hr => ?_⟩
  rcases h.held r hr with hin | ⟨hout, -⟩
  · exact Or.inl hin
  · exact Or.inr ⟨hout, h.flush hoff r hr⟩

end LogManager

namespace LogOp

open LogManager

/-! ## Runs of the writer -/

/-- Offset and bytes of the record of a call. -/
def recordAt (op : LogOp) (lm : LogManager) : ℕ × List UInt8 :=
  (op.start lm, recordBytes (op.record (lm.roomed op.size).prevRecordOffset))

/-- Offset and bytes of the records of calls. -/
def recordsAt : List LogOp → LogManager → List (ℕ × List UInt8)
  | [], _ => []
  | op :: rest, lm => op.recordAt lm :: recordsAt rest (op.next lm)

@[simp] theorem length_recordAt (op : LogOp) (lm : LogManager) : (op.recordAt lm).2.length = op.size :=
  op.length_recordBytes _

@[simp] theorem logBase_roomed (lm : LogManager) (n : ℕ) : (lm.roomed n).logBase = lm.logBase := by
  unfold LogManager.roomed
  split <;> rfl

theorem logBase_placed (op : LogOp) (lm : LogManager) : (op.placed lm).logBase = lm.logBase := by
  unfold placed
  cases op <;> simp only [LogManager.placed, logBase_roomed]

@[simp] theorem logBase_next (op : LogOp) (lm : LogManager) : (op.next lm).logBase = lm.logBase := by
  have hplaced := op.logBase_placed lm
  unfold next
  generalize op.placed lm = placed at hplaced
  cases op with
  | append txid block data => exact hplaced
  | commit txid => exact hplaced

@[simp] theorem logBase_nextAll (ops : List LogOp) (lm : LogManager) :
    (nextAll ops lm).logBase = lm.logBase := by
  induction ops generalizing lm with
  | nil => rfl
  | cons op rest ih => exact (ih _).trans (op.logBase_next lm)

theorem writeOffset_placed (op : LogOp) (lm : LogManager) :
    (op.placed lm).writeOffset = op.start lm + op.size := by
  have hlen := op.length_recordBytes (lm.roomed op.size).prevRecordOffset
  unfold placed start
  cases op <;> simp only [LogManager.placed, hlen]

theorem writeOffset_next (op : LogOp) (lm : LogManager) :
    (op.next lm).writeOffset = op.start lm + op.size := by
  have hplaced := op.writeOffset_placed lm
  rw [← hplaced]
  unfold next
  generalize op.placed lm = placed
  cases op <;> rfl

theorem writeOffset_le_start (op : LogOp) (lm : LogManager) : lm.writeOffset ≤ op.start lm := by
  unfold start
  rw [writeOffset_roomed]
  exact LogState.le_startOf ..

theorem writeOffset_nextAll (ops : List LogOp) (lm : LogManager) :
    (nextAll ops lm).writeOffset = offsetAfter lm.writeOffset ops := by
  induction ops generalizing lm with
  | nil => rfl
  | cons op rest ih =>
      have hnext := op.writeOffset_next lm
      unfold start at hnext
      rw [writeOffset_roomed] at hnext
      show (nextAll rest (op.next lm)).writeOffset = offsetAfter _ rest
      rw [ih, hnext]

theorem writeOffset_le_nextAll (ops : List LogOp) (lm : LogManager) :
    lm.writeOffset ≤ (nextAll ops lm).writeOffset := by
  rw [writeOffset_nextAll]
  exact le_offsetAfter ..

theorem framed_placed (op : LogOp) (hsized : op.BlockSized) {lm : LogManager} (h : lm.Framed) :
    (op.placed lm).Framed := by
  have hlen := op.length_recordBytes (lm.roomed op.size).prevRecordOffset
  have hfits := LogState.startOf_mod_add_le lm.writeOffset (size_le hsized)
  rw [← writeOffset_roomed lm] at hfits
  have hroomed := h.roomed op.size
  have hsum := hroomed.sum.add_size hsized
  unfold placed
  generalize lm.roomed op.size = roomed at *
  have hplaced : ∀ prev, (roomed.placed (op.record roomed.prevRecordOffset) prev).Framed :=
    hroomed.place (by rw [hlen]; exact hfits) (by rw [hlen]; exact hsum)
  cases op with
  | append txid block data => exact hplaced _
  | commit txid => exact hplaced _

theorem framed_next (op : LogOp) (hsized : op.BlockSized) {lm : LogManager} (h : lm.Framed) :
    (op.next lm).Framed := by
  have hplaced := op.framed_placed hsized h
  unfold next
  generalize op.placed lm = placed at hplaced
  cases op with
  | append txid block data => exact hplaced
  | commit txid => exact hplaced.ended 0

/-- **A call of the writer** keeps the earlier records and adds its own; after a commit
all of them are on the storage. -/
theorem layout_next {lm : LogManager} {data : ℕ → UInt8} {records : List (ℕ × List UInt8)}
    (h : lm.Layout data records) {op : LogOp} (hsized : op.BlockSized)
    (hoff : (op.next lm).writeOffset < 2 ^ 44) :
    (op.next lm).Layout (StorageCall.effects (op.calls lm) data) (records ++ [op.recordAt lm]) ∧
      ∀ txid, op = commit txid →
        (op.next lm).Stored (StorageCall.effects (op.calls lm) data)
          (records ++ [op.recordAt lm]) := by
  have hstart := op.writeOffset_le_start lm
  have hnext := op.writeOffset_next lm
  have hroomed := h.roomed (by omega) op.size
  have hlen := op.length_recordBytes (lm.roomed op.size).prevRecordOffset
  have hfits := LogState.startOf_mod_add_le lm.writeOffset (size_le hsized)
  rw [← writeOffset_roomed lm] at hfits
  have hplaced : ∀ prev, ((lm.roomed op.size).placed
      (op.record (lm.roomed op.size).prevRecordOffset) prev).Layout
      (StorageCall.effects (lm.roomCalls op.size) data) (records ++ [op.recordAt lm]) := by
    intro prev
    refine hroomed.place _ prev ?_ ?_
    · rw [hlen]
      exact hfits
    · rw [hlen]
      exact hroomed.sum.add_size hsized
  cases op with
  | append txid block data =>
      refine ⟨hplaced _, fun txid' heq => ?_⟩
      cases heq
  | commit txid =>
      have hlt : ((LogOp.commit txid).placed lm).writeOffset < 2 ^ 44 := hoff
      have hcommit : ((LogOp.commit txid).placed lm).Layout
          (StorageCall.effects (lm.roomCalls (LogOp.commit txid).size) data)
          (records ++ [(LogOp.commit txid).recordAt lm]) := hplaced _
      unfold calls
      rw [StorageCall.effects_append]
      have hstored := hcommit.flush hlt
      have hended := hcommit.ended hlt 0
      have hnext' : (LogOp.commit txid).next lm =
          { ((LogOp.commit txid).placed lm).ended with prevRecordOffset := 0 } := rfl
      rw [hnext']
      generalize (LogOp.commit txid).placed lm = placed at hstored hended ⊢
      exact ⟨hended, fun _ _ => hstored⟩

/-- **A run of the writer** keeps the records where they were put. -/
theorem layout_nextAll {lm : LogManager} {data : ℕ → UInt8} {records : List (ℕ × List UInt8)}
    (h : lm.Layout data records) {ops : List LogOp} (hsized : ∀ op ∈ ops, op.BlockSized)
    (hoff : (nextAll ops lm).writeOffset < 2 ^ 44) :
    (nextAll ops lm).Layout (StorageCall.effects (callsAll ops lm) data)
      (records ++ recordsAt ops lm) := by
  induction ops generalizing lm data records with
  | nil =>
      rw [recordsAt, List.append_nil]
      exact h
  | cons op rest ih =>
      have hrest := writeOffset_le_nextAll rest (op.next lm)
      have hoff' : (nextAll rest (op.next lm)).writeOffset < 2 ^ 44 := hoff
      have hstep := (layout_next h (hsized op (List.mem_cons_self ..)) (by omega)).1
      have hrun := ih hstep (fun op hmem => hsized op (List.mem_cons_of_mem _ hmem)) hoff'
      rw [List.append_assoc, List.singleton_append] at hrun
      unfold callsAll
      rw [StorageCall.effects_append]
      exact hrun

theorem callsAll_append (first second : List LogOp) (lm : LogManager) :
    callsAll (first ++ second) lm = callsAll first lm ++ callsAll second (nextAll first lm) := by
  induction first generalizing lm with
  | nil => rfl
  | cons op rest ih =>
      rw [List.cons_append]
      show op.calls lm ++ callsAll (rest ++ second) (op.next lm) = _
      rw [ih]
      exact (List.append_assoc ..).symm

theorem nextAll_append (first second : List LogOp) (lm : LogManager) :
    nextAll (first ++ second) lm = nextAll second (nextAll first lm) := by
  induction first generalizing lm with
  | nil => rfl
  | cons op rest ih => exact ih (op.next lm)

theorem recordsAt_append (first second : List LogOp) (lm : LogManager) :
    recordsAt (first ++ second) lm = recordsAt first lm ++ recordsAt second (nextAll first lm) := by
  induction first generalizing lm with
  | nil => rfl
  | cons op rest ih => exact congrArg (op.recordAt lm :: ·) (ih (op.next lm))

theorem of_performAll_append {first second : List LogOp} {s s' : LogState}
    (h : performAll (first ++ second) s = .ok () s') :
    ∃ t, performAll first s = .ok () t ∧ performAll second t = .ok () s' := by
  induction first generalizing s with
  | nil => exact ⟨s, rfl, h⟩
  | cons op rest ih =>
      obtain ⟨_, u, hop, hrest⟩ := of_bind_ok h
      obtain ⟨t, hfirst, hsecond⟩ := ih hrest
      refine ⟨t, ?_, hsecond⟩
      show (op.perform >>= fun _ => performAll rest) s = _
      rw [bind_ok hop, hfirst]

/-- A run that returns issued all its calls. -/
theorem performAll_ok {ops : List LogOp} (hsized : ∀ op ∈ ops, op.BlockSized) {lm : LogManager}
    (hbuffer : lm.logBuffer.length = logBufferSize) {storage : Storage} {s : LogState}
    (h : performAll ops ⟨lm, storage⟩ = .ok () s) :
    s.manager = nextAll ops lm ∧
      s.storage.data = StorageCall.effects (callsAll ops lm) storage.data := by
  have hissues := issues_performAll (fun op hmem => size_le (hsized op hmem)) hbuffer
  rcases hissues.cases storage with ⟨s', hrun, hdata, -⟩ | ⟨e, _, _, _, _, _, hrun, -⟩
  · rw [hrun] at h
    cases h
    exact ⟨rfl, hdata⟩
  · rw [hrun] at h
    cases h

/-! ## The log after a commit -/

/-- The `i`-th call of a run put its record at offset `off` of the log data area. -/
def PutAt (start : LogState) (ops : List LogOp) (i off : ℕ) : Prop :=
  ∃ op s s', ops[i]? = some op ∧ performAll (ops.take i) start = .ok () s ∧
    op.perform s = .ok () s' ∧ s'.manager.writeOffset = off + op.size

/-- The bytes at `pos` are the record of the call, and `parse_lrd` reads its fields. -/
def OnStorage (data : ℕ → UInt8) (pos : ℕ) (op : LogOp) : Prop :=
  let lrd := parseLrd (Memory.read data pos lrdSize)
  (∃ prev, Memory.read data pos op.size = lrdBytes (op.record prev).1 ++ (op.record prev).2) ∧
    lrd.logtid.toNat = op.txid % 2 ^ 32 ∧
    match op with
    | append _ block bytes =>
        lrd.type = logRedopage ∧ lrd.length.toNat = bytes.length ∧
          lrd.redopagePxd.address = block % 2 ^ 40
    | commit _ => lrd.type = logCommit ∧ lrd.length = 0

theorem onStorage_of_read {data : ℕ → UInt8} {pos : ℕ} {op : LogOp} (hsized : op.BlockSized)
    {prev : ℕ} (h : Memory.read data pos op.size = recordBytes (op.record prev)) :
    OnStorage data pos op := by
  have hlrd : parseLrd (Memory.read data pos lrdSize) = (op.record prev).1 := by
    have hslice : Memory.read data pos lrdSize = lrdBytes (op.record prev).1 := by
      have hle : 0 + lrdSize ≤ op.size := by
        cases op <;> simp [size]
      have hread : slice (Memory.read data pos op.size) 0 lrdSize =
          Memory.read data (pos + 0) lrdSize := Memory.slice_read data hle
      rw [Nat.add_zero] at hread
      rw [← hread, h, recordBytes, slice_append_left _ (by rw [length_lrdBytes]; omega),
        ← length_lrdBytes (op.record prev).1, slice_zero_length]
    rw [hslice, parseLrd_lrdBytes]
  unfold OnStorage
  simp only [hlrd]
  refine ⟨⟨prev, h⟩, ?_⟩
  cases op with
  | append txid block bytes =>
      have hbytes := hsized txid block bytes rfl
      refine ⟨UInt32.toNat_ofNat' .., rfl, ?_, ?_⟩
      · show (UInt16.ofNat bytes.length).toNat = bytes.length
        rw [hbytes]
        rfl
      · show ((Pxd.setAddress {} block).setLength 1).address = _
        rw [Pxd.address_setLength, Pxd.address_setAddress]
  | commit txid => exact ⟨UInt32.toNat_ofNat' .., rfl, rfl⟩

theorem manager_of_perform {op : LogOp} (hsized : op.BlockSized) {s s' : LogState}
    (hbuffer : s.manager.logBuffer.length = logBufferSize) (h : op.perform s = .ok () s') :
    s'.manager = op.next s.manager := by
  rcases (op.issues_perform hbuffer (size_le hsized)).cases s.storage with
    ⟨t, hrun, -⟩ | ⟨e, _, _, _, _, _, hrun, -⟩
  · have heq := hrun.symm.trans h
    cases heq
    rfl
  · have heq := hrun.symm.trans h
    cases heq

section Run

variable {ops : List LogOp} {lm : LogManager} {storage : Storage} {s : LogState}

/-- In a run that returns, each call puts its record where it starts. -/
theorem putAt_iff (hsized : ∀ op ∈ ops, op.BlockSized)
    (hbuffer : lm.logBuffer.length = logBufferSize)
    (hrun : performAll ops ⟨lm, storage⟩ = .ok () s) (i off : ℕ) :
    PutAt ⟨lm, storage⟩ ops i off ↔
      ∃ op, ops[i]? = some op ∧ off = op.start (nextAll (ops.take i) lm) := by
  have htake : ∀ op ∈ ops.take i, op.BlockSized := fun op hmem =>
    hsized op (List.take_subset _ _ hmem)
  -- the manager after the call
  have hmanager : ∀ op t t', ops[i]? = some op → performAll (ops.take i) ⟨lm, storage⟩ = .ok () t →
      op.perform t = .ok () t' →
      t'.manager.writeOffset = op.start (nextAll (ops.take i) lm) + op.size := by
    intro op t t' hop hfirst hperform
    have hbefore := (performAll_ok htake hbuffer hfirst).1
    have hlen := length_logBuffer_nextAll (fun op hmem => size_le (htake op hmem)) hbuffer
    rw [manager_of_perform (hsized op (List.mem_of_getElem? hop)) (hbefore ▸ hlen) hperform,
      writeOffset_next, hbefore]
  constructor
  · rintro ⟨op, t, t', hop, hfirst, hperform, hoff⟩
    have hafter := hmanager op t t' hop hfirst hperform
    exact ⟨op, hop, by omega⟩
  · rintro ⟨op, hop, rfl⟩
    obtain ⟨hi, hget⟩ := List.getElem?_eq_some_iff.mp hop
    have hsplit : ops = ops.take i ++ op :: ops.drop (i + 1) := by
      rw [← hget, List.getElem_cons_drop hi, List.take_append_drop]
    have hrun' := hrun
    rw [hsplit] at hrun'
    obtain ⟨t, hfirst, hsecond⟩ := of_performAll_append hrun'
    obtain ⟨_, t', hperform, -⟩ := of_bind_ok hsecond
    exact ⟨op, t, t', hop, hfirst, hperform, hmanager op t t' hop hfirst hperform⟩

theorem recordAt_mem {i : ℕ} {op : LogOp} (hop : ops[i]? = some op) (lm : LogManager) :
    op.recordAt (nextAll (ops.take i) lm) ∈ recordsAt ops lm := by
  obtain ⟨hi, hget⟩ := List.getElem?_eq_some_iff.mp hop
  have hsplit : ops = ops.take i ++ op :: ops.drop (i + 1) := by
    rw [← hget, List.getElem_cons_drop hi, List.take_append_drop]
  have hrecords := recordsAt_append (ops.take i) (op :: ops.drop (i + 1)) lm
  rw [← hsplit] at hrecords
  rw [hrecords]
  exact List.mem_append_right _ (List.mem_cons_self ..)

/-- A later record starts behind the end of an earlier one. -/
theorem start_add_le {i j : ℕ} {op : LogOp} (hij : i < j) (hop : ops[i]? = some op) (op' : LogOp)
    (lm : LogManager) :
    op.start (nextAll (ops.take i) lm) + op.size ≤ op'.start (nextAll (ops.take j) lm) := by
  obtain ⟨hi, hget⟩ := List.getElem?_eq_some_iff.mp hop
  have htake : ops.take j = ops.take (i + 1) ++ (ops.drop (i + 1)).take (j - (i + 1)) := by
    rw [← List.take_add, Nat.add_sub_cancel' hij]
  have hnext : ops.take (i + 1) = ops.take i ++ [op] := by
    rw [List.take_add_one, hop]
    rfl
  have hwrite := op.writeOffset_next (nextAll (ops.take i) lm)
  rw [htake, hnext, nextAll_append, nextAll_append]
  calc op.start (nextAll (ops.take i) lm) + op.size
      = (nextAll [op] (nextAll (ops.take i) lm)).writeOffset := hwrite.symm
    _ ≤ _ := writeOffset_le_nextAll _ _
    _ ≤ _ := op'.writeOffset_le_start _

end Run

theorem framed_new (logsuper : LogSuper) (logBase : ℕ) : (LogManager.new logsuper logBase).Framed :=
  ⟨length_zeros _, ⟨0, 0, rfl⟩, fun hne => absurd rfl hne⟩

/-- The empty log has no records. -/
theorem layout_new (logsuper : LogSuper) (logBase : ℕ) (data : ℕ → UInt8) :
    (LogManager.new logsuper logBase).Layout data [] :=
  ⟨framed_new logsuper logBase, fun _ hr => absurd hr List.not_mem_nil,
    fun _ hr => absurd hr List.not_mem_nil⟩

theorem blockSized_commit (txid : ℕ) : (commit txid).BlockSized := by
  intro _ _ _ heq
  cases heq

theorem blockSized_snoc {ops : List LogOp} (hsized : ∀ op ∈ ops, op.BlockSized) (txid : ℕ) :
    ∀ op ∈ ops ++ [commit txid], op.BlockSized := by
  intro op hmem
  rcases List.mem_append.mp hmem with hold | hnew
  · exact hsized op hold
  · rw [List.mem_singleton.mp hnew]
    exact blockSized_commit txid

/-- **After a commit** all records are on the storage, and the superblock has the end of
the log. -/
theorem layout_commit {lm : LogManager} {data : ℕ → UInt8} {records : List (ℕ × List UInt8)}
    (h : lm.Layout data records) {ops : List LogOp} (hsized : ∀ op ∈ ops, op.BlockSized) (txid : ℕ)
    (hoff : (nextAll (ops ++ [commit txid]) lm).writeOffset < 2 ^ 44) :
    lm.Stored (StorageCall.effects (callsAll (ops ++ [commit txid]) lm) data)
        (records ++ recordsAt (ops ++ [commit txid]) lm) ∧
      lm.storedEnd (StorageCall.effects (callsAll (ops ++ [commit txid]) lm) data) =
        (nextAll (ops ++ [commit txid]) lm).writeOffset % 2 ^ 32 := by
  have hnext : nextAll (ops ++ [commit txid]) lm = (commit txid).next (nextAll ops lm) :=
    nextAll_append ..
  have hcalls : callsAll (ops ++ [commit txid]) lm =
      callsAll ops lm ++ (commit txid).calls (nextAll ops lm) := by
    rw [callsAll_append]
    exact congrArg (_ ++ ·) (List.append_nil _)
  have hbase : (nextAll ops lm).logBase = lm.logBase := logBase_nextAll ..
  have hle := (commit txid).writeOffset_le_start (nextAll ops lm)
  have hadd := (commit txid).writeOffset_next (nextAll ops lm)
  rw [hnext] at hoff
  have hlayout := layout_nextAll h hsized (by omega)
  have hstored := (layout_next hlayout (blockSized_commit txid) (by omega)).2 txid rfl
  rw [hcalls, StorageCall.effects_append, recordsAt_append, ← List.append_assoc]
  constructor
  · intro r hr
    have hread := hstored r hr
    have hstart : ((commit txid).next (nextAll ops lm)).dataStart = lm.dataStart := by
      unfold dataStart
      rw [logBase_next, hbase]
    rwa [hstart] at hread
  · have hsuper := effects_flush_super ((commit txid).placed (nextAll ops lm))
      (StorageCall.effects ((nextAll ops lm).roomCalls (commit txid).size)
        (StorageCall.effects (callsAll ops lm) data))
    have hcommit : (commit txid).calls (nextAll ops lm) =
        (nextAll ops lm).roomCalls (commit txid).size ++
          ((commit txid).placed (nextAll ops lm)).flushCalls := rfl
    rw [logBase_placed, hbase, ← StorageCall.effects_append, ← hcommit] at hsuper
    unfold storedEnd
    rw [hsuper, readLE_superBytes_ended, writeOffset_placed, hnext, hadd]

/-- **The log after a commit.**  Every record put into the log so far is on the storage
at the offset it was given, `parse_lrd` reads its fields, the records do not overlap,
and the superblock has the end of the log. -/
theorem log_layout_after_commit (logsuper : LogSuper) (logBase : ℕ) (storage : Storage)
    (ops : List LogOp) (txid : ℕ) (hsized : ∀ op ∈ ops, op.BlockSized) (s : LogState)
    (hrun : performAll (ops ++ [commit txid]) ⟨.new logsuper logBase, storage⟩ = .ok () s)
    (hoff : s.manager.writeOffset < 2 ^ 32) :
    readLE (Memory.read s.storage.data (logBase + blockSize) blockSize) 32 4 =
        s.manager.writeOffset ∧
      ∀ i op, (ops ++ [commit txid])[i]? = some op →
        ∃ off, PutAt ⟨.new logsuper logBase, storage⟩ (ops ++ [commit txid]) i off ∧
          OnStorage s.storage.data (logBase + blockSize * 2 + off) op ∧
          ∀ j off', i < j →
            PutAt ⟨.new logsuper logBase, storage⟩ (ops ++ [commit txid]) j off' →
            off + op.size ≤ off' := by
  have hall := blockSized_snoc hsized txid
  have hbuffer : (LogManager.new logsuper logBase).logBuffer.length = logBufferSize := length_zeros _
  obtain ⟨hmanager, hdata⟩ := performAll_ok hall hbuffer hrun
  rw [hmanager] at hoff
  obtain ⟨hstored, hend⟩ := layout_commit (layout_new logsuper logBase storage.data) hsized txid
    (by omega)
  rw [← hdata] at hstored hend
  refine ⟨?_, fun i op hop => ?_⟩
  · rw [hmanager]
    exact hend.trans (Nat.mod_eq_of_lt hoff)
  · refine ⟨op.start (nextAll ((ops ++ [commit txid]).take i) (.new logsuper logBase)), ?_, ?_, ?_⟩
    · exact (putAt_iff hall hbuffer hrun i _).mpr ⟨op, hop, rfl⟩
    · have hread := hstored _ (recordAt_mem hop (.new logsuper logBase))
      rw [length_recordAt] at hread
      exact onStorage_of_read (hall op (List.mem_of_getElem? hop)) hread
    · intro j off' hij hput
      obtain ⟨op', -, rfl⟩ := (putAt_iff hall hbuffer hrun j off').mp hput
      exact start_add_le hij hop op' _

/-- The log after one after-image and its commit. -/
theorem log_layout_after_first_commit :
    ∃ s, performAll ([append 1 5 (zeros blockSize)] ++ [commit 1])
        ⟨.new {} 0, { backend := .file false, size := 0, data := fun _ => 0 }⟩ = .ok () s ∧
      s.manager.writeOffset < 2 ^ 32 ∧
      readLE (Memory.read s.storage.data (0 + blockSize) blockSize) 32 4 = s.manager.writeOffset ∧
      ∃ off, OnStorage s.storage.data (0 + blockSize * 2 + off) (append 1 5 (zeros blockSize)) := by
  have hsized : ∀ op ∈ [append 1 5 (zeros blockSize)], op.BlockSized := by
    intro op hmem txid block data heq
    rw [List.mem_singleton.mp hmem] at heq
    cases heq
    exact length_zeros _
  have hsize : ∀ op ∈ [append 1 5 (zeros blockSize)] ++ [commit 1], op.size ≤ logBufferSize := by
    intro op hmem
    rcases List.mem_append.mp hmem with hfirst | hlast
    · exact size_le (hsized op hfirst)
    · rw [List.mem_singleton.mp hlast]
      decide
  obtain ⟨storage, hrun, -⟩ := performAll_file hsize
    (show (LogManager.new {} 0).logBuffer.length = logBufferSize from length_zeros _)
    (show ({ backend := .file false, size := 0, data := fun _ => 0 } : Storage).backend = _ from rfl)
    rfl
  have hoff : (nextAll ([append 1 5 (zeros blockSize)] ++ [commit 1]) (.new {} 0)).writeOffset <
      2 ^ 32 := by
    have himage : (append 1 5 (zeros blockSize)).size = 4132 := by
      show lrdSize + (zeros blockSize).length = 4132
      rw [length_zeros]
      rfl
    have hzero : (LogManager.new {} 0).writeOffset = 0 := rfl
    have hcommit : (commit 1).size = 36 := rfl
    rw [writeOffset_nextAll, hzero]
    simp [offsetAfter, himage, hcommit, LogState.startOf, logBufferSize, logPSize]
  obtain ⟨hend, hrecords⟩ := log_layout_after_commit {} 0 _ _ 1 hsized _ hrun hoff
  obtain ⟨off, -, hon, -⟩ := hrecords 0 _ rfl
  exact ⟨_, hrun, hoff, hend, off, hon⟩

end LogOp

end JfsFuse
