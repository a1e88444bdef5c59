import JfsFuse.Journal.Area
import JfsFuse.Journal.CommittedOnly
import JfsFuse.Journal.RoundTrip

/-!
# Log sessions that were cut off

A flush of the first buffer writes its pages one by one.  When a session is cut off
between two storage calls, but not between two pages of the first buffer, that buffer
holds the records of the first calls of the session and a zero word, or the session
has not written there at all.
-/

namespace JfsFuse

open ByteBuf Program

theorem LogOp.IsSum.add_four_le {n : ℕ} (h : LogOp.IsSum n) (hlt : n < logBufferSize) :
    n + 4 ≤ logBufferSize := by
  obtain ⟨images, commits, rfl⟩ := h
  unfold logBufferSize logPSize at *
  omega

namespace LogManager

/-! ## The first buffer -/

/-- Only `written` has been put into the log, and it lies in the first buffer. -/
structure Holding (lm : LogManager) (written : List UInt8) : Prop where
  offset : lm.writeOffset = written.length
  bounded : written.length < logBufferSize
  buffer : lm.logBuffer = written ++ zeros (logBufferSize - written.length)
  dirty : written ≠ [] → lm.bufferDirty = true

/-- The log begins with `written` and a zero word. -/
def Begins (lm : LogManager) (written : List UInt8) (data : ℕ → UInt8) : Prop :=
  Memory.read data lm.dataStart written.length = written ∧
    Memory.read data (lm.dataStart + written.length) 4 = zeros 4

/-- The calls do not write in the first buffer of the log. -/
def Skips (lm : LogManager) (calls : List StorageCall) : Prop :=
  ∀ call ∈ calls, ∀ i, call.Writes i → ¬ (lm.dataStart ≤ i ∧ i < lm.dataStart + logBufferSize)

variable {lm : LogManager} {written : List UInt8}

theorem begins_congr {data data' : ℕ → UInt8} (hlen : written.length + 4 ≤ logBufferSize)
    (hsame : ∀ i, lm.dataStart ≤ i → i < lm.dataStart + logBufferSize → data' i = data i)
    (h : lm.Begins written data) : lm.Begins written data' := by
  constructor
  · rw [Memory.read_congr fun i hlow hhigh => hsame i hlow (by omega)]
    exact h.1
  · rw [Memory.read_congr fun i hlow hhigh => hsame i (by omega) (by omega)]
    exact h.2

theorem Begins.effects {calls : List StorageCall} (hlen : written.length + 4 ≤ logBufferSize)
    (hskips : lm.Skips calls) {data : ℕ → UInt8} (h : lm.Begins written data) :
    lm.Begins written (StorageCall.effects calls data) :=
  begins_congr hlen
    (fun _ hlow hhigh => StorageCall.effects_of_outside hskips data ⟨hlow, hhigh⟩) h

theorem Skips.append {first second : List StorageCall} (hfirst : lm.Skips first)
    (hsecond : lm.Skips second) : lm.Skips (first ++ second) :=
  List.forall_mem_append.mpr ⟨hfirst, hsecond⟩

theorem skips_congr {lm' : LogManager} (h : lm'.logBase = lm.logBase) (calls : List StorageCall) :
    lm'.Skips calls ↔ lm.Skips calls := by
  unfold Skips dataStart
  rw [h]

theorem dataStart_congr {lm' : LogManager} (h : lm'.logBase = lm.logBase) :
    lm'.dataStart = lm.dataStart := by
  unfold dataStart
  rw [h]

theorem begins_base {lm' : LogManager} (h : lm'.logBase = lm.logBase) {data : ℕ → UInt8} :
    lm'.Begins written data ↔ lm.Begins written data := by
  unfold Begins
  rw [dataStart_congr h]

theorem Holding.mod_offset (h : lm.Holding written) :
    lm.writeOffset % logBufferSize = written.length := by
  rw [h.offset]
  exact Nat.mod_eq_of_lt h.bounded

theorem Holding.bufferStart_eq (h : lm.Holding written) : lm.bufferStart = 0 := by
  unfold bufferStart
  rw [h.mod_offset, h.offset, Nat.sub_self]

theorem Holding.length_buffer (h : lm.Holding written) : lm.logBuffer.length = logBufferSize := by
  have hlt := h.bounded
  rw [h.buffer, List.length_append, length_zeros]
  omega

/-- A record that fits is put behind the others. -/
theorem Holding.place (h : lm.Holding written) (record : LogRecord)
    (hfits : written.length + (recordBytes record).length < logBufferSize) (prev : ℕ) :
    (lm.placed record prev).Holding (written ++ recordBytes record) := by
  refine ⟨?_, ?_, ?_, fun _ => rfl⟩
  · show lm.writeOffset + _ = _
    rw [h.offset, List.length_append]
  · rw [List.length_append]
    exact hfits
  · show splice lm.logBuffer (lm.writeOffset % logBufferSize) _ = _
    rw [h.mod_offset, h.buffer, splice_append_zeros, List.length_append, Nat.sub_sub]

theorem Holding.ended (h : lm.Holding written) (prev : ℕ) :
    LogManager.Holding { lm.ended with prevRecordOffset := prev } written :=
  ⟨h.offset, h.bounded, h.buffer, h.dirty⟩

/-- The calls of a flush that follow its pages. -/
theorem skips_tail (lm : LogManager) : lm.Skips [.flushMetadata, .sync, lm.superCall] := by
  intro call hmem i hwrites
  simp only [List.mem_cons, List.not_mem_nil, or_false] at hmem
  rcases hmem with rfl | rfl | rfl
  · exact hwrites.elim
  · exact hwrites.elim
  · obtain ⟨hlow, hhigh⟩ := hwrites
    rw [length_superBytes] at hhigh
    unfold dataStart blockSize logPSize at *
    omega

/-- **The pages of a flush of the first buffer**, whatever was there before. -/
theorem Holding.begins_pages (h : lm.Holding written) (hne : written ≠ [])
    (hsum : LogOp.IsSum written.length) (data : ℕ → UInt8) :
    lm.Begins written (StorageCall.effects lm.pageCalls data) := by
  have hpos : 0 < written.length := List.length_pos_iff.mpr hne
  have hlt := h.bounded
  have hpair : lm.bufferDirty = true ∧ 0 < lm.writeOffset := ⟨h.dirty hne, by rw [h.offset]; exact hpos⟩
  have hpages : lm.dirtyPages = (written.length + logPSize - 1) / logPSize := by
    unfold dirtyPages
    rw [h.bufferStart_eq, h.offset, Nat.sub_zero]
  -- records of 4132 and 36 bytes leave a word to the end of the page
  have hgap : written.length + 4 ≤ lm.dirtyPages * logPSize := by
    obtain ⟨images, commits, hlen⟩ := hsum
    rw [hpages]
    unfold logBufferSize logPSize at *
    have himages : images = 0 ∨ images = 1 := by omega
    rcases himages with rfl | rfl <;> omega
  have hle := lm.dirtyPages_le
  have hslice : (slice lm.logBuffer 0 (lm.dirtyPages * logPSize)).length =
      lm.dirtyPages * logPSize := by
    apply length_slice_of_le
    rw [h.length_buffer]
    omega
  unfold pageCalls
  rw [if_pos hpair, effects_pages lm h.length_buffer hle, h.bufferStart_eq, Nat.zero_div, Nat.zero_mod,
    Nat.zero_mul, Nat.add_zero]
  constructor
  · rw [Memory.read_write_inside le_rfl (by omega), Nat.sub_self, slice_slice _ (by omega), h.buffer,
      Nat.zero_add, slice_append_left _ (by omega), slice_zero_length]
  · have hzeros : slice (zeros (logBufferSize - written.length)) 0 4 = zeros 4 := by
      refine ext_getD 0 ?_ fun i hi => ?_
      · rw [length_slice_of_le (by rw [length_zeros]; omega), length_zeros]
      · rw [length_slice_of_le (by rw [length_zeros]; omega)] at hi
        rw [getD_slice _ _ _ _ _ hi, getD_zeros, getD_zeros]
    rw [Memory.read_write_inside (by omega) (by omega), Nat.add_sub_cancel_left,
      slice_slice _ (by omega), h.buffer, Nat.zero_add, slice_append_right _ _ le_rfl, Nat.sub_self,
      hzeros]

/-- A flush of the first buffer that was cut off, but not between its pages. -/
theorem Holding.flush_cases (h : lm.Holding written) (hne : written ≠ [])
    (hsum : LogOp.IsSum written.length) {done left : List StorageCall}
    (hsplit : lm.flushCalls = done ++ left)
    (hwhole : ∀ bytes, left.head? ≠ some (.writeBytes (lm.dataStart + logPSize) bytes)) :
    done = [] ∨ ∀ data, lm.Begins written (StorageCall.effects done data) := by
  have hbegins := h.begins_pages hne hsum
  have hlen := hsum.add_four_le h.bounded
  have hpages : lm.pageCalls = (List.range lm.dirtyPages).map lm.pageCall := by
    refine if_pos ⟨h.dirty hne, ?_⟩
    rw [h.offset]
    exact List.length_pos_iff.mpr hne
  have hcount : lm.dirtyPages ≤ 2 := by
    have hle := lm.dirtyPages_le
    unfold logBufferSize logPSize at hle
    omega
  have hsecond : lm.pageCall 1 = .writeBytes (lm.dataStart + logPSize)
      (slice lm.logBuffer (1 * logPSize) logPSize) := by
    unfold pageCall
    rw [h.bufferStart_eq, Nat.zero_div, Nat.zero_mod, Nat.zero_add, Nat.one_mul]
  unfold flushCalls at hsplit
  rcases List.append_eq_append_iff.mp hsplit with ⟨more, rfl, htail⟩ | ⟨missing, hdone, rfl⟩
  · refine Or.inr fun data => ?_
    rw [StorageCall.effects_append]
    refine (hbegins data).effects hlen fun call hmem => lm.skips_tail call ?_
    rw [htail]
    exact List.mem_append_left _ hmem
  · -- a page is missing: the first one, or the second one only
    cases missing with
    | nil =>
        rw [List.append_nil] at hdone
        rw [← hdone]
        exact Or.inr hbegins
    | cons call rest =>
        left
        have hcases : lm.dirtyPages = 0 ∨ lm.dirtyPages = 1 ∨ lm.dirtyPages = 2 := by omega
        rw [hpages] at hdone
        cases done with
        | nil => rfl
        | cons first others =>
            exfalso
            rcases hcases with hzero | hone | htwo
            · rw [hzero] at hdone
              cases hdone
            · rw [hone] at hdone
              have hnil : others ++ call :: rest = [] := (List.cons.inj hdone).2.symm
              simp at hnil
            · rw [htwo] at hdone
              have hrest : [lm.pageCall 1] = others ++ call :: rest := (List.cons.inj hdone).2
              cases others with
              | nil =>
                  have hcall : lm.pageCall 1 = call := (List.cons.inj hrest).1
                  exact hwhole _ (congrArg some (hcall.symm.trans hsecond))
              | cons other others =>
                  have hnil : others ++ call :: rest = [] := (List.cons.inj hrest).2.symm
                  simp at hnil

/-! ## Behind the first buffer -/

theorem skips_flushCalls (hlow : logBufferSize ≤ lm.writeOffset) (hoff : lm.writeOffset < 2 ^ 44) :
    lm.Skips lm.flushCalls := by
  unfold flushCalls
  refine Skips.append ?_ lm.skips_tail
  intro call hmem i hwrites
  unfold pageCalls at hmem
  split at hmem
  · obtain ⟨page, -, rfl⟩ := List.mem_map.mp hmem
    obtain ⟨hle, -⟩ := hwrites
    have hstart : logBufferSize ≤ lm.bufferStart ∧ lm.bufferStart < 2 ^ 44 := by
      unfold bufferStart logBufferSize logPSize at *
      omega
    have hpage : logBufferSize ≤ (lm.bufferStart / logPSize % 2 ^ 32 + page) * logPSize := by
      unfold logBufferSize logPSize at *
      omega
    omega
  · cases hmem

end LogManager

namespace LogOp

open LogManager

/-- Behind the first buffer the writer does not come back to it. -/
theorem skips_callsAll {ops : List LogOp} {lm : LogManager} (hlow : logBufferSize ≤ lm.writeOffset)
    (hoff : (nextAll ops lm).writeOffset < 2 ^ 44) : lm.Skips (callsAll ops lm) := by
  induction ops generalizing lm with
  | nil => exact fun _ hmem => absurd hmem List.not_mem_nil
  | cons op rest ih =>
      have hstart := op.writeOffset_le_start lm
      have hnext := op.writeOffset_next lm
      have hplaced := op.writeOffset_placed lm
      have hrest := writeOffset_le_nextAll rest (op.next lm)
      change (nextAll rest (op.next lm)).writeOffset < 2 ^ 44 at hoff
      have hroom : lm.Skips (lm.roomCalls op.size) := by
        unfold roomCalls
        split
        · exact skips_flushCalls hlow (by omega)
        · exact fun _ hmem => absurd hmem List.not_mem_nil
      unfold callsAll
      refine Skips.append ?_ ((skips_congr (op.logBase_next lm) _).mp (ih (by omega) hoff))
      cases op with
      | append txid block data => exact hroom
      | commit txid =>
          refine Skips.append hroom ((skips_congr ((commit txid).logBase_placed lm) _).mp ?_)
          exact skips_flushCalls (by omega) (by omega)

section FirstBuffer

variable {lm : LogManager} {written : List UInt8} {op : LogOp}

/-- A call whose record fits adds it to the first buffer, without a call for room. -/
theorem roomed_of_fits (h : lm.Holding written) (hfits : written.length + op.size < logBufferSize) :
    lm.roomed op.size = lm ∧ lm.roomCalls op.size = [] := by
  have hroom : ¬ lm.Full op.size := by
    unfold Full
    rw [h.mod_offset]
    omega
  exact ⟨if_neg hroom, if_neg hroom⟩

theorem holding_placed (h : lm.Holding written) (hfits : written.length + op.size < logBufferSize) :
    (op.placed lm).Holding (written ++ recordBytes (op.record lm.prevRecordOffset)) := by
  have hlen := op.length_recordBytes lm.prevRecordOffset
  have hplace := h.place (op.record lm.prevRecordOffset) (by rw [hlen]; exact hfits)
  unfold placed
  rw [(roomed_of_fits h hfits).1]
  cases op with
  | append txid block data => exact hplace _
  | commit txid => exact hplace _

theorem holding_next (h : lm.Holding written) (hfits : written.length + op.size < logBufferSize) :
    (op.next lm).Holding (written ++ recordBytes (op.record lm.prevRecordOffset)) := by
  have hplaced := holding_placed h hfits
  unfold next
  generalize op.placed lm = placed at hplaced
  cases op with
  | append txid block data => exact hplaced
  | commit txid => exact hplaced.ended 0

theorem prevRecordOffset_next (h : lm.Holding written)
    (hfits : written.length + op.size < logBufferSize) :
    (op.next lm).prevRecordOffset = op.nextPrev written.length := by
  have hroomed := (roomed_of_fits h hfits).1
  cases op with
  | append txid block data =>
      unfold next placed
      rw [hroomed]
      exact h.offset
  | commit txid => rfl

theorem not_fits (h : lm.Holding written) (hsum : IsSum written.length) (hsized : op.BlockSized)
    (hfits : ¬ written.length + op.size < logBufferSize) :
    lm.Full op.size ∧ written ≠ [] ∧ logBufferSize ≤ op.start lm := by
  have hle := size_le hsized
  have hne := (hsum.add_size hsized).ne_buffer
  have hfull : lm.Full op.size := by
    unfold Full
    rw [h.mod_offset]
    by_contra hroom
    exact hfits (hne (by omega))
  refine ⟨hfull, ?_, ?_⟩
  · rintro rfl
    have hsize := hsum.add_size hsized
    rw [List.length_nil, Nat.zero_add] at *
    exact hfits (hne hle)
  · unfold start LogManager.roomed
    rw [if_pos hfull]
    show _ ≤ (lm.writeOffset + logBufferSize - 1) / logBufferSize * logBufferSize
    have hlow : 0 < lm.writeOffset := by
      unfold Full at hfull
      rw [h.mod_offset] at hfull
      rw [h.offset]
      omega
    unfold logBufferSize logPSize
    omega

end FirstBuffer

/-- The records of calls that were put into the first buffer behind `written`. -/
def behind (written : List UInt8) (prev : ℕ) (ops : List LogOp) : List UInt8 :=
  written ++ bytesOf (recordsFrom written.length prev ops)

theorem behind_nil (written : List UInt8) (prev : ℕ) : behind written prev [] = written :=
  List.append_nil _

theorem behind_cons (written : List UInt8) (prev : ℕ) (op : LogOp) (rest : List LogOp) :
    behind written prev (op :: rest) =
      behind (written ++ recordBytes (op.record prev)) (op.nextPrev written.length) rest := by
  have hlen : (written ++ recordBytes (op.record prev)).length = written.length + op.size := by
    rw [List.length_append, op.length_recordBytes]
  unfold behind
  rw [hlen, List.append_assoc]
  rfl

theorem length_behind (written : List UInt8) (prev : ℕ) (ops : List LogOp) :
    (behind written prev ops).length = written.length + total ops := by
  unfold behind
  rw [List.length_append, length_bytesOf]

theorem head?_ne_of_append {off : ℕ} {first second : List StorageCall}
    (h : ∀ bytes, (first ++ second).head? ≠ some (.writeBytes off bytes)) :
    ∀ bytes, first.head? ≠ some (.writeBytes off bytes) := by
  intro bytes
  cases first with
  | nil => exact fun heq => by cases heq
  | cons call others => exact h bytes

/-- A whole flush of the first buffer. -/
theorem begins_flush {lm : LogManager} {written : List UInt8} (h : lm.Holding written)
    (hne : written ≠ []) (hsum : IsSum written.length) (data : ℕ → UInt8) :
    lm.Begins written (StorageCall.effects lm.flushCalls data) := by
  have hflush := h.flush_cases hne hsum (List.append_nil _).symm (fun _ heq => by cases heq)
  exact hflush.resolve_left (by unfold flushCalls; simp) data

/-- A flush of the first buffer, with calls behind it that leave the buffer alone. -/
theorem flush_then_skips {lm : LogManager} {written : List UInt8} (h : lm.Holding written)
    (hne : written ≠ []) (hsum : IsSum written.length) {tail done left : List StorageCall}
    (htail : lm.Skips tail) (hsplit : lm.flushCalls ++ tail = done ++ left)
    (hwhole : ∀ bytes, left.head? ≠ some (.writeBytes (lm.dataStart + logPSize) bytes)) :
    lm.Skips done ∨ ∀ data, lm.Begins written (StorageCall.effects done data) := by
  rcases List.append_eq_append_iff.mp hsplit with ⟨more, rfl, hmore⟩ | ⟨missing, hdone, rfl⟩
  · refine Or.inr fun data => ?_
    rw [StorageCall.effects_append]
    refine (begins_flush h hne hsum data).effects (hsum.add_four_le h.bounded) fun call hmem => htail call ?_
    rw [hmore]
    exact List.mem_append_left _ hmem
  · rcases h.flush_cases hne hsum hdone (head?_ne_of_append hwhole) with rfl | hbegins
    · exact Or.inl fun _ hmem => absurd hmem List.not_mem_nil
    · exact Or.inr hbegins

/-- What the calls `done` of a session that holds `written` leave in the first buffer: nothing
new, or `written` and the records of its next calls. -/
def Leaves (lm : LogManager) (written : List UInt8) (ops : List LogOp) (done : List StorageCall) :
    Prop :=
  lm.Skips done ∨
    ∃ n, written.length + total (ops.take n) < logBufferSize ∧
      IsSum (written.length + total (ops.take n)) ∧
      ∀ data, lm.Begins (behind written lm.prevRecordOffset (ops.take n))
        (StorageCall.effects done data)

theorem leaves_nil (lm : LogManager) (written : List UInt8) (ops : List LogOp) :
    Leaves lm written ops [] :=
  Or.inl fun _ hmem => absurd hmem List.not_mem_nil

/-- No further record. -/
theorem leaves_written {lm : LogManager} {written : List UInt8} (h : lm.Holding written)
    (hsum : IsSum written.length) (ops : List LogOp) {done : List StorageCall}
    (hdone : lm.Skips done ∨ ∀ data, lm.Begins written (StorageCall.effects done data)) :
    Leaves lm written ops done := by
  rcases hdone with hskips | hbegins
  · exact Or.inl hskips
  · refine Or.inr ⟨0, h.bounded, hsum, fun data => ?_⟩
    rw [List.take_zero, behind_nil]
    exact hbegins data

section Step

variable {lm : LogManager} {written : List UInt8} {op : LogOp} (h : lm.Holding written)
  (hfits : written.length + op.size < logBufferSize)

include h hfits

/-- What the calls after the first one leave. -/
theorem leaves_cons {rest : List LogOp} {done : List StorageCall}
    (hrest : Leaves (op.next lm) (written ++ recordBytes (op.record lm.prevRecordOffset)) rest done) :
    Leaves lm written (op :: rest) done := by
  have hlen : (written ++ recordBytes (op.record lm.prevRecordOffset)).length =
      written.length + op.size := by
    rw [List.length_append, op.length_recordBytes]
  rcases hrest with hskips | ⟨n, hlt, hsum, hbegins⟩
  · exact Or.inl ((skips_congr (op.logBase_next lm) _).mp hskips)
  · have htotal : written.length + total ((op :: rest).take (n + 1)) =
        (written ++ recordBytes (op.record lm.prevRecordOffset)).length + total (rest.take n) := by
      rw [hlen, List.take_succ_cons]
      show _ + (op.size + total (rest.take n)) = _
      omega
    refine Or.inr ⟨n + 1, htotal ▸ hlt, htotal ▸ hsum, fun data => ?_⟩
    have hdata := hbegins data
    rw [prevRecordOffset_next h hfits, ← behind_cons,
      begins_base (op.logBase_next lm)] at hdata
    exact hdata

/-- The flush of a commit in the first buffer, and what follows it. -/
theorem leaves_commit {txid : ℕ} (hop : op = commit txid) (hsum : IsSum (written.length + op.size))
    {rest : List LogOp} {done left : List StorageCall}
    (hsplit : (op.placed lm).flushCalls ++ callsAll rest (op.next lm) = done ++ left)
    (hwhole : ∀ bytes, left.head? ≠ some (.writeBytes (lm.dataStart + logPSize) bytes))
    (hrest : ∀ more, callsAll rest (op.next lm) = more ++ left →
      Leaves lm written (op :: rest) more) :
    Leaves lm written (op :: rest) done := by
  have hlen : (written ++ recordBytes (op.record lm.prevRecordOffset)).length =
      written.length + op.size := by
    rw [List.length_append, op.length_recordBytes]
  have hholding := holding_placed h hfits
  have hbase := op.logBase_placed lm
  rw [← hlen] at hsum
  have hne : written ++ recordBytes (op.record lm.prevRecordOffset) ≠ [] := by
    intro hnil
    rw [hnil, hop] at hlen
    exact absurd hlen (by show 0 ≠ written.length + lrdSize; unfold lrdSize; omega)
  generalize op.placed lm = placed at *
  -- once the flush is whole, the commit record is there
  have hone : (∀ data, placed.Begins (written ++ recordBytes (op.record lm.prevRecordOffset))
      (StorageCall.effects done data)) → Leaves lm written (op :: rest) done := by
    intro hbegins
    refine Or.inr ⟨1, hfits, hlen ▸ hsum, fun data => ?_⟩
    rw [List.take_succ_cons, List.take_zero, behind_cons, behind_nil, ← begins_base hbase]
    exact hbegins data
  rcases List.append_eq_append_iff.mp hsplit with ⟨more, rfl, hmore⟩ | ⟨missing, hdone, rfl⟩
  · rcases hrest more hmore with hskips | ⟨n, hlt, hsumn, hbegins⟩
    · refine hone fun data => ?_
      rw [StorageCall.effects_append]
      exact (begins_flush hholding hne hsum data).effects (hsum.add_four_le hholding.bounded)
        ((skips_congr hbase _).mpr hskips)
    · refine Or.inr ⟨n, hlt, hsumn, fun data => ?_⟩
      rw [StorageCall.effects_append]
      exact hbegins _
  · rw [← dataStart_congr hbase] at hwhole
    rcases hholding.flush_cases hne hsum hdone (head?_ne_of_append hwhole) with rfl | hbegins
    · exact leaves_nil ..
    · exact hone hbegins

end Step

/-- **A session that was cut off**, but not between two pages of the first buffer, has left
that buffer alone, or it left there the records of its first calls. -/
theorem leaves_of_cut {ops : List LogOp} (hsized : ∀ op ∈ ops, op.BlockSized) {lm : LogManager}
    {written : List UInt8} (h : lm.Holding written) (hsum : IsSum written.length)
    (hoff : (nextAll ops lm).writeOffset < 2 ^ 44) {done left : List StorageCall}
    (hsplit : callsAll ops lm = done ++ left)
    (hwhole : ∀ bytes, left.head? ≠ some (.writeBytes (lm.dataStart + logPSize) bytes)) :
    Leaves lm written ops done := by
  induction ops generalizing lm written done left with
  | nil =>
      rw [(List.append_eq_nil_iff.mp hsplit.symm).1]
      exact leaves_nil ..
  | cons op rest ih =>
      have hop := hsized op (List.mem_cons_self ..)
      have hrest := fun op' hmem => hsized op' (List.mem_cons_of_mem op hmem)
      have hnext := op.writeOffset_next lm
      have hplaced := op.writeOffset_placed lm
      have hle := writeOffset_le_nextAll rest (op.next lm)
      change (nextAll rest (op.next lm)).writeOffset < 2 ^ 44 at hoff
      by_cases hfits : written.length + op.size < logBufferSize
      · have hlen : (written ++ recordBytes (op.record lm.prevRecordOffset)).length =
            written.length + op.size := by
          rw [List.length_append, op.length_recordBytes]
        have hstep : ∀ more, callsAll rest (op.next lm) = more ++ left →
            Leaves lm written (op :: rest) more := by
          intro more hmore
          refine leaves_cons h hfits (ih hrest (holding_next h hfits) ?_ hoff hmore ?_)
          · rw [hlen]
            exact hsum.add_size hop
          · rw [dataStart_congr (op.logBase_next lm)]
            exact hwhole
        have hnone := (roomed_of_fits h hfits).2
        cases op with
        | append txid block data =>
            refine hstep done (Eq.trans ?_ hsplit)
            show _ = lm.roomCalls (append txid block data).size ++ _
            rw [hnone, List.nil_append]
        | commit txid =>
            refine leaves_commit h hfits rfl (hsum.add_size hop) (Eq.trans ?_ hsplit) hwhole hstep
            show _ = (lm.roomCalls (commit txid).size ++ _) ++ _
            rw [hnone, List.nil_append]
      · -- the buffer is stored, and the writer leaves it
        obtain ⟨hfull, hne, hstart⟩ := not_fits h hsum hop hfits
        have hlater : lm.Skips (callsAll rest (op.next lm)) :=
          (skips_congr (op.logBase_next lm) _).mp (skips_callsAll (by omega) hoff)
        have hroom : lm.roomCalls op.size = lm.flushCalls := if_pos hfull
        apply leaves_written h hsum
        cases op with
        | append txid block data =>
            refine flush_then_skips h hne hsum hlater (Eq.trans ?_ hsplit) hwhole
            show _ = lm.roomCalls (append txid block data).size ++ _
            rw [hroom]
        | commit txid =>
            have hflush : lm.Skips ((commit txid).placed lm).flushCalls :=
              (skips_congr ((commit txid).logBase_placed lm) _).mp
                (skips_flushCalls (by omega) (by omega))
            refine flush_then_skips h hne hsum (hflush.append hlater) (Eq.trans ?_ hsplit) hwhole
            show _ = (lm.roomCalls (commit txid).size ++ _) ++ _
            rw [hroom, List.append_assoc]

end LogOp

/-! ## What a replay writes, whether it returns or not -/

theorem issue_eq_performAll (writes : List BlockWrite) :
    issue writes = StorageCall.performAll (writes.map BlockWrite.call) := by
  induction writes with
  | nil => rfl
  | cons w rest ih =>
      rw [List.map_cons, StorageCall.performAll_cons, ← ih]
      rfl

theorem issue_trace (writes : List BlockWrite) (s : Storage) :
    ∃ done, (final (issue writes s)).trace = s.trace ++ done ∧
      ∀ call ∈ done, call ∈ writes.map BlockWrite.call := by
  rw [issue_eq_performAll]
  rcases StorageCall.performAll_cases (writes.map BlockWrite.call) s with
    ⟨s', hrun, -, htrace⟩ | ⟨e, s', done, call, rest, hrun, hsplit, -, htrace⟩
  · exact ⟨_, by rw [hrun]; exact htrace, fun _ hmem => hmem⟩
  · refine ⟨done, by rw [hrun]; exact htrace, fun call' hmem => ?_⟩
    rw [hsplit]
    exact List.mem_append_left _ hmem

/-- The trace of the filesystem's storage grows by what the log's storage does at most. -/
theorem setLogStorage_trace (m : Media) {log : Storage} {done : List StorageCall}
    (h : log.trace = m.logStorage.trace ++ done) :
    (m.setLogStorage log).fs.trace = m.fs.trace ∨
      (m.setLogStorage log).fs.trace = m.fs.trace ++ done := by
  unfold Media.setLogStorage
  unfold Media.logStorage at h
  cases hlog : m.log with
  | some storage => exact Or.inl rfl
  | none =>
      rw [hlog] at h
      exact Or.inr h

theorem replay_trace (logsuper : LogSuper) (dataStart : ℕ) (m : Media) :
    ∃ done, (final (JournalRecovery.replay dataStart ⟨.new logsuper, m⟩)).media.fs.trace =
        m.fs.trace ++ done ∧
      ∀ block data, .writeBlock block data ∈ done →
        (block, data) ∈ replayWrites logsuper dataStart m.logStorage := by
  by_cases hstate : logsuper.state.toNat = logRedone
  · rw [JournalRecovery.replay_of_redone hstate]
    exact ⟨[], (List.append_nil _).symm, fun _ _ hmem => absurd hmem List.not_mem_nil⟩
  rw [JournalRecovery.replay_of_ne hstate]
  unfold JournalRecovery.replayLog
  have hsame := LogReader.scan_sameButFaults logsuper dataStart m.logStorage
  -- reading the log leaves no trace
  have hread : ∀ log, Storage.SameButFaults m.logStorage log →
      (m.setLogStorage log).fs.trace = m.fs.trace := by
    intro log hlog
    have htrace : log.trace = m.logStorage.trace ++ [] := by
      rw [hlog.trace, List.append_nil]
    rcases setLogStorage_trace m htrace with heq | heq
    · exact heq
    · rw [heq, List.append_nil]
  cases hscan : LogReader.scan logsuper dataStart m.logStorage with
  | error e log =>
      have hlog : JournalRecovery.onLog (LogReader.scan logsuper dataStart) ⟨.new logsuper, m⟩ =
          .error e ⟨.new logsuper, m.setLogStorage log⟩ := zoom_error hscan
      rw [hscan, final_error] at hsame
      rw [bind_error hlog, final_error]
      refine ⟨[], ?_, fun _ _ hmem => absurd hmem List.not_mem_nil⟩
      rw [List.append_nil]
      exact hread log hsame
  | ok result log =>
      obtain ⟨records, pos⟩ := result
      have hlog : JournalRecovery.onLog (LogReader.scan logsuper dataStart) ⟨.new logsuper, m⟩ =
          .ok (records, pos) ⟨.new logsuper, m.setLogStorage log⟩ := zoom_ok hscan
      have hwrites : replayWrites logsuper dataStart m.logStorage =
          JournalRecovery.passWrites dataStart pos 0 records.reverse (.new logsuper) := by
        unfold replayWrites logRecords scanned
        rw [if_neg hstate, hscan]
      rw [hscan, final_ok] at hsame
      obtain ⟨r', -, hback⟩ := JournalRecovery.backward_eq dataStart pos 0 records.reverse
        ⟨.new logsuper, m.setLogStorage log⟩
      obtain ⟨done, hdone, hmem⟩ := issue_trace
        (JournalRecovery.passWrites dataStart pos 0 records.reverse (.new logsuper))
        (m.setLogStorage log).fs
      rw [hread log hsame] at hdone
      have hblock : ∀ block data, .writeBlock block data ∈ done →
          (block, data) ∈ replayWrites logsuper dataStart m.logStorage := by
        intro block data hcall
        obtain ⟨w, hw, heq⟩ := List.mem_map.mp (hmem _ hcall)
        rw [hwrites]
        unfold BlockWrite.call at heq
        cases heq
        exact hw
      rw [bind_ok hlog]
      simp only
      cases hissue : issue (JournalRecovery.passWrites dataStart pos 0 records.reverse
          (.new logsuper)) (m.setLogStorage log).fs with
      | error e fs =>
          rw [hissue] at hback hdone
          rw [bind_error hback, final_error]
          exact ⟨done, hdone, hblock⟩
      | ok _ fs =>
          rw [hissue] at hback hdone
          rw [final_ok] at hdone
          rw [bind_ok hback, bind_ok (JournalRecovery.modifyRecovery_apply _ _),
            bind_ok (get_apply _)]
          have hlast : ∀ bytes, ∃ more,
              (final (StorageM.writeBytes (dataStart - blockSize) bytes
                { m.setLogStorage log with fs }.logStorage)).trace =
                { m.setLogStorage log with fs }.logStorage.trace ++ more ∧
              (more = [] ∨ more = [.writeBytes (dataStart - blockSize) bytes]) := by
            intro bytes
            rcases StorageCall.perform_cases (.writeBytes (dataStart - blockSize) bytes)
              { m.setLogStorage log with fs }.logStorage with
              ⟨t, hrun, -, htrace⟩ | ⟨e, t, hrun, -, htrace⟩
            · exact ⟨_, (congrArg (fun r => (final r).trace) hrun).trans htrace, Or.inr rfl⟩
            · refine ⟨[], (congrArg (fun r => (final r).trace) hrun).trans ?_, Or.inl rfl⟩
              rw [List.append_nil]
              exact htrace
          unfold JournalRecovery.onLog
          rw [final_zoom]
          obtain ⟨more, htrace, hmore⟩ := hlast _
          rcases setLogStorage_trace _ htrace with hfs | hfs
          · exact ⟨done, hfs.trans hdone, hblock⟩
          · refine ⟨done ++ more, ?_, fun block data hcall => ?_⟩
            · rw [← List.append_assoc, ← hdone]
              exact hfs
            · rcases List.mem_append.mp hcall with hold | hnew
              · exact hblock block data hold
              · rcases hmore with rfl | rfl
                · cases hnew
                · cases List.mem_singleton.mp hnew

end JfsFuse
