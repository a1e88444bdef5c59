import JfsFuse.Journal.Layout

/-!
# The area of the log

The write offset of the log manager only grows, and `flush_journal` does not compare
it with the size of the log.  So the pages of a flush lie in the log area as long as
the offset of the flush does, and behind it they do not.  The offsets at which a run
flushes depend on the sizes of its records alone.
-/

namespace JfsFuse

open ByteBuf Program

namespace StorageCall

/-- The call writes the byte at `i`. -/
def Writes (i : ℕ) : StorageCall → Prop
  | writeBlock block bytes => block * blockSize ≤ i ∧ i < block * blockSize + bytes.length
  | writeBytes offset bytes => offset ≤ i ∧ i < offset + bytes.length
  | flushData => False
  | flushMetadata => False
  | sync => False

/-- Writes outside `P` keep the bytes in `P`. -/
theorem effects_of_outside {P : ℕ → Prop} {calls : List StorageCall}
    (h : ∀ call ∈ calls, ∀ i, call.Writes i → ¬ P i) (data : ℕ → UInt8) {i : ℕ} (hi : P i) :
    effects calls data i = data i := by
  induction calls generalizing data with
  | nil => rfl
  | cons call rest ih =>
      have hcall := h call (List.mem_cons_self ..) i
      rw [effects_cons, ih fun c hmem => h c (List.mem_cons_of_mem _ hmem)]
      cases call with
      | writeBlock block bytes =>
          refine Memory.write_outside ?_
          by_contra hin
          exact hcall ⟨by omega, by omega⟩ hi
      | writeBytes offset bytes =>
          refine Memory.write_outside ?_
          by_contra hin
          exact hcall ⟨by omega, by omega⟩ hi
      | flushData => rfl
      | flushMetadata => rfl
      | sync => rfl

end StorageCall

namespace LogManager

/-- The byte at `i` is in the superblock page or in the data area of the log. -/
def Owns (lm : LogManager) (i : ℕ) : Prop :=
  (lm.logBase + blockSize ≤ i ∧ i < lm.logBase + blockSize * 2) ∨
    (lm.dataStart ≤ i ∧ i < lm.dataStart + lm.logPages * logPSize)

/-- All bytes that the call writes belong to the log. -/
def Contains (lm : LogManager) (call : StorageCall) : Prop :=
  ∀ i, call.Writes i → lm.Owns i

/-- Where the pages end that a flush at write offset `off` writes.  Page numbers are
taken modulo 2³². -/
def flushEnd (off : ℕ) : ℕ :=
  (off - off % logBufferSize) / logPSize % 2 ^ 32 + (off % logBufferSize + logPSize - 1) / logPSize

/-- Up to 16 TiB, the pages of a flush fit when the write offset does. -/
theorem flushEnd_le_iff {off : ℕ} (hoff : off < 2 ^ 44) (pages : ℕ) :
    flushEnd off ≤ pages ↔ off ≤ pages * logPSize := by
  unfold flushEnd logBufferSize logPSize
  omega

theorem flushEnd_writeOffset (lm : LogManager) :
    flushEnd lm.writeOffset = lm.bufferStart / logPSize % 2 ^ 32 + lm.dirtyPages := by
  have hstart := lm.bufferStart_add
  have hin : lm.writeOffset - lm.bufferStart = lm.writeOffset % logBufferSize := by omega
  unfold flushEnd dirtyPages
  rw [hin]
  rfl

section Flush

variable {lm : LogManager}

theorem contains_congr {lm' : LogManager} (hbase : lm'.logBase = lm.logBase)
    (hpages : lm'.logPages = lm.logPages) (call : StorageCall) :
    lm'.Contains call ↔ lm.Contains call := by
  unfold Contains Owns dataStart
  rw [hbase, hpages]

theorem contains_superCall (lm : LogManager) : lm.Contains lm.superCall := by
  intro i hwrites
  have hlen : (superBytes lm.ended.logsuper).length = blockSize := length_superBytes _
  obtain ⟨hlow, hhigh⟩ := hwrites
  rw [hlen] at hhigh
  exact Or.inl ⟨hlow, by omega⟩

theorem contains_pageCall_iff (hbuffer : lm.logBuffer.length = logBufferSize) {i : ℕ}
    (hi : i < lm.dirtyPages) :
    lm.Contains (lm.pageCall i) ↔ lm.bufferStart / logPSize % 2 ^ 32 + i < lm.logPages := by
  have hpages := lm.dirtyPages_le
  have hlen : (slice lm.logBuffer (i * logPSize) logPSize).length = logPSize := by
    apply length_slice_of_le
    have hmul : (i + 1) * logPSize ≤ lm.dirtyPages * logPSize := Nat.mul_le_mul_right _ hi
    rw [Nat.succ_mul] at hmul
    omega
  have hdata : lm.dataStart = lm.logBase + blockSize * 2 := rfl
  unfold Contains pageCall Owns
  simp only [StorageCall.Writes, hlen]
  generalize lm.bufferStart / logPSize % 2 ^ 32 + i = page
  constructor
  · intro hall
    -- the first byte of the page decides
    have hfirst := hall (lm.dataStart + page * logPSize) ⟨le_rfl, by unfold logPSize; omega⟩
    have hlt : page * logPSize < lm.logPages * logPSize := by omega
    exact Nat.lt_of_mul_lt_mul_right hlt
  · rintro hpage j ⟨hlow, hhigh⟩
    have hmul : (page + 1) * logPSize ≤ lm.logPages * logPSize := Nat.mul_le_mul_right _ hpage
    rw [Nat.succ_mul] at hmul
    exact Or.inr ⟨by omega, by omega⟩

/-- **A flush stays in the log** exactly when its last page does. -/
theorem contains_flushCalls_iff (h : lm.Framed) (hne : lm.writeOffset % logBufferSize ≠ 0) :
    (∀ call ∈ lm.flushCalls, lm.Contains call) ↔ flushEnd lm.writeOffset ≤ lm.logPages := by
  have hpair : lm.bufferDirty = true ∧ 0 < lm.writeOffset := by
    refine ⟨h.dirty hne, Nat.pos_of_ne_zero fun hzero => hne ?_⟩
    rw [hzero, Nat.zero_mod]
  have hpos : 0 < lm.dirtyPages := by
    have hstart := lm.bufferStart_add
    unfold dirtyPages logPSize
    omega
  have hpage : (∀ call ∈ lm.pageCalls, lm.Contains call) ↔ flushEnd lm.writeOffset ≤ lm.logPages := by
    unfold pageCalls
    rw [if_pos hpair, flushEnd_writeOffset]
    constructor
    · intro hall
      have hlast := hall _ (List.mem_map_of_mem (List.mem_range.mpr (Nat.sub_one_lt_of_lt hpos)))
      rw [contains_pageCall_iff h.buffer (Nat.sub_one_lt_of_lt hpos)] at hlast
      omega
    · intro hend call hmem
      obtain ⟨i, hi, rfl⟩ := List.mem_map.mp hmem
      have hlt := List.mem_range.mp hi
      exact (contains_pageCall_iff h.buffer hlt).mpr (by omega)
  unfold flushCalls
  rw [List.forall_mem_append, hpage]
  refine and_iff_left fun call hmem => ?_
  simp only [List.mem_cons, List.not_mem_nil, or_false] at hmem
  rcases hmem with rfl | rfl | rfl
  · exact fun _ hwrites => hwrites.elim
  · exact fun _ hwrites => hwrites.elim
  · exact lm.contains_superCall

end Flush

end LogManager

namespace LogOp

open LogManager

/-! ## Where a run flushes -/

/-- The write offsets at which calls that start at offset `off` flush the buffer: before
a record that does not fit, and behind a commit. -/
def flushOffsets (off : ℕ) : List LogOp → List ℕ
  | [] => []
  | op :: rest =>
      let after := LogState.startOf off op.size + op.size
      let first := if logBufferSize < off % logBufferSize + op.size then [off] else []
      let last := match op with
        | append _ _ _ => []
        | commit _ => [after]
      first ++ last ++ flushOffsets after rest

@[simp] theorem logPages_roomed (lm : LogManager) (n : ℕ) : (lm.roomed n).logPages = lm.logPages := by
  unfold LogManager.roomed
  split <;> rfl

theorem logPages_placed (op : LogOp) (lm : LogManager) : (op.placed lm).logPages = lm.logPages := by
  have hroomed := logPages_roomed lm op.size
  unfold placed
  generalize lm.roomed op.size = roomed at hroomed
  cases op <;> exact hroomed

theorem logPages_next (op : LogOp) (lm : LogManager) : (op.next lm).logPages = lm.logPages := by
  have hplaced := op.logPages_placed lm
  unfold next
  generalize op.placed lm = placed at hplaced
  cases op <;> exact hplaced

/-- The buffer is not empty behind a record. -/
theorem placed_mod_ne_zero (op : LogOp) (hsized : op.BlockSized) {lm : LogManager}
    (h : lm.Framed) : (op.placed lm).writeOffset % logBufferSize ≠ 0 := by
  have hsize := size_eq_or hsized
  have hfits := LogState.startOf_mod_add_le lm.writeOffset (size_le hsized)
  have hsum := (h.roomed op.size).sum.add_size hsized
  rw [← writeOffset_roomed lm] at hfits
  have hlt := hsum.ne_buffer hfits
  rw [writeOffset_placed]
  unfold start
  generalize (lm.roomed op.size).writeOffset = off at *
  unfold logBufferSize logPSize at *
  omega

/-- **A call of the writer** stays in the log exactly when its flushes do. -/
theorem contains_calls_iff (op : LogOp) (hsized : op.BlockSized) {lm : LogManager} (h : lm.Framed) :
    (∀ call ∈ op.calls lm, lm.Contains call) ↔
      ∀ off ∈ flushOffsets lm.writeOffset [op], flushEnd off ≤ lm.logPages := by
  have hle := size_le hsized
  have hroom : (∀ call ∈ lm.roomCalls op.size, lm.Contains call) ↔
      ∀ off ∈ (if logBufferSize < lm.writeOffset % logBufferSize + op.size then [lm.writeOffset]
        else []), flushEnd off ≤ lm.logPages := by
    unfold roomCalls
    by_cases hfull : lm.Full op.size
    · rw [if_pos hfull, if_pos (show logBufferSize < _ from hfull),
        contains_flushCalls_iff h (by unfold LogManager.Full at hfull; omega), List.forall_mem_singleton]
    · rw [if_neg hfull, if_neg (show ¬ logBufferSize < _ from hfull)]
      exact iff_of_true (fun _ hmem => absurd hmem List.not_mem_nil)
        fun _ hmem => absurd hmem List.not_mem_nil
  cases op with
  | append txid block data =>
      simp only [flushOffsets, List.append_nil]
      exact hroom
  | commit txid =>
      have hframed := (commit txid).framed_placed hsized h
      have hoffset := (commit txid).writeOffset_placed lm
      have hcontains := contains_congr ((commit txid).logBase_placed lm)
        ((commit txid).logPages_placed lm)
      have hpages := (commit txid).logPages_placed lm
      unfold start at hoffset
      rw [writeOffset_roomed] at hoffset
      have hflush : (∀ call ∈ ((commit txid).placed lm).flushCalls, lm.Contains call) ↔
          flushEnd (LogState.startOf lm.writeOffset (commit txid).size + (commit txid).size) ≤
            lm.logPages := by
        rw [← hoffset, ← hpages,
          ← contains_flushCalls_iff hframed ((commit txid).placed_mod_ne_zero hsized h)]
        exact forall₂_congr fun call _ => (hcontains call).symm
      unfold calls
      simp only [flushOffsets, List.append_nil]
      rw [List.forall_mem_append, List.forall_mem_append, List.forall_mem_singleton, hflush]
      exact and_congr_left' hroom

theorem flushOffsets_cons (op : LogOp) (rest : List LogOp) (lm : LogManager) :
    flushOffsets lm.writeOffset (op :: rest) =
      flushOffsets lm.writeOffset [op] ++ flushOffsets (op.next lm).writeOffset rest := by
  have hnext := op.writeOffset_next lm
  unfold start at hnext
  rw [writeOffset_roomed] at hnext
  rw [hnext]
  simp only [flushOffsets, List.append_nil]

/-- **A run of the writer** stays in the log exactly when its flushes do. -/
theorem contains_callsAll_iff {ops : List LogOp} (hsized : ∀ op ∈ ops, op.BlockSized)
    {lm : LogManager} (h : lm.Framed) :
    (∀ call ∈ callsAll ops lm, lm.Contains call) ↔
      ∀ off ∈ flushOffsets lm.writeOffset ops, flushEnd off ≤ lm.logPages := by
  induction ops generalizing lm with
  | nil =>
      exact iff_of_true (fun _ hmem => absurd hmem List.not_mem_nil)
        fun _ hmem => absurd hmem List.not_mem_nil
  | cons op rest ih =>
      have hop := hsized op (List.mem_cons_self ..)
      have hcontains := contains_congr (op.logBase_next lm) (op.logPages_next lm)
      have hrest := ih (fun op hmem => hsized op (List.mem_cons_of_mem _ hmem))
        (op.framed_next hop h)
      rw [op.logPages_next, forall₂_congr fun call _ => hcontains call] at hrest
      unfold callsAll
      rw [flushOffsets_cons, List.forall_mem_append, List.forall_mem_append, hrest,
        op.contains_calls_iff hop h]

/-- All bytes that a run of the writer puts on the storage belong to the log. -/
def StaysInLog (ops : List LogOp) (lm : LogManager) (storage : Storage) : Prop :=
  ∀ call ∈ (final (performAll ops ⟨lm, storage⟩)).storage.trace.drop storage.trace.length,
    ∀ i, call.Writes i → lm.Owns i

theorem staysInLog_of_calls {ops : List LogOp} (hsized : ∀ op ∈ ops, op.BlockSized)
    {lm : LogManager} (hbuffer : lm.logBuffer.length = logBufferSize)
    (hcalls : ∀ call ∈ callsAll ops lm, lm.Contains call) (storage : Storage) :
    StaysInLog ops lm storage := by
  have hissues := issues_performAll (fun op hmem => size_le (hsized op hmem)) hbuffer
  intro call hmem
  rcases hissues.cases storage with ⟨s, hrun, -, htrace⟩ |
    ⟨e, _, s, done, next, rest, hrun, hsplit, -, htrace⟩
  · rw [hrun, final_ok, htrace, List.drop_left] at hmem
    exact hcalls call hmem
  · rw [hrun, final_error, htrace, List.drop_left] at hmem
    refine hcalls call ?_
    rw [hsplit]
    exact List.mem_append_left _ hmem

/-- A file that is open for writing takes every write, so a run that stays in the log on
every storage issues no call outside. -/
theorem calls_of_staysInLog {ops : List LogOp} (hsized : ∀ op ∈ ops, op.BlockSized)
    {lm : LogManager} (hbuffer : lm.logBuffer.length = logBufferSize)
    (hall : ∀ storage, StaysInLog ops lm storage) : ∀ call ∈ callsAll ops lm, lm.Contains call := by
  intro call hmem
  obtain ⟨storage, hrun, htrace, -⟩ := performAll_file
    (fun op hop => size_le (hsized op hop)) hbuffer
    (show ({ backend := .file false, size := 0, data := fun _ => 0 } : Storage).backend =
      .file false from rfl) rfl
  refine hall { backend := .file false, size := 0, data := fun _ => 0 } call ?_
  rw [hrun, final_ok, htrace]
  exact hmem

/-- **The journal stays in its area.**  A run of the writer puts all bytes into the
superblock page and the data area of the log, on every storage, exactly when at each
of its flushes the pages in use end within the log. -/
theorem staysInLog_iff_flushEnd_le (logsuper : LogSuper) (logBase : ℕ) (ops : List LogOp)
    (hsized : ∀ op ∈ ops, op.BlockSized) :
    (∀ storage, StaysInLog ops (.new logsuper logBase) storage) ↔
      ∀ off ∈ flushOffsets 0 ops, flushEnd off ≤ logsuper.size.toNat := by
  have hframed := framed_new logsuper logBase
  have hiff := contains_callsAll_iff hsized hframed
  constructor
  · exact fun hall => hiff.mp (calls_of_staysInLog hsized hframed.buffer hall)
  · exact fun hend => staysInLog_of_calls hsized hframed.buffer (hiff.mpr hend)

/-- Transactions of one after-image each. -/
private def images (count : ℕ) : List LogOp :=
  (List.replicate count [append 1 5 (zeros blockSize), commit 1]).flatten

private theorem images_blockSized (count : ℕ) : ∀ op ∈ images count, op.BlockSized := by
  intro op hmem txid block data heq
  obtain ⟨pair, hpair, hop⟩ := List.mem_flatten.mp hmem
  rw [(List.mem_replicate.mp hpair).2, heq] at hop
  simp only [List.mem_cons, List.not_mem_nil, or_false, reduceCtorEq, append.injEq] at hop
  rw [hop.2.2]
  exact length_zeros _

private theorem image_size : (append 1 5 (zeros blockSize)).size = 4132 := by
  show lrdSize + (zeros blockSize).length = 4132
  rw [length_zeros]
  rfl

private theorem commit_size : (commit 1).size = 36 := rfl

/-- Two transactions fit in the log of 16 pages that `mkfs` makes. -/
theorem two_images_stay_in_log :
    (∀ op ∈ images 2, op.BlockSized) ∧
      ∀ storage, StaysInLog (images 2) (.new { size := 16 } 0) storage := by
  refine ⟨images_blockSized 2, ?_⟩
  refine (staysInLog_iff_flushEnd_le { size := 16 } 0 (images 2) (images_blockSized 2)).mpr ?_
  simp [images, List.replicate, flushOffsets, image_size, commit_size, LogState.startOf, flushEnd,
    logBufferSize, logPSize]

/-- The ninth transaction is written behind that log. -/
theorem nine_images_leave_log :
    ¬ ∀ storage, StaysInLog (images 9) (.new { size := 16 } 0) storage := by
  intro hall
  have hframed := framed_new { size := 16 } 0
  have hcalls := calls_of_staysInLog (images_blockSized 9) hframed.buffer hall
  have hend := (contains_callsAll_iff (images_blockSized 9) hframed).mp hcalls
  -- the flush behind the ninth commit
  have hlast := hend (8 * 8192 + 4168) (by
    show _ ∈ flushOffsets 0 (images 9)
    simp [images, List.replicate, flushOffsets, image_size, commit_size, LogState.startOf,
      logBufferSize, logPSize])
  rw [flushEnd_le_iff (by norm_num)] at hlast
  exact absurd hlast (by decide)

end LogOp

end JfsFuse
