import JfsFuse.Volume.WriteAhead

/-!
# Commits that fail

A commit that returns an error may have failed before or behind the superblock that
covers its commit record.  Before it, the superblock on the storage is an older one,
so the record is not part of the log.  Behind it, the record is in the log for good
and a replay would apply the transaction that the caller was told is gone.
-/

namespace JfsFuse

open ByteBuf Program

namespace LogManager

/-! ## The superblock between two calls -/

/-- A call of this log manager: a superblock, a write behind it, or a flush. -/
def Makes (lm : LogManager) : StorageCall → Prop
  | .writeBytes offset bytes =>
      (offset = lm.logBase + blockSize ∧ bytes.length = blockSize) ∨ lm.dataStart ≤ offset
  | .writeBlock _ _ => False
  | .flushData => True
  | .flushMetadata => True
  | .sync => True

theorem makes_congr {lm lm' : LogManager} (h : lm'.logBase = lm.logBase) (call : StorageCall) :
    lm'.Makes call ↔ lm.Makes call := by
  unfold Makes dataStart
  rw [h]

theorem makes_flushCalls (lm : LogManager) : ∀ call ∈ lm.flushCalls, lm.Makes call := by
  intro call hmem
  rcases List.mem_append.mp hmem with hpage | hlast
  · unfold pageCalls at hpage
    split at hpage
    · obtain ⟨i, -, rfl⟩ := List.mem_map.mp hpage
      exact Or.inr (Nat.le_add_right ..)
    · cases hpage
  · simp only [List.mem_cons, List.not_mem_nil, or_false] at hlast
    rcases hlast with rfl | rfl | rfl
    · trivial
    · trivial
    · exact Or.inl ⟨rfl, length_superBytes _⟩

/-- The superblock on the storage is the old one or one that was written. -/
theorem storedEnd_effects {lm : LogManager} {calls : List StorageCall}
    (h : ∀ call ∈ calls, lm.Makes call) (data : ℕ → UInt8) :
    lm.storedEnd (StorageCall.effects calls data) = lm.storedEnd data ∨
      ∃ page, .writeBytes (lm.logBase + blockSize) page ∈ calls ∧
        lm.storedEnd (StorageCall.effects calls data) = readLE page 32 4 := by
  induction calls generalizing data with
  | nil => exact Or.inl rfl
  | cons call rest ih =>
      have hcall := h call (List.mem_cons_self ..)
      rw [StorageCall.effects_cons]
      rcases ih (fun c hmem => h c (List.mem_cons_of_mem _ hmem)) (call.effect data) with
        hsame | ⟨page, hmem, hend⟩
      · rw [hsame]
        cases call with
        | writeBlock block bytes => exact hcall.elim
        | writeBytes offset bytes =>
            rcases hcall with ⟨rfl, hlen⟩ | hbehind
            · refine Or.inr ⟨bytes, List.mem_cons_self .., ?_⟩
              show readLE (Memory.read (Memory.write data _ bytes) _ blockSize) 32 4 = _
              rw [← hlen, Memory.read_write_self]
            · refine Or.inl ?_
              show readLE (Memory.read (Memory.write data offset bytes) _ blockSize) 32 4 = _
              rw [Memory.read_congr fun i hlow hhigh => Memory.write_outside ?_]
              · rfl
              · unfold dataStart at hbehind
                unfold blockSize at *
                omega
        | flushData => exact Or.inl rfl
        | flushMetadata => exact Or.inl rfl
        | sync => exact Or.inl rfl
      · exact Or.inr ⟨page, List.mem_cons_of_mem _ hmem, hend⟩

end LogManager

namespace LogOp

open LogManager

theorem makes_calls (op : LogOp) (lm : LogManager) : ∀ call ∈ op.calls lm, lm.Makes call := by
  have hroom : ∀ call ∈ lm.roomCalls op.size, lm.Makes call := by
    intro call hmem
    unfold roomCalls at hmem
    split at hmem
    · exact lm.makes_flushCalls call hmem
    · cases hmem
  intro call hmem
  cases op with
  | append txid block data => exact hroom call hmem
  | commit txid =>
      rcases List.mem_append.mp hmem with hfirst | hflush
      · exact hroom call hfirst
      · rw [← makes_congr ((commit txid).logBase_placed lm)]
        exact makes_flushCalls _ call hflush

theorem makes_callsAll (ops : List LogOp) (lm : LogManager) :
    ∀ call ∈ callsAll ops lm, lm.Makes call := by
  induction ops generalizing lm with
  | nil => exact fun _ hmem => absurd hmem List.not_mem_nil
  | cons op rest ih =>
      intro call hmem
      rcases List.mem_append.mp hmem with hop | hrest
      · exact op.makes_calls lm call hop
      · rw [← makes_congr (op.logBase_next lm)]
        exact ih _ call hrest

end LogOp

namespace Volume

open LogManager

/-- The log with content `data` has a commit record of transaction `txid` at offset `off`, within
the end that the superblock gives. -/
def CommitRecorded (lm : LogManager) (txid off : ℕ) (data : ℕ → UInt8) : Prop :=
  let lrd := parseLrd (Memory.read data (lm.dataStart + off) lrdSize)
  lrd.type = logCommit ∧ lrd.logtid.toNat = txid % 2 ^ 32 ∧ off + lrdSize ≤ lm.storedEnd data

variable {lm : LogManager} {txid : ℕ} {pages : List (ℕ × List UInt8)} {storage : Storage}

theorem makes_logCalls (lm : LogManager) (txid : ℕ) (pages : List (ℕ × List UInt8)) :
    ∀ call ∈ .flushData :: logCalls lm txid pages, lm.Makes call := by
  intro call hmem
  rcases List.mem_cons.mp hmem with rfl | hlog
  · trivial
  · exact LogOp.makes_callsAll _ _ call hlog

/-- Before the last superblock, the log on the storage ends in front of the commit record. -/
theorem storedEnd_lt_of_fails (hfails : Fails storage (.flushData :: logCalls lm txid pages))
    (hend : lm.storedEnd storage.data < commitStart lm txid pages + lrdSize) :
    lm.storedEnd (final (StorageCall.performAll (commitCalls lm txid pages) storage)).data <
      commitStart lm txid pages + lrdSize := by
  have hmakes := makes_logCalls lm txid pages
  unfold commitCalls
  rw [List.append_assoc, final_append_of_fails hfails]
  rcases StorageCall.performAll_cases (.flushData :: logCalls lm txid pages) storage with
    ⟨s', hrun, -⟩ | ⟨e, s', done, call, rest, hrun, hsplit, hdata, -⟩
  · unfold Fails at hfails
    rw [hrun] at hfails
    cases hfails
  · rw [hrun, final_error, hdata]
    rcases storedEnd_effects (fun c hmem => hmakes c (hsplit ▸ List.mem_append_left _ hmem))
      storage.data with hsame | ⟨page, hmem, hpage⟩
    · rw [hsame]
      exact hend
    · -- the call that failed is the superblock at the latest
      have hwhole := hsplit.symm.trans (logCalls_eq lm txid pages)
      have hlen := congrArg List.length hwhole
      simp only [List.length_append, List.length_cons, List.length_nil] at hlen
      have hdone : done <+: uncovered lm txid pages ++ [(atCommit lm txid pages).superCall] :=
        ⟨call :: rest, hwhole⟩
      have hfront : done <+: uncovered lm txid pages :=
        List.prefix_of_prefix_length_le hdone (List.prefix_append _ _) (by omega)
      rw [hpage]
      exact end_lt_of_mem_uncovered (hfront.subset hmem)

/-- Behind the superblock, the commit record is in the log. -/
theorem commitRecorded_logCalls (hframed : lm.Framed)
    (hsized : ∀ page ∈ pages, page.2.length = blockSize)
    (hoff : commitStart lm txid pages + lrdSize < 2 ^ 32) (data : ℕ → UInt8) :
    CommitRecorded lm txid (commitStart lm txid pages)
      (StorageCall.effects (logCalls lm txid pages) data) := by
  have himages : ∀ op ∈ images txid pages, op.BlockSized := by
    intro op hmem txid' block bytes heq
    obtain ⟨page, hpage, rfl⟩ := List.mem_map.mp hmem
    cases heq
    exact hsized page hpage
  have hnext : (LogOp.nextAll (commitOps txid pages) lm).writeOffset =
      commitStart lm txid pages + lrdSize := by
    unfold commitOps
    rw [LogOp.nextAll_append]
    exact LogOp.writeOffset_next _ _
  have hlayout : lm.Layout data [] :=
    ⟨hframed, fun _ hr => absurd hr List.not_mem_nil, fun _ hr => absurd hr List.not_mem_nil⟩
  obtain ⟨hstored, hend⟩ := LogOp.layout_commit hlayout himages txid (by
    change (LogOp.nextAll (commitOps txid pages) lm).writeOffset < 2 ^ 44
    rw [hnext]
    omega)
  have hread := hstored _ (commit_mem_recordsAt lm txid pages)
  rw [LogOp.length_recordAt] at hread
  obtain ⟨-, htid, htype, -⟩ := LogOp.onStorage_of_read (LogOp.blockSized_commit txid) hread
  refine ⟨htype, htid, ?_⟩
  change lm.storedEnd (StorageCall.effects (logCalls lm txid pages) data) =
    (LogOp.nextAll (commitOps txid pages) lm).writeOffset % 2 ^ 32 at hend
  rw [hend, hnext, Nat.mod_eq_of_lt hoff]

/-- A record in the log area is kept by writes elsewhere. -/
theorem commitRecorded_congr {off : ℕ} {data data' : ℕ → UInt8}
    (hroom : off + lrdSize ≤ lm.logPages * logPSize)
    (hsame : ∀ i, lm.Owns i → data' i = data i) :
    CommitRecorded lm txid off data' ↔ CommitRecorded lm txid off data := by
  have hrecord : Memory.read data' (lm.dataStart + off) lrdSize =
      Memory.read data (lm.dataStart + off) lrdSize :=
    Memory.read_congr fun i hlow hhigh => hsame i (Or.inr ⟨by omega, by omega⟩)
  have hend : lm.storedEnd data' = lm.storedEnd data := by
    unfold storedEnd
    rw [Memory.read_congr fun i hlow hhigh => hsame i (Or.inl ⟨hlow, by omega⟩)]
  unfold CommitRecorded
  rw [hrecord, hend]

theorem commitRecorded_of_taken (hframed : lm.Framed)
    (hpages : ∀ page ∈ pages, page.2.length = blockSize ∧
      ∀ i, page.1 * blockSize ≤ i → i < page.1 * blockSize + blockSize → ¬ lm.Owns i)
    (hoff : commitStart lm txid pages + lrdSize < 2 ^ 32)
    (hroom : commitStart lm txid pages + lrdSize ≤ lm.logPages * logPSize)
    (htaken : ¬ Fails storage (.flushData :: logCalls lm txid pages)) :
    CommitRecorded lm txid (commitStart lm txid pages)
      (final (StorageCall.performAll (commitCalls lm txid pages) storage)).data := by
  have hrecorded := commitRecorded_logCalls hframed (fun page hmem => (hpages page hmem).1) hoff
    storage.data
  -- what follows are the blocks and a flush
  have hsecond : ∀ call ∈ pageWrites pages ++ [.flushMetadata], ∀ i, call.Writes i → ¬ lm.Owns i := by
    intro call hmem i hwrites
    rcases List.mem_append.mp hmem with hpage | hflush
    · obtain ⟨page, hcached, rfl⟩ := List.mem_map.mp hpage
      obtain ⟨hlen, hout⟩ := hpages page hcached
      obtain ⟨hlow, hhigh⟩ := hwrites
      rw [hlen] at hhigh
      exact hout i hlow hhigh
    · rw [List.mem_singleton.mp hflush] at hwrites
      exact hwrites.elim
  have hkeep : ∀ calls, (∀ call ∈ calls, call ∈ pageWrites pages ++ [.flushMetadata]) →
      CommitRecorded lm txid (commitStart lm txid pages)
        (StorageCall.effects calls (StorageCall.effects (logCalls lm txid pages) storage.data)) := by
    intro calls hcalls
    refine (commitRecorded_congr hroom fun i hi => ?_).mpr hrecorded
    exact StorageCall.effects_of_outside (fun call hmem => hsecond call (hcalls call hmem)) _ hi
  unfold commitCalls
  rw [List.append_assoc]
  rcases StorageCall.performAll_cases (.flushData :: logCalls lm txid pages) storage with
    ⟨t, hrun, hdata, -⟩ | ⟨e, t, _, _, _, hrun, -⟩
  · have hjournal : t.data = StorageCall.effects (logCalls lm txid pages) storage.data := hdata
    rw [StorageCall.performAll_append_ok hrun]
    rcases StorageCall.performAll_cases (pageWrites pages ++ [.flushMetadata]) t with
      ⟨s', hrest, hdata', -⟩ | ⟨e, s', done, call, rest, hrest, hsplit, hdata', -⟩
    · rw [hrest, final_ok, hdata', hjournal]
      exact hkeep _ fun _ hmem => hmem
    · rw [hrest, final_error, hdata', hjournal]
      refine hkeep done fun call' hmem => ?_
      rw [hsplit]
      exact List.mem_append_left _ hmem
  · unfold Fails at htaken
    rw [hrun] at htaken
    exact absurd rfl htaken

/-- A volume with a fresh log of 16 pages at block 16 and a transaction on a zeroed page of
block 5. -/
private def oneDirty : Volume where
  ait2 := {}
  aggSize := 64
  log := some (.new { size := 16 } (16 * blockSize))
  txMgr := { nextTxid := 2, active := some { txid := 1, dirtyPages := [(18, 5)] } }
  storage := .newMemory 64
  pageCache := Lru.put (PageCache.new 256) (18, 5) { block := 5, data := zeros blockSize }
  bmap := none

private theorem cachedPages_oneDirty :
    cachedPages oneDirty.pageCache [(18, 5)] = [(5, zeros blockSize)] := by
  have hpeek : oneDirty.pageCache.peek (18, 5) =
      some { block := 5, data := zeros blockSize } := Lru.peek_put_self ..
  rw [cachedPages_cons, hpeek]
  rfl

private theorem commitStart_oneDirty :
    commitStart (.new { size := 16 } (16 * blockSize)) 1 [(5, zeros blockSize)] = 4132 := by
  have himage : (LogOp.append 1 5 (zeros blockSize)).size = 4132 := by
    show lrdSize + (zeros blockSize).length = 4132
    rw [length_zeros]
    rfl
  have hcommit : (LogOp.commit 1).size = 36 := rfl
  have hzero : (LogManager.new { size := 16 } (16 * blockSize)).writeOffset = 0 := rfl
  unfold commitStart LogOp.start
  rw [writeOffset_roomed, LogOp.writeOffset_nextAll, hzero]
  simp [images, LogOp.offsetAfter, himage, hcommit, LogState.startOf, logBufferSize, logPSize]

private theorem oneDirty_size :
    ∀ page ∈ cachedPages oneDirty.pageCache [(18, 5)], page.2.length ≤ blockSize := by
  intro page hmem
  rw [cachedPages_oneDirty, List.mem_singleton] at hmem
  rw [hmem]
  exact (length_zeros _).le

private theorem issues_oneDirty :
    Issues commitPages oneDirty
      (commitCalls (.new { size := 16 } (16 * blockSize)) 1 [(5, zeros blockSize)])
      fun _ _ => True := by
  have hissues := issues_commitPages (show oneDirty.log = _ from rfl) (length_zeros _)
    (show oneDirty.txMgr.active = some { txid := 1, dirtyPages := [(18, 5)] } from rfl) oneDirty_size
  rw [cachedPages_oneDirty] at hissues
  exact hissues.mono fun _ _ _ => trivial

private theorem storedEnd_zero (lm : LogManager) : lm.storedEnd (fun _ => 0) = 0 := by
  unfold storedEnd readLE
  rw [Memory.slice_read _ (by decide)]
  rfl

end Volume

end JfsFuse
