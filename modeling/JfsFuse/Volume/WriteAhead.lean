import JfsFuse.Volume.CommitCalls

/-!
# The order of the writes of a commit

The last call of the journal in a commit is the write of the log superblock, and the
next one is the write of the first metadata block.  So nothing is flushed between the
superblock that covers the records of the transaction and the blocks themselves.  A
commit that fails behind the superblock leaves its commit record in the log.
-/

namespace JfsFuse

open ByteBuf Program

namespace StorageCall

/-! ## Calls on a storage in memory -/

/-- The end of the bytes that the call writes. -/
def extent : StorageCall → ℕ
  | writeBlock block bytes => block * blockSize + bytes.length
  | writeBytes offset bytes => offset + bytes.length
  | flushData => 0
  | flushMetadata => 0
  | sync => 0

theorem exists_extent_le (calls : List StorageCall) : ∃ n, ∀ call ∈ calls, call.extent ≤ n := by
  induction calls with
  | nil => exact ⟨0, fun _ hmem => absurd hmem List.not_mem_nil⟩
  | cons call rest ih =>
      obtain ⟨n, hn⟩ := ih
      refine ⟨max call.extent n, fun c hmem => ?_⟩
      rcases List.mem_cons.mp hmem with rfl | hrest
      · exact le_max_left ..
      · exact (hn c hrest).trans (le_max_right ..)

/-- A storage in memory that is large enough takes a call that its device does not fail. -/
theorem perform_memory {call : StorageCall} {s t : Storage} (hattempt : StorageM.attempt s = .ok () t)
    (hbackend : t.backend = .memory) (hsize : call.extent ≤ t.size) :
    ∃ u, call.perform s = .ok () u ∧ u.backend = .memory ∧ u.size = t.size ∧ u.faults = t.faults := by
  cases call with
  | writeBlock block data =>
      have hacc := Storage.writeBlockRefused_memory hbackend hsize
      refine ⟨(t.written (block * blockSize) data).record (.writeBlock block data), ?_, hbackend,
        rfl, rfl⟩
      exact ((bind_ok hattempt).trans (bind_ok (get_apply t))).trans (by rw [hacc]; rfl)
  | writeBytes offset data =>
      have hacc := Storage.writeRefused_memory hbackend hsize
      refine ⟨(t.written offset data).record (.writeBytes offset data), ?_, hbackend, rfl, rfl⟩
      exact ((bind_ok hattempt).trans (bind_ok (get_apply t))).trans (by rw [hacc]; rfl)
  | flushData => exact ⟨_, bind_ok hattempt, hbackend, rfl, rfl⟩
  | flushMetadata => exact ⟨_, bind_ok hattempt, hbackend, rfl, rfl⟩
  | sync => exact ⟨_, bind_ok hattempt, hbackend, rfl, rfl⟩

theorem performAll_memory {calls : List StorageCall} {s : Storage} {faults : List Bool}
    (hbackend : s.backend = .memory) (hsize : ∀ call ∈ calls, call.extent ≤ s.size)
    (hfaults : s.faults = List.replicate calls.length false ++ faults) :
    ∃ s', performAll calls s = .ok () s' ∧ s'.backend = .memory ∧ s'.size = s.size ∧
      s'.faults = faults := by
  induction calls generalizing s with
  | nil => exact ⟨s, rfl, hbackend, rfl, hfaults⟩
  | cons call rest ih =>
      have hattempt : StorageM.attempt s =
          .ok () { s with faults := List.replicate rest.length false ++ faults } := by
        unfold StorageM.attempt
        rw [hfaults]
        rfl
      obtain ⟨t, hrun, hbackend', hsize', hfaults'⟩ :=
        perform_memory hattempt hbackend (hsize call (List.mem_cons_self ..))
      obtain ⟨s', hrest, hmem, hsame, hdone⟩ := ih hbackend'
        (fun call hmem => hsize' ▸ hsize call (List.mem_cons_of_mem _ hmem)) hfaults'
      exact ⟨s', by rw [performAll_cons, bind_ok hrun, hrest], hmem, hsame.trans hsize', hdone⟩

theorem performAll_memory_of_no_faults {calls : List StorageCall} {s : Storage}
    (hbackend : s.backend = .memory) (hsize : ∀ call ∈ calls, call.extent ≤ s.size)
    (hfaults : s.faults = []) :
    ∃ s', performAll calls s = .ok () s' ∧ s'.backend = .memory ∧ s'.size = s.size ∧
      s'.faults = [] := by
  induction calls generalizing s with
  | nil => exact ⟨s, rfl, hbackend, rfl, hfaults⟩
  | cons call rest ih =>
      obtain ⟨t, hrun, hbackend', hsize', hfaults'⟩ := perform_memory (StorageM.attempt_ok hfaults)
        hbackend (hsize call (List.mem_cons_self ..))
      obtain ⟨s', hrest, hmem, hsame, hdone⟩ := ih hbackend'
        (fun call hmem => hsize' ▸ hsize call (List.mem_cons_of_mem _ hmem)) (hfaults'.trans hfaults)
      exact ⟨s', by rw [performAll_cons, bind_ok hrun, hrest], hmem, hsame.trans hsize', hdone⟩

end StorageCall

namespace LogManager

/-! ## The superblocks that a run writes -/

/-- The pages of the buffer lie behind the superblock. -/
theorem not_mem_pageCalls (lm : LogManager) (page : List UInt8) :
    .writeBytes (lm.logBase + blockSize) page ∉ lm.pageCalls := by
  intro hmem
  unfold pageCalls at hmem
  split at hmem
  · obtain ⟨i, -, heq⟩ := List.mem_map.mp hmem
    unfold pageCall at heq
    have hoff : lm.dataStart + (lm.bufferStart / logPSize % 2 ^ 32 + i) * logPSize =
        lm.logBase + blockSize := by
      injection heq
    unfold dataStart blockSize at hoff
    omega
  · cases hmem

/-- The page of a superblock write in a flush. -/
theorem end_of_mem_flushCalls {lm : LogManager} {page : List UInt8}
    (h : .writeBytes (lm.logBase + blockSize) page ∈ lm.flushCalls) :
    readLE page 32 4 = lm.writeOffset % 2 ^ 32 := by
  have hlast := (List.mem_append.mp h).resolve_left (lm.not_mem_pageCalls page)
  simp only [List.mem_cons, List.not_mem_nil, or_false, reduceCtorEq, false_or] at hlast
  unfold superCall at hlast
  have hpage : page = superBytes lm.ended.logsuper := by
    injection hlast
  rw [hpage, readLE_superBytes_ended]

end LogManager

namespace LogOp

open LogManager

theorem end_le_of_mem_roomCalls {lm : LogManager} {n : ℕ} {page : List UInt8}
    (h : .writeBytes (lm.logBase + blockSize) page ∈ lm.roomCalls n) :
    readLE page 32 4 ≤ lm.writeOffset := by
  unfold roomCalls at h
  split at h
  · rw [end_of_mem_flushCalls h]
    exact Nat.mod_le ..
  · cases h

/-- A superblock in a call of the writer does not reach behind the log. -/
theorem end_le_of_mem_calls {op : LogOp} {lm : LogManager} {page : List UInt8}
    (h : .writeBytes (lm.logBase + blockSize) page ∈ op.calls lm) :
    readLE page 32 4 ≤ (op.next lm).writeOffset := by
  have hstart := op.writeOffset_le_start lm
  have hnext := op.writeOffset_next lm
  have hroom : .writeBytes (lm.logBase + blockSize) page ∈ lm.roomCalls op.size →
      readLE page 32 4 ≤ (op.next lm).writeOffset := fun hmem => by
    have hle := end_le_of_mem_roomCalls hmem
    omega
  cases op with
  | append txid block data => exact hroom h
  | commit txid =>
      rcases List.mem_append.mp h with hfirst | hflush
      · exact hroom hfirst
      · rw [← logBase_placed] at hflush
        rw [end_of_mem_flushCalls hflush, hnext, ← writeOffset_placed]
        exact Nat.mod_le ..

theorem end_le_of_mem_callsAll {ops : List LogOp} {lm : LogManager} {page : List UInt8}
    (h : .writeBytes (lm.logBase + blockSize) page ∈ callsAll ops lm) :
    readLE page 32 4 ≤ (nextAll ops lm).writeOffset := by
  induction ops generalizing lm with
  | nil => cases h
  | cons op rest ih =>
      rcases List.mem_append.mp h with hop | hrest
      · exact (end_le_of_mem_calls hop).trans (writeOffset_le_nextAll rest _)
      · rw [← op.logBase_next] at hrest
        exact ih hrest

end LogOp

namespace Volume

open LogManager

/-! ## The calls before the first block -/

/-- The manager with the commit record in its buffer. -/
def atCommit (lm : LogManager) (txid : ℕ) (pages : List (ℕ × List UInt8)) : LogManager :=
  (LogOp.commit txid).placed (LogOp.nextAll (images txid pages) lm)

/-- The offset of the commit record of a commit. -/
def commitStart (lm : LogManager) (txid : ℕ) (pages : List (ℕ × List UInt8)) : ℕ :=
  (LogOp.commit txid).start (LogOp.nextAll (images txid pages) lm)

/-- The calls of a commit before the superblock that covers its commit record. -/
def uncovered (lm : LogManager) (txid : ℕ) (pages : List (ℕ × List UInt8)) : List StorageCall :=
  .flushData :: LogOp.callsAll (images txid pages) lm ++
    (LogOp.nextAll (images txid pages) lm).roomCalls lrdSize ++
    (atCommit lm txid pages).pageCalls ++ [.flushMetadata, .sync]

/-- The superblock is the last call of the journal. -/
theorem logCalls_eq (lm : LogManager) (txid : ℕ) (pages : List (ℕ × List UInt8)) :
    .flushData :: logCalls lm txid pages =
      uncovered lm txid pages ++ [(atCommit lm txid pages).superCall] := by
  have hcommit : LogOp.callsAll [.commit txid] (LogOp.nextAll (images txid pages) lm) =
      (LogOp.nextAll (images txid pages) lm).roomCalls lrdSize ++
        (atCommit lm txid pages).flushCalls := List.append_nil _
  unfold logCalls commitOps uncovered
  rw [LogOp.callsAll_append, hcommit]
  unfold flushCalls
  simp only [List.cons_append, List.append_assoc, List.nil_append]

/-- No superblock before the last one covers the commit record. -/
theorem end_lt_of_mem_uncovered {lm : LogManager} {txid : ℕ} {pages : List (ℕ × List UInt8)}
    {page : List UInt8} (h : .writeBytes (lm.logBase + blockSize) page ∈ uncovered lm txid pages) :
    readLE page 32 4 < commitStart lm txid pages + lrdSize := by
  have hbase : (LogOp.nextAll (images txid pages) lm).logBase = lm.logBase := LogOp.logBase_nextAll ..
  have hstart := (LogOp.commit txid).writeOffset_le_start (LogOp.nextAll (images txid pages) lm)
  have hle : readLE page 32 4 ≤ (LogOp.nextAll (images txid pages) lm).writeOffset := by
    unfold uncovered at h
    simp only [List.mem_append, List.mem_cons, List.not_mem_nil, or_false, reduceCtorEq,
      false_or] at h
    rcases h with (himages | hroom) | hpage
    · exact LogOp.end_le_of_mem_callsAll himages
    · rw [← hbase] at hroom
      exact LogOp.end_le_of_mem_roomCalls hroom
    · have hplaced : (atCommit lm txid pages).logBase = lm.logBase :=
        (LogOp.logBase_placed _ _).trans hbase
      rw [← hplaced] at hpage
      exact absurd hpage (not_mem_pageCalls _ _)
  unfold commitStart lrdSize
  omega

/-! ## Write-ahead order -/

/-- After `written`, the log holds the records, and a superblock that covers them has been
written. -/
def Logged (lm : LogManager) (records : List (ℕ × List UInt8)) (data : ℕ → UInt8)
    (written : List StorageCall) : Prop :=
  lm.Stored (StorageCall.effects written data) records ∧
    ∃ page, .writeBytes (lm.logBase + blockSize) page ∈ written ∧
      ∀ r ∈ records, r.1 + r.2.length ≤ readLE page 32 4

/-- Before the first block is written, the log has the records and was flushed since. -/
def WriteAhead (lm : LogManager) (records : List (ℕ × List UInt8)) (data : ℕ → UInt8)
    (calls : List StorageCall) : Prop :=
  ∀ before block bytes after, calls = before ++ .writeBlock block bytes :: after →
    (∀ call ∈ before, call.Unchecked) →
    ∃ written rest, before = written ++ rest ∧ (.sync ∈ rest ∨ .flushMetadata ∈ rest) ∧
      Logged lm records data written

/-- The storage calls of a commit of `v` on `storage`. -/
def callsOfCommit (v : Volume) (storage : Storage) : List StorageCall :=
  (final (commitPages (v.withStorage storage))).storage.trace.drop storage.trace.length

/-- Where a commit puts its commit record. -/
theorem commit_mem_recordsAt (lm : LogManager) (txid : ℕ) (pages : List (ℕ × List UInt8)) :
    (LogOp.commit txid).recordAt (LogOp.nextAll (images txid pages) lm) ∈
      LogOp.recordsAt (commitOps txid pages) lm := by
  unfold commitOps
  rw [LogOp.recordsAt_append]
  exact List.mem_append_right _ (List.mem_singleton_self _)

/-- A flush before the last superblock comes too early. -/
theorem not_logged_of_sync {lm : LogManager} {txid : ℕ} {pages : List (ℕ × List UInt8)}
    {data : ℕ → UInt8} {written rest : List StorageCall}
    (hsplit : .flushData :: logCalls lm txid pages = written ++ rest)
    (hsync : .sync ∈ rest ∨ .flushMetadata ∈ rest) :
    ¬ Logged lm (LogOp.recordsAt (commitOps txid pages) lm) data written := by
  rintro ⟨-, page, hmem, hcover⟩
  have hcommit := hcover _ (commit_mem_recordsAt lm txid pages)
  rw [LogOp.length_recordAt] at hcommit
  -- the superblock is the last call, so it is not among those written
  have hfront : written <+: uncovered lm txid pages := by
    rw [logCalls_eq] at hsplit
    have hne : rest ≠ [] := by
      rintro rfl
      rcases hsync with hmem | hmem <;> cases hmem
    have hlast : rest.dropLast ++ [rest.getLast hne] = rest := List.dropLast_append_getLast hne
    rw [← hlast, ← List.append_assoc] at hsplit
    exact ⟨rest.dropLast, (List.append_inj_left' hsplit rfl).symm⟩
  have hlt := end_lt_of_mem_uncovered (hfront.subset hmem)
  exact absurd hcommit (by
    show ¬ commitStart lm txid pages + lrdSize ≤ _
    omega)

/-- The storage fails one of the calls. -/
def Fails (storage : Storage) (calls : List StorageCall) : Prop :=
  failed (StorageCall.performAll calls storage) = true

/-- The calls that are issued of a list: all, or those before the first one that fails. -/
theorem issued_cases (calls : List StorageCall) (s : Storage) :
    (¬ Fails s calls ∧ (final (StorageCall.performAll calls s)).trace = s.trace ++ calls) ∨
      ∃ done call rest, Fails s calls ∧ calls = done ++ call :: rest ∧
        (final (StorageCall.performAll calls s)).trace = s.trace ++ done := by
  unfold Fails
  rcases StorageCall.performAll_cases calls s with ⟨s', hrun, -, htrace⟩ |
    ⟨e, s', done, call, rest, hrun, hsplit, -, htrace⟩
  · rw [hrun]
    exact Or.inl ⟨Bool.false_ne_true, htrace⟩
  · rw [hrun]
    exact Or.inr ⟨done, call, rest, rfl, hsplit, htrace⟩

/-- More calls may be issued after those that the storage took. -/
theorem issued_append {first : List StorageCall} {s : Storage} (second : List StorageCall)
    (h : ¬ Fails s first) :
    ∃ more, (final (StorageCall.performAll (first ++ second) s)).trace =
      s.trace ++ (first ++ more) := by
  rcases StorageCall.performAll_cases first s with ⟨t, hrun, -, htrace⟩ | ⟨e, _, _, _, _, hrun, -⟩
  · rw [StorageCall.performAll_append_ok hrun]
    rcases issued_cases second t with ⟨-, hissued⟩ | ⟨done, _, _, -, -, hissued⟩
    · exact ⟨second, by rw [hissued, htrace, List.append_assoc]⟩
    · exact ⟨done, by rw [hissued, htrace, List.append_assoc]⟩
  · unfold Fails at h
    rw [hrun] at h
    exact absurd rfl h

theorem final_append_of_fails {first : List StorageCall} {s : Storage} (h : Fails s first)
    (second : List StorageCall) :
    final (StorageCall.performAll (first ++ second) s) = final (StorageCall.performAll first s) := by
  unfold Fails at h
  cases hrun : StorageCall.performAll first s with
  | ok a t =>
      rw [hrun] at h
      cases h
  | error e t => rw [StorageCall.performAll_append_error hrun]

/-- Calls without a write of a block are in order. -/
theorem writeAhead_of_unchecked {calls : List StorageCall} (h : ∀ call ∈ calls, call.Unchecked)
    (lm : LogManager) (records : List (ℕ × List UInt8)) (data : ℕ → UInt8) :
    WriteAhead lm records data calls := by
  intro before block bytes after hsplit
  rw [hsplit] at h
  exact (h (.writeBlock block bytes) (List.mem_append_right _ (List.mem_cons_self ..))).elim

theorem unchecked_logCalls (lm : LogManager) (txid : ℕ) (pages : List (ℕ × List UInt8)) :
    ∀ call ∈ .flushData :: logCalls lm txid pages, call.Unchecked := by
  intro call hmem
  rcases List.mem_cons.mp hmem with rfl | hlog
  · trivial
  · exact LogOp.unchecked_callsAll _ _ call hlog

section Commit

variable {v : Volume} {lm : LogManager} {active : ActiveTxn} (hlog : v.log = some lm)
  (hactive : v.txMgr.active = some active) (hbuffer : lm.logBuffer.length = logBufferSize)
  (hsize : ∀ page ∈ cachedPages v.pageCache active.dirtyPages, page.2.length ≤ blockSize)

include hlog hactive hbuffer hsize

theorem callsOfCommit_eq (storage : Storage) :
    callsOfCommit v storage = (final (StorageCall.performAll
      (commitCalls lm active.txid (cachedPages v.pageCache active.dirtyPages)) storage)).trace.drop
        storage.trace.length := by
  unfold callsOfCommit
  rw [(issues_commitPages hlog hbuffer hactive hsize).final_storage]

/-- The first block is written right after the superblock. -/
theorem not_writeAhead_of_block {storage : Storage} {page : ℕ × List UInt8}
    {rest : List (ℕ × List UInt8)}
    (hpages : cachedPages v.pageCache active.dirtyPages = page :: rest)
    (htaken : ¬ Fails storage (.flushData :: logCalls lm active.txid (page :: rest) ++
      [.writeBlock page.1 page.2])) :
    ¬ WriteAhead lm
      (LogOp.recordsAt (commitOps active.txid (cachedPages v.pageCache active.dirtyPages)) lm)
      storage.data (callsOfCommit v storage) := by
  intro hahead
  rw [callsOfCommit_eq hlog hactive hbuffer hsize, hpages] at hahead
  have hlogged := @not_logged_of_sync lm active.txid (page :: rest)
  have hunchecked := unchecked_logCalls lm active.txid (page :: rest)
  unfold commitCalls at hahead
  generalize .flushData :: logCalls lm active.txid (page :: rest) = journal at *
  have hcalls : journal ++ pageWrites (page :: rest) ++ [.flushMetadata] =
      journal ++ [.writeBlock page.1 page.2] ++ (pageWrites rest ++ [.flushMetadata]) := by
    simp [pageWrites]
  obtain ⟨more, htrace⟩ := issued_append (pageWrites rest ++ [.flushMetadata]) htaken
  rw [hcalls, htrace, List.drop_left] at hahead
  obtain ⟨written, synced, hsplit, hsync, hdone⟩ :=
    hahead journal page.1 page.2 more (List.append_assoc ..) hunchecked
  exact hlogged hsplit hsync hdone

/-- **Write-ahead order** holds of a commit exactly when it writes no block: when none of
its pages is cached, or the storage fails a call up to the first block. -/
theorem writeAhead_iff_no_block (storage : Storage) :
    WriteAhead lm
        (LogOp.recordsAt (commitOps active.txid (cachedPages v.pageCache active.dirtyPages)) lm)
        storage.data (callsOfCommit v storage) ↔
      cachedPages v.pageCache active.dirtyPages = [] ∨
        Fails storage (.flushData ::
          logCalls lm active.txid (cachedPages v.pageCache active.dirtyPages) ++
          (pageWrites (cachedPages v.pageCache active.dirtyPages)).take 1) := by
  constructor
  · intro hahead
    by_contra hnot
    obtain ⟨hne, htaken⟩ := not_or.mp hnot
    obtain ⟨page, rest, hpages⟩ := List.exists_cons_of_ne_nil hne
    rw [hpages] at htaken
    exact not_writeAhead_of_block hlog hactive hbuffer hsize hpages htaken hahead
  · rw [callsOfCommit_eq hlog hactive hbuffer hsize]
    have hunchecked := unchecked_logCalls lm active.txid
      (cachedPages v.pageCache active.dirtyPages)
    intro hcases
    apply writeAhead_of_unchecked
    unfold commitCalls
    generalize cachedPages v.pageCache active.dirtyPages = pages at *
    generalize .flushData :: logCalls lm active.txid pages = journal at *
    rcases hcases with rfl | hfails
    · have hall : ∀ call ∈ journal ++ pageWrites [] ++ [.flushMetadata], call.Unchecked := by
        intro call hmem
        rcases List.mem_append.mp hmem with hold | hlast
        · exact hunchecked call (List.append_nil journal ▸ hold)
        · rw [List.mem_singleton.mp hlast]
          trivial
      rcases issued_cases (journal ++ pageWrites [] ++ [.flushMetadata]) storage with
        ⟨-, htrace⟩ | ⟨done, call, rest, -, hsplit, htrace⟩
      · rw [htrace, List.drop_left]
        exact hall
      · rw [htrace, List.drop_left]
        intro call' hmem
        refine hall call' ?_
        rw [hsplit]
        exact List.mem_append_left _ hmem
    · rcases issued_cases (journal ++ (pageWrites pages).take 1) storage with
        ⟨htaken, -⟩ | ⟨done, call, rest, -, hsplit, htrace⟩
      · exact absurd hfails htaken
      · have hcalls : journal ++ pageWrites pages ++ [.flushMetadata] =
            journal ++ (pageWrites pages).take 1 ++
              ((pageWrites pages).drop 1 ++ [.flushMetadata]) := by
          rw [← List.append_assoc, List.append_assoc journal (List.take ..), List.take_append_drop]
        rw [hcalls, final_append_of_fails hfails, htrace, List.drop_left]
        -- the call that failed is the block at the latest
        have hlen := congrArg List.length hsplit
        simp only [List.length_append, List.length_cons, List.length_take] at hlen
        have hfront : done <+: journal :=
          List.prefix_of_prefix_length_le ⟨_, hsplit.symm⟩ (List.prefix_append ..) (by omega)
        exact fun call' hmem => hunchecked call' (hfront.subset hmem)

end Commit

/-- A volume with a fresh log at block 16 and a transaction on the pages `dirtyPages`; a
zeroed page of block 5 is cached. -/
private def withDirty (dirtyPages : List (UInt32 × ℕ)) : Volume where
  ait2 := {}
  aggSize := 64
  log := some (.new {} (16 * blockSize))
  txMgr := { nextTxid := 2, active := some { txid := 1, dirtyPages } }
  storage := .newMemory 64
  pageCache := Lru.put (PageCache.new 256) (18, 5) { block := 5, data := zeros blockSize }
  bmap := none

private theorem cachedPages_withDirty :
    cachedPages (withDirty [(18, 5)]).pageCache [(18, 5)] = [(5, zeros blockSize)] := by
  have hpeek : (withDirty [(18, 5)]).pageCache.peek (18, 5) =
      some { block := 5, data := zeros blockSize } := Lru.peek_put_self ..
  rw [cachedPages_cons, hpeek]
  rfl

/-- A commit without dirty pages. -/
theorem writeAhead_without_pages :
    WriteAhead (.new {} (16 * blockSize))
      (LogOp.recordsAt (commitOps 1 (cachedPages (withDirty []).pageCache []))
        (.new {} (16 * blockSize)))
      (Storage.newMemory 64).data (callsOfCommit (withDirty []) (.newMemory 64)) :=
  (writeAhead_iff_no_block (show (withDirty []).log = _ from rfl)
    (show (withDirty []).txMgr.active = some { txid := 1 } from rfl) (length_zeros _)
    (fun _ hmem => absurd hmem List.not_mem_nil) (.newMemory 64)).mpr (Or.inl rfl)

/-- A commit of one page writes the block before anything is flushed behind the superblock. -/
theorem not_writeAhead_one_page :
    ¬ ∀ storage : Storage, WriteAhead (.new {} (16 * blockSize))
      (LogOp.recordsAt (commitOps 1 (cachedPages (withDirty [(18, 5)]).pageCache [(18, 5)]))
        (.new {} (16 * blockSize)))
      storage.data (callsOfCommit (withDirty [(18, 5)]) storage) := by
  intro hall
  have hpages := cachedPages_withDirty
  -- a storage that takes every call
  let calls : List StorageCall := .flushData :: logCalls (.new {} (16 * blockSize)) 1
    [(5, zeros blockSize)] ++ [.writeBlock 5 (zeros blockSize)]
  obtain ⟨size, hfits⟩ := StorageCall.exists_extent_le calls
  let storage : Storage :=
    { backend := .memory, size, data := fun _ => 0,
      faults := List.replicate calls.length false ++ [] }
  obtain ⟨s', hrun, -⟩ := StorageCall.performAll_memory (s := storage) rfl hfits rfl
  refine not_writeAhead_of_block (show (withDirty [(18, 5)]).log = _ from rfl)
    (show (withDirty [(18, 5)]).txMgr.active = some { txid := 1, dirtyPages := [(18, 5)] } from rfl)
    (length_zeros _) ?_ hpages ?_ (hall storage)
  · intro page hmem
    rw [hpages, List.mem_singleton] at hmem
    rw [hmem]
    exact (length_zeros _).le
  · unfold Fails
    rw [hrun]
    exact Bool.false_ne_true

end Volume

end JfsFuse
