import JfsFuse.Journal.Area
import JfsFuse.Volume.Core

/-!
# The storage calls of a commit

`TransactionManager::commit` flushes the data, has the journal write an after-image
of each dirty page and a commit record, writes the pages to their blocks and flushes
again.  Which calls these are is determined by the pages in the cache and the state of
the log manager, so a commit that fails has issued a part of the list.
-/

namespace JfsFuse

open ByteBuf Program

namespace Volume

/-! ## The calls of a program on a volume -/

/-- The volume on another storage. -/
def withStorage (v : Volume) (storage : Storage) : Volume :=
  { v with storage }

/-- From `v`, whatever its storage, the program issues `calls` and, when all of them are
taken, returns in a volume with `Q`; it stops at the first call that fails. -/
def Issues {α : Type} (x : VolM α) (v : Volume) (calls : List StorageCall)
    (Q : α → Volume → Prop) : Prop :=
  ∀ s : Storage,
    (∀ s', StorageCall.performAll calls s = .ok () s' →
      ∃ (a : α) (v' : Volume), x (v.withStorage s) = .ok a (v'.withStorage s') ∧ Q a v') ∧
    ∀ e s', StorageCall.performAll calls s = .error e s' →
      ∃ v' : Volume, x (v.withStorage s) = .error e (v'.withStorage s')

namespace Issues

variable {α β : Type} {x : VolM α} {v : Volume} {calls calls' : List StorageCall}
  {Q Q' : α → Volume → Prop}

theorem of_eq {a : α} {v' : Volume}
    (h : ∀ s, x (v.withStorage s) = .ok a (v'.withStorage s)) (hQ : Q a v') :
    Issues x v [] Q := by
  intro s
  refine ⟨fun s' hrun => ?_, fun e s' hrun => ?_⟩
  · cases hrun
    exact ⟨a, v', h s, hQ⟩
  · cases hrun

theorem mono (h : Issues x v calls Q) (hQ : ∀ a v', Q a v' → Q' a v') : Issues x v calls Q' := by
  intro s
  refine ⟨fun s' hrun => ?_, (h s).2⟩
  obtain ⟨a, v', hx, hpost⟩ := (h s).1 s' hrun
  exact ⟨a, v', hx, hQ a v' hpost⟩

theorem bind {f : α → VolM β} {R : β → Volume → Prop} (hx : Issues x v calls Q)
    (hf : ∀ a v', Q a v' → Issues (f a) v' calls' R) :
    Issues (x >>= f) v (calls ++ calls') R := by
  intro s
  rcases StorageCall.performAll_cases calls s with ⟨t, hfirst, -⟩ | ⟨e, t, _, _, _, hfirst, -⟩
  · obtain ⟨a, v', hrun, hpost⟩ := (hx s).1 t hfirst
    rw [StorageCall.performAll_append_ok hfirst, bind_ok hrun]
    exact hf a v' hpost t
  · obtain ⟨v', hrun⟩ := (hx s).2 e t hfirst
    rw [StorageCall.performAll_append_error hfirst, bind_error hrun]
    refine ⟨fun s' hsecond => ?_, fun e' s' hsecond => ?_⟩
    · cases hsecond
    · cases hsecond
      exact ⟨v', rfl⟩

/-- A first part without calls. -/
theorem nil_bind {f : α → VolM β} {R : β → Volume → Prop} (hx : Issues x v [] Q)
    (hf : ∀ a v', Q a v' → Issues (f a) v' calls R) : Issues (x >>= f) v calls R :=
  bind hx hf

/-- A last part without calls. -/
theorem bind_nil {f : α → VolM β} {R : β → Volume → Prop} (hx : Issues x v calls Q)
    (hf : ∀ a v', Q a v' → Issues (f a) v' [] R) : Issues (x >>= f) v calls R := by
  have hboth := bind hx hf
  rwa [List.append_nil] at hboth

/-- A program that reads the volume first. -/
theorem get_bind {f : Volume → VolM α}
    (h : ∀ s, Issues (f (v.withStorage s)) v calls Q) :
    Issues (do let w ← get; f w) v calls Q := fun s => by
  rw [bind_ok (get_apply _)]
  exact h s s

theorem onStorage (call : StorageCall) :
    Issues (Volume.onStorage call.perform) v [call] fun _ v' => v' = v := by
  intro s
  refine ⟨fun s' hrun => ?_, fun e s' hrun => ?_⟩
  · obtain ⟨a, t, hcall, hrest⟩ := of_bind_ok hrun
    cases hrest
    exact ⟨(), v, zoom_ok hcall, rfl⟩
  · rw [StorageCall.performAll_cons] at hrun
    cases hcall : call.perform s with
    | error e' t =>
        rw [bind_error hcall] at hrun
        cases hrun
        exact ⟨v, zoom_error hcall⟩
    | ok a t =>
        rw [bind_ok hcall] at hrun
        cases hrun

/-- A program of the log manager. -/
theorem onLog {y : LogM Unit} {lm lm' : LogManager} (hlog : v.log = some lm)
    (hy : JfsFuse.Issues y lm calls lm') :
    Issues (Volume.onLog y) v calls fun _ v' => v' = { v with log := some lm' } := by
  intro s
  have hsome : (v.withStorage s).log = some lm := hlog
  have hstorage : (v.withStorage s).storage = s := rfl
  refine ⟨fun s' hrun => ?_, fun e s' hrun => ?_⟩
  · refine ⟨(), { v with log := some lm' }, ?_, rfl⟩
    unfold Volume.onLog
    simp only [hsome, hstorage, (hy s).1 s' hrun]
    rfl
  · obtain ⟨lm'', hx⟩ := (hy s).2 e s' hrun
    refine ⟨{ v with log := some lm'' }, ?_⟩
    unfold Volume.onLog
    simp only [hsome, hstorage, hx]
    rfl

/-- Cleaning up after a failure issues no call. -/
theorem orAbortPages (hx : Issues x v calls Q) (dirtyPages : List (UInt32 × ℕ)) :
    Issues (Volume.orAbortPages dirtyPages x) v calls Q := by
  intro s
  refine ⟨fun s' hrun => ?_, fun e s' hrun => ?_⟩
  · obtain ⟨a, v', hok, hpost⟩ := (hx s).1 s' hrun
    exact ⟨a, v', tryCatch_ok hok, hpost⟩
  · obtain ⟨v', herror⟩ := (hx s).2 e s' hrun
    refine ⟨{ v' with pageCache := v'.pageCache.abortPages dirtyPages }, ?_⟩
    unfold Volume.orAbortPages
    rw [tryCatch_error herror]
    rfl

/-- The storage after a run. -/
theorem final_storage (h : Issues x v calls Q) (s : Storage) :
    (final (x (v.withStorage s))).storage = final (StorageCall.performAll calls s) := by
  cases hcalls : StorageCall.performAll calls s with
  | ok a s' =>
      obtain ⟨b, v', hrun, -⟩ := (h s).1 s' hcalls
      rw [hrun]
      rfl
  | error e s' =>
      obtain ⟨v', hrun⟩ := (h s).2 e s' hcalls
      rw [hrun]
      rfl

end Issues

/-! ## The pages of a commit -/

/-- Block and data of the pages of `keys` that are cached. -/
def cachedPages (cache : PageCache) (keys : List (UInt32 × ℕ)) : List (ℕ × List UInt8) :=
  keys.filterMap fun key => (cache.peek key).map fun page => (key.2, page.data)

theorem cachedPages_congr {cache cache' : PageCache} (h : ∀ key, cache'.peek key = cache.peek key)
    (keys : List (UInt32 × ℕ)) : cachedPages cache' keys = cachedPages cache keys := by
  unfold cachedPages
  simp only [h]

/-- The after-images of pages. -/
def images (txid : ℕ) (pages : List (ℕ × List UInt8)) : List LogOp :=
  pages.map fun page => .append txid page.1 page.2

/-- The calls of the log manager in a commit of transaction `txid`. -/
def commitOps (txid : ℕ) (pages : List (ℕ × List UInt8)) : List LogOp :=
  images txid pages ++ [.commit txid]

/-- The calls that write the pages to their blocks. -/
def pageWrites (pages : List (ℕ × List UInt8)) : List StorageCall :=
  pages.map fun page => .writeBlock page.1 page.2

/-- The calls of the log manager `lm` in a commit. -/
def logCalls (lm : LogManager) (txid : ℕ) (pages : List (ℕ × List UInt8)) : List StorageCall :=
  LogOp.callsAll (commitOps txid pages) lm

/-- The storage calls of a commit with a journal. -/
def commitCalls (lm : LogManager) (txid : ℕ) (pages : List (ℕ × List UInt8)) : List StorageCall :=
  .flushData :: logCalls lm txid pages ++ pageWrites pages ++ [.flushMetadata]

/-- `v'` is `v` with a log manager `log`; the cache may be in another order of use. -/
def Reordered (v : Volume) (log : Option LogManager) (v' : Volume) : Prop :=
  ∃ cache, (∀ key, cache.peek key = v.pageCache.peek key) ∧
    v' = { v with log := log, pageCache := cache }

theorem issues_getPage (v : Volume) (key : UInt32 × ℕ) :
    Issues (getPage key.1 key.2) v [] fun page v' =>
      page = v.pageCache.peek key ∧ v' = { v with pageCache := (v.pageCache.get key).2 } :=
  Issues.of_eq (fun _ => rfl) ⟨rfl, rfl⟩

theorem cachedPages_cons (cache : PageCache) (key : UInt32 × ℕ) (rest : List (UInt32 × ℕ)) :
    cachedPages cache (key :: rest) =
      (match cache.peek key with
        | some page => [(key.2, page.data)]
        | none => []) ++ cachedPages cache rest := by
  unfold cachedPages
  rw [List.filterMap_cons]
  cases cache.peek key <;> rfl

theorem image_size_le (txid block : ℕ) {data : List UInt8} (h : data.length ≤ blockSize) :
    (LogOp.append txid block data).size ≤ logBufferSize := by
  show lrdSize + data.length ≤ logBufferSize
  unfold logBufferSize logPSize lrdSize
  unfold blockSize at h
  omega

theorem issues_journalPages {v : Volume} {lm : LogManager} (hlog : v.log = some lm)
    (hbuffer : lm.logBuffer.length = logBufferSize) (txid : ℕ) {keys : List (UInt32 × ℕ)}
    (hsize : ∀ page ∈ cachedPages v.pageCache keys, page.2.length ≤ blockSize) :
    Issues (journalPages txid keys) v
      (LogOp.callsAll (images txid (cachedPages v.pageCache keys)) lm)
      fun _ v' => v.Reordered
        (some (LogOp.nextAll (images txid (cachedPages v.pageCache keys)) lm)) v' := by
  induction keys generalizing v lm with
  | nil =>
      refine Issues.of_eq (fun _ => rfl) ⟨v.pageCache, fun _ => rfl, ?_⟩
      show v = { v with log := some lm }
      rw [← hlog]
  | cons key rest ih =>
      rw [cachedPages_cons] at hsize ⊢
      have hget := fun k => v.pageCache.peek_get key k
      refine Issues.nil_bind (issues_getPage v key) ?_
      rintro found v₁ ⟨rfl, rfl⟩
      cases hpage : v.pageCache.peek key with
      | none =>
          rw [hpage] at hsize
          have hrest := ih (v := { v with pageCache := (v.pageCache.get key).2 }) hlog hbuffer
            (by rw [cachedPages_congr hget]; exact hsize)
          rw [cachedPages_congr hget] at hrest
          refine hrest.mono ?_
          rintro _ v' ⟨cache, hpeek, rfl⟩
          exact ⟨cache, fun k => (hpeek k).trans (hget k), rfl⟩
      | some page =>
          rw [hpage] at hsize
          have hfits : (LogOp.append txid key.2 page.data).size ≤ logBufferSize :=
            image_size_le txid key.2 (hsize _ (List.mem_append_left _ (List.mem_singleton_self _)))
          have hop := (LogOp.append txid key.2 page.data).issues_perform hbuffer hfits
          have hlen := (LogOp.append txid key.2 page.data).length_logBuffer_next hbuffer hfits
          refine Issues.bind (Issues.onLog (v := { v with pageCache := (v.pageCache.get key).2 })
            hlog hop) ?_
          rintro _ v₁ rfl
          have hrest := ih (v := { v with
              log := some ((LogOp.append txid key.2 page.data).next lm)
              pageCache := (v.pageCache.get key).2 }) rfl hlen
            (by rw [cachedPages_congr hget]
                exact fun p hp => hsize p (List.mem_append_right _ hp))
          rw [cachedPages_congr hget] at hrest
          refine hrest.mono ?_
          rintro _ v' ⟨cache, hpeek, rfl⟩
          exact ⟨cache, fun k => (hpeek k).trans (hget k), rfl⟩

theorem issues_writePages (v : Volume) (keys : List (UInt32 × ℕ)) :
    Issues (writePages keys) v (pageWrites (cachedPages v.pageCache keys))
      fun written v' => written = (cachedPages v.pageCache keys).length ∧
        v.Reordered v.log v' := by
  induction keys generalizing v with
  | nil => exact Issues.of_eq (fun _ => rfl) ⟨rfl, v.pageCache, fun _ => rfl, rfl⟩
  | cons key rest ih =>
      rw [cachedPages_cons]
      have hget := fun k => v.pageCache.peek_get key k
      have hrest := ih { v with pageCache := (v.pageCache.get key).2 }
      rw [cachedPages_congr hget] at hrest
      refine Issues.nil_bind (issues_getPage v key) ?_
      rintro found v₁ ⟨rfl, rfl⟩
      cases hpage : v.pageCache.peek key with
      | none =>
          refine hrest.mono ?_
          rintro written v' ⟨hwritten, cache, hpeek, rfl⟩
          exact ⟨hwritten, cache, fun k => (hpeek k).trans (hget k), rfl⟩
      | some page =>
          refine (Issues.bind (Issues.onStorage (.writeBlock key.2 page.data)) ?_ :
            Issues _ _ ([.writeBlock key.2 page.data] ++ _) _)
          rintro _ v₁ rfl
          refine Issues.bind_nil hrest ?_
          rintro written v' ⟨rfl, cache, hpeek, rfl⟩
          exact Issues.of_eq (fun _ => rfl)
            ⟨rfl, cache, fun k => (hpeek k).trans (hget k), rfl⟩

/-- The second half of a commit: the pages and a flush. -/
theorem issues_writeBlocks {v v' : Volume} {log : Option LogManager} (hv : v.Reordered log v')
    (keys : List (UInt32 × ℕ)) :
    Issues (do
      let written ← orAbortPages keys (writePages keys)
      orAbortPages keys (onStorage StorageM.flushMetadata)
      return written) v' (pageWrites (cachedPages v.pageCache keys) ++ [.flushMetadata])
      fun written w => written = (cachedPages v.pageCache keys).length ∧ v.Reordered log w := by
  obtain ⟨cache, hpeek, rfl⟩ := hv
  have hpages := (issues_writePages { v with log := log, pageCache := cache } keys).orAbortPages keys
  rw [cachedPages_congr hpeek] at hpages
  refine Issues.bind hpages ?_
  rintro written w ⟨hwritten, cache', hpeek', rfl⟩
  refine Issues.bind_nil ((Issues.onStorage .flushMetadata).orAbortPages keys) ?_
  rintro _ w rfl
  refine Issues.of_eq (fun _ => rfl) ⟨hwritten, cache', fun key => ?_, rfl⟩
  exact (hpeek' key).trans (hpeek key)

/-- The calls of a commit on a volume without a log. -/
theorem issues_commitPages_of_no_log {v : Volume} (hlog : v.log = none) {active : ActiveTxn}
    (hactive : v.txMgr.active = some active) :
    Issues commitPages v
      (.flushData :: (pageWrites (cachedPages v.pageCache active.dirtyPages) ++ [.flushMetadata]))
      fun _ v' => v'.bmap = v.bmap := by
  refine Issues.get_bind fun s => ?_
  have hsome : (v.withStorage s).txMgr.active = some active := hactive
  rw [hsome]
  have hclose : Issues (modifyTxMgr fun txMgr => { txMgr with active := none }) v []
      fun _ v' => v' = { v with txMgr := { v.txMgr with active := none } } :=
    Issues.of_eq (fun _ => rfl) rfl
  refine Issues.nil_bind hclose ?_
  rintro _ w rfl
  have hback : Issues (writeBack active) { v with txMgr := { v.txMgr with active := none } }
      ([.flushData] ++ (pageWrites (cachedPages v.pageCache active.dirtyPages) ++ [.flushMetadata]))
      fun _ v' => v'.bmap = v.bmap := by
    refine Issues.bind ((Issues.onStorage .flushData).orAbortPages _) fun _ v₁ hv₁ => ?_
    rw [hv₁]
    refine Issues.get_bind fun s => ?_
    have hnone : ¬ (Volume.withStorage { v with txMgr := { v.txMgr with active := none } } s).log.isSome
        = true := by
      show ¬ v.log.isSome = true
      rw [hlog]
      simp
    simp only
    rw [if_neg hnone]
    have hsame : Reordered { v with txMgr := { v.txMgr with active := none } } v.log
        { v with txMgr := { v.txMgr with active := none } } := ⟨v.pageCache, fun _ => rfl, rfl⟩
    refine (issues_writeBlocks hsame active.dirtyPages).mono ?_
    rintro _ _ ⟨-, cache, -, rfl⟩
    rfl
  refine Issues.bind_nil hback fun written w hw => ?_
  have hdone : ∀ s, (do
      releasePages active.dirtyPages
      modifyTxMgr fun txMgr => { txMgr with lastCommitted := active.txid }
      return { pagesWritten := written, txid := active.txid } : VolM CommitResult) (w.withStorage s) =
        .ok { pagesWritten := written, txid := active.txid } (Volume.withStorage { w with
          pageCache := active.dirtyPages.foldl (fun cache page =>
            PageCache.release (cache.unpinPage page.1 page.2) page.1 page.2) w.pageCache
          txMgr := { w.txMgr with lastCommitted := active.txid } } s) := fun _ => rfl
  exact Issues.of_eq hdone hw

section Commit

variable {v : Volume} {lm : LogManager} (hlog : v.log = some lm)
  (hbuffer : lm.logBuffer.length = logBufferSize)

include hlog hbuffer

/-- The first half of a commit: after-images and a commit record. -/
theorem issues_journal (txid : ℕ) {keys : List (UInt32 × ℕ)}
    (hsize : ∀ page ∈ cachedPages v.pageCache keys, page.2.length ≤ blockSize) :
    Issues (do
      journalPages txid keys
      onLog (LogManager.commitTransaction txid)) v
      (logCalls lm txid (cachedPages v.pageCache keys))
      fun _ v' => v.Reordered
        (some (LogOp.nextAll (commitOps txid (cachedPages v.pageCache keys)) lm)) v' := by
  have hjournal := issues_journalPages hlog hbuffer txid hsize
  have hlen : (LogOp.nextAll (images txid (cachedPages v.pageCache keys)) lm).logBuffer.length =
      logBufferSize := by
    refine LogOp.length_logBuffer_nextAll (fun op hmem => ?_) hbuffer
    obtain ⟨page, hpage, rfl⟩ := List.mem_map.mp hmem
    exact image_size_le txid page.1 (hsize page hpage)
  have hcommit := (LogOp.commit txid).issues_perform hlen
    (show lrdSize ≤ logBufferSize by decide)
  unfold logCalls commitOps
  rw [LogOp.callsAll_append, LogOp.nextAll_append]
  refine Issues.bind hjournal ?_
  rintro _ _ ⟨cache, hpeek, rfl⟩
  have hcalls : LogOp.callsAll [.commit txid]
      (LogOp.nextAll (images txid (cachedPages v.pageCache keys)) lm) =
      (LogOp.commit txid).calls (LogOp.nextAll (images txid (cachedPages v.pageCache keys)) lm) :=
    List.append_nil _
  rw [hcalls]
  refine (Issues.onLog rfl hcommit).mono ?_
  rintro _ _ rfl
  exact ⟨cache, hpeek, rfl⟩

/-- **The calls of a commit.** -/
theorem issues_writeBack {active : ActiveTxn}
    (hsize : ∀ page ∈ cachedPages v.pageCache active.dirtyPages, page.2.length ≤ blockSize) :
    Issues (writeBack active) v
      (commitCalls lm active.txid (cachedPages v.pageCache active.dirtyPages))
      fun written v' => written = (cachedPages v.pageCache active.dirtyPages).length ∧
        v.Reordered (some (LogOp.nextAll
          (commitOps active.txid (cachedPages v.pageCache active.dirtyPages)) lm)) v' := by
  have hjournal := (issues_journal hlog hbuffer active.txid hsize).orAbortPages active.dirtyPages
  unfold commitCalls
  rw [List.append_assoc]
  refine (Issues.bind ((Issues.onStorage .flushData).orAbortPages _) ?_ :
    Issues _ _ ([.flushData] ++ (logCalls lm active.txid _ ++ _)) _)
  intro _ v₁ hv₁
  rw [hv₁]
  refine Issues.get_bind fun s => ?_
  have hsome : (v.withStorage s).log.isSome = true := by
    show v.log.isSome = true
    rw [hlog]
    rfl
  simp only
  rw [if_pos hsome]
  refine Issues.bind hjournal fun _ v' hv' => ?_
  exact issues_writeBlocks hv' active.dirtyPages

/-- The volume once a commit has closed its transaction and dropped the pages. -/
def closed (v : Volume) (active : ActiveTxn) (cache : PageCache) (log : Option LogManager) :
    Volume :=
  { v with
    log
    txMgr := { v.txMgr with active := none, lastCommitted := active.txid }
    pageCache := active.dirtyPages.foldl (fun cache page =>
      PageCache.release (cache.unpinPage page.1 page.2) page.1 page.2) cache }

theorem issues_commitPages {active : ActiveTxn} (hactive : v.txMgr.active = some active)
    (hsize : ∀ page ∈ cachedPages v.pageCache active.dirtyPages, page.2.length ≤ blockSize) :
    Issues commitPages v (commitCalls lm active.txid (cachedPages v.pageCache active.dirtyPages))
      fun _ v' => ∃ cache, (∀ key, cache.peek key = v.pageCache.peek key) ∧
        v' = v.closed active cache (some (LogOp.nextAll
          (commitOps active.txid (cachedPages v.pageCache active.dirtyPages)) lm)) := by
  refine Issues.get_bind fun s => ?_
  have hsome : (v.withStorage s).txMgr.active = some active := hactive
  rw [hsome]
  have hclose : Issues (modifyTxMgr fun txMgr => { txMgr with active := none }) v []
      fun _ v' => v' = { v with txMgr := { v.txMgr with active := none } } :=
    Issues.of_eq (fun _ => rfl) rfl
  refine Issues.nil_bind hclose ?_
  rintro _ _ rfl
  refine Issues.bind_nil (issues_writeBack (v := { v with txMgr := { v.txMgr with active := none } })
    hlog hbuffer hsize) ?_
  rintro written _ ⟨-, cache, hpeek, rfl⟩
  exact Issues.of_eq (fun _ => rfl) ⟨cache, hpeek, rfl⟩

end Commit

end Volume

end JfsFuse
