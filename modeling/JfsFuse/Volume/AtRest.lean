import Mathlib.Data.List.Find
import JfsFuse.Volume.OneFile

/-!
# A volume between two calls

After a call that was committed no transaction is open and nothing is cached, so what an inode
holds can be read off the blocks.  On a device in memory that does not fail, and as long as the
device has room behind the journal, a commit returns: then a call returns when its body does, and
the blocks hold the pages that the body has cached.
-/

namespace JfsFuse

open ByteBuf Program

/-! ## The room of the journal -/

namespace LogManager

@[simp] theorem dataStart_roomed (lm : LogManager) (n : ℕ) : (lm.roomed n).dataStart = lm.dataStart := by
  unfold roomed
  split <;> rfl

/-- A flush writes at most to the end of the page with the last record. -/
theorem extent_le_of_mem_flushCalls {lm : LogManager} {call : StorageCall} (h : call ∈ lm.flushCalls) :
    call.extent ≤ lm.dataStart + lm.writeOffset + logPSize := by
  unfold flushCalls pageCalls at h
  rcases List.mem_append.mp h with hpage | hlast
  · split at hpage
    · obtain ⟨i, hi, rfl⟩ := List.mem_map.mp hpage
      have hlt : i < lm.dirtyPages := List.mem_range.mp hi
      have hstart := lm.bufferStart_add
      have hlen : (slice lm.logBuffer (i * logPSize) logPSize).length ≤ logPSize := List.length_take_le ..
      show lm.dataStart + (lm.bufferStart / logPSize % 2 ^ 32 + i) * logPSize +
        (slice lm.logBuffer (i * logPSize) logPSize).length ≤ _
      unfold dirtyPages at hlt
      unfold logPSize at hlt hlen ⊢
      omega
    · cases hpage
  · simp only [List.mem_cons, List.not_mem_nil, or_false] at hlast
    rcases hlast with rfl | rfl | rfl
    · exact Nat.zero_le _
    · exact Nat.zero_le _
    · have hlen : (superBytes lm.ended.logsuper).length = logPSize := length_superBytes _
      show lm.logBase + blockSize + (superBytes lm.ended.logsuper).length ≤ _
      rw [hlen]
      unfold dataStart logPSize blockSize
      omega

end LogManager

namespace LogOp

open LogManager

@[simp] theorem dataStart_placed (op : LogOp) (lm : LogManager) : (op.placed lm).dataStart = lm.dataStart := by
  unfold LogManager.dataStart
  rw [op.logBase_placed]

@[simp] theorem dataStart_next (op : LogOp) (lm : LogManager) : (op.next lm).dataStart = lm.dataStart := by
  unfold LogManager.dataStart
  rw [op.logBase_next]

theorem writeOffset_next_le (op : LogOp) (lm : LogManager) :
    (op.next lm).writeOffset ≤ lm.writeOffset + 2 * op.size := by
  rw [op.writeOffset_next]
  unfold start
  rw [writeOffset_roomed]
  unfold LogState.startOf
  split
  · unfold logBufferSize logPSize at *
    omega
  · omega

theorem extent_le_of_mem_calls {op : LogOp} {lm : LogManager} {call : StorageCall} (h : call ∈ op.calls lm) :
    call.extent ≤ lm.dataStart + (op.next lm).writeOffset + logPSize := by
  have hstart := op.writeOffset_le_start lm
  have hnext := op.writeOffset_next lm
  have hroom : call ∈ lm.roomCalls op.size →
      call.extent ≤ lm.dataStart + (op.next lm).writeOffset + logPSize := by
    intro hmem
    unfold roomCalls at hmem
    split at hmem
    · have := extent_le_of_mem_flushCalls hmem
      omega
    · cases hmem
  cases op with
  | append txid block data => exact hroom h
  | commit txid =>
      rcases List.mem_append.mp h with hfirst | hflush
      · exact hroom hfirst
      · have hle := extent_le_of_mem_flushCalls hflush
        rwa [dataStart_placed, writeOffset_placed, ← hnext] at hle

theorem extent_le_of_mem_callsAll {ops : List LogOp} {lm : LogManager} {call : StorageCall}
    (h : call ∈ callsAll ops lm) : call.extent ≤ lm.dataStart + (nextAll ops lm).writeOffset + logPSize := by
  induction ops generalizing lm with
  | nil => cases h
  | cons op rest ih =>
      rcases List.mem_append.mp h with hop | hrest
      · have hle := extent_le_of_mem_calls hop
        have hlater := writeOffset_le_nextAll rest (op.next lm)
        show call.extent ≤ lm.dataStart + (nextAll rest (op.next lm)).writeOffset + logPSize
        omega
      · have hle := ih hrest
        rwa [dataStart_next] at hle

theorem writeOffset_nextAll_le (ops : List LogOp) (lm : LogManager) :
    (nextAll ops lm).writeOffset ≤ lm.writeOffset + 2 * (ops.map size).sum := by
  induction ops generalizing lm with
  | nil => exact Nat.le_add_right _ _
  | cons op rest ih =>
      have hnext := op.writeOffset_next_le lm
      have hrest := ih (op.next lm)
      rw [List.map_cons, List.sum_cons]
      show (nextAll rest (op.next lm)).writeOffset ≤ _
      omega

end LogOp

namespace Volume

/-! ## Commits -/

/-- Up to four pages and the commit record take no more than this of the journal. -/
def commitRoom : ℕ := 5 * logBufferSize

/-- The device is in memory and does not fail, it holds the volume with its allocation map, and it
has room for `n` commits behind the end of the journal. -/
structure Working (n : ℕ) (v : Volume) : Prop extends Calm v where
  backend : v.storage.backend = .memory
  map : ∀ m, v.bmap = some m → m.dmapStart < v.aggSize
  log : ∀ lm, v.log = some lm → lm.logBuffer.length = logBufferSize ∧
    lm.dataStart + lm.writeOffset + n * commitRoom + logPSize ≤ v.storage.size

theorem length_cachedPages_le (cache : PageCache) (keys : List (UInt32 × ℕ)) :
    (cachedPages cache keys).length ≤ keys.length :=
  List.length_filterMap_le ..

/-- The records of a commit. -/
theorem sum_size_commitOps_le (txid : ℕ) {pages : List (ℕ × List UInt8)}
    (hlen : ∀ page ∈ pages, page.2.length = blockSize) (hcount : pages.length ≤ 4) :
    2 * ((commitOps txid pages).map LogOp.size).sum ≤ commitRoom := by
  have himages : ((images txid pages).map LogOp.size).sum = pages.length * (lrdSize + blockSize) := by
    clear hcount
    induction pages with
    | nil => exact (Nat.zero_mul _).symm
    | cons page rest ih =>
        have hpage := hlen page (List.mem_cons_self ..)
        have hrest := ih fun p hp => hlen p (List.mem_cons_of_mem _ hp)
        unfold images at hrest ⊢
        rw [List.map_cons, List.map_cons, List.sum_cons, hrest, List.length_cons, Nat.succ_mul, ← hpage]
        exact Nat.add_comm ..
  unfold commitOps
  rw [List.map_append, List.sum_append, himages]
  show 2 * (pages.length * (lrdSize + blockSize) + (lrdSize + 0)) ≤ commitRoom
  unfold lrdSize blockSize commitRoom logBufferSize logPSize
  omega

/-- A commit that returned left the device and the cache in order. -/
theorem Calm.of_commit {v v' : Volume} (h : v.Calm) {active : ActiveTxn} (hactive : v.txMgr.active = some active)
    {result : CommitResult} (hcommit : commitTransaction v = .ok result v') : v'.Calm := by
  have hdevice := (endures_commit v result v' hcommit).storage
  obtain ⟨w, storage, hcommitted, rfl, -⟩ := of_commitTransaction_ok hactive hcommit
  refine ⟨hdevice.faults h.faults, ?_, fun key page hpage => ?_⟩
  · show w.aggSize * blockSize ≤ storage.size
    rw [hcommitted.rest.2.2.1, hdevice.size]
    exact h.size
  · have hkept := hcommitted.pages key
    split at hkept
    · exact absurd (hkept.symm.trans hpage) (by simp)
    · exact h.pages key page (hkept.symm.trans hpage)

namespace Working

variable {n : ℕ} {v : Volume}

theorem extent_le_of_page (h : v.Working n) {active : ActiveTxn} (hkeys : ∀ key ∈ active.dirtyPages, key.2 < v.aggSize)
    {call : StorageCall} (hcall : call ∈ pageWrites (cachedPages v.pageCache active.dirtyPages)) :
    call.extent ≤ v.storage.size := by
  obtain ⟨⟨block, data⟩, hcached, rfl⟩ := List.mem_map.mp hcall
  obtain ⟨ino, page, hkey, hpeek, rfl⟩ := of_mem_cachedPages hcached
  have hblock := (Nat.mul_le_mul_right blockSize (Nat.succ_le_of_lt (hkeys _ hkey))).trans h.size
  rw [Nat.succ_mul] at hblock
  show block * blockSize + page.data.length ≤ v.storage.size
  rwa [h.pages _ page hpeek]

/-- The pages part of a commit returns, and adds its records to the journal. -/
theorem exists_commitPages (h : v.Working (n + 1)) {active : ActiveTxn} (hactive : v.txMgr.active = some active)
    (hkeys : ∀ key ∈ active.dirtyPages, key.2 < v.aggSize) (hcount : active.dirtyPages.length ≤ 4) :
    ∃ result w, commitPages v = .ok result w ∧ w.bmap = v.bmap ∧ w.storage.Steady ∧
      w.storage.size = v.storage.size ∧ ∀ lm', w.log = some lm' → lm'.logBuffer.length = logBufferSize ∧
        lm'.dataStart + lm'.writeOffset + n * commitRoom + logPSize ≤ v.storage.size := by
  have hlen := h.toCalm.length_cachedPages active.dirtyPages
  cases hlog : v.log with
  | none =>
      have hcalls : ∀ call ∈ (.flushData :: (pageWrites (cachedPages v.pageCache active.dirtyPages) ++
          [.flushMetadata]) : List StorageCall), call.extent ≤ v.storage.size := by
        intro call hcall
        rcases List.mem_cons.mp hcall with rfl | hcall
        · exact Nat.zero_le _
        rcases List.mem_append.mp hcall with hpage | hflush
        · exact h.extent_le_of_page hkeys hpage
        · cases List.mem_singleton.mp hflush
          exact Nat.zero_le _
      obtain ⟨s, hperform, hbackend, hsize, hfaults⟩ :=
        StorageCall.performAll_memory_of_no_faults h.backend hcalls h.faults
      obtain ⟨result, w, hrun, hmap⟩ := (issues_commitPages_of_no_log hlog hactive v.storage).1 s hperform
      have hnone : (w.withStorage s).log = none := by
        have hbase := (committed_of_commitPages hactive hrun).log
        rwa [hlog, Option.map_none, Option.map_eq_none_iff] at hbase
      exact ⟨result, _, hrun, hmap, ⟨hbackend, hfaults⟩, hsize,
        fun lm' hlm' => absurd (hnone.symm.trans hlm') (by simp)⟩
  | some lm =>
      obtain ⟨hbuffer, hroom⟩ := h.log lm hlog
      have hops := sum_size_commitOps_le active.txid hlen ((length_cachedPages_le ..).trans hcount)
      have hend := LogOp.writeOffset_nextAll_le
        (commitOps active.txid (cachedPages v.pageCache active.dirtyPages)) lm
      rw [Nat.succ_mul] at hroom
      have hcalls : ∀ call ∈ commitCalls lm active.txid (cachedPages v.pageCache active.dirtyPages),
          call.extent ≤ v.storage.size := by
        intro call hcall
        rcases List.mem_append.mp hcall with hcall | hflush
        · rcases List.mem_append.mp hcall with hcall | hpage
          · rcases List.mem_cons.mp hcall with rfl | hlogged
            · exact Nat.zero_le _
            · have hle := LogOp.extent_le_of_mem_callsAll hlogged
              omega
          · exact h.extent_le_of_page hkeys hpage
        · cases List.mem_singleton.mp hflush
          exact Nat.zero_le _
      obtain ⟨s, hperform, hbackend, hsize, hfaults⟩ :=
        StorageCall.performAll_memory_of_no_faults h.backend hcalls h.faults
      obtain ⟨result, w, hrun, cache, -, rfl⟩ := (issues_commitPages hlog hbuffer hactive
        (fun page hpage => (hlen page hpage).le) v.storage).1 s hperform
      refine ⟨result, _, hrun, rfl, ⟨hbackend, hfaults⟩, hsize, fun lm' hlm' => ?_⟩
      cases hlm'
      have hsized : ∀ op ∈ commitOps active.txid (cachedPages v.pageCache active.dirtyPages),
          op.size ≤ logBufferSize := by
        intro op hop
        rcases List.mem_append.mp hop with himage | hcommit
        · obtain ⟨page, hpage, rfl⟩ := List.mem_map.mp himage
          show lrdSize + page.2.length ≤ logBufferSize
          rw [hlen page hpage]
          decide
        · cases List.mem_singleton.mp hcommit
          exact (by decide : lrdSize ≤ logBufferSize)
      refine ⟨LogOp.length_logBuffer_nextAll hsized hbuffer, ?_⟩
      unfold LogManager.dataStart at hroom ⊢
      rw [LogOp.logBase_nextAll]
      omega

/-- **A commit returns**, and takes the room of one commit. -/
theorem exists_commit (h : v.Working (n + 1)) {active : ActiveTxn} (hactive : v.txMgr.active = some active)
    (hkeys : ∀ key ∈ active.dirtyPages, key.2 < v.aggSize) (hcount : active.dirtyPages.length ≤ 4) :
    ∃ result v', commitTransaction v = .ok result v' ∧ v'.Working n := by
  obtain ⟨result, w, hpages, hmap, hsteady, hsize, hlog⟩ := h.exists_commitPages hactive hkeys hcount
  have hreturns : ∃ w', commitBmap w = .ok () w' := by
    unfold commitBmap
    rw [bind_ok (get_apply _), hmap]
    cases hbmap : v.bmap with
    | none => exact ⟨_, rfl⟩
    | some m =>
        have hdesc : (m.dmapStart + 1) * blockSize ≤ w.storage.size := by
          rw [hsize]
          exact (Nat.mul_le_mul_right blockSize (Nat.succ_le_of_lt (h.map m hbmap))).trans h.size
        obtain ⟨m', s', hcommit⟩ := m.exists_commit hsteady hdesc
        have hzoom : onStorage m.commit w = .ok m' { w with storage := s' } := zoom_ok hcommit
        exact ⟨_, bind_ok hzoom⟩
  obtain ⟨w', hbmap⟩ := hreturns
  have hcommit : commitTransaction v = .ok result w' := (bind_ok hpages).trans (bind_ok hbmap)
  refine ⟨result, w', hcommit, ?_⟩
  have hdevice := (endures_commit v result w' hcommit).storage
  have hagg := (committed_of_commitPages hactive hpages).rest.2.2.1
  have hcalm := h.toCalm.of_commit hactive hcommit
  obtain ⟨storage, rfl, -⟩ := of_commitBmap_ok hbmap
  refine ⟨hcalm, hdevice.backend.trans h.backend, fun m' hm' => ?_, fun lm' hlm' => ?_⟩
  · obtain ⟨m, hm, rfl⟩ := Option.map_eq_some_iff.mp hm'
    show m.dmapStart < w.aggSize
    rw [hagg]
    exact h.map m (hmap.symm.trans hm)
  · obtain ⟨hbuffer, hroom⟩ := hlog lm' hlm'
    refine ⟨hbuffer, ?_⟩
    show _ ≤ storage.size
    rw [hdevice.size]
    exact hroom

end Working

/-! ## Cached pages -/

/-- The pages in the cache with their data, the page used last in front. -/
structure Caches (v : Volume) (pages : List ((UInt32 × ℕ) × List UInt8)) : Prop where
  keys : v.pageCache.keys = pages.map Prod.fst
  data : ∀ p ∈ pages, (v.pageCache.peek p.1).map CachedPage.data = some p.2

namespace Caches

variable {v : Volume} {pages : List ((UInt32 × ℕ) × List UInt8)}

theorem peek_eq_none (h : v.Caches pages) {key : UInt32 × ℕ} (hkey : ∀ p ∈ pages, p.1 ≠ key) :
    v.pageCache.peek key = none := by
  rw [Lru.peek_eq_none_iff, h.keys]
  intro hmem
  obtain ⟨p, hp, heq⟩ := List.mem_map.mp hmem
  exact hkey p hp heq

/-- A search of the cache is one of the list. -/
theorem find?_eq (h : v.Caches pages) (p : UInt32 × ℕ → Bool) :
    (v.pageCache.iter.find? fun e => p e.1).map (fun e => e.2.data) =
      (pages.find? fun e => p e.1).map Prod.snd := by
  rw [Lru.find?_iter v.pageCache p, h.keys, List.find?_map]
  cases hfind : pages.find? (p ∘ Prod.fst) with
  | none =>
      have hsame : pages.find? (fun e => p e.1) = none := hfind
      rw [hsame]
      rfl
  | some e =>
      have hsame : pages.find? (fun e => p e.1) = some e := hfind
      obtain ⟨page, hpeek, hdata⟩ := Option.map_eq_some_iff.mp (h.data e (List.mem_of_find?_eq_some hfind))
      rw [hsame, Option.map_some, Option.bind_some, hpeek, Option.map_some, Option.map_some, Option.map_some, hdata]

theorem shown (h : v.Caches pages) (block : ℕ) : v.shown block =
    ((pages.find? fun e => e.1.2 == block).map Prod.snd).getD (v.storage.block block) := by
  unfold Volume.shown PageCache.peekBlock
  rw [Option.map_map, ← h.find?_eq fun key => key.2 == block]
  congr 1

theorem otherCopy (h : v.Caches pages) (ino : UInt32) (block : ℕ) : v.pageCache.otherCopy ino block =
    (pages.find? fun e => e.1.2 == block && e.1.1 != ino).map Prod.snd := by
  unfold PageCache.otherCopy
  rw [← h.find?_eq fun key => key.2 == block && key.1 != ino]

theorem peek_of_mem (h : v.Caches pages) {p : (UInt32 × ℕ) × List UInt8} (hp : p ∈ pages) :
    ∃ page, v.pageCache.peek p.1 = some page ∧ page.data = p.2 :=
  Option.map_eq_some_iff.mp (h.data p hp)

/-- An inode with a copy of a block reads the copy. -/
theorem own_of_mem (h : v.Caches pages) {ino : UInt32} {block : ℕ} {data : List UInt8}
    (hp : ((ino, block), data) ∈ pages) : v.own ino block = data := by
  obtain ⟨page, hpeek, hdata⟩ := h.peek_of_mem hp
  unfold own
  rw [hpeek]
  exact hdata

/-- An inode without a copy of a block reads the block. -/
theorem own_of_not_mem (h : v.Caches pages) {ino : UInt32} {block : ℕ} (hnone : ∀ p ∈ pages, p.1 ≠ (ino, block)) :
    v.own ino block = v.storage.block block := by
  unfold own
  rw [h.peek_eq_none hnone, Option.map_none, Option.getD_none]

/-- The copies of an inode decide what it reads. -/
theorem own_congr {v' : Volume} {pages' : List ((UInt32 × ℕ) × List UInt8)} (h : v.Caches pages) (h' : v'.Caches pages')
    (hstorage : v'.storage = v.storage) {ino : UInt32} {block : ℕ}
    (hsame : ∀ data, ((ino, block), data) ∈ pages' ↔ ((ino, block), data) ∈ pages) :
    v'.own ino block = v.own ino block := by
  by_cases hmem : ∃ data, ((ino, block), data) ∈ pages
  · obtain ⟨data, hp⟩ := hmem
    rw [h.own_of_mem hp, h'.own_of_mem ((hsame data).mpr hp)]
  · rw [h.own_of_not_mem fun p hp heq => hmem ⟨p.2, heq ▸ hp⟩,
      h'.own_of_not_mem fun p hp heq => hmem ⟨p.2, (hsame p.2).mp (heq ▸ hp)⟩, hstorage]

theorem loaded_of_mem (h : v.Caches pages) {ino : UInt32} {block : ℕ} {data : List UInt8}
    (hp : ((ino, block), data) ∈ pages) : v.loaded ino block = data := by
  obtain ⟨page, hpeek, hdata⟩ := h.peek_of_mem hp
  unfold loaded
  rw [hpeek]
  exact hdata

/-- Without a copy of the block an update starts from the block. -/
theorem loaded_of_fresh (h : v.Caches pages) (ino : UInt32) {block : ℕ} (hfresh : ∀ p ∈ pages, p.1.2 ≠ block) :
    v.loaded ino block = v.storage.block block := by
  have hnone : v.pageCache.peek (ino, block) = none :=
    h.peek_eq_none fun p hp heq => hfresh p hp (congrArg Prod.snd heq)
  have hother : (pages.find? fun e => e.1.2 == block && e.1.1 != ino) = none := by
    rw [List.find?_eq_none]
    intro p hp
    simp [hfresh p hp]
  unfold loaded
  rw [hnone, h.otherCopy, hother, Option.map_none, Option.map_none, Option.getD_none, Option.getD_none]

/-- Without a copy of its own an inode's update starts from what a search sees. -/
theorem loaded_eq_shown (h : v.Caches pages) {ino : UInt32} (hnone : ∀ p ∈ pages, p.1.1 ≠ ino) (block : ℕ) :
    v.loaded ino block = v.shown block := by
  have hpeek : v.pageCache.peek (ino, block) = none :=
    h.peek_eq_none fun p hp heq => hnone p hp (congrArg Prod.fst heq)
  have hsame : pages.find? (fun e => e.1.2 == block && e.1.1 != ino) = pages.find? fun e => e.1.2 == block := by
    refine List.find?_congr fun p hp => ?_
    rw [bne_iff_ne.mpr (hnone p hp), Bool.and_true]
  unfold loaded
  rw [hpeek, h.otherCopy, hsame, h.shown]
  rfl

/-- The page of `key` now holds `data`, and was used last. -/
theorem replaces (h : v.Caches pages) {key : UInt32 × ℕ} {data : List UInt8} {cache : PageCache}
    (hcache : PageCache.Replaces v.pageCache key data cache)
    (hroom : key ∈ v.pageCache.keys ∨ v.pageCache.keys.length < v.pageCache.cap) :
    Caches { v with pageCache := cache } ((key, data) :: pages.filter fun p => p.1 ≠ key) := by
  obtain ⟨hkeys, hpeek⟩ := hcache.spare hroom
  refine ⟨?_, fun p hp => ?_⟩
  · show cache.keys = _
    rw [hkeys, h.keys, List.map_cons, List.filter_map]
    rfl
  · show (cache.peek p.1).map CachedPage.data = some p.2
    rcases List.mem_cons.mp hp with rfl | hp
    · obtain ⟨page, hpage, hdata, -⟩ := hcache.page
      rw [hpage]
      exact congrArg some hdata
    · obtain ⟨hmem, hne⟩ := List.mem_filter.mp hp
      rw [hpeek p.1 (by simpa using hne)]
      exact h.data p hmem

end Caches

/-! ## From one call to the next -/

/-- Between two calls no transaction is open, and nothing is cached. -/
structure Resting (v : Volume) : Prop extends Calm v where
  idle : v.txMgr.active = none
  empty : v.pageCache.keys = []
  room : 4 ≤ v.pageCache.cap

/-- A volume at rest whose commits return. -/
structure AtRest (n : ℕ) (v : Volume) : Prop extends Working n v, Resting v

/-- In a call that began in `v`, with these pages in the cache, and these pages marked. -/
structure InCall (v : Volume) (pages : List ((UInt32 × ℕ) × List UInt8)) (marks : List (UInt32 × ℕ)) (w : Volume) :
    Prop where
  rest : w = { v with pageCache := w.pageCache, txMgr := w.txMgr }
  cap : w.pageCache.cap = v.pageCache.cap
  caches : w.Caches pages
  length : ∀ p ∈ pages, p.2.length = blockSize
  active : ∃ active, w.txMgr.active = some active ∧ active.dirtyPages = marks

namespace Resting

variable {v : Volume}

theorem caches (h : v.Resting) : v.Caches [] where
  keys := h.empty
  data _ hp := absurd hp List.not_mem_nil

theorem shown (h : v.Resting) (block : ℕ) : v.shown block = v.storage.block block := by
  rw [h.caches.shown, List.find?_nil, Option.map_none, Option.getD_none]

theorem own (h : v.Resting) (ino : UInt32) (block : ℕ) : v.own ino block = v.storage.block block :=
  h.caches.own_of_not_mem fun _ hp => absurd hp List.not_mem_nil

theorem begun (h : v.Resting) : InCall v [] [] v.begun where
  rest := rfl
  cap := rfl
  caches := ⟨h.empty, fun _ hp => absurd hp List.not_mem_nil⟩
  length _ hp := absurd hp List.not_mem_nil
  active := ⟨_, rfl, rfl⟩

end Resting

namespace InCall

variable {n : ℕ} {v w : Volume} {pages : List ((UInt32 × ℕ) × List UInt8)} {marks : List (UInt32 × ℕ)}

theorem storage (h : InCall v pages marks w) : w.storage = v.storage := by
  rw [h.rest]

theorem aggSize (h : InCall v pages marks w) : w.aggSize = v.aggSize := by
  rw [h.rest]

theorem ait2 (h : InCall v pages marks w) : w.ait2 = v.ait2 := by
  rw [h.rest]

theorem calm (h : InCall v pages marks w) (hv : v.Calm) : w.Calm := by
  refine ⟨h.storage ▸ hv.faults, h.storage ▸ h.aggSize ▸ hv.size, fun key page hpage => ?_⟩
  have hmem : key ∈ w.pageCache.keys := Lru.mem_keys_iff.mpr ⟨page, hpage⟩
  rw [h.caches.keys] at hmem
  obtain ⟨p, hp, rfl⟩ := List.mem_map.mp hmem
  obtain ⟨page', hpage', hdata⟩ := h.caches.peek_of_mem hp
  rw [Option.some.inj (hpage.symm.trans hpage'), hdata]
  exact h.length p hp

theorem working (h : InCall v pages marks w) (hv : v.Working n) : w.Working n := by
  have hcalm := h.calm hv.toCalm
  obtain ⟨-, hbackend, hmap, hlog⟩ := hv
  have hrest := h.rest
  generalize w.pageCache = cache at hrest
  generalize w.txMgr = txMgr at hrest
  subst hrest
  exact ⟨hcalm, hbackend, hmap, hlog⟩

/-- **An update** in a call. -/
theorem exists_update (h : InCall v pages marks w) (hv : v.Calm) (hroom : 4 ≤ v.pageCache.cap)
    (hfew : pages.length < 4) (ino : UInt32) (offset : ℕ) (f : List UInt8 → List UInt8) {block : ℕ}
    (hblock : block < v.aggSize) (hlen : (updateAt offset f (w.loaded ino block)).length = blockSize) :
    ∃ w', updateInodePage ino block offset f w = .ok () w' ∧
      InCall v (((ino, block), updateAt offset f (w.loaded ino block)) ::
        pages.filter fun p => p.1 ≠ (ino, block)) marks w' := by
  obtain ⟨cache, hrun, hcache⟩ := (h.calm hv).updateInodePage (h.aggSize ▸ hblock) ino offset f
  have hspare : w.pageCache.keys.length < w.pageCache.cap := by
    rw [h.caches.keys, List.length_map, h.cap]
    omega
  refine ⟨_, hrun, ?_, hcache.cap.trans h.cap, h.caches.replaces hcache (Or.inr hspare), fun p hp => ?_, h.active⟩
  · rw [h.rest]
  · rcases List.mem_cons.mp hp with rfl | hp
    · exact hlen
    · exact h.length p (List.mem_of_mem_filter hp)

/-- **A mark** in a call, of a page that is cached. -/
theorem exists_mark (h : InCall v pages marks w) {ino : UInt32} {block : ℕ} {data : List UInt8}
    (hpage : ((ino, block), data) ∈ pages) :
    ∃ w', markPageDirty ino block w = .ok () w' ∧
      InCall v (((ino, block), data) :: pages.filter fun p => p.1 ≠ (ino, block))
        (if (ino, block) ∈ marks then marks else marks ++ [(ino, block)]) w' := by
  obtain ⟨active, hactive, hdirty⟩ := h.active
  obtain ⟨cache, hrun, hcap, -, hreplaces⟩ := markPageDirty_apply hactive ino block
  obtain ⟨page, hpeek, hdata⟩ := h.caches.peek_of_mem hpage
  have hcache := hreplaces page hpeek
  rw [hdata] at hcache
  have hmem : (ino, block) ∈ w.pageCache.keys := Lru.mem_keys_iff.mpr ⟨page, hpeek⟩
  refine ⟨_, hrun, ?_, hcap.trans h.cap, ⟨(h.caches.replaces hcache (Or.inl hmem)).keys,
    (h.caches.replaces hcache (Or.inl hmem)).data⟩, fun p hp => ?_, marked active (ino, block), rfl, ?_⟩
  · rw [h.rest]
  · rcases List.mem_cons.mp hp with rfl | hp
    · exact h.length _ hpage
    · exact h.length p (List.mem_of_mem_filter hp)
  · unfold marked
    rw [hdirty]

theorem isPlain_iff (h : InCall v pages marks w) (block : ℕ) : w.IsPlain block ↔ v.IsPlain block := by
  have hlog : w.InLog = v.InLog := by
    rw [h.rest]
    rfl
  have hmap : w.InMap = v.InMap := by
    rw [h.rest]
    rfl
  unfold IsPlain
  rw [hlog, hmap]

/-- **The end of a call.**  When all cached pages are marked, a commit leaves the volume at rest, and
its blocks hold the pages. -/
theorem of_commit (h : InCall v pages marks w) (hv : v.Resting) (hmarked : ∀ p ∈ pages, p.1 ∈ marks)
    {result : CommitResult} {v' : Volume} (hcommit : commitTransaction w = .ok result v') :
    v'.Resting ∧ v'.ait2 = v.ait2 ∧ v'.aggSize = v.aggSize ∧ v'.openHandles = v.openHandles ∧
      v'.bmap = v.bmap.map flushedMap ∧ ∀ block, v.IsPlain block → v'.IsPlain block ∧
        v'.storage.block block = (lastPage (cachedPages w.pageCache marks) block).getD (v.storage.block block) := by
  obtain ⟨active, hactive, rfl⟩ := h.active
  have hw := h.calm hv.toCalm
  have hcalm := hw.of_commit hactive hcommit
  have hcap := (endures_commit w result v' hcommit).cap
  have hblocks := fun block (hplain : v.IsPlain block) =>
    block_of_commit hactive hcommit ((h.isPlain_iff block).mpr hplain) (hw.length_cachedPages _)
  obtain ⟨w', storage, hcommitted, rfl, -⟩ := of_commitTransaction_ok hactive hcommit
  obtain ⟨hbmap, hait2, hagg, hhandles⟩ := hcommitted.rest
  refine ⟨⟨hcalm, ?_, ?_, ?_⟩, hait2.trans h.ait2, hagg.trans h.aggSize, ?_, ?_, fun block hplain => ⟨?_, ?_⟩⟩
  · show w'.txMgr.active = none
    rw [hcommitted.txMgr]
  · -- a page that was cached was marked, so it is gone
    show w'.pageCache.keys = []
    refine List.eq_nil_iff_forall_not_mem.mpr fun key hkey => ?_
    obtain ⟨page, hpage⟩ := Lru.mem_keys_iff.mp hkey
    have hkept := hcommitted.pages key
    split at hkept
    · exact absurd (hkept.symm.trans hpage) (by simp)
    · next hnot =>
        have hmem : key ∈ w.pageCache.keys := Lru.mem_keys_iff.mpr ⟨page, hkept.symm.trans hpage⟩
        rw [h.caches.keys] at hmem
        obtain ⟨p, hp, rfl⟩ := List.mem_map.mp hmem
        exact hnot (hmarked p hp)
  · show 4 ≤ w'.pageCache.cap
    rw [show w'.pageCache.cap = w.pageCache.cap from hcap, h.cap]
    exact hv.room
  · exact hhandles.trans (by rw [h.rest])
  · show w'.bmap.map flushedMap = v.bmap.map flushedMap
    rw [hbmap, h.rest]
  · intro i hi
    have hi' := (h.isPlain_iff block).mpr hplain i hi
    refine ⟨?_, ?_⟩
    · rw [show InLog { w' with bmap := w'.bmap.map flushedMap, storage } = w.InLog from
        inLog_congr hcommitted.log]
      exact hi'.1
    · rintro ⟨m, hm, htouch⟩
      obtain ⟨m₀, hm₀, rfl⟩ := Option.map_eq_some_iff.mp hm
      refine hi'.2 ⟨m₀, hbmap.symm.trans hm₀, Or.inl ?_⟩
      rcases htouch with hdesc | ⟨page, hpage, -⟩
      · exact hdesc
      · cases hpage
  · rw [hblocks block hplain, h.storage]

/-- The end of a call with room in the journal. -/
theorem exists_transaction {α : Type} {body : VolM (Exit α α)} {a : α} (h : InCall v pages marks w)
    (hv : v.AtRest (n + 1)) (hbody : body v.begun = .ok (.commit a) w) (hcount : marks.length ≤ 4)
    (hin : ∀ key ∈ marks, key.2 < v.aggSize) (hmarked : ∀ p ∈ pages, p.1 ∈ marks) :
    ∃ v', transaction body v = .ok a v' ∧ v'.AtRest n ∧ v'.ait2 = v.ait2 ∧ v'.aggSize = v.aggSize ∧
      v'.openHandles = v.openHandles ∧ v'.bmap = v.bmap.map flushedMap ∧ ∀ block, v.IsPlain block → v'.IsPlain block ∧
        v'.storage.block block = (lastPage (cachedPages w.pageCache marks) block).getD (v.storage.block block) := by
  obtain ⟨active, hactive, hdirty⟩ := h.active
  have hin' : ∀ key ∈ active.dirtyPages, key.2 < w.aggSize := by
    rw [hdirty, h.aggSize]
    exact hin
  obtain ⟨result, v', hcommit, hworking⟩ :=
    (h.working hv.toWorking).exists_commit hactive hin' (hdirty.symm ▸ hcount)
  obtain ⟨hresting, hrest⟩ := h.of_commit hv.toResting hmarked hcommit
  refine ⟨v', ?_, ⟨hworking, hresting.idle, hresting.empty, hresting.room⟩, hrest⟩
  unfold transaction
  rw [bind_ok (beginTransaction_of_idle hv.idle), bind_ok hbody]
  exact bind_ok hcommit

end InCall

end Volume

end JfsFuse
