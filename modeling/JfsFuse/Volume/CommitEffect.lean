import JfsFuse.Alloc.Persistence
import JfsFuse.Volume.CommitCalls
import JfsFuse.Volume.CommitFrame
import Mathlib.Data.List.Induction

/-!
# What a commit leaves behind

After a commit that returned, every dirty page is gone from the cache, and a block that
belongs neither to the journal nor to the allocation map holds the last of the dirty
pages that were cached for it.
-/

namespace JfsFuse

open ByteBuf Program

/-! ## Writing pages -/

namespace Volume

/-- The data of the last of the pages for a block. -/
def lastPage (pages : List (ℕ × List UInt8)) (block : ℕ) : Option (List UInt8) :=
  ((pages.filter fun page => page.1 = block).getLast?).map Prod.snd

theorem lastPage_append (pages : List (ℕ × List UInt8)) (page : ℕ × List UInt8) (block : ℕ) :
    lastPage (pages ++ [page]) block = if page.1 = block then some page.2 else lastPage pages block := by
  unfold lastPage
  rw [List.filter_append]
  by_cases h : page.1 = block
  · rw [if_pos h, List.filter_cons_of_pos (by simpa using h), List.filter_nil, List.getLast?_concat,
      Option.map_some]
  · rw [if_neg h, List.filter_cons_of_neg (by simpa using h), List.filter_nil, List.append_nil]

/-- **A block after the pages were written** holds the last page for it. -/
theorem read_effects_pageWrites {pages : List (ℕ × List UInt8)}
    (hlen : ∀ page ∈ pages, page.2.length = blockSize) (data : ℕ → UInt8) (block : ℕ) :
    Memory.read (StorageCall.effects (pageWrites pages) data) (block * blockSize) blockSize =
      (lastPage pages block).getD (Memory.read data (block * blockSize) blockSize) := by
  induction pages using List.reverseRecOn with
  | nil =>
      unfold lastPage pageWrites
      rw [List.map_nil, StorageCall.effects_nil, List.filter_nil, List.getLast?_nil]
      rw [Option.map_none, Option.getD_none]
  | append_singleton pages page ih =>
      have hpage := hlen page (List.mem_append_right _ (List.mem_singleton_self _))
      have hrest := ih fun p hp => hlen p (List.mem_append_left _ hp)
      have hcalls : pageWrites (pages ++ [page]) = pageWrites pages ++ [.writeBlock page.1 page.2] :=
        List.map_append
      rw [hcalls, StorageCall.effects_append, lastPage_append]
      show Memory.read (Memory.write _ (page.1 * blockSize) page.2) _ _ = _
      by_cases heq : page.1 = block
      · rw [if_pos heq, heq, ← hpage, Memory.read_write_self]
        rfl
      · rw [if_neg heq, ← hrest]
        apply Memory.read_write_of_disjoint
        rw [hpage]
        rcases Nat.lt_or_gt_of_ne heq with hlt | hgt
        · right
          have := Nat.mul_le_mul_right blockSize (Nat.succ_le_of_lt hlt)
          rw [Nat.succ_mul] at this
          exact this
        · left
          have := Nat.mul_le_mul_right blockSize (Nat.succ_le_of_lt hgt)
          rw [Nat.succ_mul] at this
          exact this

end Volume

/-! ## The allocation map -/

namespace BlockAllocMap

open Storage

/-- The byte lies in the descriptor or in a page that is to be written back. -/
def Touches (m : BlockAllocMap) (i : ℕ) : Prop :=
  i / blockSize = m.dmapStart ∨ ∃ page ∈ m.dirtyPages, i / blockSize = m.dmapStart + page

theorem block_of_within {block i : ℕ} (hlow : block * blockSize ≤ i)
    (hhigh : i < block * blockSize + blockSize) : i / blockSize = block := by
  unfold blockSize at *
  omega

theorem changesOnly_commitPages (m : BlockAllocMap) {P : ℕ → Prop} {pages : List ℕ}
    (h : ∀ page ∈ pages, ∀ i, i / blockSize = m.dmapStart + page → P i) :
    Within (ChangesOnly P) (commitPages m pages) := by
  induction pages with
  | nil => exact Within.pure ()
  | cons page rest ih =>
      have hrest := ih fun p hp => h p (List.mem_cons_of_mem _ hp)
      refine Within.bind Within.get fun s => Within.ite hrest ?_
      refine Within.bind_of_ok (StorageM.changesOnly_readBytes _ _) fun s₁ data s₂ hread => ?_
      have hlen := (m.updatePage_pmap page (StorageM.length_of_readBlock hread)).1
      have hwrite : Within (ChangesOnly P) (do
          StorageM.writeBlock (m.dmapStart + page) (m.updatePage page data)
          commitPages m rest) := by
        refine Within.bind (StorageM.changesOnly_writeBlock fun i hlow hhigh => ?_) fun _ => hrest
        rw [hlen] at hhigh
        exact h page (List.mem_cons_self ..) i (block_of_within hlow hhigh)
      exact hwrite s₂

/-- **A commit of the allocation map** writes its own blocks only. -/
theorem changesOnly_commit (m : BlockAllocMap) : Within (ChangesOnly m.Touches) m.commit := by
  refine Within.bind (m.changesOnly_commitPages fun page hpage i hi => Or.inr ⟨page, hpage, hi⟩)
    fun _ => ?_
  refine Within.bind_of_ok (StorageM.changesOnly_readBytes _ _) fun s₁ desc s₂ hread => ?_
  have hlen : (writeLE desc 8 8 m.nfree.toNat).length = blockSize := by
    rw [length_writeLE _ (by rw [StorageM.length_of_readBlock hread]; decide),
      StorageM.length_of_readBlock hread]
  have hwrite : Within (ChangesOnly m.Touches) (do
      StorageM.writeBlock m.dmapStart (writeLE desc 8 8 m.nfree.toNat)
      return { m with dirtyPages := [], allocated := [], freed := [] }) := by
    refine Within.bind (StorageM.changesOnly_writeBlock fun i hlow hhigh => ?_) fun _ => Within.pure _
    rw [hlen] at hhigh
    exact Or.inl (block_of_within hlow hhigh)
  exact hwrite s₂

end BlockAllocMap

/-! ## The journal -/

namespace Volume

open Storage

/-- The byte lies in the journal, from its superblock on. -/
def InLog (v : Volume) (i : ℕ) : Prop :=
  ∃ lm, v.log = some lm ∧ lm.logBase + blockSize ≤ i

/-- Only the journal and the order of use in the cache may differ. -/
def Journaled (v v' : Volume) : Prop :=
  ∃ log cache storage, v' = { v with log, pageCache := cache, storage } ∧
    log.map LogManager.logBase = v.log.map LogManager.logBase ∧
    (∀ key, cache.peek key = v.pageCache.peek key) ∧ ChangesOnly v.InLog v.storage storage

theorem inLog_congr {v v' : Volume}
    (h : v'.log.map LogManager.logBase = v.log.map LogManager.logBase) : v'.InLog = v.InLog := by
  funext i
  unfold InLog
  cases hlog : v.log with
  | none =>
      rw [hlog, Option.map_none, Option.map_eq_none_iff] at h
      rw [h]
  | some lm =>
      rw [hlog, Option.map_some, Option.map_eq_some_iff] at h
      obtain ⟨lm', hlog', hbase⟩ := h
      rw [hlog']
      simp [hbase]

instance : IsPreorder Volume Journaled where
  refl v := ⟨v.log, v.pageCache, v.storage, rfl, rfl, fun _ => rfl, refl_of (ChangesOnly _) _⟩
  trans := by
    rintro v _ _ ⟨log, cache, storage, rfl, hbase, hpeek, hdata⟩
      ⟨log', cache', storage', rfl, hbase', hpeek', hdata'⟩
    rw [inLog_congr hbase] at hdata'
    exact ⟨log', cache', storage', rfl, hbase'.trans hbase,
      fun key => (hpeek' key).trans (hpeek key), trans_of (ChangesOnly _) hdata hdata'⟩

theorem journaled_onLog {x : LogM Unit} (hx : ∀ logBase, Within (LogManager.StaysAbove logBase) x) :
    Within Journaled (onLog x) := by
  intro v
  unfold onLog
  cases hlog : v.log with
  | none => exact refl_of Journaled v
  | some lm =>
      obtain ⟨hbase, hdata⟩ := hx lm.logBase ⟨lm, v.storage⟩ rfl
      have hin : v.InLog = fun i => lm.logBase + blockSize ≤ i := by
        funext i
        unfold InLog
        rw [hlog]
        simp
      have hresult : ∀ s : LogState, s.manager.logBase = lm.logBase →
          ChangesOnly (fun i => lm.logBase + blockSize ≤ i) v.storage s.storage →
          Journaled v { v with log := some s.manager, storage := s.storage } := by
        intro s hs hsdata
        refine ⟨some s.manager, v.pageCache, s.storage, rfl, ?_, fun _ => rfl, ?_⟩
        · rw [hlog, Option.map_some, Option.map_some, hs]
        · rw [hin]
          exact hsdata
      simp only
      cases hrun : x ⟨lm, v.storage⟩ with
      | ok a s =>
          rw [hrun] at hbase hdata
          exact hresult s hbase hdata
      | error e s =>
          rw [hrun] at hbase hdata
          exact hresult s hbase hdata

theorem journaled_getPage (inode : UInt32) (block : ℕ) : Within Journaled (getPage inode block) :=
  fun v => ⟨v.log, _, v.storage, rfl, rfl, fun key => v.pageCache.peek_get _ key,
    refl_of (ChangesOnly _) _⟩

theorem journaled_journalPages (txid : ℕ) (keys : List (UInt32 × ℕ)) :
    Within Journaled (journalPages txid keys) := by
  induction keys with
  | nil => exact Within.pure ()
  | cons key rest ih =>
      refine Within.bind (journaled_getPage _ _) fun found => ?_
      cases found with
      | none => exact ih
      | some page =>
          exact Within.bind (journaled_onLog fun _ => LogManager.staysAbove_appendLogRecord _ _ _)
            fun _ => ih

theorem journaled_flush (call : StorageCall) : Within Journaled (onStorage (StorageM.flush call)) :=
  Within.zoom (StorageM.changesOnly_flush (P := fun _ => False) call) fun v storage hdata =>
    ⟨v.log, v.pageCache, storage, rfl, rfl, fun _ => rfl, fun i _ => hdata i not_false⟩

theorem of_orAbortPages_ok {α : Type} {keys : List (UInt32 × ℕ)} {x : VolM α} {v v' : Volume} {a : α}
    (h : orAbortPages keys x v = .ok a v') : x v = .ok a v' := by
  unfold orAbortPages at h
  cases hx : x v with
  | ok b w => rwa [tryCatch_ok hx] at h
  | error e w =>
      rw [tryCatch_error hx] at h
      cases h

/-! ## A commit that returned -/

/-- The volume after the transaction `active` was committed. -/
structure Committed (v : Volume) (active : ActiveTxn) (v' : Volume) : Prop where
  txMgr : v'.txMgr = { v.txMgr with active := none, lastCommitted := active.txid }
  pages : ∀ key, v'.pageCache.peek key =
    if key ∈ active.dirtyPages then none else v.pageCache.peek key
  data : ∃ data, (∀ i, ¬ v.InLog i → data i = v.storage.data i) ∧
    v'.storage.data = StorageCall.effects (pageWrites (cachedPages v.pageCache active.dirtyPages)) data
  log : v'.log.map LogManager.logBase = v.log.map LogManager.logBase
  rest : v'.bmap = v.bmap ∧ v'.ait2 = v.ait2 ∧ v'.aggSize = v.aggSize ∧
    v'.openHandles = v.openHandles

theorem peek_releasePages (keys : List (UInt32 × ℕ)) (cache : PageCache) (key : UInt32 × ℕ) :
    (keys.foldl (fun cache page =>
      PageCache.release (cache.unpinPage page.1 page.2) page.1 page.2) cache).peek key =
      if key ∈ keys then none else cache.peek key := by
  induction keys generalizing cache with
  | nil => simp
  | cons first rest ih =>
      rw [List.foldl_cons, ih]
      by_cases hrest : key ∈ rest
      · rw [if_pos hrest, if_pos (List.mem_cons_of_mem _ hrest)]
      · rw [if_neg hrest]
        unfold PageCache.release PageCache.unpinPage
        by_cases heq : key = first
        · rw [if_pos (heq ▸ List.mem_cons_self ..), heq]
          exact Lru.peek_pop_self ..
        · rw [if_neg fun hmem => (List.mem_cons.mp hmem).elim heq hrest, Lru.peek_pop_ne _ heq,
            Lru.peek_modify_ne _ heq]

/-- The journal part of a commit. -/
theorem journaled_of_commit {active : ActiveTxn} {v v' : Volume} {written : ℕ}
    (h : writeBack active v = .ok written v') :
    ∃ w, Journaled v w ∧
      (do
        let written ← orAbortPages active.dirtyPages (writePages active.dirtyPages)
        orAbortPages active.dirtyPages (onStorage StorageM.flushMetadata)
        return written : VolM ℕ) w = .ok written v' := by
  obtain ⟨_, v₁, hflush, h⟩ := of_bind_ok h
  have hfirst := journaled_flush .flushData v
  rw [show onStorage (StorageM.flush .flushData) v = _ from of_orAbortPages_ok hflush] at hfirst
  rw [bind_ok (get_apply v₁)] at h
  split at h
  · obtain ⟨_, v₂, hjournal, h⟩ := of_bind_ok h
    have hsecond : Within Journaled (do
        journalPages active.txid active.dirtyPages
        onLog (LogManager.commitTransaction active.txid)) :=
      Within.bind (journaled_journalPages _ _) fun _ =>
        journaled_onLog fun _ => LogManager.staysAbove_commitTransaction _
    have hsecond := hsecond v₁
    rw [of_orAbortPages_ok hjournal] at hsecond
    exact ⟨v₂, trans_of Journaled hfirst hsecond, h⟩
  · exact ⟨v₁, hfirst, h⟩

/-- **A commit that returned.** -/
theorem committed_of_commitPages {v v' : Volume} {active : ActiveTxn}
    (hactive : v.txMgr.active = some active) {result : CommitResult}
    (h : commitPages v = .ok result v') : Committed v active v' := by
  unfold commitPages at h
  rw [bind_ok (get_apply v), hactive] at h
  obtain ⟨_, v₁, hclose, h⟩ := of_bind_ok h
  cases hclose
  obtain ⟨written, v₂, hback, h⟩ := of_bind_ok h
  obtain ⟨w, ⟨log, cache, storage, rfl, hbase, hpeek, hdata⟩, hrest⟩ := journaled_of_commit hback
  -- the pages are written from the cache of the transaction
  obtain ⟨n, w₁, hpages, hrest⟩ := of_bind_ok hrest
  obtain ⟨_, w₂, hflush, hrest⟩ := of_bind_ok hrest
  cases hrest
  have hissues := issues_writePages
    { v with txMgr := { v.txMgr with active := none }, log := log, pageCache := cache } active.dirtyPages
  rw [cachedPages_congr hpeek] at hissues
  have hwritten := of_orAbortPages_ok hpages
  obtain ⟨cache', storage', rfl, hcache, hpagedata⟩ : ∃ cache' storage', w₁ = { v with
      txMgr := { v.txMgr with active := none }
      log := log
      pageCache := cache'
      storage := storage' } ∧ (∀ key, cache'.peek key = v.pageCache.peek key) ∧
      storage'.data = StorageCall.effects
        (pageWrites (cachedPages v.pageCache active.dirtyPages)) storage.data := by
    cases hcalls : StorageCall.performAll
        (pageWrites (cachedPages v.pageCache active.dirtyPages)) storage with
    | error e s =>
        obtain ⟨w', herror⟩ := (hissues storage).2 e s hcalls
        exact absurd (hwritten.symm.trans herror) (by simp)
    | ok _ s =>
        obtain ⟨n', w', hok, -, cache', hpeek', rfl⟩ := (hissues storage).1 s hcalls
        have heq := hwritten.symm.trans hok
        cases heq
        exact ⟨cache', s, rfl, fun key => (hpeek' key).trans (hpeek key),
          (StorageCall.performAll_ok hcalls).1⟩
  -- the last flush changes no data
  obtain ⟨storage₂, hlast, rfl⟩ : ∃ storage₂, storage₂.data = storage'.data ∧ v₂ = { v with
      txMgr := { v.txMgr with active := none }
      log := log
      pageCache := cache'
      storage := storage₂ } := by
    have hrun := of_orAbortPages_ok hflush
    unfold onStorage zoom at hrun
    split at hrun
    · next a storage₂ hok =>
        cases hrun
        refine ⟨storage₂, ?_, rfl⟩
        have hsame := StorageM.changesOnly_flush (P := fun _ => False) .flushMetadata storage'
        rw [show StorageM.flush .flushMetadata storage' = _ from hok] at hsame
        exact funext fun i => hsame i not_false
    · cases hrun
  cases h
  refine ⟨rfl, fun key => ?_, ⟨storage.data, hdata, hlast.trans hpagedata⟩, hbase, rfl, rfl, rfl, rfl⟩
  rw [← hcache key]
  exact peek_releasePages active.dirtyPages cache' key

/-- The byte lies in a block of the allocation map that a commit writes. -/
def InMap (v : Volume) (i : ℕ) : Prop :=
  ∃ m, v.bmap = some m ∧ m.Touches i

/-- The allocation map with nothing left to write. -/
def flushedMap (m : BlockAllocMap) : BlockAllocMap :=
  { m with dirtyPages := [], allocated := [], freed := [] }

theorem of_commitBmap_ok {v v' : Volume} (h : commitBmap v = .ok () v') :
    ∃ storage, v' = { v with bmap := v.bmap.map flushedMap, storage } ∧
      ChangesOnly v.InMap v.storage storage := by
  unfold commitBmap at h
  rw [bind_ok (get_apply v)] at h
  cases hmap : v.bmap with
  | none =>
      rw [hmap] at h
      cases h
      refine ⟨v.storage, ?_, refl_of (ChangesOnly _) _⟩
      rw [Option.map_none, ← hmap]
  | some m =>
      rw [hmap] at h
      obtain ⟨m', v₁, hcommit, h⟩ := of_bind_ok h
      cases h
      have hkeeps := m.changesOnly_commit v.storage
      unfold onStorage zoom at hcommit
      split at hcommit
      · next a storage hok =>
          cases hcommit
          rw [hok] at hkeeps
          have hresult : m' = flushedMap m := by
            obtain ⟨_, _, -, hok⟩ := of_bind_ok hok
            obtain ⟨_, _, -, hok⟩ := of_bind_ok hok
            obtain ⟨_, _, -, hok⟩ := of_bind_ok hok
            cases hok
            rfl
          refine ⟨storage, ?_, ?_⟩
          · rw [hresult]
            rfl
          · exact fun i hi => hkeeps i fun htouch => hi ⟨m, hmap, htouch⟩
      · cases hcommit

/-- **The parts of a commit that returned.** -/
theorem of_commitTransaction_ok {v v' : Volume} {active : ActiveTxn}
    (hactive : v.txMgr.active = some active) {result : CommitResult}
    (h : commitTransaction v = .ok result v') :
    ∃ w storage, Committed v active w ∧ v' = { w with bmap := w.bmap.map flushedMap, storage } ∧
      ChangesOnly w.InMap w.storage storage := by
  obtain ⟨_, w, hpages, h⟩ := of_bind_ok h
  obtain ⟨_, w', hmap, h⟩ := of_bind_ok h
  cases h
  obtain ⟨storage, rfl, hkeeps⟩ := of_commitBmap_ok hmap
  exact ⟨w, storage, committed_of_commitPages hactive hpages, rfl, hkeeps⟩

/-- The block belongs neither to the journal nor to the allocation map. -/
def IsPlain (v : Volume) (block : ℕ) : Prop :=
  ∀ i, i / blockSize = block → ¬ v.InLog i ∧ ¬ v.InMap i

/-- **A plain block after a commit** holds the last dirty page for it. -/
theorem block_of_commit {v v' : Volume} {active : ActiveTxn} (hactive : v.txMgr.active = some active)
    {result : CommitResult} (h : commitTransaction v = .ok result v') {block : ℕ}
    (hplain : v.IsPlain block)
    (hlen : ∀ page ∈ cachedPages v.pageCache active.dirtyPages, page.2.length = blockSize) :
    v'.storage.block block =
      (lastPage (cachedPages v.pageCache active.dirtyPages) block).getD (v.storage.block block) := by
  obtain ⟨w, storage, hcommitted, rfl, hkeeps⟩ := of_commitTransaction_ok hactive h
  obtain ⟨data, hdata, heffect⟩ := hcommitted.data
  have hinmap : w.InMap = v.InMap := by
    unfold InMap
    rw [hcommitted.rest.1]
  have hplain' : ∀ i, block * blockSize ≤ i → i < block * blockSize + blockSize →
      ¬ v.InLog i ∧ ¬ v.InMap i :=
    fun i hlow hhigh => hplain i (BlockAllocMap.block_of_within hlow hhigh)
  have hmap : storage.block block = w.storage.block block :=
    hkeeps.block fun i hlow hhigh => by
      rw [hinmap]
      exact (hplain' i hlow hhigh).2
  have hlog : Memory.read data (block * blockSize) blockSize = v.storage.block block :=
    Memory.read_congr fun i hlow hhigh => hdata i (hplain' i hlow hhigh).1
  show storage.block block = _
  rw [hmap, ← hlog, ← read_effects_pageWrites hlen, ← heffect]
  rfl

end Volume

end JfsFuse
