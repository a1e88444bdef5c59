import JfsFuse.Volume.PageUpdate

/-!
# Calls of the page cache

The methods of `PageCache` that the operations do not use, and sequences of calls.  A page that
is dirty or pinned may not be pushed out of the cache: `put` and `put_block` look at the page
that is next, `get_or_load` does not.
-/

namespace JfsFuse

open ByteBuf Program

namespace CachedPage

/-- The page may not leave the cache. -/
def Busy (page : CachedPage) : Prop :=
  page.dirty = true ∨ 0 < page.pinCount

instance : DecidablePred Busy :=
  fun _ => inferInstanceAs (Decidable (_ ∨ _))

/-- What flushing makes of a page that was written. -/
def cleaned (page : CachedPage) : CachedPage :=
  { page with dirty := false, txid := 0 }

/-- The key that flushing makes from the fields of a page. -/
def fieldKey (page : CachedPage) : UInt32 × ℕ :=
  (page.inode.getD 0, page.block)

end CachedPage

namespace PageCache

/-- A new page under a key, unless the page that it would push out is dirty or pinned. -/
def guardedPut (cache : PageCache) (key : UInt32 × ℕ) (page : CachedPage) : Except StorageError PageCache :=
  let full := (cache.peek key).isNone && decide (cache.cap ≤ cache.keys.length)
  match full, cache.peekLru with
  | true, some (_, victim) =>
      if victim.dirty ∨ 0 < victim.pinCount then
        .error (.other "cache full: LRU victim is dirty or pinned")
      else .ok (Lru.put cache key page)
  | _, _ => .ok (Lru.put cache key page)

theorem put_eq (cache : PageCache) (inode : UInt32) (page : CachedPage) :
    put cache inode page = cache.guardedPut (inode, page.block) page := rfl

/-- `put_block`. -/
def putBlock (cache : PageCache) (block : ℕ) (page : CachedPage) : Except StorageError PageCache :=
  cache.guardedPut (0, block) page

def markDirty (cache : PageCache) (inode : UInt32) (block : ℕ) : PageCache :=
  cache.modify (inode, block) fun page => { page with dirty := true }

def markClean (cache : PageCache) (key : UInt32 × ℕ) : PageCache :=
  cache.modify key CachedPage.cleaned

/-- The dirty pages that satisfy `p`, in order of use. -/
def dirtyPages (cache : PageCache) (p : CachedPage → Bool) : List CachedPage :=
  (cache.iter.map Prod.snd).filter fun page => page.dirty && p page

end PageCache

namespace Volume

/-- Replace the cache by the result of a change that can be refused. -/
def tryCache (f : PageCache → Except StorageError PageCache) : VolM Unit := do
  let cache ← returnExcept (f (← get).pageCache)
  modifyCache fun _ => cache

theorem tryCache_ok {f : PageCache → Except StorageError PageCache} {v : Volume} {cache : PageCache}
    (h : f v.pageCache = .ok cache) : tryCache f v = .ok () { v with pageCache := cache } := by
  unfold tryCache
  rw [bind_ok (get_apply v), h]
  rfl

theorem tryCache_error {f : PageCache → Except StorageError PageCache} {v : Volume} {e : StorageError}
    (h : f v.pageCache = .error e) : tryCache f v = .error e v := by
  unfold tryCache
  rw [bind_ok (get_apply v), h]
  rfl

/-- A volume with an empty cache. -/
def start (capacity : ℕ) (storage : Storage) : Volume where
  ait2 := {}
  aggSize := storage.sizeBlocks
  log := none
  storage := storage
  pageCache := PageCache.new capacity
  bmap := none

/-! ## Flushing -/

/-- The loop that writes the pages. -/
def writeDirty : List ((UInt32 × ℕ) × List UInt8) → VolM Unit
  | [] => return ()
  | (key, data) :: rest => do
      onStorage (StorageM.writeBlock key.2 data)
      writeDirty rest

/-- Write pages to their blocks, then clear the dirty bits of the pages with these keys. -/
def flushPages (pages : List ((UInt32 × ℕ) × List UInt8)) : VolM Unit := do
  writeDirty pages
  modifyCache fun cache => pages.foldl (fun cache page => PageCache.markClean cache page.1) cache

/-- `flush_inode`. -/
def flushInode (inode : UInt32) : VolM Unit := do
  let pages := (← get).pageCache.dirtyPages fun page => page.inode == some inode
  flushPages (pages.map fun page => ((inode, page.block), page.data))

/-- `flush_all`.  The key of a page is made from its fields. -/
def flushAll : VolM Unit := do
  let pages := (← get).pageCache.dirtyPages fun _ => true
  flushPages (pages.map fun page => (page.fieldKey, page.data))

end Volume

/-! ## Calls -/

/-- A call of a method of `PageCache`.  The caller of `get_mut_for_write` changes the page by `f`. -/
inductive CacheCall
  | get (inode : UInt32) (block : ℕ)
  | getOrLoad (inode : UInt32) (block index : ℕ)
  | getMutForWrite (inode : UInt32) (block : ℕ) (f : CachedPage → CachedPage)
  | unpinPage (inode : UInt32) (block : ℕ)
  | put (inode : UInt32) (page : CachedPage)
  | putBlock (block : ℕ) (page : CachedPage)
  | markDirty (inode : UInt32) (block : ℕ)
  | markDirtyTxn (inode : UInt32) (block txid : ℕ)
  | flushInode (inode : UInt32)
  | flushAll

namespace CacheCall

def perform : CacheCall → VolM Unit
  | get inode block => do
      let _ ← Volume.getPage inode block
  | getOrLoad inode block index => do
      let _ ← Volume.getOrLoad inode block index
  | getMutForWrite inode block f => Volume.tryCache fun cache => cache.updateForWrite inode block f
  | unpinPage inode block => Volume.modifyCache fun cache => cache.unpinPage inode block
  | put inode page => Volume.tryCache fun cache => PageCache.put cache inode page
  | putBlock block page => Volume.tryCache fun cache => cache.putBlock block page
  | markDirty inode block => Volume.modifyCache fun cache => cache.markDirty inode block
  | markDirtyTxn inode block txid => Volume.modifyCache fun cache => cache.markDirtyTxn inode block txid
  | flushInode inode => Volume.flushInode inode
  | flushAll => Volume.flushAll

/-- The volume after a call, whether it returned or failed. -/
def next (call : CacheCall) (v : Volume) : Volume :=
  final (call.perform v)

/-- The key whose page the caller gives or changes. -/
def written : CacheCall → Option (UInt32 × ℕ)
  | getMutForWrite inode block _ => some (inode, block)
  | put inode page => some (inode, page.block)
  | putBlock block _ => some (0, block)
  | _ => none

end CacheCall

/-- `P` holds of every call of a sequence and the volume before it. -/
def Along (P : CacheCall → Volume → Prop) : Volume → List CacheCall → Prop
  | _, [] => True
  | v, call :: rest => P call v ∧ Along P (call.next v) rest

/-! ## Pages that may not leave -/

namespace PageCache

/-- Every busy page is still cached afterwards, with its data unless it is the page `given`. -/
def Retains (given : Option (UInt32 × ℕ)) (cache cache' : PageCache) : Prop :=
  ∀ key page, cache.peek key = some page → page.Busy →
    ∃ page', cache'.peek key = some page' ∧ (given ≠ some key → page'.data = page.data)

theorem SamePages.retains {cache cache' : PageCache} (h : SamePages cache cache') (given : Option (UInt32 × ℕ)) :
    Retains given cache cache' := by
  intro key page hpeek _
  obtain ⟨page', hpeek', -, hdata⟩ := h.symm.of_peek hpeek
  exact ⟨page', hpeek', fun _ => hdata⟩

theorem retains_refl (given : Option (UInt32 × ℕ)) (cache : PageCache) : Retains given cache cache :=
  fun _ page hpeek _ => ⟨page, hpeek, fun _ => rfl⟩

theorem retains_modify (cache : PageCache) (key : UInt32 × ℕ) (f : CachedPage → CachedPage) :
    Retains (some key) cache (cache.modify key f) := by
  intro key' page hpeek _
  by_cases hkey : key' = key
  · refine ⟨f page, ?_, fun hne => absurd (congrArg some hkey.symm) hne⟩
    rw [hkey] at hpeek ⊢
    rw [Lru.peek_modify_self, hpeek, Option.map_some]
  · exact ⟨page, (Lru.peek_modify_ne _ hkey _).trans hpeek, fun _ => rfl⟩

/-- The page that a new entry would push out is not busy. -/
def HasVictim (cache : PageCache) : Prop :=
  cache.cap ≤ cache.keys.length → ∀ victim, cache.peekLru = some victim → ¬ victim.2.Busy

/-- **A new entry** keeps the busy pages exactly if the page that it pushes out is not busy. -/
theorem retains_put_iff {cache : PageCache} {key : UInt32 × ℕ} (hnew : key ∉ cache.keys)
    (given : Option (UInt32 × ℕ)) (page : CachedPage) :
    Retains given cache (Lru.put cache key page) ↔ cache.HasVictim := by
  constructor
  · intro hretains hfull victim hvictim hbusy
    obtain ⟨page', hpeek, -⟩ := hretains victim.1 victim.2 (Lru.peek_of_peekLru hvictim) hbusy
    rw [Lru.peek_put_of_peekLru hnew hfull hvictim page] at hpeek
    cases hpeek
  · intro hvictim key' old hpeek hbusy
    rcases Lru.mem_kept_or_peekLru hpeek with hkept | ⟨hfull, hlast⟩
    · exact ⟨old, (Lru.peek_put_of_kept hnew hkept page).trans hpeek, fun _ => rfl⟩
    · exact absurd hbusy (hvictim hfull _ hlast)

theorem retains_guardedPut {cache cache' : PageCache} {key : UInt32 × ℕ} {page : CachedPage}
    (h : cache.guardedPut key page = .ok cache') : Retains (some key) cache cache' := by
  by_cases hmem : key ∈ cache.keys
  · obtain ⟨old, hold⟩ := Lru.mem_keys_iff.mp hmem
    have hput : cache' = Lru.put cache key page := by
      unfold guardedPut at h
      simp only [hold, Option.isNone_some, Bool.false_and] at h
      exact (Except.ok.inj h).symm
    rw [hput]
    intro key' page' hpeek _
    by_cases hkey : key' = key
    · exact ⟨page, by rw [hkey, Lru.peek_put_self], fun hne => absurd (congrArg some hkey.symm) hne⟩
    · exact ⟨page', (Lru.peek_put_of_mem hmem hkey page).trans hpeek, fun _ => rfl⟩
  · -- the guard lets a new entry in only when the page that leaves is clean and unpinned
    have hnone := Lru.peek_eq_none_iff.mpr hmem
    have hput : cache' = Lru.put cache key page ∧ cache.HasVictim := by
      unfold guardedPut at h
      simp only [hnone, Option.isNone_none, Bool.true_and] at h
      split at h
      · next victim hfull hlast =>
          split at h
          · cases h
          · next hfree =>
              refine ⟨(Except.ok.inj h).symm, fun _ other hother => ?_⟩
              rw [hlast] at hother
              rw [← Option.some.inj hother]
              exact hfree
      · next hneither =>
          refine ⟨(Except.ok.inj h).symm, fun hfull other hother => ?_⟩
          exact absurd hother (hneither other.1 other.2 (decide_eq_true hfull))
    rw [hput.1]
    exact (retains_put_iff hmem _ page).mpr hput.2

theorem samePages_markClean_all (cache : PageCache) (pages : List ((UInt32 × ℕ) × List UInt8)) :
    SamePages cache (pages.foldl (fun cache page => markClean cache page.1) cache) := by
  induction pages generalizing cache with
  | nil => exact fun _ => rfl
  | cons page rest ih =>
      have hstep : SamePages cache (cache.markClean page.1) := samePages_modify cache page.1 fun _ => ⟨rfl, rfl⟩
      exact hstep.trans (ih _)

end PageCache

namespace Volume

/-- **Loading data** never fails: a block that cannot be read counts as empty. -/
theorem exists_loadData (v : Volume) (inode : UInt32) (block : ℕ) :
    ∃ data s, loadData inode block v = .ok data { v with storage := s } := by
  unfold loadData
  rw [bind_ok (get_apply v)]
  cases v.pageCache.otherCopy inode block with
  | some data => exact ⟨data, v.storage, rfl⟩
  | none =>
      cases hread : StorageM.readBlock block v.storage with
      | ok data s => exact ⟨data, s, tryCatch_ok (zoom_ok hread)⟩
      | error e s => exact ⟨[], s, tryCatch_error (zoom_error hread)⟩

theorem getOrLoad_of_cached {v : Volume} {inode : UInt32} {block : ℕ} {page : CachedPage}
    (h : v.pageCache.peek (inode, block) = some page) (index : ℕ) :
    getOrLoad inode block index v = .ok page { v with pageCache := (v.pageCache.get (inode, block)).2 } := by
  unfold getOrLoad
  rw [bind_ok (getPage_apply v inode block), h]
  rfl

theorem getOrLoad_of_load {v : Volume} {inode : UInt32} {block : ℕ} (h : v.pageCache.peek (inode, block) = none)
    {data : List UInt8} {s : Storage} (hload : loadData inode block v = .ok data { v with storage := s }) (index : ℕ) :
    getOrLoad inode block index v = .ok { block, data, inode := some inode, index }
      { v with storage := s, pageCache := Lru.put v.pageCache (inode, block) { block, data, inode := some inode, index } } := by
  have hsame : (v.pageCache.get (inode, block)).2 = v.pageCache :=
    Lru.modify_of_not_mem (Lru.peek_eq_none_iff.mp h) id
  unfold getOrLoad
  rw [bind_ok (getPage_apply v inode block), hsame, h]
  simp only
  rw [bind_ok hload]
  rfl

/-- **A page that is not cached** is added by `get_or_load`, whatever leaves the cache for it. -/
theorem exists_getOrLoad {v : Volume} {inode : UInt32} {block : ℕ} (h : v.pageCache.peek (inode, block) = none)
    (index : ℕ) :
    ∃ data s, getOrLoad inode block index v = .ok { block, data, inode := some inode, index }
      { v with storage := s, pageCache := Lru.put v.pageCache (inode, block) { block, data, inode := some inode, index } } := by
  obtain ⟨data, s, hload⟩ := exists_loadData v inode block
  exact ⟨data, s, getOrLoad_of_load h hload index⟩

/-- The cache is the same. -/
def SameCache (v v' : Volume) : Prop :=
  v'.pageCache = v.pageCache

instance : IsPreorder Volume SameCache where
  refl _ := rfl
  trans _ _ _ h h' := h'.trans h

theorem sameCache_writeDirty (pages : List ((UInt32 × ℕ) × List UInt8)) : Within SameCache (writeDirty pages) := by
  induction pages with
  | nil => exact Within.pure _
  | cons page rest ih =>
      refine Within.bind (R := SameCache) (fun v => ?_) fun _ => ih
      show (final (onStorage (StorageM.writeBlock page.1.2 page.2) v)).pageCache = v.pageCache
      unfold onStorage
      rw [final_zoom]

/-- **Flushing** changes flags of the cached pages only. -/
theorem samePages_flushPages (pages : List ((UInt32 × ℕ) × List UInt8)) (v : Volume) :
    PageCache.SamePages v.pageCache (final (flushPages pages v)).pageCache := by
  have hwrite := sameCache_writeDirty pages v
  unfold flushPages
  cases hrun : writeDirty pages v with
  | error e v' =>
      rw [hrun, final_error] at hwrite
      rw [bind_error hrun, final_error, hwrite]
      exact fun _ => rfl
  | ok _ v' =>
      rw [hrun, final_ok] at hwrite
      rw [bind_ok hrun, ← hwrite]
      exact PageCache.samePages_markClean_all v'.pageCache pages

end Volume

namespace CacheCall

open PageCache

/-- The busy pages are still cached after the call. -/
def Keeps (call : CacheCall) (v : Volume) : Prop :=
  Retains call.written v.pageCache (call.next v).pageCache

/-- When `get_or_load` adds a page, the page that it pushes out is clean and unpinned. -/
def SafeLoad : CacheCall → Volume → Prop
  | getOrLoad inode block _, v => v.pageCache.peek (inode, block) = none → v.pageCache.HasVictim
  | _, _ => True

theorem keeps_of_samePages {call : CacheCall} {v : Volume}
    (h : SamePages v.pageCache (call.next v).pageCache) : call.Keeps v :=
  h.retains _

theorem next_getOrLoad (v : Volume) (inode : UInt32) (block index : ℕ) :
    (getOrLoad inode block index).next v = final (Volume.getOrLoad inode block index v) := by
  change final ((Volume.getOrLoad inode block index >>= fun _ => pure ()) v) = _
  cases hload : Volume.getOrLoad inode block index v with
  | ok page v' => rw [bind_ok hload, pure_apply, final_ok, final_ok]
  | error e v' => rw [bind_error hload, final_error, final_error]

theorem keeps_getOrLoad_iff (v : Volume) (inode : UInt32) (block index : ℕ) :
    (getOrLoad inode block index).Keeps v ↔ (getOrLoad inode block index).SafeLoad v := by
  cases hpeek : v.pageCache.peek (inode, block) with
  | some page =>
      refine iff_of_true (keeps_of_samePages ?_) fun hnone => ?_
      · have hnext : ((getOrLoad inode block index).next v).pageCache = (v.pageCache.get (inode, block)).2 := by
          rw [next_getOrLoad, Volume.getOrLoad_of_cached hpeek, final_ok]
        rw [hnext]
        exact samePages_modify _ _ fun _ => ⟨rfl, rfl⟩
      · rw [hpeek] at hnone
        cases hnone
  | none =>
      obtain ⟨data, s, hload⟩ := Volume.exists_getOrLoad hpeek index
      have hnext : ((getOrLoad inode block index).next v).pageCache =
          Lru.put v.pageCache (inode, block) { block, data, inode := some inode, index } := by
        rw [next_getOrLoad, hload, final_ok]
      unfold Keeps
      rw [hnext, retains_put_iff (Lru.peek_eq_none_iff.mp hpeek)]
      exact ⟨fun h _ => h, fun h => h hpeek⟩

/-- A change that may be refused. -/
theorem keeps_tryCache {call : CacheCall} {f : PageCache → Except StorageError PageCache} {v : Volume}
    (hcall : call.perform = Volume.tryCache f)
    (hf : ∀ cache', f v.pageCache = .ok cache' → Retains call.written v.pageCache cache') : call.Keeps v := by
  unfold Keeps next
  rw [hcall]
  cases hresult : f v.pageCache with
  | error e =>
      rw [Volume.tryCache_error hresult]
      exact retains_refl call.written v.pageCache
  | ok cache' =>
      rw [Volume.tryCache_ok hresult]
      exact hf cache' hresult

/-- **One call** keeps the busy pages exactly if it is no load that pushes a busy page out. -/
theorem keeps_iff_safeLoad (call : CacheCall) (v : Volume) : call.Keeps v ↔ call.SafeLoad v := by
  cases call with
  | getOrLoad inode block index => exact keeps_getOrLoad_iff v inode block index
  | get inode block =>
      exact iff_of_true (keeps_of_samePages (samePages_modify _ _ fun _ => ⟨rfl, rfl⟩)) trivial
  | unpinPage inode block =>
      exact iff_of_true (keeps_of_samePages (samePages_modify _ _ fun _ => ⟨rfl, rfl⟩)) trivial
  | markDirty inode block =>
      exact iff_of_true (keeps_of_samePages (samePages_modify _ _ fun _ => ⟨rfl, rfl⟩)) trivial
  | markDirtyTxn inode block txid =>
      exact iff_of_true (keeps_of_samePages (samePages_modify _ _ fun _ => ⟨rfl, rfl⟩)) trivial
  | flushInode inode => exact iff_of_true (keeps_of_samePages (Volume.samePages_flushPages _ v)) trivial
  | flushAll => exact iff_of_true (keeps_of_samePages (Volume.samePages_flushPages _ v)) trivial
  | put inode page =>
      refine iff_of_true (keeps_tryCache (f := fun cache => PageCache.put cache inode page) rfl fun cache' hput => ?_) trivial
      rw [put_eq] at hput
      exact retains_guardedPut hput
  | putBlock block page =>
      exact iff_of_true (keeps_tryCache (f := fun cache => cache.putBlock block page) rfl fun cache' hput =>
        retains_guardedPut hput) trivial
  | getMutForWrite inode block f =>
      refine iff_of_true (keeps_tryCache (f := fun cache => cache.updateForWrite inode block f) rfl
        fun cache' hupdate => ?_) trivial
      unfold updateForWrite at hupdate
      split at hupdate
      · cases hupdate
      · cases hupdate
        exact retains_modify v.pageCache (inode, block) _

/-- **In a run of calls** no busy page leaves the cache exactly if no load pushes one out. -/
theorem along_keeps_iff (v : Volume) (calls : List CacheCall) : Along Keeps v calls ↔ Along SafeLoad v calls := by
  induction calls generalizing v with
  | nil => exact Iff.rfl
  | cons call rest ih => exact and_congr (call.keeps_iff_safeLoad v) (ih _)

/-- **A load pushes a dirty page out** of a cache of one page. -/
theorem load_evicts_dirty :
    ¬ Along Keeps (.start 1 (.newMemory 2))
      [put 1 { block := 0, data := zeros blockSize, dirty := true }, getOrLoad 2 1 0] := by
  intro h
  have hvictim := (keeps_iff_safeLoad _ _).mp h.2.1 rfl
  exact hvictim le_rfl ((1, 0), { block := 0, data := zeros blockSize, dirty := true }) rfl (Or.inl rfl)

end CacheCall

end JfsFuse
