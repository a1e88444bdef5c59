import JfsFuse.Volume.CacheCalls

/-!
# Flushing the cache

`flush_all` clears the dirty bits under keys that it makes from the fields of the pages, while
`put` and `put_block` file a page under the inode that the caller names, or under 0.  So a page is
clean afterwards if its key is the one that the fields of some dirty page give.
-/

namespace JfsFuse

open ByteBuf Program

namespace PageCache

def Clean (cache : PageCache) : Prop :=
  ∀ key page, cache.peek key = some page → page.dirty = false

/-- The key of every dirty page is made by the fields of a dirty page. -/
def KeyedByFields (cache : PageCache) : Prop :=
  ∀ key page, cache.peek key = some page → page.dirty = true →
    ∃ key' page', cache.peek key' = some page' ∧ page'.dirty = true ∧ page'.fieldKey = key

/-- The page is dirty, and no other page of its block is. -/
def OnlyDirty (cache : PageCache) (key : UInt32 × ℕ) (page : CachedPage) : Prop :=
  cache.peek key = some page ∧ page.dirty = true ∧
    ∀ key' page', cache.peek key' = some page' → page'.dirty = true → page'.block = page.block → key' = key

theorem mem_dirtyPages {cache : PageCache} {page : CachedPage} :
    page ∈ cache.dirtyPages (fun _ => true) ↔ ∃ key, cache.peek key = some page ∧ page.dirty = true := by
  unfold dirtyPages
  rw [List.mem_filter, List.mem_map, Bool.and_true]
  constructor
  · rintro ⟨⟨⟨key, page⟩, hmem, rfl⟩, hdirty⟩
    exact ⟨key, Lru.mem_iter.mp hmem, hdirty⟩
  · rintro ⟨key, hpeek, hdirty⟩
    exact ⟨⟨(key, page), Lru.mem_iter.mpr hpeek, rfl⟩, hdirty⟩

/-- The pages after the only dirty one of a block belong to other blocks. -/
theorem OnlyDirty.split {cache : PageCache} {key : UInt32 × ℕ} {page : CachedPage} (h : cache.OnlyDirty key page) :
    ∃ before after, cache.dirtyPages (fun _ => true) = before ++ page :: after ∧
      ∀ other ∈ after, other.block ≠ page.block := by
  obtain ⟨hpeek, hdirty, honly⟩ := h
  obtain ⟨before, after, hiter⟩ := List.append_of_mem (Lru.mem_iter.mpr hpeek)
  have hnodup : (cache.iter.map Prod.fst).Nodup := by
    rw [← Lru.keys_eq_map_iter]
    exact cache.keys_nodup
  rw [hiter, List.map_append, List.map_cons, List.nodup_append, List.nodup_cons] at hnodup
  refine ⟨(before.map Prod.snd).filter fun p => p.dirty && true,
    (after.map Prod.snd).filter fun p => p.dirty && true, ?_, fun other hother hblock => ?_⟩
  · unfold dirtyPages
    rw [hiter, List.map_append, List.filter_append, List.map_cons, List.filter_cons_of_pos]
    rw [hdirty, Bool.true_and]
  · rw [List.mem_filter, List.mem_map, Bool.and_true] at hother
    obtain ⟨⟨⟨key', other⟩, hmem, rfl⟩, hdirty'⟩ := hother
    have hcached : cache.peek key' = some other := by
      refine Lru.mem_iter.mp ?_
      rw [hiter]
      exact List.mem_append_right _ (List.mem_cons_of_mem _ hmem)
    have hsame := honly key' other hcached hdirty' hblock
    exact hnodup.2.1.1 (List.mem_map.mpr ⟨_, hmem, hsame⟩)

/-- **Clearing dirty bits** under a list of keys. -/
theorem peek_markClean_all (cache : PageCache) (pages : List ((UInt32 × ℕ) × List UInt8)) (key : UInt32 × ℕ) :
    (pages.foldl (fun cache page => markClean cache page.1) cache).peek key =
      if key ∈ pages.map Prod.fst then (cache.peek key).map CachedPage.cleaned else cache.peek key := by
  induction pages generalizing cache with
  | nil => rfl
  | cons page rest ih =>
      rw [List.foldl_cons, ih]
      unfold markClean
      by_cases hkey : key = page.1
      · have hidem : CachedPage.cleaned ∘ CachedPage.cleaned = CachedPage.cleaned := rfl
        have hmem : key ∈ (page :: rest).map Prod.fst := List.mem_cons.mpr (.inl hkey)
        rw [if_pos hmem, hkey, Lru.peek_modify_self, Option.map_map, hidem, ite_self]
      · have hmem : key ∈ (page :: rest).map Prod.fst ↔ key ∈ rest.map Prod.fst := by
          rw [List.map_cons, List.mem_cons, or_iff_right hkey]
        rw [Lru.peek_modify_ne _ hkey]
        exact if_congr hmem.symm rfl rfl

end PageCache

namespace Volume

open PageCache

/-- **The loop that writes pages** that returned. -/
theorem of_writeDirty {pages : List ((UInt32 × ℕ) × List UInt8)} {v v' : Volume} {u : Unit}
    (h : writeDirty pages v = .ok u v') :
    v'.pageCache = v.pageCache ∧
      v'.storage.data = Memory.writeAll (pages.map fun page => (page.1.2 * blockSize, page.2)) v.storage.data := by
  induction pages generalizing v with
  | nil =>
      cases h
      exact ⟨rfl, rfl⟩
  | cons page rest ih =>
      obtain ⟨_, v₁, hwrite, hrest⟩ := of_bind_ok h
      obtain ⟨s, hrun, rfl⟩ := of_zoom_ok hwrite
      obtain ⟨hcache, hdata⟩ := ih hrest
      refine ⟨hcache, ?_⟩
      rw [hdata, (StorageM.of_writeBlock hrun).1, List.map_cons, Memory.writeAll_cons]

/-- Every block with exactly one dirty page holds the data of this page. -/
def Stored (v v' : Volume) : Prop :=
  ∀ key page, v.pageCache.OnlyDirty key page → v'.storage.block page.block = page.data

/-- **`flush_all`** that returned: the dirty bits under the keys that the fields give are cleared, and
the dirty pages are written one after the other. -/
theorem of_flushAll {v v' : Volume} {u : Unit} (h : flushAll v = .ok u v') :
    (∀ key, v'.pageCache.peek key =
      if ∃ page ∈ v.pageCache.dirtyPages fun _ => true, page.fieldKey = key then
        (v.pageCache.peek key).map CachedPage.cleaned
      else v.pageCache.peek key) ∧
      v'.storage.data = Memory.writeAll
        ((v.pageCache.dirtyPages fun _ => true).map fun page => (page.block * blockSize, page.data)) v.storage.data := by
  change flushPages ((v.pageCache.dirtyPages fun _ => true).map fun page => (page.fieldKey, page.data)) v = _ at h
  obtain ⟨_, v₁, hwrite, hclean⟩ := of_bind_ok h
  cases hclean
  obtain ⟨hcache, hdata⟩ := of_writeDirty hwrite
  refine ⟨fun key => ?_, ?_⟩
  · rw [← hcache]
    refine (peek_markClean_all v₁.pageCache _ key).trans (if_congr ?_ rfl rfl)
    simp only [List.mem_map, exists_exists_and_eq_and]
  · rw [List.map_map] at hdata
    exact hdata

/-- The block of a page that is the only dirty one of its block, when no page is longer than a block. -/
theorem block_of_onlyDirty {v v' : Volume} {u : Unit} (h : flushAll v = .ok u v')
    (hshort : ∀ key page, v.pageCache.peek key = some page → page.dirty = true → page.data.length ≤ blockSize)
    {key : UInt32 × ℕ} {page : CachedPage} (honly : v.pageCache.OnlyDirty key page)
    (hlen : page.data.length = blockSize) : v'.storage.block page.block = page.data := by
  obtain ⟨before, after, hsplit, hafter⟩ := honly.split
  have hdata := (of_flushAll h).2
  rw [hsplit, List.map_append, List.map_cons, Memory.writeAll_append, Memory.writeAll_cons] at hdata
  unfold Storage.block
  rw [hdata, Memory.read_writeAll_of_disjoint]
  · have hread := Memory.read_write_self (Memory.writeAll
      (before.map fun page => (page.block * blockSize, page.data)) v.storage.data) (page.block * blockSize) page.data
    rwa [hlen] at hread
  · intro entry hentry
    obtain ⟨other, hother, rfl⟩ := List.mem_map.mp hentry
    obtain ⟨key', hpeek, hdirty⟩ := mem_dirtyPages.mp
      (hsplit ▸ List.mem_append_right _ (List.mem_cons_of_mem _ hother))
    have hle := hshort key' other hpeek hdirty
    rcases Nat.lt_or_gt_of_ne (hafter other hother) with hlt | hgt
    · have hmul := Nat.mul_le_mul_right blockSize (Nat.succ_le_of_lt hlt)
      rw [Nat.succ_mul] at hmul
      exact .inl ((Nat.add_le_add_left hle _).trans hmul)
    · have hmul := Nat.mul_le_mul_right blockSize (Nat.succ_le_of_lt hgt)
      rw [Nat.succ_mul] at hmul
      exact .inr hmul

/-- **`flush_all`** cleans the cache and stores the pages exactly if the keys of the dirty pages are
made by their fields, and a page that is the only dirty one of its block has the size of a block. -/
theorem flushAll_iff {v v' : Volume} (hflush : flushAll v = .ok () v')
    (hshort : ∀ key page, v.pageCache.peek key = some page → page.dirty = true → page.data.length ≤ blockSize) :
    (v'.pageCache.Clean ∧ v.Stored v') ↔
      v.pageCache.KeyedByFields ∧ ∀ key page, v.pageCache.OnlyDirty key page → page.data.length = blockSize := by
  have hpeek := (of_flushAll hflush).1
  constructor
  · rintro ⟨hclean, hstored⟩
    refine ⟨fun key page hcached hdirty => ?_, fun key page honly => ?_⟩
    · -- otherwise the page is as it was, and dirty
      by_contra hnone
      have hkept : v'.pageCache.peek key = some page := by
        rw [hpeek, if_neg, hcached]
        rintro ⟨page', hmem, hkey⟩
        obtain ⟨key', hcached', hdirty'⟩ := mem_dirtyPages.mp hmem
        exact hnone ⟨key', page', hcached', hdirty', hkey⟩
      rw [hclean key page hkept] at hdirty
      cases hdirty
    · rw [← hstored key page honly]
      exact v'.storage.length_block page.block
  · rintro ⟨hkeyed, hsized⟩
    refine ⟨fun key page hcached => ?_, fun key page honly =>
      block_of_onlyDirty hflush hshort honly (hsized key page honly)⟩
    rw [hpeek] at hcached
    split at hcached
    · obtain ⟨old, -, rfl⟩ := Option.map_eq_some_iff.mp hcached
      rfl
    · next hnone =>
        by_contra hdirty
        obtain ⟨key', page', hcached', hdirty', hkey⟩ := hkeyed key page hcached (by simpa using hdirty)
        exact hnone ⟨page', mem_dirtyPages.mpr ⟨key', hcached', hdirty'⟩, hkey⟩

/-! ## A cache with one page -/

/-- The page of block 3, dirty. -/
def thirdBlock (inode : Option UInt32) : CachedPage :=
  { block := 3, data := zeros blockSize, dirty := true, inode }

/-- An empty cache on four blocks, into which inode 5 has put this page. -/
def withThirdBlock (inode : Option UInt32) : Volume :=
  (CacheCall.put 5 (thirdBlock inode)).next (.start 256 (.newMemory 4))

theorem peek_withThirdBlock {inode : Option UInt32} {key : UInt32 × ℕ} {page : CachedPage}
    (h : (withThirdBlock inode).pageCache.peek key = some page) : key = (5, 3) ∧ page = thirdBlock inode := by
  have hiter : (withThirdBlock inode).pageCache.iter = [((5, 3), thirdBlock inode)] := rfl
  have hmem := Lru.mem_iter.mpr h
  rw [hiter, List.mem_singleton] at hmem
  exact Prod.mk.inj hmem

theorem exists_flushAll_thirdBlock (inode : Option UInt32) :
    ∃ v', flushAll (withThirdBlock inode) = .ok () v' := by
  have hpages : (withThirdBlock inode).pageCache.dirtyPages (fun _ => true) = [thirdBlock inode] := rfl
  have hsteady : (Storage.newMemory 4).Steady := ⟨rfl, rfl⟩
  obtain ⟨s, hwrite, -⟩ := hsteady.writeBlock le_rfl (show (zeros blockSize).length = blockSize from List.length_replicate)
  have hone : onStorage (StorageM.writeBlock 3 (zeros blockSize)) (withThirdBlock inode) =
      .ok () { withThirdBlock inode with storage := s } := zoom_ok hwrite
  have hall : writeDirty [((thirdBlock inode).fieldKey, (thirdBlock inode).data)] (withThirdBlock inode) =
      .ok () { withThirdBlock inode with storage := s } := bind_ok hone
  unfold flushAll flushPages
  rw [bind_ok (get_apply _), hpages, List.map_singleton, bind_ok hall]
  exact ⟨_, modify_apply ..⟩

/-- A page that was put without its inode stays dirty. -/
theorem flushAll_leaves_dirty :
    ∃ v', flushAll ((CacheCall.put 5 (thirdBlock none)).next (.start 256 (.newMemory 4))) = .ok () v' ∧
      ¬ v'.pageCache.Clean := by
  obtain ⟨v', hflush⟩ := exists_flushAll_thirdBlock none
  refine ⟨v', hflush, fun hclean => ?_⟩
  have hpeek := (of_flushAll hflush).1 (5, 3)
  have hother : ¬ ∃ page ∈ (withThirdBlock none).pageCache.dirtyPages fun _ => true, page.fieldKey = (5, 3) := by
    rintro ⟨page, hmem, hkey⟩
    obtain ⟨key, hcached, -⟩ := mem_dirtyPages.mp hmem
    rw [(peek_withThirdBlock hcached).2] at hkey
    exact absurd hkey (by decide)
  rw [if_neg hother] at hpeek
  exact absurd (hclean (5, 3) (thirdBlock none) hpeek) (by decide)

/-- The same page, put with its inode. -/
theorem flushAll_iff_thirdBlock :
    ∃ v', flushAll (withThirdBlock (some 5)) = .ok () v' ∧ v'.pageCache.Clean ∧ (withThirdBlock (some 5)).Stored v' := by
  obtain ⟨v', hflush⟩ := exists_flushAll_thirdBlock (some 5)
  have hlen : (thirdBlock (some 5)).data.length = blockSize := List.length_replicate
  refine ⟨v', hflush, (flushAll_iff hflush fun key page hpeek _ => ?_).mpr
    ⟨fun key page hpeek _ => ?_, fun key page honly => ?_⟩⟩
  · rw [(peek_withThirdBlock hpeek).2]
    exact hlen.le
  · exact ⟨(5, 3), thirdBlock (some 5), rfl, rfl, (peek_withThirdBlock hpeek).1.symm⟩
  · rw [(peek_withThirdBlock honly.1).2]
    exact hlen

end Volume

end JfsFuse
