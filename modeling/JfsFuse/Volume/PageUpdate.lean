import JfsFuse.Volume.Table

/-!
# Updating and committing one page

An update sets the cached page of its inode, and a mark notes the page in the transaction.
Whatever else is cached stays as it is or is pushed out, so after a commit each plain block
holds one of the pages that were cached for it, or what it held before.
-/

namespace JfsFuse

open ByteBuf Program

namespace PageCache

/-- The page of `key` now holds `data` and was used last.  A page that was not there before may
have pushed another one out, but not the one used last. -/
structure Replaces (cache : PageCache) (key : UInt32 × ℕ) (data : List UInt8) (cache' : PageCache) :
    Prop where
  cap : cache'.cap = cache.cap
  front : cache'.keys.head? = some key
  page : ∃ page, cache'.peek key = some page ∧ page.data = data ∧
    ((∀ old, cache.peek key = some old → old.block = key.2) → page.block = key.2)
  others : ∀ key', key' ≠ key → cache'.peek key' = cache.peek key' ∨ cache'.peek key' = none
  stays : key ∈ cache.keys → ∀ key', key' ≠ key → cache'.peek key' = cache.peek key'
  recent : 2 ≤ cache.cap → ∀ key', cache.keys.head? = some key' → key' ≠ key →
    cache'.peek key' = cache.peek key'
  spare : key ∈ cache.keys ∨ cache.keys.length < cache.cap →
    cache'.keys = key :: cache.keys.filter (· ≠ key) ∧ ∀ key' ≠ key, cache'.peek key' = cache.peek key'

namespace Replaces

variable {cache cache' cache'' : PageCache} {key : UInt32 × ℕ} {data data' : List UInt8}

theorem mem (h : Replaces cache key data cache') : key ∈ cache'.keys := by
  obtain ⟨page, hpeek, -, -⟩ := h.page
  exact Lru.mem_keys_iff.mpr ⟨page, hpeek⟩

theorem trans (h : Replaces cache key data cache') (h' : Replaces cache' key data' cache'') :
    Replaces cache key data' cache'' := by
  have hsame := h'.stays h.mem
  obtain ⟨page, hpeek, -, hkeyed⟩ := h.page
  obtain ⟨page', hpeek', hdata', hkeyed'⟩ := h'.page
  refine ⟨h'.cap.trans h.cap, h'.front, ⟨page', hpeek', hdata', fun hold => hkeyed' fun old heq => ?_⟩,
    fun key' hne => ?_, fun hmem key' hne => ?_, fun hcap key' hhead hne => ?_, fun hroom => ?_⟩
  · rw [Option.some.inj (heq.symm.trans hpeek)]
    exact hkeyed hold
  · rw [hsame key' hne]
    exact h.others key' hne
  · rw [hsame key' hne]
    exact h.stays hmem key' hne
  · rw [hsame key' hne]
    exact h.recent hcap key' hhead hne
  · obtain ⟨hkeys, hpeeks⟩ := h.spare hroom
    obtain ⟨hkeys', hpeeks'⟩ := h'.spare (Or.inl h.mem)
    refine ⟨?_, fun key' hne => (hpeeks' key' hne).trans (hpeeks key' hne)⟩
    rw [hkeys', hkeys, List.filter_cons_of_neg (by simp), List.filter_filter]
    simp only [Bool.and_self]

/-- A use of a page that is there. -/
theorem modify {page : CachedPage} (hpeek : cache.peek key = some page) {f : CachedPage → CachedPage}
    (hf : (f page).block = page.block) : Replaces cache key (f page).data (cache.modify key f) := by
  have hmem : key ∈ cache.keys := Lru.mem_keys_iff.mpr ⟨page, hpeek⟩
  have hothers : ∀ key', key' ≠ key → (cache.modify key f).peek key' = cache.peek key' :=
    fun key' hne => Lru.peek_modify_ne _ hne f
  refine ⟨Lru.cap_modify .., Lru.head?_keys_modify hmem f,
    ⟨f page, ?_, rfl, fun hold => hf.trans (hold page hpeek)⟩, fun key' hne => Or.inl (hothers key' hne),
    fun _ => hothers, fun _ key' _ => hothers key', fun _ => ⟨Lru.keys_modify hmem f, hothers⟩⟩
  rw [Lru.peek_modify_self, hpeek, Option.map_some]

/-- A new page. -/
theorem put (hnew : key ∉ cache.keys) {page : CachedPage} (hblock : page.block = key.2) :
    Replaces cache key page.data (Lru.put cache key page) := by
  refine ⟨Lru.cap_put .., Lru.head?_keys_put .., ⟨page, Lru.peek_put_self .., rfl, fun _ => hblock⟩,
    fun key' hne => Lru.peek_put_ne _ hne _, fun hmem => absurd hmem hnew, fun hcap key' hhead _ => ?_,
    fun hroom => ?_⟩
  · exact Lru.peek_put_of_kept hnew (Lru.head_mem_kept hcap hhead) _
  · have hkept : Lru.kept cache = cache.keys := if_pos (hroom.resolve_left hnew)
    refine ⟨?_, fun key' hne => ?_⟩
    · rw [Lru.keys_put_of_not_mem hnew, hkept, List.filter_eq_self.mpr]
      intro key' hmem
      simpa using ne_of_mem_of_not_mem hmem hnew
    · by_cases hmem : key' ∈ cache.keys
      · exact Lru.peek_put_of_kept hnew (hkept ▸ hmem) _
      · rw [Lru.peek_eq_none_iff.mpr hmem, Lru.peek_eq_none_iff, Lru.keys_put_of_not_mem hnew, hkept]
        exact List.not_mem_cons_of_ne_of_not_mem hne hmem

end Replaces

/-- The same pages are cached, with the same data. -/
def SamePages (cache cache' : PageCache) : Prop :=
  ∀ key, (cache'.peek key).map (fun page => (page.block, page.data)) =
    (cache.peek key).map fun page => (page.block, page.data)

theorem SamePages.of_peek {cache cache' : PageCache} (h : SamePages cache cache') {key : UInt32 × ℕ}
    {page : CachedPage} (hpeek : cache'.peek key = some page) :
    ∃ old, cache.peek key = some old ∧ old.block = page.block ∧ old.data = page.data := by
  have hsame := h key
  rw [hpeek, Option.map_some] at hsame
  obtain ⟨old, hold, heq⟩ := Option.map_eq_some_iff.mp hsame.symm
  exact ⟨old, hold, congrArg Prod.fst heq, congrArg Prod.snd heq⟩

theorem SamePages.symm {cache cache' : PageCache} (h : SamePages cache cache') : SamePages cache' cache :=
  fun key => (h key).symm

theorem SamePages.trans {cache cache' cache'' : PageCache} (h : SamePages cache cache')
    (h' : SamePages cache' cache'') : SamePages cache cache'' :=
  fun key => (h' key).trans (h key)

theorem samePages_modify (cache : PageCache) (key : UInt32 × ℕ) {f : CachedPage → CachedPage}
    (hf : ∀ page, (f page).block = page.block ∧ (f page).data = page.data) :
    SamePages cache (cache.modify key f) := by
  intro key'
  by_cases hkey : key' = key
  · rw [hkey, Lru.peek_modify_self, Option.map_map]
    refine Option.map_congr fun page _ => ?_
    rw [Function.comp_apply, (hf page).1, (hf page).2]
  · rw [Lru.peek_modify_ne _ hkey]

/-- **Aborting a page** leaves its data in the cache. -/
theorem samePages_abortPage (cache : PageCache) (ino : UInt32) (block : ℕ)
    (hkeyed : ∀ page, cache.peek (ino, block) = some page → page.block = block) :
    SamePages cache (cache.abortPage ino block) := by
  have hused : SamePages cache (cache.get (ino, block)).2 :=
    samePages_modify cache (ino, block) fun _ => ⟨rfl, rfl⟩
  have hunpin : ∀ cache : PageCache, SamePages cache (cache.unpinPage ino block) :=
    fun cache => samePages_modify cache (ino, block) fun _ => ⟨rfl, rfl⟩
  unfold abortPage
  cases hpeek : cache.peek (ino, block) with
  | none => exact hused.trans (hunpin _)
  | some page =>
      have hblock := hkeyed page hpeek
      have hpresent : (cache.get (ino, block)).2.peek (ino, block) = some page :=
        (Lru.peek_get cache _ _).trans hpeek
      have hput : put (cache.get (ino, block)).2 ino
          { page with dirty := false, txid := 0 }.unpin = .ok (Lru.put (cache.get (ino, block)).2
            (ino, block) { page with dirty := false, txid := 0 }.unpin) := by
        unfold put
        rw [CachedPage.block_unpin]
        simp only [hblock, hpresent]
        rfl
      have hrestored : SamePages (cache.get (ino, block)).2 (Lru.put (cache.get (ino, block)).2
          (ino, block) { page with dirty := false, txid := 0 }.unpin) := by
        intro key
        by_cases hkey : key = (ino, block)
        · rw [hkey, Lru.peek_put_self, hpresent]
          rfl
        · rw [Lru.peek_put_of_mem (Lru.mem_keys_iff.mpr ⟨page, hpresent⟩) hkey]
      simp only [hput]
      exact (hused.trans hrestored).trans (hunpin _)

end PageCache

namespace Volume

/-! ## The contents that a block is seen with -/

/-- Some page that is cached for the block, or the block itself, holds `data`. -/
def Shows (v : Volume) (block : ℕ) (data : List UInt8) : Prop :=
  v.storage.block block = data ∨ ∃ ino page, v.pageCache.peek (ino, block) = some page ∧ page.data = data

/-- What an update of an inode in a block starts from: its own copy, or else the copy used last,
or else the block. -/
def loaded (v : Volume) (ino : UInt32) (block : ℕ) : List UInt8 :=
  ((v.pageCache.peek (ino, block)).map CachedPage.data).getD
    ((v.pageCache.otherCopy ino block).getD (v.storage.block block))

theorem shows_own (v : Volume) (ino : UInt32) (block : ℕ) : v.Shows block (v.own ino block) := by
  unfold own
  cases hpeek : v.pageCache.peek (ino, block) with
  | none =>
      rw [Option.map_none, Option.getD_none]
      exact Or.inl rfl
  | some page => exact Or.inr ⟨ino, page, hpeek, rfl⟩

/-- The first page in order of use whose key satisfies a condition is cached. -/
theorem of_find?_iter {cache : PageCache} {p : UInt32 × ℕ → Bool} {e : (UInt32 × ℕ) × CachedPage}
    (h : cache.iter.find? (fun e => p e.1) = some e) : p e.1 = true ∧ cache.peek e.1 = some e.2 := by
  refine ⟨List.find?_some (p := fun e : (UInt32 × ℕ) × CachedPage => p e.1) h, ?_⟩
  rw [Lru.find?_iter cache p] at h
  obtain ⟨key, -, hkey⟩ := Option.bind_eq_some_iff.mp h
  obtain ⟨page, hpage, rfl⟩ := Option.map_eq_some_iff.mp hkey
  exact hpage

theorem shows_shown (v : Volume) (block : ℕ) : v.Shows block (v.shown block) := by
  unfold shown
  cases hpeek : v.pageCache.peekBlock block with
  | none =>
      rw [Option.map_none, Option.getD_none]
      exact Or.inl rfl
  | some page =>
      obtain ⟨e, hfind, rfl⟩ := Option.map_eq_some_iff.mp hpeek
      obtain ⟨hkey, hpage⟩ := of_find?_iter (p := fun key => key.2 == block) hfind
      have hblock : e.1 = (e.1.1, block) := Prod.ext rfl (eq_of_beq hkey)
      rw [hblock] at hpage
      exact Or.inr ⟨e.1.1, e.2, hpage, rfl⟩

theorem shows_loaded (v : Volume) (ino : UInt32) (block : ℕ) : v.Shows block (v.loaded ino block) := by
  unfold loaded
  cases hpeek : v.pageCache.peek (ino, block) with
  | some page => exact Or.inr ⟨ino, page, hpeek, rfl⟩
  | none =>
      rw [Option.map_none, Option.getD_none]
      cases hother : v.pageCache.otherCopy ino block with
      | none =>
          rw [Option.getD_none]
          exact Or.inl rfl
      | some data =>
          obtain ⟨e, hfind, rfl⟩ := Option.map_eq_some_iff.mp hother
          obtain ⟨hkey, hpage⟩ := of_find?_iter (p := fun key => key.2 == block && key.1 != ino) hfind
          have hblock : e.1 = (e.1.1, block) := Prod.ext rfl (eq_of_beq (Bool.and_eq_true_iff.mp hkey).1)
          rw [hblock] at hpage
          exact Or.inr ⟨e.1.1, e.2, hpage, rfl⟩

/-- An inode without a copy of a block starts from the copy of the page that was used last. -/
theorem loaded_of_head {v : Volume} {ino i : UInt32} {block : ℕ} {page : CachedPage} (hne : i ≠ ino)
    (hnone : v.pageCache.peek (ino, block) = none) (hhead : v.pageCache.keys.head? = some (i, block))
    (hpeek : v.pageCache.peek (i, block) = some page) : v.loaded ino block = page.data := by
  obtain ⟨rest, hkeys⟩ := List.head?_eq_some_iff.mp hhead
  have hother : v.pageCache.otherCopy ino block = some page.data := by
    unfold PageCache.otherCopy
    rw [Lru.find?_iter v.pageCache fun key => key.2 == block && key.1 != ino, hkeys,
      List.find?_cons_of_pos (by simpa using hne), Option.bind_some, hpeek]
    rfl
  unfold loaded
  rw [hnone, hother, Option.map_none, Option.getD_none, Option.getD_some]

theorem Calm.length_of_shows {v : Volume} (h : v.Calm) {block : ℕ} {data : List UInt8}
    (hshows : v.Shows block data) : data.length = blockSize := by
  rcases hshows with rfl | ⟨ino, page, hpeek, rfl⟩
  · exact v.storage.length_block block
  · exact h.pages _ page hpeek

/-! ## Updates and marks -/

theorem Calm.getOrLoad {v : Volume} (h : v.Calm) {block : ℕ} (hblock : block < v.aggSize) (ino : UInt32) :
    ∃ page cache, getOrLoad ino block 0 v = .ok page { v with pageCache := cache } ∧
      PageCache.Replaces v.pageCache (ino, block) (v.loaded ino block) cache := by
  unfold Volume.getOrLoad loaded
  rw [bind_ok (getPage_apply v ino block)]
  cases hpeek : v.pageCache.peek (ino, block) with
  | some page =>
      rw [Option.map_some, Option.getD_some]
      exact ⟨page, _, rfl, PageCache.Replaces.modify hpeek (f := id) rfl⟩
  | none =>
      have hnew : (ino, block) ∉ v.pageCache.keys := Lru.peek_eq_none_iff.mp hpeek
      have hsame : (v.pageCache.get (ino, block)).2 = v.pageCache := Lru.modify_of_not_mem hnew id
      have hload : loadData ino block v =
          .ok ((v.pageCache.otherCopy ino block).getD (v.storage.block block)) v := by
        unfold loadData
        rw [bind_ok (get_apply v)]
        cases v.pageCache.otherCopy ino block with
        | none =>
            rw [Option.getD_none]
            exact tryCatch_ok (zoom_ok (h.readBlock hblock))
        | some data => rfl
      rw [hsame, Option.map_none, Option.getD_none]
      simp only
      rw [bind_ok hload]
      let page : CachedPage :=
        { block, data := (v.pageCache.otherCopy ino block).getD (v.storage.block block), inode := some ino }
      exact ⟨page, _, rfl, PageCache.Replaces.put hnew (show page.block = block from rfl)⟩

/-- **An update** sets the page of its inode. -/
theorem Calm.updateInodePage {v : Volume} (h : v.Calm) {block : ℕ} (hblock : block < v.aggSize)
    (ino : UInt32) (pageOffset : ℕ) (update : List UInt8 → List UInt8) :
    ∃ cache, updateInodePage ino block pageOffset update v = .ok () { v with pageCache := cache } ∧
      PageCache.Replaces v.pageCache (ino, block) (updateAt pageOffset update (v.loaded ino block))
        cache := by
  obtain ⟨page, loadedCache, hload, hloaded⟩ := h.getOrLoad hblock ino
  obtain ⟨found, hfound, hdata, -⟩ := hloaded.page
  -- the page is there, so it can be changed and then unpinned
  have hchanged := PageCache.Replaces.modify hfound (f := fun page : CachedPage =>
    { page.pin with data := updateAt pageOffset update page.pin.data }) rfl
  obtain ⟨changed, hpeek, hchangedData, -⟩ := hchanged.page
  have hall := (hloaded.trans hchanged).trans
    (PageCache.Replaces.modify hpeek (f := CachedPage.unpin) rfl)
  rw [CachedPage.data_unpin, hchangedData] at hall
  simp only [CachedPage.data_pin, hdata] at hall
  refine ⟨_, ?_, hall⟩
  unfold Volume.updateInodePage
  rw [bind_ok hload, bind_ok (get_apply _)]
  simp only [PageCache.updateForWrite, hfound]
  rfl

/-- **A mark** leaves the pages as they are. -/
theorem markPageDirty_apply {v : Volume} {active : ActiveTxn} (hactive : v.txMgr.active = some active)
    (ino : UInt32) (block : ℕ) :
    ∃ cache, markPageDirty ino block v = .ok () { v with
        pageCache := cache
        txMgr := { v.txMgr with active := some (marked active (ino, block)) } } ∧
      cache.cap = v.pageCache.cap ∧ PageCache.SamePages v.pageCache cache ∧
      ∀ page, v.pageCache.peek (ino, block) = some page →
        PageCache.Replaces v.pageCache (ino, block) page.data cache := by
  refine ⟨v.pageCache.markDirtyTxn ino block active.txid, ?_, Lru.cap_modify .., ?_,
    fun page hpage => PageCache.Replaces.modify hpage
      (f := fun page => { page with dirty := true, txid := active.txid }) rfl⟩
  · unfold markPageDirty
    rw [bind_ok (get_apply v), hactive]
    rfl
  · exact PageCache.samePages_modify _ _ fun _ => ⟨rfl, rfl⟩

/-- What is shown depends only on the data of the pages and of the blocks. -/
theorem Shows.congr {v v' : Volume} {block : ℕ} (hblock : v'.storage.block block = v.storage.block block)
    (hcache : PageCache.SamePages v.pageCache v'.pageCache) {data : List UInt8}
    (h : v'.Shows block data) : v.Shows block data := by
  rcases h with hstored | ⟨ino, page, hpeek, hdata⟩
  · exact Or.inl (hblock.symm.trans hstored)
  · obtain ⟨page', hpeek', -, hdata'⟩ := hcache.of_peek hpeek
    exact Or.inr ⟨ino, page', hpeek', hdata'.trans hdata⟩

/-- **An update and a mark** of a page, in an open transaction. -/
theorem Calm.of_update_and_mark {v v' : Volume} (h : v.Calm) {block : ℕ} (hblock : block < v.aggSize)
    {ino : UInt32} {pageOffset : ℕ} {update : List UInt8 → List UInt8}
    (hrun : (do
      Volume.updateInodePage ino block pageOffset update
      Volume.markPageDirty ino block : VolM Unit) v = .ok () v') :
    ∃ active cache, v.txMgr.active = some active ∧
      v' = { v with
        pageCache := cache
        txMgr := { v.txMgr with active := some (marked active (ino, block)) } } ∧
      PageCache.Replaces v.pageCache (ino, block) (updateAt pageOffset update (v.loaded ino block))
        cache := by
  obtain ⟨updated, hupdate, hreplaces⟩ := h.updateInodePage hblock ino pageOffset update
  rw [bind_ok hupdate] at hrun
  obtain ⟨page, hpage, hdata, -⟩ := hreplaces.page
  cases hactive : v.txMgr.active with
  | none =>
      unfold Volume.markPageDirty at hrun
      rw [bind_ok (get_apply _)] at hrun
      simp only [hactive] at hrun
      cases hrun
  | some active =>
      obtain ⟨cache, hmark, -, -, hmarked⟩ := markPageDirty_apply
        (v := { v with pageCache := updated }) hactive ino block
      cases hrun.symm.trans hmark
      refine ⟨active, cache, rfl, rfl, ?_⟩
      have hall := hreplaces.trans (hmarked page hpage)
      rwa [hdata] at hall

/-! ## Commits -/

theorem mem_of_lastPage {pages : List (ℕ × List UInt8)} {block : ℕ} {data : List UInt8}
    (h : lastPage pages block = some data) : (block, data) ∈ pages := by
  obtain ⟨page, hlast, rfl⟩ := Option.map_eq_some_iff.mp h
  obtain ⟨hmem, hblock⟩ := List.mem_filter.mp (List.mem_of_getLast? hlast)
  have heq : page.1 = block := by simpa using hblock
  rwa [← heq]

theorem of_mem_cachedPages {cache : PageCache} {keys : List (UInt32 × ℕ)} {block : ℕ} {data : List UInt8}
    (h : (block, data) ∈ cachedPages cache keys) :
    ∃ ino page, (ino, block) ∈ keys ∧ cache.peek (ino, block) = some page ∧ page.data = data := by
  obtain ⟨⟨ino, b⟩, hkey, hpage⟩ := List.mem_filterMap.mp h
  obtain ⟨page, hpeek, heq⟩ := Option.map_eq_some_iff.mp hpage
  cases heq
  exact ⟨ino, page, hkey, hpeek, rfl⟩

/-- The pages of a commit are whole blocks. -/
theorem Calm.length_cachedPages {v : Volume} (h : v.Calm) (keys : List (UInt32 × ℕ)) :
    ∀ page ∈ cachedPages v.pageCache keys, page.2.length = blockSize := by
  rintro ⟨block, data⟩ hmem
  obtain ⟨ino, page, -, hpeek, rfl⟩ := of_mem_cachedPages hmem
  exact h.pages _ page hpeek

theorem cachedPages_cons_of_peek {cache : PageCache} {ino : UInt32} {block : ℕ} {page : CachedPage}
    (hpeek : cache.peek (ino, block) = some page) (keys : List (UInt32 × ℕ)) :
    cachedPages cache ((ino, block) :: keys) = (block, page.data) :: cachedPages cache keys := by
  rw [cachedPages_cons, hpeek]
  rfl

/-- **A block after a commit** shows the last page for it. -/
theorem Calm.shows_last {v v' : Volume} (h : v.Calm) {active : ActiveTxn}
    (hactive : v.txMgr.active = some active) {result : CommitResult}
    (hcommit : commitTransaction v = .ok result v') {block : ℕ} (hplain : v.IsPlain block)
    {data : List UInt8} (hlast : lastPage (cachedPages v.pageCache active.dirtyPages) block = some data) :
    v'.Shows block data := by
  refine Or.inl ?_
  rw [block_of_commit hactive hcommit hplain (h.length_cachedPages _), hlast, Option.getD_some]

/-- **A plain block after a commit** shows only what it showed before. -/
theorem Calm.shows_of_commit {v v' : Volume} (h : v.Calm) {active : ActiveTxn}
    (hactive : v.txMgr.active = some active) {result : CommitResult}
    (hcommit : commitTransaction v = .ok result v') {block : ℕ} (hplain : v.IsPlain block)
    {data : List UInt8} (hshows : v'.Shows block data) : v.Shows block data := by
  rcases hshows with hstored | ⟨ino, page, hpeek, hdata⟩
  · rw [block_of_commit hactive hcommit hplain (h.length_cachedPages _)] at hstored
    cases hlast : lastPage (cachedPages v.pageCache active.dirtyPages) block with
    | none =>
        rw [hlast, Option.getD_none] at hstored
        exact Or.inl hstored
    | some last =>
        rw [hlast, Option.getD_some] at hstored
        obtain ⟨ino, page, -, hpeek, hdata⟩ := of_mem_cachedPages (mem_of_lastPage hlast)
        exact Or.inr ⟨ino, page, hpeek, hdata.trans hstored⟩
  · obtain ⟨w, storage, hcommitted, rfl, -⟩ := of_commitTransaction_ok hactive hcommit
    have hpages := hcommitted.pages (ino, block)
    split at hpages
    · exact absurd (hpages.symm.trans hpeek) (by simp)
    · exact Or.inr ⟨ino, page, hpages.symm.trans hpeek, hdata⟩

end Volume

end JfsFuse
