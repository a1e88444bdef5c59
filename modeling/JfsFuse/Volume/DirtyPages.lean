import JfsFuse.Volume.Discard
import JfsFuse.Volume.Mount
import JfsFuse.Volume.OpenTransaction
import JfsFuse.Volume.RunSteps

/-!
# Dirty pages and open transactions

`ConsistencyChecker` says what the page cache may hold in each phase: no dirty and no pinned page
while no transaction is open, and only pinned ones among the dirty pages while one is.  An update
gives its pin back before the page is marked, so no page is ever pinned between two steps, and a
page is dirty only while it is listed in the open transaction.  `HeldBy` is this invariant, for any
set of pages that may be dirty.
-/

namespace JfsFuse

open Program

namespace PageCache

/-! ## What the checker looks at -/

/-- `has_dirty`. -/
def hasDirty (cache : PageCache) : Bool :=
  cache.iter.any fun e => e.2.dirty

/-- `has_pinned`. -/
def hasPinned (cache : PageCache) : Bool :=
  cache.iter.any fun e => 0 < e.2.pinCount

/-- `check_idle`; it panics unless this holds. -/
def checkIdle (cache : PageCache) : Bool :=
  !cache.hasDirty && !cache.hasPinned

/-- `check_in_transaction`: no dirty page is without a pin. -/
def checkInTransaction (cache : PageCache) : Bool :=
  !cache.iter.any fun e => e.2.dirty && e.2.pinCount == 0

/-- `check_post_commit`. -/
def checkPostCommit (cache : PageCache) : Bool :=
  !cache.hasDirty && !cache.hasPinned

theorem hasDirty_iff {cache : PageCache} :
    cache.hasDirty = true ↔ ∃ key page, cache.peek key = some page ∧ page.dirty = true := by
  unfold hasDirty
  rw [List.any_eq_true]
  constructor
  · rintro ⟨⟨key, page⟩, hmem, hdirty⟩
    exact ⟨key, page, Lru.mem_iter.mp hmem, hdirty⟩
  · rintro ⟨key, page, hpeek, hdirty⟩
    exact ⟨(key, page), Lru.mem_iter.mpr hpeek, hdirty⟩

/-- `evict`: drop all pages of an inode. -/
def evict (cache : PageCache) (inode : UInt32) : PageCache :=
  (cache.keys.filter fun key => key.1 = inode).foldl Lru.pop cache

theorem peek_evict (cache : PageCache) (inode : UInt32) (key : UInt32 × ℕ) :
    (cache.evict inode).peek key = if key.1 = inode then none else cache.peek key := by
  have hpop : ∀ (keys : List (UInt32 × ℕ)) (cache : PageCache),
      (keys.foldl Lru.pop cache).peek key = if key ∈ keys then none else cache.peek key := by
    intro keys
    induction keys with
    | nil => exact fun cache => rfl
    | cons first rest ih =>
        intro cache
        rw [List.foldl_cons, ih]
        by_cases hrest : key ∈ rest
        · rw [if_pos hrest, if_pos (List.mem_cons_of_mem _ hrest)]
        · rw [if_neg hrest]
          by_cases hfirst : key = first
          · rw [if_pos (hfirst ▸ List.mem_cons_self ..), hfirst]
            exact Lru.peek_pop_self ..
          · rw [if_neg (List.not_mem_cons_of_ne_of_not_mem hfirst hrest)]
            exact Lru.peek_pop_ne _ hfirst
  unfold evict
  rw [hpop]
  by_cases hino : key.1 = inode
  · rw [if_pos hino]
    split
    · rfl
    · next hnot => exact Lru.peek_eq_none_iff.mpr fun hmem => hnot (List.mem_filter.mpr ⟨hmem, decide_eq_true hino⟩)
  · have hnot : key ∉ cache.keys.filter fun key => key.1 = inode := fun hmem => by
      rw [List.mem_filter] at hmem
      exact hino (of_decide_eq_true hmem.2)
    rw [if_neg hino, if_neg hnot]

/-! ## The invariant -/

/-- The pages are filed under their blocks and not pinned, and the dirty ones are in `marks`. -/
def HeldBy (marks : UInt32 × ℕ → Prop) (cache : PageCache) : Prop :=
  ∀ key page, cache.peek key = some page →
    page.block = key.2 ∧ page.pinCount = 0 ∧ (page.dirty = true → marks key)

section HeldBy

variable {marks marks' : UInt32 × ℕ → Prop} {cache : PageCache}

theorem heldBy_new (capacity : ℕ) : HeldBy marks (new capacity) := by
  intro key page hpeek
  rw [peek_new] at hpeek
  cases hpeek

theorem HeldBy.mono (h : HeldBy marks cache) (hmarks : ∀ key, marks key → marks' key) : HeldBy marks' cache := by
  intro key page hpeek
  obtain ⟨hblock, hpin, hdirty⟩ := h key page hpeek
  exact ⟨hblock, hpin, fun hset => hmarks key (hdirty hset)⟩

theorem HeldBy.of_peek {cache' : PageCache} (h : HeldBy marks cache) (hpeek : ∀ key, cache'.peek key = cache.peek key) :
    HeldBy marks cache' := by
  intro key page hpage
  exact h key page ((hpeek key).symm.trans hpage)

/-- The page of one key is another one. -/
theorem HeldBy.of_changed (h : HeldBy marks cache) {cache' : PageCache} (key : UInt32 × ℕ)
    (hmarks : ∀ key', key' ≠ key → marks key' → marks' key')
    (hothers : ∀ key', key' ≠ key → cache'.peek key' = cache.peek key')
    (hself : ∀ page, cache'.peek key = some page →
      page.block = key.2 ∧ page.pinCount = 0 ∧ (page.dirty = true → marks' key)) : HeldBy marks' cache' := by
  intro key' page hpeek
  by_cases hkey : key' = key
  · rw [hkey] at hpeek ⊢
    exact hself page hpeek
  · obtain ⟨hblock, hpin, hdirty⟩ := h key' page ((hothers key' hkey).symm.trans hpeek)
    exact ⟨hblock, hpin, fun hset => hmarks key' hkey (hdirty hset)⟩

/-- A page is changed in its place. -/
theorem HeldBy.modify (h : HeldBy marks cache) (key : UInt32 × ℕ) {f : CachedPage → CachedPage}
    (hf : ∀ page, cache.peek key = some page → (f page).block = page.block ∧ (f page).pinCount = 0 ∧
      ((f page).dirty = true → marks key)) : HeldBy marks (cache.modify key f) := by
  refine h.of_changed key (fun _ _ => id) (fun key' hkey => Lru.peek_modify_ne _ hkey _) fun page hpeek => ?_
  rw [Lru.peek_modify_self] at hpeek
  obtain ⟨old, hold, rfl⟩ := Option.map_eq_some_iff.mp hpeek
  obtain ⟨hblock, hrest⟩ := hf old hold
  exact ⟨hblock.trans (h key old hold).1, hrest⟩

/-- **An update** takes a pin and gives it back. -/
theorem HeldBy.update (h : HeldBy marks cache) (inode : UInt32) (block : ℕ) (update : List UInt8 → List UInt8) :
    HeldBy marks (unpinPage (cache.modify (inode, block) fun page =>
      { page.pin with data := update page.pin.data }) inode block) := by
  refine h.of_changed (inode, block) (fun _ _ => id) (fun key' hkey => ?_) fun page hpeek => ?_
  · exact (Lru.peek_modify_ne _ hkey _).trans (Lru.peek_modify_ne _ hkey _)
  · unfold unpinPage at hpeek
    rw [Lru.peek_modify_self, Lru.peek_modify_self, Option.map_map] at hpeek
    obtain ⟨old, hold, rfl⟩ := Option.map_eq_some_iff.mp hpeek
    obtain ⟨hblock, hpin, hdirty⟩ := h _ old hold
    exact ⟨hblock, by simp [CachedPage.unpin, CachedPage.pin, hpin], hdirty⟩

/-- A page comes in, and may push another one out. -/
theorem HeldBy.put (h : HeldBy marks cache) {key : UInt32 × ℕ} {page : CachedPage} (hblock : page.block = key.2)
    (hpin : page.pinCount = 0) (hdirty : page.dirty = false) : HeldBy marks (Lru.put cache key page) := by
  intro key' page' hpeek
  by_cases hkey : key' = key
  · rw [hkey, Lru.peek_put_self] at hpeek
    cases hpeek
    rw [hkey]
    refine ⟨hblock, hpin, fun hset => ?_⟩
    rw [hdirty] at hset
    cases hset
  · rcases Lru.peek_put_ne cache hkey page with hsame | hnone
    · exact h key' page' (hsame.symm.trans hpeek)
    · cases hnone.symm.trans hpeek

/-- **Aborting a page** clears its mark. -/
theorem HeldBy.abortPage (h : HeldBy marks cache) (ino : UInt32) (block : ℕ) :
    HeldBy (fun key => marks key ∧ key ≠ (ino, block)) (cache.abortPage ino block) := by
  -- the page is clean when it is given back
  have hunpin : ∀ restored : PageCache, (∀ key, key ≠ (ino, block) → restored.peek key = cache.peek key) →
      (∀ page, restored.peek (ino, block) = some page → page.block = block ∧ page.pinCount = 0 ∧ page.dirty = false) →
      HeldBy (fun key => marks key ∧ key ≠ (ino, block)) (restored.unpinPage ino block) := by
    intro restored hothers hself
    refine h.of_changed (ino, block) (fun key hkey hmark => ⟨hmark, hkey⟩) (fun key hkey => ?_) fun page hpeek => ?_
    · exact (Lru.peek_modify_ne _ hkey _).trans (hothers key hkey)
    · unfold unpinPage at hpeek
      rw [Lru.peek_modify_self] at hpeek
      obtain ⟨old, hold, rfl⟩ := Option.map_eq_some_iff.mp hpeek
      obtain ⟨hblock, hpin, hdirty⟩ := hself old hold
      refine ⟨hblock, by simp [CachedPage.unpin, hpin], fun hset => ?_⟩
      cases hdirty.symm.trans hset
  unfold PageCache.abortPage
  cases hpeek : cache.peek (ino, block) with
  | none =>
      refine hunpin _ (fun key _ => cache.peek_get _ key) fun page hpage => ?_
      rw [Lru.peek_get, hpeek] at hpage
      cases hpage
  | some page =>
      obtain ⟨hblock, hpin, -⟩ := h _ page hpeek
      have hpresent : (cache.get (ino, block)).2.peek (ino, block) = some page := (cache.peek_get _ _).trans hpeek
      have hput : PageCache.put (cache.get (ino, block)).2 ino { page with dirty := false, txid := 0 }.unpin =
          .ok (Lru.put (cache.get (ino, block)).2 (ino, block) { page with dirty := false, txid := 0 }.unpin) := by
        unfold PageCache.put
        rw [CachedPage.block_unpin]
        simp only [hblock, hpresent]
        rfl
      simp only [hput]
      refine hunpin _ (fun key hkey => ?_) fun restored hrestored => ?_
      · rw [Lru.peek_put_of_mem (Lru.mem_keys_iff.mpr ⟨page, hpresent⟩) hkey]
        exact cache.peek_get _ key
      · rw [Lru.peek_put_self] at hrestored
        cases hrestored
        exact ⟨hblock, by simp [CachedPage.unpin, hpin], rfl⟩

theorem HeldBy.abortPages (h : HeldBy marks cache) (keys : List (UInt32 × ℕ)) :
    HeldBy (fun key => marks key ∧ key ∉ keys) (cache.abortPages keys) := by
  induction keys generalizing marks cache with
  | nil => exact h.mono fun key hmark => ⟨hmark, List.not_mem_nil⟩
  | cons first rest ih =>
      refine (ih (h.abortPage first.1 first.2)).mono fun key ⟨⟨hmark, hne⟩, hrest⟩ => ⟨hmark, ?_⟩
      exact List.not_mem_cons_of_ne_of_not_mem hne hrest

theorem HeldBy.evict (h : HeldBy marks cache) (inode : UInt32) : HeldBy marks (cache.evict inode) := by
  intro key page hpeek
  rw [peek_evict] at hpeek
  split at hpeek
  · cases hpeek
  · exact h key page hpeek

/-- **The checks** of a cache in which only the pages in `marks` may be dirty. -/
theorem HeldBy.checks (h : HeldBy marks cache) : cache.hasPinned = false ∧
    (cache.checkInTransaction = true ↔ cache.hasDirty = false) ∧
    ((∀ key, ¬ marks key) → cache.checkIdle = true ∧ cache.checkPostCommit = true) := by
  have hpinned : cache.hasPinned = false := by
    unfold hasPinned
    rw [List.any_eq_false]
    intro e hmem
    rw [(h e.1 e.2 (Lru.mem_iter.mp hmem)).2.1]
    decide
  have hall : (cache.iter.any fun e => e.2.dirty && e.2.pinCount == 0) = cache.hasDirty := by
    unfold hasDirty
    rw [Bool.eq_iff_iff, List.any_eq_true, List.any_eq_true]
    refine exists_congr fun e => and_congr_right fun hmem => ?_
    rw [(h e.1 e.2 (Lru.mem_iter.mp hmem)).2.1]
    simp
  refine ⟨hpinned, ?_, fun hnone => ?_⟩
  · unfold checkInTransaction
    rw [hall, Bool.not_eq_true']
  · have hclean : cache.hasDirty = false := by
      rw [← Bool.not_eq_true, hasDirty_iff]
      rintro ⟨key, page, hpeek, hdirty⟩
      exact hnone key ((h key page hpeek).2.2 hdirty)
    unfold checkIdle checkPostCommit
    rw [hclean, hpinned]
    exact ⟨rfl, rfl⟩

end HeldBy

end PageCache

namespace Volume

open PageCache

/-- The page is listed in the open transaction. -/
def Listed (v : Volume) (key : UInt32 × ℕ) : Prop :=
  ∃ active, v.txMgr.active = some active ∧ key ∈ active.dirtyPages

/-- Only pages that are listed in the open transaction are dirty, and none is pinned. -/
def Tidy (v : Volume) : Prop :=
  HeldBy v.Listed v.pageCache

/-- The cache stays tidy. -/
def KeepsTidy (v v' : Volume) : Prop :=
  v.Tidy → v'.Tidy

instance : IsPreorder Volume KeepsTidy where
  refl _ := id
  trans _ _ _ h h' := h' ∘ h

/-- A step that leaves the cache and the transaction alone. -/
theorem keepsTidy_of_eq {v v' : Volume} (hcache : v'.pageCache = v.pageCache) (htxn : v'.txMgr = v.txMgr) :
    KeepsTidy v v' := by
  unfold KeepsTidy Tidy Listed
  rw [hcache, htxn]
  exact id

theorem pageSteps_keepsTidy : PageSteps KeepsTidy where
  storage _ _ := keepsTidy_of_eq rfl rfl
  used v key h := h.of_peek (v.pageCache.peek_get key)
  loaded _ _ _ _ _ _ h := h.put rfl rfl rfl
  changed v inode block update h := HeldBy.update h inode block update
  noted v active active' hactive hsub h := by
    refine h.mono fun key ⟨old, hold, hmem⟩ => ?_
    cases hactive.symm.trans hold
    exact ⟨active', rfl, hsub hmem⟩
  marked v active inode block hactive hmem h := by
    refine h.modify (inode, block) fun page hpeek => ?_
    obtain ⟨-, hpin, -⟩ := h _ page hpeek
    exact ⟨rfl, hpin, fun _ => ⟨active, hactive, hmem⟩⟩
  alloc _ _ _ _ _ _ _ _ := keepsTidy_of_eq rfl rfl
  free _ _ _ _ _ _ := keepsTidy_of_eq rfl rfl

/-! ## The end of a transaction -/

/-- What is cached stays when the program returns; when it fails, the pages in `keys` are clean. -/
def Settles {α : Type} (keys : List (UInt32 × ℕ)) (x : VolM α) : Prop :=
  ∀ marks v, HeldBy marks v.pageCache →
    (∀ a w, x v = .ok a w → HeldBy marks w.pageCache) ∧
    ∀ e w, x v = .error e w → HeldBy (fun key => marks key ∧ key ∉ keys) w.pageCache

section Settles

variable {α β : Type} {keys : List (UInt32 × ℕ)}

theorem Settles.pure (a : α) : Settles keys (pure a : VolM α) := by
  intro marks v h
  refine ⟨fun b w hrun => ?_, fun e w hrun => ?_⟩
  · cases hrun
    exact h
  · cases hrun

theorem Settles.bind {x : VolM α} {f : α → VolM β} (hx : Settles keys x) (hf : ∀ a, Settles keys (f a)) :
    Settles keys (x >>= f) := by
  intro marks v h
  obtain ⟨hok, herror⟩ := hx marks v h
  cases hrun : x v with
  | ok a w =>
      rw [bind_ok hrun]
      exact hf a marks w (hok a w hrun)
  | error e w =>
      rw [bind_error hrun]
      refine ⟨fun b w' hrun' => ?_, fun e' w' hrun' => ?_⟩
      · cases hrun'
      · cases hrun'
        exact herror e w hrun

theorem Settles.ite {c : Prop} [Decidable c] {x y : VolM α} (hx : Settles keys x) (hy : Settles keys y) :
    Settles keys (if c then x else y) := by
  split
  · exact hx
  · exact hy

/-- The same pages are cached. -/
def SameEntries (v v' : Volume) : Prop :=
  ∀ key, v'.pageCache.peek key = v.pageCache.peek key

instance : IsPreorder Volume SameEntries where
  refl _ _ := rfl
  trans _ _ _ h h' key := (h' key).trans (h key)

theorem sameEntries_of_journaled {x : VolM α} (hx : Within Journaled x) : Within SameEntries x := by
  intro v
  obtain ⟨log, cache, storage, hfinal, -, hpeek, -⟩ := hx v
  rw [hfinal]
  exact hpeek

theorem sameEntries_onStorage (x : StorageM α) : Within SameEntries (onStorage x) := by
  intro v
  unfold onStorage
  rw [final_zoom]
  exact fun _ => rfl

theorem sameEntries_writePages (keys : List (UInt32 × ℕ)) : Within SameEntries (writePages keys) := by
  induction keys with
  | nil => exact Within.pure 0
  | cons key rest ih =>
      refine Within.bind (sameEntries_of_journaled (journaled_getPage _ _)) fun found => ?_
      cases found with
      | none => exact ih
      | some page => exact Within.bind (sameEntries_onStorage _) fun _ => Within.bind ih fun _ => Within.pure _

/-- A part of a commit that leaves the pages alone cleans them up when it fails. -/
theorem settles_orAbortPages {x : VolM α} (hx : Within SameEntries x) : Settles keys (orAbortPages keys x) := by
  intro marks v h
  have hsame := hx v
  unfold orAbortPages
  cases hrun : x v with
  | ok a w =>
      rw [hrun, final_ok] at hsame
      rw [tryCatch_ok hrun]
      refine ⟨fun b w' hrun' => ?_, fun e w' hrun' => ?_⟩
      · cases hrun'
        exact h.of_peek hsame
      · cases hrun'
  | error e w =>
      rw [hrun, final_error] at hsame
      rw [tryCatch_error hrun]
      refine ⟨fun b w' hrun' => ?_, fun e' w' hrun' => ?_⟩
      · cases hrun'
      · cases hrun'
        exact (h.of_peek hsame).abortPages keys

theorem settles_writeBack (active : ActiveTxn) : Settles active.dirtyPages (writeBack active) := by
  have hflush : ∀ call, Settles active.dirtyPages (orAbortPages active.dirtyPages (onStorage (StorageM.flush call))) :=
    fun call => settles_orAbortPages (sameEntries_onStorage _)
  have hrest : Settles active.dirtyPages (do
      let written ← orAbortPages active.dirtyPages (writePages active.dirtyPages)
      orAbortPages active.dirtyPages (onStorage StorageM.flushMetadata)
      return written : VolM ℕ) :=
    Settles.bind (settles_orAbortPages (sameEntries_writePages _)) fun _ =>
      Settles.bind (hflush .flushMetadata) fun _ => Settles.pure _
  refine Settles.bind (hflush .flushData) fun _ marks v h => ?_
  rw [bind_ok (get_apply v)]
  refine Settles.ite ?_ hrest marks v h
  refine Settles.bind (settles_orAbortPages (sameEntries_of_journaled ?_)) fun _ => hrest
  exact Within.bind (journaled_journalPages _ _) fun _ =>
    journaled_onLog fun _ => LogManager.staysAbove_commitTransaction _

end Settles

/-- **A commit** leaves no page dirty, whether it returns or fails. -/
theorem heldBy_of_commitPages {v : Volume} (h : v.Tidy) : HeldBy (fun _ => False) (final (commitPages v)).pageCache := by
  unfold commitPages
  rw [bind_ok (get_apply v)]
  cases hactive : v.txMgr.active with
  | none =>
      refine HeldBy.mono h fun key ⟨active, hsome, _⟩ => ?_
      cases hactive.symm.trans hsome
  | some active =>
      have hlisted : ∀ key, v.Listed key → key ∈ active.dirtyPages := by
        rintro key ⟨active', hsome, hmem⟩
        cases hactive.symm.trans hsome
        exact hmem
      have hclose : modifyTxMgr (fun txMgr => { txMgr with active := none }) v =
          .ok () { v with txMgr := { v.txMgr with active := none } } := rfl
      obtain ⟨hok, herror⟩ := settles_writeBack active v.Listed
        { v with txMgr := { v.txMgr with active := none } } h
      simp only
      rw [bind_ok hclose]
      cases hrun : writeBack active { v with txMgr := { v.txMgr with active := none } } with
      | ok written w =>
          rw [bind_ok hrun]
          intro key page hpeek
          have hkey := (peek_releasePages active.dirtyPages w.pageCache key).symm.trans hpeek
          split at hkey
          · cases hkey
          · next hnot =>
              obtain ⟨hblock, hpin, hdirty⟩ := hok written w hrun key page hkey
              exact ⟨hblock, hpin, fun hset => hnot (hlisted key (hdirty hset))⟩
      | error e w =>
          rw [bind_error hrun]
          exact (herror e w hrun).mono fun key ⟨hlist, hnot⟩ => hnot (hlisted key hlist)

theorem pageCache_of_commitBmap (v : Volume) : (final (commitBmap v)).pageCache = v.pageCache := by
  unfold commitBmap
  rw [bind_ok (get_apply v)]
  cases v.bmap with
  | none => rfl
  | some bmap =>
      simp only
      cases hcommit : bmap.commit v.storage with
      | ok bmap' s =>
          have hrun : onStorage bmap.commit v = .ok bmap' { v with storage := s } := zoom_ok hcommit
          rw [bind_ok hrun]
          rfl
      | error e s =>
          have hrun : onStorage bmap.commit v = .error e { v with storage := s } := zoom_error hcommit
          rw [bind_error hrun]
          rfl

theorem keepsTidy_commitTransaction : Within KeepsTidy commitTransaction := by
  intro v h
  have hpages := heldBy_of_commitPages h
  unfold commitTransaction
  cases hrun : commitPages v with
  | error e w =>
      rw [hrun] at hpages
      rw [bind_error hrun]
      exact hpages.mono fun _ => False.elim
  | ok result w =>
      rw [hrun, final_ok] at hpages
      rw [bind_ok hrun]
      have hmap := pageCache_of_commitBmap w
      have htidy : Tidy (final (commitBmap w)) := by
        unfold Tidy
        rw [hmap]
        exact hpages.mono fun _ => False.elim
      cases hbmap : commitBmap w with
      | ok u w' =>
          rw [hbmap] at htidy
          rw [bind_ok hbmap]
          exact htidy
      | error e w' =>
          rw [hbmap] at htidy
          rw [bind_error hbmap]
          exact htidy

theorem keepsTidy_abortTransaction : Within KeepsTidy abortTransaction := by
  intro v h
  unfold abortTransaction
  rw [modify_apply]
  dsimp only [final_ok]
  split
  · exact h
  · next active hactive =>
      refine (HeldBy.abortPages h active.dirtyPages).mono fun key ⟨⟨active', hsome, hmem⟩, hnot⟩ => ?_
      cases (show v.txMgr.active = some active from hactive).symm.trans hsome
      exact absurd hmem hnot

theorem callSteps_keepsTidy : CallSteps KeepsTidy where
  toPageSteps := pageSteps_keepsTidy
  begin v hidle h := by
    refine HeldBy.mono h fun key ⟨active, hsome, _⟩ => ?_
    cases hidle.symm.trans hsome
  commit := keepsTidy_commitTransaction
  abort := keepsTidy_abortTransaction
  handles _ _ := keepsTidy_of_eq rfl rfl

/-! ## Runs from a mount -/

theorem tidy_of_openFromStorage {s t : Storage} {v : Volume} (h : openFromStorage s = .ok v t) : v.Tidy := by
  have hyields : Yields Tidy openFromStorage := by
    refine Yields.bind _ fun sb => Yields.bind _ fun _ => Yields.ite ?_ ?_
    · intro s v s' hrun
      cases hrun
    · refine Yields.bind _ fun _ => Yields.bind _ fun _ => Yields.bind _ fun log => Yields.bind _ fun log => ?_
      exact Yields.bind _ fun bmap => Yields.bind _ fun storage => Yields.pure (heldBy_new 256)
  exact hyields s v t h

end Volume

/-- A call of an operation, or the pages of an inode that the kernel has forgotten leave the cache. -/
inductive CacheRequest
  | operation (op : Operation)
  | evict (inode : UInt32)

namespace CacheRequest

open Volume

/-- The volume after a request, whether it returned or failed. -/
def after (v : Volume) : CacheRequest → Volume
  | operation op => op.after v
  | evict inode => { v with pageCache := v.pageCache.evict inode }

def afterAll (requests : List CacheRequest) (v : Volume) : Volume :=
  requests.foldl after v

theorem tidy_afterAll {v : Volume} (h : v.Tidy) (requests : List CacheRequest) : (afterAll requests v).Tidy := by
  induction requests generalizing v with
  | nil => exact h
  | cons request rest ih =>
      refine ih ?_
      cases request with
      | operation op => exact callSteps_keepsTidy.operation op v h
      | evict inode => exact PageCache.HeldBy.evict h inode

end CacheRequest

namespace Volume

/-- **The page cache between calls**: whatever is requested after a mount, and whichever requests
fail, no page is pinned and the dirty ones are listed in the open transaction. -/
theorem cache_checks_of_mount {s t : Storage} {v : Volume} (hmount : openFromStorage s = .ok v t)
    (requests : List CacheRequest) :
    (CacheRequest.afterAll requests v).pageCache.hasPinned = false ∧
    (∀ key page, (CacheRequest.afterAll requests v).pageCache.peek key = some page → page.dirty = true →
      (CacheRequest.afterAll requests v).Listed key) ∧
    ((CacheRequest.afterAll requests v).pageCache.checkInTransaction = true ↔
      (CacheRequest.afterAll requests v).pageCache.hasDirty = false) ∧
    ((CacheRequest.afterAll requests v).txMgr.active = none →
      (CacheRequest.afterAll requests v).pageCache.checkIdle = true ∧
      (CacheRequest.afterAll requests v).pageCache.checkPostCommit = true) := by
  have htidy := CacheRequest.tidy_afterAll (tidy_of_openFromStorage hmount) requests
  obtain ⟨hpinned, htxn, hidle⟩ := PageCache.HeldBy.checks htidy
  refine ⟨hpinned, fun key page hpeek => (htidy key page hpeek).2.2, htxn, fun hnone => hidle ?_⟩
  rintro key ⟨active, hsome, -⟩
  cases hnone.symm.trans hsome

theorem cache_checks_of_mkfs : ∃ v, openFromStorage (Mkfs.createFilesystemWithBlocks 4096) =
      .ok v (Mkfs.createFilesystemWithBlocks 4096) ∧
    ((CacheRequest.afterAll [.operation (.mkdir 18 "a"), .evict 18] v).txMgr.active = none →
      (CacheRequest.afterAll [.operation (.mkdir 18 "a"), .evict 18] v).pageCache.checkIdle = true) := by
  obtain ⟨logsuper, hmount⟩ := openFromStorage_ok (replayed_create (le_refl 4096) (by decide))
  exact ⟨_, hmount, fun hnone => ((cache_checks_of_mount hmount _).2.2.2 hnone).1⟩

end Volume

end JfsFuse
