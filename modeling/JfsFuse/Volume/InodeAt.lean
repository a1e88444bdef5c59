import JfsFuse.Volume.AfterCommit

/-!
# An inode and its place

`InodeAt` says where an inode lies on a guarded volume and what it is read as.  The steps of a
call keep the place.  An update changes the copy of the block that the update starts from, which
is the one the inode was read from if the block is cached for no other inode (`loaded_eq_own`);
behind a commit the inode is read as the last update left it.
-/

namespace JfsFuse

open ByteBuf Program

namespace Volume

/-- The inode is read as `d`, from slot `j` of block `b`. -/
structure InodeAt (lo hi : ℕ) (v : Volume) (ino : UInt32) (b j : ℕ) (d : List UInt8) : Prop where
  guarded : v.Guarded lo hi
  low : lo ≤ v.ait2.address
  high : b ≤ hi
  placed : v.Placed ino b j
  inode : slotOf (v.own ino b) j = d

/-- At most the page of the inode is dirty. -/
def DirtyOnly (v : Volume) (ino : UInt32) (b : ℕ) : Prop :=
  ∀ active, v.txMgr.active = some active → ∀ key ∈ active.dirtyPages, key = (ino, b)

/-- Only the cache and the transaction differ. -/
def PagesOnly (v w : Volume) : Prop :=
  w = { v with pageCache := w.pageCache, txMgr := w.txMgr }

theorem dirtyOnly_begun (v : Volume) (ino : UInt32) (b : ℕ) : v.begun.DirtyOnly ino b := by
  intro active hactive key hkey
  cases hactive
  cases hkey

theorem loaded_eq_own {v : Volume} {ino : UInt32} {b : ℕ} (halone : ∀ i, i ≠ ino → v.pageCache.peek (i, b) = none) :
    v.loaded ino b = v.own ino b := by
  have hnone : v.pageCache.otherCopy ino b = none := by
    by_contra hsome
    obtain ⟨data, hdata⟩ := Option.ne_none_iff_exists'.mp hsome
    obtain ⟨e, hfind, -⟩ := Option.map_eq_some_iff.mp hdata
    obtain ⟨hkey, hpage⟩ := of_find?_iter (p := fun key => key.2 == b && key.1 != ino) hfind
    rw [Bool.and_eq_true, beq_iff_eq, bne_iff_ne] at hkey
    have hpeek := halone e.1.1 hkey.2
    rw [← hkey.1] at hpeek
    exact absurd (hpage.symm.trans hpeek) (by simp)
  unfold loaded own
  rw [hnone, Option.getD_none]

theorem lastPage_of_forall {pages : List (ℕ × List UInt8)} {b : ℕ} {data : List UInt8}
    (hall : ∀ page ∈ pages, page = (b, data)) (hne : pages ≠ []) : lastPage pages b = some data := by
  obtain ⟨init, last, rfl⟩ := pages.eq_nil_or_concat'.resolve_left hne
  rw [lastPage_append, hall last (List.mem_append_right _ (List.mem_singleton_self _)), if_pos rfl]

/-- A commit of one page leaves the content of the page. -/
theorem own_of_commit {v w : Volume} {ino : UInt32} {b : ℕ} {keys : List (UInt32 × ℕ)}
    (hkeys : ∀ key ∈ keys, key = (ino, b))
    (hpeek : w.pageCache.peek (ino, b) = if (ino, b) ∈ keys then none else v.pageCache.peek (ino, b))
    (hblock : w.storage.block b = (lastPage (cachedPages v.pageCache keys) b).getD (v.storage.block b)) :
    w.own ino b = v.own ino b := by
  unfold own
  rw [hpeek]
  cases hpage : v.pageCache.peek (ino, b) with
  | none =>
      have hnil : cachedPages v.pageCache keys = [] := by
        refine List.filterMap_eq_nil_iff.mpr fun key hkey => ?_
        rw [hkeys key hkey, hpage, Option.map_none]
      have hlast : lastPage [] b = none := rfl
      rw [hnil, hlast, Option.getD_none] at hblock
      rw [ite_self, Option.map_none, Option.getD_none, Option.getD_none, hblock]
  | some page =>
      by_cases hmem : (ino, b) ∈ keys
      · have hlast : lastPage (cachedPages v.pageCache keys) b = some page.data := by
          refine lastPage_of_forall (fun p hp => ?_) fun hnil => ?_
          · obtain ⟨key, hkey, hcached⟩ := List.mem_filterMap.mp hp
            rw [hkeys key hkey, hpage] at hcached
            exact (Option.some.inj hcached).symm
          · have hnone := List.filterMap_eq_nil_iff.mp hnil _ hmem
            rw [hpage] at hnone
            cases hnone
        rw [if_pos hmem, Option.map_none, Option.getD_none, hblock, hlast, Option.getD_some, Option.map_some,
          Option.getD_some]
      · rw [if_neg hmem, Option.map_some, Option.getD_some, Option.getD_some]

namespace InodeAt

variable {lo hi : ℕ} {v w : Volume} {ino : UInt32} {b j : ℕ} {d : List UInt8} (h : InodeAt lo hi v ino b j d)

include h

theorem block_lt : b < v.aggSize :=
  lt_of_le_of_lt h.high h.guarded.inside

theorem lo_le : lo ≤ b :=
  h.low.trans h.placed.low

theorem length : d.length = disize := by
  rw [← h.inode]
  exact length_slotOf (h.guarded.length_of_shows (v.shows_own ino b)) h.placed.slot

/-- **The inode is read.** -/
theorem readInode : readInode ino v = .ok { dinode := d, ino, pageBlock := b, pageOffset := j * disize } v := by
  rw [h.guarded.toCalm.readInode_of_foundAt h.placed.foundAt]
  unfold inodeAt
  rw [h.inode]

theorem begun : InodeAt lo hi v.begun ino b j d := by
  obtain ⟨hbegun, hcarries⟩ := safe_begun (P := fun _ => True) v h.guarded
  exact ⟨hbegun, h.low, h.high, hcarries.placed h.low h.high h.placed, h.inode⟩

/-- **An update** goes through, and changes some copy of the inode. -/
theorem update {f : List UInt8 → List UInt8} (hf : Dinode.IsEdit f) :
    ∃ w d', updateInodePage ino b (j * disize) f v = .ok () w ∧ d'.length = disize ∧
      slotOf (v.loaded ino b) j = d' ∧ InodeAt lo hi w ino b j (f d') ∧ PagesOnly v w ∧ w.txMgr = v.txMgr := by
  obtain ⟨cache, happly, hreplaces⟩ := h.guarded.toCalm.updateInodePage h.block_lt ino (j * disize) f
  obtain ⟨hw, hcarries⟩ := Returns.of_run happly (returns_updateInodePage (P := fun _ => True) hf
    (fun _ _ _ => trivial) h.high h.placed.slot ino) h.guarded
  obtain ⟨page, hpage, hdata, -⟩ := hreplaces.page
  have hlen := h.guarded.length_of_shows (v.shows_loaded ino b)
  refine ⟨_, _, happly, length_slotOf hlen h.placed.slot, rfl,
    ⟨hw, h.low, h.high, hcarries.placed h.low h.high h.placed, ?_⟩, rfl, rfl⟩
  have hown : own { v with pageCache := cache } ino b = updateAt (j * disize) f (v.loaded ino b) := by
    unfold own
    rw [hpage, Option.map_some, Option.getD_some, hdata]
  rw [hown, slotOf_updateAt hlen h.placed.slot hf, if_pos rfl]

/-- **A mark** in an open transaction keeps the inode. -/
theorem mark (hactive : v.txMgr.active ≠ none) (hdirty : v.DirtyOnly ino b) :
    ∃ w, markPageDirty ino b v = .ok () w ∧ InodeAt lo hi w ino b j d ∧ PagesOnly v w ∧ w.DirtyOnly ino b ∧
      w.txMgr.active ≠ none := by
  obtain ⟨active, hactive⟩ := Option.ne_none_iff_exists'.mp hactive
  obtain ⟨cache, happly, -, hsame, -⟩ := markPageDirty_apply hactive ino b
  obtain ⟨hw, hcarries⟩ := Returns.of_run happly (returns_markPageDirty (P := fun _ => True) ino b) h.guarded
  have hpeek : ∀ i, (cache.peek (i, b)).map CachedPage.data = (v.pageCache.peek (i, b)).map CachedPage.data := by
    intro i
    have hpair := congrArg (Option.map Prod.snd) (hsame (i, b))
    rwa [Option.map_map, Option.map_map] at hpair
  refine ⟨_, happly, ⟨hw, h.low, h.high, hcarries.placed h.low h.high h.placed, ?_⟩, rfl, ?_, by simp⟩
  · rw [← h.inode]
    unfold own
    rw [hpeek ino]
  · intro active' hactive' key hkey
    cases hactive'
    unfold marked at hkey
    split at hkey
    · exact hdirty active hactive key hkey
    · rcases List.mem_append.mp hkey with hold | hnew
      · exact hdirty active hactive key hold
      · exact List.mem_singleton.mp hnew

/-- **A commit** leaves the inode as it is read. -/
theorem commit (hdirty : v.DirtyOnly ino b) {result : CommitResult}
    (hcommit : commitTransaction v = .ok result w) : InodeAt lo hi w ino b j d := by
  obtain ⟨active, hactive⟩ := exists_active_of_commit hcommit
  have hlength := h.guarded.toCalm.length_cachedPages active.dirtyPages
  have hcarries := h.guarded.carries_commit (P := fun _ => True) hactive hcommit
  have hblock := block_of_commit hactive hcommit (h.guarded.plain h.lo_le h.high) hlength
  obtain ⟨hpeek, hait2⟩ : (∀ key, w.pageCache.peek key =
      if key ∈ active.dirtyPages then none else v.pageCache.peek key) ∧ w.ait2 = v.ait2 := by
    obtain ⟨w', storage, hcommitted, rfl, -⟩ := of_commitTransaction_ok hactive hcommit
    exact ⟨hcommitted.pages, hcommitted.rest.2.1⟩
  refine ⟨h.guarded.of_commit hcommit, hait2.symm ▸ h.low, h.high, hcarries.placed h.low h.high h.placed, ?_⟩
  rw [own_of_commit (hdirty active hactive) (hpeek (ino, b)) hblock]
  exact h.inode

/-- **An abort** with no page marked leaves the inode as it is read. -/
theorem abort (hnone : v.txMgr.active.map ActiveTxn.dirtyPages = some [])
    (habort : abortTransaction v = .ok () w) : InodeAt lo hi w ino b j d := by
  obtain ⟨active, hactive, hpages⟩ := Option.map_eq_some_iff.mp hnone
  unfold abortTransaction at habort
  rw [modify_apply] at habort
  simp only [hactive, hpages] at habort
  cases habort
  have hmap : ∀ m', v.bmap.map BlockAllocMap.rollback = some m' → ∃ m, v.bmap = some m ∧ MapMoves m m' := by
    intro m' hm'
    obtain ⟨m, hm, rfl⟩ := Option.map_eq_some_iff.mp hm'
    exact ⟨m, hm, rfl, rfl, fun page hpage => absurd hpage List.not_mem_nil⟩
  refine ⟨h.guarded.of_samePages h.guarded.faults rfl rfl rfl rfl (fun _ => rfl) hmap, h.low, h.high, ?_, h.inode⟩
  have hcarries : Carries (fun _ => True) lo hi v { v with
      bmap := v.bmap.map BlockAllocMap.rollback
      txMgr := { v.txMgr with active := none } } := Carries.of_shows rfl rfl fun _ _ _ _ => id
  exact hcarries.placed h.low h.high h.placed

end InodeAt

end Volume

end JfsFuse
