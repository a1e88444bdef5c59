import JfsFuse.Volume.Creating
import JfsFuse.Volume.Discard
import JfsFuse.Volume.RefusedCall

/-!
# Invariants of the inode table

A call that works on inodes changes one slot at a time, in one copy of a block of the table,
and a commit writes only copies of the table to the blocks of the table.  So what holds of every
slot, on the storage and in every cached copy, is kept by a run of such calls if it is kept by
each change of a slot: `SlotsHold` is the invariant, and `Keeps` says that a step keeps it,
whether it returns or fails.  No device is assumed to work.  A block that cannot be read is
cached as an empty page, which has no slots.
-/

namespace JfsFuse

open ByteBuf Program

namespace Volume

/-- The block is one of the table. -/
def InTable (lo hi block : ℕ) : Prop :=
  lo ≤ block ∧ block ≤ hi

/-- What a commit of the map would write lies apart from the table. -/
def MapClear (lo hi : ℕ) (m : BlockAllocMap) : Prop :=
  ∀ i, m.Touches i → ¬ InTable lo hi (i / blockSize)

/-- The table lies in the blocks from `lo` to `hi`, apart from the journal and from what is to be
written of the allocation map, and `S` holds of every slot of every whole block that is shown for
them. -/
structure SlotsHold (S : ℕ → ℕ → List UInt8 → Prop) (lo hi : ℕ) (v : Volume) : Prop where
  filed : v.Filed
  pages : ∀ key page, v.pageCache.peek key = some page → page.data.length = blockSize ∨ page.data = []
  start : lo ≤ v.ait2.address
  stop : ∀ b, b < v.aggSize → b < v.ait2.address + (v.ait2.length + scanSlack) → b ≤ hi
  log : ∀ i, v.InLog i → ¬ InTable lo hi (i / blockSize)
  map : ∀ m, v.bmap = some m → MapClear lo hi m
  slots : ∀ block data, InTable lo hi block → v.Shows block data → data.length = blockSize →
    ∀ j < inosPerPage, S block j (slotOf data j)

/-- The step keeps the invariant. -/
def Keeps (S : ℕ → ℕ → List UInt8 → Prop) (lo hi : ℕ) (v v' : Volume) : Prop :=
  v.SlotsHold S lo hi → v'.SlotsHold S lo hi

instance (S : ℕ → ℕ → List UInt8 → Prop) (lo hi : ℕ) : IsPreorder Volume (Keeps S lo hi) where
  refl _ := id
  trans _ _ _ h h' := h' ∘ h

/-- A slot of the table. -/
structure SlotAt (lo hi block offset : ℕ) : Prop where
  block : InTable lo hi block
  slot : ∃ j < inosPerPage, offset = j * disize

/-- A change of the bytes of an inode that keeps `S` in every slot. -/
def KeepsSlot (S : ℕ → ℕ → List UInt8 → Prop) (f : List UInt8 → List UInt8) : Prop :=
  ∀ b j d, d.length = disize → S b j d → (f d).length = disize ∧ S b j (f d)

/-- A change of an inode at a place that keeps `S` in the copy that it starts from. -/
def Admits (S : ℕ → ℕ → List UInt8 → Prop) (v : Volume) (ino : UInt32) (b offset : ℕ)
    (f : List UInt8 → List UInt8) : Prop :=
  ∀ j < inosPerPage, offset = j * disize → (v.loaded ino b).length = blockSize →
    S b j (slotOf (v.loaded ino b) j) →
      (f (slotOf (v.loaded ino b) j)).length = disize ∧ S b j (f (slotOf (v.loaded ino b) j))

theorem KeepsSlot.admits {S : ℕ → ℕ → List UInt8 → Prop} {f : List UInt8 → List UInt8} (h : KeepsSlot S f)
    (v : Volume) (ino : UInt32) (b offset : ℕ) : Admits S v ino b offset f :=
  fun _ hj _ hlen hS => h _ _ _ (length_slotOf hlen hj) hS

section Steps

variable {S : ℕ → ℕ → List UInt8 → Prop} {lo hi : ℕ} {v v' : Volume}

/-! ## Steps that show nothing new -/

/-- The same pages and blocks of the table are there, and the journal is where it was. -/
theorem SlotsHold.of_same (h : v.SlotsHold S lo hi) (hait2 : v'.ait2 = v.ait2) (hagg : v'.aggSize = v.aggSize)
    (hlog : v'.log.map LogManager.logBase = v.log.map LogManager.logBase)
    (hblocks : ∀ block, InTable lo hi block → v'.storage.block block = v.storage.block block)
    (hcache : PageCache.SamePages v.pageCache v'.pageCache)
    (hmap : ∀ m, v'.bmap = some m → MapClear lo hi m) : v'.SlotsHold S lo hi where
  filed := h.filed.of_samePages hcache
  pages key page hpeek := by
    obtain ⟨old, hold, -, hdata⟩ := hcache.of_peek hpeek
    rw [← hdata]
    exact h.pages key old hold
  start := by
    rw [hait2]
    exact h.start
  stop := by
    rw [hait2, hagg]
    exact h.stop
  log := by
    rw [inLog_congr hlog]
    exact h.log
  map := hmap
  slots block data hin hshows := h.slots block data hin (hshows.congr (hblocks block hin) hcache)

/-- A step that leaves all but the transaction and the handles alone. -/
theorem keeps_of_eq (hait2 : v'.ait2 = v.ait2) (hagg : v'.aggSize = v.aggSize) (hlog : v'.log = v.log)
    (hdata : v'.storage.data = v.storage.data) (hcache : v'.pageCache = v.pageCache) (hmap : v'.bmap = v.bmap) :
    Keeps S lo hi v v' := fun h =>
  h.of_same hait2 hagg (by rw [hlog]) (fun block _ => Storage.block_of_data hdata block)
    (by rw [hcache]; exact fun _ => rfl) fun m hm => h.map m (hmap ▸ hm)

theorem readSteps_keeps : ReadSteps (Keeps S lo hi) where
  faults _ _ := keeps_of_eq rfl rfl rfl rfl rfl rfl
  noted _ _ _ _ := keeps_of_eq rfl rfl rfl rfl rfl rfl

theorem keeps_samePages {cache : PageCache} (hcache : PageCache.SamePages v.pageCache cache) :
    Keeps S lo hi v { v with pageCache := cache } := fun h =>
  h.of_same rfl rfl rfl (fun _ _ => rfl) hcache h.map

theorem keeps_begun (v : Volume) : Keeps S lo hi v v.begun :=
  keeps_of_eq rfl rfl rfl rfl rfl rfl

theorem keeps_markPageDirty (ino : UInt32) (block : ℕ) : Within (Keeps S lo hi) (markPageDirty ino block) := by
  intro v
  cases hactive : v.txMgr.active with
  | none =>
      unfold markPageDirty
      rw [bind_ok (get_apply v), hactive]
      exact refl_of (Keeps S lo hi) v
  | some active =>
      obtain ⟨cache, hrun, -, hsame, -⟩ := markPageDirty_apply hactive ino block
      rw [hrun, final_ok]
      have hpages : Keeps S lo hi v { v with pageCache := cache } := keeps_samePages hsame
      exact fun h => keeps_of_eq (v := { v with pageCache := cache }) rfl rfl rfl rfl rfl rfl (hpages h)

/-! ## Changes of a slot -/

/-- A page takes the place of another one. -/
theorem SlotsHold.of_replaces (h : v.SlotsHold S lo hi) {ino : UInt32} {b : ℕ} {data : List UInt8} {cache : PageCache}
    (hcache : PageCache.Replaces v.pageCache (ino, b) data cache) (hlen : data.length = blockSize ∨ data = [])
    (hslots : data.length = blockSize → ∀ j < inosPerPage, S b j (slotOf data j)) :
    SlotsHold S lo hi { v with pageCache := cache } where
  filed key page hpeek := by
    by_cases hkey : key = (ino, b)
    · obtain ⟨page', hpeek', -, hkeyed⟩ := hcache.page
      rw [hkey] at hpeek ⊢
      rw [Option.some.inj (hpeek.symm.trans hpeek')]
      exact hkeyed fun old hold => h.filed _ old hold
    · rcases hcache.others _ hkey with hsame | hnone
      · exact h.filed key page (hsame.symm.trans hpeek)
      · exact absurd (hnone.symm.trans hpeek) (by simp)
  pages key page hpeek := by
    by_cases hkey : key = (ino, b)
    · obtain ⟨page', hpeek', hdata', -⟩ := hcache.page
      rw [hkey] at hpeek
      rw [Option.some.inj (hpeek.symm.trans hpeek'), hdata']
      exact hlen
    · rcases hcache.others _ hkey with hsame | hnone
      · exact h.pages key page (hsame.symm.trans hpeek)
      · exact absurd (hnone.symm.trans hpeek) (by simp)
  start := h.start
  stop := h.stop
  log := h.log
  map := h.map
  slots block d hin hshows hwhole := by
    rcases Shows.of_replaces hcache hshows with hold | ⟨rfl, rfl⟩
    · exact h.slots block d hin hold hwhole
    · exact hslots hwhole

/-- What is loaded for an inode without a copy of the block, or the empty page when the block
cannot be read. -/
theorem exists_loaded (v : Volume) (ino : UInt32) (block : ℕ) (hnone : v.pageCache.peek (ino, block) = none) :
    ∃ data faults, loadData ino block v = .ok data { v with storage := { v.storage with faults } } ∧
      (data = v.loaded ino block ∨ data = []) := by
  unfold loaded
  rw [hnone, Option.map_none, Option.getD_none]
  cases hcopy : v.pageCache.otherCopy ino block with
  | some data => exact ⟨data, v.storage.faults, loadData_of_copy hcopy, .inl rfl⟩
  | none =>
      have hload : loadData ino block v =
          tryCatch (onStorage (StorageM.readBlock block)) (fun _ => return []) v := by
        unfold loadData
        rw [bind_ok (get_apply v), hcopy]
      obtain ⟨faults, hfinal⟩ := StorageM.final_readBytes (block * blockSize) blockSize v.storage
      rw [hload]
      cases hread : StorageM.readBlock block v.storage with
      | ok data s =>
          rw [show StorageM.readBytes (block * blockSize) blockSize v.storage = _ from hread, final_ok] at hfinal
          have hstored : data = v.storage.block block := (StorageM.of_readBlock hread).1
          rw [hfinal] at hread
          exact ⟨data, faults, tryCatch_ok (zoom_ok hread), .inl (by rw [Option.getD_none, hstored])⟩
      | error e s =>
          rw [show StorageM.readBytes (block * blockSize) blockSize v.storage = _ from hread, final_error] at hfinal
          rw [hfinal] at hread
          exact ⟨[], faults, tryCatch_error (zoom_error hread), .inr rfl⟩

/-- **An update** sets one page, to a change of what was loaded for it. -/
theorem exists_updateInodePage (v : Volume) (ino : UInt32) (block offset : ℕ) (f : List UInt8 → List UInt8) :
    ∃ data faults cache, updateInodePage ino block offset f v =
        .ok () { v with storage := { v.storage with faults }, pageCache := cache } ∧
      (data = v.loaded ino block ∨ data = []) ∧
      PageCache.Replaces v.pageCache (ino, block) (updateAt offset f data) cache := by
  obtain ⟨page, data, faults, loadedCache, hload, hdata, hloaded⟩ :
      ∃ page data faults cache, getOrLoad ino block 0 v =
          .ok page { v with storage := { v.storage with faults }, pageCache := cache } ∧
        (data = v.loaded ino block ∨ data = []) ∧ PageCache.Replaces v.pageCache (ino, block) data cache := by
    cases hpeek : v.pageCache.peek (ino, block) with
    | some page =>
        refine ⟨page, page.data, v.storage.faults, _, getOrLoad_of_cached hpeek 0, .inl ?_,
          PageCache.Replaces.modify hpeek (f := id) rfl⟩
        unfold loaded
        rw [hpeek]
        rfl
    | none =>
        obtain ⟨data, faults, hdata, hloaded⟩ := exists_loaded v ino block hpeek
        exact ⟨_, data, faults, _, getOrLoad_of_load hpeek hdata 0, hloaded,
          PageCache.Replaces.put (Lru.peek_eq_none_iff.mp hpeek)
            (show (⟨block, data, false, some ino, 0, 0, 0⟩ : CachedPage).block = block from rfl)⟩
  obtain ⟨found, hfound, hfoundData, -⟩ := hloaded.page
  have hchanged := PageCache.Replaces.modify hfound (f := fun page : CachedPage =>
    { page.pin with data := updateAt offset f page.pin.data }) rfl
  obtain ⟨changed, hpeek, hchangedData, -⟩ := hchanged.page
  have hall := (hloaded.trans hchanged).trans (PageCache.Replaces.modify hpeek (f := CachedPage.unpin) rfl)
  rw [CachedPage.data_unpin, hchangedData] at hall
  simp only [CachedPage.data_pin, hfoundData] at hall
  refine ⟨data, faults, _, ?_, hdata, hall⟩
  unfold updateInodePage
  rw [bind_ok hload, bind_ok (get_apply _)]
  simp only [PageCache.updateForWrite, hfound]
  rfl

/-- **An update** keeps the invariant where its change does. -/
theorem keeps_updateInodePage {b offset : ℕ} {f : List UInt8 → List UInt8} (hat : SlotAt lo hi b offset)
    (ino : UInt32) (hf : Admits S v ino b offset f) : Keeps S lo hi v (final (updateInodePage ino b offset f v)) := by
  intro h
  obtain ⟨hin, j, hj, rfl⟩ := hat
  obtain ⟨data, faults, cache, hrun, hdata, hreplaces⟩ := exists_updateInodePage v ino b (j * disize) f
  rw [hrun, final_ok]
  have hfaults : SlotsHold S lo hi { v with storage := { v.storage with faults } } :=
    keeps_of_eq (v := v) rfl rfl rfl rfl rfl rfl h
  have hshown := v.shows_loaded ino b
  by_cases hwhole : data.length = blockSize
  · have hloaded : data = v.loaded ino b := hdata.resolve_right fun hnil => by
      rw [hnil] at hwhole
      exact absurd hwhole (by decide)
    subst hloaded
    have hS := h.slots b _ hin hshown hwhole
    obtain ⟨hlen, hSf⟩ := hf j hj rfl hwhole (hS j hj)
    have hnew := length_updateAt_of_length hwhole hj hlen
    refine hfaults.of_replaces hreplaces (.inl hnew) fun _ j' hj' => ?_
    rw [slotOf_updateAt_of_length hwhole hj hlen]
    split
    · next heq =>
        rw [heq]
        exact hSf
    · exact hS j' hj'
  · -- an empty page has no room for a slot
    have hnil : data = [] := by
      rcases hdata with rfl | hnil
      · rcases hshown with hstored | ⟨i, page, hpeek, hpage⟩
        · exact absurd (hstored ▸ v.storage.length_block b) hwhole
        · rw [← hpage] at hwhole ⊢
          exact (h.pages _ page hpeek).resolve_left hwhole
      · exact hnil
    have hsame : updateAt (j * disize) f [] = [] := if_neg (by unfold disize; simp)
    rw [hnil, hsame] at hreplaces
    exact hfaults.of_replaces hreplaces (.inr rfl) fun hzero => absurd hzero (by decide)

/-! ## Reading -/

theorem Quiet.of_run {α : Type} {x : VolM α} {a : α} (hx : Within Quiet x) (hrun : x v = .ok a v') : Quiet v v' := by
  have hquiet := hx v
  rwa [hrun] at hquiet

theorem exists_of_findSlot {data : List UInt8} {fileset number i count offset : ℕ}
    (h : findSlot data fileset number i count = .ok (some offset)) :
    ∃ j < i + count, offset = j * disize ∧ j * disize + disize ≤ data.length ∧
      Dinode.HasKey (fileset, number) (slotOf data j) := by
  induction count generalizing i with
  | zero => cases h
  | succ count ih =>
      unfold findSlot at h
      cases hslice : sliceOrPanic data (i * disize) disize with
      | error e =>
          rw [hslice] at h
          cases h
      | ok dinode =>
          have hlong : i * disize + disize ≤ data.length ∧ dinode = slotOf data i := of_sliceOrPanic_ok hslice
          rw [hslice] at h
          simp only [bind, Except.bind, pure, Except.pure] at h
          split at h
          · next hkey =>
              cases h
              exact ⟨i, by omega, rfl, hlong.1, hlong.2 ▸ hkey⟩
          · obtain ⟨j, hj, hrest⟩ := ih h
            exact ⟨j, by omega, hrest⟩

theorem shows_of_tablePage {block : ℕ} {data : List UInt8} (hrun : tablePage block v = .ok data v') :
    v.Shows block data := by
  have hshown := v.shows_shown block
  unfold tablePage at hrun
  rw [bind_ok (get_apply v)] at hrun
  unfold shown at hshown
  cases hpeek : v.pageCache.peekBlock block with
  | some page =>
      rw [hpeek] at hrun hshown
      cases hrun
      exact hshown
  | none =>
      rw [hpeek] at hrun
      obtain ⟨s, hstored, -⟩ := of_zoom_ok hrun
      exact .inl (StorageM.of_readBlock hstored).1.symm

/-- Where a search ends: at a slot that is shown with the key. -/
theorem place_of_findInodeFrom {fileset number block count b offset : ℕ}
    (hrun : findInodeFrom fileset number block count v = .ok (some (b, offset)) v') :
    block ≤ b ∧ b < block + count ∧ b < v.aggSize ∧ ∃ j < inosPerPage, offset = j * disize ∧
      ∃ data, v.Shows b data ∧ j * disize + disize ≤ data.length ∧ Dinode.HasKey (fileset, number) (slotOf data j) := by
  induction count generalizing block v with
  | zero => cases hrun
  | succ count ih =>
      unfold findInodeFrom at hrun
      rw [bind_ok (get_apply v)] at hrun
      split at hrun
      · obtain ⟨hlow, hhigh, hrest⟩ := ih hrun
        exact ⟨by omega, by omega, hrest⟩
      · next hinside =>
          obtain ⟨data, w, hpage, hrest⟩ := of_bind_ok hrun
          have hshows := shows_of_tablePage hpage
          obtain ⟨txMgr, faults, rfl, -⟩ := Quiet.of_run (reads_quiet.tablePage block) hpage
          obtain ⟨found, w', hfound, hend⟩ := of_bind_ok hrest
          obtain ⟨hslot, rfl⟩ := of_returnExcept_ok hfound
          cases found with
          | some offset' =>
              cases hend
              obtain ⟨j, hj, hoffset, hkey⟩ := exists_of_findSlot hslot
              exact ⟨le_rfl, by omega, Nat.lt_of_not_le hinside, j, by omega, hoffset, data, hshows, hkey⟩
          | none =>
              obtain ⟨hlow, hhigh, hplace⟩ := ih hend
              exact ⟨by omega, by omega, hplace⟩

/-- A page that holds a slot is whole. -/
theorem SlotsHold.whole (h : v.SlotsHold S lo hi) {b j : ℕ} {data : List UInt8} (hshows : v.Shows b data)
    (hlong : j * disize + disize ≤ data.length) : data.length = blockSize := by
  rcases hshows with hstored | ⟨i, page, hpeek, rfl⟩
  · rw [← hstored]
    exact v.storage.length_block b
  · rcases h.pages _ page hpeek with hwhole | hnil
    · exact hwhole
    · rw [hnil] at hlong
      unfold disize at hlong
      simp at hlong

/-- **What is read** is a slot of the table that is shown, at a place that is shown with the key of
the inode. -/
theorem SlotsHold.of_readInode (h : v.SlotsHold S lo hi) {ino : UInt32} {inode : Inode}
    (hrun : readInode ino v = .ok inode v') :
    Quiet v v' ∧ ∃ j < inosPerPage, InTable lo hi inode.pageBlock ∧ inode.pageOffset = j * disize ∧
      (∃ data, v.Shows inode.pageBlock data ∧ data.length = blockSize ∧ inode.dinode = slotOf data j) ∧
      ∃ data, v.Shows inode.pageBlock data ∧ data.length = blockSize ∧
        Dinode.HasKey (inodeKey ino) (slotOf data j) := by
  refine ⟨Quiet.of_run (reads_quiet.readInode ino) hrun, ?_⟩
  obtain ⟨⟨b, offset⟩, w, hplace, hread⟩ := of_bind_ok hrun
  have hquiet := Quiet.of_run (reads_quiet.findInodePage ino) hplace
  have hfound : v.ait2.address ≤ b ∧ b < v.ait2.address + (v.ait2.length + scanSlack) ∧ b < v.aggSize ∧
      ∃ j < inosPerPage, offset = j * disize ∧ ∃ data, v.Shows b data ∧ j * disize + disize ≤ data.length ∧
        Dinode.HasKey (inodeKey ino) (slotOf data j) := by
    unfold findInodePage at hplace
    rw [bind_ok (get_apply v)] at hplace
    obtain ⟨found, w', hsearch, hend⟩ := of_bind_ok hplace
    cases found with
    | none => cases hend
    | some place =>
        cases hend
        exact place_of_findInodeFrom hsearch
  obtain ⟨hlow, hhigh, hinside, j, hj, rfl, found, hfoundShows, hfoundLong, hkey⟩ := hfound
  have hin : InTable lo hi b := ⟨h.start.trans hlow, h.stop b hinside hhigh⟩
  obtain ⟨txMgr, faults, rfl, -⟩ := hquiet
  dsimp only at hread
  rw [bind_ok (get_apply _)] at hread
  obtain ⟨data, w', hshows, hslot⟩ : ∃ data w', v.Shows b data ∧ (do
      let dinode ← returnExcept (sliceOrPanic data (j * disize) disize)
      return ({ dinode, ino, pageBlock := b, pageOffset := j * disize } : Inode) : VolM Inode) w' = .ok inode v' := by
    cases hpeek : v.pageCache.peek (ino, b) with
    | some page =>
        simp only [hpeek] at hread
        exact ⟨page.data, _, .inr ⟨ino, page, hpeek, rfl⟩, hread⟩
    | none =>
        simp only [hpeek] at hread
        obtain ⟨data, w', hdata, hslot⟩ := of_bind_ok hread
        obtain ⟨s, hstored, -⟩ := of_zoom_ok hdata
        exact ⟨data, w', .inl (StorageM.of_readBlock hstored).1.symm, hslot⟩
  obtain ⟨dinode, w'', hdinode, hend⟩ := of_bind_ok hslot
  obtain ⟨hslice, -⟩ := of_returnExcept_ok hdinode
  cases hend
  have hlong : j * disize + disize ≤ data.length ∧ dinode = slotOf data j := of_sliceOrPanic_ok hslice
  exact ⟨j, hj, hin, rfl, ⟨data, hshows, h.whole hshows hlong.1, hlong.2⟩, found, hfoundShows,
    h.whole hfoundShows hfoundLong, hkey⟩

theorem SlotsHold.slotAt_of_readInode (h : v.SlotsHold S lo hi) {ino : UInt32} {inode : Inode}
    (hrun : readInode ino v = .ok inode v') : SlotAt lo hi inode.pageBlock inode.pageOffset := by
  obtain ⟨-, j, hj, hin, hoffset, -⟩ := h.of_readInode hrun
  exact ⟨hin, j, hj, hoffset⟩

theorem place_of_allocateFrom {start blockOffset count b offset : ℕ} {child : UInt32}
    (hrun : allocateFrom start blockOffset count v = .ok (child, b, offset) v') :
    start + blockOffset ≤ b ∧ b < start + blockOffset + count ∧ b < v.aggSize ∧
      ∃ j < inosPerPage, offset = j * disize := by
  induction count generalizing blockOffset v with
  | zero => cases hrun
  | succ count ih =>
      unfold allocateFrom at hrun
      dsimp only at hrun
      rw [bind_ok (get_apply v)] at hrun
      split at hrun
      · obtain ⟨hlow, hhigh, hrest⟩ := ih hrun
        exact ⟨by omega, by omega, hrest⟩
      · next hinside =>
          obtain ⟨data, w, hpage, hrest⟩ := of_bind_ok hrun
          obtain ⟨txMgr, faults, rfl, -⟩ := Quiet.of_run (reads_quiet.tablePage _) hpage
          cases hslot : freeSlot data blockOffset 0 inosPerPage with
          | some j =>
              rw [hslot] at hrest
              obtain ⟨_, w', -, hend⟩ := of_bind_ok hrest
              cases hend
              obtain ⟨hj, -⟩ := of_freeSlot_eq hslot
              exact ⟨le_rfl, by omega, Nat.lt_of_not_le hinside, j, by omega, rfl⟩
          | none =>
              rw [hslot] at hrest
              obtain ⟨hlow, hhigh, hplace⟩ := ih hrest
              exact ⟨by omega, by omega, hplace⟩

theorem SlotsHold.slotAt_of_allocateInode (h : v.SlotsHold S lo hi) {child : UInt32} {b offset : ℕ}
    (hrun : allocateInode v = .ok (child, b, offset) v') : SlotAt lo hi b offset := by
  unfold allocateInode at hrun
  rw [bind_ok (get_apply v)] at hrun
  obtain ⟨hlow, hhigh, hinside, hslot⟩ := place_of_allocateFrom hrun
  have hstart := h.start
  exact ⟨⟨by omega, h.stop b hinside (by omega)⟩, hslot⟩

/-! ## The end of a call -/

theorem keeps_onStorage {α : Type} {x : StorageM α}
    (hx : Within (Storage.ChangesOnly fun i => ¬ InTable lo hi (i / blockSize)) x) :
    Within (Keeps S lo hi) (onStorage x) := by
  refine Within.zoom hx fun v s hchanges h => ?_
  refine h.of_same rfl rfl rfl (fun block hin => ?_) (fun _ => rfl) h.map
  refine Storage.ChangesOnly.block hchanges fun i hlow hhigh hout => hout ?_
  rwa [BlockAllocMap.block_of_within hlow hhigh]

theorem keeps_journaled (h : Journaled v v') : Keeps S lo hi v v' := by
  obtain ⟨log, cache, storage, rfl, hbase, hpeek, hchanges⟩ := h
  intro hv
  refine hv.of_same rfl rfl hbase (fun block hin => ?_) (fun key => congrArg _ (hpeek key)) hv.map
  refine Storage.ChangesOnly.block hchanges fun i hlow hhigh hlog => hv.log i hlog ?_
  rwa [BlockAllocMap.block_of_within hlow hhigh]

theorem keeps_of_journaled {α : Type} {x : VolM α} (hx : Within Journaled x) : Within (Keeps S lo hi) x :=
  fun v => keeps_journaled (hx v)

/-- A copy of a block of the table is written to the block. -/
theorem keeps_writeBlock {ino : UInt32} {block : ℕ} {page : CachedPage}
    (hpeek : v.pageCache.peek (ino, block) = some page) :
    Keeps S lo hi v (final (onStorage (StorageM.writeBlock block page.data) v)) := by
  intro h
  have hwritten : ∀ s, s.data = v.storage.data ∨ s.data = Memory.write v.storage.data (block * blockSize) page.data →
      SlotsHold S lo hi { v with storage := s } := by
    rintro s (hsame | hdata)
    · exact keeps_of_eq (v := v) rfl rfl rfl hsame rfl rfl h
    · refine ⟨h.filed, h.pages, h.start, h.stop, h.log, h.map, fun b data hin hshows hwhole => ?_⟩
      rcases hshows with hstored | hcached
      · by_cases hb : b = block
        · subst hb
          rcases h.pages _ page hpeek with hlen | hnil
          · have hblock : s.block b = page.data := by
              unfold Storage.block
              rw [hdata, ← hlen]
              exact Memory.read_write_self ..
            rw [← hstored, hblock] at hwhole ⊢
            exact h.slots b _ hin (.inr ⟨ino, page, hpeek, rfl⟩) hwhole
          · rw [hnil, Memory.write_nil] at hdata
            exact h.slots b data hin (.inl ((Storage.block_of_data hdata b).symm.trans hstored)) hwhole
        · have hlen : page.data.length ≤ blockSize := by
            rcases h.pages _ page hpeek with hlen | hnil
            · exact hlen.le
            · rw [hnil]
              exact Nat.zero_le _
          have hblock : s.block b = v.storage.block b := by
            have hother := block_written_of_ne (s := v.storage) hlen hb (.writeBlock block page.data)
            unfold Storage.block at hother ⊢
            rw [hdata]
            exact hother
          exact h.slots b data hin (.inl (hblock.symm.trans hstored)) hwhole
      · exact h.slots b data hin (.inr hcached) hwhole
  unfold onStorage
  rw [final_zoom]
  have hattempt : Within (Storage.ChangesOnly fun _ => False) StorageM.attempt := StorageM.changesOnly_attempt
  refine hwritten _ ?_
  unfold StorageM.writeBlock
  cases hrun : StorageM.attempt v.storage with
  | error e s =>
      have hsame := hattempt v.storage
      rw [hrun] at hsame
      rw [bind_error hrun]
      exact .inl (funext fun i => hsame i not_false)
  | ok a s =>
      have hsame := hattempt v.storage
      rw [hrun] at hsame
      have hdata : s.data = v.storage.data := funext fun i => hsame i not_false
      rw [bind_ok hrun, bind_ok (get_apply s)]
      cases s.writeBlockRefused block page.data with
      | some e => exact .inl hdata
      | none => exact .inr (by rw [← hdata]; rfl)

theorem keeps_writePages (keys : List (UInt32 × ℕ)) : Within (Keeps S lo hi) (writePages keys) := by
  induction keys with
  | nil => exact Within.pure 0
  | cons key rest ih =>
      obtain ⟨ino, block⟩ := key
      refine Within.bind_of_ok (keeps_of_journaled (journaled_getPage _ _)) fun v found w hrun => ?_
      have hpeek : w.pageCache.peek (ino, block) = found := by
        cases hrun
        exact v.pageCache.peek_get _ _
      cases found with
      | none => exact ih w
      | some page =>
          refine Within.bind_at (keeps_writeBlock hpeek) fun _ w' _ => ?_
          exact Within.bind ih (fun _ => Within.pure _) w'

theorem keeps_orAbortPages {α : Type} (keys : List (UInt32 × ℕ)) {x : VolM α} (hx : Within (Keeps S lo hi) x) :
    Within (Keeps S lo hi) (orAbortPages keys x) := by
  refine Within.tryCatch hx fun _ => Within.bind (fun v h => ?_) fun _ => Within.throw _
  exact keeps_samePages (samePages_abortPages keys h.filed) h

theorem keeps_flush (call : StorageCall) : Within (Keeps S lo hi) (onStorage (StorageM.flush call)) :=
  keeps_of_journaled (journaled_flush call)

theorem keeps_writeBack (active : ActiveTxn) : Within (Keeps S lo hi) (writeBack active) := by
  have hrest : Within (Keeps S lo hi) (do
      let written ← orAbortPages active.dirtyPages (writePages active.dirtyPages)
      orAbortPages active.dirtyPages (onStorage StorageM.flushMetadata)
      return written : VolM ℕ) :=
    Within.bind (keeps_orAbortPages _ (keeps_writePages _)) fun _ =>
      Within.bind (keeps_orAbortPages _ (keeps_flush _)) fun _ => Within.pure _
  refine Within.bind (keeps_orAbortPages _ (keeps_flush _)) fun _ => Within.bind Within.get fun v =>
    Within.ite ?_ hrest
  refine Within.bind (keeps_orAbortPages _ ?_) fun _ => hrest
  exact Within.bind (keeps_of_journaled (journaled_journalPages _ _)) fun _ =>
    keeps_of_journaled (journaled_onLog fun _ => LogManager.staysAbove_commitTransaction _)

/-- The pages that were written are dropped. -/
theorem keeps_releasePages (keys : List (UInt32 × ℕ)) : Within (Keeps S lo hi) (releasePages keys) := by
  intro v h
  have hpeek := peek_releasePages keys v.pageCache
  have hold : ∀ key page, (final (releasePages keys v)).pageCache.peek key = some page →
      v.pageCache.peek key = some page := by
    intro key page hpage
    have hkey := (hpeek key).symm.trans hpage
    split at hkey
    · cases hkey
    · exact hkey
  refine ⟨fun key page hpage => h.filed key page (hold key page hpage),
    fun key page hpage => h.pages key page (hold key page hpage), h.start, h.stop, h.log, h.map,
    fun block data hin hshows => h.slots block data hin ?_⟩
  rcases hshows with hstored | ⟨ino, page, hpage, hdata⟩
  · exact .inl hstored
  · exact .inr ⟨ino, page, hold _ page hpage, hdata⟩

theorem keeps_modifyTxMgr (f : TransactionManager → TransactionManager) : Within (Keeps S lo hi) (modifyTxMgr f) :=
  fun _ => keeps_of_eq rfl rfl rfl rfl rfl rfl

theorem keeps_commitPages : Within (Keeps S lo hi) commitPages := by
  refine Within.bind Within.get fun v => ?_
  cases v.txMgr.active with
  | none => exact Within.throw _
  | some active =>
      refine Within.bind (keeps_modifyTxMgr _) fun _ => Within.bind (keeps_writeBack _) fun _ => ?_
      refine Within.bind (keeps_releasePages _) fun _ => Within.bind (keeps_modifyTxMgr _) fun _ => ?_
      exact Within.pure _

/-- The map is written to its own blocks. -/
theorem keeps_commitBmap : Within (Keeps S lo hi) commitBmap := by
  refine Within.get_bind fun v h => ?_
  cases hbmap : v.bmap with
  | none => exact h
  | some m =>
      simp only
      have hclear := h.map m hbmap
      have hwrites : Within (Storage.ChangesOnly fun i => ¬ InTable lo hi (i / blockSize)) m.commit :=
        fun s i hi => m.changesOnly_commit s i fun htouch => hi (hclear i htouch)
      have hstorage := keeps_onStorage (S := S) hwrites v h
      unfold onStorage at hstorage
      rw [final_zoom] at hstorage
      cases hcommit : m.commit v.storage with
      | error e s =>
          rw [hcommit] at hstorage
          have hrun : onStorage m.commit v = .error e { v with storage := s } := zoom_error hcommit
          rw [bind_error hrun]
          exact hstorage
      | ok m' s =>
          rw [hcommit] at hstorage
          have hrun : onStorage m.commit v = .ok m' { v with storage := s } := zoom_ok hcommit
          have hflushed : m' = flushedMap m := by
            obtain ⟨_, _, -, hend⟩ := of_bind_ok hcommit
            obtain ⟨_, _, -, hend⟩ := of_bind_ok hend
            obtain ⟨_, _, -, hend⟩ := of_bind_ok hend
            cases hend
            rfl
          rw [bind_ok hrun, hflushed]
          refine hstorage.of_same rfl rfl rfl (fun _ _ => rfl) (fun _ => rfl) ?_
          rintro _ ⟨⟩ i (hdesc | ⟨page, hpage, -⟩)
          · exact hclear i (.inl hdesc)
          · cases hpage

theorem keeps_commitTransaction : Within (Keeps S lo hi) commitTransaction :=
  Within.bind keeps_commitPages fun _ => Within.bind keeps_commitBmap fun _ => Within.pure _

theorem keeps_abortTransaction : Within (Keeps S lo hi) abortTransaction := by
  intro v h
  have hrolled : SlotsHold S lo hi { v with bmap := v.bmap.map BlockAllocMap.rollback } := by
    refine h.of_same rfl rfl rfl (fun _ _ => rfl) (fun _ => rfl) fun m hm => ?_
    obtain ⟨m₀, hm₀, rfl⟩ := Option.map_eq_some_iff.mp hm
    rintro i (hdesc | ⟨page, hpage, -⟩)
    · exact h.map m₀ hm₀ i (.inl hdesc)
    · cases hpage
  unfold abortTransaction
  rw [modify_apply]
  dsimp only [final_ok]
  split
  · exact hrolled
  · next active _ =>
      have hpages := keeps_samePages (samePages_abortPages active.dirtyPages hrolled.filed) hrolled
      exact keeps_of_eq (S := S) (v := { v with
        bmap := v.bmap.map BlockAllocMap.rollback, pageCache := v.pageCache.abortPages active.dirtyPages })
        rfl rfl rfl rfl rfl rfl hpages

/-- **A transaction** keeps the invariant if its body does. -/
theorem keeps_transaction {α : Type} {body : VolM (Exit α α)} (hbody : Keeps S lo hi v.begun (final (body v.begun))) :
    Keeps S lo hi v (final (transaction body v)) := by
  unfold transaction
  cases hactive : v.txMgr.active with
  | some active =>
      have hbegin : beginTransaction v = .error (.other "transaction already in progress") v := by
        unfold beginTransaction
        rw [bind_ok (get_apply v), hactive]
        rfl
      rw [bind_error hbegin]
      exact id
  | none =>
      rw [bind_ok (beginTransaction_of_idle hactive)]
      refine Within.bind_from (trans_of (Keeps S lo hi) (keeps_begun v) hbody) fun exit => ?_
      cases exit with
      | commit a => exact Within.bind keeps_commitTransaction fun _ => Within.pure _
      | abort result => exact Within.bind keeps_abortTransaction fun _ => Within.returnExcept _

end Steps

end Volume

end JfsFuse
