import JfsFuse.Volume.File
import JfsFuse.Volume.PageUpdate

/-!
# What the steps of a call keep in the inode table

An inode has its place where every cached copy of the table, and the table itself, has its key
in one slot only.  The steps of a call on a file keep the places of inodes, and carry over what
holds of every inode of a block, as long as its updates do: `Carries` says this for two states,
block by block, and follows for the commit because it writes what was cached.
-/

namespace JfsFuse

open ByteBuf Program

namespace Volume

/-- In every content that the table is seen with, slot `j` of block `b` is the first one with the
key of the inode. -/
structure Placed (v : Volume) (ino : UInt32) (b j : ℕ) : Prop where
  low : v.ait2.address ≤ b
  high : b < v.ait2.address + (v.ait2.length + scanSlack)
  inside : b < v.aggSize
  slot : j < inosPerPage
  key : ∀ data, v.Shows b data → Dinode.HasKey (inodeKey ino) (slotOf data j)
  first : ∀ b' j' data, v.ait2.address ≤ b' → b' < b ∨ b' = b ∧ j' < j → j' < inosPerPage →
    v.Shows b' data → ¬ Dinode.HasKey (inodeKey ino) (slotOf data j')

theorem Placed.foundAt {v : Volume} {ino : UInt32} {b j : ℕ} (h : v.Placed ino b j) : v.FoundAt ino b j where
  low := h.low
  high := h.high
  inside := h.inside
  slot := h.slot
  key := h.key _ (v.shows_shown b)
  first b' j' hlow hbefore hj' := h.first b' j' _ hlow hbefore hj' (v.shows_shown b')

theorem Placed.unique {v : Volume} {ino : UInt32} {b j b' j' : ℕ} (h : v.Placed ino b j)
    (h' : v.Placed ino b' j') : b' = b ∧ j' = j :=
  h.foundAt.unique h'.foundAt

/-- Every content of block `b` has an inode with `P` in slot `j`. -/
def Everywhere (v : Volume) (b j : ℕ) (P : List UInt8 → Prop) : Prop :=
  ∀ data, v.Shows b data → P (slotOf data j)

/-- Each content that `v'` shows of a block from `lo` to `hi` comes from one that `v` shows: the
slots have the keys they had, and those with `P` still have it. -/
structure Carries (P : List UInt8 → Prop) (lo hi : ℕ) (v v' : Volume) : Prop where
  ait2 : v'.ait2 = v.ait2
  aggSize : v'.aggSize = v.aggSize
  slots : ∀ block data, lo ≤ block → block ≤ hi → v'.Shows block data →
    ∃ data₀, v.Shows block data₀ ∧ ∀ j < inosPerPage,
      (∀ key, Dinode.HasKey key (slotOf data j) ↔ Dinode.HasKey key (slotOf data₀ j)) ∧
      (P (slotOf data₀ j) → P (slotOf data j))

namespace Carries

variable {P : List UInt8 → Prop} {lo hi : ℕ} {v v' v'' : Volume}

theorem refl (P : List UInt8 → Prop) (lo hi : ℕ) (v : Volume) : Carries P lo hi v v :=
  ⟨rfl, rfl, fun _ data _ _ h => ⟨data, h, fun _ _ => ⟨fun _ => Iff.rfl, id⟩⟩⟩

theorem trans (h : Carries P lo hi v v') (h' : Carries P lo hi v' v'') : Carries P lo hi v v'' := by
  refine ⟨h'.ait2.trans h.ait2, h'.aggSize.trans h.aggSize, fun block data hlow hhigh hshows => ?_⟩
  obtain ⟨data₁, hshows₁, hslots₁⟩ := h'.slots block data hlow hhigh hshows
  obtain ⟨data₀, hshows₀, hslots₀⟩ := h.slots block data₁ hlow hhigh hshows₁
  refine ⟨data₀, hshows₀, fun j hj => ⟨fun key => ?_, fun hP => ?_⟩⟩
  · exact ((hslots₁ j hj).1 key).trans ((hslots₀ j hj).1 key)
  · exact (hslots₁ j hj).2 ((hslots₀ j hj).2 hP)

/-- Nothing new is shown. -/
theorem of_shows (hait2 : v'.ait2 = v.ait2) (hagg : v'.aggSize = v.aggSize)
    (hshows : ∀ block data, lo ≤ block → block ≤ hi → v'.Shows block data →
      v.Shows block data) : Carries P lo hi v v' :=
  ⟨hait2, hagg, fun block data hlow hhigh h =>
    ⟨data, hshows block data hlow hhigh h, fun _ _ => ⟨fun _ => Iff.rfl, id⟩⟩⟩

theorem placed (h : Carries P lo hi v v') (hlo : lo ≤ v.ait2.address) {ino : UInt32} {b j : ℕ}
    (hb : b ≤ hi) (hplaced : v.Placed ino b j) : v'.Placed ino b j := by
  obtain ⟨hlow, hhigh, hinside, hslot, hkey, hfirst⟩ := hplaced
  refine ⟨?_, ?_, ?_, hslot, fun data hshows => ?_, fun b' j' data hlow' hbefore hj' hshows => ?_⟩
  · rwa [h.ait2]
  · rwa [h.ait2]
  · rwa [h.aggSize]
  · obtain ⟨data₀, hshows₀, hslots⟩ := h.slots b data (hlo.trans hlow) hb hshows
    exact ((hslots j hslot).1 _).mpr (hkey data₀ hshows₀)
  · rw [h.ait2] at hlow'
    obtain ⟨data₀, hshows₀, hslots⟩ := h.slots b' data (hlo.trans hlow') (by omega) hshows
    exact fun hhas => hfirst b' j' data₀ hlow' hbefore hj' hshows₀ (((hslots j' hj').1 _).mp hhas)

theorem everywhere (h : Carries P lo hi v v') {b j : ℕ} (hlow : lo ≤ b) (hb : b ≤ hi)
    (hj : j < inosPerPage) (hP : v.Everywhere b j P) : v'.Everywhere b j P := by
  intro data hshows
  obtain ⟨data₀, hshows₀, hslots⟩ := h.slots b data hlow hb hshows
  exact (hslots j hj).2 (hP data₀ hshows₀)

end Carries

/-! ## Updates -/

theorem Shows.of_replaces {v : Volume} {ino : UInt32} {b : ℕ} {data : List UInt8} {cache : PageCache}
    (hcache : PageCache.Replaces v.pageCache (ino, b) data cache) {block : ℕ} {d : List UInt8}
    (h : Shows { v with pageCache := cache } block d) : v.Shows block d ∨ block = b ∧ d = data := by
  rcases h with hblock | ⟨i, page, hpeek, hdata⟩
  · exact Or.inl (Or.inl hblock)
  · by_cases hkey : (i, block) = (ino, b)
    · obtain ⟨page', hpeek', hdata', -⟩ := hcache.page
      have hsame : page = page' := by
        rw [hkey] at hpeek
        exact Option.some.inj (hpeek.symm.trans hpeek')
      refine Or.inr ⟨congrArg Prod.snd hkey, ?_⟩
      rw [← hdata, hsame, hdata']
    · rcases hcache.others _ hkey with hsame | hnone
      · exact Or.inl (Or.inr ⟨i, page, hsame.symm.trans hpeek, hdata⟩)
      · exact absurd (hnone.symm.trans hpeek) (by simp)

/-- A change of one inode keeps the length of the block. -/
theorem length_updateAt_slot {data : List UInt8} (hlen : data.length = blockSize) {j : ℕ}
    (hj : j < inosPerPage) {f : List UInt8 → List UInt8} (hf : Dinode.IsEdit f) :
    (updateAt (j * disize) f data).length = blockSize :=
  length_updateAt_of_length hlen hj (hf.length _ (length_slotOf hlen hj))

/-- Pages that are whole blocks take the place of others. -/
theorem Calm.of_replaces {v : Volume} (h : v.Calm) {key : UInt32 × ℕ} {data : List UInt8}
    (hlen : data.length = blockSize) {cache : PageCache}
    (hcache : PageCache.Replaces v.pageCache key data cache) : Calm { v with pageCache := cache } where
  faults := h.faults
  size := h.size
  pages key' page hpeek := by
    by_cases hkey : key' = key
    · obtain ⟨page', hpeek', hdata', -⟩ := hcache.page
      rw [hkey] at hpeek
      rw [Option.some.inj (hpeek.symm.trans hpeek'), hdata', hlen]
    · rcases hcache.others _ hkey with hsame | hnone
      · exact h.pages key' page (hsame.symm.trans hpeek)
      · exact absurd (hnone.symm.trans hpeek) (by simp)

section Update

variable {P : List UInt8 → Prop} {lo hi : ℕ} {v : Volume}

/-- Contents that have the keys, and `P` where one that is shown has it, take the place of a page. -/
theorem carries_slots {k : UInt32 × ℕ} {data₀ data : List UInt8} (hshows : v.Shows k.2 data₀)
    (hslots : ∀ j < inosPerPage,
      (∀ key, Dinode.HasKey key (slotOf data j) ↔ Dinode.HasKey key (slotOf data₀ j)) ∧
      (P (slotOf data₀ j) → P (slotOf data j))) {cache : PageCache}
    (hcache : PageCache.Replaces v.pageCache k data cache) :
    Carries P lo hi v { v with pageCache := cache } := by
  refine ⟨rfl, rfl, fun block d _ _ hd => ?_⟩
  rcases Shows.of_replaces hcache hd with hold | ⟨rfl, rfl⟩
  · exact ⟨d, hold, fun _ _ => ⟨fun _ => Iff.rfl, id⟩⟩
  · exact ⟨data₀, hshows, hslots⟩

/-- **An update of an inode** keeps the keys, and `P` where the update does. -/
theorem Calm.carries_replaces (h : v.Calm) {ino : UInt32} {b j : ℕ} (hj : j < inosPerPage)
    {f : List UInt8 → List UInt8} (hf : Dinode.IsEdit f) {data₀ : List UInt8} (hshows : v.Shows b data₀)
    (hP : P (slotOf data₀ j) → P (f (slotOf data₀ j))) {cache : PageCache}
    (hcache : PageCache.Replaces v.pageCache (ino, b) (updateAt (j * disize) f data₀) cache) :
    Carries P lo hi v { v with pageCache := cache } := by
  have hlen := h.length_of_shows hshows
  refine carries_slots (k := (ino, b)) hshows (fun j' hj' => ?_) hcache
  rw [slotOf_updateAt hlen hj hf]
  split
  · next heq =>
      rw [heq]
      exact ⟨fun key => hf.key key _ (length_slotOf hlen hj), hP⟩
  · exact ⟨fun _ => Iff.rfl, id⟩

end Update

/-! ## The layout -/

/-- The pages of the allocation map that it can ever write back. -/
def mapPages (m : BlockAllocMap) : ℕ :=
  1 + m.mapsize / blocksPerDmap

/-- The device does not fail, the cache has room for two pages, and the blocks from `lo` to `hi`
are in the volume, but neither in its journal nor in its allocation map. -/
structure Guarded (lo hi : ℕ) (v : Volume) : Prop extends Calm v where
  room : 2 ≤ v.pageCache.cap
  keyed : ∀ key page, v.pageCache.peek key = some page → page.block = key.2
  inside : hi < v.aggSize
  log : ∀ i, v.InLog i → ¬ (lo ≤ i / blockSize ∧ i / blockSize ≤ hi)
  map : ∀ m, v.bmap = some m → ∀ page ≤ mapPages m,
    ¬ (lo ≤ m.dmapStart + page ∧ m.dmapStart + page ≤ hi)
  pending : ∀ m, v.bmap = some m → ∀ page ∈ m.dirtyPages, page ≤ mapPages m

theorem Guarded.plain {lo hi : ℕ} {v : Volume} (h : v.Guarded lo hi) {block : ℕ} (hlow : lo ≤ block)
    (hhigh : block ≤ hi) : v.IsPlain block := by
  intro i hi'
  refine ⟨fun hlog => h.log i hlog (by rw [hi']; exact ⟨hlow, hhigh⟩), ?_⟩
  rintro ⟨m, hm, hdesc | ⟨page, hpage, hblock⟩⟩
  · exact h.map m hm 0 (Nat.zero_le _) (by omega)
  · exact h.map m hm page (h.pending m hm page hpage) (by omega)

/-- The map after allocations and frees: it has the same place and size. -/
structure MapMoves (m m' : BlockAllocMap) : Prop where
  mapsize : m'.mapsize = m.mapsize
  dmapStart : m'.dmapStart = m.dmapStart
  pending : ∀ page ∈ m'.dirtyPages, page ∈ m.dirtyPages ∨ page ≤ mapPages m

theorem MapMoves.refl (m : BlockAllocMap) : MapMoves m m :=
  ⟨rfl, rfl, fun _ => Or.inl⟩

theorem MapMoves.trans {m m' m'' : BlockAllocMap} (h : MapMoves m m') (h' : MapMoves m' m'') :
    MapMoves m m'' := by
  refine ⟨h'.mapsize.trans h.mapsize, h'.dmapStart.trans h.dmapStart, fun page hpage => ?_⟩
  rcases h'.pending page hpage with hmem | hle
  · exact h.pending page hmem
  · right
    unfold mapPages at hle ⊢
    rwa [h.mapsize] at hle

theorem mapMoves_insertDirty (m : BlockAllocMap) {block : ℕ} (hblock : block ≤ m.mapsize) :
    ∀ page ∈ BlockAllocMap.insertDirty m.dirtyPages block, page ∈ m.dirtyPages ∨ page ≤ mapPages m := by
  intro page hpage
  rcases BlockAllocMap.mem_insertDirty hpage with rfl | hmem
  · right
    unfold mapPages
    have := Nat.div_le_div_right (c := blocksPerDmap) hblock
    omega
  · exact Or.inl hmem

theorem mapMoves_allocExtent {m m' : BlockAllocMap} {nblocks hint : ℕ} {pxd : Pxd}
    (h : m.allocExtent nblocks hint = .ok (pxd, m')) : MapMoves m m' := by
  obtain ⟨start, -, hfits, -, -, rfl⟩ := BlockAllocMap.allocExtent_ok h
  exact ⟨rfl, rfl, mapMoves_insertDirty m (by omega)⟩

theorem mapMoves_freeExtent {m m' : BlockAllocMap} {pxd : Pxd} (h : m.freeExtent pxd = .ok m') :
    MapMoves m m' := by
  obtain ⟨hfits, rfl⟩ := BlockAllocMap.freeExtent_ok h
  exact ⟨rfl, rfl, mapMoves_insertDirty m (by omega)⟩

/-! ## The data phase -/

/-- The blocks in `keep` are not written. -/
structure StorageKeeps (keep : ℕ → Prop) (s t : Storage) : Prop where
  faults : s.faults = [] → t.faults = []
  size : t.size = s.size
  blocks : ∀ block, keep block → t.block block = s.block block

instance (keep : ℕ → Prop) : IsPreorder Storage (StorageKeeps keep) where
  refl _ := ⟨id, rfl, fun _ _ => rfl⟩
  trans _ _ _ h h' := ⟨fun hs => h'.faults (h.faults hs), h'.size.trans h.size,
    fun block hblock => (h'.blocks block hblock).trans (h.blocks block hblock)⟩

theorem storageKeeps_attempt (keep : ℕ → Prop) : Within (StorageKeeps keep) StorageM.attempt := by
  intro s
  unfold StorageM.attempt
  split
  · exact refl_of (StorageKeeps keep) s
  · next heq => exact ⟨fun hs => absurd (hs.symm.trans heq) (by simp), rfl, fun _ _ => rfl⟩
  · next heq => exact ⟨fun hs => absurd (hs.symm.trans heq) (by simp), rfl, fun _ _ => rfl⟩

theorem storageKeeps_readBytes (keep : ℕ → Prop) (offset n : ℕ) :
    Within (StorageKeeps keep) (StorageM.readBytes offset n) :=
  Within.bind (storageKeeps_attempt keep) fun _ => Within.bind Within.get fun _ => Within.returnExcept _

theorem storageKeeps_flush (keep : ℕ → Prop) (call : StorageCall) :
    Within (StorageKeeps keep) (StorageM.flush call) :=
  Within.bind (storageKeeps_attempt keep) fun _ _ => ⟨id, rfl, fun _ _ => rfl⟩

theorem block_written_of_ne {s : Storage} {b block : ℕ} {data : List UInt8} (hlen : data.length ≤ blockSize)
    (hne : block ≠ b) (call : StorageCall) :
    ((s.written (b * blockSize) data).record call).block block = s.block block := by
  apply Memory.read_write_of_disjoint
  rcases Nat.lt_or_gt_of_ne hne with hlt | hgt
  · left
    have := Nat.mul_le_mul_right blockSize (Nat.succ_le_of_lt hlt)
    rw [Nat.succ_mul] at this
    exact this
  · right
    have := Nat.mul_le_mul_right blockSize (Nat.succ_le_of_lt hgt)
    rw [Nat.succ_mul] at this
    omega

theorem storageKeeps_writeBlock {keep : ℕ → Prop} {b : ℕ} (hb : ¬ keep b) {data : List UInt8}
    (hlen : data.length ≤ blockSize) : Within (StorageKeeps keep) (StorageM.writeBlock b data) := by
  refine Within.bind (storageKeeps_attempt keep) fun _ => Within.get_bind fun s => ?_
  cases s.writeBlockRefused b data with
  | some e => exact refl_of (StorageKeeps keep) s
  | none =>
      refine ⟨id, rfl, fun block hblock => block_written_of_ne hlen ?_ _⟩
      rintro rfl
      exact hb hblock

/-- The blocks in `keep` are not written, the allocation map keeps its place, and nothing is
cached or marked. -/
structure DataPhase (keep : ℕ → Prop) (v w : Volume) : Prop where
  rest : w = { v with storage := w.storage, bmap := w.bmap, allocations := w.allocations }
  storage : StorageKeeps keep v.storage w.storage
  map : ∀ m', w.bmap = some m' → ∃ m, v.bmap = some m ∧ MapMoves m m'

instance (keep : ℕ → Prop) : IsPreorder Volume (DataPhase keep) where
  refl _ := ⟨rfl, refl_of (StorageKeeps keep) _, fun m' h => ⟨m', h, MapMoves.refl m'⟩⟩
  trans v w x h h' := by
    refine ⟨?_, trans_of (StorageKeeps keep) h.storage h'.storage, fun m'' hm'' => ?_⟩
    · rw [h'.rest, h.rest]
    · obtain ⟨m', hm', hmoves'⟩ := h'.map m'' hm''
      obtain ⟨m, hm, hmoves⟩ := h.map m' hm'
      exact ⟨m, hm, hmoves.trans hmoves'⟩

section DataPhase

variable {keep : ℕ → Prop}

theorem dataPhase_onStorage {α : Type} {x : StorageM α} (hx : Within (StorageKeeps keep) x) :
    Within (DataPhase keep) (onStorage x) :=
  Within.zoom hx fun _ _ hstorage => ⟨rfl, hstorage, fun m' h => ⟨m', h, MapMoves.refl m'⟩⟩

theorem dataPhase_readBlock (block : ℕ) : Within (DataPhase keep) (onStorage (StorageM.readBlock block)) :=
  dataPhase_onStorage (storageKeeps_readBytes keep _ _)

theorem dataPhase_allocExtent (nblocks hint : ℕ) : Within (DataPhase keep) (allocExtent nblocks hint) := by
  refine Within.get_bind fun v => ?_
  cases hbmap : v.bmap with
  | none => exact refl_of (DataPhase keep) v
  | some m =>
      simp only
      cases halloc : m.allocExtent nblocks hint with
      | error e => exact refl_of (DataPhase keep) v
      | ok result =>
          refine ⟨rfl, refl_of (StorageKeeps keep) _, fun m' hm' => ⟨m, hbmap, ?_⟩⟩
          cases hm'
          exact mapMoves_allocExtent halloc

theorem dataPhase_freeExtents (keep : ℕ → Prop) (extents : List (ℕ × ℕ)) : Within (DataPhase keep) (freeExtents extents) := by
  intro v
  refine ⟨rfl, refl_of (StorageKeeps keep) _, fun m' hm' => ?_⟩
  obtain ⟨m, hm, rfl⟩ := Option.map_eq_some_iff.mp (show v.bmap.map _ = some m' from hm')
  refine ⟨m, hm, ?_⟩
  clear hm hm'
  induction extents generalizing m with
  | nil => exact MapMoves.refl m
  | cons extent rest ih =>
      rw [List.foldl_cons]
      cases hfree : m.freeExtent ((Pxd.setLength {} extent.2).setAddress extent.1) with
      | ok freed => exact (mapMoves_freeExtent hfree).trans (ih freed)
      | error e => exact ih m

end DataPhase

/-! ## Steps -/

/-- On a guarded volume, the step carries over what holds of the inodes in the table. -/
def Safe (P : List UInt8 → Prop) (lo hi : ℕ) (v v' : Volume) : Prop :=
  v.Guarded lo hi → v'.Guarded lo hi ∧ Carries P lo hi v v'

instance (P : List UInt8 → Prop) (lo hi : ℕ) : IsPreorder Volume (Safe P lo hi) where
  refl v h := ⟨h, Carries.refl P lo hi v⟩
  trans _ _ _ h h' hv := by
    obtain ⟨hmid, hcarries⟩ := h hv
    obtain ⟨hend, hcarries'⟩ := h' hmid
    exact ⟨hend, hcarries.trans hcarries'⟩

section Safe

variable {P : List UInt8 → Prop} {lo hi : ℕ}

theorem Calm.of_samePages {v v' : Volume} (h : v.Calm) (hfaults : v'.storage.faults = [])
    (hsize : v'.storage.size = v.storage.size) (hagg : v'.aggSize = v.aggSize)
    (hcache : PageCache.SamePages v.pageCache v'.pageCache) : v'.Calm where
  faults := hfaults
  size := by
    rw [hsize, hagg]
    exact h.size
  pages key page hpeek := by
    obtain ⟨old, hold, -, hdata⟩ := hcache.of_peek hpeek
    rw [← hdata]
    exact h.pages key old hold

theorem Guarded.of_samePages {v v' : Volume} (h : v.Guarded lo hi) (hfaults : v'.storage.faults = [])
    (hsize : v'.storage.size = v.storage.size) (hagg : v'.aggSize = v.aggSize) (hlog : v'.log = v.log)
    (hcap : v'.pageCache.cap = v.pageCache.cap) (hcache : PageCache.SamePages v.pageCache v'.pageCache)
    (hmap : ∀ m', v'.bmap = some m' → ∃ m, v.bmap = some m ∧ MapMoves m m') : v'.Guarded lo hi := by
  refine ⟨h.toCalm.of_samePages hfaults hsize hagg hcache, ?_, fun key page hpeek => ?_, ?_, ?_,
    fun m' hm' page hpage => ?_, fun m' hm' page hpage => ?_⟩
  · rw [hcap]
    exact h.room
  · obtain ⟨old, hold, hblock, -⟩ := hcache.of_peek hpeek
    rw [← hblock]
    exact h.keyed key old hold
  · rw [hagg]
    exact h.inside
  · rw [inLog_congr (congrArg _ hlog)]
    exact h.log
  · obtain ⟨m, hm, hmoves⟩ := hmap m' hm'
    unfold mapPages at hpage
    rw [hmoves.mapsize] at hpage
    rw [hmoves.dmapStart]
    exact h.map m hm page hpage
  · obtain ⟨m, hm, hmoves⟩ := hmap m' hm'
    unfold mapPages
    rw [hmoves.mapsize]
    rcases hmoves.pending page hpage with hmem | hle
    · exact h.pending m hm page hmem
    · exact hle

theorem DataPhase.safe {v w : Volume} (h : DataPhase (fun block => lo ≤ block ∧ block ≤ hi) v w) :
    Safe P lo hi v w := by
  intro hv
  obtain ⟨hrest, hstorage, hmap⟩ := h
  have hcache : w.pageCache = v.pageCache := by rw [hrest]
  have hsame : PageCache.SamePages v.pageCache w.pageCache := by
    rw [hcache]
    exact fun _ => rfl
  refine ⟨?_, Carries.of_shows (by rw [hrest]) (by rw [hrest]) fun block data hlow hhigh hshows => ?_⟩
  · exact hv.of_samePages (hstorage.faults hv.faults) hstorage.size (by rw [hrest]) (by rw [hrest])
      (by rw [hcache]) hsame hmap
  · exact hshows.congr (hstorage.blocks block ⟨hlow, hhigh⟩) hsame

theorem returns_of_dataPhase {α : Type} {x : VolM α}
    (hx : Within (DataPhase fun block => lo ≤ block ∧ block ≤ hi) x) : Returns (Safe P lo hi) x :=
  fun v a w hrun => (hx.returns v a w hrun).safe

theorem safe_begun (v : Volume) : Safe P lo hi v v.begun := by
  intro hv
  have hsame : PageCache.SamePages v.pageCache v.begun.pageCache := fun _ => rfl
  refine ⟨hv.of_samePages hv.faults rfl rfl rfl rfl hsame fun m hm => ⟨m, hm, MapMoves.refl m⟩, ?_⟩
  exact Carries.of_shows rfl rfl fun block data _ _ hshows => hshows.congr rfl hsame

/-- **An update** of an inode of the table. -/
theorem returns_updateInodePage {f : List UInt8 → List UInt8} (hf : Dinode.IsEdit f)
    (hP : ∀ dinode, dinode.length = disize → P dinode → P (f dinode)) {b j : ℕ} (hb : b ≤ hi)
    (hj : j < inosPerPage) (ino : UInt32) :
    Returns (Safe P lo hi) (updateInodePage ino b (j * disize) f) := by
  intro v _ v' hrun hv
  have hshows := v.shows_loaded ino b
  have hlen := hv.length_of_shows hshows
  obtain ⟨cache, happly, hcache⟩ := hv.updateInodePage (lt_of_le_of_lt hb hv.inside) ino (j * disize) f
  cases hrun.symm.trans happly
  refine ⟨⟨hv.of_replaces (length_updateAt_slot hlen hj hf) hcache, ?_, fun key page hpeek => ?_,
    hv.inside, hv.log, hv.map, hv.pending⟩, ?_⟩
  · rw [hcache.cap]
    exact hv.room
  · by_cases hkey : key = (ino, b)
    · obtain ⟨page', hpeek', -, hkeyed⟩ := hcache.page
      rw [hkey] at hpeek ⊢
      rw [Option.some.inj (hpeek.symm.trans hpeek')]
      exact hkeyed fun old hold => hv.keyed _ old hold
    · rcases hcache.others _ hkey with hsame | hnone
      · exact hv.keyed key page (hsame.symm.trans hpeek)
      · exact absurd (hnone.symm.trans hpeek) (by simp)
  · exact hv.carries_replaces hj hf hshows (hP _ (length_slotOf hlen hj)) hcache

theorem returns_markPageDirty (ino : UInt32) (block : ℕ) :
    Returns (Safe P lo hi) (markPageDirty ino block) := by
  intro v _ v' hrun hv
  cases hactive : v.txMgr.active with
  | none =>
      unfold markPageDirty at hrun
      rw [bind_ok (get_apply v), hactive] at hrun
      cases hrun
  | some active =>
      obtain ⟨cache, happly, hcap, hsame, -⟩ := markPageDirty_apply hactive ino block
      cases hrun.symm.trans happly
      refine ⟨hv.of_samePages hv.faults rfl rfl rfl hcap hsame fun m hm => ⟨m, hm, MapMoves.refl m⟩, ?_⟩
      exact Carries.of_shows rfl rfl fun block data _ _ hshows => Shows.congr (v := v) (h := hshows) (by rfl) hsame

/-- **A commit** shows only what it found cached. -/
theorem Guarded.carries_commit {v v' : Volume} (h : v.Guarded lo hi) {active : ActiveTxn}
    (hactive : v.txMgr.active = some active) {result : CommitResult}
    (hcommit : commitTransaction v = .ok result v') : Carries P lo hi v v' := by
  obtain ⟨w, storage, hcommitted, rfl, -⟩ := of_commitTransaction_ok hactive hcommit
  obtain ⟨-, hait2, hagg, -⟩ := hcommitted.rest
  exact Carries.of_shows hait2 hagg fun block data hlow hhigh hshows =>
    h.toCalm.shows_of_commit hactive hcommit (h.plain hlow hhigh) hshows

theorem exists_active_of_commit {v v' : Volume} {result : CommitResult}
    (hcommit : commitTransaction v = .ok result v') : ∃ active, v.txMgr.active = some active := by
  cases hactive : v.txMgr.active with
  | some active => exact ⟨active, rfl⟩
  | none =>
      obtain ⟨_, w, hpages, -⟩ := of_bind_ok hcommit
      unfold commitPages at hpages
      rw [bind_ok (get_apply v), hactive] at hpages
      cases hpages

theorem samePages_abortPages {cache : PageCache} (keys : List (UInt32 × ℕ))
    (hkeyed : ∀ key page, cache.peek key = some page → page.block = key.2) :
    PageCache.SamePages cache (cache.abortPages keys) := by
  induction keys generalizing cache with
  | nil => exact fun _ => rfl
  | cons key rest ih =>
      have hfirst := PageCache.samePages_abortPage cache key.1 key.2
        fun page => hkeyed key page
      refine hfirst.trans (ih fun key' page hpeek => ?_)
      obtain ⟨old, hold, hblock, -⟩ := hfirst.of_peek hpeek
      rw [← hblock]
      exact hkeyed key' old hold

/-- **An abort** leaves the data of all pages in the cache. -/
theorem Guarded.shows_of_abort {v v' : Volume} (h : v.Guarded lo hi)
    (habort : abortTransaction v = .ok () v') : v'.ait2 = v.ait2 ∧ v'.aggSize = v.aggSize ∧
      ∀ block data, v'.Shows block data ↔ v.Shows block data := by
  obtain ⟨hrest, hsame⟩ : (v'.ait2 = v.ait2 ∧ v'.aggSize = v.aggSize ∧ v'.storage = v.storage) ∧
      PageCache.SamePages v.pageCache v'.pageCache := by
    unfold abortTransaction at habort
    rw [modify_apply] at habort
    cases hactive : v.txMgr.active with
    | none =>
        simp only [hactive] at habort
        cases habort
        exact ⟨⟨rfl, rfl, rfl⟩, fun _ => rfl⟩
    | some active =>
        simp only [hactive] at habort
        cases habort
        exact ⟨⟨rfl, rfl, rfl⟩, samePages_abortPages _ h.keyed⟩
  refine ⟨hrest.1, hrest.2.1, fun block data => ?_⟩
  have hblock : v'.storage.block block = v.storage.block block := by rw [hrest.2.2]
  exact ⟨fun hshows => hshows.congr hblock hsame, fun hshows => hshows.congr hblock.symm hsame.symm⟩

/-- **The parts of a transaction** that returned. -/
theorem of_transaction_ok {α : Type} {body : VolM (Exit α α)} {v v' : Volume} {a : α}
    (hrun : transaction body v = .ok a v') : ∃ exit w, body v.begun = .ok exit w ∧
      (exit = .commit a ∧ (∃ result, commitTransaction w = .ok result v') ∨
        exit = .abort (.ok a) ∧ abortTransaction w = .ok () v') := by
  obtain ⟨_, v₁, hbegin, hrun⟩ := of_bind_ok hrun
  have hidle : v.txMgr.active = none := by
    cases hactive : v.txMgr.active with
    | none => rfl
    | some active =>
        unfold beginTransaction at hbegin
        rw [bind_ok (get_apply v), hactive] at hbegin
        cases hbegin
  cases hbegin.symm.trans (beginTransaction_of_idle hidle)
  obtain ⟨exit, w, hexit, hend⟩ := of_bind_ok hrun
  refine ⟨exit, w, hexit, ?_⟩
  cases exit with
  | commit b =>
      obtain ⟨result, w', hcommit, hend⟩ := of_bind_ok hend
      cases hend
      exact Or.inl ⟨rfl, result, hcommit⟩
  | abort result =>
      obtain ⟨_, w', habort, hend⟩ := of_bind_ok hend
      obtain ⟨rfl, rfl⟩ := of_returnExcept_ok hend
      exact Or.inr ⟨rfl, habort⟩

/-- A call that calls `abort_transaction` returns what its body asks for. -/
theorem transaction_of_abort {α : Type} {v w : Volume} (hidle : v.txMgr.active = none) {body : VolM (Exit α α)}
    {result : Except StorageError α} (hbody : body v.begun = .ok (.abort result) w) :
    ∃ v', transaction body v = returnExcept result v' ∧ abortTransaction w = .ok () v' := by
  unfold transaction
  rw [bind_ok (beginTransaction_of_idle hidle), bind_ok hbody]
  exact ⟨_, rfl, rfl⟩

/-- **A transaction** carries over what its body does. -/
theorem Guarded.carries_transaction {α : Type} {v v' : Volume} (h : v.Guarded lo hi)
    {body : VolM (Exit α α)} (hbody : ∀ exit w, body v.begun = .ok exit w → Safe P lo hi v.begun w) {a : α}
    (hrun : transaction body v = .ok a v') : Carries P lo hi v v' := by
  obtain ⟨hbegun, hstart⟩ := safe_begun (P := P) v h
  obtain ⟨exit, w, hexit, hend⟩ := of_transaction_ok hrun
  obtain ⟨hw, hcarries⟩ := hbody exit w hexit hbegun
  refine (hstart.trans hcarries).trans ?_
  rcases hend with ⟨-, result, hcommit⟩ | ⟨-, habort⟩
  · obtain ⟨active, hactive⟩ := exists_active_of_commit hcommit
    exact hw.carries_commit hactive hcommit
  · obtain ⟨hait2, hagg, hshows⟩ := hw.shows_of_abort habort
    exact Carries.of_shows hait2 hagg fun block data _ _ => (hshows block data).mp

end Safe

end Volume

end JfsFuse
