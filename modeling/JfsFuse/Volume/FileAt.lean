import JfsFuse.Volume.InodeAt

/-!
# A file and its inode

`FileAt` says where the inode of a file lies and what it holds, on a guarded volume where no
other inode has a copy of its block.  The steps of a call keep the place, and an update changes
what the inode holds; behind a commit the inode is read as the last update left it.
-/

namespace JfsFuse

open ByteBuf Program

namespace Volume

/-- The inode of a file is `d`, in slot `j` of block `b`, and no other inode has a copy of the
block. -/
structure FileAt (lo hi : ℕ) (v : Volume) (ino : UInt32) (b j : ℕ) (d : List UInt8) : Prop where
  guarded : v.Guarded lo hi
  low : lo ≤ v.ait2.address
  high : b ≤ hi
  placed : v.Placed ino b j
  alone : ∀ i, i ≠ ino → v.pageCache.peek (i, b) = none
  inode : slotOf (v.own ino b) j = d

/-- The inode table, the journal and the allocation map are where they were. -/
structure StaysPut (v w : Volume) : Prop where
  ait2 : w.ait2 = v.ait2
  aggSize : w.aggSize = v.aggSize
  log : w.log.map LogManager.logBase = v.log.map LogManager.logBase
  map : ∀ m', w.bmap = some m' → ∃ m, v.bmap = some m ∧ MapMoves m m'

instance : IsPreorder Volume StaysPut where
  refl _ := ⟨rfl, rfl, rfl, fun m hm => ⟨m, hm, MapMoves.refl m⟩⟩
  trans _ _ _ h h' := by
    refine ⟨h'.ait2.trans h.ait2, h'.aggSize.trans h.aggSize, h'.log.trans h.log, fun m'' hm'' => ?_⟩
    obtain ⟨m', hm', hmoves'⟩ := h'.map m'' hm''
    obtain ⟨m, hm, hmoves⟩ := h.map m' hm'
    exact ⟨m, hm, hmoves.trans hmoves'⟩

theorem PagesOnly.staysPut {v w : Volume} (h : PagesOnly v w) : StaysPut v w := by
  rw [h]
  exact ⟨rfl, rfl, rfl, fun m hm => ⟨m, hm, MapMoves.refl m⟩⟩

theorem DataPhase.staysPut {keep : ℕ → Prop} {v w : Volume} (h : DataPhase keep v w) : StaysPut v w := by
  obtain ⟨hrest, -, hmap⟩ := h
  refine ⟨?_, ?_, ?_, hmap⟩ <;> rw [hrest]

/-- The block is in none of the inode table, the journal and the allocation map. -/
structure Apart (lo hi : ℕ) (v : Volume) (a : ℕ) : Prop where
  table : ¬ (lo ≤ a ∧ a ≤ hi)
  log : ∀ i, v.InLog i → i / blockSize ≠ a
  map : ∀ m, v.bmap = some m → ∀ page ≤ mapPages m, m.dmapStart + page ≠ a

theorem Apart.of_staysPut {lo hi : ℕ} {v w : Volume} {a : ℕ} (h : Apart lo hi v a) (hput : StaysPut v w) :
    Apart lo hi w a := by
  refine ⟨h.table, ?_, fun m' hm' page hpage => ?_⟩
  · rw [inLog_congr hput.log]
    exact h.log
  · obtain ⟨m, hm, hmoves⟩ := hput.map m' hm'
    rw [hmoves.dmapStart]
    unfold mapPages at hpage
    rw [hmoves.mapsize] at hpage
    exact h.map m hm page hpage

theorem Guarded.plain_of_apart {lo hi : ℕ} {v : Volume} (h : v.Guarded lo hi) {a : ℕ} (ha : Apart lo hi v a) :
    v.IsPlain a := by
  intro i hi
  refine ⟨fun hlog => ha.log i hlog hi, ?_⟩
  rintro ⟨m, hm, hdesc | ⟨page, hpage, hblock⟩⟩
  · exact ha.map m hm 0 (Nat.zero_le _) (by omega)
  · exact ha.map m hm page (h.pending m hm page hpage) (by omega)

namespace FileAt

variable {lo hi : ℕ} {v w : Volume} {ino : UInt32} {b j : ℕ} {d : List UInt8} (h : FileAt lo hi v ino b j d)

include h

theorem inodeAt : InodeAt lo hi v ino b j d :=
  ⟨h.guarded, h.low, h.high, h.placed, h.inode⟩

theorem block_lt : b < v.aggSize :=
  h.inodeAt.block_lt

theorem lo_le : lo ≤ b :=
  h.inodeAt.lo_le

theorem length : d.length = disize :=
  h.inodeAt.length

/-- **The inode is read.** -/
theorem readInode : readInode ino v = .ok { dinode := d, ino, pageBlock := b, pageOffset := j * disize } v :=
  h.inodeAt.readInode

theorem of_readInode {inode : Inode} (hread : Volume.readInode ino v = .ok inode w) :
    inode = { dinode := d, ino, pageBlock := b, pageOffset := j * disize } ∧ w = v := by
  cases hread.symm.trans h.readInode
  exact ⟨rfl, rfl⟩

theorem begun : FileAt lo hi v.begun ino b j d := by
  obtain ⟨hbegun, hcarries⟩ := safe_begun (P := fun _ => True) v h.guarded
  exact ⟨hbegun, h.low, h.high, hcarries.placed h.low h.high h.placed, h.alone, h.inode⟩

/-- **A data phase** keeps the inode. -/
theorem dataPhase (hphase : DataPhase (fun block => lo ≤ block ∧ block ≤ hi) v w) :
    FileAt lo hi w ino b j d := by
  obtain ⟨hw, hcarries⟩ := hphase.safe (P := fun _ => True) h.guarded
  have hcache : w.pageCache = v.pageCache := by rw [hphase.rest]
  have hown : w.own ino b = v.own ino b := by
    unfold own
    rw [hcache, hphase.storage.blocks b ⟨h.lo_le, h.high⟩]
  refine ⟨hw, ?_, h.high, hcarries.placed h.low h.high h.placed, ?_, ?_⟩
  · rw [hcarries.ait2]
    exact h.low
  · rw [hcache]
    exact h.alone
  · rw [hown]
    exact h.inode

/-- **An update** changes what the inode holds. -/
theorem update {f : List UInt8 → List UInt8} (hf : Dinode.IsEdit f)
    (hrun : updateInodePage ino b (j * disize) f v = .ok () w) :
    FileAt lo hi w ino b j (f d) ∧ PagesOnly v w ∧ w.txMgr = v.txMgr := by
  obtain ⟨hw, hcarries⟩ := Returns.of_run hrun (returns_updateInodePage (P := fun _ => True) hf
    (fun _ _ _ => trivial) h.high h.placed.slot ino) h.guarded
  obtain ⟨cache, happly, hreplaces⟩ := h.guarded.toCalm.updateInodePage h.block_lt ino (j * disize) f
  cases hrun.symm.trans happly
  obtain ⟨page, hpage, hdata, -⟩ := hreplaces.page
  refine ⟨⟨hw, h.low, h.high, hcarries.placed h.low h.high h.placed, fun i hne => ?_, ?_⟩, rfl, rfl⟩
  · rcases hreplaces.others (i, b) fun heq => hne (congrArg Prod.fst heq) with hsame | hnone
    · exact hsame.trans (h.alone i hne)
    · exact hnone
  · have hlen := h.guarded.length_of_shows (v.shows_own ino b)
    have hown : own { v with pageCache := cache } ino b = updateAt (j * disize) f (v.own ino b) := by
      rw [loaded_eq_own h.alone] at hdata
      unfold own at hdata ⊢
      rw [hpage, Option.map_some, Option.getD_some, hdata]
    rw [hown, slotOf_updateAt hlen h.placed.slot hf, if_pos rfl, h.inode]

/-- **A mark** keeps the inode. -/
theorem mark (hdirty : v.DirtyOnly ino b) (hrun : markPageDirty ino b v = .ok () w) :
    FileAt lo hi w ino b j d ∧ PagesOnly v w ∧ w.DirtyOnly ino b := by
  obtain ⟨hw, hcarries⟩ := Returns.of_run hrun (returns_markPageDirty (P := fun _ => True) ino b) h.guarded
  cases hactive : v.txMgr.active with
  | none =>
      unfold markPageDirty at hrun
      rw [bind_ok (get_apply v), hactive] at hrun
      cases hrun
  | some active =>
      obtain ⟨cache, happly, -, hsame, -⟩ := markPageDirty_apply hactive ino b
      cases hrun.symm.trans happly
      have hpeek : ∀ i, (cache.peek (i, b)).map CachedPage.data = (v.pageCache.peek (i, b)).map CachedPage.data := by
        intro i
        have hpair := congrArg (Option.map Prod.snd) (hsame (i, b))
        rwa [Option.map_map, Option.map_map] at hpair
      refine ⟨⟨hw, h.low, h.high, hcarries.placed h.low h.high h.placed, fun i hne => ?_, ?_⟩, rfl, ?_⟩
      · have hnone := hpeek i
        rw [h.alone i hne, Option.map_none] at hnone
        exact Option.map_eq_none_iff.mp hnone
      · rw [← h.inode]
        unfold own
        rw [hpeek ino]
      · intro active' hactive' key hkey
        cases hactive'
        unfold marked at hkey
        split at hkey
        · exact hdirty active hactive key hkey
        · rcases List.mem_append.mp hkey with hold | hnew
          · exact hdirty active hactive key hold
          · exact List.mem_singleton.mp hnew

/-- **A commit** leaves the inode where it is, and writes no other block but those of the journal
and of the allocation map. -/
theorem commit (hdirty : v.DirtyOnly ino b) {result : CommitResult}
    (hcommit : commitTransaction v = .ok result w) :
    FileAt lo hi w ino b j d ∧ StaysPut v w ∧
      ∀ a, Apart lo hi v a → w.storage.block a = v.storage.block a := by
  obtain ⟨active, hactive⟩ := exists_active_of_commit hcommit
  have hlength := h.guarded.toCalm.length_cachedPages active.dirtyPages
  have hkeys := hdirty active hactive
  obtain ⟨hait2, -, -⟩ := h.guarded.carries_commit (P := fun _ => True) hactive hcommit
  have hcarries := h.guarded.carries_commit (P := fun _ => True) hactive hcommit
  obtain ⟨hpeek, hput⟩ : (∀ key, w.pageCache.peek key =
      if key ∈ active.dirtyPages then none else v.pageCache.peek key) ∧ StaysPut v w := by
    obtain ⟨w', storage, hcommitted, rfl, -⟩ := of_commitTransaction_ok hactive hcommit
    obtain ⟨hbmap, hait2', hagg, -⟩ := hcommitted.rest
    refine ⟨hcommitted.pages, hait2', hagg, hcommitted.log, fun m' hm' => ?_⟩
    rw [hbmap] at hm'
    obtain ⟨m, hm, rfl⟩ := Option.map_eq_some_iff.mp hm'
    exact ⟨m, hm, rfl, rfl, fun _ hpage => absurd hpage List.not_mem_nil⟩
  refine ⟨⟨h.guarded.of_commit hcommit, hait2.symm ▸ h.low, h.high, hcarries.placed h.low h.high h.placed,
    fun i hne => ?_, ?_⟩, hput, fun a ha => ?_⟩
  · rw [hpeek, h.alone i hne, ite_self]
  · have hblock := block_of_commit hactive hcommit (h.guarded.plain h.lo_le h.high) hlength
    rw [own_of_commit hkeys (hpeek (ino, b)) hblock]
    exact h.inode
  · rw [block_of_commit hactive hcommit (h.guarded.plain_of_apart ha) hlength]
    cases hlast : lastPage (cachedPages v.pageCache active.dirtyPages) a with
    | none => rw [Option.getD_none]
    | some data =>
        obtain ⟨i, page, hkey, -⟩ := of_mem_cachedPages (mem_of_lastPage hlast)
        have hself : a = b := congrArg Prod.snd (hkeys _ hkey)
        exact absurd ⟨hself ▸ h.lo_le, hself ▸ h.high⟩ ha.table

omit h in
/-- **A transaction** whose body commits and brings the inode to `d'`. -/
theorem transaction {α : Type} {body : VolM (Exit α α)} {a : α} (hrun : Volume.transaction body v = .ok a w)
    {d' : List UInt8} {Q : Volume → Prop}
    (hbody : ∀ exit u, body v.begun = .ok exit u → (∃ a', exit = .commit a') ∧ FileAt lo hi u ino b j d' ∧
      StaysPut v.begun u ∧ u.DirtyOnly ino b ∧ Q u) :
    FileAt lo hi w ino b j d' ∧ StaysPut v w ∧
      ∃ u, Q u ∧ ∀ a, Apart lo hi v a → w.storage.block a = u.storage.block a := by
  obtain ⟨exit, u, hexit, hend⟩ := of_transaction_ok hrun
  obtain ⟨⟨a', rfl⟩, hu, hput, hdirty, hQ⟩ := hbody exit u hexit
  rcases hend with ⟨-, result, hcommit⟩ | ⟨habort, -⟩
  · obtain ⟨hw, hput', hblocks⟩ := hu.commit hdirty hcommit
    have hbegun : StaysPut v v.begun := ⟨rfl, rfl, rfl, fun m hm => ⟨m, hm, MapMoves.refl m⟩⟩
    have hstays := trans_of StaysPut hbegun hput
    exact ⟨hw, trans_of StaysPut hstays hput', u, hQ, fun a ha => hblocks a (ha.of_staysPut hstays)⟩
  · cases habort

end FileAt

end Volume

end JfsFuse
