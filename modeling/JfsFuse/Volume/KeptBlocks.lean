import JfsFuse.Alloc.Rollback
import JfsFuse.Volume.Punch
import JfsFuse.Volume.UnionArea

/-!
# Blocks that calls leave alone

A block that is in use by a file is not free, is no page of the allocation map, and lies neither in
the journal nor in the inode table; no page is cached for it.  As long as nothing frees the block or
writes it as a block of a file, it keeps its content, and the next call finds it in the same
position: `Undisturbed` is the invariant, for any set of blocks, together with what holds of every
slot of the table.  Calls that fail are included, and so are commits that fail half way.
-/

namespace JfsFuse

open ByteBuf Program

namespace BlockAllocMap

theorem not_covers_nil (b : ℕ) : ¬ Covers [] b := by
  rintro ⟨e, he, -⟩
  cases he

/-- No block in `keep` is free or was taken since the last commit, and none is a page of the map. -/
structure Holds (keep : ℕ → Prop) (m : BlockAllocMap) : Prop where
  size : m.mapsize ≤ 2 ^ 40
  taken : ∀ a, keep a → m.freeMap a = false
  settled : ∀ a, keep a → ¬ Covers m.allocated a
  apart : ∀ page, page ≤ Volume.mapPages m ∨ page ∈ m.dirtyPages → ¬ keep (m.dmapStart + page)

section Holds

variable {keep : ℕ → Prop} {m m' : BlockAllocMap}

/-- The pages of the map are where they were. -/
theorem Holds.apart_of_moves (h : m.Holds keep) (hmoves : Volume.MapMoves m m') :
    ∀ page, page ≤ Volume.mapPages m' ∨ page ∈ m'.dirtyPages → ¬ keep (m'.dmapStart + page) := by
  intro page hpage
  have hpages : Volume.mapPages m' = Volume.mapPages m := by
    unfold Volume.mapPages
    rw [hmoves.mapsize]
  rw [hmoves.dmapStart]
  refine h.apart page ?_
  rcases hpage with hle | hmem
  · exact .inl (hpages ▸ hle)
  · exact (hmoves.pending page hmem).symm

/-- **An allocation** takes free blocks only. -/
theorem Holds.allocExtent (h : m.Holds keep) {nblocks hint : ℕ} {pxd : Pxd}
    (hrun : m.allocExtent nblocks hint = .ok (pxd, m')) : m'.Holds keep := by
  have hmoves := Volume.mapMoves_allocExtent hrun
  have hapart := h.apart_of_moves hmoves
  obtain ⟨start, -, -, hfree, -, rfl⟩ := allocExtent_ok hrun
  refine ⟨h.size, fun a ha => ?_, fun a ha hcovers => ?_, hapart⟩
  · show mark m.freeMap start nblocks false a = false
    unfold mark
    split
    · rfl
    · exact h.taken a ha
  · rcases covers_snoc.mp hcovers with hold | hin
    · exact h.settled a ha hold
    · have hle := Nat.mod_le nblocks (2 ^ 32)
      have htaken := hfree a hin.1 (by omega)
      rw [h.taken a ha] at htaken
      cases htaken

/-- **A block is freed** that is not to be kept. -/
theorem Holds.freeExtent (h : m.Holds keep) {pxd : Pxd} (hrun : m.freeExtent pxd = .ok m')
    (hout : ∀ a, pxd.address ≤ a → a < pxd.address + pxd.length → ¬ keep a) : m'.Holds keep := by
  have hapart := h.apart_of_moves (Volume.mapMoves_freeExtent hrun)
  obtain ⟨-, rfl⟩ := freeExtent_ok hrun
  refine ⟨h.size, fun a ha => ?_, h.settled, hapart⟩
  show mark m.freeMap pxd.address pxd.length true a = false
  unfold mark
  rw [if_neg fun hin => hout a hin.1 hin.2 ha]
  exact h.taken a ha

/-- **A rollback** frees only what was allocated since the last commit. -/
theorem Holds.rollback (h : m.Holds keep) : m.rollback.Holds keep := by
  refine ⟨h.size, fun a ha => ?_, fun a _ => not_covers_nil a, fun page hpage => ?_⟩
  · rw [freeMap_rollback, if_neg (h.settled a ha)]
    split
    · rfl
    · exact h.taken a ha
  · rcases hpage with hle | hmem
    · exact h.apart page (.inl hle)
    · cases hmem

theorem Holds.flushed (h : m.Holds keep) : (Volume.flushedMap m).Holds keep := by
  refine ⟨h.size, h.taken, fun a _ => not_covers_nil a, fun page hpage => ?_⟩
  rcases hpage with hle | hmem
  · exact h.apart page (.inl hle)
  · cases hmem

end Holds

end BlockAllocMap

namespace Volume

/-- There is an allocation map, and it has the blocks in `keep` in use. -/
def HoldsMap (keep : ℕ → Prop) (v : Volume) : Prop :=
  ∃ m, v.bmap = some m ∧ m.Holds keep

theorem HoldsMap.spared {keep : ℕ → Prop} {v : Volume} (h : v.HoldsMap keep) : Spared keep v := by
  obtain ⟨m, hm, hholds⟩ := h
  exact ⟨m, hm, hholds.size, hholds.taken⟩

/-- The blocks stay in use. -/
def KeepsMap (keep : ℕ → Prop) (v v' : Volume) : Prop :=
  v.HoldsMap keep → v'.HoldsMap keep

instance (keep : ℕ → Prop) : IsPreorder Volume (KeepsMap keep) where
  refl _ := id
  trans _ _ _ h h' := h' ∘ h

theorem keepsMap_of_eq {keep : ℕ → Prop} {v v' : Volume} (h : v'.bmap = v.bmap) : KeepsMap keep v v' := by
  unfold KeepsMap HoldsMap
  rw [h]
  exact id

theorem writeSteps_keepsMap (keep : ℕ → Prop) : WriteSteps (KeepsMap keep) where
  storage _ _ := keepsMap_of_eq rfl
  alloc v bmap nblocks hint pxd bmap' hbmap hrun := by
    rintro ⟨m, hm, hholds⟩
    cases hbmap.symm.trans hm
    exact ⟨bmap', rfl, hholds.allocExtent hrun⟩

/-- The extents are freed as far as the fields of a descriptor go. -/
theorem keepsMap_freeExtents {keep : ℕ → Prop} {extents : List (ℕ × ℕ)}
    (hout : ∀ e ∈ extents, ∀ a, e.1 % 2 ^ 40 ≤ a → a < e.1 % 2 ^ 40 + e.2 % 2 ^ 24 → ¬ keep a) :
    Within (KeepsMap keep) (freeExtents extents) := by
  rintro v ⟨m, hm, hholds⟩
  refine ⟨_, congrArg (Option.map _) hm, ?_⟩
  clear hm
  induction extents generalizing m with
  | nil => exact hholds
  | cons extent rest ih =>
      have hrest := ih fun e he => hout e (List.mem_cons_of_mem _ he)
      beta_reduce at hrest ⊢
      rw [List.foldl_cons]
      cases hfree : m.freeExtent ((Pxd.setLength {} extent.2).setAddress extent.1) with
      | error e => exact hrest m hholds
      | ok freed =>
          refine hrest freed (hholds.freeExtent hfree fun a hlow hhigh => ?_)
          rw [Pxd.address_setAddress] at hlow hhigh
          rw [Pxd.length_setAddress, Pxd.length_setLength] at hhigh
          exact hout extent (List.mem_cons_self ..) a hlow hhigh

/-- The blocks in `keep` hold `content` and are in use; nothing else of the volume lies there, and
`S` holds of every slot of the table, which is apart from them. -/
structure Undisturbed (keep : ℕ → Prop) (content : ℕ → List UInt8) (S : ℕ → ℕ → List UInt8 → Prop) (lo hi : ℕ)
    (v : Volume) : Prop where
  slots : v.SlotsHold S lo hi
  table : ∀ a, keep a → ¬ InTable lo hi a
  cached : ∀ key page, v.pageCache.peek key = some page → ¬ keep key.2
  journal : ∀ i, v.InLog i → ¬ keep (i / blockSize)
  map : v.HoldsMap fun a => keep a ∨ InTable lo hi a
  blocks : ∀ a, keep a → v.storage.block a = content a

/-- The step leaves the blocks alone. -/
def LeavesAlone (keep : ℕ → Prop) (content : ℕ → List UInt8) (S : ℕ → ℕ → List UInt8 → Prop) (lo hi : ℕ)
    (v v' : Volume) : Prop :=
  v.Undisturbed keep content S lo hi → v'.Undisturbed keep content S lo hi

instance (keep : ℕ → Prop) (content : ℕ → List UInt8) (S : ℕ → ℕ → List UInt8 → Prop) (lo hi : ℕ) :
    IsPreorder Volume (LeavesAlone keep content S lo hi) where
  refl _ := id
  trans _ _ _ h h' := h' ∘ h

section LeavesAlone

variable {keep : ℕ → Prop} {content : ℕ → List UInt8} {S : ℕ → ℕ → List UInt8 → Prop} {lo hi : ℕ} {v v' : Volume}

/-- A step after which nothing new is cached, and which leaves the journal in its place. -/
theorem Undisturbed.of_keeps (h : v.Undisturbed keep content S lo hi) (hslots : Keeps S lo hi v v')
    (hcached : ∀ key page, v'.pageCache.peek key = some page → ∃ old, v.pageCache.peek key = some old)
    (hlog : v'.log.map LogManager.logBase = v.log.map LogManager.logBase)
    (hmap : v'.HoldsMap fun a => keep a ∨ InTable lo hi a)
    (hblocks : ∀ a, keep a → v'.storage.block a = v.storage.block a) : v'.Undisturbed keep content S lo hi where
  slots := hslots h.slots
  table := h.table
  cached key page hpeek := by
    obtain ⟨old, hold⟩ := hcached key page hpeek
    exact h.cached key old hold
  journal := by
    rw [inLog_congr hlog]
    exact h.journal
  map := hmap
  blocks a ha := (hblocks a ha).trans (h.blocks a ha)

/-- A step that leaves all but the transaction and the handles alone. -/
theorem leavesAlone_of_eq (hait2 : v'.ait2 = v.ait2) (hagg : v'.aggSize = v.aggSize) (hlog : v'.log = v.log)
    (hdata : v'.storage.data = v.storage.data) (hcache : v'.pageCache = v.pageCache) (hmap : v'.bmap = v.bmap) :
    LeavesAlone keep content S lo hi v v' := by
  intro h
  refine h.of_keeps (keeps_of_eq hait2 hagg hlog hdata hcache hmap) (fun key page hpeek => ?_) (by rw [hlog]) ?_
    fun a _ => Storage.block_of_data hdata a
  · exact ⟨page, hcache ▸ hpeek⟩
  · unfold HoldsMap
    rw [hmap]
    exact h.map

theorem readSteps_leavesAlone : ReadSteps (LeavesAlone keep content S lo hi) where
  faults _ _ := leavesAlone_of_eq rfl rfl rfl rfl rfl rfl
  noted _ _ _ _ := leavesAlone_of_eq rfl rfl rfl rfl rfl rfl

theorem leavesAlone_begun (v : Volume) : LeavesAlone keep content S lo hi v v.begun :=
  leavesAlone_of_eq rfl rfl rfl rfl rfl rfl

theorem leavesAlone_samePages {cache : PageCache} (hcache : PageCache.SamePages v.pageCache cache) :
    LeavesAlone keep content S lo hi v { v with pageCache := cache } := by
  intro h
  refine h.of_keeps (keeps_samePages hcache) (fun key page hpeek => ?_) rfl h.map fun _ _ => rfl
  obtain ⟨old, hold, -⟩ := hcache.of_peek hpeek
  exact ⟨old, hold⟩

theorem leavesAlone_markPageDirty (ino : UInt32) (block : ℕ) : Within (LeavesAlone keep content S lo hi) (markPageDirty ino block) := by
  intro v
  cases hactive : v.txMgr.active with
  | none =>
      unfold markPageDirty
      rw [bind_ok (get_apply v), hactive]
      exact refl_of (LeavesAlone keep content S lo hi) v
  | some active =>
      obtain ⟨cache, hrun, -, hsame, -⟩ := markPageDirty_apply hactive ino block
      rw [hrun, final_ok]
      intro h
      exact leavesAlone_of_eq (v := { v with pageCache := cache }) rfl rfl rfl rfl rfl rfl (leavesAlone_samePages hsame h)

/-- **An update** of a slot of the table. -/
theorem leavesAlone_updateInodePage {b offset : ℕ} {f : List UInt8 → List UInt8} (hat : SlotAt lo hi b offset)
    (ino : UInt32) (hf : Admits S v ino b offset f) :
    LeavesAlone keep content S lo hi v (final (updateInodePage ino b offset f v)) := by
  intro h
  have hslots := keeps_updateInodePage hat ino hf h.slots
  obtain ⟨data, faults, cache, hrun, -, hreplaces⟩ := exists_updateInodePage v ino b offset f
  rw [hrun, final_ok] at hslots ⊢
  refine ⟨hslots, h.table, fun key page hpeek => ?_, h.journal, h.map, h.blocks⟩
  by_cases hkey : key = (ino, b)
  · rw [hkey]
    exact fun hkeep => h.table b hkeep hat.block
  · rcases hreplaces.others key hkey with hsame | hnone
    · exact h.cached key page (hsame.symm.trans hpeek)
    · cases hnone.symm.trans hpeek

/-- **A data phase** that has other blocks to write. -/
theorem leavesAlone_dataPhase (hphase : DataPhase (fun a => keep a ∨ InTable lo hi a) v v')
    (hmap : KeepsMap (fun a => keep a ∨ InTable lo hi a) v v') : LeavesAlone keep content S lo hi v v' := by
  intro h
  obtain ⟨m, hm, hholds⟩ := h.map
  have hapart : MapApart lo hi v := fun m' hm' page hpage htable => by
    cases hm.symm.trans hm'
    exact hholds.apart page hpage (.inr htable)
  have hrest := hphase.rest
  refine h.of_keeps (keeps_dataPhase hapart (hphase.mono fun a => Or.inr)) (fun key page hpeek => ?_) (by rw [hrest])
    (hmap h.map) fun a ha => hphase.storage.blocks a (.inl ha)
  rw [hrest] at hpeek
  exact ⟨page, hpeek⟩

/-- The extents of another file are freed. -/
theorem leavesAlone_freeExtents {extents : List (ℕ × ℕ)}
    (hout : ∀ e ∈ extents, ∀ a, e.1 % 2 ^ 40 ≤ a → a < e.1 % 2 ^ 40 + e.2 % 2 ^ 24 → ¬ (keep a ∨ InTable lo hi a)) :
    Within (LeavesAlone keep content S lo hi) (freeExtents extents) :=
  fun v => leavesAlone_dataPhase (dataPhase_freeExtents _ extents v) (keepsMap_freeExtents hout v)

/-! ## The end of a call -/

theorem leavesAlone_journaled (h : Journaled v v') : LeavesAlone keep content S lo hi v v' := by
  intro hv
  have hslots : Keeps S lo hi v v' := keeps_journaled h
  obtain ⟨log, cache, storage, rfl, hbase, hpeek, hchanges⟩ := h
  refine hv.of_keeps hslots (fun key page hpage => ⟨page, (hpeek key).symm.trans hpage⟩) hbase hv.map fun a ha => ?_
  refine Storage.ChangesOnly.block hchanges fun i hlow hhigh hlog => hv.journal i hlog ?_
  rwa [BlockAllocMap.block_of_within hlow hhigh]

theorem leavesAlone_of_journaled {α : Type} {x : VolM α} (hx : Within Journaled x) :
    Within (LeavesAlone keep content S lo hi) x :=
  fun v => leavesAlone_journaled (hx v)

theorem leavesAlone_flush (call : StorageCall) :
    Within (LeavesAlone keep content S lo hi) (onStorage (StorageM.flush call)) :=
  leavesAlone_of_journaled (journaled_flush call)

/-- What is cached is written elsewhere. -/
theorem leavesAlone_writeBlock {ino : UInt32} {block : ℕ} {page : CachedPage}
    (hpeek : v.pageCache.peek (ino, block) = some page) :
    LeavesAlone keep content S lo hi v (final (onStorage (StorageM.writeBlock block page.data) v)) := by
  intro h
  have hslots : Keeps S lo hi v (final (onStorage (StorageM.writeBlock block page.data) v)) := keeps_writeBlock hpeek
  have hlen : page.data.length ≤ blockSize := by
    rcases h.slots.pages _ page hpeek with hwhole | hnil
    · exact hwhole.le
    · rw [hnil]
      exact Nat.zero_le _
  have hstorage := storageKeeps_writeBlock (h.cached _ page hpeek) hlen v.storage
  unfold onStorage at hslots ⊢
  rw [final_zoom] at hslots ⊢
  exact h.of_keeps hslots (fun key page hpage => ⟨page, hpage⟩) rfl h.map hstorage.blocks

theorem leavesAlone_writePages (keys : List (UInt32 × ℕ)) :
    Within (LeavesAlone keep content S lo hi) (writePages keys) := by
  induction keys with
  | nil => exact Within.pure 0
  | cons key rest ih =>
      obtain ⟨ino, block⟩ := key
      refine Within.bind_of_ok (leavesAlone_of_journaled (journaled_getPage _ _)) fun v found w hrun => ?_
      have hpeek : w.pageCache.peek (ino, block) = found := by
        cases hrun
        exact v.pageCache.peek_get _ _
      cases found with
      | none => exact ih w
      | some page =>
          refine Within.bind_at (leavesAlone_writeBlock hpeek) fun _ w' _ => ?_
          exact Within.bind ih (fun _ => Within.pure _) w'

theorem leavesAlone_orAbortPages {α : Type} (keys : List (UInt32 × ℕ)) {x : VolM α}
    (hx : Within (LeavesAlone keep content S lo hi) x) :
    Within (LeavesAlone keep content S lo hi) (orAbortPages keys x) := by
  refine Within.tryCatch hx fun _ => Within.bind (fun v h => ?_) fun _ => Within.throw _
  exact leavesAlone_samePages (samePages_abortPages keys h.slots.filed) h

theorem leavesAlone_writeBack (active : ActiveTxn) : Within (LeavesAlone keep content S lo hi) (writeBack active) := by
  have hrest : Within (LeavesAlone keep content S lo hi) (do
      let written ← orAbortPages active.dirtyPages (writePages active.dirtyPages)
      orAbortPages active.dirtyPages (onStorage StorageM.flushMetadata)
      return written : VolM ℕ) :=
    Within.bind (leavesAlone_orAbortPages _ (leavesAlone_writePages _)) fun _ =>
      Within.bind (leavesAlone_orAbortPages _ (leavesAlone_flush _)) fun _ => Within.pure _
  refine Within.bind (leavesAlone_orAbortPages _ (leavesAlone_flush _)) fun _ => Within.bind Within.get fun v =>
    Within.ite ?_ hrest
  refine Within.bind (leavesAlone_orAbortPages _ (leavesAlone_of_journaled ?_)) fun _ => hrest
  exact Within.bind (journaled_journalPages _ _) fun _ =>
    journaled_onLog fun _ => LogManager.staysAbove_commitTransaction _

theorem leavesAlone_releasePages (keys : List (UInt32 × ℕ)) :
    Within (LeavesAlone keep content S lo hi) (releasePages keys) := by
  intro v h
  refine h.of_keeps (keeps_releasePages keys v) (fun key page hpage => ?_) rfl h.map fun _ _ => rfl
  have hkey := (peek_releasePages keys v.pageCache key).symm.trans hpage
  split at hkey
  · cases hkey
  · exact ⟨page, hkey⟩

theorem leavesAlone_modifyTxMgr (f : TransactionManager → TransactionManager) :
    Within (LeavesAlone keep content S lo hi) (modifyTxMgr f) :=
  fun _ => leavesAlone_of_eq rfl rfl rfl rfl rfl rfl

theorem leavesAlone_commitPages : Within (LeavesAlone keep content S lo hi) commitPages := by
  refine Within.bind Within.get fun v => ?_
  cases v.txMgr.active with
  | none => exact Within.throw _
  | some active =>
      refine Within.bind (leavesAlone_modifyTxMgr _) fun _ => Within.bind (leavesAlone_writeBack _) fun _ => ?_
      refine Within.bind (leavesAlone_releasePages _) fun _ => Within.bind (leavesAlone_modifyTxMgr _) fun _ => ?_
      exact Within.pure _

theorem leavesAlone_commitBmap : Within (LeavesAlone keep content S lo hi) commitBmap := by
  intro v h
  have hslots : Keeps S lo hi v (final (commitBmap v)) := keeps_commitBmap v
  obtain ⟨m, hm, hholds⟩ := h.map
  have hwrites : ∀ a, keep a → (final (m.commit v.storage)).block a = v.storage.block a := by
    refine fun a ha => (m.changesOnly_commit v.storage).block fun i hlow hhigh htouch => ?_
    rw [BlockAllocMap.Touches, BlockAllocMap.block_of_within hlow hhigh] at htouch
    rcases htouch with rfl | ⟨page, hpage, rfl⟩
    · exact hholds.apart 0 (.inl (Nat.zero_le _)) (.inl ha)
    · exact hholds.apart page (.inr hpage) (.inl ha)
  unfold commitBmap at hslots ⊢
  rw [bind_ok (get_apply v), hm] at hslots ⊢
  simp only at hslots ⊢
  cases hcommit : m.commit v.storage with
  | error e s =>
      have hrun : onStorage m.commit v = .error e { v with storage := s } := zoom_error hcommit
      rw [hcommit] at hwrites
      rw [bind_error hrun] at hslots ⊢
      exact h.of_keeps hslots (fun key page hpage => ⟨page, hpage⟩) rfl h.map hwrites
  | ok m' s =>
      have hrun : onStorage m.commit v = .ok m' { v with storage := s } := zoom_ok hcommit
      have hflushed : m' = flushedMap m := by
        obtain ⟨_, _, -, hend⟩ := of_bind_ok hcommit
        obtain ⟨_, _, -, hend⟩ := of_bind_ok hend
        obtain ⟨_, _, -, hend⟩ := of_bind_ok hend
        cases hend
        rfl
      rw [hcommit] at hwrites
      rw [bind_ok hrun, hflushed] at hslots ⊢
      exact h.of_keeps hslots (fun key page hpage => ⟨page, hpage⟩) rfl ⟨_, rfl, hholds.flushed⟩ hwrites

theorem leavesAlone_commitTransaction : Within (LeavesAlone keep content S lo hi) commitTransaction :=
  Within.bind leavesAlone_commitPages fun _ => Within.bind leavesAlone_commitBmap fun _ => Within.pure _

theorem leavesAlone_abortTransaction : Within (LeavesAlone keep content S lo hi) abortTransaction := by
  intro v h
  have hslots : Keeps S lo hi v (final (abortTransaction v)) := keeps_abortTransaction v
  obtain ⟨m, hm, hholds⟩ := h.map
  have hmap : HoldsMap (fun a => keep a ∨ InTable lo hi a) { v with bmap := v.bmap.map BlockAllocMap.rollback } :=
    ⟨m.rollback, congrArg (Option.map BlockAllocMap.rollback) hm, hholds.rollback⟩
  unfold abortTransaction at hslots ⊢
  rw [modify_apply] at hslots ⊢
  dsimp only [final_ok] at hslots ⊢
  split at hslots
  · exact h.of_keeps hslots (fun key page hpage => ⟨page, hpage⟩) rfl hmap fun _ _ => rfl
  · next active _ =>
      have hsame := samePages_abortPages active.dirtyPages h.slots.filed
      refine h.of_keeps hslots (fun key page hpage => ?_) rfl hmap fun _ _ => rfl
      obtain ⟨old, hold, -⟩ := hsame.of_peek hpage
      exact ⟨old, hold⟩

/-- A call begins, runs its body and ends. -/
theorem leavesAlone_call {α β : Type} {body : VolM α} {close : α → VolM β}
    (hbody : LeavesAlone keep content S lo hi v.begun (final (body v.begun)))
    (hclose : ∀ a, Within (LeavesAlone keep content S lo hi) (close a)) :
    LeavesAlone keep content S lo hi v (final ((do
      let _ ← beginTransaction
      let a ← body
      close a : VolM β) v)) := by
  cases hactive : v.txMgr.active with
  | some active =>
      have hbegin : beginTransaction v = .error (.other "transaction already in progress") v := by
        unfold beginTransaction
        rw [bind_ok (get_apply v), hactive]
        rfl
      rw [bind_error hbegin]
      exact id
  | none =>
      rw [bind_ok (beginTransaction_of_idle hactive)]
      exact Within.bind_from (trans_of (LeavesAlone keep content S lo hi) (leavesAlone_begun v) hbody) hclose

/-- **A transaction** leaves the blocks alone if its body does. -/
theorem leavesAlone_transaction {α : Type} {body : VolM (Exit α α)}
    (hbody : LeavesAlone keep content S lo hi v.begun (final (body v.begun))) :
    LeavesAlone keep content S lo hi v (final (transaction body v)) := by
  refine leavesAlone_call hbody fun exit => ?_
  cases exit with
  | commit a => exact Within.bind leavesAlone_commitTransaction fun _ => Within.pure _
  | abort result => exact Within.bind leavesAlone_abortTransaction fun _ => Within.returnExcept _

/-- A write, which aborts once more after a failed commit. -/
theorem leavesAlone_writeAtWithInterrupt {ino : UInt32} {offset : ℕ} {data : List UInt8} {token : List Bool}
    (hbody : LeavesAlone keep content S lo hi v.begun (final (writeAtBody ino offset data token v.begun))) :
    LeavesAlone keep content S lo hi v (final (writeAtWithInterrupt ino offset data token v)) := by
  refine leavesAlone_call hbody fun exit => ?_
  cases exit with
  | commit written =>
      refine Within.bind (Within.tryCatch ?_ fun e => ?_) fun _ => Within.pure _
      · exact Within.bind leavesAlone_commitTransaction fun _ => Within.pure _
      · exact Within.bind leavesAlone_abortTransaction fun _ => Within.throw _
  | abort result => exact Within.bind leavesAlone_abortTransaction fun _ => Within.returnExcept _

end LeavesAlone

end Volume

end JfsFuse
