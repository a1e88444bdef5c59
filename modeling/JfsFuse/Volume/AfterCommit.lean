import JfsFuse.Volume.TableSteps

/-!
# The volume after a commit

No call of a commit resizes the device or makes it fail later on, and the cache keeps its
capacity, so a commit of a guarded volume leaves a guarded volume.
-/

namespace JfsFuse

open ByteBuf Program

namespace Storage

/-- The device is the same kind of device of the same size, and it does not begin to fail. -/
structure Endures (s t : Storage) : Prop where
  faults : s.faults = [] → t.faults = []
  size : t.size = s.size
  backend : t.backend = s.backend

instance : IsPreorder Storage Endures where
  refl _ := ⟨id, rfl, rfl⟩
  trans _ _ _ h h' := ⟨h'.faults ∘ h.faults, h'.size.trans h.size, h'.backend.trans h.backend⟩

end Storage

namespace StorageM

open Storage

theorem endures_attempt : Within Endures attempt := by
  intro s
  unfold attempt
  split
  · exact refl_of Endures s
  · next heq => exact ⟨fun hs => absurd (hs.symm.trans heq) (by simp), rfl, rfl⟩
  · next heq => exact ⟨fun hs => absurd (hs.symm.trans heq) (by simp), rfl, rfl⟩

theorem endures_readBytes (offset n : ℕ) : Within Endures (readBytes offset n) :=
  Within.bind endures_attempt fun _ => Within.bind Within.get fun _ => Within.returnExcept _

theorem endures_flush (call : StorageCall) : Within Endures (flush call) :=
  Within.bind endures_attempt fun _ _ => ⟨id, rfl, rfl⟩

theorem endures_writeBytes (offset : ℕ) (data : List UInt8) : Within Endures (writeBytes offset data) := by
  refine Within.bind endures_attempt fun _ => Within.get_bind fun s => ?_
  cases s.writeRefused offset data.length with
  | some e => exact refl_of Endures s
  | none => exact ⟨id, rfl, rfl⟩

theorem endures_writeBlock (block : ℕ) (data : List UInt8) : Within Endures (writeBlock block data) := by
  refine Within.bind endures_attempt fun _ => Within.get_bind fun s => ?_
  cases s.writeBlockRefused block data with
  | some e => exact refl_of Endures s
  | none => exact ⟨id, rfl, rfl⟩

end StorageM

/-! ## The journal and the allocation map -/

namespace LogManager

open Storage

/-- The device endures. -/
def DeviceEndures (s t : LogState) : Prop :=
  Endures s.storage t.storage

instance : IsPreorder LogState DeviceEndures where
  refl s := refl_of Endures s.storage
  trans _ _ _ h h' := trans_of Endures h h'

theorem endures_onStorage {α : Type} {x : StorageM α} (hx : Within Endures x) :
    Within DeviceEndures (onStorage x) :=
  Within.zoom hx fun _ _ h => h

theorem endures_modifyManager (f : LogManager → LogManager) : Within DeviceEndures (modifyManager f) :=
  fun s => refl_of Endures s.storage

theorem endures_writePages (startPage i count : ℕ) :
    Within DeviceEndures (writePages startPage i count) := by
  induction count generalizing i with
  | zero => exact Within.pure ()
  | succ count ih =>
      refine Within.bind Within.get fun _ => Within.bind ?_ fun _ => ih (i + 1)
      exact Within.bind Within.get fun _ => endures_onStorage (StorageM.endures_writeBytes _ _)

theorem endures_flushJournal : Within DeviceEndures flushJournal := by
  have hbuffer : Within DeviceEndures writeBuffer :=
    Within.bind Within.get fun _ => Within.ite (endures_writePages _ _ _) (Within.pure ())
  have hsuper : ∀ superBlock, Within DeviceEndures (writeSuper superBlock) := fun _ =>
    Within.bind Within.get fun _ => endures_onStorage (StorageM.endures_writeBytes _ _)
  refine Within.bind hbuffer fun _ => ?_
  refine Within.bind (endures_onStorage (StorageM.endures_flush _)) fun _ => ?_
  refine Within.bind (endures_onStorage (StorageM.endures_flush _)) fun _ => ?_
  exact Within.bind (endures_modifyManager _) fun _ => Within.bind Within.get fun _ => hsuper _

theorem endures_makeRoom (recordTotal : ℕ) : Within DeviceEndures (makeRoom recordTotal) := by
  refine Within.bind Within.get fun _ => Within.ite ?_ (Within.pure ())
  exact Within.bind endures_flushJournal fun _ => endures_modifyManager _

theorem endures_copyToBuffer (off : ℕ) (bytes : List UInt8) :
    Within DeviceEndures (copyToBuffer off bytes) :=
  Within.bind Within.get fun _ => Within.ite (Within.throw _) (endures_modifyManager _)

theorem endures_appendLogRecord (txid block : ℕ) (data : List UInt8) :
    Within DeviceEndures (appendLogRecord txid block data) := by
  refine Within.bind (endures_makeRoom _) fun _ => Within.bind Within.get fun _ => ?_
  refine Within.bind (endures_copyToBuffer _ _) fun _ => Within.bind (endures_modifyManager _) fun _ => ?_
  exact Within.bind (endures_copyToBuffer _ _) fun _ => endures_modifyManager _

theorem endures_commitTransaction (txid : ℕ) : Within DeviceEndures (commitTransaction txid) := by
  refine Within.bind (endures_makeRoom _) fun _ => Within.bind Within.get fun _ => ?_
  refine Within.bind (endures_copyToBuffer _ _) fun _ => Within.bind (endures_modifyManager _) fun _ => ?_
  exact Within.bind endures_flushJournal fun _ => endures_modifyManager _

end LogManager

namespace BlockAllocMap

open Storage

theorem endures_commitPages (m : BlockAllocMap) (pages : List ℕ) : Within Endures (commitPages m pages) := by
  induction pages with
  | nil => exact Within.pure ()
  | cons page rest ih =>
      refine Within.bind Within.get fun _ => Within.ite ih ?_
      refine Within.bind (StorageM.endures_readBytes _ _) fun _ => ?_
      exact Within.bind (StorageM.endures_writeBlock _ _) fun _ => ih

theorem endures_commit (m : BlockAllocMap) : Within Endures m.commit := by
  refine Within.bind (m.endures_commitPages _) fun _ => ?_
  refine Within.bind (StorageM.endures_readBytes _ _) fun _ => ?_
  exact Within.bind (StorageM.endures_writeBlock _ _) fun _ => Within.pure _

end BlockAllocMap

/-! ## The commit -/

namespace Volume

open Storage

/-- The device endures, and the cache has the same capacity. -/
structure Endures (v w : Volume) : Prop where
  storage : Storage.Endures v.storage w.storage
  cap : w.pageCache.cap = v.pageCache.cap

instance : IsPreorder Volume Endures where
  refl v := ⟨refl_of Storage.Endures v.storage, rfl⟩
  trans _ _ _ h h' := ⟨trans_of Storage.Endures h.storage h'.storage, h'.cap.trans h.cap⟩

theorem endures_onStorage {α : Type} {x : StorageM α} (hx : Within Storage.Endures x) :
    Returns Endures (onStorage x) := by
  have hzoom : Within Endures (onStorage x) := Within.zoom hx fun _ _ h => ⟨h, rfl⟩
  exact hzoom.returns

theorem endures_onLog {x : LogM Unit} (hx : Within LogManager.DeviceEndures x) : Returns Endures (onLog x) := by
  intro v _ w hrun
  unfold onLog at hrun
  cases hlog : v.log with
  | none =>
      rw [hlog] at hrun
      cases hrun
      exact refl_of Endures v
  | some lm =>
      rw [hlog] at hrun
      have hdevice := hx ⟨lm, v.storage⟩
      simp only at hrun
      split at hrun
      · next s hok =>
          cases hrun
          rw [hok] at hdevice
          exact ⟨hdevice, rfl⟩
      · cases hrun

theorem endures_orAbortPages {α : Type} (keys : List (UInt32 × ℕ)) {x : VolM α} (hx : Returns Endures x) :
    Returns Endures (orAbortPages keys x) :=
  fun v a w hrun => hx v a w (of_orAbortPages_ok hrun)

theorem endures_getPage (inode : UInt32) (block : ℕ) : Returns Endures (getPage inode block) := by
  intro v page w hrun
  cases hrun
  exact ⟨refl_of Storage.Endures v.storage, Lru.cap_modify ..⟩

theorem endures_journalPages (txid : ℕ) (keys : List (UInt32 × ℕ)) :
    Returns Endures (journalPages txid keys) := by
  induction keys with
  | nil => exact Returns.pure ()
  | cons key rest ih =>
      refine Returns.bind (endures_getPage _ _) fun found => ?_
      cases found with
      | none => exact ih
      | some page =>
          exact Returns.bind (endures_onLog (LogManager.endures_appendLogRecord _ _ _)) fun _ => ih

theorem endures_writePages (keys : List (UInt32 × ℕ)) : Returns Endures (writePages keys) := by
  induction keys with
  | nil => exact Returns.pure 0
  | cons key rest ih =>
      refine Returns.bind (endures_getPage _ _) fun found => ?_
      cases found with
      | none => exact ih
      | some page =>
          refine Returns.bind (endures_onStorage (StorageM.endures_writeBlock _ _)) fun _ => ?_
          exact Returns.bind ih fun _ => Returns.pure _

theorem cap_releasePages (keys : List (UInt32 × ℕ)) (cache : PageCache) :
    (keys.foldl (fun cache page =>
      PageCache.release (cache.unpinPage page.1 page.2) page.1 page.2) cache).cap = cache.cap := by
  induction keys generalizing cache with
  | nil => rfl
  | cons key rest ih =>
      rw [List.foldl_cons, ih]
      exact Lru.cap_modify ..

theorem endures_writeBack (active : ActiveTxn) : Returns Endures (writeBack active) := by
  have hflush : ∀ call, Returns Endures (orAbortPages active.dirtyPages (onStorage (StorageM.flush call))) :=
    fun call => endures_orAbortPages _ (endures_onStorage (StorageM.endures_flush call))
  have hrest : Returns Endures (do
      let written ← orAbortPages active.dirtyPages (writePages active.dirtyPages)
      orAbortPages active.dirtyPages (onStorage StorageM.flushMetadata)
      return written : VolM ℕ) :=
    Returns.bind (endures_orAbortPages _ (endures_writePages _)) fun _ =>
      Returns.bind (hflush .flushMetadata) fun _ => Returns.pure _
  refine Returns.bind (hflush .flushData) fun _ => Returns.bind Within.get.returns fun _ => Returns.ite ?_ hrest
  refine Returns.bind (endures_orAbortPages _ ?_) fun _ => hrest
  exact Returns.bind (endures_journalPages _ _) fun _ =>
    endures_onLog (LogManager.endures_commitTransaction _)

/-- **A commit that returned** leaves the device and the room in the cache as they were. -/
theorem endures_commit : Returns Endures commitTransaction := by
  have hmodify : ∀ f, Returns Endures (modifyTxMgr f) := fun f v _ w hrun => by
    cases hrun
    exact ⟨refl_of Storage.Endures v.storage, rfl⟩
  have hrelease : ∀ keys, Returns Endures (releasePages keys) := fun keys v _ w hrun => by
    cases hrun
    exact ⟨refl_of Storage.Endures v.storage, cap_releasePages keys v.pageCache⟩
  have hpages : Returns Endures commitPages := by
    refine Returns.bind Within.get.returns fun v => ?_
    cases v.txMgr.active with
    | none => exact Returns.throw _
    | some active =>
        refine Returns.bind (hmodify _) fun _ => Returns.bind (endures_writeBack active) fun _ => ?_
        exact Returns.bind (hrelease _) fun _ => Returns.bind (hmodify _) fun _ => Returns.pure _
  have hmap : Returns Endures commitBmap := by
    refine Returns.bind Within.get.returns fun v => ?_
    cases v.bmap with
    | none => exact Returns.pure ()
    | some m =>
        refine Returns.bind (endures_onStorage m.endures_commit) fun _ v _ w hrun => ?_
        cases hrun
        exact ⟨refl_of Storage.Endures v.storage, rfl⟩
  exact Returns.bind hpages fun _ => Returns.bind hmap fun _ => Returns.pure _

/-- **A commit leaves a guarded volume guarded.** -/
theorem Guarded.of_commit {lo hi : ℕ} {v v' : Volume} (h : v.Guarded lo hi) {result : CommitResult}
    (hcommit : commitTransaction v = .ok result v') : v'.Guarded lo hi := by
  obtain ⟨active, hactive⟩ := exists_active_of_commit hcommit
  obtain ⟨hstorage, hcap⟩ := endures_commit v result v' hcommit
  obtain ⟨w, storage, hcommitted, rfl, -⟩ := of_commitTransaction_ok hactive hcommit
  obtain ⟨hbmap, -, hagg, -⟩ := hcommitted.rest
  have hpeek : ∀ key page, w.pageCache.peek key = some page → v.pageCache.peek key = some page := by
    intro key page hpage
    rw [hcommitted.pages key] at hpage
    split at hpage
    · cases hpage
    · exact hpage
  have hmoves : ∀ m', w.bmap.map flushedMap = some m' → ∃ m, v.bmap = some m ∧ m' = flushedMap m := by
    intro m' hm'
    rw [hbmap] at hm'
    obtain ⟨m, hm, rfl⟩ := Option.map_eq_some_iff.mp hm'
    exact ⟨m, hm, rfl⟩
  refine ⟨⟨hstorage.faults h.faults, ?_, fun key page hpage => h.pages key page (hpeek key page hpage)⟩, ?_,
    fun key page hpage => h.keyed key page (hpeek key page hpage), ?_, ?_, fun m' hm' => ?_,
    fun m' hm' page hpage => ?_⟩
  · show w.aggSize * blockSize ≤ storage.size
    rw [hagg, hstorage.size]
    exact h.size
  · show 2 ≤ w.pageCache.cap
    rw [show w.pageCache.cap = v.pageCache.cap from hcap]
    exact h.room
  · show hi < w.aggSize
    rw [hagg]
    exact h.inside
  · rw [show InLog { w with bmap := w.bmap.map flushedMap, storage } = v.InLog from inLog_congr hcommitted.log]
    exact h.log
  · obtain ⟨m, hm, rfl⟩ := hmoves m' hm'
    exact h.map m hm
  · obtain ⟨m, hm, rfl⟩ := hmoves m' hm'
    cases hpage

end Volume

end JfsFuse
