import JfsFuse.Volume.File
import JfsFuse.Volume.Xattr

/-!
# What the body of an operation does to a volume

Between its begin and its end an operation only reads and writes the storage and the page
cache, adds to the lists of the open transaction, and calls the allocator.  `Steps` says
this once, as the relations that hold for each of these steps, and the rest of the file says
that the body of every operation is made of them.
-/

namespace JfsFuse

open Program

namespace Volume

/-- The steps that a search in the inode table is made of are in `R`: a read uses up a decision
of the device, and an allocation is noted in the transaction. -/
structure ReadSteps (R : Volume → Volume → Prop) : Prop where
  faults : ∀ v faults, R v { v with storage := { v.storage with faults } }
  noted : ∀ v active allocated, v.txMgr.active = some active →
    R v { v with txMgr := { v.txMgr with active := some { active with allocated } } }

namespace ReadSteps

variable {R : Volume → Volume → Prop} (h : ReadSteps R)

include h

theorem readBlock (block : ℕ) : Within R (onStorage (StorageM.readBlock block)) := by
  intro v
  unfold onStorage
  rw [final_zoom]
  obtain ⟨faults, hfinal⟩ := StorageM.final_readBytes (block * blockSize) blockSize v.storage
  rw [StorageM.readBlock, hfinal]
  exact h.faults v faults

variable [IsPreorder Volume R]

theorem tablePage (block : ℕ) : Within R (tablePage block) := by
  refine Within.bind Within.get fun v => ?_
  split
  · exact Within.pure _
  · exact h.readBlock _

theorem findInodeFrom (fileset number block count : ℕ) :
    Within R (findInodeFrom fileset number block count) := by
  induction count generalizing block with
  | zero => exact Within.pure _
  | succ count ih =>
      refine Within.bind Within.get fun v => Within.ite (ih _) ?_
      refine Within.bind (h.tablePage block) fun data => ?_
      refine Within.bind (Within.returnExcept _) fun found => ?_
      split
      · exact Within.pure _
      · exact ih _

theorem findInodePage (ino : UInt32) : Within R (findInodePage ino) := by
  refine Within.bind Within.get fun v => ?_
  refine Within.bind (h.findInodeFrom _ _ _ _) fun place => ?_
  split
  · exact Within.pure _
  · exact Within.throw _

theorem readInode (ino : UInt32) : Within R (readInode ino) := by
  refine Within.bind (h.findInodePage ino) fun place => ?_
  obtain ⟨block, offset⟩ := place
  refine Within.bind Within.get fun v => ?_
  have hrest : ∀ data, Within R (do
      let dinode ← returnExcept (sliceOrPanic data offset disize)
      return ({ dinode, ino, pageBlock := block, pageOffset := offset } : Inode)) :=
    fun data => Within.bind (Within.returnExcept _) fun dinode => Within.pure _
  split
  · exact Within.bind (Within.pure _) hrest
  · exact Within.bind (h.readBlock _) hrest

theorem recordAllocation (block : ℕ) : Within R (recordAllocation block) := by
  refine Within.get_bind fun v => ?_
  cases hactive : v.txMgr.active with
  | none => exact refl_of R v
  | some active => exact h.noted v active _ hactive

theorem allocateFrom (tableStart blockOffset count : ℕ) :
    Within R (allocateFrom tableStart blockOffset count) := by
  induction count generalizing blockOffset with
  | zero => exact Within.throw _
  | succ count ih =>
      refine Within.bind Within.get fun v => Within.ite (ih _) ?_
      refine Within.bind (h.tablePage _) fun data => ?_
      split
      · exact Within.bind (Within.tryCatch (h.recordAllocation _) fun _ => Within.pure _)
          fun _ => Within.pure _
      · exact ih _

theorem allocateInode : Within R allocateInode :=
  Within.bind Within.get fun _ => h.allocateFrom _ _ _

omit h in
theorem runDtree {α : Type} (x : Dtree.DtreeM α) (dtree : Dtree) : Within R (runDtree x dtree) := by
  unfold Volume.runDtree
  split
  · exact Within.pure _
  · exact Within.throw _

omit h in
theorem numEntries (dtree : Dtree) : Within R (numEntries dtree) := by
  unfold Volume.numEntries
  split
  · exact Within.pure _
  · exact Within.throw _
  · exact Within.pure _

theorem nextEntryIndex (ino : UInt32) : Within R (nextEntryIndex ino) :=
  Within.bind (h.readInode ino) fun _ => Within.bind (Within.returnExcept _) fun dtree =>
    numEntries dtree

end ReadSteps

/-- The steps that the loops over the data of a file are made of are in `R`. -/
structure WriteSteps (R : Volume → Volume → Prop) : Prop where
  storage : ∀ v storage, R v { v with storage }
  alloc : ∀ v bmap nblocks hint pxd bmap', v.bmap = some bmap →
    bmap.allocExtent nblocks hint = .ok (pxd, bmap') → R v { v with
      bmap := some bmap'
      allocations := v.allocations ++ [{ bmap, nblocks, hint, pxd }] }

namespace WriteSteps

variable {R : Volume → Volume → Prop} (h : WriteSteps R)

include h

theorem onStorage {α : Type} (x : StorageM α) : Within R (onStorage x) := by
  intro v
  unfold Volume.onStorage
  rw [final_zoom]
  exact h.storage v _

variable [IsPreorder Volume R]

omit h in
theorem checkToken (token : List Bool) : Within R (checkToken token) := by
  unfold Volume.checkToken
  split
  · exact Within.throw _
  · exact Within.pure _

theorem fillNewBlocks (data : List UInt8) (block count offset : ℕ) (s : WriteState) :
    Within R (fillNewBlocks data block count offset s) := by
  induction count generalizing block offset s with
  | zero => exact Within.pure _
  | succ count ih =>
      refine Within.bind (checkToken _) fun token => Within.ite (Within.pure _) ?_
      exact Within.bind (h.onStorage _) fun _ => ih _ _ _

theorem allocExtent (nblocks hint : ℕ) : Within R (allocExtent nblocks hint) := by
  refine Within.get_bind fun v => ?_
  cases hbmap : v.bmap with
  | none => exact refl_of R v
  | some bmap =>
      simp only
      cases halloc : bmap.allocExtent nblocks hint with
      | error e => exact refl_of R v
      | ok result => exact h.alloc v bmap nblocks hint result.1 result.2 hbmap halloc

theorem writeBlocks (data : List UInt8) (block count : ℕ) (s : WriteState) :
    Within R (writeBlocks data block count s) := by
  induction count generalizing block s with
  | zero => exact Within.pure _
  | succ count ih =>
      refine Within.bind (checkToken _) fun token => Within.ite (Within.pure _) ?_
      refine Within.bind (h.onStorage _) fun blockData => ?_
      refine Within.bind (Within.returnExcept _) fun bytes => ?_
      exact Within.bind (h.onStorage _) fun _ => ih _ _

theorem writeHole (data : List UInt8) (pxd : Pxd) (s : WriteState) : Within R (writeHole data pxd s) := by
  refine Within.bind (h.fillNewBlocks _ _ _ _ _) fun s => ?_
  split
  · exact Within.pure _
  · exact Within.pure _

theorem writeMapped (data : List UInt8) (blockAddr blockCount : ℕ) (s : WriteState) :
    Within R (writeMapped data blockAddr blockCount s) :=
  Within.bind (h.writeBlocks _ _ _ _) fun _ => Within.pure _

theorem writePart (data : List UInt8) (blockAddr blockCount : ℕ) (s : WriteState) :
    Within R (writePart data blockAddr blockCount s) := by
  refine Within.ite (Within.bind (h.allocExtent _ _) fun result => ?_) (h.writeMapped _ _ _ _)
  split
  · exact h.writeHole _ _ _
  · exact h.writeMapped _ _ _ _

theorem writeParts (data : List UInt8) (parts : List (ℕ × ℕ)) (s : WriteState) :
    Within R (writeParts data parts s) := by
  induction parts generalizing s with
  | nil => exact Within.pure _
  | cons part rest ih =>
      refine Within.bind (checkToken _) fun token => Within.ite (Within.pure _) ?_
      exact Within.bind (h.writePart _ _ _ _) fun s => ih s

theorem zeroTail (byteOffset : ℕ) (parts : List (ℕ × ℕ)) : Within R (zeroTail byteOffset parts) := by
  induction parts with
  | nil => exact Within.pure _
  | cons part rest ih =>
      refine Within.ite ?_ ih
      refine Within.bind (h.onStorage _) fun blockData => Within.bind (h.onStorage _) fun _ => ih

theorem allocateBlocks (fsb count : ℕ) (state : Xtree × Bool) :
    Within R (allocateBlocks fsb count state) := by
  induction count generalizing fsb state with
  | zero => exact Within.pure _
  | succ count ih =>
      obtain ⟨xtree, modified⟩ := state
      refine Within.ite (ih _ _) (Within.bind (h.allocExtent _ _) fun result => ?_)
      split
      · exact ih _ _
      · refine Within.bind (h.onStorage _) fun _ => ?_
        split
        · exact ih _ _
        · exact ih _ _

end WriteSteps

/-- The steps that a body is made of are in `R`.  Only pages that are loaded come into the page
cache, and only pages of the open transaction become dirty. -/
structure PageSteps (R : Volume → Volume → Prop) : Prop extends WriteSteps R where
  used : ∀ v key, R v { v with pageCache := (v.pageCache.get key).2 }
  loaded : ∀ v inode block data index, v.pageCache.peek (inode, block) = none →
    R v { v with pageCache := Lru.put v.pageCache (inode, block) { block, data, inode := some inode, index } }
  changed : ∀ v inode block (update : List UInt8 → List UInt8), R v { v with
    pageCache := PageCache.unpinPage (v.pageCache.modify (inode, block) fun page =>
      { page.pin with data := update page.pin.data }) inode block }
  noted : ∀ v active active', v.txMgr.active = some active → active.dirtyPages ⊆ active'.dirtyPages →
    R v { v with txMgr := { v.txMgr with active := some active' } }
  marked : ∀ v active inode block, v.txMgr.active = some active → (inode, block) ∈ active.dirtyPages →
    R v { v with pageCache := v.pageCache.markDirtyTxn inode block active.txid }
  free : ∀ v bmap pxd bmap', v.bmap = some bmap → bmap.freeExtent pxd = .ok bmap' →
    R v { v with bmap := some bmap' }

/-- The same for relations that do not depend on what is cached and marked. -/
structure Steps (R : Volume → Volume → Prop) : Prop extends PageSteps R where
  cache : ∀ v pageCache, R v { v with pageCache }
  txn : ∀ v active active', v.txMgr.active = some active →
    R v { v with txMgr := { v.txMgr with active := some active' } }
  used := fun v _ => cache v _
  loaded := fun v _ _ _ _ _ => cache v _
  changed := fun v _ _ _ => cache v _
  noted := fun v active active' hactive _ => txn v active active' hactive
  marked := fun v _ _ _ _ _ => cache v _

theorem Steps.modifyCache {R : Volume → Volume → Prop} (h : Steps R) (f : PageCache → PageCache) :
    Within R (modifyCache f) :=
  fun v => h.cache v _

theorem mem_dirtyPages_marked (active : ActiveTxn) (key : UInt32 × ℕ) : key ∈ (marked active key).dirtyPages := by
  unfold marked
  dsimp only
  split
  · assumption
  · exact List.mem_append_right _ (List.mem_singleton_self key)

theorem subset_dirtyPages_marked (active : ActiveTxn) (key : UInt32 × ℕ) :
    active.dirtyPages ⊆ (marked active key).dirtyPages := by
  unfold marked
  dsimp only
  split
  · exact List.Subset.refl _
  · exact List.subset_append_left _ _

theorem getPage_ok {inode : UInt32} {block : ℕ} {v w : Volume} {found : Option CachedPage}
    (h : getPage inode block v = .ok found w) :
    found = v.pageCache.peek (inode, block) ∧ w = { v with pageCache := (v.pageCache.get (inode, block)).2 } := by
  cases h
  exact ⟨rfl, rfl⟩

theorem sameCache_loadData {inode : UInt32} {block : ℕ} {v w : Volume} {data : List UInt8}
    (h : loadData inode block v = .ok data w) : w.pageCache = v.pageCache := by
  unfold loadData at h
  rw [bind_ok (get_apply v)] at h
  cases hcopy : v.pageCache.otherCopy inode block with
  | some copy =>
      rw [hcopy] at h
      cases h
      rfl
  | none =>
      simp only [hcopy] at h
      cases hread : StorageM.readBlock block v.storage with
      | ok data' s =>
          have hrun : tryCatch (onStorage (StorageM.readBlock block)) (fun _ => return []) v =
              .ok data' { v with storage := s } := tryCatch_ok (zoom_ok hread)
          cases hrun.symm.trans h
          rfl
      | error e s =>
          have hrun : tryCatch (onStorage (StorageM.readBlock block)) (fun _ => return []) v =
              .ok [] { v with storage := s } := tryCatch_error (zoom_error hread)
          cases hrun.symm.trans h
          rfl

namespace PageSteps

variable {R : Volume → Volume → Prop} (h : PageSteps R)

include h

theorem reads : ReadSteps R where
  faults v _ := h.storage v _
  noted v active _ hactive := h.noted v active _ hactive (List.Subset.refl _)

variable [IsPreorder Volume R]

theorem readInode (ino : UInt32) : Within R (readInode ino) :=
  h.reads.readInode ino

theorem allocateInode : Within R allocateInode :=
  h.reads.allocateInode

theorem nextEntryIndex (ino : UInt32) : Within R (nextEntryIndex ino) :=
  h.reads.nextEntryIndex ino

omit [IsPreorder Volume R] in
theorem getPage (inode : UInt32) (block : ℕ) : Within R (getPage inode block) :=
  fun v => h.used v _

theorem loadData (inode : UInt32) (block : ℕ) : Within R (loadData inode block) := by
  refine Within.bind Within.get fun v => ?_
  split
  · exact Within.pure _
  · exact Within.tryCatch (h.onStorage _) fun _ => Within.pure _

theorem getOrLoad (inode : UInt32) (block index : ℕ) : Within R (getOrLoad inode block index) := by
  refine Within.bind_of_ok (h.getPage inode block) fun v found w hrun => ?_
  cases hpeek : v.pageCache.peek (inode, block) with
  | some page =>
      cases (getPage_ok hrun).1.trans hpeek
      exact Within.pure _ w
  | none =>
      obtain ⟨hfound, rfl⟩ := getPage_ok hrun
      rw [hpeek] at hfound
      cases hfound
      refine Within.bind_at (h.loadData inode block _) fun data w hload => ?_
      have hcache := sameCache_loadData hload
      refine h.loaded w inode block data index ?_
      rw [hcache, Lru.peek_get]
      exact hpeek

theorem updateInodePage (ino : UInt32) (block offset : ℕ) (update : List UInt8 → List UInt8) :
    Within R (updateInodePage ino block offset update) := by
  refine Within.bind (h.getOrLoad _ _ _) fun page => Within.get_bind fun v => ?_
  unfold PageCache.updateForWrite
  cases v.pageCache.peek (ino, block) with
  | none => exact refl_of R v
  | some page => exact h.changed v ino block (updateAt offset update)

theorem updateInode (ino : UInt32) (inode : Inode) (update : List UInt8 → List UInt8) :
    Within R (updateInode ino inode update) :=
  h.updateInodePage _ _ _ _

theorem markPageDirty (ino : UInt32) (block : ℕ) : Within R (markPageDirty ino block) := by
  refine Within.get_bind fun v => ?_
  cases hactive : v.txMgr.active with
  | none => exact refl_of R v
  | some active =>
      -- the page is noted first; nothing looks at the state in between
      refine trans_of R (h.noted v active (Volume.marked active (ino, block)) hactive (subset_dirtyPages_marked active _)) ?_
      exact h.marked { v with txMgr := { v.txMgr with active := some (Volume.marked active (ino, block)) } }
        (Volume.marked active (ino, block)) ino block rfl
        (mem_dirtyPages_marked active _)

/-! ## Directories -/

theorem insertDirEntry (parentIno : UInt32) (name : List UInt16) (childIno index : UInt32) :
    Within R (insertDirEntry parentIno name childIno index) := by
  refine Within.bind (h.readInode _) fun inode => Within.bind (Within.returnExcept _) fun dtree => ?_
  refine Within.bind (ReadSteps.runDtree _ _) fun result => ?_
  obtain ⟨inserted, dtree⟩ := result
  exact Within.ite (Within.bind (h.updateInode _ _ _) fun _ => Within.pure _) (Within.pure _)

theorem removeDirEntry (parentIno : UInt32) (name : List UInt16) :
    Within R (removeDirEntry parentIno name) := by
  refine Within.bind (h.readInode _) fun inode => Within.bind (Within.returnExcept _) fun dtree => ?_
  refine Within.bind (ReadSteps.runDtree _ _) fun result => ?_
  obtain ⟨removed, dtree⟩ := result
  exact Within.ite (Within.bind (h.updateInode _ _ _) fun _ => Within.pure _) (Within.pure _)

theorem markInodeDirty (ino : UInt32) : Within R (markInodeDirty ino) :=
  Within.bind (h.readInode ino) fun _ => h.markPageDirty _ _

theorem changeNlink (ino : UInt32) (f : ℕ → ℕ) : Within R (changeNlink ino f) :=
  Within.bind (h.readInode ino) fun _ => Within.bind (h.updateInode _ _ _) fun _ =>
    h.markPageDirty _ _

/-! ## New inodes -/

theorem enterInode (parentIno : UInt32) (name : List UInt16) (child : UInt32 × ℕ × ℕ)
    (init : List UInt8 → List UInt8) : Within R (enterInode parentIno name child init) := by
  obtain ⟨childIno, childBlock, childOff⟩ := child
  refine Within.bind (h.updateInodePage _ _ _ _) fun _ => Within.bind (h.markPageDirty _ _) fun _ => ?_
  refine Within.bind (h.nextEntryIndex _) fun index => ?_
  refine Within.bind (h.insertDirEntry _ _ _ _) fun inserted => Within.ite (Within.pure _) ?_
  exact Within.bind (h.markInodeDirty _) fun _ => Within.pure _

theorem createFileBody (parentIno : UInt32) (name : List UInt16) :
    Within R (createFileBody parentIno name) :=
  Within.bind h.allocateInode fun _ => Within.ite (Within.pure _) (h.enterInode _ _ _ _)

theorem mkdirBody (parentIno : UInt32) (name : List UInt16) : Within R (mkdirBody parentIno name) := by
  refine Within.bind h.allocateInode fun child => ?_
  obtain ⟨childIno, childBlock, childOff⟩ := child
  refine Within.ite (Within.pure _) ?_
  refine Within.bind (h.updateInodePage _ _ _ _) fun _ => Within.bind (h.markPageDirty _ _) fun _ => ?_
  refine Within.bind (h.nextEntryIndex _) fun index => ?_
  refine Within.bind (h.insertDirEntry _ _ _ _) fun inserted => Within.ite (Within.pure _) ?_
  exact Within.bind (h.changeNlink _ _) fun _ => Within.pure _

theorem mknodBody (parentIno : UInt32) (name : List UInt16) (mode rdev : ℕ) :
    Within R (mknodBody parentIno name mode rdev) :=
  Within.ite (Within.pure _) (Within.ite (Within.pure _)
    (Within.bind h.allocateInode fun _ => h.enterInode _ _ _ _))

theorem symlinkBody (parentIno : UInt32) (name : List UInt16) (target : List UInt8) :
    Within R (symlinkBody parentIno name target) :=
  Within.bind h.allocateInode fun _ => Within.ite (Within.pure _)
    (Within.ite (Within.pure _) (h.enterInode _ _ _ _))

/-! ## Links -/

theorem linkFileBody (parentIno : UInt32) (name : List UInt16) (targetIno : UInt32) :
    Within R (linkFileBody parentIno name targetIno) := by
  refine Within.bind (h.readInode _) fun target => Within.ite (Within.pure _) ?_
  refine Within.ite (Within.pure _) (Within.bind (h.nextEntryIndex _) fun index => ?_)
  refine Within.bind (h.insertDirEntry _ _ _ _) fun inserted => Within.ite (Within.pure _) ?_
  refine Within.bind (h.updateInode _ _ _) fun _ => Within.bind (h.markPageDirty _ _) fun _ => ?_
  exact Within.bind (h.markInodeDirty _) fun _ => Within.pure _

theorem rmdirBody (parentIno : UInt32) (name : List UInt16) : Within R (rmdirBody parentIno name) := by
  refine Within.bind (h.removeDirEntry _ _) fun removed => ?_
  split
  · exact Within.pure _
  · refine Within.bind (h.readInode _) fun child => Within.ite (Within.pure _) ?_
    refine Within.bind (Within.returnExcept _) fun dtree => Within.ite (Within.pure _) ?_
    refine Within.bind (h.updateInode _ _ _) fun _ => Within.bind (h.markPageDirty _ _) fun _ => ?_
    exact Within.bind (h.changeNlink _ _) fun _ => Within.pure _

theorem freeExtents (extents : List (ℕ × ℕ)) : Within R (freeExtents extents) := by
  intro v
  show R v { v with bmap := v.bmap.map _ }
  cases hbmap : v.bmap with
  | none =>
      rw [Option.map_none, ← hbmap]
      exact refl_of R v
  | some bmap =>
      rw [Option.map_some]
      induction extents generalizing v bmap with
      | nil =>
          rw [List.foldl_nil, ← hbmap]
          exact refl_of R v
      | cons extent rest ih =>
          rw [List.foldl_cons]
          cases hfree : bmap.freeExtent ((Pxd.setLength {} extent.2).setAddress extent.1) with
          | ok bmap' =>
              refine trans_of R (h.free v bmap _ bmap' hbmap hfree) ?_
              exact ih { v with bmap := some bmap' } bmap' rfl
          | error e => exact ih v bmap hbmap

theorem unlinkFileBody (parentIno : UInt32) (name : List UInt16) :
    Within R (unlinkFileBody parentIno name) := by
  refine Within.bind (h.removeDirEntry _ _) fun removed => ?_
  split
  · exact Within.pure _
  · refine Within.bind (h.readInode _) fun child => Within.ite (Within.pure _) ?_
    have hrest : ∀ childIno, Within R (do
        Volume.markPageDirty childIno child.pageBlock
        Volume.markInodeDirty parentIno
        return (.commit true : Exit Bool Bool)) :=
      fun _ => Within.bind (h.markPageDirty _ _) fun _ => Within.bind (h.markInodeDirty _) fun _ =>
        Within.pure _
    refine Within.bind Within.get fun v => ?_
    refine Within.ite ?_ ?_
    · exact Within.bind (h.updateInode _ _ _) fun _ => Within.bind (h.freeExtents _) fun _ => hrest _
    · exact Within.bind (h.updateInode _ _ _) fun _ => hrest _

theorem releaseFileBody (ino : UInt32) (inode : Inode) : Within R (releaseFileBody ino inode) := by
  refine Within.bind Within.get fun v => ?_
  refine Within.ite ?_ (Within.pure _)
  refine Within.bind (h.freeExtents _) fun _ => Within.bind (h.updateInode _ _ _) fun _ => ?_
  exact Within.bind (h.markPageDirty _ _) fun _ => Within.pure _

/-! ## Renaming -/

theorem moveDirectory (childIno oldParent newParent : UInt32) :
    Within R (moveDirectory childIno oldParent newParent) := by
  refine Within.bind (h.readInode _) fun child => Within.bind (h.updateInode _ _ _) fun _ => ?_
  refine Within.bind (h.markPageDirty _ _) fun _ => Within.bind (h.changeNlink _ _) fun _ => ?_
  exact h.changeNlink _ _

theorem removeReplaced (newParent : UInt32) (newName : List UInt16) (childIsDir : Bool) :
    Within R (removeReplaced newParent newName childIsDir) := by
  refine Within.bind (h.removeDirEntry _ _) fun removed => ?_
  split
  · exact Within.pure _
  · refine Within.bind (h.readInode _) fun dest => Within.bind (Within.returnExcept _) fun refused => ?_
    split
    · exact Within.pure _
    · exact Within.bind (h.markPageDirty _ _) fun _ => Within.pure _

theorem renameAcross (oldParent : UInt32) (oldName : List UInt16) (newParent : UInt32)
    (newName : List UInt16) (childIno : UInt32) (childIsDir : Bool) :
    Within R (renameAcross oldParent oldName newParent newName childIno childIsDir) := by
  refine Within.bind (h.removeReplaced _ _ _) fun refused => ?_
  split
  · exact Within.pure _
  · refine Within.bind (h.nextEntryIndex _) fun index => ?_
    refine Within.bind (h.insertDirEntry _ _ _ _) fun inserted => Within.ite (Within.pure _) ?_
    refine Within.bind (h.markInodeDirty _) fun _ => Within.bind (h.removeDirEntry _ _) fun _ => ?_
    refine Within.bind (h.markInodeDirty _) fun _ => ?_
    exact Within.ite (Within.bind (h.moveDirectory _ _ _) fun _ => Within.pure _) (Within.pure _)

theorem renameWithin (parentIno : UInt32) (oldName newName : List UInt16) (childIno : UInt32)
    (childIsDir : Bool) : Within R (renameWithin parentIno oldName newName childIno childIsDir) := by
  have hrest : ∀ dtree, Within R (renameChecked parentIno oldName newName childIno dtree) := by
    intro dtree
    refine Within.bind (ReadSteps.numEntries _) fun index => Within.bind (h.readInode _) fun parent => ?_
    refine Within.bind (Within.returnExcept _) fun dtree => Within.bind (ReadSteps.runDtree _ _) fun result => ?_
    obtain ⟨_, dtree⟩ := result
    exact Within.bind (h.updateInode _ _ _) fun _ => Within.bind (h.markPageDirty _ _) fun _ =>
      Within.pure _
  refine Within.bind (h.readInode _) fun parent => Within.bind (Within.returnExcept _) fun dtree => ?_
  refine Within.bind (Within.returnExcept _) fun found => ?_
  split
  · refine Within.bind (h.readInode _) fun dest => Within.bind (Within.returnExcept _) fun refused => ?_
    split
    · exact Within.pure _
    · exact hrest dtree
  · exact hrest dtree

theorem renameBody (oldParent : UInt32) (oldName : List UInt16) (newParent : UInt32)
    (newName : List UInt16) : Within R (renameBody oldParent oldName newParent newName) := by
  refine Within.ite (Within.pure _) (Within.ite (Within.pure _) ?_)
  refine Within.bind (h.readInode _) fun parent => Within.bind (Within.returnExcept _) fun dtree => ?_
  refine Within.bind (Within.returnExcept _) fun found => ?_
  split
  · exact Within.pure _
  · refine Within.bind (h.readInode _) fun child => ?_
    exact Within.ite (h.renameAcross _ _ _ _ _ _) (h.renameWithin _ _ _ _ _)

/-! ## File data and attributes -/

/-- What follows the loops of a write. -/
theorem finishWrite (ino : UInt32) (offset : ℕ) (inode : Inode) (s : WriteState) : Within R (do
    let _ ← Volume.checkToken s.token
    Volume.onStorage StorageM.flushData
    if inode.size < addU64 offset s.written then
      Volume.updateInode ino inode (Dinode.setSize (addU64 offset s.written))
    if s.modified then Volume.updateInode ino inode (setXtree s.xtree s.xtree.totalBlocks)
    Volume.markPageDirty ino inode.pageBlock
    return (.commit s.written : Exit ℕ ℕ)) := by
  refine Within.bind (WriteSteps.checkToken _) fun _ => Within.bind (h.onStorage _) fun _ => ?_
  have hmark : Within R (do
      Volume.markPageDirty ino inode.pageBlock
      return (.commit s.written : Exit ℕ ℕ)) :=
    Within.bind (h.markPageDirty _ _) fun _ => Within.pure _
  have hxtree : Within R (do
      if s.modified then Volume.updateInode ino inode (setXtree s.xtree s.xtree.totalBlocks)
      Volume.markPageDirty ino inode.pageBlock
      return (.commit s.written : Exit ℕ ℕ)) :=
    Within.ite (Within.bind (h.updateInode _ _ _) fun _ => hmark) hmark
  exact Within.ite (Within.bind (h.updateInode _ _ _) fun _ => hxtree) hxtree

theorem writeAtBody (ino : UInt32) (offset : ℕ) (data : List UInt8) (token : List Bool) :
    Within R (writeAtBody ino offset data token) := by
  refine Within.bind (h.readInode _) fun inode => Within.bind (Within.returnExcept _) fun xtree => ?_
  exact Within.bind (h.writeParts _ _ _) fun s => h.finishWrite ino offset inode s

theorem truncateBody (ino : UInt32) (newSize : ℕ) : Within R (truncateBody ino newSize) := by
  refine Within.bind (h.readInode _) fun inode => Within.bind (Within.returnExcept _) fun xtree => ?_
  have hmark : Within R (do
      Volume.markPageDirty ino inode.pageBlock
      return (.commit () : Exit Unit Unit)) :=
    Within.bind (h.markPageDirty _ _) fun _ => Within.pure _
  refine Within.ite ?_ ?_
  · refine Within.bind (h.freeExtents _) fun _ => Within.bind (h.updateInode _ _ _) fun _ => hmark
  · refine Within.ite ?_ ?_
    · refine Within.bind (h.zeroTail _ _) fun _ => Within.bind (h.updateInode _ _ _) fun _ => hmark
    · exact Within.bind (h.updateInode _ _ _) fun _ => hmark

theorem changeBlocks (mode startFsb endFsb : ℕ) (xtree : Xtree) :
    Within R (changeBlocks mode startFsb endFsb xtree) := by
  refine Within.ite (Within.pure _) (Within.ite ?_ (h.allocateBlocks _ _ _))
  exact Within.bind (h.freeExtents _) fun _ => Within.pure _

theorem fallocateBody (ino : UInt32) (offset len mode : ℕ) :
    Within R (fallocateBody ino offset len mode) := by
  refine Within.bind (h.readInode _) fun inode => Within.bind (Within.returnExcept _) fun xtree => ?_
  have hmark : Within R (do
      Volume.markPageDirty ino inode.pageBlock
      Volume.onStorage StorageM.flushData
      return (.commit () : Exit Unit Unit)) :=
    Within.bind (h.markPageDirty _ _) fun _ => Within.bind (h.onStorage _) fun _ => Within.pure _
  have hxtree : ∀ (xtree : Xtree) (modified : Bool), Within R (do
      if modified then Volume.updateInode ino inode (setXtree xtree xtree.totalBlocks)
      Volume.markPageDirty ino inode.pageBlock
      Volume.onStorage StorageM.flushData
      return (.commit () : Exit Unit Unit)) :=
    fun xtree modified => Within.ite (Within.bind (h.updateInode _ _ _) fun _ => hmark) hmark
  refine Within.bind (h.changeBlocks _ _ _ _) fun state => ?_
  obtain ⟨xtree, modified⟩ := state
  exact Within.ite (Within.bind (h.updateInode _ _ _) fun _ => hxtree _ _) (hxtree _ _)

theorem copyFileRangeBody (srcIno : UInt32) (srcOffset : ℕ) (dstIno : UInt32) (dstOffset len : ℕ) :
    Within R (copyFileRangeBody srcIno srcOffset dstIno dstOffset len) := by
  refine Within.bind (h.readInode _) fun src => Within.bind (Within.returnExcept _) fun xtree => ?_
  refine Within.ite (Within.pure _) ?_
  refine Within.bind (h.updateInode _ _ _) fun _ => Within.bind (h.markPageDirty _ _) fun _ => ?_
  refine Within.bind (h.readInode _) fun dst => Within.bind (Within.returnExcept _) fun xtree => ?_
  refine Within.bind (h.freeExtents _) fun _ => ?_
  split
  · exact Within.pure _
  · refine Within.bind (h.updateInode _ _ _) fun _ => ?_
    exact Within.bind (h.markPageDirty _ _) fun _ => Within.pure _

theorem setattrBody (ino : UInt32) (change : AttrChange) : Within R (setattrBody ino change) := by
  refine Within.bind (h.readInode _) fun inode => Within.bind (h.updateInode _ _ _) fun _ => ?_
  exact Within.bind (h.markPageDirty _ _) fun _ => Within.pure _

theorem fsyncBody (ino : UInt32) : Within R (fsyncBody ino) := by
  refine Within.bind (h.readInode _) fun inode => Within.bind (h.onStorage _) fun _ => ?_
  exact Within.bind (h.markPageDirty _ _) fun _ => Within.pure _

theorem setxattrBody (ino : UInt32) (name value : List UInt8) (flags : ℕ) :
    Within R (setxattrBody ino name value flags) := by
  refine Within.bind (h.readInode _) fun inode => Within.ite (Within.pure _) ?_
  refine Within.ite (Within.pure _) (Within.ite (Within.pure _) (Within.ite (Within.pure _) ?_))
  refine Within.ite (Within.pure _) (Within.bind (h.updateInode _ _ _) fun _ => ?_)
  exact Within.bind (h.markPageDirty _ _) fun _ => Within.pure _

theorem removexattrBody (ino : UInt32) (name : List UInt8) : Within R (removexattrBody ino name) := by
  refine Within.bind (h.readInode _) fun inode => Within.ite (Within.pure _) ?_
  have hmark : Within R (do
      Volume.markPageDirty ino inode.pageBlock
      return (.commit true : Exit Bool Bool)) :=
    Within.bind (h.markPageDirty _ _) fun _ => Within.pure _
  exact Within.ite (Within.bind (h.updateInode _ _ _) fun _ => hmark)
    (Within.bind (h.updateInode _ _ _) fun _ => hmark)

end PageSteps

end Volume

end JfsFuse
