import JfsFuse.Alloc.Tracking
import JfsFuse.Volume.AfterCommit
import JfsFuse.Volume.BlockCount
import JfsFuse.Volume.WriteAhead

/-!
# A volume with one file

On a device in memory that does not fail, and without a journal, every commit returns.  The
volumes here have an inode table of one block with one file in it, whose extents and content
are given.
-/

namespace JfsFuse

open ByteBuf Program

namespace Volume

open Dinode

/-- The volume is on a steady device that holds all of its blocks, has no journal, and its
allocation map lies in it. -/
structure Settled (v : Volume) : Prop extends Calm v where
  backend : v.storage.backend = .memory
  log : v.log = none
  map : ∀ m, v.bmap = some m → m.dmapStart < v.aggSize

theorem Settled.block_le {v : Volume} (h : v.Settled) {block : ℕ} (hblock : block < v.aggSize) :
    (block + 1) * blockSize ≤ v.storage.size :=
  (Nat.mul_le_mul_right blockSize (Nat.succ_le_of_lt hblock)).trans h.size

/-- **A commit returns.** -/
theorem Settled.exists_commit {v : Volume} (h : v.Settled) {active : ActiveTxn}
    (hactive : v.txMgr.active = some active) (hkeys : ∀ key ∈ active.dirtyPages, key.2 < v.aggSize) :
    ∃ result v', commitTransaction v = .ok result v' := by
  have hcalls : ∀ call ∈ (.flushData :: (pageWrites (cachedPages v.pageCache active.dirtyPages) ++
      [.flushMetadata]) : List StorageCall), call.extent ≤ v.storage.size := by
    intro call hcall
    rcases List.mem_cons.mp hcall with rfl | hcall
    · exact Nat.zero_le _
    rcases List.mem_append.mp hcall with hpage | hflush
    · obtain ⟨⟨block, data⟩, hcached, rfl⟩ := List.mem_map.mp hpage
      obtain ⟨ino, page, hkey, hpeek, rfl⟩ := of_mem_cachedPages hcached
      have hblock := h.block_le (hkeys _ hkey)
      rw [Nat.succ_mul] at hblock
      show block * blockSize + page.data.length ≤ v.storage.size
      rwa [h.pages _ page hpeek]
    · cases List.mem_singleton.mp hflush
      exact Nat.zero_le _
  obtain ⟨s, hperform, hbackend, hsize, hfaults⟩ :=
    StorageCall.performAll_memory_of_no_faults h.backend hcalls h.faults
  obtain ⟨result, w, hpages, hmap⟩ := (issues_commitPages_of_no_log h.log hactive v.storage).1 s hperform
  have hsteady : s.Steady := ⟨hbackend, hfaults⟩
  have hbmap : ∃ w', commitBmap (w.withStorage s) = .ok () w' := by
    unfold commitBmap
    rw [bind_ok (get_apply _)]
    have hsame : (w.withStorage s).bmap = v.bmap := hmap
    rw [hsame]
    cases hbmap : v.bmap with
    | none => exact ⟨_, rfl⟩
    | some m =>
        have hdesc : (m.dmapStart + 1) * blockSize ≤ s.size := by
          rw [hsize]
          exact h.block_le (h.map m hbmap)
        obtain ⟨m', s', hcommit⟩ := m.exists_commit hsteady hdesc
        have hzoom : onStorage m.commit (w.withStorage s) =
            .ok m' { w.withStorage s with storage := s' } := zoom_ok hcommit
        exact ⟨_, bind_ok hzoom⟩
  obtain ⟨w', hbmap⟩ := hbmap
  exact ⟨result, w', (bind_ok hpages).trans (bind_ok hbmap)⟩

/-- A commit leaves no transaction open. -/
theorem Settled.of_commit {lo hi : ℕ} {v v' : Volume} (h : v.Settled) (hv : v.Guarded lo hi) {result : CommitResult}
    (hcommit : commitTransaction v = .ok result v') : v'.Settled ∧ v'.txMgr.active = none := by
  obtain ⟨active, hactive⟩ := exists_active_of_commit hcommit
  have hdevice := (endures_commit v result v' hcommit).storage
  have hcalm := (hv.of_commit hcommit).toCalm
  obtain ⟨w, storage, hcommitted, rfl, -⟩ := of_commitTransaction_ok hactive hcommit
  obtain ⟨hbmap, -, hagg, -⟩ := hcommitted.rest
  refine ⟨⟨hcalm, hdevice.backend.trans h.backend, ?_, fun m' hm' => ?_⟩, ?_⟩
  · have hlog := hcommitted.log
    rw [h.log, Option.map_none] at hlog
    exact Option.map_eq_none_iff.mp hlog
  · obtain ⟨m, hm, rfl⟩ := Option.map_eq_some_iff.mp (show w.bmap.map flushedMap = some m' from hm')
    show m.dmapStart < w.aggSize
    rw [hagg]
    exact h.map m (hbmap.symm.trans hm)
  · show w.txMgr.active = none
    rw [hcommitted.txMgr]

/-- **A transaction returns** when its body does. -/
theorem exists_transaction {α : Type} {v w : Volume} (hidle : v.txMgr.active = none)
    {body : VolM (Exit α α)} {a : α} (hbody : body v.begun = .ok (.commit a) w) (h : w.Settled) {lo hi : ℕ}
    (hw : w.Guarded lo hi) {active : ActiveTxn} (hactive : w.txMgr.active = some active)
    (hkeys : ∀ key ∈ active.dirtyPages, key.2 < w.aggSize) :
    ∃ v', transaction body v = .ok a v' ∧ v'.Settled ∧ v'.txMgr.active = none := by
  obtain ⟨result, v', hcommit⟩ := h.exists_commit hactive hkeys
  refine ⟨v', ?_, h.of_commit hw hcommit⟩
  unfold transaction
  rw [bind_ok (beginTransaction_of_idle hidle), bind_ok hbody]
  exact bind_ok hcommit

/-- Everything but the pages, the transaction and the contents of the map is as it was. -/
theorem Settled.of_rest {v w : Volume} (h : v.Settled) (hcalm : w.Calm) (hstorage : w.storage = v.storage)
    (hagg : w.aggSize = v.aggSize) (hlog : w.log = v.log)
    (hmap : ∀ m', w.bmap = some m' → ∃ m, v.bmap = some m ∧ MapMoves m m') : w.Settled where
  toCalm := hcalm
  backend := by
    rw [hstorage]
    exact h.backend
  log := hlog.trans h.log
  map m' hm' := by
    obtain ⟨m, hm, hmoves⟩ := hmap m' hm'
    rw [hmoves.dmapStart, hagg]
    exact h.map m hm

/-- **An update** returns. -/
theorem Settled.exists_update {lo hi : ℕ} {v : Volume} (h : v.Settled) (hv : v.Guarded lo hi) (ino : UInt32)
    {b j : ℕ} (hb : b ≤ hi) (hj : j < inosPerPage) {f : List UInt8 → List UInt8} (hf : IsEdit f) :
    ∃ w, Volume.updateInodePage ino b (j * disize) f v = .ok () w ∧ w.Settled ∧ w.Guarded lo hi ∧
      w.aggSize = v.aggSize ∧ w.txMgr = v.txMgr := by
  obtain ⟨cache, hrun, -⟩ := hv.toCalm.updateInodePage (lt_of_le_of_lt hb hv.inside) ino (j * disize) f
  obtain ⟨hw, -⟩ := Returns.of_run hrun
    (returns_updateInodePage (P := fun _ => True) hf (fun _ _ _ => trivial) hb hj ino) hv
  exact ⟨_, hrun, h.of_rest hw.toCalm rfl rfl rfl fun m hm => ⟨m, hm, MapMoves.refl m⟩, hw, rfl, rfl⟩

/-- **A mark** returns in an open transaction. -/
theorem Settled.exists_mark {lo hi : ℕ} {v : Volume} (h : v.Settled) (hv : v.Guarded lo hi) (ino : UInt32) (b : ℕ)
    {active : ActiveTxn} (hactive : v.txMgr.active = some active) :
    ∃ w, Volume.markPageDirty ino b v = .ok () w ∧ w.Settled ∧ w.Guarded lo hi ∧
      w.aggSize = v.aggSize ∧ w.txMgr.active = some (marked active (ino, b)) := by
  obtain ⟨cache, hrun, -⟩ := markPageDirty_apply hactive ino b
  obtain ⟨hw, -⟩ := Returns.of_run hrun (returns_markPageDirty (P := fun _ => True) ino b) hv
  exact ⟨_, hrun, h.of_rest hw.toCalm rfl rfl rfl fun m hm => ⟨m, hm, MapMoves.refl m⟩, hw, rfl, rfl⟩

/-- **An update and a mark** return. -/
theorem Settled.exists_update_and_mark {lo hi : ℕ} {v : Volume} (h : v.Settled) (hv : v.Guarded lo hi) (ino : UInt32)
    {b j : ℕ} (hb : b ≤ hi) (hj : j < inosPerPage) {f : List UInt8 → List UInt8} (hf : IsEdit f)
    {active : ActiveTxn} (hactive : v.txMgr.active = some active) :
    ∃ w, (do
        Volume.updateInodePage ino b (j * disize) f
        Volume.markPageDirty ino b : VolM Unit) v = .ok () w ∧ w.Settled ∧ w.Guarded lo hi ∧
      w.aggSize = v.aggSize ∧ w.txMgr.active = some (marked active (ino, b)) := by
  obtain ⟨u, hupdate, hu, hguarded, hagg, htx⟩ := h.exists_update hv ino hb hj hf
  obtain ⟨w, hmark, hw, hguarded', hagg', hactive'⟩ := hu.exists_mark hguarded ino b (htx ▸ hactive)
  exact ⟨w, (bind_ok hupdate).trans hmark, hw, hguarded', hagg'.trans hagg, hactive'⟩

/-- **A truncation returns** when no block is to be cleared. -/
theorem Settled.exists_truncate {lo hi : ℕ} {v : Volume} (h : v.Settled) (hv : v.Guarded lo hi)
    (hlo : lo ≤ v.ait2.address) (hidle : v.txMgr.active = none) {ino : UInt32} {b j : ℕ}
    (hplaced : v.Placed ino b j) (hb : b ≤ hi) (newSize : ℕ) {xtree : Xtree}
    (hxtree : (v.inodeAt ino b j).xtree = .ok xtree)
    (hplain : ¬ (blocksUpTo (v.inodeAt ino b j).size < blocksUpTo newSize ∧
      (v.inodeAt ino b j).size % blockSize ≠ 0)) :
    ∃ v', truncate ino newSize v = .ok () v' ∧ v'.Settled ∧ v'.txMgr.active = none := by
  obtain ⟨hbegun, hstart⟩ := safe_begun (P := fun _ => True) v hv
  have hsettled : v.begun.Settled := h.of_rest hbegun.toCalm rfl rfl rfl fun m hm => ⟨m, hm, MapMoves.refl m⟩
  -- only the page of the inode is dirty at the end
  have hend : ∀ {w : Volume} {f : List UInt8 → List UInt8}, w.Settled → w.Guarded lo hi → IsEdit f →
      w.txMgr.active = v.begun.txMgr.active → w.aggSize = v.aggSize → ∃ w' active, (do
        updateInode ino (v.inodeAt ino b j) f
        markPageDirty ino (v.inodeAt ino b j).pageBlock
        return (.commit () : Exit Unit Unit)) w = .ok (.commit ()) w' ∧ w'.Settled ∧ w'.Guarded lo hi ∧
          w'.txMgr.active = some active ∧ ∀ key ∈ active.dirtyPages, key.2 < w'.aggSize := by
    intro w f hw hguarded hf hactive hagg
    obtain ⟨w', hrun, hw', hguarded', hagg', hactive'⟩ :=
      hw.exists_update_and_mark hguarded ino hb hplaced.slot hf hactive
    refine ⟨w', _, ?_, hw', hguarded', hactive', fun key hkey => ?_⟩
    · obtain ⟨_, w₁, hupdate, hmark⟩ := of_bind_ok hrun
      exact (bind_ok hupdate).trans (bind_ok hmark)
    · have hself : key = (ino, b) := by simpa [marked] using hkey
      rw [hself, hagg', hagg]
      exact hplaced.inside
  have hread : readInode ino v.begun = .ok (v.inodeAt ino b j) v.begun :=
    hbegun.toCalm.readInode_of_foundAt (hstart.placed hlo hb hplaced).foundAt
  obtain ⟨w, active, hbody, hw, hguarded, hactive, hkeys⟩ : ∃ w active,
      truncateBody ino newSize v.begun = .ok (.commit ()) w ∧ w.Settled ∧ w.Guarded lo hi ∧
        w.txMgr.active = some active ∧ ∀ key ∈ active.dirtyPages, key.2 < w.aggSize := by
    unfold truncateBody
    rw [bind_ok hread, hxtree, bind_ok (returnExcept_ok xtree v.begun)]
    by_cases hshrink : blocksUpTo newSize < blocksUpTo (v.inodeAt ino b j).size
    · simp only [if_pos hshrink]
      have hphase := dataPhase_freeExtents (fun block => lo ≤ block ∧ block ≤ hi)
        (xtree.truncateExtents ↑(blocksUpTo newSize)).1 v.begun
      obtain ⟨hfreed, -⟩ := hphase.safe (P := fun _ => True) hbegun
      obtain ⟨w, active, hrun, hrest⟩ := hend (hsettled.of_rest hfreed.toCalm rfl rfl rfl hphase.map) hfreed
        (isEdit_resize (xtree.truncateExtents ↑(blocksUpTo newSize)).2 newSize _) rfl rfl
      exact ⟨w, active, hrun, hrest⟩
    · simp only [if_neg hshrink, if_neg hplain]
      obtain ⟨w, active, hrun, hrest⟩ := hend hsettled hbegun (isEdit_setSize newSize) rfl rfl
      exact ⟨w, active, hrun, hrest⟩
  exact exists_transaction hidle hbody hw hguarded hactive hkeys

/-! ## The volume -/

/-- The inode of the regular file 19 with one link, without extents. -/
def emptyInode : List UInt8 :=
  Mkfs.dinode [(4, leBytes 4 filesystemI), (8, leBytes 4 3), (40, leBytes 4 1), (52, leBytes 4 0x81a4)]

/-- The inode of file 19, with the given extents and size. -/
def fileInode (xtree : Xtree) (size : ℕ) : List UInt8 :=
  setXtree xtree xtree.totalBlocks (setSize size emptyInode)

/-- A volume of 128 blocks: the allocation map is in blocks 1 to 3, the inode table in block 4,
and the blocks from 110 on are free. -/
def oneInode (dinode : List UInt8) (content : ℕ → UInt8) : Volume where
  ait2 := Mkfs.makePxd 0 4
  aggSize := 128
  log := none
  storage :=
    { Storage.newMemory 128 with data := Memory.write content (4 * blockSize) (Mkfs.inodeBlock 0 dinode) }
  bmap := some
    { mapsize := 128
      nfree := 18
      freeMap := fun block => decide (110 ≤ block ∧ block < 128)
      ndmap := 1
      dmapStart := 1
      dmapLen := 3 }

/-- This volume with a regular file, inode 19. -/
def oneFile (xtree : Xtree) (size : ℕ) (content : ℕ → UInt8) : Volume :=
  oneInode (fileInode xtree size) content

section OneInode

variable {dinode : List UInt8} (content : ℕ → UInt8)

theorem shows_oneInode_iff {block : ℕ} {data : List UInt8} :
    (oneInode dinode content).Shows block data ↔ (oneInode dinode content).storage.block block = data := by
  refine ⟨?_, Or.inl⟩
  rintro (hblock | ⟨ino, page, hpeek, -⟩)
  · exact hblock
  · exact absurd (hpeek.symm.trans (PageCache.peek_new ..)) (by simp)

theorem settled_oneInode : (oneInode dinode content).Settled where
  faults := rfl
  size := le_rfl
  pages key page hpeek := absurd (hpeek.symm.trans (PageCache.peek_new ..)) (by simp)
  backend := rfl
  log := rfl
  map m hm := by
    cases hm
    show 1 < 128
    decide

theorem ait2_oneInode : (oneInode dinode content).ait2.address = 4 :=
  show (Mkfs.makePxd 0 4).address = 4 by decide

theorem guarded_oneInode : (oneInode dinode content).Guarded 4 4 where
  toCalm := (settled_oneInode content).toCalm
  room := by
    show 2 ≤ 256
    decide
  keyed key page hpeek := absurd (hpeek.symm.trans (PageCache.peek_new ..)) (by simp)
  inside := by
    show 4 < 128
    decide
  log i hi := by
    obtain ⟨lm, hlm, -⟩ := hi
    cases hlm
  map m hm page hpage := by
    cases hm
    have hle : page ≤ 1 + 128 / blocksPerDmap := hpage
    simp only
    unfold blocksPerDmap at hle
    omega
  pending m hm page hpage := by
    cases hm
    cases hpage

theorem spared_oneInode : Spared (fun a => 4 ≤ a ∧ a ≤ 4) (oneInode dinode content) := by
  refine ⟨_, rfl, by decide, fun a ha => ?_⟩
  exact decide_eq_false (by omega)

variable (hlen : dinode.length = disize)

include hlen

theorem block_oneInode_table : (oneInode dinode content).storage.block 4 = Mkfs.inodeBlock 0 dinode := by
  have hblock := Mkfs.length_inodeBlock (show 0 < inosPerPage by decide) hlen
  have hread := Memory.read_write_self content (4 * blockSize) (Mkfs.inodeBlock 0 dinode)
  rwa [hblock] at hread

theorem slotOf_oneInode : slotOf ((oneInode dinode content).storage.block 4) 0 = dinode := by
  rw [block_oneInode_table content hlen]
  unfold Mkfs.inodeBlock slotOf
  have hself := slice_splice_self dinode (show 0 * disize ≤ (zeros blockSize).length by
    rw [Nat.zero_mul]
    exact Nat.zero_le _)
  rwa [hlen] at hself

theorem placed_oneInode (hkey : HasKey (inodeKey 19) dinode) : (oneInode dinode content).Placed 19 4 0 where
  low := (ait2_oneInode ..).le
  high := by
    rw [ait2_oneInode]
    unfold scanSlack
    omega
  inside := by
    show 4 < 128
    decide
  slot := by decide
  key data hshows := by
    rwa [← (shows_oneInode_iff ..).mp hshows, slotOf_oneInode content hlen]
  first b' j' data hlow hbefore _ _ := by
    rw [ait2_oneInode] at hlow
    omega

theorem inodeAt_oneInode : (oneInode dinode content).inodeAt 19 4 0 =
    { dinode, ino := 19, pageBlock := 4, pageOffset := 0 } := by
  unfold inodeAt own
  rw [show (oneInode dinode content).pageCache.peek (19, 4) = none from PageCache.peek_new ..]
  rw [Option.map_none, Option.getD_none, slotOf_oneInode content hlen, Nat.zero_mul]

theorem readInode_oneInode (hkey : HasKey (inodeKey 19) dinode) :
    readInode 19 (oneInode dinode content) =
      .ok { dinode, ino := 19, pageBlock := 4, pageOffset := 0 } (oneInode dinode content) := by
  rw [← inodeAt_oneInode content hlen]
  exact (settled_oneInode content).toCalm.readInode_of_foundAt (placed_oneInode content hlen hkey).foundAt

end OneInode

section OneFile

variable (xtree : Xtree) (size : ℕ) (content : ℕ → UInt8)

theorem length_emptyInode : emptyInode.length = disize := by
  decide +kernel

theorem length_fileInode : (fileInode xtree size).length = disize :=
  (isEdit_setXtree _ _).length _ (length_setSize length_emptyInode size)

theorem hasKey_fileInode : HasKey (inodeKey 19) (fileInode xtree size) := by
  have hsized := length_setSize length_emptyInode size
  refine ((isEdit_setXtree _ _).key _ _ hsized).mpr (((isEdit_setSize size).key _ _ length_emptyInode).mpr ?_)
  decide

theorem root_fileInode : root (fileInode xtree size) = xtree.toBytes := by
  have hsized := length_setSize length_emptyInode size
  unfold fileInode setXtree
  rw [root_setNblocks (length_setRoot hsized xtree), root_setRoot hsized]

theorem xtree_fileInode : Xtree.fromInodeData (root (fileInode xtree size)) = .ok xtree.stored := by
  rw [root_fileInode, Xtree.fromInodeData_toBytes]

theorem size_fileInode : Dinode.size (fileInode xtree size) = size % 2 ^ 64 := by
  have hsized := length_setSize length_emptyInode size
  unfold fileInode setXtree
  rw [size_setNblocks (length_setRoot hsized xtree)]
  unfold Dinode.size
  rw [readLE_setRoot hsized xtree (by decide)]
  exact size_setSize length_emptyInode size

theorem block_oneFile_table : (oneFile xtree size content).storage.block 4 =
    Mkfs.inodeBlock 0 (fileInode xtree size) :=
  block_oneInode_table content (length_fileInode xtree size)

theorem slotOf_oneFile : slotOf ((oneFile xtree size content).storage.block 4) 0 = fileInode xtree size :=
  slotOf_oneInode content (length_fileInode xtree size)

theorem shows_oneFile_iff {block : ℕ} {data : List UInt8} :
    (oneFile xtree size content).Shows block data ↔ (oneFile xtree size content).storage.block block = data :=
  shows_oneInode_iff content

theorem settled_oneFile : (oneFile xtree size content).Settled :=
  settled_oneInode content

theorem ait2_oneFile : (oneFile xtree size content).ait2.address = 4 :=
  ait2_oneInode content

theorem guarded_oneFile : (oneFile xtree size content).Guarded 4 4 :=
  guarded_oneInode content

theorem placed_oneFile : (oneFile xtree size content).Placed 19 4 0 :=
  placed_oneInode content (length_fileInode xtree size) (hasKey_fileInode xtree size)

theorem inodeAt_oneFile : (oneFile xtree size content).inodeAt 19 4 0 =
    { dinode := fileInode xtree size, ino := 19, pageBlock := 4, pageOffset := 0 } :=
  inodeAt_oneInode content (length_fileInode xtree size)

theorem spared_oneFile : Spared (fun a => 4 ≤ a ∧ a ≤ 4) (oneFile xtree size content) :=
  spared_oneInode content

theorem counts_fileInode : CountsBlocks (fileInode xtree size) :=
  (countsBlocks_setXtree_iff (length_setSize length_emptyInode size) xtree _).mpr
    (Nat.mod_eq_of_lt xtree.totalBlocks_lt)

end OneFile

end Volume

end JfsFuse
