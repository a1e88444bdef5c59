import JfsFuse.Volume.OtherFiles
import JfsFuse.Volume.TableBlocks

/-!
# Runs of calls beside a file

All the operations of a volume, one after the other, as far as they are about other inodes than that
of a file: what the file reads as stays.  A call that makes an inode takes a slot that is free, and
the number of the slot is not that of the file, which is in use.
-/

namespace JfsFuse

open ByteBuf Program

namespace Volume

/-! ## Where a new inode is put -/

theorem inoAt_injective {o o' i i' : ℕ} (hi : i < inosPerPage) (hi' : i' < inosPerPage)
    (h : inoAt o i = inoAt o' i') : o = o' ∧ i = i' := by
  unfold inoAt inosPerPage at *
  omega

/-- The slot that a search ends at lies in the page. -/
theorem long_of_freeSlot {data : List UInt8} {blockOffset i count j : ℕ} (h : freeSlot data blockOffset i count = some j) :
    j * disize + disize ≤ data.length := by
  induction count generalizing i with
  | zero => cases h
  | succ count ih =>
      unfold freeSlot at h
      split at h
      · cases h
      · next hlong =>
          split at h
          · cases h
            exact Nat.le_of_not_lt hlong
          · exact ih h

/-- **A free slot** is shown with mode 0, and its number is that of its place. -/
theorem of_allocateFrom {start blockOffset count b offset : ℕ} {child : UInt32} {v v' : Volume}
    (hrun : allocateFrom start blockOffset count v = .ok (child, b, offset) v') :
    ∃ o, blockOffset ≤ o ∧ o < blockOffset + count ∧ b = start + o ∧ ∃ i < inosPerPage, offset = i * disize ∧
      child = UInt32.ofNat (inoAt o i) ∧ ∃ data, v.Shows b data ∧ i * disize + disize ≤ data.length ∧
        Dinode.mode (slotOf data i) = 0 := by
  induction count generalizing blockOffset v with
  | zero => cases hrun
  | succ count ih =>
      unfold allocateFrom at hrun
      dsimp only at hrun
      rw [bind_ok (get_apply v)] at hrun
      split at hrun
      · obtain ⟨o, hlow, hhigh, hrest⟩ := ih hrun
        exact ⟨o, by omega, by omega, hrest⟩
      · obtain ⟨data, w, hpage, hrest⟩ := of_bind_ok hrun
        have hshows := shows_of_tablePage hpage
        obtain ⟨txMgr, faults, rfl, -⟩ := Quiet.of_run (reads_quiet.tablePage _) hpage
        cases hslot : freeSlot data blockOffset 0 inosPerPage with
        | some i =>
            rw [hslot] at hrest
            obtain ⟨_, w', -, hend⟩ := of_bind_ok hrest
            cases hend
            obtain ⟨hi, hfree, -⟩ := of_freeSlot_eq hslot
            exact ⟨blockOffset, le_rfl, by omega, rfl, i, by omega, rfl, rfl, data, hshows, long_of_freeSlot hslot, hfree⟩
        | none =>
            rw [hslot] at hrest
            obtain ⟨o, hlow, hhigh, hplace⟩ := ih hrest
            exact ⟨o, by omega, by omega, hplace⟩

/-- The inode is that of a file that is in use, and it lies where its number says. -/
structure KeptFile (v : Volume) (ino : UInt32) (b j : ℕ) (d : List UInt8) : Prop where
  key : Dinode.HasKey (inodeKey ino) d
  used : Dinode.mode d ≠ 0
  file : Dinode.isDir d = false
  slot : j < inosPerPage
  low : v.ait2.address ≤ b
  number : ino.toNat = inoAt (b - v.ait2.address) j

section Bodies

variable {keep : ℕ → Prop} {content : ℕ → List UInt8} {lo hi : ℕ} {v w : Volume} {ino f : UInt32} {b j : ℕ}
  {d : List UInt8}

/-- **A new inode** is put elsewhere, under another number. -/
theorem KeptFile.newPlace (hfile : v.KeptFile ino b j d) (h : v.Undisturbed keep content (KeptIn ino b j d) lo hi)
    {child : UInt32} {b' offset : ℕ} (hrun : allocateInode v = .ok (child, b', offset) w) :
    filesystemI ≤ child.toNat ∧ ∀ init : List UInt8 → List UInt8, (∀ d', d'.length = disize →
      (init d').length = disize ∧ Dinode.HasKey (inodeKey child) (init d')) →
        Within (LeavesAlone keep content (KeptIn ino b j d) lo hi) (updateInodePage child b' offset init) := by
  have hat := h.slots.slotAt_of_allocateInode hrun
  unfold allocateInode at hrun
  rw [bind_ok (get_apply v)] at hrun
  obtain ⟨o, -, hhigh, hblock, i, hi', rfl, hchild, data, hshows, hlong, hfree⟩ := of_allocateFrom hrun
  have hlength := v.ait2.length_lt
  have hnumber : child.toNat = inoAt o i := by
    rw [hchild, UInt32.toNat_ofNat']
    apply Nat.mod_eq_of_lt
    unfold inoAt filesystemI inosPerPage scanSlack at *
    omega
  have helsewhere : ¬ (b' = b ∧ i = j) := by
    rintro ⟨hb, rfl⟩
    have hslot := h.slots.slots _ _ hat.block hshows (h.slots.whole hshows hlong) i hi'
    unfold KeptIn at hslot
    rw [if_pos ⟨hb, rfl⟩] at hslot
    rw [hslot] at hfree
    exact hfile.used hfree
  have hother : child ≠ ino := by
    intro hsame
    have hsame' : inoAt o i = inoAt (b - v.ait2.address) j := by
      rw [← hnumber, hsame]
      exact hfile.number
    obtain ⟨ho, hij⟩ := inoAt_injective hi' hfile.slot hsame'
    have hlow := hfile.low
    exact helsewhere ⟨by omega, hij⟩
  refine ⟨by rw [hnumber]; unfold inoAt; omega, fun init hinit => ?_⟩
  refine leavesAlone_updateElsewhere hat helsewhere fun d' hlen _ => ?_
  obtain ⟨hlen', hnew⟩ := hinit d' hlen
  refine ⟨hlen', fun hold => hother (inodeKey_injective ?_)⟩
  exact Prod.ext (hnew.1.symm.trans hold.1) (hnew.2.symm.trans hold.2)

/-! ## Changes of directories -/

theorem sameSize_renameEntry (oldName newName : List UInt16) (childIno index : UInt32) :
    Within Dtree.SameSize (renameEntry oldName newName childIno index) := by
  have hrest : Within Dtree.SameSize (do
      let _ ← Dtree.remove newName
      let _ ← Dtree.insert newName childIno index
      return () : Dtree.DtreeM Unit) :=
    Within.bind (Dtree.sameSize_remove _) fun _ => Within.bind (Dtree.sameSize_insert _ _ _) fun _ => Within.pure _
  exact Within.ite (Within.bind (Dtree.sameSize_remove _) fun _ => hrest) hrest

section Directories

variable (hkey : Dinode.HasKey (inodeKey ino) d)

include hkey

/-- A directory and its entries are read, and the entries are changed. -/
theorem leavesAlone_runDtree_bind {α β : Type} {x : Dtree.DtreeM α} (hx : Within Dtree.SameSize x)
    {g : Inode → α × Dtree → VolM β} (hg : ∀ inode a dtree, Found keep content ino b j d lo hi f inode →
      dtree.data.length = 288 → Within (LeavesAlone keep content (KeptIn ino b j d) lo hi) (g inode (a, dtree))) :
    Within (LeavesAlone keep content (KeptIn ino b j d) lo hi) (do
      let inode ← readInode f
      let result ← runDtree x (← readDtree inode)
      g inode result) := by
  refine fun v => leavesAlone_readInode_bind hkey fun inode w _ hfound => ?_
  refine Within.bind_at (Within.returnExcept _ w) fun dtree w' hdtree => ?_
  obtain ⟨hdecoded, rfl⟩ := of_returnExcept_ok hdtree
  have hdata : dtree.data.length = 288 := by
    unfold Inode.dtree Dtree.fromInodeData at hdecoded
    split at hdecoded
    · cases hdecoded
    · cases hdecoded
      exact length_slice_of_le (by rw [hfound.length]; decide)
  refine Within.bind_at (ReadSteps.runDtree _ _ w') fun ⟨a, dtree'⟩ u hrun => ?_
  exact hg inode a dtree' hfound (length_runDtree hx hdata hrun) u

variable (hne : f ≠ ino)

include hne

theorem leavesAlone_insertDirEntry (name : List UInt16) (childIno index : UInt32) :
    Within (LeavesAlone keep content (KeptIn ino b j d) lo hi) (insertDirEntry f name childIno index) :=
  leavesAlone_runDtree_bind hkey (Dtree.sameSize_insert _ _ _) fun _ _ _ hfound hsize =>
    Within.ite (Within.bind (hfound.other hne _ (isEdit_setRoot_bytes hsize)) fun _ => Within.pure _) (Within.pure _)

theorem leavesAlone_removeDirEntry (name : List UInt16) :
    Within (LeavesAlone keep content (KeptIn ino b j d) lo hi) (removeDirEntry f name) :=
  leavesAlone_runDtree_bind hkey (Dtree.sameSize_remove _) fun _ _ _ hfound hsize =>
    Within.ite (Within.bind (hfound.other hne _ (isEdit_setRoot_bytes hsize)) fun _ => Within.pure _) (Within.pure _)

theorem leavesAlone_changeNlink (g : ℕ → ℕ) :
    Within (LeavesAlone keep content (KeptIn ino b j d) lo hi) (changeNlink f g) :=
  fun _ => leavesAlone_readInode_bind hkey fun _ w _ hfound =>
    Within.bind (hfound.other hne _ (isEdit_relinked g)) (fun _ => leavesAlone_markPageDirty _ _) w

omit hkey hne

theorem leavesAlone_markInodeDirty (f : UInt32) :
    Within (LeavesAlone keep content (KeptIn ino b j d) lo hi) (markInodeDirty f) :=
  Within.bind (readSteps_leavesAlone.readInode f) fun _ => leavesAlone_markPageDirty _ _

end Directories

/-! ## New inodes -/

section Creating

variable (hfile : v.KeptFile ino b j d) (hne : f ≠ ino)

/-- An inode is allocated first. -/
theorem leavesAlone_allocateInode_bind {α : Type} {g : UInt32 × ℕ × ℕ → VolM α} (hfile : v.KeptFile ino b j d)
    (hg : ∀ child b' offset w, filesystemI ≤ child.toNat → (∀ init : List UInt8 → List UInt8,
      (∀ d', d'.length = disize → (init d').length = disize ∧ Dinode.HasKey (inodeKey child) (init d')) →
        Within (LeavesAlone keep content (KeptIn ino b j d) lo hi) (updateInodePage child b' offset init)) →
      LeavesAlone keep content (KeptIn ino b j d) lo hi w (final (g (child, b', offset) w))) :
    LeavesAlone keep content (KeptIn ino b j d) lo hi v (final ((do
      let child ← allocateInode
      g child) v)) := by
  intro h
  refine (show LeavesAlone keep content (KeptIn ino b j d) lo hi v _ from ?_) h
  refine Within.bind_at (readSteps_leavesAlone.allocateInode v) fun child w hrun => ?_
  obtain ⟨child, b', offset⟩ := child
  obtain ⟨hnumber, hinit⟩ := hfile.newPlace h hrun
  exact hg child b' offset w hnumber hinit

include hfile hne

theorem leavesAlone_enterInode (name : List UInt16) {child : UInt32} {b' offset : ℕ} {init : List UInt8 → List UInt8}
    (hinit : Within (LeavesAlone keep content (KeptIn ino b j d) lo hi) (updateInodePage child b' offset init)) :
    Within (LeavesAlone keep content (KeptIn ino b j d) lo hi) (enterInode f name (child, b', offset) init) := by
  refine Within.bind hinit fun _ => Within.bind (leavesAlone_markPageDirty _ _) fun _ => ?_
  refine Within.bind (readSteps_leavesAlone.nextEntryIndex _) fun index => ?_
  refine Within.bind (leavesAlone_insertDirEntry hfile.key hne _ _ _) fun inserted => Within.ite (Within.pure _) ?_
  exact Within.bind (leavesAlone_markInodeDirty _) fun _ => Within.pure _

theorem leavesAlone_createFileBody (name : List UInt16) :
    LeavesAlone keep content (KeptIn ino b j d) lo hi v (final (createFileBody f name v)) := by
  refine leavesAlone_allocateInode_bind hfile fun child b' offset w hnumber hinit => ?_
  refine Within.ite (Within.pure _) (leavesAlone_enterInode hfile hne name (hinit _ fun d' hlen => ?_)) w
  obtain ⟨hlen', hkey, -⟩ := newDinode_spec hlen 0x81a4 0 1 hnumber
  exact ⟨hlen', hkey⟩

theorem leavesAlone_mkdirBody (name : List UInt16) :
    LeavesAlone keep content (KeptIn ino b j d) lo hi v (final (mkdirBody f name v)) := by
  refine leavesAlone_allocateInode_bind hfile fun child b' offset w hnumber hinit => ?_
  refine Within.ite (Within.pure _) (Within.bind (hinit _ fun d' hlen => ?_) fun _ => ?_) w
  · obtain ⟨hlen', hkey, -⟩ := newDirectory_spec hlen f hnumber
    exact ⟨hlen', hkey⟩
  · refine Within.bind (leavesAlone_markPageDirty _ _) fun _ => ?_
    refine Within.bind (readSteps_leavesAlone.nextEntryIndex _) fun index => ?_
    refine Within.bind (leavesAlone_insertDirEntry hfile.key hne _ _ _) fun inserted => Within.ite (Within.pure _) ?_
    exact Within.bind (leavesAlone_changeNlink hfile.key hne _) fun _ => Within.pure _

theorem leavesAlone_mknodBody (name : List UInt16) (mode rdev : ℕ) :
    LeavesAlone keep content (KeptIn ino b j d) lo hi v (final (mknodBody f name mode rdev v)) := by
  unfold mknodBody
  split
  · exact refl_of (LeavesAlone _ _ _ _ _) v
  split
  · exact refl_of (LeavesAlone _ _ _ _ _) v
  refine leavesAlone_allocateInode_bind hfile fun child b' offset w hnumber hinit => ?_
  refine leavesAlone_enterInode hfile hne name (hinit _ fun d' hlen => ?_) w
  obtain ⟨hlen', hkey, -⟩ := newDinode_spec hlen mode 0 1 hnumber
  unfold newSpecial
  dsimp only
  split
  · have hedit := Dinode.isEdit_writeLE (show 12 ≤ 16 by decide) (show 16 + 8 ≤ disize by decide) rdev
    exact ⟨hedit.length _ hlen', (hedit.key _ _ hlen').mpr hkey⟩
  · exact ⟨hlen', hkey⟩

theorem leavesAlone_symlinkBody (name : List UInt16) (target : List UInt8) :
    LeavesAlone keep content (KeptIn ino b j d) lo hi v (final (symlinkBody f name target v)) := by
  refine leavesAlone_allocateInode_bind hfile fun child b' offset w hnumber hinit => ?_
  dsimp only
  split
  · exact refl_of (LeavesAlone _ _ _ _ _) w
  split
  · exact refl_of (LeavesAlone _ _ _ _ _) w
  · next hshort =>
      refine leavesAlone_enterInode hfile hne name (hinit _ fun d' hlen => ?_) w
      obtain ⟨hlen', hkey, -⟩ := newDinode_spec hlen 0xA1FF target.length 1 hnumber
      have hedit := Dinode.isEdit_splice (show 12 ≤ Dinode.unionOff by decide)
        (show Dinode.unionOff + target.length ≤ disize by unfold Dinode.unionOff disize; omega)
      exact ⟨hedit.length _ hlen', (hedit.key _ _ hlen').mpr hkey⟩

end Creating

/-! ## Links and removals -/

theorem isEdit_freedDinode : Dinode.IsEdit freedDinode :=
  (Dinode.isEdit_writeLE (by decide) (by decide) 0).comp
    ((Dinode.isEdit_setSize 0).comp (Dinode.isEdit_writeLE (by decide) (by decide) 0))

section Removing

variable (hfile : v.KeptFile ino b j d) (hne : f ≠ ino)

include hfile hne

theorem leavesAlone_linkFileBody (name : List UInt16) {target : UInt32} (htarget : target ≠ ino) :
    LeavesAlone keep content (KeptIn ino b j d) lo hi v (final (linkFileBody f name target v)) := by
  refine leavesAlone_readInode_bind hfile.key fun inode w _ hfound => ?_
  refine Within.ite (Within.pure _) (Within.ite (Within.pure _) ?_) w
  refine Within.bind (readSteps_leavesAlone.nextEntryIndex _) fun index => ?_
  refine Within.bind (leavesAlone_insertDirEntry hfile.key hne _ _ _) fun inserted => Within.ite (Within.pure _) ?_
  refine Within.bind (hfound.other htarget _ (isEdit_relinked fun _ => addLink inode.nlink)) fun _ => ?_
  refine Within.bind (leavesAlone_markPageDirty _ _) fun _ => ?_
  exact Within.bind (leavesAlone_markInodeDirty _) fun _ => Within.pure _

/-- A directory that is removed is not the file. -/
theorem leavesAlone_rmdirBody (name : List UInt16) :
    LeavesAlone keep content (KeptIn ino b j d) lo hi v (final (rmdirBody f name v)) := by
  refine Within.bind (leavesAlone_removeDirEntry hfile.key hne name) (fun removed => ?_) v
  cases removed with
  | none => exact Within.pure _
  | some childIno =>
      refine fun w => leavesAlone_readInode_bind hfile.key fun child w' _ hfound => ?_
      split
      · exact refl_of (LeavesAlone _ _ _ _ _) w'
      · next hdir =>
          have hother : childIno ≠ ino := by
            intro hsame
            unfold Inode.isDir at hdir
            rw [hfound.kept hsame, hfile.file] at hdir
            exact hdir rfl
          refine Within.bind (Within.returnExcept _) (fun dtree => Within.ite (Within.pure _) ?_) w'
          refine Within.bind (hfound.other hother _ isEdit_freedDinode) fun _ => ?_
          refine Within.bind (leavesAlone_markPageDirty _ _) fun _ => ?_
          exact Within.bind (leavesAlone_changeNlink hfile.key hne _) fun _ => Within.pure _

/-- **The target of a name** is freed or loses a link. -/
theorem leavesAlone_unlinkFileBody (name : List UInt16)
    (htarget : ∀ child w, removeDirEntry f name v = .ok (some child) w →
      child ≠ ino ∧ TreeClear (fun a => keep a ∨ InTable lo hi a) child w) :
    LeavesAlone keep content (KeptIn ino b j d) lo hi v (final (unlinkFileBody f name v)) := by
  refine Within.bind_at (leavesAlone_removeDirEntry hfile.key hne name v) fun removed w hrun => ?_
  cases removed with
  | none => exact refl_of (LeavesAlone _ _ _ _ _) w
  | some childIno =>
      obtain ⟨hother, htree⟩ := htarget childIno w hrun
      refine leavesAlone_readInode_bind hfile.key fun child w' hread hfound => ?_
      have hchange := hfound.other hother
      have hrest : Within (LeavesAlone keep content (KeptIn ino b j d) lo hi) (do
          markPageDirty childIno child.pageBlock
          markInodeDirty f
          return (.commit true : Exit Bool Bool)) :=
        Within.bind (leavesAlone_markPageDirty _ _) fun _ => Within.bind (leavesAlone_markInodeDirty _) fun _ =>
          Within.pure _
      refine Within.ite (Within.pure _) (Within.bind Within.get fun u => Within.ite ?_ ?_) w'
      · refine Within.bind (hchange _ isEdit_freedDinode) fun _ => Within.bind (leavesAlone_freeExtents ?_) fun _ => hrest
        exact htree.extentsOf hread
      · exact Within.bind (hchange _ (isEdit_relinked fun _ => child.nlink - 1)) fun _ => hrest

end Removing

/-! ## Renaming -/

section Renaming

variable {newParent : UInt32} (hkey : Dinode.HasKey (inodeKey ino) d) (hne : f ≠ ino) (hnew : newParent ≠ ino)

include hkey hne hnew

theorem leavesAlone_moveDirectory {childIno : UInt32} (hchild : childIno ≠ ino) :
    Within (LeavesAlone keep content (KeptIn ino b j d) lo hi) (moveDirectory childIno f newParent) := by
  refine fun v => leavesAlone_readInode_bind hkey fun child w _ hfound => ?_
  refine Within.bind (hfound.other hchild _ ?_) (fun _ => Within.bind (leavesAlone_markPageDirty _ _) fun _ => ?_) w
  · exact Dinode.isEdit_writeLE (by decide) (by decide) newParent.toNat
  · exact Within.bind (leavesAlone_changeNlink hkey hne _) fun _ => leavesAlone_changeNlink hkey hnew _

omit hne in
theorem leavesAlone_removeReplaced (newName : List UInt16) (childIsDir : Bool) :
    Within (LeavesAlone keep content (KeptIn ino b j d) lo hi) (removeReplaced newParent newName childIsDir) := by
  refine Within.bind (leavesAlone_removeDirEntry hkey hnew newName) fun removed => ?_
  split
  · exact Within.pure _
  · refine Within.bind (readSteps_leavesAlone.readInode _) fun dest => Within.bind (Within.returnExcept _) fun refused => ?_
    split
    · exact Within.pure _
    · exact Within.bind (leavesAlone_markPageDirty _ _) fun _ => Within.pure _

theorem leavesAlone_renameAcross (oldName newName : List UInt16) {childIno : UInt32} {childIsDir : Bool}
    (hchild : childIsDir = true → childIno ≠ ino) :
    Within (LeavesAlone keep content (KeptIn ino b j d) lo hi)
      (renameAcross f oldName newParent newName childIno childIsDir) := by
  refine Within.bind (leavesAlone_removeReplaced hkey hnew _ _) fun refused => ?_
  split
  · exact Within.pure _
  · refine Within.bind (readSteps_leavesAlone.nextEntryIndex _) fun index => ?_
    refine Within.bind (leavesAlone_insertDirEntry hkey hnew _ _ _) fun inserted => Within.ite (Within.pure _) ?_
    refine Within.bind (leavesAlone_markInodeDirty _) fun _ => ?_
    refine Within.bind (leavesAlone_removeDirEntry hkey hne _) fun _ => ?_
    refine Within.bind (leavesAlone_markInodeDirty _) fun _ => ?_
    cases childIsDir with
    | true => exact Within.bind (leavesAlone_moveDirectory hkey hne hnew (hchild rfl)) fun _ => Within.pure _
    | false => exact Within.pure _

omit hnew in
theorem leavesAlone_renameChecked (oldName newName : List UInt16) (childIno : UInt32) (dtree : Dtree) :
    Within (LeavesAlone keep content (KeptIn ino b j d) lo hi) (renameChecked f oldName newName childIno dtree) := by
  refine Within.bind (ReadSteps.numEntries _) fun index => ?_
  refine leavesAlone_runDtree_bind hkey (sameSize_renameEntry _ _ _ _) fun parent _ dtree hfound hsize => ?_
  exact (hfound.other hne).update_and_mark (isEdit_setRoot_bytes hsize) _

omit hnew in
theorem leavesAlone_renameWithin (oldName newName : List UInt16) (childIno : UInt32) (childIsDir : Bool) :
    Within (LeavesAlone keep content (KeptIn ino b j d) lo hi) (renameWithin f oldName newName childIno childIsDir) := by
  refine Within.bind (readSteps_leavesAlone.readInode _) fun parent => Within.bind (Within.returnExcept _) fun dtree => ?_
  refine Within.bind (Within.returnExcept _) fun found => ?_
  have hrest : Within (LeavesAlone keep content (KeptIn ino b j d) lo hi)
      (renameChecked f oldName newName childIno dtree) := leavesAlone_renameChecked hkey hne _ _ _ _
  split
  · refine Within.bind (readSteps_leavesAlone.readInode _) fun dest => Within.bind (Within.returnExcept _) fun refused => ?_
    split
    · exact Within.pure _
    · exact hrest
  · exact hrest

theorem leavesAlone_renameBody (hfile : Dinode.isDir d = false) (oldName newName : List UInt16) :
    Within (LeavesAlone keep content (KeptIn ino b j d) lo hi) (renameBody f oldName newParent newName) := by
  refine Within.ite (Within.pure _) (Within.ite (Within.pure _) ?_)
  refine Within.bind (readSteps_leavesAlone.readInode _) fun parent => Within.bind (Within.returnExcept _) fun dtree => ?_
  refine Within.bind (Within.returnExcept _) fun found => ?_
  split
  · exact Within.pure _
  · next entry =>
      refine fun w => leavesAlone_readInode_bind hkey fun child w' _ hfound => ?_
      -- a directory is not the file
      have hchild : child.isDir = true → entry.inumber ≠ ino := by
        intro hdir hsame
        unfold Inode.isDir at hdir
        rw [hfound.kept hsame, hfile] at hdir
        cases hdir
      exact Within.ite (leavesAlone_renameAcross hkey hne hnew _ _ hchild) (leavesAlone_renameWithin hkey hne _ _ _ _) w'

end Renaming

/-! ## Moving extents -/

/-- What `copy_file_range` does to the source. -/
def takeSource (srcIno : UInt32) (srcOffset len : ℕ) : VolM Unit := do
  let srcInode ← readInode srcIno
  let srcXtree ← returnExcept srcInode.xtree
  let taken := srcXtree.takeExtents (srcOffset / blockSize) ((srcOffset / blockSize : ℕ) + (len / blockSize : ℕ))
  updateInode srcIno srcInode (setXtree taken.2 (computeNblocks taken.2 srcInode.nblocks))
  markPageDirty srcIno srcInode.pageBlock

section Copying

variable {dst : UInt32} (hkey : Dinode.HasKey (inodeKey ino) d) (hne : f ≠ ino) (hdst : dst ≠ ino)

include hkey hne hdst

theorem leavesAlone_copyFileRangeBody {srcOffset dstOffset len : ℕ}
    (htree : ∀ w, takeSource f srcOffset len v = .ok () w → TreeClear (fun a => keep a ∨ InTable lo hi a) dst w) :
    LeavesAlone keep content (KeptIn ino b j d) lo hi v (final (copyFileRangeBody f srcOffset dst dstOffset len v)) := by
  refine leavesAlone_readInode_bind hkey fun src w hread hfound => ?_
  refine Within.bind_at (Within.returnExcept _ w) fun xtree w' hreturn => ?_
  obtain ⟨hxtree, rfl⟩ := of_returnExcept_ok hreturn
  dsimp only
  split
  · exact refl_of (LeavesAlone _ _ _ _ _) w'
  refine Within.bind_at (hfound.other hne _ (isEdit_setXtree _ _) w') fun _ w₁ hupdate => ?_
  refine Within.bind_at (leavesAlone_markPageDirty _ _ w₁) fun _ w₂ hmark => ?_
  have htake : takeSource f srcOffset len v = .ok () w₂ := by
    unfold takeSource
    rw [bind_ok hread, bind_ok hreturn]
    exact (bind_ok hupdate).trans hmark
  refine leavesAlone_readXtree_bind hkey hdst (htree w₂ htake) fun dstInode dstXtree u hclear hchange => ?_
  refine Within.bind (leavesAlone_freeExtents (hclear.punchExtents ?_)) (fun _ => ?_) u
  · exact le_add_of_nonneg_right (by positivity)
  split
  · exact Within.pure _
  · exact hchange.update_and_mark (isEdit_resize _ _ _) _

end Copying

/-! ## Handles -/

theorem leavesAlone_openFile (f : UInt32) : Within (LeavesAlone keep content (KeptIn ino b j d) lo hi) (openFile f) :=
  Within.bind (readSteps_leavesAlone.readInode f) fun _ _ => leavesAlone_of_eq rfl rfl rfl rfl rfl rfl

theorem leavesAlone_fsyncBody (f : UInt32) : Within (LeavesAlone keep content (KeptIn ino b j d) lo hi) (fsyncBody f) :=
  Within.bind (readSteps_leavesAlone.readInode f) fun _ => Within.bind (leavesAlone_flush _) fun _ =>
    Within.bind (leavesAlone_markPageDirty _ _) fun _ => Within.pure _

theorem leavesAlone_releaseFile (hkey : Dinode.HasKey (inodeKey ino) d) (hne : f ≠ ino)
    (htree : TreeClear (fun a => keep a ∨ InTable lo hi a) f v) :
    LeavesAlone keep content (KeptIn ino b j d) lo hi v (final (releaseFile f v)) := by
  refine leavesAlone_readInode_bind hkey fun inode w hread hfound => ?_
  refine Within.bind_from (leavesAlone_of_eq rfl rfl rfl rfl rfl rfl) fun _ u => leavesAlone_transaction ?_
  refine Within.bind Within.get (fun u' => Within.ite ?_ (Within.pure _)) u.begun
  refine Within.bind (leavesAlone_freeExtents (htree.extentsOf hread)) fun _ => ?_
  exact Within.bind (hfound.other hne _ (Dinode.isEdit_writeLE (by decide) (by decide) 0)) fun _ =>
    Within.bind (leavesAlone_markPageDirty _ _) fun _ => Within.pure _

end Bodies

end Volume

/-! ## Runs -/

namespace Operation

open Volume

/-- The call is about other inodes than `ino`, and no block of `keep` is in the tree of an inode
whose blocks it writes or frees.  The range of `fallocate` does not wrap around. -/
def Beside (keep : ℕ → Prop) (ino : UInt32) : Operation → Volume → Prop
  | writeAt f _ _, v | writeAtWithInterrupt f _ _ _, v | truncate f _, v => f ≠ ino ∧ TreeClear keep f v.begun
  | fallocate f offset len _, v => f ≠ ino ∧ TreeClear keep f v.begun ∧ offset + len + blockSize ≤ 2 ^ 64
  | copyFileRangeExtent src srcOffset dst _ len, v =>
      src ≠ ino ∧ dst ≠ ino ∧ ∀ w, takeSource src srcOffset len v.begun = .ok () w → TreeClear keep dst w
  | unlinkFile parent name, v => parent ≠ ino ∧ ∀ child w,
      removeDirEntry parent (encodeUtf16 name) v.begun = .ok (some child) w → child ≠ ino ∧ TreeClear keep child w
  | releaseFile f, v => f ≠ ino ∧ TreeClear keep f v
  | setattr f _, _ | setxattr f _ _ _, _ | removexattr f _, _ => f ≠ ino
  | createFile parent _, _ | mkdir parent _, _ | mknod parent _ _ _, _ | symlink parent _ _, _
  | rmdir parent _, _ => parent ≠ ino
  | rename oldParent _ newParent _, _ => oldParent ≠ ino ∧ newParent ≠ ino
  | linkFile parent _ target, _ => parent ≠ ino ∧ target ≠ ino
  | fsync _, _ | openFile _, _ => True

/-- So is every call of a run. -/
def AllBeside (keep : ℕ → Prop) (ino : UInt32) : List Operation → Volume → Prop
  | [], _ => True
  | op :: rest, v => op.Beside keep ino v ∧ AllBeside keep ino rest (op.after v)

end Operation

namespace Volume

section Runs

variable {keep : ℕ → Prop} {content : ℕ → List UInt8} {lo hi : ℕ} {v : Volume} {ino : UInt32} {b j : ℕ} {d : List UInt8}

/-- **A call beside a file**, whether it returns or fails. -/
theorem leavesAlone_after (hfile : v.KeptFile ino b j d) {op : Operation}
    (hop : op.Beside (fun a => keep a ∨ InTable lo hi a) ino v) :
    LeavesAlone keep content (KeptIn ino b j d) lo hi v (op.after v) := by
  have hkey := hfile.key
  have hbegun : v.begun.KeptFile ino b j d := ⟨hfile.key, hfile.used, hfile.file, hfile.slot, hfile.low, hfile.number⟩
  unfold Operation.after
  cases op with
  | writeAt f offset data =>
      rw [Operation.run, Operation.final_forget]
      exact leavesAlone_writeAtWithInterrupt (leavesAlone_writeAtBody hkey hop.1 _ _ _ hop.2)
  | writeAtWithInterrupt f offset data token =>
      rw [Operation.run, Operation.final_forget]
      exact leavesAlone_writeAtWithInterrupt (leavesAlone_writeAtBody hkey hop.1 _ _ _ hop.2)
  | truncate f newSize => exact leavesAlone_transaction (leavesAlone_truncateBody hkey hop.1 _ hop.2)
  | fallocate f offset len mode =>
      show LeavesAlone keep content (KeptIn ino b j d) lo hi v (final (fallocate f offset len mode v))
      unfold fallocate
      split
      · exact refl_of (LeavesAlone _ _ _ _ _) v
      · exact leavesAlone_transaction (leavesAlone_fallocateBody hkey hop.1 hop.2.2 hop.2.1)
  | copyFileRangeExtent src srcOffset dst dstOffset len =>
      rw [Operation.run, Operation.final_forget]
      unfold copyFileRangeExtent
      split
      · exact refl_of (LeavesAlone _ _ _ _ _) v
      · exact leavesAlone_transaction (leavesAlone_copyFileRangeBody hkey hop.1 hop.2.1 hop.2.2)
  | setattr f change => exact leavesAlone_transaction (leavesAlone_setattrBody hkey hop _)
  | fsync f => exact leavesAlone_transaction (leavesAlone_fsyncBody f _)
  | createFile parent name =>
      rw [Operation.run, Operation.final_forget]
      exact leavesAlone_transaction (leavesAlone_createFileBody hbegun hop _)
  | mkdir parent name =>
      rw [Operation.run, Operation.final_forget]
      exact leavesAlone_transaction (leavesAlone_mkdirBody hbegun hop _)
  | mknod parent name mode rdev =>
      rw [Operation.run, Operation.final_forget]
      exact leavesAlone_transaction (leavesAlone_mknodBody hbegun hop _ _ _)
  | rename oldParent oldName newParent newName =>
      rw [Operation.run, Operation.final_forget]
      exact leavesAlone_transaction (leavesAlone_renameBody hkey hop.1 hop.2 hfile.file _ _ _)
  | rmdir parent name =>
      rw [Operation.run, Operation.final_forget]
      exact leavesAlone_transaction (leavesAlone_rmdirBody hbegun hop _)
  | unlinkFile parent name =>
      rw [Operation.run, Operation.final_forget]
      exact leavesAlone_transaction (leavesAlone_unlinkFileBody hbegun hop.1 _ hop.2)
  | linkFile parent name target =>
      rw [Operation.run, Operation.final_forget]
      exact leavesAlone_transaction (leavesAlone_linkFileBody hbegun hop.1 _ hop.2)
  | symlink parent name target =>
      rw [Operation.run, Operation.final_forget]
      exact leavesAlone_transaction (leavesAlone_symlinkBody hbegun hop _ _)
  | setxattr f name value flags => exact leavesAlone_transaction (leavesAlone_setxattrBody hkey hop _ _ _)
  | removexattr f name =>
      rw [Operation.run, Operation.final_forget]
      exact leavesAlone_transaction (leavesAlone_removexattrBody hkey hop _)
  | openFile f => exact leavesAlone_openFile f v
  | releaseFile f => exact leavesAlone_releaseFile hkey hop.1 hop.2

theorem KeptFile.after (hfile : v.KeptFile ino b j d) (op : Operation) : (op.after v).KeptFile ino b j d := by
  have hait2 : (op.after v).ait2 = v.ait2 := (runSteps_allocated.calls.operation op v).ait2
  exact ⟨hfile.key, hfile.used, hfile.file, hfile.slot, hait2 ▸ hfile.low, hait2 ▸ hfile.number⟩

theorem Undisturbed.afterAll (h : v.Undisturbed keep content (KeptIn ino b j d) lo hi) (hfile : v.KeptFile ino b j d)
    {ops : List Operation} (hops : Operation.AllBeside (fun a => keep a ∨ InTable lo hi a) ino ops v) :
    (Operation.afterAll ops v).Undisturbed keep content (KeptIn ino b j d) lo hi := by
  induction ops generalizing v with
  | nil => exact h
  | cons op rest ih => exact ih (leavesAlone_after hfile hops.1 h) (hfile.after op) hops.2

/-- What `read` finds of the file is what its inode and its blocks say. -/
theorem Undisturbed.of_readFile {xtree : Xtree} {v' w w' : Volume}
    (h : v.Undisturbed (· ∈ xtree.blocks) content (KeptIn ino b j d) lo hi)
    (h' : v'.Undisturbed (· ∈ xtree.blocks) content (KeptIn ino b j d) lo hi) (hkey : Dinode.HasKey (inodeKey ino) d)
    (hxtree : Xtree.fromInodeData (Dinode.root d) = .ok xtree) {offset length : ℕ} {data data' : List UInt8}
    (hrun : FuseFs.readFile ino offset length v = .ok data w)
    (hrun' : FuseFs.readFile ino offset length v' = .ok data' w') : data' = data := by
  obtain ⟨inode, u, hread, hrun⟩ := of_bind_ok hrun
  obtain ⟨inode', u', hread', hrun'⟩ := of_bind_ok hrun'
  have hinode := (h.found hkey hread).kept rfl
  have hinode' := (h'.found hkey hread').kept rfl
  have hsize : inode'.size = inode.size := by
    unfold Inode.size
    rw [hinode, hinode']
  rw [hsize] at hrun'
  split at hrun
  · next hend =>
      rw [if_pos hend] at hrun'
      cases hrun
      cases hrun'
      rfl
  · next hinside =>
      rw [if_neg hinside] at hrun'
      unfold Inode.xtree at hrun hrun'
      rw [hinode, hxtree, bind_ok (returnExcept_ok xtree u)] at hrun
      rw [hinode', hxtree, bind_ok (returnExcept_ok xtree u')] at hrun'
      obtain ⟨s, hdata, -⟩ := of_zoom_ok hrun
      obtain ⟨s', hdata', -⟩ := of_zoom_ok hrun'
      refine Xtree.readData_congr (fun a ha => ?_) hdata hdata'
      obtain ⟨txMgr, faults, rfl, -⟩ := Quiet.of_run (reads_quiet.readInode ino) hread
      obtain ⟨txMgr', faults', rfl, -⟩ := Quiet.of_run (reads_quiet.readInode ino) hread'
      exact (h'.blocks a ha).trans (h.blocks a ha).symm

end Runs

end Volume

/-! ## Two files -/

/-- The extent root of a file of two blocks. -/
def Xtree.twoBlocks : Xtree where
  header := { nextindex := 3 }
  xad := (Vector.replicate xtRootMaxSlot {}).set 2 { loc := { lenAddr := 2, addr2 := 105 } } entryStart_lt

namespace Volume

/-- The inode of the file that is kept. -/
def keptInode : List UInt8 :=
  Dinode.setNumber 0 (fileInode Xtree.threeBlocks 12288)

/-- The inode of the file beside it. -/
def besideInode : List UInt8 :=
  Dinode.setNumber 8 (fileInode Xtree.twoBlocks 8192)

/-- A volume with both files, whose blocks hold ones. -/
def twoFiles : Volume :=
  oneInode keptInode (Memory.write (fun i => if 100 * blockSize ≤ i then 1 else 0) (5 * blockSize)
    (Mkfs.inodeBlock 0 besideInode))

/-- An inode of a file under another number. -/
theorem numberedInode_spec (xtree : Xtree) (size : ℕ) {n : ℕ} (hn : n < 2 ^ 32) :
    (Dinode.setNumber n (fileInode xtree size)).length = disize ∧
      Dinode.HasKey (filesystemI, n) (Dinode.setNumber n (fileInode xtree size)) ∧
      Dinode.mode (Dinode.setNumber n (fileInode xtree size)) = 0x81a4 ∧
      Dinode.size (Dinode.setNumber n (fileInode xtree size)) = size % 2 ^ 64 ∧
      Xtree.fromInodeData (Dinode.root (Dinode.setNumber n (fileInode xtree size))) = .ok xtree.stored := by
  have hlen := length_fileInode xtree size
  have hmode : Dinode.mode (fileInode xtree size) = 0x81a4 := by
    have hsize : Dinode.KeepsFlags (Dinode.setSize size) :=
      Dinode.keepsFlags_writeLE (by decide) (by decide) (by decide) size
    have hxtree : Dinode.KeepsFlags (setXtree xtree xtree.totalBlocks) :=
      (Dinode.keepsFlags_writeLE (by decide) (by decide) (by decide) _).comp
        (keepsFlags_setRoot xtree.length_toBytes)
    refine (hxtree.mode _ (hsize.length _ length_emptyInode)).trans ((hsize.mode _ length_emptyInode).trans ?_)
    decide +kernel
  unfold Dinode.setNumber
  refine ⟨length_write hlen 8 4 (by decide) n, ⟨?_, ?_⟩, ?_, ?_, ?_⟩
  · exact (readLE_write hlen (by decide) (by decide) n).trans (hasKey_fileInode xtree size).1
  · exact (readLE_write_self hlen (by decide) n).trans (Nat.mod_eq_of_lt hn)
  · exact (readLE_write hlen (by decide) (by decide) n).trans hmode
  · exact (readLE_write hlen (by decide) (by decide) n).trans (size_fileInode xtree size)
  · unfold Dinode.root
    rw [slice_write hlen (by decide) (by decide) n]
    exact xtree_fileInode xtree size

theorem length_keptInode : keptInode.length = disize :=
  (numberedInode_spec Xtree.threeBlocks 12288 (show 0 < 2 ^ 32 by decide)).1

theorem length_besideInode : besideInode.length = disize :=
  (numberedInode_spec Xtree.twoBlocks 8192 (show 8 < 2 ^ 32 by decide)).1

/-- The two inodes are the only ones of the table. -/
theorem slotOf_twoFiles {block j : ℕ} (hin : InTable 4 35 block) (hj : j < inosPerPage) :
    slotOf (twoFiles.storage.block block) j =
      if block = 4 ∧ j = 0 then keptInode else if block = 5 ∧ j = 0 then besideInode else zeros disize := by
  obtain ⟨hlow, hhigh⟩ := hin
  have hkept := Mkfs.length_inodeBlock (show 0 < inosPerPage by decide) length_keptInode
  have hbeside := Mkfs.length_inodeBlock (show 0 < inosPerPage by decide) length_besideInode
  by_cases hfour : block = 4
  · subst hfour
    rw [show twoFiles.storage.block 4 = Mkfs.inodeBlock 0 keptInode from block_oneInode_table _ length_keptInode,
      slotOf_inodeBlock (by decide) length_keptInode hj]
    simp
  · have hread : twoFiles.storage.block block = Memory.read (Memory.write (fun i => if 100 * blockSize ≤ i then 1 else 0)
        (5 * blockSize) (Mkfs.inodeBlock 0 besideInode)) (block * blockSize) blockSize := by
      refine Memory.read_write_of_disjoint ?_
      rw [hkept]
      unfold blockSize
      omega
    rw [if_neg fun hplace => hfour hplace.1, hread]
    by_cases hfive : block = 5
    · subst hfive
      have hself := Memory.read_write_self (fun i => if 100 * blockSize ≤ i then (1 : UInt8) else 0) (5 * blockSize)
        (Mkfs.inodeBlock 0 besideInode)
      rw [hbeside] at hself
      rw [hself, slotOf_inodeBlock (by decide) length_besideInode hj]
      simp
    · have hblank : Memory.read (Memory.write (fun i => if 100 * blockSize ≤ i then (1 : UInt8) else 0)
          (5 * blockSize) (Mkfs.inodeBlock 0 besideInode)) (block * blockSize) blockSize = zeros blockSize := by
        refine (Memory.read_write_of_disjoint ?_).trans ?_
        · rw [hbeside]
          unfold blockSize
          omega
        · unfold zeros
          refine List.ext_getElem? fun i => ?_
          rw [Memory.getElem?_read, List.getElem?_replicate]
          split
          · rw [if_neg (by unfold blockSize at *; omega)]
          · rfl
      rw [if_neg fun hplace => hfive hplace.1, hblank]
      exact slotOf_zeros hj

/-- Block 100 holds ones. -/
theorem block_twoFiles : (twoFiles.storage.block 100).getD 0 0 = 1 := by
  have hkept := Mkfs.length_inodeBlock (show 0 < inosPerPage by decide) length_keptInode
  have hbeside := Mkfs.length_inodeBlock (show 0 < inosPerPage by decide) length_besideInode
  have hread : twoFiles.storage.block 100 =
      Memory.read (fun i => if 100 * blockSize ≤ i then (1 : UInt8) else 0) (100 * blockSize) blockSize := by
    refine (Memory.read_write_of_disjoint ?_).trans (Memory.read_write_of_disjoint ?_)
    · rw [hkept]
      unfold blockSize
      omega
    · rw [hbeside]
      unfold blockSize
      omega
  rw [hread, List.getD_eq_getElem?_getD, Memory.getElem?_read, if_pos (by decide)]
  simp

theorem slotsHold_twoFiles : twoFiles.SlotsHold (fun b j d => d = slotOf (twoFiles.storage.block b) j) 4 35 :=
  slotsHold_oneInode fun _ _ _ _ => rfl

theorem keptFile_twoFiles : twoFiles.KeptFile 16 4 0 keptInode := by
  obtain ⟨-, hkey, hmode, -⟩ := numberedInode_spec Xtree.threeBlocks 12288 (show 0 < 2 ^ 32 by decide)
  have haddress : twoFiles.ait2.address = 4 := ait2_oneInode _
  refine ⟨hkey, ?_, ?_, by decide, haddress.le, ?_⟩
  · rw [keptInode, hmode]
    decide
  · unfold Dinode.isDir Dinode.fileType
    rw [keptInode, hmode]
    decide
  · rw [haddress]
    rfl

/-- Blocks that are in use keep their bytes, whichever inode the table is watched for. -/
theorem undisturbed_twoFiles_of {keep : ℕ → Prop} {ino : UInt32} {b j : ℕ} {d : List UInt8}
    (hkeep : ∀ a, keep a → 100 ≤ a ∧ a < 110) (hslots : twoFiles.SlotsHold (KeptIn ino b j d) 4 35) :
    twoFiles.Undisturbed keep twoFiles.storage.block (KeptIn ino b j d) 4 35 := by
  refine ⟨hslots, fun a ha hin => ?_, fun key page hpeek => ?_, fun i hi => ?_,
    ⟨_, rfl, by decide, fun a ha => ?_, fun a _ => BlockAllocMap.not_covers_nil a, fun page hpage hkept => ?_⟩,
    fun _ _ => rfl⟩
  · have hlow := (hkeep a ha).1
    have hhigh := hin.2
    omega
  · exact absurd (hpeek.symm.trans (PageCache.peek_new ..)) (by simp)
  · obtain ⟨lm, hlm, -⟩ := hi
    cases hlm
  · refine decide_eq_false fun hfree => ?_
    rcases ha with hkept | hin
    · have hhigh := (hkeep a hkept).2
      omega
    · have hhigh := hin.2
      omega
  · have hpage : page ≤ 1 := by
      rcases hpage with hle | hmem
      · have hle : page ≤ 1 + 128 / blocksPerDmap := hle
        unfold blocksPerDmap at hle
        omega
      · cases hmem
    rcases hkept with hkept | hin
    · have hlow : 100 ≤ 1 + page := (hkeep _ hkept).1
      omega
    · have hlow : 4 ≤ 1 + page := hin.1
      omega

theorem undisturbed_twoFiles : twoFiles.Undisturbed (· ∈ Xtree.threeBlocks.stored.blocks) twoFiles.storage.block
    (KeptIn 16 4 0 keptInode) 4 35 := by
  have hblocks : ∀ a ∈ Xtree.threeBlocks.stored.blocks, 100 ≤ a ∧ a < 110 := by decide
  refine undisturbed_twoFiles_of hblocks (slotsHold_oneInode fun block hin j hj => ?_)
  have hslot := slotOf_twoFiles hin hj
  unfold twoFiles at hslot
  rw [hslot]
  unfold KeptIn
  split
  · rfl
  · split
    · obtain ⟨-, hkey, -⟩ := numberedInode_spec Xtree.twoBlocks 8192 (show 8 < 2 ^ 32 by decide)
      intro hsame
      exact absurd (hsame.2.symm.trans hkey.2) (by decide)
    · decide +kernel

/-- The same for the other file. -/
theorem undisturbed_beside_twoFiles : twoFiles.Undisturbed (· ∈ Xtree.twoBlocks.stored.blocks) twoFiles.storage.block
    (KeptIn 24 5 0 besideInode) 4 35 := by
  have hblocks : ∀ a ∈ Xtree.twoBlocks.stored.blocks, 100 ≤ a ∧ a < 110 := by decide
  refine undisturbed_twoFiles_of hblocks (slotsHold_oneInode fun block hin j hj => ?_)
  have hslot := slotOf_twoFiles hin hj
  unfold twoFiles at hslot
  rw [hslot]
  unfold KeptIn
  split
  · next hplace => exact if_neg (by omega)
  · split
    · obtain ⟨-, hkey, -⟩ := numberedInode_spec Xtree.threeBlocks 12288 (show 0 < 2 ^ 32 by decide)
      intro hsame
      exact absurd (hsame.2.symm.trans hkey.2) (by decide)
    · decide +kernel

/-- The tree of the other file lies apart. -/
theorem treeClear_twoFiles :
    TreeClear (fun a => a ∈ Xtree.threeBlocks.stored.blocks ∨ InTable 4 35 a) 24 twoFiles.begun := by
  intro inode w xtree hread hxtree
  obtain ⟨-, hkey, -, -, htree⟩ := numberedInode_spec Xtree.twoBlocks 8192 (show 8 < 2 ^ 32 by decide)
  have hslots := keeps_begun twoFiles slotsHold_twoFiles
  obtain ⟨-, j, hj, hin, -, ⟨data, hshows, hdata, hdinode⟩, found, hfound, hwhole, hother⟩ := hslots.of_readInode hread
  have hslot := hslots.slots _ _ hin hfound hwhole j hj
  have hdinode' := hslots.slots _ _ hin hshows hdata j hj
  rw [slotOf_twoFiles hin hj] at hslot hdinode'
  have hbeside : inode.dinode = besideInode := by
    rw [hdinode, hdinode']
    rw [hslot] at hother
    split
    · next hplace =>
        rw [if_pos hplace] at hother
        exact absurd (hother.2.symm.trans keptFile_twoFiles.key.2) (by decide)
    · next helsewhere =>
        rw [if_neg helsewhere] at hother
        split
        · rfl
        · next hempty =>
            rw [if_neg hempty] at hother
            exact absurd hother (by decide +kernel)
  unfold Inode.xtree at hxtree
  rw [hbeside, besideInode, htree] at hxtree
  cases hxtree
  unfold ClearOf InTable
  decide

/-- The first byte of the file is read. -/
theorem readFile_twoFiles : FuseFs.readFile 16 0 1 twoFiles = .ok [1] twoFiles := by
  have hcalm : twoFiles.Calm := (settled_oneInode _).toCalm
  obtain ⟨-, hkey, -, hsize, hxtree⟩ := numberedInode_spec Xtree.threeBlocks 12288 (show 0 < 2 ^ 32 by decide)
  have haddress : twoFiles.ait2.address = 4 := ait2_oneInode _
  have hslot := slotOf_twoFiles (show InTable 4 35 4 by unfold InTable; decide) (show 0 < inosPerPage by decide)
  rw [if_pos ⟨rfl, rfl⟩] at hslot
  have hshown : twoFiles.shown 4 = twoFiles.storage.block 4 := by
    unfold shown
    rw [show twoFiles.pageCache.peekBlock 4 = none from PageCache.peekBlock_new .., Option.map_none, Option.getD_none]
  have hfound : twoFiles.FoundAt 16 4 0 := by
    refine ⟨haddress.le, ?_, show 4 < 128 by decide, by decide, ?_, fun b' j' hlow hbefore _ => ?_⟩
    · rw [haddress]
      unfold scanSlack
      omega
    · rw [hshown, hslot]
      exact hkey
    · omega
  have hread := hcalm.readInode_of_foundAt hfound
  have hinode : (twoFiles.inodeAt 16 4 0).dinode = keptInode := by
    have hown : twoFiles.own 16 4 = twoFiles.storage.block 4 := by
      unfold own
      rw [show twoFiles.pageCache.peek (16, 4) = none from PageCache.peek_new .., Option.map_none, Option.getD_none]
    unfold inodeAt
    dsimp only
    rw [hown, hslot]
  have hlength : (twoFiles.inodeAt 16 4 0).size = 12288 := by
    unfold Inode.size
    rw [hinode, keptInode, hsize]
    rfl
  have htree : (twoFiles.inodeAt 16 4 0).xtree = .ok Xtree.threeBlocks.stored := by
    unfold Inode.xtree
    rw [hinode]
    exact hxtree
  have hphysical : Xtree.threeBlocks.stored.physical (0 / blockSize) = some 100 := by decide
  have hdata : Xtree.threeBlocks.stored.readData 0 1 twoFiles.storage =
      .ok [Xtree.threeBlocks.stored.byteAt twoFiles.storage 0] twoFiles.storage := by
    refine Xtree.readData_one fun a ha => ?_
    cases hphysical.symm.trans ha
    exact ⟨by decide, hcalm.readBlock (show 100 < 128 by decide)⟩
  have hbyte : Xtree.threeBlocks.stored.byteAt twoFiles.storage 0 = 1 := by
    unfold Xtree.byteAt
    rw [hphysical, Option.map_some, Option.getD_some, Nat.zero_mod]
    exact block_twoFiles
  unfold FuseFs.readFile
  rw [bind_ok hread, hlength, if_neg (by decide), htree, bind_ok (returnExcept_ok _ twoFiles)]
  rw [hbyte] at hdata
  have hone : min 1 (12288 - 0) = 1 := by omega
  rw [hone]
  exact zoom_ok hdata

end Volume

end JfsFuse
