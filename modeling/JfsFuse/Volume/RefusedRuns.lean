import JfsFuse.Volume.NewDirectories
import JfsFuse.Volume.RefusedCall

/-!
# Runs with refused calls

Calls that are refused before their first update leave nothing behind, in whatever run they are
made.  A call that has removed an entry before it looks at the inode is refused too late: the root of
the parent stays in the cache without the entry.
-/

namespace JfsFuse

open ByteBuf Program

namespace Volume

/-- What is observed of an inode that is found. -/
theorem Calm.observed_eq {v : Volume} (h : v.Calm) {ino : UInt32} {b j : ℕ} (hfound : v.FoundAt ino b j) :
    v.observed ino = .ok (v.inodeAt ino b j) := by
  have hcalm : v.view.Calm := ⟨rfl, h.size, h.pages⟩
  have hread := hcalm.readInode_of_foundAt
    ⟨hfound.low, hfound.high, hfound.inside, hfound.slot, hfound.key, hfound.first⟩
  unfold observed
  rw [hread]
  rfl

/-- An abort before the first mark leaves the pages and the blocks as they are. -/
theorem InCall.of_abort {v w v' : Volume} {pages : List ((UInt32 × ℕ) × List UInt8)} (h : InCall v pages [] w)
    (habort : abortTransaction w = .ok () v') : v'.pageCache = w.pageCache ∧ v'.storage = w.storage ∧
      v'.ait2 = w.ait2 ∧ v'.aggSize = w.aggSize ∧ v'.txMgr.active = none := by
  obtain ⟨active, hactive, hdirty⟩ := h.active
  unfold abortTransaction at habort
  rw [modify_apply] at habort
  simp only [hactive] at habort
  cases habort
  refine ⟨?_, rfl, rfl, rfl, rfl⟩
  show w.pageCache.abortPages active.dirtyPages = w.pageCache
  rw [hdirty]
  rfl

/-- **An entry that was removed in a call that is then aborted** stays out of the root that is observed. -/
theorem HasTable.observed_of_removed {n : ℕ} {table : ℕ → ℕ → List UInt8} {v w v' : Volume} (h : v.HasTable n table)
    {parent : UInt32} {b j : ℕ} (hparent : foundIn table parent b j = true) {d' : Dtree} (hsize : d'.data.length = 288)
    (hw : InCall v [((parent, b), updateAt (j * disize) (Dinode.setRoot d'.toBytes) (v.storage.block b))] [] w)
    (habort : abortTransaction w = .ok () v') :
    ∃ inode, v'.observed parent = .ok inode ∧ Dinode.root inode.dinode = d'.data := by
  obtain ⟨hlow, hhigh, hj⟩ := bounds_of_foundIn hparent
  have hedit : Dinode.IsEdit (Dinode.setRoot d'.toBytes) := isEdit_setRoot_bytes hsize
  have hlen := v.storage.length_block b
  have hfound : w.FoundAt parent b j := by
    refine hw.foundAt h.toResting (h.foundAt hparent) fun p hp k _ _ => ?_
    rw [List.mem_singleton.mp hp]
    dsimp only
    rw [slotOf_updateAt hlen hj hedit]
    split
    · next heq =>
        rw [heq]
        exact hedit.key _ _ (length_slotOf hlen hj)
    · exact Iff.rfl
  obtain ⟨hcache, hstorage, hait2, hagg, -⟩ := hw.of_abort habort
  have hw' := hw.calm h.toCalm
  have hshown : ∀ block, v'.shown block = w.shown block := by
    intro block
    unfold shown
    rw [hcache, hstorage]
  have hcalm : v'.Calm := by
    refine ⟨hstorage ▸ hw'.faults, hstorage ▸ hagg ▸ hw'.size, fun key page hpage => hw'.pages key page ?_⟩
    rwa [← hcache]
  have hfound' : v'.FoundAt parent b j := by
    refine ⟨hait2 ▸ hfound.low, hait2 ▸ hfound.high, hagg ▸ hfound.inside, hj, ?_, ?_⟩
    · rw [hshown]
      exact hfound.key
    · intro b' j' hlow' hbefore hj' hkey
      rw [hshown] at hkey
      exact hfound.first b' j' (hait2 ▸ hlow') hbefore hj' hkey
  refine ⟨_, hcalm.observed_eq hfound', ?_⟩
  have hown : v'.own parent b = w.own parent b := by
    unfold own
    rw [hcache, hstorage]
  show Dinode.root (slotOf (v'.own parent b) j) = d'.data
  rw [hown, hw.caches.own_of_mem (List.mem_singleton_self _), slotOf_updateAt hlen hj hedit, if_pos rfl]
  exact root_setRoot_bytes hsize (length_slotOf hlen hj)

end Volume

namespace Operation

open Volume

/-- No refused call on names of the run gets as far as its first update. -/
def StopsEarly : List Operation → Volume → Prop
  | [], _ => True
  | op :: ops, v =>
      (op.isNamespace = true → op.refused v = true → ¬ op.Updates v) ∧ StopsEarly ops (op.after v)

/-- The calls of the run are calls on names, and all of them are refused. -/
def AllRefused : List Operation → Volume → Prop
  | [], _ => True
  | op :: ops, v => op.isNamespace = true ∧ op.refused v = true ∧ AllRefused ops (op.after v)

theorem StopsEarly.of_append {before after : List Operation} {v : Volume}
    (h : StopsEarly (before ++ after) v) : StopsEarly after (afterAll before v) := by
  induction before generalizing v with
  | nil => exact h
  | cons op rest ih => exact ih h.2

theorem untouched_of_allRefused {calls later : List Operation} {v : Volume}
    (hearly : StopsEarly (calls ++ later) v) (hrefused : AllRefused calls v) :
    Untouched v (afterAll calls v) := by
  induction calls generalizing v with
  | nil => exact refl_of Untouched v
  | cons op rest ih =>
      obtain ⟨hnames, hop, hrest⟩ := hrefused
      obtain ⟨hfirst, hlater⟩ := hearly
      exact trans_of Untouched (untouched_of_not_updates hnames (hfirst hnames hop)) (ih hlater hrest)

/-- **Refused calls are without effect** in a run in which every refused call stops before its
first update. -/
theorem refused_calls_untouched (v : Volume) (before calls later : List Operation)
    (hearly : StopsEarly (before ++ (calls ++ later)) v)
    (hrefused : AllRefused calls (afterAll before v)) :
    Untouched (afterAll before v) (afterAll calls (afterAll before v)) ∧
      ∀ ino, (afterAll calls (afterAll before v)).observed ino = (afterAll before v).observed ino := by
  have hsame := untouched_of_allRefused hearly.of_append hrefused
  exact ⟨hsame, hsame.observed⟩

/-- A call with an empty name, on a new filesystem. -/
theorem refused_mknod_untouched : ∃ v : Volume,
    openFromStorage (Mkfs.createFilesystemWithBlocks 4096) = .ok v (Mkfs.createFilesystemWithBlocks 4096) ∧
      Untouched v (afterAll [mknod 18 "" 0x1000 0] v) ∧
      ∀ ino, (afterAll [mknod 18 "" 0x1000 0] v).observed ino = v.observed ino := by
  obtain ⟨v, hopen, h⟩ := exists_hasTable le_rfl (by norm_num)
  have hname : (!validName (encodeUtf16 "")) = true := by decide
  have hfirst : (mknod 18 "" 0x1000 0).firstUpdate v.begun = .ok false v.begun := by
    show (if !validName (encodeUtf16 "") then return false
      else if 0x1000 / 0x1000 % 0x10 ∉ specialTypes then return false else allocateFirst true : VolM Bool) v.begun = _
    rw [if_pos hname]
    rfl
  have hrefused : (mknod 18 "" 0x1000 0).refused v = true := by
    have hbody : mknodBody 18 (encodeUtf16 "") 0x1000 0 v.begun = .ok (.abort (.error .invalidName)) v.begun := by
      unfold mknodBody
      rw [if_pos hname]
      rfl
    obtain ⟨v', hrun, -⟩ := transaction_of_abort h.idle hbody
    show failed (forget (Volume.mknod 18 "" 0x1000 0) v) = true
    unfold forget Volume.mknod
    rw [bind_error hrun]
    rfl
  refine ⟨v, hopen, refused_calls_untouched v [] [mknod 18 "" 0x1000 0] [] ⟨fun _ _ => ?_, trivial⟩
    ⟨rfl, hrefused, trivial⟩⟩
  rintro ⟨w, hupdates⟩
  rw [hfirst] at hupdates
  cases hupdates

/-- **A refused `unlink_file` of a directory** takes it out of its parent. -/
theorem refused_unlink_removes_entry : ∃ v₀ v₁ : Volume,
    openFromStorage (Mkfs.createFilesystemWithBlocks 4096) = .ok v₀ (Mkfs.createFilesystemWithBlocks 4096) ∧
      Volume.mkdir 18 "a" v₀ = .ok 16 v₁ ∧ v₁.txMgr.active = none ∧ (unlinkFile 18 "a").refused v₁ = true ∧
      ((unlinkFile 18 "a").after v₁).observed 18 ≠ v₁.observed 18 := by
  obtain ⟨v₀, v₁, hopen, hmkdir, h, hshows⟩ := exists_directory le_rfl (by norm_num)
  obtain ⟨d', hremove, hlists, -⟩ := hshows.lists.exists_remove (by decide) (by decide) (encodeUtf16 "a")
  have hfound : (([(1, (⟨16, encodeUtf16 "a", 0⟩ : DirEntry))].map Prod.snd).find? fun e =>
      e.name = encodeUtf16 "a").map DirEntry.inumber = some 16 := by
    decide
  have hsize := hshows.size
  rw [hfound] at hremove
  rw [← rootIn_tableWithA] at hremove hsize
  obtain ⟨hroot, hin⟩ := foundIn_tableWithA
  obtain ⟨w, hrun, hw⟩ := h.exists_removed hroot hsize hremove hlists.size
  -- the directory is still read, so the call is refused
  obtain ⟨ino, w', hrun', child, hread, hdir, -⟩ := h.takesDirectory_begun hroot hsize hremove hlists.size hin
    (by decide) (by decide +kernel) (by decide +kernel)
  cases hrun.symm.trans hrun'
  have hbody : unlinkFileBody 18 (encodeUtf16 "a") v₁.begun = .ok (.abort (.error .invalidFileType)) w := by
    unfold unlinkFileBody
    rw [bind_ok hrun]
    simp only
    rw [bind_ok hread, if_pos hdir]
    rfl
  obtain ⟨v', hcall, habort⟩ := transaction_of_abort h.idle hbody
  have hrun₁ : Volume.unlinkFile 18 "a" v₁ = .error .invalidFileType v' := hcall
  have hafter : (unlinkFile 18 "a").after v₁ = v' := by
    show final (forget (Volume.unlinkFile 18 "a") v₁) = v'
    rw [final_forget, hrun₁]
    rfl
  refine ⟨v₀, v₁, hopen, hmkdir, h.idle, ?_, ?_⟩
  · show declined (Volume.unlinkFile 18 "a" v₁) = true
    rw [hrun₁]
    rfl
  · -- the root had one entry, and has none
    obtain ⟨inode, hobserved, hroot'⟩ := h.observed_of_removed hroot hlists.size hw habort
    rw [hafter, hobserved, h.toCalm.observed_eq (h.foundAt hroot)]
    intro heq
    have hsame := congrArg (fun i => Dinode.root i.dinode) (Except.ok.inj heq)
    rw [hroot', h.inodeAt_eq (by decide) (by decide) (by decide)] at hsame
    have hone := hshows.count
    rw [← rootIn_tableWithA] at hone
    unfold rootIn at hone
    dsimp only at hone
    have hnone := hlists.count
    rw [hsame, hone] at hnone
    revert hnone
    decide

end Operation

end JfsFuse
