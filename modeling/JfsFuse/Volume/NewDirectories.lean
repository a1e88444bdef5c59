import JfsFuse.Btree.DtreeRefinement
import JfsFuse.Btree.DtreeRemove
import JfsFuse.Volume.Emptiness
import JfsFuse.Volume.FreshCalls

/-!
# Empty directories for rename and rmdir

The two calls agree on a directory when it lists an entry exactly if it counts more than two.  On a
new filesystem two directories are made side by side.  The second one holds nothing but `.` and `..`:
it can be removed, but the first one cannot be renamed over it.
-/

namespace JfsFuse

open ByteBuf Program

namespace Volume

namespace HasTable

variable {n : ℕ} {table : ℕ → ℕ → List UInt8} {v : Volume}

/-! ## Directories in the table -/

theorem readInode_begun (h : v.HasTable n table) {ino : UInt32} {b j : ℕ} (hin : foundIn table ino b j = true) :
    readInode ino v.begun = .ok (v.inodeAt ino b j) v.begun := by
  have hcalm := (h.toAtRest.begun.working h.toWorking).toCalm
  have hfound := h.foundAt hin
  exact hcalm.readInode_of_foundAt
    ⟨hfound.low, hfound.high, hfound.inside, hfound.slot, hfound.key, hfound.first⟩

theorem isDirectory_begun (h : v.HasTable n table) {ino : UInt32} {b j : ℕ} (hin : foundIn table ino b j = true)
    (hdir : Dinode.isDir (table b j) = true) (hroot : (rootIn table b j).data.length = 288) :
    v.begun.IsDirectory ino (rootIn table b j) := by
  obtain ⟨hlow, hhigh, hj⟩ := bounds_of_foundIn hin
  refine ⟨v.inodeAt ino b j, h.readInode_begun hin, ?_, h.dtree_inodeAt _ hlow hhigh hj hroot⟩
  rw [h.inodeAt_eq hlow hhigh hj]
  exact hdir

/-- An entry of a directory root that is found in the table as a directory. -/
theorem namedIn_begun (h : v.HasTable n table) {parent : UInt32} {b j b' j' : ℕ}
    (hparent : foundIn table parent b j = true) {live : List (ℕ × DirEntry)} (hshows : (rootIn table b j).Shows live)
    {name : List UInt16} (hvalid : validName name = true) (entry : DirEntry)
    (hentry : (live.map Prod.snd).find? (fun e => e.name = name) = some entry)
    (hin : foundIn table entry.inumber b' j' = true) (hdir : Dinode.isDir (table b' j') = true)
    (hroot : (rootIn table b' j').data.length = 288) :
    v.begun.NamedIn parent name (rootIn table b' j') := by
  obtain ⟨hlow, hhigh, hj⟩ := bounds_of_foundIn hparent
  refine ⟨v.inodeAt parent b j, rootIn table b j, h.readInode_begun hparent,
    h.dtree_inodeAt _ hlow hhigh hj hshows.size, hvalid, entry, ?_, h.isDirectory_begun hin hdir hroot⟩
  rw [hshows.lookup, hentry]

/-- **An entry is removed** in a call that has just begun. -/
theorem exists_removed (h : v.HasTable n table) {parent : UInt32} {b j : ℕ}
    (hparent : foundIn table parent b j = true) (hroot : (rootIn table b j).data.length = 288)
    {name : List UInt16} {ino : UInt32} {d' : Dtree}
    (hremove : Dtree.remove name (rootIn table b j) = .ok (some ino) d') (hsize : d'.data.length = 288) :
    ∃ w, removeDirEntry parent name v.begun = .ok (some ino) w ∧
      InCall v [((parent, b), updateAt (j * disize) (Dinode.setRoot d'.toBytes) (v.storage.block b))] [] w := by
  obtain ⟨hlow, hhigh, hj⟩ := bounds_of_foundIn hparent
  have hbegun := h.toAtRest.begun
  have hedit : Dinode.IsEdit (Dinode.setRoot d'.toBytes) := isEdit_setRoot_bytes hsize
  have hloaded : v.begun.loaded parent b = v.storage.block b := by
    rw [hbegun.caches.loaded_of_fresh parent fun p hp => absurd hp List.not_mem_nil, hbegun.storage]
  obtain ⟨w, hwrite, hw⟩ := hbegun.exists_update h.toCalm h.room (by decide) parent (j * disize)
    (Dinode.setRoot d'.toBytes) (h.foundAt hparent).inside (by
      rw [hloaded]
      exact length_updateAt_slot (v.storage.length_block b) hj hedit)
  rw [hloaded, List.filter_nil] at hw
  refine ⟨w, ?_, hw⟩
  have hdtree : readDtree (v.inodeAt parent b j) v.begun = .ok (rootIn table b j) v.begun := by
    unfold readDtree
    rw [h.dtree_inodeAt _ hlow hhigh hj hroot]
    rfl
  have hrun : runDtree (Dtree.remove name) (rootIn table b j) v.begun = .ok (some ino, d') v.begun := by
    unfold runDtree
    rw [hremove]
    rfl
  unfold removeDirEntry
  rw [bind_ok (h.readInode_begun hparent), bind_ok hdtree, bind_ok hrun]
  exact bind_ok hwrite

/-- What the removed entry named is still read as it was, when it lies in another block. -/
theorem takesDirectory_begun (h : v.HasTable n table) {parent ino : UInt32} {b j b' j' : ℕ}
    (hparent : foundIn table parent b j = true) (hroot : (rootIn table b j).data.length = 288)
    {name : List UInt16} {d' : Dtree} (hremove : Dtree.remove name (rootIn table b j) = .ok (some ino) d')
    (hsize : d'.data.length = 288) (hin : foundIn table ino b' j' = true) (hblocks : b' ≠ b)
    (hdir : Dinode.isDir (table b' j') = true) (hroot' : (rootIn table b' j').data.length = 288) :
    v.begun.TakesDirectory parent name (rootIn table b' j') := by
  obtain ⟨hlow, hhigh, hj⟩ := bounds_of_foundIn hin
  obtain ⟨w, hrun, hw⟩ := h.exists_removed hparent hroot hremove hsize
  have hedit : Dinode.IsEdit (Dinode.setRoot d'.toBytes) := isEdit_setRoot_bytes hsize
  have hfound : w.FoundAt ino b' j' := by
    refine hw.foundAt h.toResting (h.foundAt hin) fun p hp k _ _ => ?_
    rw [List.mem_singleton.mp hp]
    dsimp only
    rw [slotOf_updateAt (v.storage.length_block b) (bounds_of_foundIn hparent).2.2 hedit]
    split
    · next heq =>
        rw [heq]
        exact hedit.key _ _ (length_slotOf (v.storage.length_block b) (bounds_of_foundIn hparent).2.2)
    · exact Iff.rfl
  have hsame : w.inodeAt ino b' j' = v.inodeAt ino b' j' := by
    unfold inodeAt
    rw [hw.caches.own_of_not_mem fun p hp heq => ?_, hw.storage, h.toAtRest.own]
    cases List.mem_singleton.mp hp
    exact hblocks (congrArg Prod.snd heq).symm
  refine ⟨ino, w, hrun, v.inodeAt ino b' j', ?_, ?_, h.dtree_inodeAt _ hlow hhigh hj hroot'⟩
  · rw [(hw.working h.toWorking).toCalm.readInode_of_foundAt hfound, hsame]
  · rw [h.inodeAt_eq hlow hhigh hj]
    exact hdir

end HasTable

/-! ## A new directory in the place of a new directory -/

/-- The root of a new filesystem with the directory `a`. -/
def rootWithA : Dtree :=
  final (Dtree.insert (encodeUtf16 "a") 16 0 (rootIn newTable 28 2))

def tableWithA : ℕ → ℕ → List UInt8 :=
  tableWith newTable 24 0 28 2 (newDirectory 16 18 (newTable 24 0))
    (relinked addLink (Dinode.setRoot rootWithA.toBytes (newTable 28 2)))

/-- The root of a new filesystem with the directories `a` and `b`. -/
def rootWithAB : Dtree :=
  final (Dtree.insert (encodeUtf16 "b") 19 1 rootWithA)

/-- The entries of the root with both directories. -/
def entriesAB : List (ℕ × DirEntry) :=
  [(1, ⟨16, encodeUtf16 "a", 0⟩), (2, ⟨19, encodeUtf16 "b", 1⟩)]

def tableWithAB : ℕ → ℕ → List UInt8 :=
  tableWith tableWithA 24 3 28 2 (newDirectory 19 18 (tableWithA 24 3))
    (relinked addLink (Dinode.setRoot rootWithAB.toBytes (tableWithA 28 2)))

theorem dtree_eq {d d' : Dtree} (h : d.data = d'.data) : d = d' := by
  cases d
  exact congrArg Dtree.mk h

theorem rootIn_tableWithA : rootIn tableWithA 28 2 = rootWithA := by
  apply dtree_eq
  decide +kernel

theorem rootIn_tableWithAB : rootIn tableWithAB 28 2 = rootWithAB := by
  apply dtree_eq
  decide +kernel

/-- Where the inodes are, with `a` alone and with both directories. -/
theorem foundIn_tableWithA : foundIn tableWithA 18 28 2 = true ∧ foundIn tableWithA 16 24 0 = true := by
  decide +kernel

theorem foundIn_tableWithAB : foundIn tableWithAB 18 28 2 = true ∧ foundIn tableWithAB 16 24 0 = true ∧
    foundIn tableWithAB 19 24 3 = true := by
  decide +kernel

theorem directories_tableWithAB : (Dinode.isDir (tableWithAB 24 0) = true ∧ (rootIn tableWithAB 24 0).data.length = 288) ∧
    Dinode.isDir (tableWithAB 24 3) = true ∧ (rootIn tableWithAB 24 3).data.length = 288 := by
  decide +kernel

/-- The directory `a` is made on a new filesystem. -/
theorem exists_directory {numBlocks : ℕ} (hblocks : 4096 ≤ numBlocks) (hmax : numBlocks < 2 ^ 64) :
    ∃ v₀ v₁, openFromStorage (Mkfs.createFilesystemWithBlocks numBlocks) =
        .ok v₀ (Mkfs.createFilesystemWithBlocks numBlocks) ∧
      mkdir 18 "a" v₀ = .ok 16 v₁ ∧ v₁.HasTable 19 tableWithA ∧
      rootWithA.Shows [(1, ⟨16, encodeUtf16 "a", 0⟩)] := by
  obtain ⟨v₀, hopen, h₀⟩ := exists_hasTable hblocks hmax
  have hempty : Dtree.IsEmptyRoot (rootIn newTable 28 2) := by
    refine ⟨?_, ?_, ?_, ?_⟩ <;> decide +kernel
  have hparent : foundIn newTable 18 28 2 = true := by decide
  have hfree : freeIn newTable 24 0 = true := by decide
  have hchild : 16 = UInt32.ofNat (inoAt (24 - 24) 0) := by decide
  have hname : validName (encodeUtf16 "a") = true := by decide
  obtain ⟨v₁, d₁, hmkdir, hinsert, hshows, h₁⟩ := h₀.exists_mkdir hparent hfree (by decide) hchild (by decide)
    (by decide) hempty.represents.shows hname rfl (by decide)
  have hroot : d₁ = rootWithA := (congrArg final hinsert).symm
  rw [hroot] at hshows h₁
  exact ⟨v₀, v₁, hopen, hmkdir, h₁, hshows⟩

/-- The directories `a` and `b` are made on a new filesystem. -/
theorem exists_two_directories {numBlocks : ℕ} (hblocks : 4096 ≤ numBlocks) (hmax : numBlocks < 2 ^ 64) :
    ∃ v₀ v₁ v₂, openFromStorage (Mkfs.createFilesystemWithBlocks numBlocks) =
        .ok v₀ (Mkfs.createFilesystemWithBlocks numBlocks) ∧
      mkdir 18 "a" v₀ = .ok 16 v₁ ∧ mkdir 18 "b" v₁ = .ok 19 v₂ ∧ v₂.HasTable 18 tableWithAB ∧
      rootWithAB.Shows entriesAB := by
  obtain ⟨v₀, v₁, hopen, hmkdir₁, h₁, hshows₁⟩ := exists_directory hblocks hmax
  rw [← rootIn_tableWithA] at hshows₁
  have hfree : freeIn tableWithA 24 3 = true := by decide
  have hchild : 19 = UInt32.ofNat (inoAt (24 - 24) 3) := by decide
  have hname : validName (encodeUtf16 "b") = true := by decide
  obtain ⟨v₂, d₂, hmkdir₂, hinsert₂, hshows₂, h₂⟩ := h₁.exists_mkdir foundIn_tableWithA.1 hfree (by decide) hchild (by decide)
    (by decide) hshows₁ hname (by decide) (by decide)
  have hroot : d₂ = rootWithAB := by
    rw [rootIn_tableWithA] at hinsert₂
    exact (congrArg final hinsert₂).symm
  rw [hroot] at hshows₂ h₂
  exact ⟨v₀, v₁, v₂, hopen, hmkdir₁, hmkdir₂, h₂, hshows₂⟩

section TwoDirectories

variable {n : ℕ} {v : Volume} (h : v.HasTable n tableWithAB) (hshows : rootWithAB.Shows entriesAB)

include h hshows

theorem namedIn_a : v.begun.NamedIn 18 (encodeUtf16 "a") (rootIn tableWithAB 24 0) := by
  rw [← rootIn_tableWithAB] at hshows
  obtain ⟨hroot, hin, -⟩ := foundIn_tableWithAB
  obtain ⟨⟨hdir, hlen⟩, -⟩ := directories_tableWithAB
  exact h.namedIn_begun hroot hshows (by decide) ⟨16, encodeUtf16 "a", 0⟩ (by decide) hin hdir hlen

theorem namedIn_b : v.begun.NamedIn 18 (encodeUtf16 "b") (rootIn tableWithAB 24 3) := by
  rw [← rootIn_tableWithAB] at hshows
  obtain ⟨hroot, -, hin⟩ := foundIn_tableWithAB
  obtain ⟨-, hdir, hlen⟩ := directories_tableWithAB
  exact h.namedIn_begun hroot hshows (by decide) ⟨19, encodeUtf16 "b", 1⟩ (by decide) hin hdir hlen

theorem takesDirectory_b : v.begun.TakesDirectory 18 (encodeUtf16 "b") (rootIn tableWithAB 24 3) := by
  have hslots : (entriesAB.map Prod.fst).Nodup := by decide
  have hnames : (entriesAB.map fun p => p.2.name).Nodup := by decide
  obtain ⟨d', hremove, hlists, -⟩ := hshows.lists.exists_remove hslots hnames (encodeUtf16 "b")
  have hfound : ((entriesAB.map Prod.snd).find? fun e => e.name = encodeUtf16 "b").map DirEntry.inumber = some 19 := by
    decide
  rw [hfound] at hremove
  have hsize := hshows.size
  rw [← rootIn_tableWithAB] at hremove hsize
  obtain ⟨hroot, -, hin⟩ := foundIn_tableWithAB
  obtain ⟨-, hdir, hlen⟩ := directories_tableWithAB
  exact h.takesDirectory_begun hroot hsize hremove hlists.size hin (by decide) hdir hlen

end TwoDirectories

/-- **Rename and rmdir agree on which directories are empty** when a transaction is open, or
listing the directory gives an entry exactly when it counts more than two. -/
theorem refuse_alike_iff (v : Volume) {oldParent newParent : UInt32} {oldName newName : String}
    {source dtree taken : Dtree} (hsource : v.begun.NamedIn oldParent (encodeUtf16 oldName) source)
    (hnamed : v.begun.NamedIn newParent (encodeUtf16 newName) dtree)
    (htaken : v.begun.TakesDirectory newParent (encodeUtf16 newName) taken) :
    ((∃ v', rename oldParent oldName newParent newName v = .error notEmptyError v') ↔
      ∃ v', rmdir newParent newName v = .error .directoryNotEmpty v') ↔
    (v.txMgr.active.isSome = true ∨
      ((if oldParent = newParent then dtree else taken).ListsEntry ↔ 2 < taken.nextIndex)) := by
  have hrename : ¬ Unrelated notEmptyError := fun h => h.2 rfl
  have hrmdir : ¬ Unrelated .directoryNotEmpty := fun h => h.1 rfl
  cases hactive : v.txMgr.active with
  | some active =>
      refine iff_of_true ?_ (Or.inl rfl)
      exact iff_of_false (not_refused_of_active hactive _ hrename) (not_refused_of_active hactive _ hrmdir)
  | none =>
      unfold rename rmdir
      rw [refused_iff hactive (raises_renameBody _ _ _ _) hrename,
        refused_iff hactive (raises_rmdirBody _ _) hrmdir, renameBody_refused_iff hsource hnamed htaken,
        rmdirBody_refused_iff htaken]
      simp

/-- On a new filesystem with the directories `a` and `b`. -/
theorem refuse_alike_iff_new :
    ∃ v : Volume, ((∃ v', rename 18 "a" 18 "b" v = .error notEmptyError v') ↔
      ∃ v', rmdir 18 "b" v = .error .directoryNotEmpty v') ↔
    (v.txMgr.active.isSome = true ∨
      ((rootIn tableWithAB 24 3).ListsEntry ↔ 2 < (rootIn tableWithAB 24 3).nextIndex)) := by
  obtain ⟨-, -, v, -, -, -, h, hshows⟩ := exists_two_directories le_rfl (by norm_num)
  have halike := refuse_alike_iff v (namedIn_a h hshows) (namedIn_b h hshows) (takesDirectory_b h hshows)
  rw [if_pos rfl] at halike
  exact ⟨v, halike⟩

/-- **A new directory is not empty for a rename**, but it is for `rmdir`. -/
theorem rename_refuses_new_directory :
    ∃ v₀ v₁ v₂, openFromStorage (Mkfs.createFilesystemWithBlocks 4096) =
        .ok v₀ (Mkfs.createFilesystemWithBlocks 4096) ∧
      mkdir 18 "a" v₀ = .ok 16 v₁ ∧ mkdir 18 "b" v₁ = .ok 19 v₂ ∧
      (∃ v', rename 18 "a" 18 "b" v₂ = .error notEmptyError v') ∧
      ¬ ∃ v', rmdir 18 "b" v₂ = .error .directoryNotEmpty v' := by
  obtain ⟨v₀, v₁, v₂, hopen, hmkdir₁, hmkdir₂, h, hshows⟩ :=
    exists_two_directories le_rfl (by norm_num)
  refine ⟨v₀, v₁, v₂, hopen, hmkdir₁, hmkdir₂, ?_, ?_⟩
  · have hrefused : ¬ Unrelated notEmptyError := fun heq => heq.2 rfl
    refine (refused_iff h.idle (raises_renameBody _ _ _ _) hrefused).mpr ?_
    refine (renameBody_refused_iff (namedIn_a h hshows) (namedIn_b h hshows) (takesDirectory_b h hshows)).mpr ?_
    rw [if_pos rfl]
    -- `.` and `..` are entries
    have hentries : ((rootIn tableWithAB 24 3).entries.toOption.map List.length) = some 2 := by
      decide +kernel
    cases hlist : (rootIn tableWithAB 24 3).entries with
    | error e =>
        rw [hlist] at hentries
        cases hentries
    | ok entries =>
        refine ⟨entries, hlist, ?_⟩
        rintro rfl
        rw [hlist] at hentries
        cases hentries
  · have hrefused : ¬ Unrelated .directoryNotEmpty := fun heq => heq.1 rfl
    intro hrmdir
    have hmany := (rmdirBody_refused_iff (takesDirectory_b h hshows)).mp
      ((refused_iff h.idle (raises_rmdirBody _ _) hrefused).mp hrmdir)
    have htwo : (rootIn tableWithAB 24 3).nextIndex = 2 := by
      decide +kernel
    omega

end Volume

end JfsFuse
