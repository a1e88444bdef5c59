import JfsFuse.Fuse.Lookup
import JfsFuse.Volume.NewDirectories
import JfsFuse.Volume.RootDirectory

/-!
# Listing and lookup along a run

A run of calls on names starts with a new filesystem.  As long as no directory is made, no file is
named `.` or `..`, and no insertion overwrites a slot in use, listing and looking up the root
directory agree.  A new directory breaks this: its root has entries `.` and `..`, which are listed
behind those that `readdir` adds.
-/

namespace JfsFuse

open ByteBuf Program

/-- The calls that change the names of a directory. -/
inductive NameCall
  | createFile (parentIno : UInt32) (name : String)
  | mkdir (parentIno : UInt32) (name : String)
  | rename (oldParent : UInt32) (oldName : String) (newParent : UInt32) (newName : String)
  | unlinkFile (parentIno : UInt32) (name : String)
  | rmdir (parentIno : UInt32) (name : String)

namespace Volume

/-- `ino` is read as a directory. -/
def IsDirIno (v : Volume) (ino : UInt32) : Prop :=
  ∃ inode w, readInode ino v = .ok inode w ∧ inode.isDir = true

/-- The root of the directory `ino` has the property. -/
def RootHas (v : Volume) (ino : UInt32) (p : Dtree → Prop) : Prop :=
  ∃ inode w d, readInode ino v = .ok inode w ∧ inode.isDir = true ∧ inode.dtree = .ok d ∧ p d

end Volume

namespace NameCall

open FuseFs

/-- The call, its result dropped. -/
def run : NameCall → VolM Unit
  | createFile parentIno name => do let _ ← Volume.createFile parentIno name
  | mkdir parentIno name => do let _ ← Volume.mkdir parentIno name
  | rename oldParent oldName newParent newName => do let _ ← Volume.rename oldParent oldName newParent newName
  | unlinkFile parentIno name => do let _ ← Volume.unlinkFile parentIno name
  | rmdir parentIno name => do let _ ← Volume.rmdir parentIno name

/-- No directory is made; the directories of the call are directories; the name it enters can be that
of a file, and no slot in use is overwritten. -/
def Safe (v : Volume) : NameCall → Prop
  | createFile parentIno name => PlainName name ∧ v.RootHas parentIno fun d => ¬ d.Overwrites (encodeUtf16 name)
  | mkdir _ _ => False
  | rename oldParent oldName newParent newName => PlainName newName ∧ v.IsDirIno oldParent ∧
      v.RootHas newParent fun d =>
        ¬ (Dtree.takenOut (encodeUtf16 oldName) (encodeUtf16 newName) d).Overwrites (encodeUtf16 newName)
  | unlinkFile parentIno _ => v.IsDirIno parentIno
  | rmdir parentIno _ => v.IsDirIno parentIno

/-- A run of calls that return, each of them safe. -/
inductive SafeRun : Volume → Volume → Prop
  | nil (v : Volume) : SafeRun v v
  | snoc {v v' v'' : Volume} {call : NameCall} (hrun : SafeRun v v') (hsafe : call.Safe v')
      (hcall : call.run v' = .ok () v'') : SafeRun v v''

/-- The name of a file, and the number of an inode that is not the root directory. -/
def FileEntry (name : List UInt16) (ino : UInt32) : Prop :=
  (∃ given, PlainName given ∧ name = encodeUtf16 given) ∧ filesystemI ≤ ino.toNat ∧ ino ≠ 18

/-- **One call.** -/
theorem filesOnly_of_run {call : NameCall} {v v' : Volume} (h : v.FilesOnly FileEntry) (hsafe : call.Safe v)
    (hcall : call.run v = .ok () v') : v'.FilesOnly FileEntry := by
  obtain ⟨d, hone, hholds⟩ := h
  have hfile : ∀ name ino, FileEntry name ino → filesystemI ≤ ino.toNat ∧ ino ≠ 18 := fun _ _ hentry => hentry.2
  have hroot : ∀ d', v.OneDirectory d' → d' = d := by
    intro d' hone'
    have hdata := hone'.root.symm.trans hone.root
    cases d'
    exact congrArg Dtree.mk hdata
  cases call with
  | createFile parentIno name =>
      obtain ⟨hname, inode, w, d', hread, hdir, hdtree, hover⟩ := hsafe
      obtain ⟨rfl, hdtree'⟩ := hone.of_isDir hread hdir
      cases hdtree.symm.trans hdtree'
      obtain ⟨ino, v₁, hrun, hcall⟩ := of_bind_ok hcall
      cases hcall
      refine Volume.FilesOnly.of_createFile ⟨d, hone, hholds⟩ (fun d' hone' => ?_)
        (fun child hino hne => ⟨⟨name, hname, rfl⟩, hino, hne⟩) hrun
      rwa [hroot d' hone']
  | mkdir parentIno name => exact hsafe.elim
  | rename oldParent oldName newParent newName =>
      obtain ⟨hname, ⟨inode, w, hread, hdir⟩, inode', w', d', hread', hdir', hdtree, hover⟩ := hsafe
      obtain ⟨rfl, -⟩ := hone.of_isDir hread hdir
      obtain ⟨rfl, hdtree'⟩ := hone.of_isDir hread' hdir'
      cases hdtree.symm.trans hdtree'
      obtain ⟨done, v₁, hrun, hcall⟩ := of_bind_ok hcall
      cases hcall
      refine Volume.FilesOnly.of_rename ⟨d, hone, hholds⟩ hfile (fun d' hone' => ?_)
        (fun child hino hne => ⟨⟨newName, hname, rfl⟩, hino, hne⟩) hrun
      rwa [hroot d' hone']
  | unlinkFile parentIno name =>
      obtain ⟨inode, w, hread, hdir⟩ := hsafe
      obtain ⟨rfl, -⟩ := hone.of_isDir hread hdir
      obtain ⟨found, v₁, hrun, hcall⟩ := of_bind_ok hcall
      cases hcall
      exact Volume.FilesOnly.of_unlinkFile ⟨d, hone, hholds⟩ hfile hrun
  | rmdir parentIno name =>
      obtain ⟨inode, w, hread, hdir⟩ := hsafe
      obtain ⟨rfl, -⟩ := hone.of_isDir hread hdir
      obtain ⟨found, v₁, hrun, hcall⟩ := of_bind_ok hcall
      cases hcall
      exact Volume.FilesOnly.of_rmdir ⟨d, hone, hholds⟩ hfile hrun

/-- **A run of calls.** -/
theorem SafeRun.filesOnly {v v' : Volume} (hrun : SafeRun v v') (h : v.FilesOnly FileEntry) :
    v'.FilesOnly FileEntry := by
  induction hrun with
  | nil => exact h
  | snoc _ hsafe hcall ih => exact filesOnly_of_run ih hsafe hcall

/-- **After a safe run on a new filesystem, listing and lookup agree** on every directory. -/
theorem SafeRun.agree {numBlocks : ℕ} (hblocks : 4096 ≤ numBlocks) (hmax : numBlocks < 2 ^ 64) {v : Volume} {s : Storage}
    (hopen : Volume.openFromStorage (Mkfs.createFilesystemWithBlocks numBlocks) = .ok v s) {fs : FuseFs}
    (hrun : SafeRun v fs.volume) {dir : UInt32} (hdir : fs.volume.IsDirIno dir) : fs.Agree dir := by
  obtain ⟨d, hone, hholds⟩ := hrun.filesOnly (Volume.FilesOnly.of_create FileEntry hblocks hmax hopen)
  obtain ⟨inode, w, hread, hisdir⟩ := hdir
  obtain ⟨rfl, -⟩ := hone.toCalm.of_readInode_ok hread
  obtain ⟨-, hdtree⟩ := hone.of_isDir hread hisdir
  obtain ⟨entries, hentries, hlookup, hall, hnodup⟩ := hholds.exists_entries
  refine agree_of_plain hread hisdir hdtree hentries hlookup ⟨fun entry hentry => ?_, hnodup⟩
  exact (hall entry hentry).1

/-- A new filesystem with the file `a`. -/
theorem SafeRun.agree_file : ∃ v₀ v₁ : Volume, Volume.openFromStorage (Mkfs.createFilesystemWithBlocks 4096) =
    .ok v₀ (Mkfs.createFilesystemWithBlocks 4096) ∧ Volume.createFile 18 "a" v₀ = .ok 16 v₁ ∧
      FuseFs.Agree { volume := v₁ } 18 := by
  obtain ⟨v₀, hopen, h⟩ := Volume.exists_hasTable le_rfl (by norm_num)
  have hempty : Dtree.IsEmptyRoot (Volume.rootIn Volume.newTable 28 2) := by
    refine ⟨?_, ?_, ?_, ?_⟩ <;> decide +kernel
  have hname : PlainName "a" := ⟨by decide, by decide, by decide⟩
  have hparent : Volume.foundIn Volume.newTable 18 28 2 = true := by decide
  have hdtree := h.dtree_inodeAt 18 (b := 28) (j := 2) (by decide) (by decide) (by decide) hempty.1
  have hfree : Volume.freeIn Volume.newTable 24 0 = true := by decide
  have hchild : 16 = UInt32.ofNat (Volume.inoAt (24 - v₀.ait2.address) 0) := by
    rw [h.address]
    decide
  have hvalid : validName (encodeUtf16 "a") = true := by decide
  obtain ⟨v₁, d', hrun, -, hinsert, hshows, hbecomes⟩ := Volume.exists_createFile h.toAtRest (h.foundAt hparent)
    (h.freeAt hfree) (by decide) hchild (by decide) (by decide) hdtree hempty.represents.shows hvalid rfl (by decide)
  have hdir : (v₀.inodeAt 18 28 2).isDir = true := by
    rw [h.inodeAt_eq (by decide) (by decide) (by decide)]
    decide
  have hsafe : Safe v₀ (createFile 18 "a") :=
    ⟨hname, _, _, _, h.toCalm.readInode_of_foundAt (h.foundAt hparent), hdir, hdtree, by decide⟩
  have hcall : (createFile 18 "a").run v₀ = .ok () v₁ := bind_ok hrun
  have hsaferun : SafeRun v₀ v₁ := .snoc (.nil v₀) hsafe hcall
  obtain ⟨d, hone, -⟩ := hsaferun.filesOnly (Volume.FilesOnly.of_create FileEntry le_rfl (by norm_num) hopen)
  refine ⟨v₀, v₁, hopen, hrun, ?_⟩
  exact SafeRun.agree le_rfl (by norm_num) hopen hsaferun hone.exists_root

/-- **A new directory lists `.` twice.** -/
theorem new_directory_lists_dot_twice : ∃ v₀ v₁ : Volume,
    Volume.openFromStorage (Mkfs.createFilesystemWithBlocks 4096) = .ok v₀ (Mkfs.createFilesystemWithBlocks 4096) ∧
      Volume.mkdir 18 "a" v₀ = .ok 16 v₁ ∧ v₁.IsDirIno 16 ∧ ¬ FuseFs.Agree { volume := v₁ } 16 := by
  obtain ⟨v₀, v₁, hopen, hmkdir, h, -⟩ := Volume.exists_directory le_rfl (by norm_num)
  obtain ⟨-, hin⟩ := Volume.foundIn_tableWithA
  have hsize : (Volume.rootIn Volume.tableWithA 24 0).data.length = 288 := by decide +kernel
  have hread := h.toCalm.readInode_of_foundAt (h.foundAt hin)
  have hdir : (v₁.inodeAt 16 24 0).isDir = true := by
    rw [h.inodeAt_eq (by decide) (by decide) (by decide)]
    decide
  have hdtree := h.dtree_inodeAt 16 (b := 24) (j := 0) (by decide) (by decide) (by decide) hsize
  refine ⟨v₀, v₁, hopen, hmkdir, ⟨_, _, hread, hdir⟩, ?_⟩
  rintro ⟨offered, fs', hlist, hnodup, -⟩
  have hnames : ((Volume.rootIn Volume.tableWithA 24 0).entries.toOption.map fun entries =>
      entries.map fun entry => entryName entry.name) = some [['.'], ['.', '.']] := by
    decide +kernel
  cases hentries : (Volume.rootIn Volume.tableWithA 24 0).entries with
  | error e =>
      rw [hentries] at hnames
      cases hnames
  | ok entries =>
      rw [hentries] at hnames
      let fs : FuseFs := { volume := v₁ }
      have hread' : Volume.readInode 16 fs.volume = .ok (v₁.inodeAt 16 24 0) fs.volume := hread
      obtain ⟨others, fs'', hlist', hpairs⟩ := exists_readdir hread' hdir hdtree hentries
      rw [hlist'] at hlist
      injection hlist with hoffered _
      rw [← Option.some.inj hoffered, List.map_cons, List.nodup_cons] at hnodup
      have hothers : others.map Offered.name = entries.map fun entry => entryName entry.name := by
        have hfirst := congrArg (List.map Prod.fst) hpairs
        rwa [List.map_map, List.map_map] at hfirst
      refine hnodup.1 (List.mem_cons_of_mem _ ?_)
      have hdots : entries.map (fun entry => entryName entry.name) = [['.'], ['.', '.']] := Option.some.inj hnames
      rw [hothers, hdots]
      exact List.mem_cons_self ..

end NameCall

end JfsFuse
