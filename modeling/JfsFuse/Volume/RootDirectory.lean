import JfsFuse.Btree.DtreeRefinement
import JfsFuse.Volume.FreshCalls

/-!
# A filesystem with one directory

Without `mkdir` the root stays the only directory of a new filesystem.  Its inode lies in slot 2 of
block 28; all other slots of the table hold files, or nothing, and no extents, since nothing is
written.  This holds of the blocks between two calls, and in a call of every cached copy, also of
those that miss the changes of another copy: so it does not matter which copy a commit writes last,
except for the root directory, whose own copy is marked last.
-/

namespace JfsFuse

open ByteBuf Program

/-! ## The entries of a directory root -/

namespace Dtree

/-- The root represents a map whose names and inode numbers satisfy `P`. -/
def Holds (P : List UInt16 → UInt32 → Prop) (d : Dtree) : Prop :=
  ∃ live m, d.Represents live m ∧ ∀ name ino, m.lookup name = some ino → P name ino

/-- The root without the entry that gets another name, and without the one it replaces. -/
def takenOut (oldName newName : List UInt16) (d : Dtree) : Dtree :=
  final (remove newName (if oldName ≠ newName then final (remove oldName d) else d))

namespace Holds

variable {P : List UInt16 → UInt32 → Prop} {d : Dtree}

theorem size (h : Holds P d) : d.data.length = 288 := by
  obtain ⟨live, m, hrep, -⟩ := h
  exact hrep.shows.size

/-- The entries of the root, which a lookup searches. -/
theorem exists_entries (h : Holds P d) :
    ∃ entries, d.entries = .ok entries ∧ (∀ name, d.lookup name = .ok (entries.find? fun e => e.name = name)) ∧
      (∀ entry ∈ entries, P entry.name entry.inumber) ∧ (entries.map DirEntry.name).Nodup := by
  obtain ⟨live, m, hrep, hholds⟩ := h
  have hnodup : ((live.map Prod.snd).map DirEntry.name).Nodup := by
    have hkeys := hrep.nodupKeys
    rw [List.NodupKeys, List.keys, List.map_map] at hkeys
    rw [List.map_map]
    exact hkeys
  refine ⟨live.map Prod.snd, hrep.shows.entries, hrep.shows.lookup, fun entry hentry => ?_, hnodup⟩
  apply hholds
  rw [hrep.lookup_map]
  cases hfind : (live.map Prod.snd).find? fun e => e.name = entry.name with
  | none => exact absurd (decide_eq_true rfl) (List.find?_eq_none.mp hfind entry hentry)
  | some found =>
      have hname : found.name = entry.name := by simpa using List.find?_some hfind
      have hsame := List.inj_on_of_nodup_map hnodup (List.mem_of_find?_eq_some hfind) hentry hname
      rw [hsame]
      rfl

/-- **An insertion** that overwrites no slot in use. -/
theorem exists_insert (h : Holds P d) {name : List UInt16} (hvalid : validName name = true)
    (hsafe : ¬ d.Overwrites name) {ino : UInt32} (hP : P name ino) (index : UInt32) :
    ∃ inserted d', insert name ino index d = .ok inserted d' ∧ Holds P d' := by
  obtain ⟨live, m, hrep, hholds⟩ := h
  unfold validName at hvalid
  simp only [Bool.and_eq_true, decide_eq_true_eq] at hvalid
  let dirName : DirName := ⟨name, List.length_pos_iff.mpr hvalid.1, hvalid.2⟩
  by_cases haccept : m.Accepts name
  · obtain ⟨d', hrun, hshows⟩ := hrep.insert_accepted ino index (show m.Accepts dirName.1 from haccept)
    have hunused : live.length + 1 ∉ live.map Prod.fst := fun hused =>
      hsafe ((hrep.overwrites_iff name).mpr ⟨haccept, hused⟩)
    refine ⟨true, d', hrun, _, _, hrep.insert_free haccept hshows hunused, fun name' ino' hlookup => ?_⟩
    by_cases hname : name' = name
    · rw [hname, Finmap.lookup_insert] at hlookup
      rw [hname, ← Option.some.inj hlookup]
      exact hP
    · rw [Finmap.lookup_insert_of_ne _ hname] at hlookup
      exact hholds name' ino' hlookup
  · exact ⟨false, d, hrep.insert_refused ino index (show ¬ m.Accepts dirName.1 from haccept), live, m, hrep, hholds⟩

/-- **A removal.** -/
theorem exists_remove (h : Holds P d) (name : List UInt16) :
    ∃ removed d', remove name d = .ok removed d' ∧ Holds P d' ∧ (∀ ino, removed = some ino → P name ino) := by
  obtain ⟨live, m, hrep, hholds⟩ := h
  obtain ⟨d', live', hrun, hrep'⟩ := hrep.remove name
  refine ⟨_, d', hrun, ⟨live', _, hrep', fun name' ino hlookup => ?_⟩, fun ino => hholds name ino⟩
  by_cases hname : name' = name
  · rw [hname, Finmap.lookup_erase] at hlookup
    cases hlookup
  · rw [Finmap.lookup_erase_ne hname] at hlookup
    exact hholds name' ino hlookup

/-- **An entry gets another name.** -/
theorem exists_renameEntry (h : Holds P d) {oldName newName : List UInt16} (hvalid : validName newName = true)
    (hsafe : ¬ (takenOut oldName newName d).Overwrites newName) {ino : UInt32} (hP : P newName ino) (index : UInt32) :
    ∃ d', Volume.renameEntry oldName newName ino index d = .ok () d' ∧ Holds P d' := by
  have hsecond : ∀ d₁, Holds P d₁ → final (remove newName d₁) = takenOut oldName newName d → ∃ d', (do
      let _ ← remove newName
      let _ ← insert newName ino index : DtreeM Unit) d₁ = .ok () d' ∧ Holds P d' := by
    intro d₁ hholds₁ htaken
    obtain ⟨removed, d₂, hrun₂, hholds₂, -⟩ := hholds₁.exists_remove newName
    rw [hrun₂, final_ok] at htaken
    obtain ⟨inserted, d₃, hrun₃, hholds₃⟩ := hholds₂.exists_insert hvalid (htaken ▸ hsafe) hP index
    refine ⟨d₃, ?_, hholds₃⟩
    rw [bind_ok hrun₂]
    exact bind_ok hrun₃
  unfold Volume.renameEntry
  by_cases hname : oldName ≠ newName
  · obtain ⟨removed, d₁, hremove, hholds₁, -⟩ := h.exists_remove oldName
    rw [if_pos hname, bind_ok hremove]
    refine hsecond d₁ hholds₁ ?_
    unfold takenOut
    rw [if_pos hname, hremove, final_ok]
  · rw [if_neg hname]
    refine hsecond d h ?_
    unfold takenOut
    rw [if_neg hname]

end Holds

end Dtree

namespace Volume

/-! ## Slots and blocks of the table -/

/-- A slot with a file, or with nothing. -/
structure FileSlot (dinode : List UInt8) : Prop where
  notRoot : ¬ Dinode.HasKey (filesystemI, rootI) dinode
  notDir : Dinode.isDir dinode = false
  blank : Dinode.mode dinode = 0 ∨ Dinode.fileset dinode = filesystemI → Dinode.root dinode = zeros 288

/-- The slot of the root directory. -/
structure RootSlot (dinode : List UInt8) : Prop where
  key : Dinode.HasKey (filesystemI, rootI) dinode
  dir : Dinode.isDir dinode = true

/-- What slot `j` of block `b` may hold. -/
def SlotFits (b j : ℕ) (dinode : List UInt8) : Prop :=
  if b = 28 ∧ j = 2 then RootSlot dinode else FileSlot dinode

theorem slotFits_root {dinode : List UInt8} : SlotFits 28 2 dinode ↔ RootSlot dinode := by
  unfold SlotFits
  rw [if_pos ⟨rfl, rfl⟩]

theorem slotFits_of_ne {b j : ℕ} (h : ¬ (b = 28 ∧ j = 2)) {dinode : List UInt8} :
    SlotFits b j dinode ↔ FileSlot dinode := by
  unfold SlotFits
  rw [if_neg h]

/-- What block `b` may hold. -/
structure BlockFits (b : ℕ) (data : List UInt8) : Prop where
  length : data.length = blockSize
  slots : ∀ j < inosPerPage, SlotFits b j (slotOf data j)

/-- A change of one slot. -/
theorem BlockFits.updateAt {b j : ℕ} {data : List UInt8} (h : BlockFits b data) (hj : j < inosPerPage)
    {f : List UInt8 → List UInt8} (hlen : (f (slotOf data j)).length = disize)
    (hf : SlotFits b j (f (slotOf data j))) : BlockFits b (Volume.updateAt (j * disize) f data) := by
  refine ⟨length_updateAt_of_length h.length hj hlen, fun k hk => ?_⟩
  rw [slotOf_updateAt_of_length h.length hj hlen]
  split
  · next heq => rwa [heq]
  · exact h.slots k hk

theorem length_freedDinode {dinode : List UInt8} (hlen : dinode.length = disize) :
    (freedDinode dinode).length = disize :=
  length_write (length_write (length_write hlen _ _ (by decide) 0) _ _ (by decide) 0) _ _ (by decide) 0

namespace FileSlot

variable {dinode : List UInt8}

/-- A slot that is free, for a new file. -/
theorem newFile (h : FileSlot dinode) (hlen : dinode.length = disize) (hfree : Dinode.mode dinode = 0) {ino : UInt32}
    (hino : filesystemI ≤ ino.toNat) (hroot : ino ≠ 18) : FileSlot (newDinode 0x81a4 0 1 ino dinode) := by
  obtain ⟨-, hkey, hmode, -, hunion⟩ := newDinode_spec hlen 0x81a4 0 1 hino
  refine ⟨fun hroot' => ?_, ?_, fun _ => ?_⟩
  · have hsame : inodeKey ino = inodeKey 18 :=
      Prod.ext (hkey.1.symm.trans hroot'.1) (hkey.2.symm.trans hroot'.2)
    exact inodeKey_ne hroot hsame
  · unfold Dinode.isDir Dinode.fileType
    rw [hmode]
    decide
  · have hpart := congrArg (fun bytes => slice bytes 96 288) hunion
    rw [slice_slice _ (by decide), slice_slice _ (by decide)] at hpart
    exact hpart.trans (h.blank (Or.inl hfree))

/-- The key of a slot that keeps its first bytes, and its mode and root. -/
theorem of_readLE (h : FileSlot dinode) {dinode' : List UInt8}
    (hfileset : Dinode.fileset dinode' = Dinode.fileset dinode) (hnumber : Dinode.number dinode' = Dinode.number dinode)
    (hkey : Dinode.fileset dinode = filesystemI) (hroot : Dinode.root dinode' = Dinode.root dinode)
    (hdir : Dinode.isDir dinode' = false) : FileSlot dinode' := by
  refine ⟨fun hkey' => h.notRoot ⟨hfileset ▸ hkey'.1, hnumber ▸ hkey'.2⟩, hdir, fun _ => ?_⟩
  rw [hroot]
  exact h.blank (Or.inr hkey)

theorem freed (h : FileSlot dinode) (hlen : dinode.length = disize) (hkey : Dinode.fileset dinode = filesystemI) :
    FileSlot (freedDinode dinode) := by
  have h₁ := length_write hlen 52 4 (by decide) 0
  have h₂ := length_write h₁ 24 8 (by decide) 0
  have hread : ∀ off width, off + width ≤ 24 → readLE (freedDinode dinode) off width = readLE dinode off width := by
    intro off width hoff
    refine (readLE_write h₂ (by decide) (Or.inl (by omega)) _).trans ?_
    refine (readLE_write h₁ (by decide) (Or.inl (by omega)) _).trans ?_
    exact readLE_write hlen (by decide) (Or.inl (by omega)) _
  refine h.of_readLE (hread 4 4 (by decide)) (hread 8 4 (by decide)) hkey ?_ ?_
  · refine (slice_write h₂ (by decide) (by decide) _).trans ?_
    refine (slice_write h₁ (by decide) (by decide) _).trans ?_
    exact slice_write hlen (by decide) (by decide) _
  · have hmode : Dinode.mode (freedDinode dinode) = 0 := by
      refine (readLE_write h₂ (by decide) (by decide) _).trans ?_
      refine (readLE_write h₁ (by decide) (by decide) _).trans ?_
      exact readLE_write_self hlen (by decide) _
    unfold Dinode.isDir Dinode.fileType
    rw [hmode]
    decide

theorem unlinked (h : FileSlot dinode) (hlen : dinode.length = disize) (hkey : Dinode.fileset dinode = filesystemI)
    (n : ℕ) : FileSlot (Dinode.setNlink n dinode) := by
  refine h.of_readLE (readLE_write hlen (by decide) (by decide) _) (readLE_write hlen (by decide) (by decide) _) hkey
    (slice_write hlen (by decide) (by decide) _) ?_
  have hmode : Dinode.mode (Dinode.setNlink n dinode) = Dinode.mode dinode :=
    readLE_write hlen (by decide) (by decide) _
  unfold Dinode.isDir Dinode.fileType
  rw [hmode]
  exact h.notDir

end FileSlot

/-- The slot of the root directory keeps its key and its mode when its entries change. -/
theorem RootSlot.setRoot {dinode : List UInt8} (h : RootSlot dinode) (hlen : dinode.length = disize)
    {bytes : List UInt8} (hbytes : bytes.length = 288) : RootSlot (Dinode.setRoot bytes dinode) := by
  have hmode : Dinode.mode (Dinode.setRoot bytes dinode) = Dinode.mode dinode := by
    refine readLE_splice_of_disjoint ?_ (Or.inl ?_)
    · rw [hbytes, hlen]
      decide
    · rw [hbytes]
      decide
  refine ⟨((isEdit_setRoot_bytes hbytes).key _ _ hlen).mpr h.key, ?_⟩
  have hdir := h.dir
  unfold Dinode.isDir Dinode.fileType at hdir ⊢
  rwa [hmode]

/-! ## Between two calls and in a call -/

/-- Only one directory, with the root `d`. -/
structure OneDirectory (d : Dtree) (v : Volume) : Prop extends Resting v where
  ait2 : v.ait2 = Mkfs.makePxd 4 24
  aggSize : 4096 ≤ v.aggSize
  plain : ∀ block, 24 ≤ block → block < 60 → v.IsPlain block
  table : ∀ block, 24 ≤ block → block < 60 → BlockFits block (v.storage.block block)
  root : Dinode.root (slotOf (v.storage.block 28) 2) = d.data
  rootSize : d.data.length = 288

/-- In a call that began in a volume with one directory, which now has the root `d`. -/
structure Midway (v : Volume) (d : Dtree) (pages : List ((UInt32 × ℕ) × List UInt8)) (marks : List (UInt32 × ℕ))
    (w : Volume) : Prop extends InCall v pages marks w where
  fits : ∀ p ∈ pages, 24 ≤ p.1.2 ∧ p.1.2 < 60 ∧ BlockFits p.1.2 p.2
  root : Dinode.root (slotOf (w.own 18 28) 2) = d.data
  rootSize : d.data.length = 288

namespace OneDirectory

variable {d : Dtree} {v : Volume} (h : v.OneDirectory d)

include h

theorem address : v.ait2.address = 24 := by
  rw [h.ait2]
  decide

theorem length : v.ait2.length = 4 := by
  rw [h.ait2]
  decide

theorem begun : Midway v d [] [] v.begun where
  toInCall := h.toResting.begun
  fits _ hp := absurd hp List.not_mem_nil
  root := by
    rw [h.toResting.begun.caches.own_of_not_mem fun p hp => absurd hp List.not_mem_nil, h.toResting.begun.storage]
    exact h.root
  rootSize := h.rootSize

end OneDirectory

namespace Midway

variable {v w : Volume} {d₀ d : Dtree} {pages : List ((UInt32 × ℕ) × List UInt8)} {marks : List (UInt32 × ℕ)}
  (h : Midway v d pages marks w) (hv : v.OneDirectory d₀)

include h hv

theorem calm : w.Calm :=
  h.toInCall.calm hv.toCalm

theorem fits_shown {b : ℕ} (hlow : 24 ≤ b) (hhigh : b < 60) : BlockFits b (w.shown b) := by
  rw [h.caches.shown, h.storage]
  cases hfind : pages.find? (fun e => e.1.2 == b) with
  | none =>
      rw [Option.map_none, Option.getD_none]
      exact hv.table b hlow hhigh
  | some p =>
      have hblock : p.1.2 = b := by simpa using List.find?_some hfind
      rw [Option.map_some, Option.getD_some, ← hblock]
      exact (h.fits p (List.mem_of_find?_eq_some hfind)).2.2

theorem fits_own (ino : UInt32) {b : ℕ} (hlow : 24 ≤ b) (hhigh : b < 60) : BlockFits b (w.own ino b) := by
  by_cases hmem : ∃ p ∈ pages, p.1 = (ino, b)
  · obtain ⟨⟨key, data⟩, hp, rfl⟩ := hmem
    rw [h.caches.own_of_mem hp]
    exact (h.fits _ hp).2.2
  · rw [h.caches.own_of_not_mem fun p hp heq => hmem ⟨p, hp, heq⟩, h.storage]
    exact hv.table b hlow hhigh

theorem fits_loaded (ino : UInt32) {b : ℕ} (hlow : 24 ≤ b) (hhigh : b < 60) : BlockFits b (w.loaded ino b) := by
  by_cases hmem : ∃ p ∈ pages, p.1 = (ino, b)
  · obtain ⟨⟨key, data⟩, hp, rfl⟩ := hmem
    rw [h.caches.loaded_of_mem hp]
    exact (h.fits _ hp).2.2
  · have hnone : w.pageCache.peek (ino, b) = none := h.caches.peek_eq_none fun p hp heq => hmem ⟨p, hp, heq⟩
    unfold loaded
    rw [hnone, h.caches.otherCopy, Option.map_none, Option.getD_none, h.storage]
    cases hfind : pages.find? (fun e => e.1.2 == b && e.1.1 != ino) with
    | none =>
        rw [Option.map_none, Option.getD_none]
        exact hv.table b hlow hhigh
    | some p =>
        have hblock : p.1.2 = b := by
          have hp := List.find?_some hfind
          simp only [Bool.and_eq_true, beq_iff_eq] at hp
          exact hp.1
        rw [Option.map_some, Option.getD_some, ← hblock]
        exact (h.fits p (List.mem_of_find?_eq_some hfind)).2.2

/-! ### Reading -/

theorem range_of_foundAt {ino : UInt32} {b j : ℕ} (hfound : w.FoundAt ino b j) : 24 ≤ b ∧ b < 60 := by
  have hlow := hfound.low
  have hhigh := hfound.high
  rw [h.ait2, hv.address] at hlow hhigh
  rw [hv.length] at hhigh
  exact ⟨hlow, hhigh⟩

theorem foundAt_root : w.FoundAt 18 28 2 := by
  have haddress : w.ait2.address = 24 := by rw [h.ait2, hv.address]
  have hlength : w.ait2.length = 4 := by rw [h.ait2, hv.length]
  have hagg := hv.aggSize
  have hslot := slotFits_root.mp ((h.fits_shown hv (b := 28) (by decide) (by decide)).slots 2 (by decide))
  refine ⟨by omega, by rw [haddress, hlength]; decide, by rw [h.aggSize]; omega, by decide, hslot.key,
    fun b' j' hlow hbefore hj' => ?_⟩
  have hne : ¬ (b' = 28 ∧ j' = 2) := by omega
  exact ((slotFits_of_ne hne).mp ((h.fits_shown hv (by omega) (by omega)).slots j' hj')).notRoot

/-- **The root directory** is read from its own copy of the block. -/
theorem readInode_root : readInode 18 w = .ok (w.inodeAt 18 28 2) w :=
  (h.calm hv).readInode_of_foundAt (h.foundAt_root hv)

omit hv in
theorem dtree_root : (w.inodeAt 18 28 2).dtree = .ok d := by
  have hshort : ¬ (Dinode.root (slotOf (w.own 18 28) 2)).length < dtEntryStart * dtSlotSize := by
    rw [h.root, h.rootSize]
    decide
  unfold Inode.dtree Dtree.fromInodeData inodeAt
  rw [if_neg hshort, h.root]

omit hv in
theorem readDtree_root : readDtree (w.inodeAt 18 28 2) w = .ok d w := by
  unfold readDtree
  rw [h.dtree_root]
  rfl

/-- An inode that is not the root directory lies in another slot. -/
theorem not_root_of_foundAt {ino : UInt32} (hne : ino ≠ 18) {b j : ℕ} (hfound : w.FoundAt ino b j) :
    ¬ (b = 28 ∧ j = 2) := by
  rintro ⟨rfl, rfl⟩
  have hkey := (slotFits_root.mp ((h.fits_shown hv (b := 28) (by decide) (by decide)).slots 2 (by decide))).key
  have hsame : inodeKey ino = inodeKey 18 :=
    Prod.ext (hfound.key.1.symm.trans hkey.1) (hfound.key.2.symm.trans hkey.2)
  exact inodeKey_ne hne hsame

/-- **An inode that was allocated** is no directory, and lies in another slot. -/
theorem allocated {child : UInt32} {b j : ℕ} (hj : j < inosPerPage) (hlow : w.ait2.address ≤ b)
    (hhigh : b < w.ait2.address + (w.ait2.length + scanSlack))
    (hchild : child = UInt32.ofNat (inoAt (b - w.ait2.address) j))
    (hfree : FreeSlot (b - w.ait2.address) (w.shown b) j) :
    24 ≤ b ∧ b < 60 ∧ ¬ (b = 28 ∧ j = 2) ∧ filesystemI ≤ child.toNat ∧ child ≠ 18 := by
  rw [h.ait2, hv.address] at hlow hhigh hchild hfree
  rw [hv.length] at hhigh
  have hhigh' : b < 60 := hhigh
  obtain ⟨hmode, hnumber⟩ := hfree
  have hnat : child.toNat = inoAt (b - 24) j := by
    rw [hchild]
    refine UInt32.toNat_ofNat_of_lt' ?_
    change _ < 4294967296
    unfold inoAt filesystemI inosPerPage at *
    omega
  refine ⟨hlow, hhigh', ?_, ?_, ?_⟩
  · rintro ⟨rfl, rfl⟩
    have hdir := (slotFits_root.mp ((h.fits_shown hv hlow hhigh').slots 2 (by decide))).dir
    unfold Dinode.isDir Dinode.fileType at hdir
    rw [hmode] at hdir
    cases hdir
  · rw [hnat]
    unfold inoAt
    omega
  · rintro rfl
    exact hnumber hnat.symm

/-! ### Writing -/

/-- **A change of another slot.** -/
theorem exists_update_file (hfew : pages.length < 4) {ino : UInt32} (hne : ino ≠ 18) {b j : ℕ} (hlow : 24 ≤ b)
    (hhigh : b < 60) (hj : j < inosPerPage) (hslot : ¬ (b = 28 ∧ j = 2)) {f : List UInt8 → List UInt8}
    (hlen : (f (slotOf (w.loaded ino b) j)).length = disize) (hf : FileSlot (f (slotOf (w.loaded ino b) j))) :
    ∃ w', updateInodePage ino b (j * disize) f w = .ok () w' ∧
      Midway v d (((ino, b), updateAt (j * disize) f (w.loaded ino b)) :: pages.filter fun p => p.1 ≠ (ino, b))
        marks w' := by
  have hloaded := h.fits_loaded hv ino hlow hhigh
  have hnew := hloaded.updateAt hj hlen ((slotFits_of_ne hslot).mpr hf)
  have hinside : b < v.aggSize := by
    have := hv.aggSize
    omega
  obtain ⟨w', hrun, hw'⟩ := h.toInCall.exists_update hv.toCalm hv.room hfew ino (j * disize) f
    hinside hnew.length
  refine ⟨w', hrun, hw', fun p hp => ?_, ?_, h.rootSize⟩
  · rcases List.mem_cons.mp hp with rfl | hp
    · exact ⟨hlow, hhigh, hnew⟩
    · exact h.fits p (List.mem_of_mem_filter hp)
  · have hother : ((18 : UInt32), 28) ≠ (ino, b) := fun heq => hne (congrArg Prod.fst heq).symm
    have hsame : w'.own 18 28 = w.own 18 28 := by
      refine h.caches.own_congr hw'.caches (hw'.storage.trans h.storage.symm) fun data => ?_
      rw [List.mem_cons, List.mem_filter]
      simp [hother]
    rw [hsame]
    exact h.root

/-- **A change of the entries of the root directory.** -/
theorem exists_update_root (hfew : pages.length < 4) {d' : Dtree} (hsize : d'.data.length = 288) :
    ∃ w', updateInodePage 18 28 (2 * disize) (Dinode.setRoot d'.toBytes) w = .ok () w' ∧
      Midway v d' (((18, 28), updateAt (2 * disize) (Dinode.setRoot d'.toBytes) (w.loaded 18 28)) ::
        pages.filter fun p => p.1 ≠ (18, 28)) marks w' := by
  have hloaded := h.fits_loaded hv 18 (b := 28) (by decide) (by decide)
  have hold := length_slotOf hloaded.length (i := 2) (by decide)
  have hlen : (Dinode.setRoot d'.toBytes (slotOf (w.loaded 18 28) 2)).length = disize :=
    (isEdit_setRoot_bytes (show d'.toBytes.length = 288 from hsize)).length _ hold
  have hnew := hloaded.updateAt (by decide) hlen
    (slotFits_root.mpr ((slotFits_root.mp (hloaded.slots 2 (by decide))).setRoot hold hsize))
  have hinside : 28 < v.aggSize := by
    have := hv.aggSize
    omega
  obtain ⟨w', hrun, hw'⟩ := h.toInCall.exists_update hv.toCalm hv.room hfew 18 (2 * disize)
    (Dinode.setRoot d'.toBytes) hinside hnew.length
  refine ⟨w', hrun, hw', fun p hp => ?_, ?_, hsize⟩
  · rcases List.mem_cons.mp hp with rfl | hp
    · exact ⟨show 24 ≤ 28 by decide, show 28 < 60 by decide, hnew⟩
    · exact h.fits p (List.mem_of_mem_filter hp)
  · rw [hw'.caches.own_of_mem (List.mem_cons_self ..), slotOf_updateAt_of_length hloaded.length (by decide) hlen,
      if_pos rfl]
    exact root_setRoot_bytes hsize hold

omit hv in
/-- **A mark.** -/
theorem exists_mark {ino : UInt32} {b : ℕ} {data : List UInt8} (hpage : ((ino, b), data) ∈ pages) :
    ∃ w', markPageDirty ino b w = .ok () w' ∧
      Midway v d (((ino, b), data) :: pages.filter fun p => p.1 ≠ (ino, b))
        (if (ino, b) ∈ marks then marks else marks ++ [(ino, b)]) w' := by
  obtain ⟨w', hrun, hw'⟩ := h.toInCall.exists_mark hpage
  refine ⟨w', hrun, hw', fun p hp => ?_, ?_, h.rootSize⟩
  · rcases List.mem_cons.mp hp with rfl | hp
    · exact h.fits _ hpage
    · exact h.fits p (List.mem_of_mem_filter hp)
  · have hsame : w'.own 18 28 = w.own 18 28 := by
      by_cases hkey : ((18 : UInt32), 28) = (ino, b)
      · rw [Prod.mk.injEq] at hkey
        obtain ⟨rfl, rfl⟩ := hkey
        rw [h.caches.own_of_mem hpage, hw'.caches.own_of_mem (List.mem_cons_self ..)]
      · refine h.caches.own_congr hw'.caches (hw'.storage.trans h.storage.symm) fun data' => ?_
        rw [List.mem_cons, List.mem_filter]
        simp [hkey]
    rw [hsame]
    exact h.root

/-- **The end of a call** whose last mark is that of the root directory. -/
theorem of_commit (hmarks : ∃ before, marks = before ++ [(18, 28)]) (hpage : ∃ data, ((18, 28), data) ∈ pages)
    (hmarked : ∀ p ∈ pages, p.1 ∈ marks) {result : CommitResult} {v' : Volume}
    (hcommit : commitTransaction w = .ok result v') : v'.OneDirectory d := by
  obtain ⟨hresting, hait2, hagg, -, -, hblocks⟩ := h.toInCall.of_commit hv.toResting hmarked hcommit
  refine ⟨hresting, hait2.trans hv.ait2, hagg ▸ hv.aggSize,
    fun block hlow hhigh => (hblocks block (hv.plain block hlow hhigh)).1, fun block hlow hhigh => ?_, ?_, h.rootSize⟩
  · rw [(hblocks block (hv.plain block hlow hhigh)).2]
    cases hlast : lastPage (cachedPages w.pageCache marks) block with
    | none =>
        rw [Option.getD_none]
        exact hv.table block hlow hhigh
    | some data =>
        obtain ⟨ino, page, -, hpeek, rfl⟩ := of_mem_cachedPages (mem_of_lastPage hlast)
        have hmem : (ino, block) ∈ w.pageCache.keys := Lru.mem_keys_iff.mpr ⟨page, hpeek⟩
        rw [h.caches.keys] at hmem
        obtain ⟨p, hp, hkey⟩ := List.mem_map.mp hmem
        obtain ⟨page', hpeek', hdata⟩ := h.caches.peek_of_mem hp
        rw [hkey] at hpeek'
        rw [Option.getD_some, Option.some.inj (hpeek.symm.trans hpeek'), hdata]
        have hfits := (h.fits p hp).2.2
        rwa [hkey] at hfits
  · obtain ⟨before, rfl⟩ := hmarks
    obtain ⟨data, hdata⟩ := hpage
    obtain ⟨page, hpeek, hpagedata⟩ := h.caches.peek_of_mem hdata
    have hlast : lastPage (cachedPages w.pageCache (before ++ [(18, 28)])) 28 = some data := by
      unfold cachedPages
      rw [List.filterMap_append, List.filterMap_cons, hpeek, Option.map_some, List.filterMap_nil, lastPage_append,
        if_pos rfl, hpagedata]
    rw [(hblocks 28 (hv.plain 28 (by decide) (by decide))).2, hlast, Option.getD_some,
      ← h.caches.own_of_mem hdata]
    exact h.root

omit hv in
theorem noted {active : ActiveTxn} (hactive : w.txMgr.active = some active) (block : ℕ) :
    Midway v d pages marks (w.noted active block) where
  toInCall := h.toInCall.noted hactive block
  fits := h.fits
  root := h.root
  rootSize := h.rootSize

/-! ### The entries of the root directory -/

section Entries

variable {P : List UInt16 → UInt32 → Prop} (hholds : d.Holds P) (hfew : pages.length < 4)

include hholds

theorem exists_nextEntryIndex : ∃ index, nextEntryIndex 18 w = .ok index w := by
  obtain ⟨entries, hentries, -⟩ := hholds.exists_entries
  refine ⟨UInt32.ofNat entries.length, ?_⟩
  unfold nextEntryIndex numEntries
  rw [bind_ok (h.readInode_root hv), bind_ok h.readDtree_root, hentries]
  rfl

include hfew

/-- **An entry is inserted**, or the call has nothing changed. -/
theorem exists_insertDirEntry {name : List UInt16} (hvalid : validName name = true) (hsafe : ¬ d.Overwrites name)
    {ino : UInt32} (hP : P name ino) (index : UInt32) :
    ∃ inserted w', insertDirEntry 18 name ino index w = .ok inserted w' ∧ (inserted = true →
      ∃ d' data, d'.Holds P ∧ Midway v d' (((18, 28), data) :: pages.filter fun p => p.1 ≠ (18, 28)) marks w') := by
  obtain ⟨inserted, d', hinsert, hholds'⟩ := hholds.exists_insert hvalid hsafe hP index
  have hrun : runDtree (Dtree.insert name ino index) d w = .ok (inserted, d') w := by
    unfold runDtree
    rw [hinsert]
    rfl
  unfold insertDirEntry
  rw [bind_ok (h.readInode_root hv), bind_ok h.readDtree_root, bind_ok hrun]
  cases inserted with
  | false => exact ⟨false, w, rfl, fun hfalse => absurd hfalse (by decide)⟩
  | true =>
      obtain ⟨w', hwrite, hw'⟩ := h.exists_update_root hv hfew hholds'.size
      exact ⟨true, w', bind_ok hwrite, fun _ => ⟨d', _, hholds', hw'⟩⟩

/-- **An entry is removed**, or there is none. -/
theorem exists_removeDirEntry (name : List UInt16) :
    ∃ removed w', removeDirEntry 18 name w = .ok removed w' ∧ (removed = none → w' = w) ∧
      ∀ ino, removed = some ino → P name ino ∧ ∃ d', d'.Holds P ∧
        Midway v d' (((18, 28), updateAt (2 * disize) (Dinode.setRoot d'.toBytes) (w.loaded 18 28)) ::
          pages.filter fun p => p.1 ≠ (18, 28)) marks w' := by
  obtain ⟨removed, d', hremove, hholds', hfound⟩ := hholds.exists_remove name
  have hrun : runDtree (Dtree.remove name) d w = .ok (removed, d') w := by
    unfold runDtree
    rw [hremove]
    rfl
  unfold removeDirEntry
  rw [bind_ok (h.readInode_root hv), bind_ok h.readDtree_root, bind_ok hrun]
  cases removed with
  | none => exact ⟨none, w, rfl, fun _ => rfl, fun ino hino => absurd hino (by simp)⟩
  | some ino =>
      obtain ⟨w', hwrite, hw'⟩ := h.exists_update_root hv hfew hholds'.size
      exact ⟨some ino, w', bind_ok hwrite, fun hnone => absurd hnone (by simp), fun ino' hino' =>
        ⟨hfound ino' hino', d', hholds', hw'⟩⟩

end Entries

/-- The root directory is marked. -/
theorem exists_markInodeDirty_root {data : List UInt8} (hpage : ((18, 28), data) ∈ pages) :
    ∃ w', markInodeDirty 18 w = .ok () w' ∧
      Midway v d (((18, 28), data) :: pages.filter fun p => p.1 ≠ (18, 28))
        (if (18, 28) ∈ marks then marks else marks ++ [(18, 28)]) w' := by
  obtain ⟨w', hrun, hw'⟩ := h.exists_mark hpage
  refine ⟨w', ?_, hw'⟩
  unfold markInodeDirty
  rw [bind_ok (h.readInode_root hv)]
  exact hrun

end Midway

/-- When only the root directory has changed, an inode is read, and changed, as it was before. -/
theorem Midway.slot_of_foundAt {v w : Volume} {d₀ d : Dtree} {data : List UInt8} {marks : List (UInt32 × ℕ)}
    (h : Midway v d [((18, 28), data)] marks w) (hv : v.OneDirectory d₀)
    (hothers : ∀ k < inosPerPage, k ≠ 2 → slotOf data k = slotOf (v.storage.block 28) k) {ino : UInt32}
    (hino : filesystemI ≤ ino.toNat) (hne : ino ≠ 18) {b j : ℕ} (hfound : w.FoundAt ino b j) :
    slotOf (w.own ino b) j = slotOf (v.storage.block b) j ∧ slotOf (w.loaded ino b) j = slotOf (v.storage.block b) j ∧
      FileSlot (slotOf (v.storage.block b) j) ∧ Dinode.fileset (slotOf (v.storage.block b) j) = filesystemI := by
  obtain ⟨hlow, hhigh⟩ := h.range_of_foundAt hv hfound
  have hslot := h.not_root_of_foundAt hv hne hfound
  have hother : ∀ p ∈ [(((18 : UInt32), 28), data)], p.1.1 ≠ ino := by
    intro p hp
    rw [List.mem_singleton.mp hp]
    exact Ne.symm hne
  have hshown : slotOf (w.shown b) j = slotOf (v.storage.block b) j := by
    rw [h.caches.shown, h.storage]
    by_cases hb : b = 28
    · rw [hb, List.find?_cons_of_pos (by simp), Option.map_some, Option.getD_some]
      exact hothers j hfound.slot fun hj => hslot ⟨hb, hj⟩
    · rw [List.find?_cons_of_neg (by simp [Ne.symm hb]), List.find?_nil, Option.map_none, Option.getD_none]
  refine ⟨?_, ?_, (slotFits_of_ne hslot).mp ((hv.table b hlow hhigh).slots j hfound.slot), ?_⟩
  · rw [h.caches.own_of_not_mem fun p hp heq => hother p hp (congrArg Prod.fst heq), h.storage]
  · rw [h.caches.loaded_eq_shown hother, hshown]
  · have hkey := hfound.key.1
    rw [hshown] at hkey
    rw [hkey]
    exact congrArg Prod.fst (if_pos hino : inodeKey ino = _)

/-- A file is changed and marked after the root directory has changed. -/
theorem Midway.exists_file_changed {v w : Volume} {d₀ d : Dtree} {data : List UInt8}
    (h : Midway v d [((18, 28), data)] [] w) (hv : v.OneDirectory d₀) {ino : UInt32} (hne : ino ≠ 18) {b j : ℕ}
    (hlow : 24 ≤ b) (hhigh : b < 60) (hj : j < inosPerPage) (hslot : ¬ (b = 28 ∧ j = 2))
    {f : List UInt8 → List UInt8} (hlen : (f (slotOf (w.loaded ino b) j)).length = disize)
    (hf : FileSlot (f (slotOf (w.loaded ino b) j))) :
    ∃ w₁ w₂ w₃, updateInode ino (w.inodeAt ino b j) f w = .ok () w₁ ∧
      markPageDirty ino (w.inodeAt ino b j).pageBlock w₁ = .ok () w₂ ∧ markInodeDirty 18 w₂ = .ok () w₃ ∧
      ∀ result v', commitTransaction w₃ = .ok result v' → v'.OneDirectory d := by
  have hkeep : [(((18 : UInt32), 28), data)].filter (fun p => decide (p.1 ≠ (ino, b))) = [((18, 28), data)] := by
    simp [Ne.symm hne]
  obtain ⟨w₁, hupdate, h₁⟩ := h.exists_update_file hv (show 1 < 4 by decide) hne hlow hhigh hj hslot hlen hf
  rw [hkeep] at h₁
  obtain ⟨w₂, hmark, h₂⟩ := h₁.exists_mark (List.mem_cons_self ..)
  rw [List.filter_cons_of_neg (by simp), hkeep, if_neg List.not_mem_nil, List.nil_append] at h₂
  obtain ⟨w₃, hmarkroot, h₃⟩ := h₂.exists_markInodeDirty_root hv (List.mem_cons_of_mem _ (List.mem_singleton_self _))
  have hroot : ((18 : UInt32), 28) ∉ [(ino, b)] := by
    simp [Ne.symm hne]
  rw [if_neg hroot] at h₃
  refine ⟨w₁, w₂, w₃, hupdate, hmark, hmarkroot, fun result v' hcommit => ?_⟩
  refine h₃.of_commit hv ⟨_, rfl⟩ ⟨data, List.mem_cons_self ..⟩ (fun p hp => ?_) hcommit
  rcases List.mem_cons.mp hp with rfl | hp
  · simp
  · rcases List.mem_cons.mp (List.mem_of_mem_filter hp) with rfl | hp
    · simp
    · rw [List.mem_singleton.mp hp]
      simp

/-- The first step of a call that removes an entry. -/
theorem OneDirectory.exists_removed {P : List UInt16 → UInt32 → Prop} {d : Dtree} {v : Volume} (h : v.OneDirectory d)
    (hholds : d.Holds P) (name : List UInt16) :
    ∃ removed w, removeDirEntry 18 name v.begun = .ok removed w ∧ (removed = none → w = v.begun) ∧
      ∀ ino, removed = some ino → P name ino ∧ ∃ d' data, d'.Holds P ∧ Midway v d' [((18, 28), data)] [] w ∧
        ∀ k < inosPerPage, k ≠ 2 → slotOf data k = slotOf (v.storage.block 28) k := by
  obtain ⟨removed, w, hrun, hnone, hsome⟩ := h.begun.exists_removeDirEntry h hholds (by decide) name
  refine ⟨removed, w, hrun, hnone, fun ino hino => ?_⟩
  obtain ⟨hP, d', hholds', hw⟩ := hsome ino hino
  have hbase : v.begun.loaded 18 28 = v.storage.block 28 :=
    h.begun.caches.loaded_of_fresh 18 fun p hp => absurd hp List.not_mem_nil
  rw [List.filter_nil, hbase] at hw
  refine ⟨hP, d', _, hholds', hw, fun k _ hk => ?_⟩
  rw [slotOf_updateAt (v.storage.length_block 28) (by decide)
    (isEdit_setRoot_bytes (show d'.toBytes.length = 288 from hw.rootSize)), if_neg hk]

/-- What a rename within the root directory does once its names were checked. -/
theorem OneDirectory.renameWithin_cases {P : List UInt16 → UInt32 → Prop} {d : Dtree} {v w : Volume}
    (h : v.OneDirectory d) (hholds : d.Holds P) {oldName newName : List UInt16} (hvalid : validName newName = true)
    (hsafe : ¬ (Dtree.takenOut oldName newName d).Overwrites newName) {ino : UInt32} (hP : P newName ino)
    {childIsDir : Bool} {exit : Exit Bool Bool}
    (hbody : renameWithin 18 oldName newName ino childIsDir v.begun = .ok exit w) :
    (∃ e, exit = .abort (.error e)) ∨ exit = .commit true ∧ ∃ d', d'.Holds P ∧
      ∀ result v', commitTransaction w = .ok result v' → v'.OneDirectory d' := by
  have hbegun := h.begun
  have hread := hbegun.readInode_root h
  obtain ⟨entries, hentries, hlookup, -⟩ := hholds.exists_entries
  have hrest : renameChecked 18 oldName newName ino d v.begun = .ok exit w → exit = .commit true ∧ ∃ d', d'.Holds P ∧
      ∀ result v', commitTransaction w = .ok result v' → v'.OneDirectory d' := by
    intro hbody
    unfold renameChecked at hbody
    obtain ⟨d', hrenamed, hholds'⟩ :=
      hholds.exists_renameEntry hvalid hsafe hP (UInt32.ofNat entries.length)
    have hindex : numEntries d v.begun = .ok (UInt32.ofNat entries.length) v.begun := by
      unfold numEntries
      rw [hentries]
      rfl
    have hrun : runDtree (renameEntry oldName newName ino (UInt32.ofNat entries.length)) d v.begun =
        .ok ((), d') v.begun := by
      unfold runDtree
      rw [hrenamed]
      rfl
    obtain ⟨w₁, hwrite, h₁⟩ := hbegun.exists_update_root h (by decide) hholds'.size
    rw [List.filter_nil] at h₁
    obtain ⟨w₂, hmark, h₂⟩ := h₁.exists_mark (List.mem_singleton_self _)
    rw [if_neg List.not_mem_nil] at h₂
    have hwrite' : updateInode 18 (v.begun.inodeAt 18 28 2) (Dinode.setRoot d'.toBytes) v.begun = .ok () w₁ := hwrite
    have hmark' : markPageDirty 18 (v.begun.inodeAt 18 28 2).pageBlock w₁ = .ok () w₂ := hmark
    rw [bind_ok hindex, bind_ok hread, bind_ok hbegun.readDtree_root, bind_ok hrun] at hbody
    simp only at hbody
    rw [bind_ok hwrite', bind_ok hmark'] at hbody
    cases hbody
    refine ⟨rfl, d', hholds', fun result v' hcommit => ?_⟩
    refine h₂.of_commit h ⟨[], rfl⟩ ⟨_, List.mem_cons_self ..⟩ (fun p hp => ?_) hcommit
    rcases List.mem_cons.mp hp with rfl | hp
    · simp
    · rw [List.mem_singleton.mp (List.mem_of_mem_filter hp)]
      simp
  unfold renameWithin at hbody
  rw [bind_ok hread, bind_ok hbegun.readDtree_root, hlookup, bind_ok (returnExcept_ok _ _)] at hbody
  cases hdest : entries.find? fun e => e.name = newName with
  | none =>
      rw [hdest] at hbody
      exact Or.inr (hrest hbody)
  | some replaced =>
      rw [hdest] at hbody
      simp only at hbody
      obtain ⟨dest, w', hdestread, hbody⟩ := of_bind_ok hbody
      obtain ⟨rfl, -⟩ := (hbegun.calm h).of_readInode_ok hdestread
      obtain ⟨refusal, w', hrefusal, hbody⟩ := of_bind_ok hbody
      obtain ⟨-, rfl⟩ := of_returnExcept_ok hrefusal
      cases refusal with
      | none => exact Or.inr (hrest hbody)
      | some e =>
          cases hbody
          exact Or.inl ⟨e, rfl⟩

/-- **The end of a call that has changed nothing.** -/
theorem OneDirectory.of_abort {d : Dtree} {v v' : Volume} (h : v.OneDirectory d)
    (habort : abortTransaction v.begun = .ok () v') : v'.OneDirectory d := by
  cases habort
  refine ⟨⟨⟨h.faults, h.size, h.pages⟩, rfl, h.empty, h.room⟩, h.ait2, h.aggSize, fun block hlow hhigh i hi => ?_,
    h.table, h.root, h.rootSize⟩
  have hplain := h.plain block hlow hhigh i hi
  refine ⟨hplain.1, ?_⟩
  rintro ⟨m, hm, htouch⟩
  obtain ⟨m₀, hm₀, rfl⟩ := Option.map_eq_some_iff.mp hm
  refine hplain.2 ⟨m₀, hm₀, Or.inl ?_⟩
  rcases htouch with hdesc | ⟨page, hpage, -⟩
  · exact hdesc
  · cases hpage

/-- A file without extents has none to free. -/
theorem extentsOf_blank {inode : Inode} (h : Dinode.root inode.dinode = zeros 288) : extentsOf inode = [] := by
  have hzero : ((Xtree.fromInodeData (zeros 288)).toOption.map fun xt => (xt.truncateExtents 0).1) = some [] := by
    decide +kernel
  unfold extentsOf
  split
  · unfold Inode.xtree
    rw [h]
    cases hxtree : Xtree.fromInodeData (zeros 288) with
    | error e => rfl
    | ok xt =>
        rw [hxtree] at hzero
        exact Option.some.inj hzero
  · rfl

theorem freeExtents_nil (v : Volume) : freeExtents [] v = .ok () v := by
  unfold freeExtents
  rw [modify_apply]
  simp only [List.foldl_nil, Option.map_id']

/-! ## The calls -/

/-- The root is the only directory, and its entries satisfy `P`. -/
def FilesOnly (P : List UInt16 → UInt32 → Prop) (v : Volume) : Prop :=
  ∃ d, v.OneDirectory d ∧ d.Holds P

section Calls

variable {P : List UInt16 → UInt32 → Prop} {v v' : Volume} (h : v.FilesOnly P)

include h

/-- **`create_file`** in the root directory. -/
theorem FilesOnly.of_createFile {name : String}
    (hsafe : ∀ d, v.OneDirectory d → ¬ d.Overwrites (encodeUtf16 name))
    (hP : ∀ ino : UInt32, filesystemI ≤ ino.toNat → ino ≠ 18 → P (encodeUtf16 name) ino) {ino : UInt32}
    (hrun : createFile 18 name v = .ok ino v') : v'.FilesOnly P := by
  obtain ⟨d, hone, hholds⟩ := h
  obtain ⟨exit, w, hbody, hend⟩ := of_transaction_ok hrun
  have hbegun := hone.begun
  unfold createFileBody at hbody
  obtain ⟨⟨child, b, off⟩, w₀, halloc, hbody⟩ := of_bind_ok hbody
  obtain ⟨j, rfl, hj, hlow, hhigh, -, hchild, hfree, rfl⟩ := (hbegun.calm hone).of_allocateInode_ok rfl halloc
  have hnoted := hbegun.noted (show v.begun.txMgr.active = some { txid := v.txMgr.nextTxid } from rfl) b
  cases hvalid : validName (encodeUtf16 name) with
  | false =>
      rw [hvalid] at hbody
      cases hbody
      rcases hend with ⟨hexit, -⟩ | ⟨hexit, -⟩ <;> cases hexit
  | true =>
      rw [hvalid] at hbody
      obtain ⟨hlow', hhigh', hslot, hino, hne⟩ := hbegun.allocated hone hj hlow hhigh hchild hfree
      -- the slot of the new file
      have hloaded : (v.begun.noted { txid := v.txMgr.nextTxid } b).loaded child b = v.begun.shown b :=
        hbegun.caches.loaded_eq_shown (fun p hp => absurd hp List.not_mem_nil) b
      have hold := (hbegun.fits_shown hone hlow' hhigh').slots j hj
      have hlen := length_slotOf (hbegun.fits_shown hone hlow' hhigh').length hj
      have hnew := ((slotFits_of_ne hslot).mp hold).newFile hlen hfree.1 hino hne
      rw [← hloaded] at hnew hlen
      obtain ⟨w₁, hupdate, h₁⟩ := hnoted.exists_update_file hone (by decide) hne hlow' hhigh' hj hslot
        (newDinode_spec hlen 0x81a4 0 1 hino).1 hnew
      rw [List.filter_nil] at h₁
      obtain ⟨w₂, hmark, h₂⟩ := h₁.exists_mark (List.mem_singleton_self _)
      rw [if_neg List.not_mem_nil, List.nil_append] at h₂
      obtain ⟨index, hindex⟩ := h₂.exists_nextEntryIndex hone hholds
      have hfew : ∀ (p : (UInt32 × ℕ) × List UInt8) (q : (UInt32 × ℕ) × List UInt8 → Bool),
          (p :: [p].filter q).length < 4 := by
        intro p q
        have := List.length_filter_le q [p]
        rw [List.length_singleton] at this
        rw [List.length_cons]
        omega
      obtain ⟨inserted, w₃, hinsert, h₃⟩ := h₂.exists_insertDirEntry hone hholds (hfew _ _) hvalid (hsafe d hone)
        (hP child hino hne) index
      unfold enterInode at hbody
      simp only at hbody
      rw [if_neg (by decide), bind_ok hupdate, bind_ok hmark, bind_ok hindex, bind_ok hinsert] at hbody
      cases inserted with
      | false =>
          cases hbody
          rcases hend with ⟨hexit, -⟩ | ⟨hexit, -⟩ <;> cases hexit
      | true =>
          obtain ⟨d', data, hholds', h₃⟩ := h₃ rfl
          obtain ⟨w₄, hmarkroot, h₄⟩ := h₃.exists_markInodeDirty_root hone (List.mem_cons_self ..)
          rw [if_neg (by decide), bind_ok hmarkroot] at hbody
          cases hbody
          rcases hend with ⟨-, result, hcommit⟩ | ⟨hexit, -⟩
          · have hroot : ((18 : UInt32), 28) ∉ [(child, b)] := by
              simp [Ne.symm hne]
            rw [if_neg hroot] at h₄
            refine ⟨d', h₄.of_commit hone ⟨_, rfl⟩ ⟨data, List.mem_cons_self ..⟩ (fun p hp => ?_) hcommit, hholds'⟩
            simp only [List.mem_cons, List.mem_filter, List.mem_append, List.not_mem_nil, or_false] at hp ⊢
            rcases hp with rfl | ⟨rfl | ⟨rfl | ⟨rfl, -⟩, -⟩, -⟩ <;> simp
          · cases hexit

/-- **`unlink_file`** in the root directory. -/
theorem FilesOnly.of_unlinkFile (hfile : ∀ name ino, P name ino → filesystemI ≤ ino.toNat ∧ ino ≠ 18) {name : String}
    {found : Bool} (hrun : unlinkFile 18 name v = .ok found v') : v'.FilesOnly P := by
  obtain ⟨d, hone, hholds⟩ := h
  obtain ⟨exit, w, hbody, hend⟩ := of_transaction_ok hrun
  obtain ⟨removed, w₁, hremove, hnone, hsome⟩ := hone.exists_removed hholds (encodeUtf16 name)
  unfold unlinkFileBody at hbody
  rw [bind_ok hremove] at hbody
  cases removed with
  | none =>
      rw [hnone rfl] at hbody
      cases hbody
      rcases hend with ⟨hexit, -⟩ | ⟨-, habort⟩
      · cases hexit
      · exact ⟨d, hone.of_abort habort, hholds⟩
  | some childIno =>
      obtain ⟨hP, d', data, hholds', h₁, hothers⟩ := hsome childIno rfl
      obtain ⟨hino, hne⟩ := hfile _ _ hP
      simp only at hbody
      obtain ⟨child, w', hread, hbody⟩ := of_bind_ok hbody
      obtain ⟨rfl, b, j, hfound, rfl⟩ := (h₁.calm hone).of_readInode_ok hread
      obtain ⟨hlow, hhigh⟩ := h₁.range_of_foundAt hone hfound
      obtain ⟨hown, hloaded, hslotfile, hkey⟩ := h₁.slot_of_foundAt hone hothers hino hne hfound
      have hlen := length_slotOf (v.storage.length_block b) hfound.slot
      have hblank := extentsOf_blank (show Dinode.root (w'.inodeAt childIno b j).dinode = zeros 288 by
        unfold inodeAt
        rw [hown]
        exact hslotfile.blank (Or.inr hkey))
      have hchanged : ∀ f : List UInt8 → List UInt8, (f (slotOf (v.storage.block b) j)).length = disize →
          FileSlot (f (slotOf (v.storage.block b) j)) → _ := fun f hf hfits =>
        h₁.exists_file_changed hone hne hlow hhigh hfound.slot (h₁.not_root_of_foundAt hone hne hfound)
          (hloaded.symm ▸ hf) (hloaded.symm ▸ hfits)
      have hdir : (w'.inodeAt childIno b j).isDir = false := by
        unfold inodeAt Inode.isDir
        rw [hown]
        exact hslotfile.notDir
      rw [if_neg (by rw [hdir]; decide), bind_ok (get_apply w')] at hbody
      have hcommits : exit = .commit true ∧ ∀ result, commitTransaction w = .ok result v' → v'.OneDirectory d' := by
        split at hbody
        · obtain ⟨w₂, w₃, w₄, hupdate, hmark, hmarkroot, hcommitted⟩ :=
            hchanged freedDinode (length_freedDinode hlen) (hslotfile.freed hlen hkey)
          rw [bind_ok hupdate, hblank, bind_ok (freeExtents_nil w₂), bind_ok hmark, bind_ok hmarkroot] at hbody
          cases hbody
          exact ⟨rfl, fun result => hcommitted result v'⟩
        · obtain ⟨w₂, w₃, w₄, hupdate, hmark, hmarkroot, hcommitted⟩ :=
            hchanged (Dinode.setNlink _) (length_write hlen _ _ (by decide) _) (hslotfile.unlinked hlen hkey _)
          rw [bind_ok hupdate, bind_ok hmark, bind_ok hmarkroot] at hbody
          cases hbody
          exact ⟨rfl, fun result => hcommitted result v'⟩
      obtain ⟨rfl, hcommitted⟩ := hcommits
      rcases hend with ⟨-, result, hcommit⟩ | ⟨hexit, -⟩
      · exact ⟨d', hcommitted result hcommit, hholds'⟩
      · cases hexit

/-- **`rmdir`** in the root directory, where nothing can be removed. -/
theorem FilesOnly.of_rmdir (hfile : ∀ name ino, P name ino → filesystemI ≤ ino.toNat ∧ ino ≠ 18) {name : String}
    {found : Bool} (hrun : rmdir 18 name v = .ok found v') : v'.FilesOnly P := by
  obtain ⟨d, hone, hholds⟩ := h
  obtain ⟨exit, w, hbody, hend⟩ := of_transaction_ok hrun
  obtain ⟨removed, w₁, hremove, hnone, hsome⟩ := hone.exists_removed hholds (encodeUtf16 name)
  unfold rmdirBody at hbody
  rw [bind_ok hremove] at hbody
  cases removed with
  | none =>
      rw [hnone rfl] at hbody
      cases hbody
      rcases hend with ⟨hexit, -⟩ | ⟨-, habort⟩
      · cases hexit
      · exact ⟨d, hone.of_abort habort, hholds⟩
  | some childIno =>
      obtain ⟨hP, d', data, hholds', h₁, hothers⟩ := hsome childIno rfl
      obtain ⟨hino, hne⟩ := hfile _ _ hP
      simp only at hbody
      obtain ⟨child, w', hread, hbody⟩ := of_bind_ok hbody
      obtain ⟨rfl, b, j, hfound, rfl⟩ := (h₁.calm hone).of_readInode_ok hread
      obtain ⟨hown, -, hslotfile, -⟩ := h₁.slot_of_foundAt hone hothers hino hne hfound
      have hdir : (w'.inodeAt childIno b j).isDir = false := by
        unfold inodeAt Inode.isDir
        rw [hown]
        exact hslotfile.notDir
      rw [if_pos (by rw [hdir]; decide)] at hbody
      cases hbody
      rcases hend with ⟨hexit, -⟩ | ⟨hexit, -⟩ <;> cases hexit

/-- **`rename`** within the root directory. -/
theorem FilesOnly.of_rename (hfile : ∀ name ino, P name ino → filesystemI ≤ ino.toNat ∧ ino ≠ 18)
    {oldName newName : String}
    (hsafe : ∀ d, v.OneDirectory d →
      ¬ (Dtree.takenOut (encodeUtf16 oldName) (encodeUtf16 newName) d).Overwrites (encodeUtf16 newName))
    (hP : ∀ ino : UInt32, filesystemI ≤ ino.toNat → ino ≠ 18 → P (encodeUtf16 newName) ino) {done : Bool}
    (hrun : rename 18 oldName 18 newName v = .ok done v') : v'.FilesOnly P := by
  obtain ⟨d, hone, hholds⟩ := h
  obtain ⟨exit, w, hbody, hend⟩ := of_transaction_ok hrun
  have hcases : (∃ e, exit = .abort (.error e)) ∨ exit = .commit true ∧ ∃ d', d'.Holds P ∧
      ∀ result v', commitTransaction w = .ok result v' → v'.OneDirectory d' := by
    have hbegun := hone.begun
    obtain ⟨entries, -, hlookup, hall, -⟩ := hholds.exists_entries
    unfold renameBody at hbody
    cases hvalidOld : validName (encodeUtf16 oldName) with
    | false =>
        rw [hvalidOld, if_pos (by decide)] at hbody
        cases hbody
        exact Or.inl ⟨_, rfl⟩
    | true =>
        cases hvalid : validName (encodeUtf16 newName) with
        | false =>
            rw [hvalidOld, if_neg (by decide), hvalid, if_pos (by decide)] at hbody
            cases hbody
            exact Or.inl ⟨_, rfl⟩
        | true =>
            rw [hvalidOld, if_neg (by decide), hvalid, if_neg (by decide), bind_ok (hbegun.readInode_root hone),
              bind_ok hbegun.readDtree_root, hlookup, bind_ok (returnExcept_ok _ _)] at hbody
            cases hfind : entries.find? fun e => e.name = encodeUtf16 oldName with
            | none =>
                rw [hfind] at hbody
                cases hbody
                exact Or.inl ⟨_, rfl⟩
            | some entry =>
                rw [hfind] at hbody
                simp only at hbody
                obtain ⟨child, w', hchild, hbody⟩ := of_bind_ok hbody
                obtain ⟨rfl, -⟩ := (hbegun.calm hone).of_readInode_ok hchild
                rw [if_neg (by simp)] at hbody
                obtain ⟨hino, hne⟩ := hfile _ _ (hall entry (List.mem_of_find?_eq_some hfind))
                exact hone.renameWithin_cases hholds hvalid (hsafe d hone) (hP entry.inumber hino hne) hbody
  rcases hcases with ⟨e, rfl⟩ | ⟨rfl, d', hholds', hcommitted⟩
  · rcases hend with ⟨hexit, -⟩ | ⟨hexit, -⟩ <;> cases hexit
  · rcases hend with ⟨-, result, hcommit⟩ | ⟨hexit, -⟩
    · exact ⟨d', hcommitted result v' hcommit, hholds'⟩
    · cases hexit

end Calls

/-! ## Between two calls -/

/-- **What is read as a directory** is the root directory. -/
theorem OneDirectory.of_isDir {d : Dtree} {v : Volume} (h : v.OneDirectory d) {ino : UInt32} {inode : Inode} {w : Volume}
    (hread : readInode ino v = .ok inode w) (hdir : inode.isDir = true) :
    ino = 18 ∧ inode.dtree = .ok d := by
  obtain ⟨rfl, b, j, hfound, rfl⟩ := h.toCalm.of_readInode_ok hread
  have hlow := hfound.low
  have hhigh := hfound.high
  rw [h.address] at hlow hhigh
  rw [h.length] at hhigh
  have hfits := (h.table b hlow hhigh).slots j hfound.slot
  have hown : (w.inodeAt ino b j).dinode = slotOf (w.storage.block b) j := by
    unfold inodeAt
    rw [h.toResting.own]
  by_cases hslot : b = 28 ∧ j = 2
  · obtain ⟨rfl, rfl⟩ := hslot
    have hkey := hfound.key
    rw [h.toResting.shown] at hkey
    have hroot := (slotFits_root.mp hfits).key
    refine ⟨by_contra fun hne => inodeKey_ne hne ?_, ?_⟩
    · exact Prod.ext (hkey.1.symm.trans hroot.1) (hkey.2.symm.trans hroot.2)
    · have hshort : ¬ d.data.length < dtEntryStart * dtSlotSize := by
        rw [h.rootSize]
        decide
      unfold Inode.dtree Dtree.fromInodeData
      rw [hown, h.root, if_neg hshort]
  · have hnotdir := ((slotFits_of_ne hslot).mp hfits).notDir
    unfold Inode.isDir at hdir
    rw [hown, hnotdir] at hdir
    cases hdir

/-- The root directory is read. -/
theorem OneDirectory.exists_root {d : Dtree} {v : Volume} (h : v.OneDirectory d) :
    ∃ inode w, readInode 18 v = .ok inode w ∧ inode.isDir = true := by
  have hfound := h.begun.foundAt_root h
  have hread := h.toCalm.readInode_of_foundAt
    ⟨hfound.low, hfound.high, hfound.inside, hfound.slot, hfound.key, hfound.first⟩
  refine ⟨_, _, hread, ?_⟩
  have hslot := slotFits_root.mp ((h.table 28 (by decide) (by decide)).slots 2 (by decide))
  show Dinode.isDir (slotOf (v.own 18 28) 2) = true
  rw [h.toResting.own]
  exact hslot.dir

/-- **A new filesystem** has one directory, without entries. -/
theorem FilesOnly.of_create (P : List UInt16 → UInt32 → Prop) {numBlocks : ℕ} (hblocks : 4096 ≤ numBlocks)
    (hmax : numBlocks < 2 ^ 64) {v : Volume} {s : Storage}
    (hopen : openFromStorage (Mkfs.createFilesystemWithBlocks numBlocks) = .ok v s) : v.FilesOnly P := by
  obtain ⟨v', hopen', h⟩ := exists_hasTable hblocks hmax
  rw [hopen'] at hopen
  cases hopen
  have hempty : Dtree.IsEmptyRoot (rootIn newTable 28 2) := by
    refine ⟨?_, ?_, ?_, ?_⟩ <;> decide +kernel
  have hroot : RootSlot (newTable 28 2) := by
    refine ⟨?_, ?_⟩ <;> decide
  have hfile : ∀ block slot, ¬ (block = 28 ∧ slot = 2) → FileSlot (newTable block slot) := by
    have hbmap : FileSlot Mkfs.bmapInodeBytes := by
      refine ⟨?_, ?_, ?_⟩ <;> decide
    have haggregate : FileSlot Mkfs.aggregateInodeBytes := by
      refine ⟨?_, ?_, ?_⟩ <;> decide
    have hfree : FileSlot (zeros disize) := by
      refine ⟨?_, ?_, ?_⟩ <;> decide +kernel
    intro block slot hne
    unfold newTable
    split
    · exact hbmap
    · split
      · exact haggregate
      · exact hfree
  refine ⟨rootIn newTable 28 2, ⟨h.toResting, h.ait2, h.aggSize, h.plain, fun block hlow hhigh => ?_, ?_, hempty.1⟩,
    [], ∅, hempty.represents, fun name ino hlookup => ?_⟩
  · refine ⟨v.storage.length_block block, fun slot hslot => ?_⟩
    rw [h.table block slot hlow hhigh hslot]
    unfold SlotFits
    split
    · next heq =>
        rw [heq.1, heq.2]
        exact hroot
    · next hne => exact hfile block slot hne
  · rw [h.table 28 2 (by decide) (by decide) (by decide)]
    rfl
  · rw [Finmap.lookup_empty] at hlookup
    cases hlookup

end Volume

end JfsFuse
