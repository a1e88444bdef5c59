import JfsFuse.Btree.DtreeRefinement
import JfsFuse.Fuse.Resume

/-!
# Looking up and listing

`lookup` and `readdir` read the same directory root, but both treat `.` and `..` apart: `lookup`
answers them without a look at the entries, and `readdir` lists them in front of the entries.  They
agree on a directory whose entries have other names, each once.
-/

namespace JfsFuse

open ByteBuf Program

/-! ## Names and their units -/

theorem fromUtf16Lossy_cons {unit : UInt16} (h : unit < 0xD800 ∨ 0xE000 ≤ unit) (rest : List UInt16) :
    fromUtf16Lossy (unit :: rest) = Char.ofNat unit.toNat :: fromUtf16Lossy rest := by
  have hplain : ¬ (0xD800 ≤ unit ∧ unit < 0xE000) := by
    rw [UInt16.le_iff_toNat_le, UInt16.lt_iff_toNat_lt]
    rw [UInt16.lt_iff_toNat_lt, UInt16.le_iff_toNat_le] at h
    change unit.toNat < 0xD800 ∨ 0xE000 ≤ unit.toNat at h
    change ¬ (0xD800 ≤ unit.toNat ∧ unit.toNat < 0xE000)
    omega
  have hhigh : ¬ (0xD800 ≤ unit ∧ unit < 0xDC00) := by
    rintro ⟨hlow, hlt⟩
    exact hplain ⟨hlow, UInt16.lt_trans hlt (show (0xDC00 : UInt16) < 0xE000 by decide)⟩
  cases rest with
  | nil =>
      unfold fromUtf16Lossy
      rw [if_neg hplain]
  | cons next rest =>
      conv => lhs; unfold fromUtf16Lossy
      rw [if_neg fun hpair => hhigh ⟨hpair.1, hpair.2.1⟩, if_neg hplain]

theorem fromUtf16Lossy_pair {high low : UInt16} (hhigh : 0xD800 ≤ high ∧ high < 0xDC00)
    (hlow : 0xDC00 ≤ low ∧ low < 0xE000) (rest : List UInt16) :
    fromUtf16Lossy (high :: low :: rest) = surrogatePair high low :: fromUtf16Lossy rest := by
  conv => lhs; unfold fromUtf16Lossy
  rw [if_pos ⟨hhigh.1, hhigh.2, hlow⟩]

/-- The units of a character. -/
def unitsOf (c : Char) : List UInt16 :=
  if c.toNat < 0x10000 then [UInt16.ofNat c.toNat]
  else [UInt16.ofNat (0xD800 + (c.toNat - 0x10000) / 0x400), UInt16.ofNat (0xDC00 + (c.toNat - 0x10000) % 0x400)]

theorem encodeUtf16_eq (name : String) : encodeUtf16 name = name.toList.flatMap unitsOf :=
  rfl

/-- A character is read back from its units. -/
theorem fromUtf16Lossy_unitsOf (c : Char) (rest : List UInt16) :
    fromUtf16Lossy (unitsOf c ++ rest) = c :: fromUtf16Lossy rest := by
  have hvalid : c.toNat < 0xD800 ∨ 0xDFFF < c.toNat ∧ c.toNat < 0x110000 := c.valid
  unfold unitsOf
  split
  · next hlt =>
      have hunit : (UInt16.ofNat c.toNat).toNat = c.toNat := UInt16.toNat_ofNat_of_lt' hlt
      rw [List.singleton_append, fromUtf16Lossy_cons, hunit, Char.ofNat_toNat]
      rw [UInt16.lt_iff_toNat_lt, UInt16.le_iff_toNat_le, hunit]
      change c.toNat < 0xD800 ∨ 0xE000 ≤ c.toNat
      omega
  · next hge =>
      have hhigh : (UInt16.ofNat (0xD800 + (c.toNat - 0x10000) / 0x400)).toNat =
          0xD800 + (c.toNat - 0x10000) / 0x400 := UInt16.toNat_ofNat_of_lt' (by
        change _ < 65536
        omega)
      have hlow : (UInt16.ofNat (0xDC00 + (c.toNat - 0x10000) % 0x400)).toNat =
          0xDC00 + (c.toNat - 0x10000) % 0x400 := UInt16.toNat_ofNat_of_lt' (by
        change _ < 65536
        omega)
      rw [List.cons_append, List.singleton_append, fromUtf16Lossy_pair]
      · have hcode : 0x10000 + (0xD800 + (c.toNat - 0x10000) / 0x400 - 0xD800) * 0x400 +
            (0xDC00 + (c.toNat - 0x10000) % 0x400 - 0xDC00) = c.toNat := by
          omega
        unfold surrogatePair
        rw [hhigh, hlow, hcode, Char.ofNat_toNat]
      · rw [UInt16.lt_iff_toNat_lt, UInt16.le_iff_toNat_le, hhigh]
        change 0xD800 ≤ _ ∧ _ < 0xDC00
        omega
      · rw [UInt16.lt_iff_toNat_lt, UInt16.le_iff_toNat_le, hlow]
        change 0xDC00 ≤ _ ∧ _ < 0xE000
        omega

/-- **A name is read back from its units.** -/
theorem fromUtf16Lossy_encodeUtf16 (name : String) : fromUtf16Lossy (encodeUtf16 name) = name.toList := by
  rw [encodeUtf16_eq]
  induction name.toList with
  | nil => rfl
  | cons c rest ih => rw [List.flatMap_cons, fromUtf16Lossy_unitsOf, ih]

theorem encodeUtf16_inj {name name' : String} (h : encodeUtf16 name = encodeUtf16 name') : name = name' := by
  have hchars := congrArg fromUtf16Lossy h
  rw [fromUtf16Lossy_encodeUtf16, fromUtf16Lossy_encodeUtf16] at hchars
  exact String.toList_inj.mp hchars

/-- A name without a zero is listed as it is. -/
theorem entryName_encodeUtf16 {name : String} (hzero : '\u0000' ∉ name.toList) :
    entryName (encodeUtf16 name) = name.toList := by
  unfold entryName
  rw [fromUtf16Lossy_encodeUtf16]
  have hkeep : name.toList.reverse.dropWhile (· = '\u0000') = name.toList.reverse := by
    cases hrev : name.toList.reverse with
    | nil => rfl
    | cons c rest =>
        apply List.dropWhile_cons_of_neg
        have hmem : c ∈ name.toList := List.mem_reverse.mp (hrev ▸ List.mem_cons_self ..)
        simp only [decide_eq_true_eq]
        exact fun heq => hzero (heq ▸ hmem)
  rw [hkeep, List.reverse_reverse]

namespace FuseFs

open DirectoryCursor

/-- `lookup`. -/
def lookup (parentIno : UInt32) (name : String) : FuseM (Option UInt32) := do
  if name = "." then return some parentIno
  else
    match ← readInode? parentIno with
    | none => return none
    | some parent =>
        if !parent.isDir then return none
        else if name = ".." then
          let dtroot := Dinode.root parent.dinode
          if 24 ≤ dtroot.length then return some (UInt32.ofNat (readLE dtroot 20 4)) else return none
        else
          match parent.dtree.bind fun dtree => dtree.lookup (encodeUtf16 name) with
          | .error .panic => throw Errno.panicked
          | .error _ => return none
          | .ok entry => return entry.map DirEntry.inumber

/-- The replies to READDIR, from the front, and to LOOKUP agree on a directory: each name is listed
once, and with the inode number that is found for it. -/
def Agree (fs : FuseFs) (dir : UInt32) : Prop :=
  ∃ offered fs', readdir dir 0 fs = .ok (some offered) fs' ∧ (offered.map Offered.name).Nodup ∧
    ∀ (name : String) (ino : UInt32), (∃ entry ∈ offered, entry.name = name.toList ∧ entry.ino = ino) ↔
      ∃ fs'', lookup dir name fs = .ok (some ino) fs''

/-- A name that can be given to a file. -/
structure PlainName (name : String) : Prop where
  noDot : name ≠ "."
  noDotdot : name ≠ ".."
  noZero : '\u0000' ∉ name.toList

/-- The entries have names that can be given to files, each its own. -/
structure PlainEntries (entries : List DirEntry) : Prop where
  plain : ∀ entry ∈ entries, ∃ name, PlainName name ∧ entry.name = encodeUtf16 name
  nodup : (entries.map DirEntry.name).Nodup

/-- What an offered entry says. -/
def Offered.pair (offered : Offered) : List Char × UInt32 :=
  (offered.name, offered.ino)

/-- What the loop of `readdir` lists. -/
theorem pairs_of_listEntries {startIdx i : ℕ} {entries : List DirEntry} {fs fs' : FuseFs} {offered : List Offered}
    (h : listEntries startIdx i entries fs = .ok offered fs') :
    offered.map Offered.pair = entries.map fun entry => (entryName entry.name, entry.inumber) := by
  induction entries generalizing i fs offered with
  | nil =>
      cases h
      rfl
  | cons entry rest ih =>
      unfold listEntries at h
      obtain ⟨kind, fs₁, -, h⟩ := of_bind_ok h
      obtain ⟨others, fs₂, hothers, h⟩ := of_bind_ok h
      cases h
      rw [List.map_cons, List.map_cons, ih hothers]
      rfl

namespace PlainEntries

variable {entries : List DirEntry}

/-- An entry is listed with the name it was given. -/
theorem mem_pairs_iff (h : PlainEntries entries) (name : String) (ino : UInt32) :
    (name.toList, ino) ∈ entries.map (fun entry => (entryName entry.name, entry.inumber)) ↔
      ∃ entry ∈ entries, entry.name = encodeUtf16 name ∧ entry.inumber = ino := by
  rw [List.mem_map]
  refine exists_congr fun entry => and_congr_right fun hentry => ?_
  obtain ⟨given, hplain, hunits⟩ := h.plain entry hentry
  rw [Prod.mk.injEq, hunits, entryName_encodeUtf16 hplain.noZero, String.toList_inj]
  refine and_congr_left fun _ => ⟨congrArg encodeUtf16, encodeUtf16_inj⟩

theorem nodup_names (h : PlainEntries entries) : (entries.map fun entry => entryName entry.name).Nodup := by
  have hcomp : (entries.map fun entry => entryName entry.name) = (entries.map DirEntry.name).map entryName := by
    rw [List.map_map]
    rfl
  rw [hcomp]
  refine List.Nodup.map_on (fun units hunits units' hunits' heq => ?_) h.nodup
  obtain ⟨entry, hentry, rfl⟩ := List.mem_map.mp hunits
  obtain ⟨entry', hentry', rfl⟩ := List.mem_map.mp hunits'
  obtain ⟨given, hplain, hgiven⟩ := h.plain entry hentry
  obtain ⟨given', hplain', hgiven'⟩ := h.plain entry' hentry'
  rw [hgiven, hgiven', entryName_encodeUtf16 hplain.noZero, entryName_encodeUtf16 hplain'.noZero] at heq
  rw [hgiven, hgiven', String.toList_inj.mp heq]

/-- A search finds the one entry of a name. -/
theorem find?_eq_some_iff (h : PlainEntries entries) (units : List UInt16) (ino : UInt32) :
    (entries.find? fun e => e.name = units).map DirEntry.inumber = some ino ↔
      ∃ entry ∈ entries, entry.name = units ∧ entry.inumber = ino := by
  rw [Option.map_eq_some_iff]
  constructor
  · rintro ⟨entry, hfind, hino⟩
    exact ⟨entry, List.mem_of_find?_eq_some hfind, by simpa using List.find?_some hfind, hino⟩
  · rintro ⟨entry, hentry, hname, hino⟩
    cases hfind : entries.find? fun e => e.name = units with
    | none => exact absurd (decide_eq_true hname) (List.find?_eq_none.mp hfind entry hentry)
    | some found =>
        have hfound : found.name = units := by simpa using List.find?_some hfind
        have hsame : found = entry :=
          List.inj_on_of_nodup_map h.nodup (List.mem_of_find?_eq_some hfind) hentry (hfound.trans hname.symm)
        exact ⟨entry, congrArg some hsame, hino⟩

/-- `.` and `..` are no entries. -/
theorem not_named_dot (h : PlainEntries entries) {name : String} (hname : name = "." ∨ name = "..") (ino : UInt32) :
    ¬ ∃ entry ∈ entries, entry.name = encodeUtf16 name ∧ entry.inumber = ino := by
  rintro ⟨entry, hentry, hunits, -⟩
  obtain ⟨given, hplain, hgiven⟩ := h.plain entry hentry
  have hsame := encodeUtf16_inj (hgiven.symm.trans hunits)
  rcases hname with rfl | rfl
  · exact hplain.noDot hsame
  · exact hplain.noDotdot hsame

theorem ne_dots (h : PlainEntries entries) {name : List Char}
    (hname : name ∈ entries.map fun entry => entryName entry.name) : name ≠ ['.'] ∧ name ≠ ['.', '.'] := by
  obtain ⟨entry, hentry, rfl⟩ := List.mem_map.mp hname
  obtain ⟨given, hplain, hunits⟩ := h.plain entry hentry
  rw [hunits, entryName_encodeUtf16 hplain.noZero]
  exact ⟨fun heq => hplain.noDot (String.toList_inj.mp heq), fun heq => hplain.noDotdot (String.toList_inj.mp heq)⟩

end PlainEntries

section Agreement

variable {fs : FuseFs} {dir : UInt32} {inode : Inode}
  (hread : Volume.readInode dir fs.volume = .ok inode fs.volume)

include hread

theorem readInode?_of_ok : readInode? dir fs = .ok (some inode) fs := by
  have hvolume : onVolume Errno.enoent (Volume.readInode dir) fs = .ok inode fs := by
    unfold onVolume
    rw [hread]
  exact tryCatch_ok ((bind_ok hvolume).trans rfl)

variable (hdir : inode.isDir = true) {d : Dtree} (hdtree : inode.dtree = .ok d) {entries : List DirEntry}

omit hread in
theorem length_of_dtree_ok (hdtree : inode.dtree = .ok d) : 24 ≤ (Dinode.root inode.dinode).length := by
  by_contra hshort
  have hlt : (Dinode.root inode.dinode).length < dtEntryStart * dtSlotSize := by
    unfold dtEntryStart dtSlotSize
    omega
  unfold Inode.dtree Dtree.fromInodeData at hdtree
  rw [if_pos hlt] at hdtree
  cases hdtree

include hdir hdtree

/-- What `lookup` answers in a directory. -/
theorem lookup_eq (hlookup : ∀ units, d.lookup units = .ok (entries.find? fun e => e.name = units)) (name : String) :
    lookup dir name fs = .ok (if name = "." then some dir
      else if name = ".." then some (UInt32.ofNat (readLE (Dinode.root inode.dinode) 20 4))
      else (entries.find? fun e => e.name = encodeUtf16 name).map DirEntry.inumber) fs := by
  have hlength := length_of_dtree_ok hdtree
  unfold lookup
  split
  · rfl
  · rw [bind_ok (readInode?_of_ok hread)]
    simp only [hdir, Bool.not_true, Bool.false_eq_true, if_false]
    split
    · rfl
    · rw [hdtree]
      simp only [Except.bind, hlookup]
      rfl

/-- What `readdir` lists of a directory: `.` and `..`, and then its entries. -/
theorem exists_readdir (hlisted : d.entries = .ok entries) :
    ∃ offered fs', readdir dir 0 fs = .ok (some
        ({ name := ['.'], ino := dir, kind := kindDir, cookie := dotOffset } ::
          { name := ['.', '.'], ino := UInt32.ofNat (readLE (Dinode.root inode.dinode) 20 4), kind := kindDir,
            cookie := dotdotOffset } :: offered)) fs' ∧
      offered.map Offered.pair = entries.map fun entry => (entryName entry.name, entry.inumber) := by
  obtain ⟨offered, fs', hoffered⟩ := exists_listEntries 0 entries fs
  have hdots : offerDots dir (Dinode.root inode.dinode) 0 =
      [{ name := ['.'], ino := dir, kind := kindDir, cookie := dotOffset },
        { name := ['.', '.'], ino := UInt32.ofNat (readLE (Dinode.root inode.dinode) 20 4), kind := kindDir,
          cookie := dotdotOffset }] := by
    unfold offerDots
    rw [if_neg (by decide), if_pos ⟨length_of_dtree_ok hdtree, Nat.zero_le _⟩]
    rfl
  have hentries : rootEntries inode = .ok entries := by
    unfold rootEntries
    rw [hdtree]
    exact hlisted
  refine ⟨offered 0, fs', ?_, pairs_of_listEntries (hoffered 0).1⟩
  unfold readdir
  rw [bind_ok (readInode?_of_ok hread)]
  simp only [hdir, Bool.not_true, Bool.false_eq_true, if_false, hentries, hdots]
  exact bind_ok (hoffered 0).1

/-- **Listing and lookup agree** on a directory whose entries have plain names, each its own. -/
theorem agree_of_plain (hlisted : d.entries = .ok entries)
    (hlookup : ∀ units, d.lookup units = .ok (entries.find? fun e => e.name = units))
    (hplain : PlainEntries entries) : fs.Agree dir := by
  obtain ⟨offered, fs', hlist, hpairs⟩ := exists_readdir hread hdir hdtree hlisted
  have hnames : offered.map Offered.name = entries.map fun entry => entryName entry.name := by
    have hfirst := congrArg (List.map Prod.fst) hpairs
    rwa [List.map_map, List.map_map] at hfirst
  refine ⟨_, fs', hlist, ?_, fun name ino => ?_⟩
  · rw [List.map_cons, List.map_cons, hnames, List.nodup_cons, List.nodup_cons, List.mem_cons, not_or]
    refine ⟨⟨by simp, fun hmem => (hplain.ne_dots hmem).1 rfl⟩, fun hmem => (hplain.ne_dots hmem).2 rfl,
      hplain.nodup_names⟩
  · have hmem : (∃ entry ∈ ({ name := ['.'], ino := dir, kind := kindDir, cookie := dotOffset } ::
          { name := ['.', '.'], ino := UInt32.ofNat (readLE (Dinode.root inode.dinode) 20 4), kind := kindDir,
            cookie := dotdotOffset } :: offered : List Offered), entry.name = name.toList ∧ entry.ino = ino) ↔
        (name = "." ∧ ino = dir) ∨ (name = ".." ∧ ino = UInt32.ofNat (readLE (Dinode.root inode.dinode) 20 4)) ∨
          ∃ entry ∈ entries, entry.name = encodeUtf16 name ∧ entry.inumber = ino := by
      have hdot : ['.'] = name.toList ↔ name = "." := eq_comm.trans (@String.toList_inj name ".")
      have hdotdot : ['.', '.'] = name.toList ↔ name = ".." := eq_comm.trans (@String.toList_inj name "..")
      rw [← hplain.mem_pairs_iff, ← hpairs, List.mem_map]
      simp only [List.mem_cons, exists_eq_or_imp, Offered.pair, Prod.mk.injEq,
        hdot, hdotdot, eq_comm (b := ino)]
    have hanswer : ∀ x : Option UInt32, (∃ fs'', (EStateM.Result.ok x fs : EStateM.Result ℤ FuseFs (Option UInt32)) =
        .ok (some ino) fs'') ↔ x = some ino := by
      intro x
      refine ⟨fun ⟨fs'', heq⟩ => ?_, fun heq => ⟨fs, by rw [heq]⟩⟩
      injection heq
    rw [hmem, lookup_eq hread hdir hdtree hlookup, hanswer]
    by_cases hname : name = "."
    · have hnone := hplain.not_named_dot (Or.inl hname) ino
      rw [if_pos hname, Option.some_inj, or_iff_left hnone, eq_comm (a := ino)]
      simp [hname]
    by_cases hname' : name = ".."
    · have hnone := hplain.not_named_dot (Or.inr hname') ino
      rw [if_neg hname, if_pos hname', Option.some_inj, or_iff_left hnone]
      simp [hname', eq_comm]
    · rw [if_neg hname, if_neg hname', hplain.find?_eq_some_iff]
      simp [hname, hname']

end Agreement

end FuseFs

end JfsFuse
