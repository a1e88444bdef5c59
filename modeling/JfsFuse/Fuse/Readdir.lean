import JfsFuse.Fuse.Core
import JfsFuse.Volume.FreshVolume

/-!
# Listing a directory

A reply to READDIR carries a cookie with each entry.  The kernel takes as many entries as
fit, and goes on with the cookie of the last one it took: the reply to that starts behind the
entry.

`readdir_interruptible` gives the entry in position `i` the cookie `2 + i` when it starts from the
front, and takes the cookie `2 + i` to start with the entry in position `i`.  So the last
entry taken is offered again, and a directory without entries offers `.` and `..` for ever.
-/

namespace JfsFuse

open ByteBuf Program

/-! ## Names -/

/-- The character of a surrogate pair. -/
def surrogatePair (high low : UInt16) : Char :=
  Char.ofNat (0x10000 + (high.toNat - 0xD800) * 0x400 + (low.toNat - 0xDC00))

/-- `from_utf16_lossy`: a surrogate without its partner becomes the replacement character. -/
def fromUtf16Lossy : List UInt16 → List Char
  | [] => []
  | [unit] => if 0xD800 ≤ unit ∧ unit < 0xE000 then ['\uFFFD'] else [Char.ofNat unit.toNat]
  | unit :: next :: rest =>
      if 0xD800 ≤ unit ∧ unit < 0xDC00 ∧ 0xDC00 ≤ next ∧ next < 0xE000 then
        surrogatePair unit next :: fromUtf16Lossy rest
      else if 0xD800 ≤ unit ∧ unit < 0xE000 then '\uFFFD' :: fromUtf16Lossy (next :: rest)
      else Char.ofNat unit.toNat :: fromUtf16Lossy (next :: rest)

/-- The name of an entry, without zeros at its end. -/
def entryName (name : List UInt16) : List Char :=
  ((fromUtf16Lossy name).reverse.dropWhile (· = '\u0000')).reverse

/-- An entry of a reply. -/
structure Offered where
  name : List Char
  ino : UInt32
  kind : UInt8
  cookie : ℕ
  deriving DecidableEq, Repr

/-! ## `DirectoryCursor` -/

namespace DirectoryCursor

def dotOffset : ℕ := 0
def dotdotOffset : ℕ := 1
def entryBase : ℕ := 2

def isEntry (offset : ℕ) : Bool :=
  entryBase ≤ offset

/-- `entry_index`, 0 for `.` and `..`. -/
def entryIndex (offset : ℕ) : ℕ :=
  offset - entryBase

end DirectoryCursor

namespace FuseFs

open DirectoryCursor

/-- `DT_DIR`, as the source has it. -/
def kindDir : UInt8 := 0x04

/-- `infer_file_type`. -/
def inferFileType (ino : UInt32) : FuseM UInt8 :=
  tryCatch
    (do
      let inode ← onVolume Errno.enoent (Volume.readInode ino)
      if Dinode.isSymlink inode.dinode then return 0xA0
      else if inode.isDir then return kindDir
      else if inode.isRegular then return 0x08
      else return 0x00)
    fun _ => return 0x00

/-- The loop of `readdir_interruptible` over the entries from position `i` on. -/
def offerEntries (startIdx : ℕ) : ℕ → List Bool → List DirEntry → FuseM (List Offered)
  | _, _, [] => return []
  | i, token, entry :: rest =>
      if i < startIdx then offerEntries startIdx (i + 1) token rest
      else if token.headD false then throw Errno.eintr
      else do
        let kind ← inferFileType entry.inumber
        let others ← offerEntries startIdx (i + 1) token.tail rest
        return { name := entryName entry.name, ino := entry.inumber, kind,
                 cookie := entryBase + startIdx + i } :: others

/-- The entries of a directory root, none if it cannot be read. -/
def rootEntries (inode : Inode) : Except StorageError (List DirEntry) :=
  inode.dtree.bind Dtree.entries

/-- What is offered of `.` and `..`. -/
def offerDots (ino : UInt32) (dtroot : List UInt8) (offset : ℕ) : List Offered :=
  (if isEntry offset then [] else [{ name := ['.'], ino, kind := kindDir, cookie := dotOffset }]) ++
    if 24 ≤ dtroot.length ∧ offset ≤ dotdotOffset then
      [{ name := ['.', '.'], ino := UInt32.ofNat (readLE dtroot 20 4), kind := kindDir, cookie := dotdotOffset }]
    else []

/-- `readdir_interruptible`. -/
def readdirInterruptible (ino : UInt32) (offset : ℕ) (token : List Bool) : FuseM (List Offered) := do
  let inode ← onVolume Errno.enoent (Volume.readInode ino)
  if !inode.isDir then throw Errno.enotdir
  else
    let dots := offerDots ino (Dinode.root inode.dinode) offset
    match rootEntries inode with
    | .error .panic => throw Errno.panicked
    | .error _ => return dots
    | .ok entries =>
        let offered ← offerEntries (entryIndex offset) 0 token entries
        return dots ++ offered

/-! ## Listing by pages -/

/-- The entries the kernel takes, from the request at `offset` on to an empty reply: of each other
reply a first part that is not empty, and the next request is for the cookie of the last
entry of it.  Requests do not change the filesystem. -/
inductive Listing (fs : FuseFs) (ino : UInt32) : ℕ → List Offered → Prop
  | empty {offset : ℕ} {token : List Bool} {fs' : FuseFs}
      (hreply : readdirInterruptible ino offset token fs = .ok [] fs') : Listing fs ino offset []
  | page {offset : ℕ} {token : List Bool} {fs' : FuseFs} {taken left : List Offered} {last : Offered}
      {rest : List Offered}
      (hreply : readdirInterruptible ino offset token fs = .ok (taken ++ [last] ++ left) fs')
      (hrest : Listing fs ino last.cookie rest) : Listing fs ino offset (taken ++ [last] ++ rest)

/-- An entry of a reply stands for an entry of the directory. -/
def Matches (entry : DirEntry) (offered : Offered) : Bool :=
  offered.name = entryName entry.name && offered.ino = entry.inumber

/-- The entries of a directory, none if its root cannot be read. -/
def listed (inode : Inode) : List DirEntry :=
  match rootEntries inode with
  | .ok entries => entries
  | .error _ => []

/-- The entries of the directory, none if there is no such directory. -/
def directoryEntries (fs : FuseFs) (ino : UInt32) : List DirEntry :=
  match Volume.readInode ino fs.volume with
  | .ok inode _ => listed inode
  | .error _ _ => []

/-- The kernel has taken every entry once. -/
def Complete (fs : FuseFs) (ino : UInt32) (accepted : List Offered) : Prop :=
  ∀ entry ∈ fs.directoryEntries ino, accepted.countP (Matches entry) = 1

/-- An entry of a reply that starts with position `startIdx`. -/
def Offers (startIdx : ℕ) (entry : DirEntry × ℕ) (offered : Offered) : Prop :=
  Matches entry.1 offered ∧ offered.cookie = entryBase + startIdx + entry.2

theorem offerEntries_ok {startIdx i : ℕ} {token : List Bool} {entries : List DirEntry} {fs fs' : FuseFs}
    {offered : List Offered} (h : offerEntries startIdx i token entries fs = .ok offered fs') :
    List.Forall₂ (Offers startIdx) ((entries.zipIdx i).drop (startIdx - i)) offered := by
  induction entries generalizing i token fs fs' offered with
  | nil =>
      unfold offerEntries at h
      injection h with hoffered _
      rw [← hoffered, List.zipIdx_nil, List.drop_nil]
      exact .nil
  | cons entry rest ih =>
      unfold offerEntries at h
      rw [List.zipIdx_cons]
      by_cases hskip : i < startIdx
      · rw [if_pos hskip] at h
        obtain ⟨k, hk⟩ : ∃ k, startIdx - i = k + 1 := ⟨startIdx - i - 1, by omega⟩
        rw [hk, List.drop_succ_cons, show k = startIdx - (i + 1) by omega]
        exact ih h
      · rw [if_neg hskip] at h
        have hzero : startIdx - i = 0 := by omega
        rw [hzero, List.drop_zero]
        split at h
        · cases h
        · obtain ⟨kind, fs₁, -, hrest⟩ := of_bind_ok h
          obtain ⟨others, fs₂, hothers, hreturn⟩ := of_bind_ok hrest
          injection hreturn with hoffered _
          rw [← hoffered]
          refine .cons ⟨?_, rfl⟩ ?_
          · simp [Matches]
          · have htail := ih hothers
            rwa [show startIdx - (i + 1) = 0 by omega, List.drop_zero] at htail

/-- What a reply consists of. -/
theorem readdirInterruptible_ok {fs fs' : FuseFs} {ino : UInt32} {offset : ℕ} {token : List Bool}
    {offered : List Offered} (h : readdirInterruptible ino offset token fs = .ok offered fs') :
    ∃ dtroot others, offered = offerDots ino dtroot offset ++ others ∧
      List.Forall₂ (Offers (entryIndex offset)) ((fs.directoryEntries ino).zipIdx.drop (entryIndex offset))
        others := by
  unfold readdirInterruptible at h
  obtain ⟨inode, fs₁, hread, hrest⟩ := of_bind_ok h
  have hentries : fs.directoryEntries ino = listed inode := by
    unfold directoryEntries
    unfold onVolume at hread
    cases hvolume : Volume.readInode ino fs.volume with
    | ok inode' volume =>
        rw [hvolume] at hread
        injection hread with hinode _
        rw [hinode]
    | error e volume =>
        rw [hvolume] at hread
        cases hread
  rw [hentries]
  unfold listed
  split at hrest
  · cases hrest
  · refine ⟨Dinode.root inode.dinode, ?_⟩
    cases hroot : rootEntries inode with
    | error e =>
        rw [hroot] at hrest
        have hreturn : offered = offerDots ino (Dinode.root inode.dinode) offset := by
          cases e <;> first | (injection hrest with hoffered _; exact hoffered.symm) | cases hrest
        refine ⟨[], by rw [hreturn, List.append_nil], ?_⟩
        rw [List.zipIdx_nil, List.drop_nil]
        exact .nil
    | ok entries =>
        rw [hroot] at hrest
        obtain ⟨others, fs₂, hothers, hreturn⟩ := of_bind_ok hrest
        injection hreturn with hoffered _
        exact ⟨others, hoffered.symm, offerEntries_ok hothers⟩

section Repeats

variable {fs : FuseFs} {ino : UInt32}

theorem offerDots_of_entry {dtroot : List UInt8} {offset : ℕ} (h : entryBase ≤ offset) :
    offerDots ino dtroot offset = [] := by
  have hfirst : isEntry offset = true := decide_eq_true h
  have hsecond : ¬ (24 ≤ dtroot.length ∧ offset ≤ dotdotOffset) := by
    unfold entryBase at h
    unfold dotdotOffset
    omega
  unfold offerDots
  rw [if_pos hfirst, if_neg hsecond, List.append_nil]

theorem offerDots_ne_nil {dtroot : List UInt8} {offset : ℕ} (h : offset < entryBase) :
    offerDots ino dtroot offset ≠ [] := by
  have hfirst : ¬ isEntry offset = true := by
    unfold isEntry
    simpa using h
  unfold offerDots
  rw [if_neg hfirst]
  simp

theorem cookie_of_mem_offerDots {dtroot : List UInt8} {offset : ℕ} {offered : Offered}
    (h : offered ∈ offerDots ino dtroot offset) : offered.cookie < entryBase := by
  unfold offerDots at h
  rcases List.mem_append.mp h with hdot | hdotdot
  · split at hdot
    · cases hdot
    · rw [List.mem_singleton.mp hdot]
      exact show dotOffset < entryBase by decide
  · split at hdotdot
    · rw [List.mem_singleton.mp hdotdot]
      exact show dotdotOffset < entryBase by decide
    · cases hdotdot

private theorem exists_of_forall₂ {α β : Type} {R : α → β → Prop} {l : List α} {l' : List β}
    (h : List.Forall₂ R l l') {b : β} (hb : b ∈ l') : ∃ a ∈ l, R a b := by
  induction h with
  | nil => cases hb
  | cons hrel _ ih =>
      rcases List.mem_cons.mp hb with rfl | hmem
      · exact ⟨_, List.mem_cons_self .., hrel⟩
      · obtain ⟨a, ha, hab⟩ := ih hmem
        exact ⟨a, List.mem_cons_of_mem _ ha, hab⟩

/-- A request for the cookie `2 + i` is answered with the entry in position `i` first. -/
theorem first_of_reply {i : ℕ} (hi : i < (fs.directoryEntries ino).length) {token : List Bool}
    {offered : List Offered} {fs' : FuseFs}
    (h : readdirInterruptible ino (entryBase + i) token fs = .ok offered fs') :
    ∃ first others, offered = first :: others ∧ Matches (fs.directoryEntries ino)[i] first := by
  have hindex : entryIndex (entryBase + i) = i := Nat.add_sub_cancel_left ..
  obtain ⟨dtroot, others, hoffered, hentries⟩ := readdirInterruptible_ok h
  have hlength : i < (fs.directoryEntries ino).zipIdx.length := by rwa [List.length_zipIdx]
  rw [hindex, List.drop_eq_getElem_cons hlength, List.getElem_zipIdx] at hentries
  rw [offerDots_of_entry (Nat.le_add_right ..), List.nil_append] at hoffered
  cases hentries with
  | cons hfirst _ => exact ⟨_, _, hoffered, hfirst.1⟩

theorem first_of_listing {i : ℕ} (hi : i < (fs.directoryEntries ino).length) {accepted : List Offered}
    (h : Listing fs ino (entryBase + i) accepted) :
    0 < accepted.countP (Matches (fs.directoryEntries ino)[i]) := by
  rw [List.countP_pos_iff]
  cases h with
  | empty hreply =>
      obtain ⟨first, others, hoffered, -⟩ := first_of_reply hi hreply
      cases hoffered
  | @page _ _ _ taken left last rest hreply hrest =>
      obtain ⟨first, others, hoffered, hmatches⟩ := first_of_reply hi hreply
      refine ⟨first, List.mem_append_left _ ?_, hmatches⟩
      cases taken with
      | nil =>
          injection hoffered with hfirst _
          rw [hfirst]
          exact List.mem_singleton_self _
      | cons head tail =>
          injection hoffered with hfirst _
          rw [hfirst]
          exact List.mem_cons_self ..

/-- From the front, the listing ends only after an entry was taken twice. -/
theorem twice_of_listing {offset : ℕ} (hoffset : offset < entryBase) {accepted : List Offered}
    (h : Listing fs ino offset accepted) :
    ∃ entry ∈ fs.directoryEntries ino, 2 ≤ accepted.countP (Matches entry) := by
  induction h with
  | empty hreply =>
      obtain ⟨dtroot, others, hoffered, -⟩ := readdirInterruptible_ok hreply
      exact absurd (List.append_eq_nil_iff.mp hoffered.symm).1 (offerDots_ne_nil hoffset)
  | @page offset _ _ taken left last rest hreply hrest ih =>
      obtain ⟨dtroot, others, hoffered, hentries⟩ := readdirInterruptible_ok hreply
      have hzero : entryIndex offset = 0 := Nat.sub_eq_zero_of_le hoffset.le
      rw [hzero, List.drop_zero] at hentries
      have hlast : last ∈ offerDots ino dtroot offset ++ others := by
        rw [← hoffered]
        simp
      rcases List.mem_append.mp hlast with hdots | hothers
      · -- the walk starts from the front again
        obtain ⟨entry, hentry, htwice⟩ := ih (cookie_of_mem_offerDots hdots)
        refine ⟨entry, hentry, htwice.trans ?_⟩
        rw [List.countP_append]
        omega
      · -- the last entry taken is the first one of the next reply
        obtain ⟨⟨entry, i⟩, hmem, hmatches, hcookie⟩ := exists_of_forall₂ hentries hothers
        obtain ⟨hi, hentry⟩ := List.mem_zipIdx_iff_getElem?.mp hmem |> List.getElem?_eq_some_iff.mp
        simp only [Nat.add_zero] at hcookie hi hentry
        rw [hcookie] at hrest
        have hagain := first_of_listing hi hrest
        rw [hentry] at hagain
        refine ⟨entry, hentry ▸ List.getElem_mem hi, ?_⟩
        rw [List.countP_append, List.countP_append, List.countP_singleton, if_pos hmatches]
        omega

end Repeats

/-- **No listing takes every entry once and comes to an end.** -/
theorem not_complete_of_listing (fs : FuseFs) (ino : UInt32) (accepted : List Offered) :
    ¬ (Listing fs ino 0 accepted ∧ Complete fs ino accepted) := by
  rintro ⟨hlisting, hcomplete⟩
  obtain ⟨entry, hentry, htwice⟩ := twice_of_listing (show 0 < entryBase by decide) hlisting
  rw [hcomplete entry hentry] at htwice
  omega

/-- The root directory of a new filesystem offers `.` and `..`. -/
theorem readdir_fresh {v : Volume} (h : v.Fresh) :
    directoryEntries { volume := v } 18 = [] ∧
      readdirInterruptible 18 0 [] { volume := v } =
        .ok [{ name := ['.'], ino := 18, kind := kindDir, cookie := 0 },
          { name := ['.', '.'], ino := 2, kind := kindDir, cookie := 1 }] { volume := v } := by
  have hread := h.readInode_root
  have hentries : rootEntries
      { dinode := Mkfs.rootInodeBytes, ino := 18, pageBlock := 28, pageOffset := 2 * disize } = .ok [] := by
    decide +kernel
  constructor
  · unfold directoryEntries
    simp only [hread]
    unfold listed
    rw [hentries]
  · have hrun : onVolume Errno.enoent (Volume.readInode 18) { volume := v } = .ok
        { dinode := Mkfs.rootInodeBytes, ino := 18, pageBlock := 28, pageOffset := 2 * disize }
        { volume := v } := by
      unfold onVolume
      simp only [hread]
    have hdir : (!Inode.isDir
        { dinode := Mkfs.rootInodeBytes, ino := 18, pageBlock := 28, pageOffset := 2 * disize }) = false := by
      decide
    have hdots : offerDots 18 (Dinode.root Mkfs.rootInodeBytes) 0 =
        [{ name := ['.'], ino := 18, kind := kindDir, cookie := 0 },
          { name := ['.', '.'], ino := 2, kind := kindDir, cookie := 1 }] := by
      decide +kernel
    unfold readdirInterruptible
    rw [bind_ok hrun]
    simp only [hdir, hentries, hdots]
    rfl

/-- **The listing of the root directory of a new filesystem never ends.** -/
theorem no_listing_of_new_root :
    ∃ v, Volume.openFromStorage (Mkfs.createFilesystemWithBlocks 4096) =
        .ok v (Mkfs.createFilesystemWithBlocks 4096) ∧
      (∃ inode, Volume.readInode 18 v = .ok inode v ∧ inode.isDir) ∧
      directoryEntries { volume := v } 18 = [] ∧
      (∃ offered fs, readdirInterruptible 18 0 [] { volume := v } = .ok offered fs ∧ offered.length = 2) ∧
      ¬ ∃ accepted, Listing { volume := v } 18 0 accepted := by
  obtain ⟨v, hopen, hfresh⟩ := Volume.fresh_create (show 4096 ≤ 4096 from le_rfl) (by decide)
  obtain ⟨hentries, hreply⟩ := readdir_fresh hfresh
  refine ⟨v, hopen, ⟨_, hfresh.readInode_root, by decide⟩, hentries, ⟨_, _, hreply, rfl⟩, ?_⟩
  rintro ⟨accepted, hlisting⟩
  obtain ⟨entry, hentry, -⟩ := twice_of_listing (show 0 < entryBase by decide) hlisting
  rw [hentries] at hentry
  cases hentry

end FuseFs

end JfsFuse
