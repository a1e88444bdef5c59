import JfsFuse.Fuse.Readdir
import JfsFuse.Volume.OneFile

/-!
# Two ways to list a directory

`readdir` skips the entries before the cookie and then counts from 0, `readdir_interruptible`
counts all entries and skips.  Both add the number of skipped entries to the count, so a listing
that is resumed behind its first entry has other cookies in the second one.
-/

namespace JfsFuse

open ByteBuf Program

namespace FuseFs

open DirectoryCursor

/-- The loop of `readdir` over the entries that were not skipped, `idx` the count of the first. -/
def listEntries (startIdx : ℕ) : ℕ → List DirEntry → FuseM (List Offered)
  | _, [] => return []
  | idx, entry :: rest => do
      let kind ← inferFileType entry.inumber
      let others ← listEntries startIdx (idx + 1) rest
      return { name := entryName entry.name, ino := entry.inumber, kind,
               cookie := entryBase + startIdx + idx } :: others

/-- `Inode::read` with its error dropped. -/
def readInode? (ino : UInt32) : FuseM (Option Inode) :=
  tryCatch
    (do
      let inode ← onVolume Errno.enoent (Volume.readInode ino)
      return some inode)
    fun _ => return none

/-- `readdir`, none if there is no such directory. -/
def readdir (ino : UInt32) (offset : ℕ) : FuseM (Option (List Offered)) := do
  match ← readInode? ino with
  | none => return none
  | some inode =>
      if !inode.isDir then return none
      else
        let dots := offerDots ino (Dinode.root inode.dinode) offset
        match rootEntries inode with
        | .error .panic => throw Errno.panicked
        | .error _ => return some dots
        | .ok entries =>
            let offered ← listEntries (entryIndex offset) 0 (entries.drop (entryIndex offset))
            return some (dots ++ offered)

/-! ## The loops -/

/-- An interrupt that never comes. -/
def Uninterrupted (token : List Bool) : Prop :=
  ∀ interrupted ∈ token, interrupted = false

theorem Uninterrupted.headD {token : List Bool} (h : Uninterrupted token) : token.headD false = false := by
  cases token with
  | nil => rfl
  | cons first rest => exact h first (List.mem_cons_self ..)

theorem Uninterrupted.tail {token : List Bool} (h : Uninterrupted token) : Uninterrupted token.tail :=
  fun interrupted hmem => h interrupted (List.mem_of_mem_tail hmem)

/-- Without an interrupt, the entries in front are skipped, and the count goes on behind them. -/
theorem offerEntries_eq (startIdx i : ℕ) {token : List Bool} (h : Uninterrupted token) (entries : List DirEntry) :
    offerEntries startIdx i token entries = listEntries startIdx (max i startIdx) (entries.drop (startIdx - i)) := by
  induction entries generalizing i token with
  | nil =>
      rw [List.drop_nil]
      rfl
  | cons entry rest ih =>
      unfold offerEntries
      by_cases hskip : i < startIdx
      · rw [if_pos hskip, ih (i + 1) h, show startIdx - i = startIdx - (i + 1) + 1 by omega, List.drop_succ_cons,
          max_eq_right hskip.le, max_eq_right (Nat.succ_le_of_lt hskip)]
      · have hle : startIdx ≤ i := Nat.not_lt.mp hskip
        have hrest : offerEntries startIdx (i + 1) token.tail rest = listEntries startIdx (i + 1) rest := by
          rw [ih (i + 1) h.tail, Nat.sub_eq_zero_of_le (hle.trans (Nat.le_succ i)), List.drop_zero,
            max_eq_left (hle.trans (Nat.le_succ i))]
        rw [if_neg hskip, h.headD, Nat.sub_eq_zero_of_le hle, List.drop_zero, max_eq_left hle]
        simp only [hrest]
        rfl

/-- The type of an entry is always found. -/
theorem exists_inferFileType (ino : UInt32) (fs : FuseFs) : ∃ kind fs', inferFileType ino fs = .ok kind fs' := by
  unfold inferFileType
  cases hread : (do
      let inode ← onVolume Errno.enoent (Volume.readInode ino)
      if Dinode.isSymlink inode.dinode then return 0xA0
      else if inode.isDir then return kindDir
      else if inode.isRegular then return 0x08
      else return 0x00 : FuseM UInt8) fs with
  | ok kind fs' => exact ⟨kind, fs', tryCatch_ok hread⟩
  | error errno fs' => exact ⟨0x00, fs', tryCatch_error hread⟩

/-- **The cookies of a listing** are consecutive; its start changes nothing else. -/
theorem exists_listEntries (startIdx : ℕ) (entries : List DirEntry) (fs : FuseFs) :
    ∃ (offered : ℕ → List Offered) (fs' : FuseFs), ∀ i,
      listEntries startIdx i entries fs = .ok (offered i) fs' ∧
        (offered i).map Offered.cookie = List.range' (entryBase + startIdx + i) entries.length := by
  induction entries generalizing fs with
  | nil => exact ⟨fun _ => [], fs, fun _ => ⟨rfl, rfl⟩⟩
  | cons entry rest ih =>
      obtain ⟨kind, fs₁, hkind⟩ := exists_inferFileType entry.inumber fs
      obtain ⟨others, fs', hothers⟩ := ih fs₁
      refine ⟨fun i => ⟨entryName entry.name, entry.inumber, kind, entryBase + startIdx + i⟩ :: others (i + 1),
        fs', fun i => ⟨?_, ?_⟩⟩
      · unfold listEntries
        rw [bind_ok hkind, bind_ok (hothers (i + 1)).1]
        rfl
      · rw [List.map_cons, (hothers (i + 1)).2, List.length_cons, List.range'_succ]
        rfl

/-! ## The requests -/

section Requests

variable {fs fs₁ : FuseFs} {ino : UInt32} {inode : Inode} (offset : ℕ) {token : List Bool}
  (hread : onVolume Errno.enoent (Volume.readInode ino) fs = .ok inode fs₁) (hdir : inode.isDir = true)

include hread hdir

/-- Both listings of a directory whose entries can be read, with their cookies. -/
theorem exists_listings {entries : List DirEntry} (hentries : rootEntries inode = .ok entries)
    (htoken : Uninterrupted token) :
    ∃ (offered : ℕ → List Offered) (fs' : FuseFs),
      readdir ino offset fs = .ok (some (offerDots ino (Dinode.root inode.dinode) offset ++ offered 0)) fs' ∧
      readdirInterruptible ino offset token fs =
        .ok (offerDots ino (Dinode.root inode.dinode) offset ++ offered (entryIndex offset)) fs' ∧
      ∀ i, (offered i).map Offered.cookie =
        List.range' (entryBase + entryIndex offset + i) (entries.length - entryIndex offset) := by
  obtain ⟨offered, fs', hoffered⟩ := exists_listEntries (entryIndex offset) (entries.drop (entryIndex offset)) fs₁
  have hfound : readInode? ino fs = .ok (some inode) fs₁ := tryCatch_ok ((bind_ok hread).trans rfl)
  have hnotdir : (!inode.isDir) = false := by rw [hdir, Bool.not_true]
  have hcounted : offerEntries (entryIndex offset) 0 token entries fs₁ = .ok (offered (entryIndex offset)) fs' := by
    rw [offerEntries_eq _ _ htoken, Nat.zero_max, Nat.sub_zero]
    exact (hoffered (entryIndex offset)).1
  refine ⟨offered, fs', ?_, ?_, fun i => ?_⟩
  · unfold readdir
    rw [bind_ok hfound]
    simp only [hnotdir, hentries]
    exact bind_ok (hoffered 0).1
  · unfold readdirInterruptible
    rw [bind_ok hread]
    simp only [hnotdir, hentries]
    exact bind_ok hcounted
  · rw [(hoffered i).2, List.length_drop]

/-- **The two listings agree** exactly if the directory can be read and either no entry is skipped, or
every one. -/
theorem readdirInterruptible_eq_readdir_iff (htoken : Uninterrupted token) :
    (∃ offered fs', readdir ino offset fs = .ok (some offered) fs' ∧
      readdirInterruptible ino offset token fs = .ok offered fs') ↔
      rootEntries inode ≠ .error .panic ∧ (offset ≤ entryBase ∨ (listed inode).length ≤ entryIndex offset) := by
  cases hentries : rootEntries inode with
  | error e =>
      have hfound : readInode? ino fs = .ok (some inode) fs₁ := tryCatch_ok ((bind_ok hread).trans rfl)
      have hnotdir : (!inode.isDir) = false := by rw [hdir, Bool.not_true]
      unfold readdir readdirInterruptible listed
      rw [bind_ok hfound, bind_ok hread]
      simp only [hnotdir, hentries]
      by_cases hpanic : e = .panic
      · subst hpanic
        refine iff_of_false ?_ fun h => h.1 rfl
        rintro ⟨offered, fs', hlist, -⟩
        cases hlist
      · refine iff_of_true ⟨offerDots ino (Dinode.root inode.dinode) offset, fs₁, ?_, ?_⟩
          ⟨fun h => hpanic (Except.error.inj h), .inr (Nat.zero_le _)⟩
        · cases e <;> first | rfl | exact absurd rfl hpanic
        · cases e <;> first | rfl | exact absurd rfl hpanic
  | ok entries =>
      obtain ⟨offered, fs', hplain, hinterruptible, hcookies⟩ := exists_listings offset hread hdir hentries htoken
      have hlisted : listed inode = entries := by
        unfold listed
        rw [hentries]
      rw [hlisted]
      constructor
      · rintro ⟨result, fs'', hfirst, hsecond⟩
        rw [hplain] at hfirst
        rw [hinterruptible] at hsecond
        have hsame : offerDots ino (Dinode.root inode.dinode) offset ++ offered 0 =
            offerDots ino (Dinode.root inode.dinode) offset ++ offered (entryIndex offset) :=
          (Option.some.inj (EStateM.Result.ok.inj hfirst).1).trans (EStateM.Result.ok.inj hsecond).1.symm
        refine ⟨by simp, ?_⟩
        -- the cookies tell the two lists apart
        have hranges := hcookies 0
        rw [List.append_cancel_left hsame, hcookies] at hranges
        by_contra hneither
        obtain ⟨hlate, hleft⟩ := not_or.mp hneither
        obtain ⟨n, hn⟩ : ∃ n, entries.length - entryIndex offset = n + 1 :=
          ⟨entries.length - entryIndex offset - 1, by omega⟩
        rw [hn, List.range'_succ, List.range'_succ] at hranges
        have hfirst := (List.cons.inj hranges).1
        unfold entryIndex at hfirst
        omega
      · rintro ⟨-, heq⟩
        have hsame : offered 0 = offered (entryIndex offset) := by
          rcases heq with hearly | hnone
          · rw [show entryIndex offset = 0 from Nat.sub_eq_zero_of_le hearly]
          · have hempty : ∀ i, offered i = [] := by
              intro i
              have hrange := hcookies i
              rw [Nat.sub_eq_zero_of_le hnone] at hrange
              exact List.map_eq_nil_iff.mp hrange
            rw [hempty, hempty]
        refine ⟨_, fs', hplain, ?_⟩
        rw [hsame]
        exact hinterruptible

end Requests

/-! ### A directory with two entries -/

/-- The root of a directory with entries `a` and `b`. -/
def twoEntriesRoot : List UInt8 :=
  spliceAll [(17, [2]), (20, leBytes 4 18), (24, [1, 2]), (32, leBytes 4 20), (37, [1, 97]), (64, leBytes 4 21),
    (69, [1, 98])] (zeros 288)

/-- The inode of directory 19 with this root. -/
def twoEntriesInode : List UInt8 :=
  Mkfs.dinode [(4, leBytes 4 filesystemI), (8, leBytes 4 3), (40, leBytes 4 2), (52, leBytes 4 0x41ed),
    (224, twoEntriesRoot)]

/-- A volume with this directory. -/
def twoEntries : FuseFs where
  volume := Volume.oneInode twoEntriesInode fun _ => 0

theorem read_twoEntries : ∃ inode, onVolume Errno.enoent (Volume.readInode 19) twoEntries = .ok inode twoEntries ∧
    inode.isDir = true ∧ ∃ first second, rootEntries inode = .ok [first, second] := by
  have hlen : twoEntriesInode.length = disize := by decide +kernel
  have hkey : Dinode.HasKey (Volume.inodeKey 19) twoEntriesInode := by decide
  have hread := Volume.readInode_oneInode (fun _ => 0) hlen hkey
  refine ⟨{ dinode := twoEntriesInode, ino := 19, pageBlock := 4, pageOffset := 0 }, ?_, ?_,
    { inumber := 20, name := [97], index := 0 }, { inumber := 21, name := [98], index := 0 }, ?_⟩
  · unfold onVolume
    rw [show twoEntries.volume = Volume.oneInode twoEntriesInode fun _ => 0 from rfl, hread]
    rfl
  · decide
  · decide +kernel

/-- Resumed at the second entry, the listings give it different cookies. -/
theorem resumed_listings_differ :
    ∃ fs ino offset inode plain offered fs', onVolume Errno.enoent (Volume.readInode ino) fs = .ok inode fs ∧
      inode.isDir = true ∧ readdir ino offset fs = .ok (some plain) fs' ∧
      readdirInterruptible ino offset [] fs = .ok offered fs' ∧ plain ≠ offered := by
  obtain ⟨inode, hread, hdir, first, second, hentries⟩ := read_twoEntries
  obtain ⟨offered, fs', hplain, hinterruptible, hcookies⟩ :=
    exists_listings 3 hread hdir hentries (show Uninterrupted [] from fun _ hmem => absurd hmem List.not_mem_nil)
  refine ⟨twoEntries, 19, 3, inode, _, _, fs', hread, hdir, hplain, hinterruptible, fun hsame => ?_⟩
  have hranges := hcookies 0
  rw [List.append_cancel_left hsame, hcookies] at hranges
  have hlen : [first, second].length - entryIndex 3 = 1 := rfl
  rw [hlen] at hranges
  exact absurd hranges (by decide)

/-- From the front they agree. -/
theorem listings_agree_from_front : ∃ offered fs',
    readdir 19 0 twoEntries = .ok (some offered) fs' ∧ readdirInterruptible 19 0 [false] twoEntries = .ok offered fs' := by
  obtain ⟨inode, hread, hdir, first, second, hentries⟩ := read_twoEntries
  refine (readdirInterruptible_eq_readdir_iff 0 hread hdir fun _ => List.mem_singleton.mp).mpr ⟨?_, .inl (Nat.zero_le _)⟩
  rw [hentries]
  simp

end FuseFs

end JfsFuse
