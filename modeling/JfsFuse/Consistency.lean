import JfsFuse.Btree.XtreeInsert
import JfsFuse.Fuse.Readdir
import JfsFuse.Volume.Mount
import JfsFuse.Volume.OneFile
import JfsFuse.Volume.Xattr

/-!
# Checking a volume

`check_consistent` reports what it finds wrong with the superblocks, with the root directory
and with the inodes that the root directory names.  It goes over the entries three times and
reads each inode anew.

The first time, an inode that cannot be read is reported; after that it is passed over.  An
extent is reported if it starts behind the end of the volume, not if it ends there.
-/

namespace JfsFuse

open ByteBuf Program

structure CheckIssue where
  /-- 0 is information, 1 a warning, 2 an error. -/
  level : ℕ
  message : String
  block : Option ℕ := none
  ino : Option UInt32 := none
  deriving DecidableEq, Repr

structure CheckReport where
  issues : List CheckIssue := []
  deriving DecidableEq, Repr

namespace CheckReport

def isClean (report : CheckReport) : Bool :=
  !report.issues.any fun issue => 2 ≤ issue.level

def push (report : CheckReport) (issue : CheckIssue) : CheckReport :=
  { report with issues := report.issues ++ [issue] }

def addError (report : CheckReport) (message : String) : CheckReport :=
  report.push { level := 2, message }

def addErrorBlock (report : CheckReport) (message : String) (block : ℕ) : CheckReport :=
  report.push { level := 2, message, block := some block }

def addErrorIno (report : CheckReport) (message : String) (ino : UInt32) : CheckReport :=
  report.push { level := 2, message, ino := some ino }

@[simp] theorem isClean_addError (report : CheckReport) (message : String) :
    (report.addError message).isClean = false := by
  simp [isClean, addError, push]

@[simp] theorem isClean_addErrorBlock (report : CheckReport) (message : String) (block : ℕ) :
    (report.addErrorBlock message block).isClean = false := by
  simp [isClean, addErrorBlock, push]

@[simp] theorem isClean_addErrorIno (report : CheckReport) (message : String) (ino : UInt32) :
    (report.addErrorIno message ino).isClean = false := by
  simp [isClean, addErrorIno, push]

end CheckReport

namespace Volume

/-! ## The checks -/

/-- A read of an inode whose error is looked at.  A panic is not an error. -/
def tryReadInode (ino : UInt32) : VolM (Except StorageError Inode) :=
  tryCatch (do return .ok (← readInode ino)) fun e => if e = .panic then throw e else return .error e

/-- The entries `.` and `..`, which the checks leave out. -/
def isDot (entry : DirEntry) : Bool :=
  entryName entry.name = ['.'] ∨ entryName entry.name = ['.', '.']

/-- One pass over the entries. -/
def checkEntries (check : DirEntry → CheckReport → VolM CheckReport) :
    List DirEntry → CheckReport → VolM CheckReport
  | [], report => return report
  | entry :: rest, report => do
      let report ← if isDot entry then pure report else check entry report
      checkEntries check rest report

/-- The first pass: the inode can be read and has a type. -/
def checkInode (entry : DirEntry) (report : CheckReport) : VolM CheckReport := do
  match ← tryReadInode entry.inumber with
  | .ok child =>
      if Dinode.fileType child.dinode = 0 then
        return report.addErrorIno "inode has no type (mode=0)" entry.inumber
      else return report
  | .error _ =>
      let name := String.ofList (entryName entry.name)
      return report.addErrorIno s!"directory entry '{name}' points to invalid inode" entry.inumber

/-- The check of the start of an extent. -/
def checkExtent (aggSize : ℕ) (report : CheckReport) (ext : Extent) : CheckReport :=
  let address := ext.address
  if aggSize ≤ address then report.addErrorBlock s!"extent address {address} exceeds volume size" address
  else report

/-- The check of the extents of a file. -/
def checkExtents (aggSize : ℕ) (ino : UInt32) (xt : Xtree) (report : CheckReport) : CheckReport :=
  let report := match xt.validate with
    | .ok () => report
    | .error e => report.addErrorIno s!"xtree validation failed: {e}" ino
  xt.iterExtents.foldl (checkExtent aggSize) report

/-- The second pass: the extents of regular files. -/
def checkXtree (entry : DirEntry) (report : CheckReport) : VolM CheckReport := do
  match ← tryReadInode entry.inumber with
  | .ok child =>
      if child.isRegular then
        match child.xtree with
        | .ok xt => return checkExtents (← get).aggSize entry.inumber xt report
        | .error _ => return report
      else return report
  | .error _ => return report

/-- The third pass: attributes in the inode without the mode bit for them. -/
def checkXattr (entry : DirEntry) (report : CheckReport) : VolM CheckReport := do
  match ← tryReadInode entry.inumber with
  | .ok child =>
      if child.dinode.getD 104 0 &&& dxdInline ≠ 0 ∧ Dinode.mode child.dinode &&& inlineEa = 0 then
        return report.addErrorIno "inode has inline EA descriptor but missing INLINEEA mode flag" entry.inumber
      else return report
  | .error _ => return report

/-- The number of the root directory. -/
def rootIno : UInt32 :=
  UInt32.ofNat (filesystemI + rootI)

/-- The checks of the superblock, which the volume keeps from its opening, and of the log superblock. -/
def checkSupers (sb : Superblock) (log : Option LogManager) : CheckReport :=
  let report : CheckReport := {}
  let report := if sb.magic ≠ Superblock.jfsMagic then report.addError "invalid superblock magic" else report
  match log with
  | some lm =>
      if lm.logsuper.magic.toNat ≠ logMagic then report.addError "invalid log superblock magic" else report
  | none => report

/-- `check_consistent`; `display` is the text of an error. -/
def checkConsistent (display : StorageError → String) (sb : Superblock) : VolM CheckReport := do
  let report := checkSupers sb (← get).log
  match ← tryReadInode rootIno with
  | .error e =>
      let text := display e
      return report.addErrorIno s!"root inode unreadable: {text}" rootIno
  | .ok root =>
      let report := if root.isDir then report
        else report.addErrorIno "root inode is not a directory" rootIno
      match root.dtree with
      | .error e =>
          let text := display e
          return report.addErrorIno s!"root dtree invalid: {text}" rootIno
      | .ok dtree =>
          let entries ← returnExcept dtree.entries
          let report ← checkEntries checkInode entries report
          let report ← checkEntries checkXtree entries report
          checkEntries checkXattr entries report

/-! ## Reading -/

/-- The volume with other decisions of the device. -/
def withFaults (v : Volume) (faults : List Bool) : Volume :=
  { v with storage := { v.storage with faults } }

/-- The volume on a device that does not fail. -/
def steady (v : Volume) : Volume :=
  v.withFaults []

/-- Between the two states the volume was only read, and the device decided about the reads in `used`. -/
def ReadOver (used : List Bool) (v w : Volume) : Prop :=
  v.storage.faults = used ++ w.storage.faults ∧ w = v.withFaults w.storage.faults

theorem ReadOver.refl (v : Volume) : ReadOver [] v v :=
  ⟨rfl, rfl⟩

theorem ReadOver.trans {used used' : List Bool} {u v w : Volume} (h : ReadOver used u v) (h' : ReadOver used' v w) :
    ReadOver (used ++ used') u w := by
  obtain ⟨hfaults, hstate⟩ := h
  obtain ⟨hfaults', hstate'⟩ := h'
  refine ⟨?_, ?_⟩
  · rw [hfaults, hfaults', List.append_assoc]
  · rw [hstate', hstate]
    rfl

theorem ReadOver.unique {used used' : List Bool} {v w : Volume} (h : ReadOver used v w) (h' : ReadOver used' v w) :
    used = used' :=
  List.append_cancel_right (h.1.symm.trans h'.1)

theorem ReadOver.steady_eq {used : List Bool} {v w : Volume} (h : ReadOver used v w) : w.steady = v.steady := by
  rw [h.2]
  rfl

/-- The program only reads.  What it returns, it returns on a steady device as well, and so the
error it stops with, if the device failed no read of it. -/
def Reading {α : Type} (x : VolM α) : Prop :=
  ∀ v, ∃ used, ReadOver used v (final (x v)) ∧ (∀ a w, x v = .ok a w → x v.steady = .ok a v.steady) ∧
    ∀ e w, x v = .error e w → true ∉ used → x v.steady = .error e v.steady

namespace Reading

variable {α β : Type}

theorem pure (a : α) : Reading (pure a : VolM α) := by
  intro v
  refine ⟨[], ReadOver.refl v, fun b w hrun => ?_, fun e w hrun => ?_⟩
  · cases hrun
    rfl
  · cases hrun

theorem throw (e : StorageError) : Reading (throw e : VolM α) := by
  intro v
  refine ⟨[], ReadOver.refl v, fun b w hrun => ?_, fun e w hrun _ => ?_⟩
  · cases hrun
  · cases hrun
    rfl

theorem returnExcept (result : Except StorageError α) : Reading (returnExcept result : VolM α) := by
  cases result with
  | ok a => exact pure a
  | error e => exact throw e

theorem bind {x : VolM α} {f : α → VolM β} (hx : Reading x) (hf : ∀ a, Reading (f a)) : Reading (x >>= f) := by
  intro v
  obtain ⟨used, hread, hok, herror⟩ := hx v
  cases hrun : x v with
  | error e u =>
      rw [hrun] at hread
      refine ⟨used, ?_, fun b w hrest => ?_, fun e' w hrest hquiet => ?_⟩
      · rw [bind_error hrun]
        exact hread
      · rw [bind_error hrun] at hrest
        cases hrest
      · rw [bind_error hrun] at hrest
        cases hrest
        exact bind_error (herror e u hrun hquiet)
  | ok a u =>
      rw [hrun] at hread
      obtain ⟨used', hread', hok', herror'⟩ := hf a u
      have hsteady := hread.steady_eq
      rw [final_ok] at hsteady
      rw [hsteady] at hok' herror'
      refine ⟨used ++ used', ?_, fun b w hrest => ?_, fun e w hrest hquiet => ?_⟩
      · rw [bind_ok hrun]
        exact hread.trans hread'
      · rw [bind_ok hrun] at hrest
        rw [bind_ok (hok a u hrun)]
        exact hok' b w hrest
      · rw [bind_ok hrun] at hrest
        rw [bind_ok (hok a u hrun)]
        exact herror' e w hrest fun hmem => hquiet (List.mem_append_right _ hmem)

/-- A program that looks at the state, but not at the device. -/
theorem get_bind {f : Volume → VolM β} (hf : ∀ v, Reading (f v)) (hsame : ∀ v, f v.steady = f v) :
    Reading (get >>= f) := by
  intro v
  obtain ⟨used, hread, hok, herror⟩ := hf v v
  refine ⟨used, hread, fun b w hrun => ?_, fun e w hrun hquiet => ?_⟩
  · rw [bind_ok (get_apply _), hsame]
    exact hok b w hrun
  · rw [bind_ok (get_apply _), hsame]
    exact herror e w hrun hquiet

theorem attempt_cases (s : Storage) :
    (∃ used rest, s.faults = used ++ rest ∧ true ∉ used ∧ StorageM.attempt s = .ok () { s with faults := rest }) ∨
      ∃ rest, s.faults = true :: rest ∧ StorageM.attempt s = .error .io { s with faults := rest } := by
  obtain ⟨backend, size, grown, data, faults, trace⟩ := s
  cases faults with
  | nil => exact .inl ⟨[], [], rfl, List.not_mem_nil, rfl⟩
  | cons fails rest =>
      cases fails with
      | false => exact .inl ⟨[false], rest, rfl, by simp, rfl⟩
      | true => exact .inr ⟨rest, rfl, rfl⟩

theorem readBlock (block : ℕ) : Reading (onStorage (StorageM.readBlock block)) := by
  intro v
  have hread : ∀ {s : Storage} {rest : List Bool}, StorageM.attempt s = .ok () { s with faults := rest } →
      StorageM.readBlock block s =
        Program.returnExcept (s.readResult (block * blockSize) blockSize) { s with faults := rest } :=
    fun hattempt => (bind_ok hattempt).trans rfl
  have hsteady := hread (StorageM.attempt_ok (show v.steady.storage.faults = [] from rfl))
  unfold onStorage
  rcases attempt_cases v.storage with ⟨used, rest, hfaults, hquiet, hattempt⟩ | ⟨rest, hfaults, hattempt⟩
  · have hrun := hread hattempt
    have hsame : v.steady.storage.readResult (block * blockSize) blockSize =
        v.storage.readResult (block * blockSize) blockSize := rfl
    rw [hsame] at hsteady
    cases hresult : v.storage.readResult (block * blockSize) blockSize with
    | ok data =>
        rw [hresult] at hrun hsteady
        rw [zoom_ok hrun, zoom_ok hsteady]
        refine ⟨used, ⟨hfaults, rfl⟩, fun b w h => ?_, fun e w h => ?_⟩
        · cases h
          rfl
        · cases h
    | error e =>
        rw [hresult] at hrun hsteady
        rw [zoom_error hrun, zoom_error hsteady]
        refine ⟨used, ⟨hfaults, rfl⟩, fun b w h => ?_, fun e' w h _ => ?_⟩
        · cases h
        · cases h
          rfl
  · have hrun : StorageM.readBlock block v.storage = .error .io { v.storage with faults := rest } :=
      bind_error hattempt
    rw [zoom_error hrun]
    refine ⟨[true], ⟨hfaults, rfl⟩, fun b w h => ?_, fun e w _ hquiet => ?_⟩
    · cases h
    · exact absurd (List.mem_singleton.mpr rfl) hquiet

theorem tablePage (block : ℕ) : Reading (tablePage block) := by
  refine get_bind (fun v => ?_) fun v => rfl
  cases v.pageCache.peekBlock block with
  | some page => exact pure page.data
  | none => exact readBlock block

theorem findInodeFrom (fileset number block count : ℕ) : Reading (findInodeFrom fileset number block count) := by
  induction count generalizing block with
  | zero => exact pure none
  | succ count ih =>
      refine get_bind (fun v => ?_) fun v => rfl
      split
      · exact ih _
      · refine bind (tablePage block) fun data => bind (returnExcept _) fun found => ?_
        cases found with
        | some offset => exact pure _
        | none => exact ih _

theorem findInodePage (ino : UInt32) : Reading (findInodePage ino) := by
  refine get_bind (fun v => bind (findInodeFrom _ _ _ _) fun found => ?_) fun v => rfl
  cases found with
  | some place => exact pure place
  | none => exact throw _

theorem readInode (ino : UInt32) : Reading (readInode ino) := by
  refine bind (findInodePage ino) fun place => ?_
  obtain ⟨block, offset⟩ := place
  have hrest : ∀ data, Reading (do
      let dinode ← Program.returnExcept (sliceOrPanic data offset disize)
      return ({ dinode, ino, pageBlock := block, pageOffset := offset } : Inode)) :=
    fun data => bind (returnExcept _) fun dinode => pure _
  refine get_bind (fun v => ?_) fun v => rfl
  split
  · exact bind (pure _) hrest
  · exact bind (readBlock _) hrest

end Reading

/-- What `tryReadInode` returns is what the read ends with. -/
theorem of_tryReadInode {ino : UInt32} {result : Except StorageError Inode} {v w : Volume}
    (h : tryReadInode ino v = .ok result w) :
    (∃ inode, result = .ok inode ∧ readInode ino v = .ok inode w) ∨
      ∃ e, result = .error e ∧ readInode ino v = .error e w := by
  cases hread : readInode ino v with
  | ok inode u =>
      have hrun : tryReadInode ino v = .ok (.ok inode) u := tryCatch_ok ((bind_ok hread).trans rfl)
      cases hrun.symm.trans h
      exact .inl ⟨inode, rfl, rfl⟩
  | error e u =>
      by_cases hpanic : e = .panic
      · have hrun : tryReadInode ino v = .error e u :=
          (tryCatch_error (bind_error hread)).trans (congrFun (if_pos hpanic) u)
        cases hrun.symm.trans h
      · have hrun : tryReadInode ino v = .ok (.error e) u :=
          (tryCatch_error (bind_error hread)).trans (congrFun (if_neg hpanic) u)
        cases hrun.symm.trans h
        exact .inr ⟨e, rfl, rfl⟩

/-- The inode of a number, on a device that does not fail. -/
def Reads (v : Volume) (ino : UInt32) (inode : Inode) : Prop :=
  readInode ino v.steady = .ok inode v.steady

theorem Reads.unique {v : Volume} {ino : UInt32} {inode inode' : Inode} (h : v.Reads ino inode)
    (h' : v.Reads ino inode') : inode = inode' := by
  cases h.symm.trans h'
  rfl

/-- **A read whose error is looked at** returns the inode, unless it cannot be read or the device fails. -/
theorem readOver_tryReadInode {ino : UInt32} {result : Except StorageError Inode} {v w : Volume}
    (h : tryReadInode ino v = .ok result w) : ∃ used, ReadOver used v w ∧
      (∀ inode, result = .ok inode → v.Reads ino inode) ∧
      ∀ e, result = .error e → true ∉ used → ∀ inode, ¬ v.Reads ino inode := by
  obtain ⟨used, hread, hok, herror⟩ := Reading.readInode ino v
  rcases of_tryReadInode h with ⟨inode, rfl, hrun⟩ | ⟨e, rfl, hrun⟩
  · rw [hrun] at hread
    refine ⟨used, hread, fun inode' hsame => ?_, fun e hsame => ?_⟩
    · cases hsame
      exact hok _ _ hrun
    · cases hsame
  · rw [hrun] at hread
    refine ⟨used, hread, fun inode hsame => ?_, fun e' hsame hquiet inode hreads => ?_⟩
    · cases hsame
    · cases (herror _ _ hrun hquiet).symm.trans hreads

/-! ## A pass -/

/-- The check only reads, and what it leaves clean was clean before. -/
def Checking (check : DirEntry → CheckReport → VolM CheckReport) : Prop :=
  ∀ entry report v report' w, check entry report v = .ok report' w →
    (∃ used, ReadOver used v w) ∧ (report'.isClean = true → report.isClean = true)

/-- **A pass with a clean report** ran the check of each entry with a clean report, and the device decided
about its reads in a part of the decisions of the pass. -/
theorem of_checkEntries {check : DirEntry → CheckReport → VolM CheckReport} (hcheck : Checking check)
    {entries : List DirEntry} {report report' : CheckReport} {v w : Volume}
    (h : checkEntries check entries report v = .ok report' w) :
    ∃ used, ReadOver used v w ∧ (report'.isClean = true → report.isClean = true ∧
      ∀ entry ∈ entries, isDot entry = false → ∃ r r' u u' part, check entry r u = .ok r' u' ∧
        r'.isClean = true ∧ u.steady = v.steady ∧ ReadOver part u u' ∧ ∀ fails ∈ part, fails ∈ used) := by
  induction entries generalizing report v with
  | nil =>
      cases h
      exact ⟨[], ReadOver.refl _, fun hclean => ⟨hclean, fun entry hmem => absurd hmem List.not_mem_nil⟩⟩
  | cons entry rest ih =>
      obtain ⟨middle, u, hrest, used, hread, hkept, hrun⟩ : ∃ middle u, checkEntries check rest middle u = .ok report' w ∧
          ∃ used, ReadOver used v u ∧ (middle.isClean = true → report.isClean = true) ∧
            (isDot entry = false → check entry report v = .ok middle u) := by
        unfold checkEntries at h
        cases hdot : isDot entry with
        | true =>
            rw [if_pos hdot] at h
            exact ⟨report, v, h, [], ReadOver.refl v, id, fun hno => by cases hno⟩
        | false =>
            rw [if_neg (by rw [hdot]; decide)] at h
            obtain ⟨middle, u, hrun, hrest⟩ := of_bind_ok h
            obtain ⟨⟨used, hread⟩, hkept⟩ := hcheck _ _ _ _ _ hrun
            exact ⟨middle, u, hrest, used, hread, hkept, fun _ => hrun⟩
      obtain ⟨used', hread', hclean'⟩ := ih hrest
      refine ⟨used ++ used', hread.trans hread', fun hclean => ?_⟩
      obtain ⟨hmiddle, hall⟩ := hclean' hclean
      refine ⟨hkept hmiddle, fun other hmem hdot => ?_⟩
      rcases List.mem_cons.mp hmem with rfl | hmem
      · exact ⟨report, middle, v, u, used, hrun hdot, hmiddle, rfl, hread,
          fun fails hpart => List.mem_append_left _ hpart⟩
      · obtain ⟨r, r', t, t', part, hcall, hr', hsteady, hpart, hsub⟩ := hall other hmem hdot
        exact ⟨r, r', t, t', part, hcall, hr', hsteady.trans hread.steady_eq, hpart,
          fun fails hfails => List.mem_append_right _ (hsub fails hfails)⟩

theorem of_checkInode {entry : DirEntry} {report report' : CheckReport} {v w : Volume}
    (h : checkInode entry report v = .ok report' w) :
    ∃ result, tryReadInode entry.inumber v = .ok result w ∧ (report'.isClean = true →
      report.isClean = true ∧ ∃ child, result = .ok child ∧ Dinode.fileType child.dinode ≠ 0) := by
  unfold checkInode at h
  obtain ⟨result, u, hread, h⟩ := of_bind_ok h
  refine ⟨result, ?_⟩
  cases result with
  | error e =>
      cases h
      exact ⟨hread, fun hclean => by simp at hclean⟩
  | ok child =>
      simp only at h
      by_cases htype : Dinode.fileType child.dinode = 0
      · rw [if_pos htype] at h
        cases h
        exact ⟨hread, fun hclean => by simp at hclean⟩
      · rw [if_neg htype] at h
        cases h
        exact ⟨hread, fun hclean => ⟨hclean, child, rfl, htype⟩⟩

theorem of_foldl_checkExtent {aggSize : ℕ} {extents : List Extent} {report : CheckReport}
    (hclean : (extents.foldl (checkExtent aggSize) report).isClean = true) :
    report.isClean = true ∧ ∀ ext ∈ extents, ext.address < aggSize := by
  induction extents generalizing report with
  | nil => exact ⟨hclean, fun ext hmem => absurd hmem List.not_mem_nil⟩
  | cons ext rest ih =>
      obtain ⟨hfirst, hrest⟩ := ih hclean
      unfold checkExtent at hfirst
      simp only at hfirst
      by_cases hout : aggSize ≤ ext.address
      · rw [if_pos hout] at hfirst
        simp at hfirst
      · rw [if_neg hout] at hfirst
        refine ⟨hfirst, fun other hmem => ?_⟩
        rcases List.mem_cons.mp hmem with rfl | hmem
        · exact Nat.not_le.mp hout
        · exact hrest other hmem

theorem of_checkExtents {aggSize : ℕ} {ino : UInt32} {xt : Xtree} {report : CheckReport}
    (hclean : (checkExtents aggSize ino xt report).isClean = true) :
    report.isClean = true ∧ xt.validate = .ok () ∧ ∀ ext ∈ xt.iterExtents, ext.address < aggSize := by
  unfold checkExtents at hclean
  obtain ⟨hfirst, hextents⟩ := of_foldl_checkExtent hclean
  cases hvalid : xt.validate with
  | ok u =>
      rw [hvalid] at hfirst
      exact ⟨hfirst, rfl, hextents⟩
  | error e =>
      rw [hvalid] at hfirst
      simp at hfirst

theorem of_checkXtree {entry : DirEntry} {report report' : CheckReport} {v w : Volume}
    (h : checkXtree entry report v = .ok report' w) :
    ∃ result, tryReadInode entry.inumber v = .ok result w ∧ (report'.isClean = true → report.isClean = true ∧
      ∀ child xt, result = .ok child → child.isRegular = true → child.xtree = .ok xt →
        xt.validate = .ok () ∧ ∀ ext ∈ xt.iterExtents, ext.address < w.aggSize) := by
  unfold checkXtree at h
  obtain ⟨result, u, hread, h⟩ := of_bind_ok h
  refine ⟨result, ?_⟩
  cases result with
  | error e =>
      cases h
      exact ⟨hread, fun hclean => ⟨hclean, fun child xt hsame => by cases hsame⟩⟩
  | ok child =>
      simp only at h
      by_cases hregular : child.isRegular = true
      · rw [if_pos hregular] at h
        cases hxtree : child.xtree with
        | error e =>
            rw [hxtree] at h
            cases h
            refine ⟨hread, fun hclean => ⟨hclean, fun child' xt hsame _ hxt => ?_⟩⟩
            cases hsame
            cases hxtree.symm.trans hxt
        | ok xt =>
            rw [hxtree] at h
            cases h
            refine ⟨hread, fun hclean => ?_⟩
            obtain ⟨hfirst, hvalid, hextents⟩ := of_checkExtents hclean
            refine ⟨hfirst, fun child' xt' hsame _ hxt => ?_⟩
            cases hsame
            cases hxtree.symm.trans hxt
            exact ⟨hvalid, hextents⟩
      · rw [if_neg hregular] at h
        cases h
        refine ⟨hread, fun hclean => ⟨hclean, fun child' xt hsame hyes => ?_⟩⟩
        cases hsame
        exact absurd hyes hregular

theorem of_checkXattr {entry : DirEntry} {report report' : CheckReport} {v w : Volume}
    (h : checkXattr entry report v = .ok report' w) :
    ∃ result, tryReadInode entry.inumber v = .ok result w ∧ (report'.isClean = true → report.isClean = true) := by
  unfold checkXattr at h
  obtain ⟨result, u, hread, h⟩ := of_bind_ok h
  refine ⟨result, ?_⟩
  cases result with
  | error e =>
      cases h
      exact ⟨hread, id⟩
  | ok child =>
      simp only at h
      split at h
      · cases h
        exact ⟨hread, fun hclean => by simp at hclean⟩
      · cases h
        exact ⟨hread, id⟩

theorem checking_checkInode : Checking checkInode := by
  intro entry report v report' w h
  obtain ⟨result, hread, hclean⟩ := of_checkInode h
  obtain ⟨used, hover, -⟩ := readOver_tryReadInode hread
  exact ⟨⟨used, hover⟩, fun h => (hclean h).1⟩

theorem checking_checkXtree : Checking checkXtree := by
  intro entry report v report' w h
  obtain ⟨result, hread, hclean⟩ := of_checkXtree h
  obtain ⟨used, hover, -⟩ := readOver_tryReadInode hread
  exact ⟨⟨used, hover⟩, fun h => (hclean h).1⟩

theorem checking_checkXattr : Checking checkXattr := by
  intro entry report v report' w h
  obtain ⟨result, hread, hclean⟩ := of_checkXattr h
  obtain ⟨used, hover, -⟩ := readOver_tryReadInode hread
  exact ⟨⟨used, hover⟩, hclean⟩

/-! ## A clean report -/

/-- What the number of an entry should lead to: an inode with a type, and for a regular file extents in
the order of the file, one behind the other, that lie in the volume. -/
structure SoundInode (aggSize : ℕ) (inode : Inode) : Prop where
  typed : Dinode.fileType inode.dinode ≠ 0
  extents : inode.isRegular = true → ∃ xt, inode.xtree = .ok xt ∧
    xt.iterExtents.Pairwise (fun ext later => ext.offset + ext.length ≤ later.offset) ∧
    ∀ ext ∈ xt.iterExtents, ∀ k < ext.length, ext.address + k < aggSize

/-- No extent of a regular file starts in the volume and ends behind it. -/
def EndsInside (aggSize : ℕ) (inode : Inode) : Prop :=
  inode.isRegular = true → ∀ xt, inode.xtree = .ok xt → ∀ ext ∈ xt.iterExtents,
    ext.address < aggSize → ext.address + ext.length ≤ aggSize

/-- The entries of the root directory, on a device that does not fail. -/
def RootEntries (v : Volume) (entries : List DirEntry) : Prop :=
  ∃ root dtree, v.Reads rootIno root ∧ root.isDir = true ∧ root.dtree = .ok dtree ∧ dtree.entries = .ok entries

theorem RootEntries.unique {v : Volume} {entries entries' : List DirEntry} (h : v.RootEntries entries)
    (h' : v.RootEntries entries') : entries = entries' := by
  obtain ⟨root, dtree, hroot, -, hdtree, hentries⟩ := h
  obtain ⟨root', dtree', hroot', -, hdtree', hentries'⟩ := h'
  cases hroot.unique hroot'
  cases hdtree.symm.trans hdtree'
  exact Except.ok.inj (hentries.symm.trans hentries')

/-- An inode that was read is whole. -/
theorem yields_readInode (ino : UInt32) : Yields (fun inode => inode.dinode.length = disize) (readInode ino) := by
  refine Yields.bind _ fun place => ?_
  obtain ⟨block, offset⟩ := place
  have hrest : ∀ data, Yields (fun inode : Inode => inode.dinode.length = disize) (do
      let dinode ← returnExcept (sliceOrPanic data offset disize)
      return ({ dinode, ino, pageBlock := block, pageOffset := offset } : Inode) : VolM Inode) := by
    intro data v inode w hrun
    obtain ⟨dinode, u, hslice, hrun⟩ := of_bind_ok hrun
    cases hrun
    exact length_of_sliceOrPanic (of_returnExcept_ok hslice).1
  refine Yields.bind _ fun v => ?_
  split
  · exact Yields.bind _ hrest
  · exact Yields.bind _ hrest

theorem exists_xtree {inode : Inode} (hlen : inode.dinode.length = disize) : ∃ xt, inode.xtree = .ok xt := by
  have hroot : ¬ (Dinode.root inode.dinode).length < 96 := by
    unfold Dinode.root
    rw [length_slice_of_le (by rw [hlen]; decide)]
    decide
  exact ⟨_, if_neg hroot⟩

theorem isPairwise_of_validate {xt : Xtree} (h : xt.validate = .ok ()) :
    xt.iterExtents.Pairwise fun ext later => ext.offset + ext.length ≤ later.offset := by
  have hordered := xt.validate_ok_iff.mp h
  unfold Xtree.iterExtents
  refine List.pairwise_map.mpr ?_
  refine List.Pairwise.imp_of_mem ?_ (List.Pairwise.filter _ (List.pairwise_map.mp hordered))
  intro xad later hxad hlater hbefore
  have hsome : ∀ xad ∈ xt.slots.filter fun xad => xad.length ≠ 0, xad.length ≠ 0 :=
    fun xad hmem => of_decide_eq_true (List.mem_filter.mp hmem).2
  exact hbefore (hsome xad hxad) (hsome later hlater)

theorem sound_iff_endsInside {aggSize : ℕ} {inode : Inode} (hlen : inode.dinode.length = disize)
    (htype : Dinode.fileType inode.dinode ≠ 0)
    (hchecked : ∀ xt, inode.isRegular = true → inode.xtree = .ok xt →
      xt.validate = .ok () ∧ ∀ ext ∈ xt.iterExtents, ext.address < aggSize) :
    SoundInode aggSize inode ↔ EndsInside aggSize inode := by
  constructor
  · intro hsound hregular xt hxt ext hext hstart
    obtain ⟨xt', hxt', -, hinside⟩ := hsound.extents hregular
    cases hxt'.symm.trans hxt
    rcases Nat.eq_zero_or_pos ext.length with hzero | hpos
    · rw [hzero]
      exact hstart.le
    · have hlast := hinside ext hext (ext.length - 1) (by omega)
      omega
  · refine fun hends => ⟨htype, fun hregular => ?_⟩
    obtain ⟨xt, hxt⟩ := exists_xtree hlen
    obtain ⟨hvalid, hstarts⟩ := hchecked xt hregular hxt
    refine ⟨xt, hxt, isPairwise_of_validate hvalid, fun ext hext k hk => ?_⟩
    have hend := hends hregular xt hxt ext hext (hstarts ext hext)
    omega

/-- A check with a clean report went through its three passes. -/
theorem of_checkConsistent {display : StorageError → String} {sb : Superblock} {v w : Volume} {report : CheckReport}
    (hrun : checkConsistent display sb v = .ok report w) (hclean : report.isClean = true) :
    ∃ root dtree entries report₀ report₁ report₂ u v₁ v₂, tryReadInode rootIno v = .ok (.ok root) u ∧
      root.dtree = .ok dtree ∧ dtree.entries = .ok entries ∧ (report₀.isClean = true → root.isDir = true) ∧
      checkEntries checkInode entries report₀ u = .ok report₁ v₁ ∧
      checkEntries checkXtree entries report₁ v₁ = .ok report₂ v₂ ∧
      checkEntries checkXattr entries report₂ v₂ = .ok report w := by
  unfold checkConsistent at hrun
  rw [bind_ok (get_apply v)] at hrun
  obtain ⟨result, u, hroot, hrun⟩ := of_bind_ok hrun
  cases result with
  | error e =>
      cases hrun
      simp at hclean
  | ok root =>
      simp only at hrun
      cases hdtree : root.dtree with
      | error e =>
          rw [hdtree] at hrun
          cases hrun
          simp at hclean
      | ok dtree =>
          rw [hdtree] at hrun
          simp only at hrun
          obtain ⟨entries, u', hentries, hpasses⟩ := of_bind_ok hrun
          obtain ⟨hlisted, rfl⟩ := of_returnExcept_ok hentries
          obtain ⟨report₁, v₁, hfirst, hrest⟩ := of_bind_ok hpasses
          obtain ⟨report₂, v₂, hsecond, hthird⟩ := of_bind_ok hrest
          refine ⟨root, dtree, entries, _, report₁, report₂, u', v₁, v₂, hroot, hdtree, hlisted, fun hreport => ?_,
            hfirst, hsecond, hthird⟩
          by_contra hno
          rw [if_neg hno] at hreport
          simp at hreport

/-- **A clean report**: the root directory can be read, and so can every inode that it names; the inodes
are sound if no extent crosses the end of the volume. -/
theorem clean_sound_iff {display : StorageError → String} {sb : Superblock} {v w : Volume} {report : CheckReport}
    (hrun : checkConsistent display sb v = .ok report w) (hclean : report.isClean = true)
    (hreads : ∀ used, v.storage.faults = used ++ w.storage.faults → true ∉ used) :
    ∃ entries, v.RootEntries entries ∧
      ((∀ entry ∈ entries, isDot entry = false →
          ∃ inode, v.Reads entry.inumber inode ∧ SoundInode v.aggSize inode) ↔
        ∀ entry ∈ entries, isDot entry = false →
          ∀ inode, v.Reads entry.inumber inode → EndsInside v.aggSize inode) := by
  obtain ⟨root, dtree, entries, report₀, report₁, report₂, u, v₁, v₂, hroot, hdtree, hentries, hdir, hfirst, hsecond,
    hthird⟩ := of_checkConsistent hrun hclean
  obtain ⟨used, hover, hread, -⟩ := readOver_tryReadInode hroot
  obtain ⟨used₁, hover₁, hclean₁⟩ := of_checkEntries checking_checkInode hfirst
  obtain ⟨used₂, hover₂, hclean₂⟩ := of_checkEntries checking_checkXtree hsecond
  obtain ⟨used₃, hover₃, hclean₃⟩ := of_checkEntries checking_checkXattr hthird
  obtain ⟨hreport₁, hxtrees⟩ := hclean₂ (hclean₃ hclean).1
  obtain ⟨hreport₀, hinodes⟩ := hclean₁ hreport₁
  have hquiet : true ∉ used₂ := by
    have hnone := hreads _ (((hover.trans hover₁).trans hover₂).trans hover₃).1
    exact fun hmem => hnone (List.mem_append_left _ (List.mem_append_right _ hmem))
  refine ⟨entries, ⟨root, dtree, hread root rfl, hdir hreport₀, hdtree, hentries⟩, ?_⟩
  -- what the two passes found out about an entry, at the inode that a steady device gives
  have hboth : ∀ entry ∈ entries, isDot entry = false → ∃ inode, v.Reads entry.inumber inode ∧
      (SoundInode v.aggSize inode ↔ EndsInside v.aggSize inode) := by
    intro entry hmem hdot
    obtain ⟨r, r', t, t', -, hcall, hr', hsteady, -, -⟩ := hinodes entry hmem hdot
    obtain ⟨result, htry, hresult⟩ := of_checkInode hcall
    obtain ⟨-, inode, rfl, htype⟩ := hresult hr'
    obtain ⟨-, -, hreads₁, -⟩ := readOver_tryReadInode htry
    have hinode : v.Reads entry.inumber inode := by
      have hthere := hreads₁ inode rfl
      unfold Reads at *
      rwa [hsteady, hover.steady_eq] at hthere
    refine ⟨inode, hinode, sound_iff_endsInside (yields_readInode _ _ _ _ hinode) htype fun xt hregular hxt => ?_⟩
    obtain ⟨r₂, r₂', s, s', part, hcall₂, hr₂', hsteady₂, hpart, hsub⟩ := hxtrees entry hmem hdot
    obtain ⟨result₂, htry₂, hresult₂⟩ := of_checkXtree hcall₂
    obtain ⟨used', hover', hok, herror⟩ := readOver_tryReadInode htry₂
    have hagain : s.Reads entry.inumber inode := by
      unfold Reads at *
      rwa [hsteady₂, hover₁.steady_eq, hover.steady_eq]
    cases result₂ with
    | error e =>
        refine absurd hagain (herror e rfl (fun hfault => hquiet (hsub _ ?_)) inode)
        rwa [hpart.unique hover']
    | ok child =>
        cases hagain.unique (hok child rfl)
        obtain ⟨hvalid, hstarts⟩ := (hresult₂ hr₂').2 inode xt rfl hregular hxt
        have hagg : s'.aggSize = v.aggSize := by
          have hsame := hover'.steady_eq.trans (hsteady₂.trans (hover₁.steady_eq.trans hover.steady_eq))
          exact show s'.steady.aggSize = v.steady.aggSize from congrArg Volume.aggSize hsame
        rw [hagg] at hstarts
        exact ⟨hvalid, hstarts⟩
  constructor
  · intro hsound entry hmem hdot inode hinode
    obtain ⟨inode', hinode', hiff⟩ := hboth entry hmem hdot
    cases hinode.unique hinode'
    obtain ⟨inode', hinode', hsound'⟩ := hsound entry hmem hdot
    cases hinode.unique hinode'
    exact hiff.mp hsound'
  · intro hends entry hmem hdot
    obtain ⟨inode, hinode, hiff⟩ := hboth entry hmem hdot
    exact ⟨inode, hinode, hiff.mpr (hends entry hmem hdot inode hinode)⟩

/-! ### A directory with one file -/

section OneEntry

variable {v : Volume} {sb : Superblock} {root file : Inode} {dtree : Dtree} {entry : DirEntry} {xt : Xtree}

theorem tryReadInode_of_ok {ino : UInt32} {inode : Inode} {w : Volume} (h : readInode ino v = .ok inode w) :
    tryReadInode ino v = .ok (.ok inode) w :=
  tryCatch_ok ((bind_ok h).trans rfl)

theorem foldl_checkExtent_of_lt {aggSize : ℕ} {extents : List Extent} (h : ∀ ext ∈ extents, ext.address < aggSize)
    (report : CheckReport) : extents.foldl (checkExtent aggSize) report = report := by
  induction extents with
  | nil => rfl
  | cons ext rest ih =>
      have hfirst : checkExtent aggSize report ext = report :=
        if_neg (Nat.not_le.mpr (h ext List.mem_cons_self))
      rw [List.foldl_cons, hfirst]
      exact ih fun other hmem => h other (List.mem_cons_of_mem _ hmem)

theorem checkEntries_singleton {check : DirEntry → CheckReport → VolM CheckReport} (hdot : isDot entry = false)
    {report report' : CheckReport} (h : check entry report v = .ok report' v) :
    checkEntries check [entry] report v = .ok report' v := by
  unfold checkEntries
  rw [if_neg (by rw [hdot]; decide)]
  exact bind_ok h

/-- The check of a root directory with one regular file in it. -/
theorem checkConsistent_of_reads (display : StorageError → String) (hsupers : checkSupers sb v.log = {})
    (hroot : readInode rootIno v = .ok root v) (hdir : root.isDir = true) (hdtree : root.dtree = .ok dtree)
    (hentries : dtree.entries = .ok [entry]) (hdot : isDot entry = false)
    (hfile : readInode entry.inumber v = .ok file v) (hregular : Dinode.fileType file.dinode = 8)
    (hxt : file.xtree = .ok xt) (hvalid : xt.validate = .ok ())
    (hstarts : ∀ ext ∈ xt.iterExtents, ext.address < v.aggSize) (hplain : file.dinode.getD 104 0 &&& dxdInline = 0) :
    checkConsistent display sb v = .ok {} v := by
  have hinode : checkInode entry {} v = .ok {} v := by
    unfold checkInode
    rw [bind_ok (tryReadInode_of_ok hfile)]
    simp only
    rw [if_neg (by rw [hregular]; decide)]
    rfl
  have hxtree : checkXtree entry {} v = .ok {} v := by
    have hyes : file.isRegular = true := decide_eq_true hregular
    unfold checkXtree
    rw [bind_ok (tryReadInode_of_ok hfile)]
    simp only
    rw [if_pos hyes, hxt]
    simp only
    rw [bind_ok (get_apply v)]
    unfold checkExtents
    rw [hvalid, foldl_checkExtent_of_lt hstarts]
    rfl
  have hxattr : checkXattr entry {} v = .ok {} v := by
    unfold checkXattr
    rw [bind_ok (tryReadInode_of_ok hfile)]
    simp only
    rw [if_neg fun h => h.1 hplain]
    rfl
  unfold checkConsistent
  rw [bind_ok (get_apply v), bind_ok (tryReadInode_of_ok hroot)]
  simp only
  rw [hdtree, if_pos hdir, hsupers]
  simp only
  rw [hentries, bind_ok (returnExcept_ok _ v), bind_ok (checkEntries_singleton hdot hinode),
    bind_ok (checkEntries_singleton hdot hxtree)]
  exact checkEntries_singleton hdot hxattr

end OneEntry

/-- The inode of a root directory with the entry `a` for inode 19. -/
def namingRoot : List UInt8 :=
  Mkfs.dinode [(4, leBytes 4 filesystemI), (8, leBytes 4 rootI), (40, leBytes 4 2), (52, leBytes 4 0x41ed),
    (224, spliceAll [(17, [1]), (24, [1]), (32, leBytes 4 19), (37, [1, 97])] (zeros 288))]

/-- A volume of 128 blocks with this root directory and the file 19. -/
def namingOne (file : List UInt8) : Volume :=
  { oneInode namingRoot fun _ => 0 with
    storage :=
      { Storage.newMemory 128 with
        data := Memory.write (fun _ => 0) (4 * blockSize) (splice (Mkfs.inodeBlock 0 namingRoot) disize file) } }

section NamingOne

variable {file : List UInt8}

theorem length_namingRoot : namingRoot.length = disize := by
  decide +kernel

theorem dtree_namingRoot : Dtree.fromInodeData (Dinode.root namingRoot) = .ok ⟨Dinode.root namingRoot⟩ := by
  have hlong : ¬ (Dinode.root namingRoot).length < dtEntryStart * dtSlotSize := by
    unfold Dinode.root
    rw [length_slice_of_le (by rw [length_namingRoot]; decide)]
    decide
  exact if_neg hlong

theorem entries_namingRoot :
    (⟨Dinode.root namingRoot⟩ : Dtree).entries = .ok [{ inumber := 19, name := [97], index := 0 }] := by
  decide +kernel

theorem calm_namingOne : (namingOne file).Calm where
  faults := rfl
  size := le_rfl
  pages key page hpeek := absurd (hpeek.symm.trans (PageCache.peek_new ..)) (by simp)

variable (hlen : file.length = disize)

include hlen

theorem block_namingOne :
    (namingOne file).storage.block 4 = splice (Mkfs.inodeBlock 0 namingRoot) disize file := by
  have hblock := Mkfs.length_inodeBlock (show 0 < inosPerPage by decide) length_namingRoot
  have hsplice : (splice (Mkfs.inodeBlock 0 namingRoot) disize file).length = blockSize := by
    rw [length_splice, hblock]
    rw [hlen, hblock]
    decide
  have hread := Memory.read_write_self (fun _ => 0) (4 * blockSize) (splice (Mkfs.inodeBlock 0 namingRoot) disize file)
  rwa [hsplice] at hread

theorem shown_namingOne : (namingOne file).shown 4 = splice (Mkfs.inodeBlock 0 namingRoot) disize file := by
  have hnone : (namingOne file).pageCache.peekBlock 4 = none := PageCache.peekBlock_new ..
  unfold shown
  rw [hnone, Option.map_none, Option.getD_none, block_namingOne hlen]

theorem slots_namingOne : slotOf (splice (Mkfs.inodeBlock 0 namingRoot) disize file) 0 = namingRoot ∧
    slotOf (splice (Mkfs.inodeBlock 0 namingRoot) disize file) 1 = file := by
  have hblock := Mkfs.length_inodeBlock (show 0 < inosPerPage by decide) length_namingRoot
  constructor
  · unfold slotOf
    rw [slice_splice_of_disjoint (by rw [hlen, hblock]; decide) (Or.inl (by decide))]
    have hself := slice_splice_self namingRoot (show 0 * disize ≤ (zeros blockSize).length by
      rw [Nat.zero_mul]
      exact Nat.zero_le _)
    rwa [length_namingRoot] at hself
  · have hself := slice_splice_self file (show disize ≤ (Mkfs.inodeBlock 0 namingRoot).length by
      rw [hblock]
      decide)
    rw [hlen] at hself
    unfold slotOf
    rwa [Nat.one_mul]

theorem inodeAt_namingOne (ino : UInt32) (j : ℕ) : (namingOne file).inodeAt ino 4 j =
    { dinode := slotOf (splice (Mkfs.inodeBlock 0 namingRoot) disize file) j, ino, pageBlock := 4,
      pageOffset := j * disize } := by
  have hnone : (namingOne file).pageCache.peek (ino, 4) = none := PageCache.peek_new ..
  unfold inodeAt own
  rw [hnone, Option.map_none, Option.getD_none, block_namingOne hlen]

theorem readInode_namingOne_root :
    readInode rootIno (namingOne file) =
      .ok { dinode := namingRoot, ino := rootIno, pageBlock := 4, pageOffset := 0 * disize } (namingOne file) := by
  obtain ⟨hroot, -⟩ := slots_namingOne hlen
  have hait : (namingOne file).ait2.address = 4 := show (Mkfs.makePxd 0 4).address = 4 by decide
  have hfound : (namingOne file).FoundAt rootIno 4 0 := by
    refine ⟨hait.le, ?_, show 4 < 128 by decide, by decide, ?_, fun b' j' hlow hbefore _ => ?_⟩
    · rw [hait]
      unfold scanSlack
      omega
    · rw [shown_namingOne hlen, hroot]
      decide
    · rw [hait] at hlow
      omega
  rw [calm_namingOne.readInode_of_foundAt hfound, inodeAt_namingOne hlen, hroot]

theorem readInode_namingOne_file (hkey : Dinode.HasKey (inodeKey 19) file) :
    readInode 19 (namingOne file) =
      .ok { dinode := file, ino := 19, pageBlock := 4, pageOffset := 1 * disize } (namingOne file) := by
  obtain ⟨hroot, hfile⟩ := slots_namingOne hlen
  have hait : (namingOne file).ait2.address = 4 := show (Mkfs.makePxd 0 4).address = 4 by decide
  have hfound : (namingOne file).FoundAt 19 4 1 := by
    refine ⟨hait.le, ?_, show 4 < 128 by decide, by decide, ?_, fun b' j' hlow hbefore _ => ?_⟩
    · rw [hait]
      unfold scanSlack
      omega
    · rwa [shown_namingOne hlen, hfile]
    · rw [hait] at hlow
      obtain ⟨rfl, rfl⟩ : b' = 4 ∧ j' = 0 := by omega
      rw [shown_namingOne hlen, hroot]
      decide
  rw [calm_namingOne.readInode_of_foundAt hfound, inodeAt_namingOne hlen, hfile]

theorem reads_namingOne_file (hkey : Dinode.HasKey (inodeKey 19) file) :
    (namingOne file).Reads 19 { dinode := file, ino := 19, pageBlock := 4, pageOffset := 1 * disize } :=
  readInode_namingOne_file hlen hkey

theorem rootEntries_namingOne :
    (namingOne file).RootEntries [{ inumber := 19, name := [97], index := 0 }] :=
  ⟨_, _, readInode_namingOne_root hlen, by decide, dtree_namingRoot, entries_namingRoot⟩

end NamingOne

/-- A root with one extent, two blocks from block 127 on. -/
def crossingEnd : Xtree where
  header := { nextindex := 3 }
  xad := (Vector.replicate xtRootMaxSlot {}).set 2 { loc := { lenAddr := 2, addr2 := 127 } } entryStart_lt

theorem slots_crossingEnd : crossingEnd.slots = [{ loc := { lenAddr := 2, addr2 := 127 } }] := by
  decide

theorem iterExtents_stored {xtree : Xtree} {xad : Xad} (hslots : xtree.slots = [xad]) (hlength : xad.length ≠ 0) :
    xtree.stored.iterExtents = [{ offset := xad.offset, length := xad.length, address := xad.address }] := by
  unfold Xtree.iterExtents
  rw [Xtree.slots_stored, hslots]
  simp [hlength]

/-- The fields between the size and the root of an inode are those of an empty file. -/
theorem readLE_fileInode (xtree : Xtree) (size : ℕ) {off width : ℕ} (hlow : 40 ≤ off)
    (hhigh : off + width ≤ Dinode.rootOff) :
    readLE (fileInode xtree size) off width = readLE emptyInode off width := by
  have hsized := Dinode.length_setSize length_emptyInode size
  unfold fileInode setXtree Dinode.setNblocks
  rw [readLE_writeLE_of_disjoint _ (by rw [Dinode.length_setRoot hsized]; decide) (Or.inr hlow),
    Dinode.readLE_setRoot hsized xtree hhigh]
  exact readLE_writeLE_of_disjoint _ (by rw [length_emptyInode]; decide) (Or.inr (by omega))

/-- A file whose only extent starts in the volume passes the check. -/
theorem checkConsistent_namingOne (display : StorageError → String) {xtree : Xtree} {xad : Xad}
    (hslots : xtree.slots = [xad]) (hlength : xad.length ≠ 0) (hstart : xad.address < 128) (size : ℕ) :
    checkConsistent display (Superblock.image 128) (namingOne (fileInode xtree size)) =
      .ok {} (namingOne (fileInode xtree size)) := by
  have hlen := length_fileInode xtree size
  have hmode : Dinode.mode (fileInode xtree size) = Dinode.mode emptyInode :=
    readLE_fileInode xtree size (by decide) (by decide)
  have hflag : (fileInode xtree size).getD 104 0 = emptyInode.getD 104 0 := by
    have hsame := readLE_fileInode xtree size (show 40 ≤ 104 by decide) (show 104 + 1 ≤ Dinode.rootOff by decide)
    rw [readLE_one, readLE_one] at hsame
    exact UInt8.toNat_inj.mp hsame
  have hextents := iterExtents_stored hslots hlength
  refine checkConsistent_of_reads display rfl (readInode_namingOne_root hlen) (by decide) dtree_namingRoot entries_namingRoot
    (by decide)
    (readInode_namingOne_file hlen (hasKey_fileInode xtree size)) ?_ (xtree_fileInode xtree size) ?_ ?_ ?_
  · show Dinode.mode (fileInode xtree size) / 0x1000 % 0x10 = 8
    rw [hmode]
    decide
  · refine (Xtree.validate_ok_iff _).mpr ?_
    unfold Xtree.runs
    rw [Xtree.slots_stored, hslots]
    exact List.pairwise_singleton _ _
  · rw [hextents]
    intro ext hmem
    cases List.mem_singleton.mp hmem
    exact hstart
  · show (fileInode xtree size).getD 104 0 &&& dxdInline = 0
    rw [hflag]
    decide

/-- A file of three blocks inside the volume is found sound. -/
theorem clean_sound_iff_threeBlocks : ∃ entries, (namingOne (fileInode Xtree.threeBlocks 12288)).RootEntries entries ∧
    ∀ entry ∈ entries, isDot entry = false →
      ∃ inode, (namingOne (fileInode Xtree.threeBlocks 12288)).Reads entry.inumber inode ∧ SoundInode 128 inode := by
  have hlen := length_fileInode Xtree.threeBlocks 12288
  have hrun := checkConsistent_namingOne (fun _ => "") Xtree.slots_threeBlocks (by decide) (by decide) 12288
  obtain ⟨entries, hentries, hiff⟩ := clean_sound_iff hrun rfl fun used hused => by
    have hnone : used = [] := (List.append_eq_nil_iff.mp hused.symm).1
    rw [hnone]
    exact List.not_mem_nil
  refine ⟨entries, hentries, hiff.mpr ?_⟩
  cases hentries.unique (rootEntries_namingOne hlen)
  intro entry hmem _ inode hinode _ xt hxt ext hext _
  cases List.mem_singleton.mp hmem
  have hreads := reads_namingOne_file hlen (hasKey_fileInode ..)
  have hsame := hinode.unique hreads
  subst hsame
  cases (xtree_fileInode Xtree.threeBlocks 12288).symm.trans hxt
  rw [iterExtents_stored Xtree.slots_threeBlocks (by decide), List.mem_singleton] at hext
  subst hext
  show 100 + 3 ≤ 128
  decide

/-- **A clean report although an extent crosses the end of the volume.** -/
theorem clean_crossing : ∃ v report entries entry,
    checkConsistent (fun _ => "") (Superblock.image 128) v = .ok report v ∧ report.isClean = true ∧
      v.RootEntries entries ∧ entry ∈ entries ∧ isDot entry = false ∧
        ∀ inode, v.Reads entry.inumber inode → ¬ SoundInode v.aggSize inode := by
  have hlen := length_fileInode crossingEnd 8192
  refine ⟨namingOne (fileInode crossingEnd 8192), {}, _, _,
    checkConsistent_namingOne _ slots_crossingEnd (by decide) (by decide) 8192, rfl, rootEntries_namingOne hlen,
    List.mem_singleton_self _, by decide, fun inode hinode hsound => ?_⟩
  have hreads := reads_namingOne_file hlen (hasKey_fileInode ..)
  have hsame := hinode.unique hreads
  subst hsame
  have hregular : Dinode.isRegular (fileInode crossingEnd 8192) = true := by
    unfold Dinode.isRegular Dinode.fileType Dinode.mode
    rw [readLE_fileInode crossingEnd 8192 (by decide) (by decide)]
    decide
  obtain ⟨xt, hxt, -, hinside⟩ := hsound.extents hregular
  cases (xtree_fileInode crossingEnd 8192).symm.trans hxt
  have hlast := hinside _ (by
    rw [iterExtents_stored slots_crossingEnd (by decide)]
    exact List.mem_singleton_self _) 1 (by decide)
  exact absurd hlast (by decide)

end Volume

end JfsFuse
