import JfsFuse.Mkfs
import JfsFuse.Volume.BodySteps
import JfsFuse.Volume.Operations

/-!
# Calls that are refused

A call on names that returns an error or `false` has closed or left its transaction without
a commit.  What it leaves behind depends on how far it came: an abort keeps the cached
pages with their changes, so a refused call is without effect when it stops before its first
`update_inode_page`.
-/

namespace JfsFuse

open ByteBuf Program

namespace Volume

/-! ## Reading only -/

/-- Only the device's decisions and the transaction manager differ, and no page was marked. -/
def Quiet (v v' : Volume) : Prop :=
  ∃ txMgr faults, v' = { v with txMgr, storage := { v.storage with faults } } ∧
    txMgr.active.map ActiveTxn.dirtyPages = v.txMgr.active.map ActiveTxn.dirtyPages

instance : IsPreorder Volume Quiet where
  refl v := ⟨v.txMgr, v.storage.faults, rfl, rfl⟩
  trans := by
    rintro v _ _ ⟨txMgr, faults, rfl, hpages⟩ ⟨txMgr', faults', rfl, hpages'⟩
    exact ⟨txMgr', faults', rfl, hpages'.trans hpages⟩

theorem reads_quiet : ReadSteps Quiet where
  faults v faults := ⟨v.txMgr, faults, rfl, rfl⟩
  noted v active allocated hactive := by
    refine ⟨_, v.storage.faults, rfl, ?_⟩
    rw [hactive]
    rfl

/-- Wherever `first` does not answer that the body goes on to change a page, the body reads only
and does not get to its commit. -/
def Spares {α : Type} (first : VolM Bool) (body : VolM (Exit α α)) : Prop :=
  ∀ v, (∀ w, first v ≠ .ok true w) →
    Quiet v (final (body v)) ∧ ∀ exit w, body v = .ok exit w → ∃ result, exit = .abort result

namespace Spares

variable {α γ : Type}

theorem abort (answer : Bool) (result : Except StorageError α) :
    Spares (pure answer) (pure (.abort result)) := by
  intro v _
  refine ⟨refl_of Quiet v, fun exit w hrun => ?_⟩
  cases hrun
  exact ⟨result, rfl⟩

theorem goesOn (body : VolM (Exit α α)) : Spares (pure true) body :=
  fun v hnot => absurd rfl (hnot v)

theorem bind {x : VolM γ} {first : γ → VolM Bool} {body : γ → VolM (Exit α α)}
    (hx : Within Quiet x) (h : ∀ a, Spares (first a) (body a)) :
    Spares (x >>= first) (x >>= body) := by
  intro v hnot
  have hquiet := hx v
  cases hrun : x v with
  | error e w =>
      rw [hrun] at hquiet
      rw [bind_error hrun]
      exact ⟨hquiet, fun exit w' hend => by cases hend⟩
  | ok a w =>
      rw [hrun] at hquiet
      have hnot' : ∀ w', first a w ≠ .ok true w' := by
        intro w' heq
        exact hnot w' ((bind_ok hrun).trans heq)
      obtain ⟨hbody, hexit⟩ := h a w hnot'
      rw [bind_ok hrun]
      exact ⟨trans_of Quiet hquiet hbody, hexit⟩

theorem ite {c : Prop} [Decidable c] {first first' : VolM Bool} {body body' : VolM (Exit α α)}
    (h : Spares first body) (h' : Spares first' body') :
    Spares (if c then first else first') (if c then body else body') := by
  split
  · exact h
  · exact h'

end Spares

/-! ## How far a call comes -/

/-- `insert_dir_entry` up to its update. -/
def insertsEntry (parentIno : UInt32) (name : List UInt16) (childIno index : UInt32) : VolM Bool := do
  let inode ← readInode parentIno
  let (inserted, _) ← runDtree (Dtree.insert name childIno index) (← readDtree inode)
  return inserted

/-- `remove_dir_entry` up to its update. -/
def removesEntry (parentIno : UInt32) (name : List UInt16) : VolM Bool := do
  let inode ← readInode parentIno
  let (removed, _) ← runDtree (Dtree.remove name) (← readDtree inode)
  return removed.isSome

theorem Spares.insertDirEntry {α : Type} (parentIno : UInt32) (name : List UInt16)
    (childIno index : UInt32) {rest : Bool → VolM (Exit α α)} (hrest : Spares (pure false) (rest false)) :
    Spares (insertsEntry parentIno name childIno index)
      (insertDirEntry parentIno name childIno index >>= rest) := by
  unfold insertsEntry Volume.insertDirEntry
  simp only [bind_assoc]
  refine Spares.bind (reads_quiet.readInode _) fun inode => ?_
  refine Spares.bind (Within.returnExcept _) fun dtree => ?_
  refine Spares.bind (ReadSteps.runDtree _ _) fun result => ?_
  obtain ⟨inserted, dtree⟩ := result
  cases inserted with
  | true => exact Spares.goesOn _
  | false => exact hrest

theorem Spares.removeDirEntry {α : Type} (parentIno : UInt32) (name : List UInt16)
    {first : VolM Bool} {rest : Option UInt32 → VolM (Exit α α)} (hrest : Spares first (rest none)) :
    Spares (do if ← removesEntry parentIno name then return true else first)
      (removeDirEntry parentIno name >>= rest) := by
  unfold removesEntry Volume.removeDirEntry
  simp only [bind_assoc]
  refine Spares.bind (reads_quiet.readInode _) fun inode => ?_
  refine Spares.bind (Within.returnExcept _) fun dtree => ?_
  refine Spares.bind (ReadSteps.runDtree _ _) fun result => ?_
  obtain ⟨removed, dtree⟩ := result
  cases removed with
  | some ino => exact Spares.goesOn _
  | none => exact hrest

/-- A rename into another directory up to its first update. -/
def renameAcrossFirst (newParent : UInt32) (newName : List UInt16) (childIno : UInt32) :
    VolM Bool := do
  if ← removesEntry newParent newName then return true
  else
    let index ← nextEntryIndex newParent
    insertsEntry newParent newName childIno index

/-- A rename within a directory up to its update. -/
def renameWithinFirst (parentIno : UInt32) (oldName newName : List UInt16) (childIno : UInt32)
    (childIsDir : Bool) : VolM Bool := do
  let parent ← readInode parentIno
  let dtree ← readDtree parent
  if let some entry ← returnExcept (dtree.lookup newName) then
    let dest ← readInode entry.inumber
    if let some _ ← returnExcept (replaceRefused childIsDir dest) then return false
  let index ← numEntries dtree
  let parent ← readInode parentIno
  let _ ← runDtree (renameEntry oldName newName childIno index) (← readDtree parent)
  return true

theorem Spares.renameAcross (oldParent : UInt32) (oldName : List UInt16) (newParent : UInt32)
    (newName : List UInt16) (childIno : UInt32) (childIsDir : Bool) :
    Spares (renameAcrossFirst newParent newName childIno)
      (renameAcross oldParent oldName newParent newName childIno childIsDir) := by
  unfold renameAcrossFirst Volume.renameAcross removeReplaced
  simp only [bind_assoc]
  refine Spares.removeDirEntry _ _ ?_
  refine Spares.bind (reads_quiet.nextEntryIndex _) fun index => ?_
  exact Spares.insertDirEntry _ _ _ _ (Spares.abort _ _)

theorem Spares.renameWithin (parentIno : UInt32) (oldName newName : List UInt16) (childIno : UInt32)
    (childIsDir : Bool) : Spares (renameWithinFirst parentIno oldName newName childIno childIsDir)
      (renameWithin parentIno oldName newName childIno childIsDir) := by
  have hrest : ∀ dtree, Spares (do
      let index ← numEntries dtree
      let parent ← readInode parentIno
      let _ ← runDtree (renameEntry oldName newName childIno index) (← readDtree parent)
      return true) (renameChecked parentIno oldName newName childIno dtree) := by
    intro dtree
    refine Spares.bind (ReadSteps.numEntries _) fun index => ?_
    refine Spares.bind (reads_quiet.readInode _) fun parent => ?_
    refine Spares.bind (Within.returnExcept _) fun dtree => ?_
    exact Spares.bind (ReadSteps.runDtree _ _) fun result => Spares.goesOn _
  refine Spares.bind (reads_quiet.readInode _) fun parent => ?_
  refine Spares.bind (Within.returnExcept _) fun dtree => ?_
  refine Spares.bind (Within.returnExcept _) fun found => ?_
  cases found with
  | none => exact hrest dtree
  | some entry =>
      refine Spares.bind (reads_quiet.readInode _) fun dest => ?_
      refine Spares.bind (Within.returnExcept _) fun refused => ?_
      cases refused with
      | some e => exact Spares.abort _ _
      | none => exact hrest dtree

/-- `rename` up to its first update. -/
def renameFirst (oldParent : UInt32) (oldName : List UInt16) (newParent : UInt32)
    (newName : List UInt16) : VolM Bool := do
  if !validName oldName then return false
  if !validName newName then return false
  let parent ← readInode oldParent
  match ← returnExcept ((← readDtree parent).lookup oldName) with
  | none => return false
  | some entry =>
      let child ← readInode entry.inumber
      if oldParent ≠ newParent then renameAcrossFirst newParent newName entry.inumber
      else renameWithinFirst oldParent oldName newName entry.inumber child.isDir

theorem Spares.renameBody (oldParent : UInt32) (oldName : List UInt16) (newParent : UInt32)
    (newName : List UInt16) : Spares (renameFirst oldParent oldName newParent newName)
      (renameBody oldParent oldName newParent newName) := by
  refine Spares.ite (Spares.abort _ _) (Spares.ite (Spares.abort _ _) ?_)
  refine Spares.bind (reads_quiet.readInode _) fun parent => ?_
  refine Spares.bind (Within.returnExcept _) fun dtree => ?_
  refine Spares.bind (Within.returnExcept _) fun found => ?_
  cases found with
  | none => exact Spares.abort _ _
  | some entry =>
      refine Spares.bind (reads_quiet.readInode _) fun child => ?_
      exact Spares.ite (Spares.renameAcross _ _ _ _ _ _) (Spares.renameWithin _ _ _ _ _)

/-- `link_file` up to its first update. -/
def linkFirst (parentIno : UInt32) (name : List UInt16) (targetIno : UInt32) : VolM Bool := do
  let target ← readInode targetIno
  if target.isDir then return false
  if !validName name then return false
  let index ← nextEntryIndex parentIno
  insertsEntry parentIno name targetIno index

theorem Spares.linkFileBody (parentIno : UInt32) (name : List UInt16) (targetIno : UInt32) :
    Spares (linkFirst parentIno name targetIno) (linkFileBody parentIno name targetIno) := by
  refine Spares.bind (reads_quiet.readInode _) fun target => ?_
  refine Spares.ite (Spares.abort _ _) (Spares.ite (Spares.abort _ _) ?_)
  refine Spares.bind (reads_quiet.nextEntryIndex _) fun index => ?_
  exact Spares.insertDirEntry _ _ _ _ (Spares.abort _ _)

/-- The removal of an entry, the first step of `rmdir` and of `unlink_file`, up to its update. -/
def removeFirst (parentIno : UInt32) (name : List UInt16) : VolM Bool := do
  if ← removesEntry parentIno name then return true else return false

/-- The allocation of an inode, the first step of the calls that make one; `accepted` says whether
name and target pass their checks. -/
def allocateFirst (accepted : Bool) : VolM Bool := do
  let _ ← allocateInode
  return accepted

theorem Spares.allocateInode {α : Type} {accepted : Bool}
    {body : UInt32 × ℕ × ℕ → VolM (Exit α α)}
    (hbody : accepted = false → ∀ child, ∃ result, body child = pure (.abort result)) :
    Spares (allocateFirst accepted) (allocateInode >>= body) := by
  refine Spares.bind reads_quiet.allocateInode fun child => ?_
  cases accepted with
  | true => exact Spares.goesOn _
  | false =>
      obtain ⟨result, heq⟩ := hbody rfl child
      rw [heq]
      exact Spares.abort _ _

/-! ## What is left behind -/

/-- `v'` is `v` but for the transaction manager, the device's decisions and the allocation map,
which may have been rolled back: storage, cache, journal and handles are the same. -/
def Untouched (v v' : Volume) : Prop :=
  ∃ txMgr faults bmap, v' = { v with txMgr, storage := { v.storage with faults }, bmap } ∧
    (bmap = v.bmap ∨ bmap = v.bmap.map BlockAllocMap.rollback)

instance : IsPreorder Volume Untouched where
  refl v := ⟨v.txMgr, v.storage.faults, v.bmap, rfl, Or.inl rfl⟩
  trans := by
    rintro v _ _ ⟨txMgr, faults, bmap, rfl, hbmap⟩ ⟨txMgr', faults', bmap', rfl, hbmap'⟩
    refine ⟨txMgr', faults', bmap', rfl, ?_⟩
    have htwice : (v.bmap.map BlockAllocMap.rollback).map BlockAllocMap.rollback =
        v.bmap.map BlockAllocMap.rollback := by
      rw [Option.map_map]
      rfl
    rcases hbmap with rfl | rfl
    · exact hbmap'
    · rcases hbmap' with rfl | rfl
      · exact Or.inr rfl
      · exact Or.inr htwice

theorem Quiet.untouched {v v' : Volume} (h : Quiet v v') : Untouched v v' := by
  obtain ⟨txMgr, faults, rfl, -⟩ := h
  exact ⟨txMgr, faults, v.bmap, rfl, Or.inl rfl⟩

theorem untouched_begun (v : Volume) : Untouched v v.begun :=
  ⟨v.begun.txMgr, v.storage.faults, v.bmap, rfl, Or.inl rfl⟩

/-- An abort that has no page to clean up. -/
theorem untouched_abort {v : Volume} (h : v.txMgr.active.map ActiveTxn.dirtyPages = some []) :
    ∃ w, abortTransaction v = .ok () w ∧ Untouched v w := by
  obtain ⟨active, hactive, hpages⟩ := Option.map_eq_some_iff.mp h
  refine ⟨_, rfl, { v.txMgr with active := none }, v.storage.faults, _, ?_, Or.inr rfl⟩
  dsimp only
  rw [hactive]
  dsimp only
  rw [hpages]
  rfl

/-- **A call that does not get to its first update** leaves the volume as it was. -/
theorem Spares.untouched {α : Type} {first : VolM Bool} {body : VolM (Exit α α)}
    (h : Spares first body) {v : Volume} (hnot : ∀ w, first v.begun ≠ .ok true w) :
    Untouched v (final (transaction body v)) := by
  cases hactive : v.txMgr.active with
  | some active =>
      have hbegin : ∃ e, beginTransaction v = .error e v := by
        unfold beginTransaction
        rw [bind_ok (get_apply v), hactive]
        exact ⟨_, rfl⟩
      obtain ⟨e, hbegin⟩ := hbegin
      unfold transaction
      rw [bind_error hbegin]
      exact refl_of Untouched v
  | none =>
      obtain ⟨hquiet, hexit⟩ := h v.begun hnot
      unfold transaction
      rw [bind_ok (beginTransaction_of_idle hactive)]
      cases hrun : body v.begun with
      | error e w =>
          rw [hrun] at hquiet
          rw [bind_error hrun]
          exact trans_of Untouched (untouched_begun v) hquiet.untouched
      | ok exit w =>
          rw [hrun] at hquiet
          obtain ⟨result, rfl⟩ := hexit exit w hrun
          have hpages : w.txMgr.active.map ActiveTxn.dirtyPages = some [] := by
            obtain ⟨txMgr, faults, rfl, hpages⟩ := hquiet
            exact hpages
          obtain ⟨w', habort, hlast⟩ := untouched_abort hpages
          have hsame := trans_of Untouched (trans_of Untouched (untouched_begun v) hquiet.untouched) hlast
          rw [bind_ok hrun]
          simp only
          rw [bind_ok habort]
          cases result with
          | ok a => exact hsame
          | error e => exact hsame

/-- What `Inode::read` takes: the superblock, the storage and the page cache.  The device does not
fail an observation. -/
def view (v : Volume) : Volume where
  ait2 := v.ait2
  aggSize := v.aggSize
  log := none
  storage := { v.storage with faults := [] }
  pageCache := v.pageCache
  bmap := none

/-- What `Inode::read` answers.  Attributes, lookups and listings are read off this inode. -/
def observed (v : Volume) (ino : UInt32) : Except StorageError Inode :=
  match readInode ino v.view with
  | .ok inode _ => .ok inode
  | .error e _ => .error e

theorem Untouched.observed {v v' : Volume} (h : Untouched v v') (ino : UInt32) :
    v'.observed ino = v.observed ino := by
  obtain ⟨txMgr, faults, bmap, rfl, -⟩ := h
  rfl

end Volume

namespace Operation

open Volume

/-- The eight calls on names. -/
def isNamespace : Operation → Bool
  | createFile .. | mkdir .. | mknod .. | symlink .. | linkFile .. | rename .. | rmdir ..
  | unlinkFile .. => true
  | _ => false

/-- A call on names up to its first `update_inode_page`: whether it gets there. -/
def firstUpdate : Operation → VolM Bool
  | createFile _ name => allocateFirst (validName (encodeUtf16 name))
  | mkdir _ name => allocateFirst (validName (encodeUtf16 name))
  | symlink _ name target =>
      allocateFirst (validName (encodeUtf16 name) && decide (target.toUTF8.toList.length < 128))
  | mknod _ name mode _ =>
      if !validName (encodeUtf16 name) then return false
      else if mode / 0x1000 % 0x10 ∉ specialTypes then return false
      else allocateFirst true
  | linkFile parentIno name targetIno => linkFirst parentIno (encodeUtf16 name) targetIno
  | rmdir parentIno name => removeFirst parentIno (encodeUtf16 name)
  | unlinkFile parentIno name => removeFirst parentIno (encodeUtf16 name)
  | rename oldParent oldName newParent newName =>
      renameFirst oldParent (encodeUtf16 oldName) newParent (encodeUtf16 newName)
  | _ => return true

/-- The call gets as far as its first `update_inode_page`. -/
def Updates (op : Operation) (v : Volume) : Prop :=
  ∃ w, op.firstUpdate v.begun = .ok true w

/-- `false` or an error. -/
def declined : EStateM.Result StorageError Volume Bool → Bool
  | .ok answer _ => !answer
  | .error _ _ => true

/-- The call returns an error or `false`. -/
def refused (v : Volume) : Operation → Bool
  | rename oldParent oldName newParent newName =>
      declined (Volume.rename oldParent oldName newParent newName v)
  | rmdir parentIno name => declined (Volume.rmdir parentIno name v)
  | unlinkFile parentIno name => declined (Volume.unlinkFile parentIno name v)
  | op => failed (op.run v)

theorem untouched_of_not_updates {op : Operation} (hnames : op.isNamespace = true) {v : Volume}
    (hnot : ¬ op.Updates v) : Untouched v (op.after v) := by
  have hfirst : ∀ w, op.firstUpdate v.begun ≠ .ok true w := fun w heq => hnot ⟨w, heq⟩
  unfold after
  cases op with
  | createFile parentIno name =>
      rw [run, final_forget]
      refine Spares.untouched (Spares.allocateInode fun hname child => ?_) hfirst
      exact ⟨_, if_pos (by rw [hname]; rfl)⟩
  | mkdir parentIno name =>
      rw [run, final_forget]
      refine Spares.untouched (Spares.allocateInode fun hname child => ?_) hfirst
      exact ⟨_, if_pos (by rw [hname]; rfl)⟩
  | mknod parentIno name mode rdev =>
      rw [run, final_forget]
      refine Spares.untouched (Spares.ite (Spares.abort _ _) (Spares.ite (Spares.abort _ _) ?_)) hfirst
      exact Spares.allocateInode fun hfalse => by cases hfalse
  | symlink parentIno name target =>
      rw [run, final_forget]
      refine Spares.untouched (Spares.allocateInode fun haccepted child => ?_) hfirst
      cases hname : validName (encodeUtf16 name) with
      | false => exact ⟨_, rfl⟩
      | true =>
          rw [hname, Bool.true_and, decide_eq_false_iff_not, Nat.not_lt] at haccepted
          exact ⟨_, if_pos haccepted⟩
  | linkFile parentIno name targetIno =>
      rw [run, final_forget]
      exact Spares.untouched (Spares.linkFileBody _ _ _) hfirst
  | rename oldParent oldName newParent newName =>
      rw [run, final_forget]
      exact Spares.untouched (Spares.renameBody _ _ _ _) hfirst
  | rmdir parentIno name =>
      rw [run, final_forget]
      exact Spares.untouched (Spares.removeDirEntry _ _ (Spares.abort _ _)) hfirst
  | unlinkFile parentIno name =>
      rw [run, final_forget]
      exact Spares.untouched (Spares.removeDirEntry _ _ (Spares.abort _ _)) hfirst
  | _ => cases hnames

end Operation

end JfsFuse
