import JfsFuse.Fuse.CopyRange

/-!
# The requests of the server

A request that changes something asks whether the server is writable, and passes a call on to the volume;
opening and releasing a file are passed on in any case.  Some requests look for words in the message of an
error to find the `errno` that they answer with.

So what a request does to the volume is what a run of at most two operations does.
-/

namespace JfsFuse

open Program

/-! ## Messages -/

/-- The message of an error; `system` is that of the operating system. -/
def StorageError.message (system : String) : StorageError → String
  | .io => "I/O error: " ++ system
  | .invalidSuperblock => "invalid superblock magic"
  | .journalNotReplayed => "journal not replayed (FM_DIRTY)"
  | .unsupportedBlockSize size => "unsupported block size: " ++ toString size
  | .pageNotFound => "page not found in cache"
  | .readOnly => "read-only storage: write rejected"
  | .blockOutOfRange block size =>
      "block number " ++ toString block ++ " exceeds volume size of " ++ toString size ++ " blocks"
  | .unexpectedEof requested actual =>
      "unexpected EOF reading " ++ toString requested ++ " bytes, got " ++ toString actual
  | .interrupted => "operation interrupted by FUSE_INTERRUPT"
  | .xattrNotFound => "xattr not found"
  | .xattrAlreadyExists => "xattr already exists"
  | .xattrNameTooLong => "xattr name too long"
  | .xattrValueTooLarge => "xattr value too large"
  | .xattrDataTooLarge => "xattr data too large for inline storage"
  | .alreadyExists => "directory entry already exists"
  | .invalidName => "invalid filename or name"
  | .noFreeInode => "no free inodes available"
  | .notADirectory => "not a directory"
  | .directoryNotEmpty => "directory not empty"
  | .notFound => "not found"
  | .invalidFileType => "invalid file type for operation"
  | .notSupported => "operation not supported"
  | .cannotLinkDir => "cannot hard-link a directory"
  | .other message => message
  | .panic => ""

/-- `str::contains`. -/
def containsText (part text : String) : Bool :=
  decide (part.toList <:+: text.toList)

/-- The `errno` of the first of the words that the message contains. -/
def errnoOfText (words : List (String × ℤ)) (text : String) : ℤ :=
  match words.find? fun word => containsText word.1 text with
  | some word => word.2
  | none => Errno.eio

/-- The words that `mkdir` looks for. -/
def mkdirWords : List (String × ℤ) :=
  [("already exists", Errno.eexist), ("invalid filename", Errno.einval), ("no free inode", Errno.enospc)]

def rmdirWords : List (String × ℤ) :=
  [("not a directory", Errno.enotdir), ("not empty", Errno.enotempty)]

def renameWords : List (String × ℤ) :=
  [("not a directory", Errno.enotdir), ("not empty", Errno.enotempty), ("already exists", Errno.eexist),
    ("file exists", Errno.eexist), ("directory entry already exists", Errno.eexist), ("no such file", Errno.enoent),
    ("not found", Errno.enoent), ("invalid", Errno.eperm), ("cannot", Errno.eperm)]

def fallocateWords : List (String × ℤ) :=
  [("not supported", Errno.eopnotsupp), ("no contiguous free blocks", Errno.enospc), ("no free", Errno.enospc)]

/-! ## Requests -/

namespace FuseFs

variable (system : String)

/-- A call of the volume; the words of its error decide on the `errno`. -/
def tellVolume {α : Type} (words : List (String × ℤ)) (x : VolM α) : FuseM α := fun fs =>
  match x fs.volume with
  | .ok a volume => .ok a { fs with volume }
  | .error e volume => .error (errnoOfText words (e.message system)) { fs with volume }

/-- A request without an `errno`: there is no answer if the server is not writable or the volume fails. -/
def optionally {α : Type} (x : VolM α) : FuseM (Option α) := do
  if (← get).writable then attempt x else return none

/-- `create`; the count of the new node is kept apart. -/
def create (parentIno : UInt32) (name : String) : FuseM (Option UInt32) :=
  optionally (Volume.createFile parentIno name)

def flush (ino : UInt32) : FuseM (Option Unit) :=
  optionally (Volume.fsync ino)

def truncate (ino : UInt32) (newSize : ℕ) : FuseM (Option Unit) :=
  optionally (Volume.truncate ino newSize)

/-- The modes that the server refuses itself: collapse, zero and insert range. -/
def refusedMode (mode : ℕ) : Bool :=
  mode / 8 % 8 ≠ 0

def fallocate (ino : UInt32) (offset len mode : ℕ) : FuseM Unit :=
  whenWritable do
    if refusedMode mode then throw Errno.eopnotsupp
    else tellVolume system fallocateWords (Volume.fallocate ino offset len mode)

/-- `unlink`; an error counts as a name that was not there. -/
def unlink (parentIno : UInt32) (name : String) : FuseM (Option Bool) := do
  if (← get).writable then return some ((← attempt (Volume.unlinkFile parentIno name)).getD false) else return none

def mkdir (parentIno : UInt32) (name : String) : FuseM UInt32 :=
  whenWritable (tellVolume system mkdirWords (Volume.mkdir parentIno name))

def rmdir (parentIno : UInt32) (name : String) : FuseM Unit :=
  whenWritable do
    let removed ← tellVolume system rmdirWords (Volume.rmdir parentIno name)
    if removed then return () else throw Errno.enoent

/-- `open`. -/
def openFile (ino : UInt32) : FuseM Unit :=
  onVolume Errno.enoent (Volume.openFile ino)

def release (ino : UInt32) : FuseM Unit :=
  onVolume Errno.eio (Volume.releaseFile ino)

/-- `setattr`.  A new size is set first, and nothing else if that fails. -/
def setattr (ino : UInt32) (change : Volume.AttrChange) (size : Option ℕ) : FuseM Unit :=
  whenWritable do
    match size with
    | none => onVolume Errno.eio (Volume.setattr ino change)
    | some newSize =>
        match ← truncate ino newSize with
        | none => throw Errno.eio
        | some () => onVolume Errno.eio (Volume.setattr ino change)

def rename (oldParent : UInt32) (oldName : String) (newParent : UInt32) (newName : String) : FuseM Unit :=
  whenWritable do
    let _ ← tellVolume system renameWords (Volume.rename oldParent oldName newParent newName)
    return ()

def symlink (parentIno : UInt32) (name target : String) : FuseM UInt32 :=
  whenWritable (callVolume (Volume.symlink parentIno name target))

def mknod (parentIno : UInt32) (name : String) (mode rdev : ℕ) : FuseM UInt32 :=
  whenWritable (callVolume (Volume.mknod parentIno name mode rdev))

def link (parentIno : UInt32) (name : String) (targetIno : UInt32) : FuseM Unit :=
  whenWritable do
    let _ ← callVolume (Volume.linkFile parentIno name targetIno)
    return ()

end FuseFs

/-- A request that may change the volume.  Copying a range is none of them: it reads in between. -/
inductive Request
  | create (parentIno : UInt32) (name : String)
  | write (ino : UInt32) (offset : ℕ) (data : List UInt8)
  | writeInterruptible (ino : UInt32) (offset : ℕ) (data : List UInt8) (token : List Bool)
  | flush (ino : UInt32)
  | truncate (ino : UInt32) (newSize : ℕ)
  | fallocate (ino : UInt32) (offset len mode : ℕ)
  | unlink (parentIno : UInt32) (name : String)
  | mkdir (parentIno : UInt32) (name : String)
  | rmdir (parentIno : UInt32) (name : String)
  | openFile (ino : UInt32)
  | release (ino : UInt32)
  | setattr (ino : UInt32) (change : Volume.AttrChange) (size : Option ℕ)
  | rename (oldParent : UInt32) (oldName : String) (newParent : UInt32) (newName : String)
  | setxattr (ino : UInt32) (name : String) (value : List UInt8) (flags : ℕ)
  | removexattr (ino : UInt32) (name : String)
  | symlink (parentIno : UInt32) (name target : String)
  | mknod (parentIno : UInt32) (name : String) (mode rdev : ℕ)
  | link (parentIno : UInt32) (name : String) (targetIno : UInt32)
  deriving DecidableEq, Repr

namespace Request

/-- The server after a request, whether it was granted or refused. -/
def after (system : String) (fs : FuseFs) : Request → FuseFs
  | create parentIno name => final (FuseFs.create parentIno name fs)
  | write ino offset data => final (FuseFs.write ino offset data fs)
  | writeInterruptible ino offset data token => final (FuseFs.writeInterruptible ino offset data token fs)
  | flush ino => final (FuseFs.flush ino fs)
  | truncate ino newSize => final (FuseFs.truncate ino newSize fs)
  | fallocate ino offset len mode => final (FuseFs.fallocate system ino offset len mode fs)
  | unlink parentIno name => final (FuseFs.unlink parentIno name fs)
  | mkdir parentIno name => final (FuseFs.mkdir system parentIno name fs)
  | rmdir parentIno name => final (FuseFs.rmdir system parentIno name fs)
  | openFile ino => final (FuseFs.openFile ino fs)
  | release ino => final (FuseFs.release ino fs)
  | setattr ino change size => final (FuseFs.setattr ino change size fs)
  | rename oldParent oldName newParent newName => final (FuseFs.rename system oldParent oldName newParent newName fs)
  | setxattr ino name value flags => final (FuseFs.setxattr ino name value flags fs)
  | removexattr ino name => final (FuseFs.removexattr ino name fs)
  | symlink parentIno name target => final (FuseFs.symlink parentIno name target fs)
  | mknod parentIno name mode rdev => final (FuseFs.mknod parentIno name mode rdev fs)
  | link parentIno name targetIno => final (FuseFs.link parentIno name targetIno fs)

/-- The operations that the server passes on when it is writable. -/
def operations (v : Volume) : Request → List Operation
  | create parentIno name => [.createFile parentIno name]
  -- `write_at` is `write_at_with_interrupt` without a token
  | write ino offset data => [.writeAtWithInterrupt ino offset data []]
  | writeInterruptible ino offset data token => [.writeAtWithInterrupt ino offset data token]
  | flush ino => [.fsync ino]
  | truncate ino newSize => [.truncate ino newSize]
  | fallocate ino offset len mode => if FuseFs.refusedMode mode then [] else [.fallocate ino offset len mode]
  | unlink parentIno name => [.unlinkFile parentIno name]
  | mkdir parentIno name => [.mkdir parentIno name]
  | rmdir parentIno name => [.rmdir parentIno name]
  | openFile ino => [.openFile ino]
  | release ino => [.releaseFile ino]
  | setattr ino change none => [.setattr ino change]
  | setattr ino change (some newSize) =>
      .truncate ino newSize :: if failed (Volume.truncate ino newSize v) then [] else [.setattr ino change]
  | rename oldParent oldName newParent newName => [.rename oldParent oldName newParent newName]
  | setxattr ino name value flags => [.setxattr ino (translateXattrName name) value flags]
  | removexattr ino name => [.removexattr ino (translateXattrName name)]
  | symlink parentIno name target => [.symlink parentIno name target]
  | mknod parentIno name mode rdev => [.mknod parentIno name mode rdev]
  | link parentIno name targetIno => [.linkFile parentIno name targetIno]

/-- The server grants the request although it is not writable. -/
def ungated : Request → Bool
  | openFile _ | release _ => true
  | _ => false

/-- The operations that the server passes on. -/
def passed (request : Request) (fs : FuseFs) : List Operation :=
  if fs.writable || request.ungated then request.operations fs.volume else []

end Request

/-! ## A request is a run of operations -/

namespace FuseFs

section PassesOn

variable {α β : Type} {fs : FuseFs} {x : VolM α} {op : Operation} {request : FuseM α} {reply : α → FuseM β}

/-- The request leaves the server with the volume that the operation leaves. -/
def PassesOn (request : FuseM α) (op : Operation) (fs : FuseFs) : Prop :=
  final (request fs) = { fs with volume := op.after fs.volume }

/-- The request runs a program of the volume, and leaves the rest of the server as it is. -/
def Runs (request : FuseM β) (x : VolM α) : Prop :=
  ∀ fs, final (request fs) = { fs with volume := final (x fs.volume) }

theorem runs_onVolume (errno : ℤ) (x : VolM α) : Runs (onVolume errno x) x := by
  intro fs
  unfold onVolume
  cases x fs.volume <;> rfl

theorem runs_callVolume (x : VolM α) : Runs (callVolume x) x := by
  intro fs
  unfold callVolume
  cases x fs.volume <;> rfl

theorem runs_tellVolume (system : String) (words : List (String × ℤ)) (x : VolM α) :
    Runs (tellVolume system words x) x := by
  intro fs
  unfold tellVolume
  cases x fs.volume <;> rfl

theorem runs_attempt (x : VolM α) : Runs (attempt x) x := by
  intro fs
  unfold attempt
  cases x fs.volume <;> rfl

theorem Runs.passesOn {program : FuseM β} (h : Runs program x) (hop : op.after fs.volume = final (x fs.volume)) :
    PassesOn program op fs := by
  unfold PassesOn
  rw [h, hop]

/-- What follows a call may only decide on the answer. -/
theorem PassesOn.replied (h : PassesOn request op fs) (hreply : ∀ a fs', final (reply a fs') = fs') :
    PassesOn (request >>= reply) op fs := by
  unfold PassesOn at h ⊢
  rw [← h]
  cases hrun : request fs with
  | ok a fs' => rw [bind_ok hrun, hreply, final_ok]
  | error e fs' => rw [bind_error hrun, final_error, final_error]

theorem passesOn_whenWritable (hwritable : fs.writable = true) (h : PassesOn request op fs) :
    PassesOn (whenWritable request) op fs := by
  unfold PassesOn
  rw [whenWritable_apply hwritable]
  exact h

theorem passesOn_optionally (hwritable : fs.writable = true) (hop : op.after fs.volume = final (x fs.volume)) :
    PassesOn (optionally x) op fs := by
  unfold PassesOn optionally
  rw [bind_ok (get_apply fs), if_pos hwritable]
  exact Runs.passesOn (runs_attempt _) hop

theorem whenWritable_refused (h : fs.writable = false) (request : FuseM α) :
    whenWritable request fs = .error Errno.erofs fs := by
  unfold whenWritable
  rw [bind_ok (get_apply fs), if_neg (by simp [h])]
  rfl

theorem optionally_refused (h : fs.writable = false) (x : VolM α) : optionally x fs = .ok none fs := by
  unfold optionally
  rw [bind_ok (get_apply fs), if_neg (by simp [h])]
  rfl

end PassesOn

end FuseFs

namespace Request

open FuseFs

variable {fs : FuseFs} {system : String}

theorem after_write (h : fs.writable = true) (ino : UInt32) (offset : ℕ) (data : List UInt8) :
    PassesOn (FuseFs.write ino offset data) (.writeAtWithInterrupt ino offset data []) fs := by
  have hop : (Operation.writeAtWithInterrupt ino offset data []).after fs.volume =
      final (Volume.writeAt ino offset data fs.volume) := Operation.final_forget _ _
  unfold PassesOn FuseFs.write
  rw [hop, if_pos h]
  cases Volume.writeAt ino offset data fs.volume <;> rfl

theorem after_unlink (h : fs.writable = true) (parentIno : UInt32) (name : String) :
    PassesOn (FuseFs.unlink parentIno name) (.unlinkFile parentIno name) fs := by
  have hcall : PassesOn (attempt (Volume.unlinkFile parentIno name)) (.unlinkFile parentIno name) fs :=
    Runs.passesOn (runs_attempt _) (Operation.final_forget _ _)
  have hreplied := @PassesOn.replied _ _ _ _ _ (fun removed => pure (some (removed.getD false))) hcall fun _ _ => rfl
  unfold PassesOn FuseFs.unlink
  rw [bind_ok (get_apply fs), if_pos h]
  exact hreplied

theorem after_fallocate (h : fs.writable = true) (ino : UInt32) (offset len mode : ℕ) :
    final (FuseFs.fallocate system ino offset len mode fs) =
      { fs with volume := Operation.afterAll (operations fs.volume (.fallocate ino offset len mode)) fs.volume } := by
  unfold FuseFs.fallocate
  rw [whenWritable_apply h]
  by_cases hmode : refusedMode mode = true
  · have hnone : operations fs.volume (.fallocate ino offset len mode) = [] := if_pos hmode
    rw [hnone, if_pos hmode]
    rfl
  · have hcall : PassesOn (tellVolume system fallocateWords (Volume.fallocate ino offset len mode))
        (.fallocate ino offset len mode) fs := Runs.passesOn (runs_tellVolume system fallocateWords _) rfl
    have hone : operations fs.volume (.fallocate ino offset len mode) = [.fallocate ino offset len mode] :=
      if_neg hmode
    rw [hone, if_neg hmode]
    exact hcall

/-- A new size is a truncation, and what else there is to change comes after it. -/
theorem after_setattr (h : fs.writable = true) (ino : UInt32) (change : Volume.AttrChange) (newSize : ℕ) :
    final (FuseFs.setattr ino change (some newSize) fs) =
      { fs with volume := Operation.afterAll (operations fs.volume (.setattr ino change (some newSize))) fs.volume } := by
  unfold FuseFs.setattr
  rw [whenWritable_apply h]
  dsimp only
  have htruncate : FuseFs.truncate ino newSize fs = attempt (Volume.truncate ino newSize) fs := by
    unfold FuseFs.truncate optionally
    rw [bind_ok (get_apply fs), if_pos h]
  have hfinal : (Operation.truncate ino newSize).after fs.volume = final (Volume.truncate ino newSize fs.volume) := rfl
  unfold attempt at htruncate
  cases hrun : Volume.truncate ino newSize fs.volume with
  | ok u volume =>
      simp only [hrun] at htruncate
      rw [hrun, final_ok] at hfinal
      have hsecond : PassesOn (onVolume Errno.eio (Volume.setattr ino change)) (.setattr ino change)
          { fs with volume } := Runs.passesOn (runs_onVolume Errno.eio _) rfl
      have hops : operations fs.volume (.setattr ino change (some newSize)) =
          [.truncate ino newSize, .setattr ino change] := by
        simp only [operations, hrun, failed_ok, Bool.false_eq_true, if_false]
      rw [hops, bind_ok htruncate, Operation.afterAll, List.foldl_cons, hfinal]
      exact hsecond
  | error e volume =>
      -- the rest of the change is not tried
      simp only [hrun] at htruncate
      rw [hrun, final_error] at hfinal
      have hops : operations fs.volume (.setattr ino change (some newSize)) = [.truncate ino newSize] := by
        simp only [operations, hrun, failed_error, if_true]
      rw [hops, bind_ok htruncate, Operation.afterAll, List.foldl_cons, hfinal]
      rfl

theorem after_of_ungated {request : Request} (hungated : request.ungated = true) :
    request.after system fs = { fs with volume := Operation.afterAll (request.operations fs.volume) fs.volume } := by
  cases request with
  | openFile ino =>
      show PassesOn (FuseFs.openFile ino) (.openFile ino) fs
      exact Runs.passesOn (runs_onVolume Errno.enoent _) rfl
  | release ino =>
      show PassesOn (FuseFs.release ino) (.releaseFile ino) fs
      exact Runs.passesOn (runs_onVolume Errno.eio _) rfl
  | _ => cases hungated

theorem after_of_writable (h : fs.writable = true) (request : Request) :
    request.after system fs = { fs with volume := Operation.afterAll (request.operations fs.volume) fs.volume } := by
  cases request with
  | create parentIno name =>
      show PassesOn (FuseFs.create parentIno name) (.createFile parentIno name) fs
      exact passesOn_optionally h (Operation.final_forget _ _)
  | write ino offset data => exact after_write h ino offset data
  | writeInterruptible ino offset data token =>
      show PassesOn (FuseFs.writeInterruptible ino offset data token) (.writeAtWithInterrupt ino offset data token) fs
      exact passesOn_whenWritable h (Runs.passesOn (runs_onVolume Errno.eintr _) (Operation.final_forget _ _))
  | flush ino =>
      show PassesOn (FuseFs.flush ino) (.fsync ino) fs
      exact passesOn_optionally h rfl
  | truncate ino newSize =>
      show PassesOn (FuseFs.truncate ino newSize) (.truncate ino newSize) fs
      exact passesOn_optionally h rfl
  | fallocate ino offset len mode => exact after_fallocate h ino offset len mode
  | unlink parentIno name => exact after_unlink h parentIno name
  | mkdir parentIno name =>
      show PassesOn (FuseFs.mkdir system parentIno name) (.mkdir parentIno name) fs
      exact passesOn_whenWritable h (Runs.passesOn (runs_tellVolume system mkdirWords _) (Operation.final_forget _ _))
  | rmdir parentIno name =>
      show PassesOn (FuseFs.rmdir system parentIno name) (.rmdir parentIno name) fs
      refine passesOn_whenWritable h (PassesOn.replied
        (Runs.passesOn (runs_tellVolume system rmdirWords _) (Operation.final_forget _ _)) fun removed _ => ?_)
      cases removed <;> rfl
  | openFile ino => exact after_of_ungated rfl
  | release ino => exact after_of_ungated rfl
  | setattr ino change size =>
      cases size with
      | none =>
          show PassesOn (FuseFs.setattr ino change none) (.setattr ino change) fs
          exact passesOn_whenWritable h (Runs.passesOn (runs_onVolume Errno.eio _) rfl)
      | some newSize => exact after_setattr h ino change newSize
  | rename oldParent oldName newParent newName =>
      show PassesOn (FuseFs.rename system oldParent oldName newParent newName)
        (.rename oldParent oldName newParent newName) fs
      exact passesOn_whenWritable h (PassesOn.replied
        (Runs.passesOn (runs_tellVolume system renameWords _) (Operation.final_forget _ _)) fun _ _ => rfl)
  | setxattr ino name value flags =>
      show PassesOn (FuseFs.setxattr ino name value flags) (.setxattr ino (translateXattrName name) value flags) fs
      exact passesOn_whenWritable h (Runs.passesOn (runs_callVolume _) rfl)
  | removexattr ino name =>
      show PassesOn (FuseFs.removexattr ino name) (.removexattr ino (translateXattrName name)) fs
      refine passesOn_whenWritable h
        (PassesOn.replied (Runs.passesOn (runs_callVolume _) (Operation.final_forget _ _)) fun found _ => ?_)
      cases found <;> rfl
  | symlink parentIno name target =>
      show PassesOn (FuseFs.symlink parentIno name target) (.symlink parentIno name target) fs
      exact passesOn_whenWritable h (Runs.passesOn (runs_callVolume _) (Operation.final_forget _ _))
  | mknod parentIno name mode rdev =>
      show PassesOn (FuseFs.mknod parentIno name mode rdev) (.mknod parentIno name mode rdev) fs
      exact passesOn_whenWritable h (Runs.passesOn (runs_callVolume _) (Operation.final_forget _ _))
  | link parentIno name targetIno =>
      show PassesOn (FuseFs.link parentIno name targetIno) (.linkFile parentIno name targetIno) fs
      exact passesOn_whenWritable h
        (PassesOn.replied (Runs.passesOn (runs_callVolume _) (Operation.final_forget _ _)) fun _ _ => rfl)

/-- A request that is refused changes nothing. -/
theorem after_of_refused (h : fs.writable = false) {request : Request} (hgated : request.ungated = false) :
    request.after system fs = fs := by
  cases request with
  | openFile ino => cases hgated
  | release ino => cases hgated
  | create parentIno name => exact congrArg final (optionally_refused h (Volume.createFile parentIno name))
  | flush ino => exact congrArg final (optionally_refused h (Volume.fsync ino))
  | truncate ino newSize => exact congrArg final (optionally_refused h (Volume.truncate ino newSize))
  | write ino offset data =>
      show final (FuseFs.write ino offset data fs) = fs
      unfold FuseFs.write
      rw [if_neg (by simp [h]), final_ok]
  | unlink parentIno name =>
      show final (FuseFs.unlink parentIno name fs) = fs
      unfold FuseFs.unlink
      rw [bind_ok (get_apply fs), if_neg (by simp [h])]
      rfl
  | _ => exact congrArg final (whenWritable_refused h _)

/-- **A request** passes on its operations, and changes nothing else of the server. -/
theorem after_eq (request : Request) (system : String) (fs : FuseFs) :
    request.after system fs = { fs with volume := Operation.afterAll (request.passed fs) fs.volume } := by
  unfold passed
  split
  · next hpassed =>
      rcases (Bool.or_eq_true_iff ..).mp hpassed with hwritable | hungated
      · exact after_of_writable hwritable request
      · exact after_of_ungated hungated
  · next hrefused =>
      obtain ⟨hclosed, hgated⟩ := Bool.or_eq_false_iff.mp (Bool.eq_false_iff.mpr hrefused)
      exact after_of_refused hclosed hgated

end Request

end JfsFuse
