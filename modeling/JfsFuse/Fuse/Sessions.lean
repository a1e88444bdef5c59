import JfsFuse.Consistency
import JfsFuse.Fuse.Bmap
import JfsFuse.Fuse.LockQueries
import JfsFuse.Fuse.Lookup
import JfsFuse.Fuse.Requests
import JfsFuse.Fuse.Seek

/-!
# Sessions of the server

A request that reads, or that is about locks, leaves the volume as it is but for the decisions of the device and
the counts of open handles (`KeepsVolume`); any other request passes its operations on to the volume.  So in a
session the bytes of a file are those that the writes of the session have stored, whatever is requested in between.

A server that is not writable refuses what would change the volume.  Opening a file is counted all the same, and
releasing one is passed on: it begins and commits a transaction.  Until then nothing of the volume changes but the
counts of its open handles.
-/

namespace JfsFuse

open Program

/-! ## Interrupted reads -/

theorem StorageM.later_checkToken (token : List Bool) : Within Storage.Later (StorageM.checkToken token) := by
  unfold StorageM.checkToken
  split
  · exact Within.throw _
  · exact Within.pure _

namespace Xtree

theorem later_readRunChecked (block count : ℕ) (state : ReadState × List Bool) :
    Within Storage.Later (readRunChecked block count state) := by
  induction count generalizing block state with
  | zero => exact Within.pure _
  | succ count ih =>
      obtain ⟨s, token⟩ := state
      unfold readRunChecked
      refine Within.ite (Within.pure _) (Within.bind (StorageM.later_checkToken token) fun token => ?_)
      refine Within.bind (fun s => ?_) fun data => Within.bind (Within.returnExcept _) fun bytes => ih _ _
      exact StorageM.final_readBytes (block * blockSize) blockSize s

theorem later_readPartsChecked (parts : List (ℕ × ℕ)) (state : ReadState × List Bool) :
    Within Storage.Later (readPartsChecked parts state) := by
  induction parts generalizing state with
  | nil => exact Within.pure _
  | cons part rest ih =>
      obtain ⟨blockAddr, blockCount⟩ := part
      obtain ⟨s, token⟩ := state
      unfold readPartsChecked
      refine Within.ite (Within.ite (Within.pure _) (ih _)) ?_
      exact Within.bind (later_readRunChecked _ _ _) fun state => ih state

theorem later_readDataChecked (xt : Xtree) (offset length : ℕ) (token : List Bool) :
    Within Storage.Later (xt.readDataChecked offset length token) :=
  Within.bind (later_readPartsChecked _ _) fun _ => Within.pure _

end Xtree

/-! ## What opening and reading changes -/

namespace Volume

/-- Only the counts of open handles are new; the device has decided about the reads in between. -/
def HandlesOnly (v v' : Volume) : Prop :=
  ∃ faults openHandles, v' = { v.withFaults faults with openHandles }

instance : IsPreorder Volume HandlesOnly where
  refl v := ⟨v.storage.faults, v.openHandles, rfl⟩
  trans := by
    rintro v _ _ ⟨_, _, rfl⟩ ⟨faults, openHandles, rfl⟩
    exact ⟨faults, openHandles, rfl⟩

theorem handlesOnly_readInode (ino : UInt32) : Within HandlesOnly (readInode ino) := by
  intro v
  obtain ⟨used, ⟨-, hread⟩, -⟩ := Reading.readInode ino v
  exact ⟨(final (readInode ino v)).storage.faults, v.openHandles, hread⟩

theorem handlesOnly_openFile (ino : UInt32) : Within HandlesOnly (openFile ino) :=
  Within.bind (handlesOnly_readInode ino) fun _ v => ⟨v.storage.faults, _, rfl⟩

theorem handlesOnly_onStorage {α : Type} {x : StorageM α} (h : Within Storage.Later x) :
    Within HandlesOnly (onStorage x) := by
  intro v
  obtain ⟨faults, hfinal⟩ := h v.storage
  unfold onStorage
  rw [final_zoom, hfinal]
  exact ⟨faults, v.openHandles, rfl⟩

theorem handlesOnly_readFile (ino : UInt32) (offset length : ℕ) :
    Within HandlesOnly (FuseFs.readFile ino offset length) := by
  refine Within.bind (handlesOnly_readInode ino) fun inode => Within.ite (Within.pure _) ?_
  exact Within.bind (Within.returnExcept _) fun xtree => handlesOnly_onStorage (xtree.later_readData _ _)

end Volume

/-! ## Requests that read -/

namespace FuseFs

/-- Only the counts of open handles of the volume change, and what is not of the volume. -/
def KeepsVolume (fs fs' : FuseFs) : Prop :=
  fs'.writable = fs.writable ∧ fs.volume.HandlesOnly fs'.volume

instance : IsPreorder FuseFs KeepsVolume where
  refl fs := ⟨rfl, refl_of Volume.HandlesOnly fs.volume⟩
  trans _ _ _ h h' := ⟨h'.1.trans h.1, trans_of Volume.HandlesOnly h.2 h'.2⟩

section Steps

variable {α β : Type}

theorem Runs.keepsVolume {request : FuseM β} {x : VolM α} (hruns : Runs request x)
    (h : Within Volume.HandlesOnly x) : Within KeepsVolume request := by
  intro fs
  rw [hruns fs]
  exact ⟨rfl, h fs.volume⟩

theorem keepsVolume_onVolume {x : VolM α} (h : Within Volume.HandlesOnly x) (errno : ℤ) :
    Within KeepsVolume (onVolume errno x) :=
  (runs_onVolume errno x).keepsVolume h

theorem keepsVolume_whenWritable {request : FuseM α} (h : Within KeepsVolume request) :
    Within KeepsVolume (whenWritable request) :=
  Within.bind Within.get fun _ => Within.ite h (Within.throw _)

theorem keepsVolume_modify {f : FuseFs → FuseFs} (hvolume : ∀ fs, (f fs).volume = fs.volume)
    (hwritable : ∀ fs, (f fs).writable = fs.writable) : Within KeepsVolume (modify f : FuseM Unit) := by
  intro fs
  rw [modify_apply, final_ok]
  refine ⟨hwritable fs, ?_⟩
  rw [hvolume]
  exact refl_of Volume.HandlesOnly fs.volume

end Steps

section Reads

theorem keepsVolume_readInode? (ino : UInt32) : Within KeepsVolume (readInode? ino) := by
  refine Within.tryCatch ?_ fun _ => Within.pure _
  exact Within.bind (keepsVolume_onVolume (Volume.handlesOnly_readInode ino) _) fun _ => Within.pure _

theorem keepsVolume_lookup (parentIno : UInt32) (name : String) : Within KeepsVolume (lookup parentIno name) := by
  unfold lookup
  refine Within.ite (Within.pure _) (Within.bind (keepsVolume_readInode? parentIno) fun found => ?_)
  cases found with
  | none => exact Within.pure _
  | some parent =>
      refine Within.ite (Within.pure _) (Within.ite (Within.ite (Within.pure _) (Within.pure _)) ?_)
      split
      · exact Within.throw _
      · exact Within.pure _
      · exact Within.pure _

theorem keepsVolume_inferFileType (ino : UInt32) : Within KeepsVolume (inferFileType ino) := by
  refine Within.tryCatch ?_ fun _ => Within.pure _
  refine Within.bind (keepsVolume_onVolume (Volume.handlesOnly_readInode ino) _) fun inode => ?_
  exact Within.ite (Within.pure _) (Within.ite (Within.pure _) (Within.ite (Within.pure _) (Within.pure _)))

theorem keepsVolume_offerEntries (startIdx i : ℕ) (token : List Bool) (entries : List DirEntry) :
    Within KeepsVolume (offerEntries startIdx i token entries) := by
  induction entries generalizing i token with
  | nil => exact Within.pure _
  | cons entry rest ih =>
      unfold offerEntries
      refine Within.ite (ih _ _) (Within.ite (Within.throw _) ?_)
      refine Within.bind (keepsVolume_inferFileType _) fun kind => ?_
      exact Within.bind (ih _ _) fun others => Within.pure _

theorem keepsVolume_readdirInterruptible (ino : UInt32) (offset : ℕ) (token : List Bool) :
    Within KeepsVolume (readdirInterruptible ino offset token) := by
  refine Within.bind (keepsVolume_onVolume (Volume.handlesOnly_readInode ino) _) fun inode => ?_
  refine Within.ite (Within.throw _) ?_
  split
  · exact Within.throw _
  · exact Within.pure _
  · exact Within.bind (keepsVolume_offerEntries _ _ _ _) fun offered => Within.pure _

theorem runs_read (ino : UInt32) (offset length : ℕ) : Runs (read ino offset length) (readFile ino offset length) := by
  intro fs
  unfold read
  cases readFile ino offset length fs.volume <;> rfl

theorem keepsVolume_readInterruptible (ino : UInt32) (offset length : ℕ) (token : List Bool) :
    Within KeepsVolume (readInterruptible ino offset length token) := by
  refine Within.bind (keepsVolume_onVolume (Volume.handlesOnly_readInode ino) _) fun inode => ?_
  refine Within.ite (Within.pure _) ?_
  refine Within.bind (keepsVolume_onVolume (Within.returnExcept _) _) fun xtree => ?_
  exact keepsVolume_onVolume (Volume.handlesOnly_onStorage (xtree.later_readDataChecked _ _ _)) _

theorem keepsVolume_lseekDataOrHole (ino : UInt32) (offset : ℕ) (seekType : ℤ) :
    Within KeepsVolume (lseekDataOrHole ino offset seekType) := by
  refine Within.bind (keepsVolume_readInode? ino) fun found => ?_
  cases found with
  | none => exact Within.pure _
  | some inode =>
      refine Within.ite (Within.pure _) (Within.ite ?_ (Within.ite ?_ (Within.pure _)))
      all_goals split <;> exact Within.pure _

theorem keepsVolume_bmap (ino : UInt32) (fileBlock : ℕ) : Within KeepsVolume (bmap ino fileBlock) := by
  refine Within.bind (keepsVolume_onVolume (Volume.handlesOnly_readInode ino) _) fun inode => ?_
  refine Within.bind (keepsVolume_onVolume (Within.returnExcept _) _) fun xtree => ?_
  split <;> exact Within.pure _

theorem keepsVolume_getxattr (ino : UInt32) (name : String) : Within KeepsVolume (getxattr ino name) :=
  keepsVolume_whenWritable ((runs_callVolume _).keepsVolume
    (Within.bind (Volume.handlesOnly_readInode ino) fun _ => Within.pure _))

theorem keepsVolume_listxattr (ino : UInt32) : Within KeepsVolume (listxattr ino) :=
  keepsVolume_whenWritable (Within.bind ((runs_callVolume _).keepsVolume
    (Within.bind (Volume.handlesOnly_readInode ino) fun _ => Within.pure _)) fun _ => Within.pure _)

theorem keepsVolume_getlk (ino : UInt32) (lock : Flock) (owner : UInt64) :
    Within KeepsVolume (getlk ino lock owner) := by
  refine Within.bind Within.get fun fs => Within.ite (Within.throw _) (Within.ite (Within.throw _) ?_)
  refine Within.bind (keepsVolume_onVolume (Volume.handlesOnly_readInode ino) _) fun inode => ?_
  refine Within.bind Within.get fun fs => ?_
  split <;> exact Within.pure _

theorem keepsVolume_setlk (ino : UInt32) (lock : Flock) (owner : UInt64) :
    Within KeepsVolume (setlk ino lock owner) := by
  refine Within.bind Within.get fun fs => Within.ite (Within.throw _) (Within.ite (Within.throw _) ?_)
  refine Within.bind (keepsVolume_onVolume (Volume.handlesOnly_readInode ino) _) fun inode => ?_
  refine Within.ite (keepsVolume_modify (fun _ => rfl) fun _ => rfl) (Within.bind Within.get fun fs => ?_)
  split
  · exact Within.throw _
  · exact keepsVolume_modify (fun _ => rfl) fun _ => rfl

theorem keepsVolume_flock (ino operation : UInt32) (owner : UInt64) :
    Within KeepsVolume (flock ino operation owner) := by
  refine Within.bind Within.get fun fs => Within.ite (Within.throw _) (Within.ite ?_ (Within.ite (Within.throw _) ?_))
  · exact keepsVolume_modify (fun _ => rfl) fun _ => rfl
  · exact Within.bind Within.get fun fs => Within.ite (Within.throw _) (keepsVolume_modify (fun _ => rfl) fun _ => rfl)

end Reads

end FuseFs

/-! ## Sessions -/

/-- Any request of the kernel. -/
inductive ServerCall
  | change (request : Request) (system : String)
  | copyFileRange (srcIno : UInt32) (srcOffset : ℕ) (dstIno : UInt32) (dstOffset len flags : ℕ)
  | lookup (parentIno : UInt32) (name : String)
  | readdir (ino : UInt32) (offset : ℕ) (token : List Bool)
  | read (ino : UInt32) (offset length : ℕ)
  | readInterruptible (ino : UInt32) (offset length : ℕ) (token : List Bool)
  | lseek (ino : UInt32) (offset : ℕ) (seekType : ℤ)
  | bmap (ino : UInt32) (fileBlock : ℕ)
  | getxattr (ino : UInt32) (name : String)
  | listxattr (ino : UInt32)
  | getlk (ino : UInt32) (lock : Flock) (owner : UInt64)
  | setlk (ino : UInt32) (lock : Flock) (owner : UInt64)
  | flock (ino operation : UInt32) (owner : UInt64)
  | releaseLocks (ino : UInt32) (owner : UInt64)

namespace ServerCall

open FuseFs

/-- The server after a request, whether it was granted or refused. -/
def after (fs : FuseFs) : ServerCall → FuseFs
  | change request system => request.after system fs
  | copyFileRange srcIno srcOffset dstIno dstOffset len flags =>
      final (FuseFs.copyFileRange srcIno srcOffset dstIno dstOffset len flags fs)
  | lookup parentIno name => final (FuseFs.lookup parentIno name fs)
  | readdir ino offset token => final (FuseFs.readdirInterruptible ino offset token fs)
  | read ino offset length => final (FuseFs.read ino offset length fs)
  | readInterruptible ino offset length token => final (FuseFs.readInterruptible ino offset length token fs)
  | lseek ino offset seekType => final (FuseFs.lseekDataOrHole ino offset seekType fs)
  | bmap ino fileBlock => final (FuseFs.bmap ino fileBlock fs)
  | getxattr ino name => final (FuseFs.getxattr ino name fs)
  | listxattr ino => final (FuseFs.listxattr ino fs)
  | getlk ino lock owner => final (FuseFs.getlk ino lock owner fs)
  | setlk ino lock owner => final (FuseFs.setlk ino lock owner fs)
  | flock ino operation owner => final (FuseFs.flock ino operation owner fs)
  | releaseLocks ino owner => final (FuseFs.releaseLocks ino owner fs)

/-- The server after a session. -/
def serve (calls : List ServerCall) (fs : FuseFs) : FuseFs :=
  calls.foldl after fs

/-- The operations that the server passes on. -/
def passed (call : ServerCall) (fs : FuseFs) : List Operation :=
  match call with
  | change request _ => request.passed fs
  | _ => []

/-- A range is copied, which reads and writes by turns. -/
def Copies : ServerCall → Prop
  | copyFileRange .. => True
  | _ => False

/-- A file is released. -/
def Releases : ServerCall → Prop
  | change (.release _) _ => True
  | _ => False

/-- **A request** is a run of operations, or keeps the volume. -/
theorem after_cases (call : ServerCall) (hcopies : ¬ call.Copies) (fs : FuseFs) :
    (∃ request system, call = change request system) ∨ call.passed fs = [] ∧ KeepsVolume fs (call.after fs) := by
  cases call with
  | change request system => exact .inl ⟨request, system, rfl⟩
  | copyFileRange => exact absurd trivial hcopies
  | lookup parentIno name => exact .inr ⟨rfl, keepsVolume_lookup parentIno name fs⟩
  | readdir ino offset token => exact .inr ⟨rfl, keepsVolume_readdirInterruptible ino offset token fs⟩
  | read ino offset length =>
      have hvolume := Volume.handlesOnly_readFile ino offset length
      exact .inr ⟨rfl, (runs_read ino offset length).keepsVolume hvolume fs⟩
  | readInterruptible ino offset length token =>
      exact .inr ⟨rfl, keepsVolume_readInterruptible ino offset length token fs⟩
  | lseek ino offset seekType => exact .inr ⟨rfl, keepsVolume_lseekDataOrHole ino offset seekType fs⟩
  | bmap ino fileBlock => exact .inr ⟨rfl, keepsVolume_bmap ino fileBlock fs⟩
  | getxattr ino name => exact .inr ⟨rfl, keepsVolume_getxattr ino name fs⟩
  | listxattr ino => exact .inr ⟨rfl, keepsVolume_listxattr ino fs⟩
  | getlk ino lock owner => exact .inr ⟨rfl, keepsVolume_getlk ino lock owner fs⟩
  | setlk ino lock owner => exact .inr ⟨rfl, keepsVolume_setlk ino lock owner fs⟩
  | flock ino operation owner => exact .inr ⟨rfl, keepsVolume_flock ino operation owner fs⟩
  | releaseLocks ino owner => exact .inr ⟨rfl, keepsVolume_modify (fun _ => rfl) (fun _ => rfl) fs⟩

/-! ## What a session stores -/

/-- Every operation that is passed on in the session is beside the file, or writes to it below its size. -/
def AllAround (keep : ℕ → Prop) (ino : UInt32) (size : ℕ) : List ServerCall → FuseFs → Prop
  | [], _ => True
  | call :: rest, fs => ¬ call.Copies ∧ Operation.AllAround keep ino size (call.passed fs) fs.volume ∧
      AllAround keep ino size rest (call.after fs)

/-- What a session makes of the bytes of a file: what its operations make of them, one request after the other. -/
inductive Stores (keep : ℕ → Prop) (ino : UInt32) : List ServerCall → FuseFs → (ℕ → UInt8) → (ℕ → UInt8) → Prop
  | nil (fs : FuseFs) (M : ℕ → UInt8) : Stores keep ino [] fs M M
  | cons {call : ServerCall} {rest : List ServerCall} {fs : FuseFs} {M M₁ M' : ℕ → UInt8}
      (hcall : Operation.Stores keep ino (call.passed fs) fs.volume M M₁)
      (hrest : Stores keep ino rest (call.after fs) M₁ M') : Stores keep ino (call :: rest) fs M M'

section Stores

variable {lo hi : ℕ} {ino : UInt32} {b j : ℕ} {d : List UInt8} {xtree : Xtree} {M : ℕ → UInt8} {fs : FuseFs}

theorem keptFile_afterAll {v : Volume} (hfile : v.KeptFile ino b j d) (ops : List Operation) :
    (Operation.afterAll ops v).KeptFile ino b j d := by
  induction ops generalizing v with
  | nil => exact hfile
  | cons op rest ih => exact ih (hfile.after op)

/-- **A request** stores what its operations store. -/
theorem holdsFile_after (h : fs.volume.HoldsFile xtree ino b j d lo hi M) (hfile : fs.volume.KeptFile ino b j d)
    (hxtree : Xtree.fromInodeData (Dinode.root d) = .ok xtree) (hsolid : xtree.Solid (Dinode.size d))
    {call : ServerCall} (hcopies : ¬ call.Copies)
    (hops : Operation.AllAround (fun a => a ∈ xtree.blocks ∨ Volume.InTable lo hi a) ino (Dinode.size d)
      (call.passed fs) fs.volume) :
    ∃ M₁, Operation.Stores (fun a => a ∈ xtree.blocks ∨ Volume.InTable lo hi a) ino (call.passed fs) fs.volume M M₁ ∧
      (call.after fs).volume.HoldsFile xtree ino b j d lo hi M₁ ∧ (call.after fs).volume.KeptFile ino b j d := by
  rcases call.after_cases hcopies fs with ⟨request, system, rfl⟩ | ⟨hnone, -, faults, openHandles, hvolume⟩
  · -- the request ran operations of the volume, in whatever way they ended
    obtain ⟨M₁, hstores, hend⟩ := h.afterAll hfile hxtree hsolid hops
    have hafter : (change request system).after fs =
        { fs with volume := Operation.afterAll (request.passed fs) fs.volume } := request.after_eq system fs
    rw [hafter]
    exact ⟨M₁, hstores, hend, keptFile_afterAll hfile _⟩
  · -- no block of the device and no page is another one, so the bytes are the same
    rw [hnone, hvolume]
    refine ⟨M, .nil _ M, h.of_leavesAlone fun content => ?_, hfile.key, hfile.used, hfile.file, hfile.slot, hfile.low,
      hfile.number⟩
    exact Volume.leavesAlone_of_eq rfl rfl rfl rfl rfl rfl

/-- **A session** stores what its requests store. -/
theorem holdsFile_serve (h : fs.volume.HoldsFile xtree ino b j d lo hi M) (hfile : fs.volume.KeptFile ino b j d)
    (hxtree : Xtree.fromInodeData (Dinode.root d) = .ok xtree) (hsolid : xtree.Solid (Dinode.size d))
    {calls : List ServerCall}
    (hcalls : AllAround (fun a => a ∈ xtree.blocks ∨ Volume.InTable lo hi a) ino (Dinode.size d) calls fs) :
    ∃ M', Stores (fun a => a ∈ xtree.blocks ∨ Volume.InTable lo hi a) ino calls fs M M' ∧
      (serve calls fs).volume.HoldsFile xtree ino b j d lo hi M' := by
  induction calls generalizing fs M with
  | nil => exact ⟨M, .nil fs M, h⟩
  | cons call rest ih =>
      obtain ⟨hcopies, hops, hrest⟩ := hcalls
      obtain ⟨M₁, hstores, hafter, hfile'⟩ := holdsFile_after h hfile hxtree hsolid hcopies hops
      obtain ⟨M', hall, hend⟩ := ih hafter hfile' hrest
      exact ⟨M', .cons hstores hall, hend⟩

end Stores

/-! ## A server that is not writable -/

theorem keepsVolume_passed {request : Request} (hrelease : ∀ ino, request ≠ .release ino) {fs : FuseFs}
    (hclosed : fs.writable = false) (system : String) : KeepsVolume fs (request.after system fs) := by
  rw [request.after_eq system fs]
  refine ⟨rfl, ?_⟩
  show fs.volume.HandlesOnly (Operation.afterAll (request.passed fs) fs.volume)
  unfold Request.passed
  rw [hclosed, Bool.false_or]
  cases request with
  | openFile ino => exact Volume.handlesOnly_openFile ino fs.volume
  | release ino => exact absurd rfl (hrelease ino)
  | _ => exact refl_of Volume.HandlesOnly fs.volume

/-- **A request** to a server that is not writable. -/
theorem keepsVolume_after {call : ServerCall} (hrelease : ¬ call.Releases) {fs : FuseFs}
    (hclosed : fs.writable = false) : KeepsVolume fs (call.after fs) := by
  by_cases hcopies : call.Copies
  · cases call with
    | copyFileRange srcIno srcOffset dstIno dstOffset len flags =>
        -- a copy is refused before it reads
        have hrefused : FuseFs.copyFileRange srcIno srcOffset dstIno dstOffset len flags fs = .error Errno.erofs fs :=
          whenWritable_refused hclosed _
        show KeepsVolume fs (final (FuseFs.copyFileRange srcIno srcOffset dstIno dstOffset len flags fs))
        rw [hrefused]
        exact refl_of KeepsVolume fs
    | _ => cases hcopies
  · rcases call.after_cases hcopies fs with ⟨request, system, rfl⟩ | ⟨-, hkeeps⟩
    · refine keepsVolume_passed (fun ino heq => ?_) hclosed system
      rw [heq] at hrelease
      exact hrelease trivial
    · exact hkeeps

/-- **A read-only session** counts the handles of the files that it opens, and changes nothing else of the volume
until a file is released. -/
theorem serve_readOnly {fs : FuseFs} (hwritable : fs.writable = false) {calls : List ServerCall}
    (hrelease : ∀ call ∈ calls, ¬ call.Releases) :
    ∃ faults openHandles, (serve calls fs).volume = { fs.volume.withFaults faults with openHandles } := by
  suffices hkept : KeepsVolume fs (serve calls fs) from hkept.2
  induction calls generalizing fs with
  | nil => exact refl_of KeepsVolume fs
  | cons call rest ih =>
      -- no request makes the server writable, so the rest of the session is one of the same kind
      have hfirst := keepsVolume_after (hrelease call (List.mem_cons_self ..)) hwritable
      have hclosed : (call.after fs).writable = false := hfirst.1.trans hwritable
      exact trans_of KeepsVolume hfirst (ih hclosed fun call' hmem => hrelease call' (List.mem_cons_of_mem _ hmem))

/-- Nothing is made on a server that is not writable, and a file is read. -/
theorem serve_readOnly_twoFiles : ∃ faults openHandles,
    (serve [.change (.openFile 16) "", .change (.mkdir 24 "d") "", .read 16 0 1, .setlk 16 ⟨fWrlck, 0, 0, 1⟩ 7]
      { volume := Volume.twoFiles }).volume = { Volume.twoFiles.withFaults faults with openHandles } := by
  refine serve_readOnly rfl fun call hmem => ?_
  simp only [List.mem_cons, List.not_mem_nil, or_false] at hmem
  rcases hmem with rfl | rfl | rfl | rfl <;> exact not_false

end ServerCall

end JfsFuse
