import JfsFuse.Fuse.Lookup
import JfsFuse.Fuse.XattrNames
import JfsFuse.Lib.Ledger
import JfsFuse.Volume.DirtyPages

/-!
# References to nodes

The kernel counts the references that it has to each inode: an entry in a reply adds one, and
`FUSE_FORGET` gives some of them back.  The server counts along, and drops the cached pages of an inode
when its count comes to zero.

The server counts an inode that was found or made before it is known whether the reply will be an entry;
and the replies to LINK and READDIRPLUS have entries that it does not count.  The two counts differ by
these and by nothing else.
-/

namespace JfsFuse

open Program

/-- The counts of the nodes.  A node without references is not kept. -/
structure NodeStates where
  counts : Finmap fun _ : UInt32 => ℕ
  positive : ∀ ino count, counts.lookup ino = some count → 0 < count

namespace NodeStates

def new : NodeStates where
  counts := ∅
  positive _ _ h := by cases h

/-- `lookup_count`. -/
def lookupCount (s : NodeStates) (ino : UInt32) : ℕ :=
  (s.counts.lookup ino).getD 0

/-- Set a count that is not zero. -/
def setCount (s : NodeStates) (ino : UInt32) (count : ℕ) (hcount : 0 < count) : NodeStates where
  counts := s.counts.insert ino count
  positive ino' count' h := by
    rw [Finmap.lookup_insert_eq_ite] at h
    split at h
    · cases h
      exact hcount
    · exact s.positive ino' count' h

def remove (s : NodeStates) (ino : UInt32) : NodeStates where
  counts := s.counts.erase ino
  positive ino' count h := by
    rw [Finmap.lookup_erase_eq_ite] at h
    split at h
    · cases h
    · exact s.positive ino' count h

/-- `add_node_state`. -/
def addNodeState (s : NodeStates) (ino : UInt32) : NodeStates :=
  match s.counts.lookup ino with
  | some count => s.setCount ino (count + 1) (Nat.succ_pos count)
  | none => s.setCount ino 1 Nat.one_pos

/-- `decrement_node_state`: whether the count came to zero. -/
def decrementNodeState (s : NodeStates) (ino : UInt32) (nlookup : ℕ) : Bool × NodeStates :=
  match s.counts.lookup ino with
  | some count =>
      if h : 0 < count - nlookup then (false, s.setCount ino (count - nlookup) h) else (true, s.remove ino)
  | none => (false, s)

section Counts

variable (s : NodeStates) (ino ino' : UInt32)

theorem lookupCount_setCount (count : ℕ) (hcount : 0 < count) :
    (s.setCount ino count hcount).lookupCount ino' = if ino' = ino then count else s.lookupCount ino' := by
  unfold lookupCount setCount
  rw [Finmap.lookup_insert_eq_ite]
  split <;> rfl

theorem lookupCount_remove : (s.remove ino).lookupCount ino' = if ino' = ino then 0 else s.lookupCount ino' := by
  unfold lookupCount remove
  rw [Finmap.lookup_erase_eq_ite]
  split <;> rfl

theorem lookupCount_addNodeState :
    (s.addNodeState ino).lookupCount ino' = if ino' = ino then s.lookupCount ino + 1 else s.lookupCount ino' := by
  unfold addNodeState
  split
  · next count hcount =>
      rw [lookupCount_setCount]
      unfold lookupCount
      rw [hcount]
      rfl
  · next hnone =>
      rw [lookupCount_setCount]
      unfold lookupCount
      rw [hnone]
      rfl

/-- **References are given back.** -/
theorem decrementNodeState_spec (nlookup : ℕ) :
    (∀ ino', (s.decrementNodeState ino nlookup).2.lookupCount ino' =
        if ino' = ino then s.lookupCount ino - nlookup else s.lookupCount ino') ∧
      ((s.decrementNodeState ino nlookup).1 = true ↔ 0 < s.lookupCount ino ∧ s.lookupCount ino ≤ nlookup) := by
  unfold decrementNodeState
  split
  · next count hlookup =>
      have hcount : s.lookupCount ino = count := by
        unfold lookupCount
        rw [hlookup]
        rfl
      have hpos := s.positive ino count hlookup
      rw [hcount]
      split
      · next hleft =>
          refine ⟨fun ino' => lookupCount_setCount s ino ino' _ hleft, ?_⟩
          simp only [Bool.false_eq_true, false_iff]
          omega
      · next hzero =>
          refine ⟨fun ino' => ?_, by simp only [true_iff]; omega⟩
          rw [lookupCount_remove, Nat.eq_zero_of_not_pos hzero]
  · next hlookup =>
      have hcount : s.lookupCount ino = 0 := by
        unfold lookupCount
        rw [hlookup]
        rfl
      rw [hcount]
      refine ⟨fun ino' => ?_, by simp⟩
      split
      · next heq => rw [heq, hcount, Nat.zero_sub]
      · rfl

end Counts

end NodeStates

/-! ## The kernel and the server -/

/-- The server, and the references that the kernel has.  Of the entries that the two count differently,
`unreported` are those that only the server has counted, and `uncounted` those that only the kernel has. -/
structure Exchange where
  fs : FuseFs
  nodes : NodeStates := .new
  refs : UInt32 → ℕ := fun _ => 0
  unreported : UInt32 → ℕ := fun _ => 0
  uncounted : UInt32 → ℕ := fun _ => 0

/-- What the kernel requests.  `other` is any request that is not answered with an entry and leaves the counts
as they are. -/
inductive NodeRequest
  | lookup (parentIno : UInt32) (name : String)
  | create (parentIno : UInt32) (name : String)
  | mkdir (parentIno : UInt32) (name : String)
  | mknod (parentIno : UInt32) (name : String) (mode rdev : ℕ)
  | symlink (parentIno : UInt32) (name target : String)
  | link (parentIno : UInt32) (name : String) (targetIno : UInt32)
  | readdirplus (ino : UInt32) (offset : ℕ) (token : List Bool)
  | forget (ino : UInt32) (nlookup : ℕ)
  | batchForget (entries : List (UInt32 × ℕ))
  | other (fs : FuseFs)

namespace Exchange

def addOne (counts : UInt32 → ℕ) (ino : UInt32) : UInt32 → ℕ :=
  Function.update counts ino (counts ino + 1)

/-- An inode is counted, and then read for the reply. -/
def countAndReply (x : Exchange) (ino : UInt32) : Exchange :=
  match FuseFs.readInode? ino x.fs with
  | .ok (some _) fs => { x with fs, nodes := x.nodes.addNodeState ino, refs := addOne x.refs ino }
  | .ok none fs | .error _ fs =>
      { x with fs, nodes := x.nodes.addNodeState ino, unreported := addOne x.unreported ino }

/-- An inode is read for the reply, and not counted. -/
def replyOnly (x : Exchange) (ino : UInt32) : Exchange :=
  match FuseFs.readInode? ino x.fs with
  | .ok (some _) fs => { x with fs, refs := addOne x.refs ino, uncounted := addOne x.uncounted ino }
  | .ok none fs | .error _ fs => { x with fs }

/-- LOOKUP. -/
def lookup (x : Exchange) (parentIno : UInt32) (name : String) : Exchange :=
  match FuseFs.lookup parentIno name x.fs with
  | .ok (some ino) fs => { x with fs }.countAndReply ino
  | .ok none fs | .error _ fs => { x with fs }

/-- CREATE, MKDIR, MKNOD and SYMLINK, which make an inode by a program of the volume. -/
def make (x : Exchange) (program : VolM UInt32) : Exchange :=
  match FuseFs.whenWritable (FuseFs.callVolume program) x.fs with
  | .ok ino fs => { x with fs }.countAndReply ino
  | .error _ fs => { x with fs }

/-- LINK. -/
def link (x : Exchange) (parentIno : UInt32) (name : String) (targetIno : UInt32) : Exchange :=
  match FuseFs.whenWritable (FuseFs.callVolume (Volume.linkFile parentIno name targetIno)) x.fs with
  | .ok _ fs => { x with fs }.replyOnly targetIno
  | .error _ fs => { x with fs }

/-- READDIRPLUS, which lists as `readdir_interruptible` does. -/
def readdirplus (x : Exchange) (ino : UInt32) (offset : ℕ) (token : List Bool) : Exchange :=
  match FuseFs.readdirInterruptible ino offset token x.fs with
  | .ok offered fs => offered.foldl (fun x entry => x.replyOnly entry.ino) { x with fs }
  | .error _ fs => { x with fs }

/-- `forget`. -/
def forget (x : Exchange) (ino : UInt32) (nlookup : ℕ) : Exchange :=
  let (evict, nodes) := x.nodes.decrementNodeState ino nlookup
  let volume := x.fs.volume
  { x with
    fs := if evict then { x.fs with volume := { volume with pageCache := PageCache.evict volume.pageCache ino } } else x.fs
    nodes
    refs := Function.update x.refs ino (x.refs ino - nlookup) }

/-- `batch_forget`. -/
def batchForget (x : Exchange) (entries : List (UInt32 × ℕ)) : Exchange :=
  entries.foldl (fun x entry => x.forget entry.1 entry.2) x

def step (x : Exchange) : NodeRequest → Exchange
  | .lookup parentIno name => x.lookup parentIno name
  | .create parentIno name => x.make (Volume.createFile parentIno name)
  | .mkdir parentIno name => x.make (Volume.mkdir parentIno name)
  | .mknod parentIno name mode rdev => x.make (Volume.mknod parentIno name mode rdev)
  | .symlink parentIno name target => x.make (Volume.symlink parentIno name target)
  | .link parentIno name targetIno => x.link parentIno name targetIno
  | .readdirplus ino offset token => x.readdirplus ino offset token
  | .forget ino nlookup => x.forget ino nlookup
  | .batchForget entries => x.batchForget entries
  | .other fs => { x with fs }

def run (x : Exchange) (requests : List NodeRequest) : Exchange :=
  requests.foldl step x

/-- The kernel gives back references that it has. -/
def GivesBack : Exchange → List (UInt32 × ℕ) → Prop
  | _, [] => True
  | x, (ino, nlookup) :: rest => nlookup ≤ x.refs ino ∧ GivesBack (x.forget ino nlookup) rest

/-- The request follows the protocol. -/
def Allowed (x : Exchange) : NodeRequest → Prop
  | .forget ino nlookup => x.GivesBack [(ino, nlookup)]
  | .batchForget entries => x.GivesBack entries
  | _ => True

def AllAllowed : Exchange → List NodeRequest → Prop
  | _, [] => True
  | x, request :: rest => x.Allowed request ∧ AllAllowed (x.step request) rest

/-- The counts of the server and of the kernel differ by the entries that one of them did not count. -/
def InStep (x : Exchange) : Prop :=
  ∀ ino, x.nodes.lookupCount ino ≤ x.refs ino + x.unreported ino ∧
    x.refs ino ≤ x.nodes.lookupCount ino + x.uncounted ino

theorem addOne_apply (counts : UInt32 → ℕ) (ino ino' : UInt32) :
    addOne counts ino ino' = if ino' = ino then counts ino + 1 else counts ino' := by
  unfold addOne
  exact Function.update_apply ..

variable {x : Exchange}

theorem InStep.countAndReply (h : x.InStep) (ino : UInt32) : (x.countAndReply ino).InStep := by
  have hcount := x.nodes.lookupCount_addNodeState ino
  unfold Exchange.countAndReply
  split
  · intro ino'
    have hino := h ino'
    simp only [hcount, addOne_apply]
    split
    · next heq =>
        subst heq
        omega
    · exact hino
  all_goals
    intro ino'
    have hino := h ino'
    simp only [hcount, addOne_apply]
    split
    · next heq =>
        subst heq
        omega
    · exact hino

theorem InStep.replyOnly (h : x.InStep) (ino : UInt32) : (x.replyOnly ino).InStep := by
  unfold Exchange.replyOnly
  split
  · intro ino'
    have hino := h ino'
    simp only [addOne_apply]
    split
    · next heq =>
        subst heq
        omega
    · exact hino
  · exact h
  · exact h

theorem InStep.withFs (h : x.InStep) (fs : FuseFs) : InStep { x with fs } :=
  h

theorem InStep.lookup (h : x.InStep) (parentIno : UInt32) (name : String) : (x.lookup parentIno name).InStep := by
  unfold Exchange.lookup
  split
  · exact (h.withFs _).countAndReply _
  · exact h
  · exact h

theorem InStep.make (h : x.InStep) (program : VolM UInt32) : (x.make program).InStep := by
  unfold Exchange.make
  split
  · exact (h.withFs _).countAndReply _
  · exact h

theorem InStep.link (h : x.InStep) (parentIno : UInt32) (name : String) (targetIno : UInt32) :
    (x.link parentIno name targetIno).InStep := by
  unfold Exchange.link
  split
  · exact (h.withFs _).replyOnly _
  · exact h

theorem InStep.readdirplus (h : x.InStep) (ino : UInt32) (offset : ℕ) (token : List Bool) :
    (x.readdirplus ino offset token).InStep := by
  have hentries : ∀ (offered : List Offered) (x : Exchange), x.InStep →
      (offered.foldl (fun x entry => x.replyOnly entry.ino) x).InStep := by
    intro offered
    induction offered with
    | nil => exact fun x h => h
    | cons entry rest ih => exact fun x h => ih _ (h.replyOnly entry.ino)
  unfold Exchange.readdirplus
  split
  · exact hentries _ _ (h.withFs _)
  · exact h

theorem InStep.forget (h : x.InStep) {ino : UInt32} {nlookup : ℕ} (hrefs : nlookup ≤ x.refs ino) :
    (x.forget ino nlookup).InStep := by
  intro ino'
  have hino := h ino'
  show (x.nodes.decrementNodeState ino nlookup).2.lookupCount ino' ≤
      Function.update x.refs ino (x.refs ino - nlookup) ino' + x.unreported ino' ∧
    Function.update x.refs ino (x.refs ino - nlookup) ino' ≤
      (x.nodes.decrementNodeState ino nlookup).2.lookupCount ino' + x.uncounted ino'
  rw [(x.nodes.decrementNodeState_spec ino nlookup).1 ino', Function.update_apply]
  split
  · next heq =>
      subst heq
      omega
  · exact hino

theorem InStep.batchForget (h : x.InStep) {entries : List (UInt32 × ℕ)} (hentries : x.GivesBack entries) :
    (x.batchForget entries).InStep := by
  induction entries generalizing x with
  | nil => exact h
  | cons entry rest ih => exact ih (h.forget hentries.1) hentries.2

/-- **One request.** -/
theorem InStep.step (h : x.InStep) {request : NodeRequest} (hallowed : x.Allowed request) : (x.step request).InStep := by
  cases request with
  | lookup parentIno name => exact h.lookup parentIno name
  | create parentIno name => exact h.make _
  | mkdir parentIno name => exact h.make _
  | mknod parentIno name mode rdev => exact h.make _
  | symlink parentIno name target => exact h.make _
  | link parentIno name targetIno => exact h.link parentIno name targetIno
  | readdirplus ino offset token => exact h.readdirplus ino offset token
  | forget ino nlookup => exact h.forget hallowed.1
  | batchForget entries => exact h.batchForget hallowed
  | other fs => exact h

theorem InStep.run (h : x.InStep) {requests : List NodeRequest} (hallowed : x.AllAllowed requests) :
    (x.run requests).InStep := by
  induction requests generalizing x with
  | nil => exact h
  | cons request rest ih => exact ih (h.step hallowed.1) hallowed.2

/-- The pages of the inode leave the cache. -/
def Evicts (x : Exchange) (ino : UInt32) (nlookup : ℕ) : Prop :=
  (x.nodes.decrementNodeState ino nlookup).1 = true

instance (x : Exchange) (ino : UInt32) (nlookup : ℕ) : Decidable (x.Evicts ino nlookup) :=
  inferInstanceAs (Decidable (_ = true))

theorem peek_forget (x : Exchange) (ino : UInt32) (nlookup : ℕ) (key : UInt32 × ℕ) :
    (x.forget ino nlookup).fs.volume.pageCache.peek key =
      if x.Evicts ino nlookup ∧ key.1 = ino then none else x.fs.volume.pageCache.peek key := by
  by_cases hevicts : x.Evicts ino nlookup
  · have hfs : (x.forget ino nlookup).fs =
        { x.fs with volume := { x.fs.volume with pageCache := x.fs.volume.pageCache.evict ino } } := if_pos hevicts
    simpa only [hfs, hevicts, true_and] using PageCache.peek_evict x.fs.volume.pageCache ino key
  · have hfs : (x.forget ino nlookup).fs = x.fs := if_neg hevicts
    simp only [hfs, hevicts, false_and, if_false]

/-- **The counts follow the kernel.**  After any requests that follow the protocol, the two counts of an inode
differ by no more than the entries that only one side has counted.  Where there are none, they are equal, and
the pages leave the cache exactly when the kernel gives back its last reference. -/
theorem counts_follow_kernel (fs : FuseFs) (requests : List NodeRequest)
    (hallowed : Exchange.AllAllowed { fs } requests) (ino : UInt32) :
    let x := Exchange.run { fs } requests
    (x.nodes.lookupCount ino ≤ x.refs ino + x.unreported ino ∧
        x.refs ino ≤ x.nodes.lookupCount ino + x.uncounted ino) ∧
      ∀ nlookup ≤ x.refs ino, (x.Evicts ino nlookup → (x.forget ino nlookup).refs ino ≤ x.uncounted ino) ∧
        (x.unreported ino = 0 → x.uncounted ino = 0 → (x.Evicts ino nlookup ↔ 0 < nlookup ∧ nlookup = x.refs ino)) ∧
        ∀ key, (x.forget ino nlookup).fs.volume.pageCache.peek key =
          if x.Evicts ino nlookup ∧ key.1 = ino then none else x.fs.volume.pageCache.peek key := by
  intro x
  have hstep : x.InStep := InStep.run (fun _ => ⟨Nat.zero_le _, Nat.zero_le _⟩) hallowed
  obtain ⟨hserver, hkernel⟩ := hstep ino
  refine ⟨⟨hserver, hkernel⟩, fun nlookup hle => ?_⟩
  have hevicts : x.Evicts ino nlookup ↔ 0 < x.nodes.lookupCount ino ∧ x.nodes.lookupCount ino ≤ nlookup :=
    (x.nodes.decrementNodeState_spec ino nlookup).2
  refine ⟨fun h => ?_, fun hunreported huncounted => ?_, x.peek_forget ino nlookup⟩
  · have hlast := (hevicts.mp h).2
    show Function.update x.refs ino (x.refs ino - nlookup) ino ≤ x.uncounted ino
    rw [Function.update_self]
    omega
  · rw [hevicts]
    omega

/-- A filesystem with an empty file. -/
def emptyFile : FuseFs :=
  { volume := Volume.oneInode Volume.emptyInode fun _ => 0, writable := true }

theorem readInode_emptyFile : FuseFs.readInode? 19 emptyFile =
    .ok (some { dinode := Volume.emptyInode, ino := 19, pageBlock := 4, pageOffset := 0 }) emptyFile := by
  have hread := Volume.readInode_oneInode (fun _ => 0) Volume.length_emptyInode (by decide +kernel)
  have hfs : FuseFs.onVolume Errno.enoent (Volume.readInode 19) emptyFile =
      .ok { dinode := Volume.emptyInode, ino := 19, pageBlock := 4, pageOffset := 0 } emptyFile := by
    unfold FuseFs.onVolume
    rw [show Volume.readInode 19 emptyFile.volume = _ from hread]
    rfl
  unfold FuseFs.readInode?
  refine tryCatch_ok ?_
  rw [bind_ok hfs]
  rfl

/-- The inode itself is looked up. -/
theorem run_lookup_dot {fs : FuseFs} {ino : UInt32} {inode : Inode} (h : FuseFs.readInode? ino fs = .ok (some inode) fs) :
    Exchange.run { fs } [.lookup ino "."] =
      { fs, nodes := NodeStates.new.addNodeState ino, refs := addOne (fun _ => 0) ino } := by
  have hlookup : FuseFs.lookup ino "." fs = .ok (some ino) fs := by
    unfold FuseFs.lookup
    rw [if_pos rfl]
    rfl
  have hstep : Exchange.run { fs } [.lookup ino "."] = Exchange.countAndReply { fs } ino := by
    show Exchange.lookup { fs } ino "." = _
    unfold lookup
    simp only [hlookup]
  rw [hstep]
  unfold countAndReply
  simp only [h]

/-- A file is looked up and forgotten. -/
theorem counts_follow_kernel_lookup :
    (Exchange.run { fs := emptyFile } [.lookup 19 "."]).refs 19 = 1 ∧
      (Exchange.run { fs := emptyFile } [.lookup 19 "."]).Evicts 19 1 := by
  have hcounts := (counts_follow_kernel emptyFile [.lookup 19 "."] ⟨trivial, trivial⟩ 19).2
  rw [run_lookup_dot readInode_emptyFile] at hcounts ⊢
  have hrefs : addOne (fun _ => 0) 19 19 = 1 := by
    rw [addOne_apply, if_pos rfl]
  exact ⟨hrefs, ((hcounts 1 hrefs.ge).2.1 rfl rfl).mpr ⟨Nat.one_pos, hrefs.symm⟩⟩

end Exchange

end JfsFuse
