import JfsFuse.Btree.XtreeInterrupt
import JfsFuse.Fuse.FileRead
import JfsFuse.Fuse.Interrupt
import JfsFuse.Fuse.Resume
import JfsFuse.Fuse.XattrNames

/-!
# Requests that can be interrupted

A request asks its token at fixed places.  Between two polls the calls of other threads take effect,
and one of them may be the interrupt.  So a request is the plain one or ends with `EINTR`, and which
of the two is decided by the calls that take effect before its last poll.
-/

namespace JfsFuse

open ByteBuf Program

namespace FuseFs

/-- `read_interruptible`. -/
def readInterruptible (ino : UInt32) (offset length : ℕ) (token : List Bool) : FuseM (List UInt8) := do
  let inode ← onVolume Errno.enoent (Volume.readInode ino)
  if inode.size ≤ offset then return []
  else
    let xtree ← onVolume Errno.eio (returnExcept inode.xtree)
    onVolume Errno.eintr
      (Volume.onStorage (xtree.readDataChecked offset (min length (inode.size - offset)) token))

/-- `write`, none if it fails. -/
def write (ino : UInt32) (offset : ℕ) (data : List UInt8) : FuseM (Option ℕ) := fun fs =>
  if fs.writable then
    match Volume.writeAt ino offset data fs.volume with
    | .ok written volume => .ok (some written) { fs with volume }
    | .error _ volume => .ok none { fs with volume }
  else .ok none fs

/-- `write_interruptible`. -/
def writeInterruptible (ino : UInt32) (offset : ℕ) (data : List UInt8) (token : List Bool) : FuseM ℕ := do
  if (← get).writable then onVolume Errno.eintr (Volume.writeAtWithInterrupt ino offset data token)
  else throw Errno.erofs

end FuseFs

/-! ## Polls of a token -/

namespace InterruptManager

/-- The answers of the polls of a token; `schedule` holds, for each poll, the calls that take effect
since the one before. -/
def polls (m : InterruptManager) (token : InterruptToken) : List (List InterruptCall) → List Bool
  | [] => []
  | calls :: rest => (m.performAll calls).isInterrupted token :: (m.performAll calls).polls token rest

/-- The next number of the counter after calls. -/
def nextAfter (nextId : ℕ) : List InterruptCall → ℕ
  | [] => nextId
  | .register :: rest => nextAfter ((nextId + 1) % 2 ^ 64) rest
  | _ :: rest => nextAfter nextId rest

theorem flagSteps_append (nextId : ℕ) (calls calls' : List InterruptCall) :
    flagSteps nextId (calls ++ calls') = flagSteps nextId calls ++ flagSteps (nextAfter nextId calls) calls' := by
  induction calls generalizing nextId with
  | nil => rfl
  | cons call rest ih => cases call <;> exact congrArg _ (ih _)

theorem performAll_append (m : InterruptManager) (calls calls' : List InterruptCall) :
    m.performAll (calls ++ calls') = (m.performAll calls).performAll calls' :=
  List.foldl_append ..

theorem answer_polls (m : InterruptManager) (token : InterruptToken) (schedule : List (List InterruptCall)) {k : ℕ}
    (hk : k < schedule.length) : answer (m.polls token schedule) k =
      (m.performAll (schedule.take (k + 1)).flatten).isInterrupted token := by
  induction schedule generalizing m k with
  | nil => exact absurd hk (Nat.not_lt_zero k)
  | cons calls rest ih =>
      rw [List.take_succ_cons, List.flatten_cons, performAll_append]
      cases k with
      | zero => rfl
      | succ k =>
          rw [List.length_cons, Nat.add_lt_add_iff_right] at hk
          exact ih (m.performAll calls) hk

/-- The request is interrupted by one of the calls that take effect before its first `n` polls. -/
def InterruptedIn (m : InterruptManager) (id n : ℕ) (schedule : List (List InterruptCall)) : Prop :=
  Signals.RaisedFirst id (flagSteps m.nextId (schedule.take n).flatten)

/-- **Some poll of a request is answered yes** if an interrupt comes before the last one. -/
theorem asked_polls_iff (m : InterruptManager) (id : ℕ) {n : ℕ} {schedule : List (List InterruptCall)}
    (hn : n ≤ schedule.length) :
    Asked ((m.registerAt id).2.polls (m.registerAt id).1 schedule) n ↔ m.InterruptedIn id n schedule := by
  unfold InterruptedIn
  constructor
  · rintro ⟨k, hk, hanswer⟩
    rw [answer_polls _ _ _ (hk.trans_le hn), isInterrupted_registerAt] at hanswer
    -- more calls take effect before later polls
    obtain ⟨later, hlater⟩ : ∃ later, (schedule.take n).flatten = (schedule.take (k + 1)).flatten ++ later := by
      refine ⟨((schedule.take n).drop (k + 1)).flatten, ?_⟩
      have htake : schedule.take (k + 1) = (schedule.take n).take (k + 1) := by
        rw [List.take_take, Nat.min_eq_left hk]
      rw [htake, ← List.flatten_append, List.take_append_drop]
    obtain ⟨before, after, heq, hbefore⟩ := hanswer
    refine ⟨before, after ++ flagSteps (nextAfter m.nextId (schedule.take (k + 1)).flatten) later, ?_, hbefore⟩
    rw [hlater, flagSteps_append, heq, List.append_assoc, List.cons_append]
  · intro hraised
    cases n with
    | zero =>
        obtain ⟨before, after, heq, -⟩ := hraised
        cases before <;> cases heq
    | succ n =>
        refine ⟨n, Nat.lt_succ_self n, ?_⟩
        rw [answer_polls _ _ _ hn, isInterrupted_registerAt]
        exact hraised

end InterruptManager

/-! ## The polls of a write -/

namespace Volume

/-- Answers are left over in the variables of the loops. -/
def WriteState.leaveToken (token : List Bool) (s : WriteState) : WriteState :=
  { s with token }

theorem checkToken_eq (token : List Bool) (v : Volume) : checkToken token v =
    if token.headD false then .error .interrupted v else .ok token.tail v := by
  unfold checkToken
  rcases token with _ | ⟨_ | _, rest⟩ <;> rfl

theorem polled_fillNewBlocks (data : List UInt8) (block count offset : ℕ) (s : WriteState) :
    Polled .interrupted WriteState.leaveToken fun token => fillNewBlocks data block count offset { s with token } := by
  induction count generalizing block offset s with
  | zero => exact .of_eq fun _ _ => rfl
  | succ count ih =>
      unfold fillNewBlocks
      dsimp +instances only
      apply Polled.check checkToken_eq
      apply Polled.ite
      · exact .of_eq fun _ _ => rfl
      · apply Polled.after
        intro _
        exact ih _ _ { s with
          written := s.written + min (blockSize - offset) s.remaining
          dataPos := s.dataPos + min (blockSize - offset) s.remaining
          remaining := s.remaining - min (blockSize - offset) s.remaining }

theorem polled_writeHole (data : List UInt8) (pxd : Pxd) (s : WriteState) :
    Polled .interrupted WriteState.leaveToken fun token => writeHole data pxd { s with token } := by
  unfold writeHole
  apply Polled.bind (polled_fillNewBlocks data pxd.address pxd.length s.byteOffset s)
  intro s'
  cases hinsert : s'.xtree.insertExtent s'.nextLogical pxd.length pxd.address with
  | some xtree => exact .of_eq fun _ _ => by simp only [WriteState.leaveToken, hinsert]; rfl
  | none => exact .of_eq fun _ _ => by simp only [WriteState.leaveToken, hinsert]; rfl

theorem polled_writeBlocks (data : List UInt8) (block count : ℕ) (s : WriteState) :
    Polled .interrupted WriteState.leaveToken fun token => writeBlocks data block count { s with token } := by
  induction count generalizing block s with
  | zero => exact .of_eq fun _ _ => rfl
  | succ count ih =>
      unfold writeBlocks
      dsimp +instances only
      apply Polled.check checkToken_eq
      apply Polled.ite
      · exact .of_eq fun _ _ => rfl
      · apply Polled.after
        intro blockData
        apply Polled.after
        intro bytes
        apply Polled.after
        intro _
        exact ih _ { s with
          written := s.written + min (blockSize - s.byteOffset) s.remaining
          dataPos := s.dataPos + min (blockSize - s.byteOffset) s.remaining
          remaining := s.remaining - min (blockSize - s.byteOffset) s.remaining
          byteOffset := 0 }

theorem polled_writeMapped (data : List UInt8) (blockAddr blockCount : ℕ) (s : WriteState) :
    Polled .interrupted WriteState.leaveToken fun token => writeMapped data blockAddr blockCount { s with token } := by
  unfold writeMapped
  apply Polled.bind (polled_writeBlocks data blockAddr blockCount s)
  intro s'
  exact .of_eq fun _ _ => rfl

theorem polled_writePart (data : List UInt8) (blockAddr blockCount : ℕ) (s : WriteState) :
    Polled .interrupted WriteState.leaveToken fun token => writePart data blockAddr blockCount { s with token } := by
  unfold writePart
  dsimp +instances only
  apply Polled.ite
  · apply Polled.after
    intro pxd
    cases pxd with
    | some pxd => exact polled_writeHole data pxd s
    | none => exact polled_writeMapped data blockAddr blockCount (skipHole blockCount s)
  · exact polled_writeMapped data blockAddr blockCount s

theorem polled_writeParts (data : List UInt8) (parts : List (ℕ × ℕ)) (s : WriteState) :
    Polled .interrupted WriteState.leaveToken fun token => writeParts data parts { s with token } := by
  induction parts generalizing s with
  | nil => exact .of_eq fun _ _ => rfl
  | cons part rest ih =>
      obtain ⟨blockAddr, blockCount⟩ := part
      unfold writeParts
      dsimp +instances only
      apply Polled.check checkToken_eq
      apply Polled.ite
      · exact .of_eq fun _ _ => rfl
      · apply Polled.bind (polled_writePart data blockAddr blockCount s)
        intro s'
        exact ih s'

theorem polled_writeAtWithInterrupt (ino : UInt32) (offset : ℕ) (data : List UInt8) :
    Polled .interrupted (fun _ written => written) (writeAtWithInterrupt ino offset data) := by
  have hbody : Polled .interrupted (fun _ exit => exit) (writeAtBody ino offset data) := by
    unfold writeAtBody
    apply Polled.after
    intro inode
    apply Polled.after
    intro xtree
    apply Polled.bind (polled_writeParts data _
      { xtree, remaining := data.length, byteOffset := offset % blockSize, nextLogical := offset / blockSize, token := [] })
    intro s
    dsimp +instances only [WriteState.leaveToken]
    apply Polled.check checkToken_eq
    exact .plain _
  unfold writeAtWithInterrupt
  apply Polled.after
  intro _
  apply Polled.bind hbody
  intro exit
  exact .plain _

end Volume

/-! ## The requests -/

namespace FuseFs

theorem onVolume_ok {α : Type} {x : VolM α} {fs : FuseFs} {a : α} {volume : Volume} (h : x fs.volume = .ok a volume)
    (errno : ℤ) : onVolume errno x fs = .ok a { fs with volume } := by
  unfold onVolume
  rw [h]

theorem onVolume_error {α : Type} {x : VolM α} {fs : FuseFs} {e : StorageError} {volume : Volume}
    (h : x fs.volume = .error e volume) (errno : ℤ) : onVolume errno x fs = .error errno { fs with volume } := by
  unfold onVolume
  rw [h]

theorem polled_onVolume {α : Type} {e : StorageError} {put : List Bool → α → α} {run : List Bool → VolM α}
    (h : Polled e put run) (errno : ℤ) : Polled errno put fun token => onVolume errno (run token) := by
  intro fs
  obtain ⟨n, hn⟩ := h fs.volume
  refine ⟨n, fun token => ⟨fun hasked => ?_, fun hnot => ?_⟩⟩
  · obtain ⟨volume, hvolume⟩ := (hn token).1 hasked
    exact ⟨_, onVolume_error hvolume errno⟩
  · have hplain := (hn token).2 hnot
    cases hrun : run [] fs.volume with
    | ok a volume =>
        rw [hrun] at hplain
        exact (onVolume_ok hplain errno).trans (congrArg (withToken put (token.drop n)) (onVolume_ok hrun errno)).symm
    | error e' volume =>
        rw [hrun] at hplain
        exact (onVolume_error hplain errno).trans
          (congrArg (withToken put (token.drop n)) (onVolume_error hrun errno)).symm

theorem polled_readInterruptible (ino : UInt32) (offset length : ℕ) :
    Polled Errno.eintr (fun _ bytes => bytes) (readInterruptible ino offset length) := by
  unfold readInterruptible
  apply Polled.after
  intro inode
  apply Polled.ite
  · exact .plain _
  · apply Polled.after
    intro xtree
    apply polled_onVolume
    exact (xtree.polled_readDataChecked offset _).zoom

theorem polled_writeInterruptible (ino : UInt32) (offset : ℕ) (data : List UInt8) :
    Polled Errno.eintr (fun _ written => written) (writeInterruptible ino offset data) := by
  unfold writeInterruptible
  apply Polled.after
  intro fs
  apply Polled.ite
  · exact polled_onVolume (Volume.polled_writeAtWithInterrupt ino offset data) _
  · exact .plain _

/-- **A request of the kernel** that polls, while other threads call the manager. -/
theorem interrupted_or_plain {α : Type} {run : List Bool → FuseM α} (h : Polled Errno.eintr (fun _ a => a) run)
    (fs : FuseFs) : ∃ n, ∀ (m : InterruptManager) (id : ℕ) (schedule : List (List InterruptCall)),
      n ≤ schedule.length →
        let token := (m.registerAt id).2.polls (m.registerAt id).1 schedule
        (m.InterruptedIn id n schedule → ∃ fs', run token fs = .error Errno.eintr fs') ∧
          (¬ m.InterruptedIn id n schedule → run token fs = run [] fs) := by
  obtain ⟨n, hn⟩ := h fs
  refine ⟨n, fun m id schedule hlength => ?_⟩
  intro token
  obtain ⟨hasked, hnot⟩ := hn token
  rw [m.asked_polls_iff id hlength] at hasked hnot
  refine ⟨hasked, fun hquiet => (hnot hquiet).trans ?_⟩
  cases run [] fs <;> rfl

/-- The request has the answers of one that says nothing about its errors. -/
def AnswersAs {α : Type} (request : FuseM α) (plain : FuseM (Option α)) (fs : FuseFs) : Prop :=
  (∀ a fs', request fs = .ok a fs' ↔ plain fs = .ok (some a) fs') ∧
    ∀ fs', (∃ errno, request fs = .error errno fs') ↔ plain fs = .ok none fs'

theorem AnswersAs.of_ok {α : Type} {request : FuseM α} {plain : FuseM (Option α)} {fs fs' : FuseFs} {a : α}
    (h : request fs = .ok a fs') (hplain : plain fs = .ok (some a) fs') : AnswersAs request plain fs := by
  unfold AnswersAs
  rw [h, hplain]
  constructor
  · intro b fs₁
    constructor
    · intro heq
      cases heq
      rfl
    · intro heq
      cases heq
      rfl
  · intro fs₁
    constructor
    · rintro ⟨errno, heq⟩
      cases heq
    · intro heq
      cases heq

theorem AnswersAs.of_error {α : Type} {request : FuseM α} {plain : FuseM (Option α)} {fs fs' : FuseFs} {errno : ℤ}
    (h : request fs = .error errno fs') (hplain : plain fs = .ok none fs') : AnswersAs request plain fs := by
  unfold AnswersAs
  rw [h, hplain]
  constructor
  · intro b fs₁
    constructor
    · intro heq
      cases heq
    · intro heq
      cases heq
  · intro fs₁
    constructor
    · rintro ⟨errno', heq⟩
      cases heq
      rfl
    · intro heq
      cases heq
      exact ⟨errno, rfl⟩

theorem answersAs_read (ino : UInt32) (offset length : ℕ) (fs : FuseFs) :
    AnswersAs (readInterruptible ino offset length []) (read ino offset length) fs := by
  have hok : ∀ {bytes : List UInt8} {volume : Volume}, readFile ino offset length fs.volume = .ok bytes volume →
      read ino offset length fs = .ok (some bytes) { fs with volume } := by
    intro bytes volume h
    unfold read
    rw [h]
  have herror : ∀ {e : StorageError} {volume : Volume}, readFile ino offset length fs.volume = .error e volume →
      read ino offset length fs = .ok none { fs with volume } := by
    intro e volume h
    unfold read
    rw [h]
  cases hinode : Volume.readInode ino fs.volume with
  | error e volume => exact .of_error (bind_error (onVolume_error hinode _)) (herror (bind_error hinode))
  | ok inode volume =>
      have hfirst := (bind_ok (onVolume_ok hinode Errno.enoent) : readInterruptible ino offset length [] fs = _)
      have hplain := (bind_ok hinode : readFile ino offset length fs.volume = _)
      by_cases hsize : inode.size ≤ offset
      · rw [if_pos hsize] at hfirst hplain
        exact .of_ok hfirst (hok hplain)
      · rw [if_neg hsize] at hfirst hplain
        cases hxtree : inode.xtree with
        | error e =>
            rw [hxtree] at hfirst hplain
            exact .of_error (hfirst.trans (bind_error (onVolume_error (returnExcept_error e volume) _)))
              (herror (hplain.trans (bind_error (returnExcept_error e volume))))
        | ok xtree =>
            rw [hxtree] at hfirst hplain
            replace hfirst := hfirst.trans (bind_ok (onVolume_ok (returnExcept_ok xtree volume) _))
            replace hplain := hplain.trans (bind_ok (returnExcept_ok xtree volume))
            rw [xtree.readDataChecked_nil] at hfirst
            cases hdata : Volume.onStorage (xtree.readData offset (min length (inode.size - offset))) volume with
            | ok bytes volume' =>
                exact .of_ok (hfirst.trans (onVolume_ok hdata _)) (hok (hplain.trans hdata))
            | error e volume' =>
                exact .of_error (hfirst.trans (onVolume_error hdata _)) (herror (hplain.trans hdata))

theorem answersAs_write (ino : UInt32) (offset : ℕ) (data : List UInt8) (fs : FuseFs) :
    AnswersAs (writeInterruptible ino offset data []) (write ino offset data) fs := by
  have hfirst := (bind_ok (get_apply fs) : writeInterruptible ino offset data [] fs = _)
  by_cases hwritable : fs.writable = true
  · rw [if_pos hwritable] at hfirst
    cases hrun : Volume.writeAtWithInterrupt ino offset data [] fs.volume with
    | ok written volume =>
        refine .of_ok (hfirst.trans (onVolume_ok hrun _)) ?_
        unfold write Volume.writeAt
        rw [if_pos hwritable, hrun]
    | error e volume =>
        refine .of_error (hfirst.trans (onVolume_error hrun _)) ?_
        unfold write Volume.writeAt
        rw [if_pos hwritable, hrun]
  · rw [if_neg hwritable] at hfirst
    refine .of_error hfirst ?_
    unfold write
    rw [if_neg hwritable]

end FuseFs

end JfsFuse
