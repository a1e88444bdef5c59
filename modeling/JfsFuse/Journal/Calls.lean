import JfsFuse.Journal.FirstBuffer

/-!
# The storage calls of the log manager

What the log manager writes does not depend on what it reads: each method issues a
list of storage calls that its own state determines, and stops at the first one that
fails.  `Issues` states this, so that the order of the calls, their place on the
storage and the content after a crash between two of them can be read off the lists.
-/

namespace JfsFuse

open ByteBuf Program

/-! ## Lists of storage calls -/

namespace StorageCall

def perform : StorageCall → StorageM Unit
  | writeBlock block data => StorageM.writeBlock block data
  | writeBytes offset data => StorageM.writeBytes offset data
  | flushData => StorageM.flushData
  | flushMetadata => StorageM.flushMetadata
  | sync => StorageM.sync

/-- The content after a call. -/
def effect (data : ℕ → UInt8) : StorageCall → ℕ → UInt8
  | writeBlock block bytes => Memory.write data (block * blockSize) bytes
  | writeBytes offset bytes => Memory.write data offset bytes
  | flushData => data
  | flushMetadata => data
  | sync => data

/-- The content after calls. -/
def effects (calls : List StorageCall) (data : ℕ → UInt8) : ℕ → UInt8 :=
  calls.foldl effect data

/-- Perform calls up to the first one that fails. -/
def performAll : List StorageCall → StorageM Unit
  | [] => return ()
  | call :: rest => do
      call.perform
      performAll rest

theorem performAll_cons (call : StorageCall) (rest : List StorageCall) :
    performAll (call :: rest) = (do call.perform; performAll rest) := rfl

@[simp] theorem effects_nil (data : ℕ → UInt8) : effects [] data = data := rfl

@[simp] theorem effects_cons (call : StorageCall) (rest : List StorageCall) (data : ℕ → UInt8) :
    effects (call :: rest) data = effects rest (call.effect data) := rfl

theorem effects_append (first second : List StorageCall) (data : ℕ → UInt8) :
    effects (first ++ second) data = effects second (effects first data) :=
  List.foldl_append ..

/-- What a call can do: take effect and be recorded, or fail and change nothing but the
faults to come. -/
def Outcome (call : StorageCall) (s : Storage) (result : EStateM.Result StorageError Storage Unit) :
    Prop :=
  (∃ s', result = .ok () s' ∧ s'.data = call.effect s.data ∧ s'.trace = s.trace ++ [call]) ∨
    ∃ e s', result = .error e s' ∧ s'.data = s.data ∧ s'.trace = s.trace

theorem attempt_cases (s : Storage) :
    (∃ t, StorageM.attempt s = .ok () t ∧ t.data = s.data ∧ t.trace = s.trace) ∨
      ∃ t, StorageM.attempt s = .error .io t ∧ t.data = s.data ∧ t.trace = s.trace := by
  unfold StorageM.attempt
  split
  · exact Or.inl ⟨s, rfl, rfl, rfl⟩
  · exact Or.inl ⟨_, rfl, rfl, rfl⟩
  · exact Or.inr ⟨_, rfl, rfl, rfl⟩

theorem outcome_flush (call : StorageCall) (s : Storage) (hnone : call.effect s.data = s.data) :
    Outcome call s (StorageM.flush call s) := by
  rcases attempt_cases s with ⟨t, hrun, hdata, htrace⟩ | ⟨t, hrun, hdata, htrace⟩
  · refine Or.inl ⟨t.record call, bind_ok hrun, hdata.trans hnone.symm, ?_⟩
    show t.trace ++ [call] = _
    rw [htrace]
  · exact Or.inr ⟨_, t, bind_error hrun, hdata, htrace⟩

/-- The two kinds of writes differ in their checks only. -/
theorem outcome_write (call : StorageCall) (offset : ℕ) (bytes : List UInt8)
    (heffect : ∀ data, call.effect data = Memory.write data offset bytes)
    (refused : Storage → Option StorageError) (s : Storage) :
    Outcome call s ((do
      StorageM.attempt
      let s ← get
      match refused s with
      | some e => throw e
      | none => set ((s.written offset bytes).record call) : StorageM Unit) s) := by
  rcases attempt_cases s with ⟨t, hrun, hdata, htrace⟩ | ⟨t, hrun, hdata, htrace⟩
  · rw [bind_ok hrun, bind_ok (get_apply t)]
    cases refused t with
    | some e => exact Or.inr ⟨e, t, rfl, hdata, htrace⟩
    | none =>
        refine Or.inl ⟨_, rfl, ?_, ?_⟩
        · rw [heffect, ← hdata]
          rfl
        · show t.trace ++ [call] = _
          rw [htrace]
  · exact Or.inr ⟨_, t, bind_error hrun, hdata, htrace⟩

theorem perform_cases (call : StorageCall) (s : Storage) : Outcome call s (call.perform s) := by
  cases call with
  | writeBlock block bytes =>
      exact outcome_write _ _ _ (fun _ => rfl) (fun s => s.writeBlockRefused block bytes) s
  | writeBytes offset bytes =>
      exact outcome_write _ _ _ (fun _ => rfl) (fun s => s.writeRefused offset bytes.length) s
  | flushData => exact outcome_flush _ s rfl
  | flushMetadata => exact outcome_flush _ s rfl
  | sync => exact outcome_flush _ s rfl

/-- **A list of calls is performed up to some point**: all of it when the run returns,
less when it fails. -/
theorem performAll_cases (calls : List StorageCall) (s : Storage) :
    (∃ s', performAll calls s = .ok () s' ∧ s'.data = effects calls s.data ∧
      s'.trace = s.trace ++ calls) ∨
    ∃ e s' done call rest, performAll calls s = .error e s' ∧ calls = done ++ call :: rest ∧
      s'.data = effects done s.data ∧ s'.trace = s.trace ++ done := by
  induction calls generalizing s with
  | nil => exact Or.inl ⟨s, rfl, rfl, (List.append_nil _).symm⟩
  | cons call rest ih =>
      rcases call.perform_cases s with ⟨t, hrun, hdata, htrace⟩ | ⟨e, t, hrun, hdata, htrace⟩
      · rcases ih t with ⟨s', hrest, hdata', htrace'⟩ |
          ⟨e, s', done, next, after, hrest, hsplit, hdata', htrace'⟩
        · refine Or.inl ⟨s', ?_, ?_, ?_⟩
          · rw [performAll_cons, bind_ok hrun, hrest]
          · rw [hdata', hdata, effects_cons]
          · rw [htrace', htrace, List.append_assoc, List.singleton_append]
        · refine Or.inr ⟨e, s', call :: done, next, after, ?_, ?_, ?_, ?_⟩
          · rw [performAll_cons, bind_ok hrun, hrest]
          · rw [hsplit, List.cons_append]
          · rw [hdata', hdata, effects_cons]
          · rw [htrace', htrace, List.append_assoc, List.singleton_append]
      · refine Or.inr ⟨e, t, [], call, rest, ?_, rfl, hdata, ?_⟩
        · rw [performAll_cons, bind_error hrun]
        · rw [htrace, List.append_nil]

theorem performAll_ok {calls : List StorageCall} {s s' : Storage}
    (h : performAll calls s = .ok () s') :
    s'.data = effects calls s.data ∧ s'.trace = s.trace ++ calls := by
  rcases performAll_cases calls s with ⟨t, hrun, hdata, htrace⟩ | ⟨e, t, _, _, _, hrun, _⟩
  · rw [hrun] at h
    cases h
    exact ⟨hdata, htrace⟩
  · rw [hrun] at h
    cases h

theorem performAll_append_ok {first second : List StorageCall} {s t : Storage}
    (h : performAll first s = .ok () t) : performAll (first ++ second) s = performAll second t := by
  induction first generalizing s with
  | nil =>
      cases h
      rfl
  | cons call rest ih =>
      obtain ⟨_, u, hcall, hrest⟩ := of_bind_ok h
      rw [List.cons_append, performAll_cons, bind_ok hcall]
      exact ih hrest

theorem performAll_append_error {first second : List StorageCall} {s t : Storage} {e : StorageError}
    (h : performAll first s = .error e t) : performAll (first ++ second) s = .error e t := by
  induction first generalizing s with
  | nil => cases h
  | cons call rest ih =>
      rw [List.cons_append, performAll_cons]
      rw [performAll_cons] at h
      cases hcall : call.perform s with
      | error e' u =>
          rw [bind_error hcall] at h ⊢
          exact h
      | ok a u =>
          rw [bind_ok hcall] at h ⊢
          exact ih h

/-- The call is no write of a block. -/
def Unchecked : StorageCall → Prop
  | writeBlock _ _ => False
  | _ => True

/-- A file that is open for writing takes such calls at any offset. -/
theorem performAll_file {calls : List StorageCall} (hcalls : ∀ call ∈ calls, call.Unchecked)
    {s : Storage} (hbackend : s.backend = .file false) (hfaults : s.faults = []) :
    ∃ s', performAll calls s = .ok () s' ∧ s'.backend = .file false ∧ s'.faults = [] := by
  induction calls generalizing s with
  | nil => exact ⟨s, rfl, hbackend, hfaults⟩
  | cons call rest ih =>
      have hfirst : ∃ t, call.perform s = .ok () t ∧ t.backend = .file false ∧ t.faults = [] := by
        have hflush := StorageM.flush_ok hfaults
        cases call with
        | writeBlock block data => exact absurd (hcalls _ (List.mem_cons_self ..)) id
        | writeBytes offset data =>
            have hacc : s.writeRefused offset data.length = none := by
              unfold Storage.writeRefused
              rw [hbackend]
              rfl
            exact ⟨_, StorageM.writeBytes_ok hfaults hacc, hbackend, hfaults⟩
        | flushData => exact ⟨_, hflush _, hbackend, hfaults⟩
        | flushMetadata => exact ⟨_, hflush _, hbackend, hfaults⟩
        | sync => exact ⟨_, hflush _, hbackend, hfaults⟩
      obtain ⟨t, hrun, hbackend', hfaults'⟩ := hfirst
      obtain ⟨s', hrest, hdone⟩ :=
        ih (fun call hmem => hcalls call (List.mem_cons_of_mem _ hmem)) hbackend' hfaults'
      exact ⟨s', by rw [performAll_cons, bind_ok hrun, hrest], hdone⟩

end StorageCall

/-! ## The calls of a log program -/

/-- From the manager `lm`, the program issues `calls` and ends in the manager `lm'`; it
stops at the first call that fails. -/
def Issues (x : LogM Unit) (lm : LogManager) (calls : List StorageCall) (lm' : LogManager) : Prop :=
  ∀ s : Storage,
    (∀ s', StorageCall.performAll calls s = .ok () s' → x ⟨lm, s⟩ = .ok () ⟨lm', s'⟩) ∧
    ∀ e s', StorageCall.performAll calls s = .error e s' → ∃ lm'', x ⟨lm, s⟩ = .error e ⟨lm'', s'⟩

namespace Issues

variable {x y : LogM Unit} {lm lm₁ lm₂ : LogManager} {calls calls' : List StorageCall}

/-- A program that returns without a call. -/
theorem of_eq (h : ∀ s, x ⟨lm, s⟩ = .ok () ⟨lm₁, s⟩) : Issues x lm [] lm₁ := by
  intro s
  refine ⟨fun s' hrun => ?_, fun e s' hrun => ?_⟩
  · cases hrun
    exact h s
  · cases hrun

theorem single (call : StorageCall) : Issues (LogManager.onStorage call.perform) lm [call] lm := by
  intro s
  refine ⟨fun s' hrun => ?_, fun e s' hrun => ?_⟩
  · obtain ⟨a, t, hcall, hrest⟩ := of_bind_ok hrun
    cases hrest
    exact zoom_ok hcall
  · rw [StorageCall.performAll_cons] at hrun
    cases hcall : call.perform s with
    | error e' t =>
        rw [bind_error hcall] at hrun
        cases hrun
        exact ⟨lm, zoom_error hcall⟩
    | ok a t =>
        rw [bind_ok hcall] at hrun
        cases hrun

theorem seq (hx : Issues x lm calls lm₁) (hy : Issues y lm₁ calls' lm₂) :
    Issues (do x; y) lm (calls ++ calls') lm₂ := by
  intro s
  rcases StorageCall.performAll_cases calls s with ⟨t, hfirst, -⟩ | ⟨e, t, _, _, _, hfirst, -⟩
  · have hrun := (hx s).1 t hfirst
    rw [StorageCall.performAll_append_ok hfirst]
    refine ⟨fun s' hsecond => ?_, fun e s' hsecond => ?_⟩
    · rw [bind_ok hrun]
      exact (hy t).1 s' hsecond
    · rw [bind_ok hrun]
      exact (hy t).2 e s' hsecond
  · obtain ⟨lm', hrun⟩ := (hx s).2 e t hfirst
    rw [StorageCall.performAll_append_error hfirst]
    refine ⟨fun s' hsecond => ?_, fun e' s' hsecond => ?_⟩
    · cases hsecond
    · cases hsecond
      exact ⟨lm', bind_error hrun⟩

/-- A program that reads the manager first. -/
theorem get_bind {f : LogState → LogM Unit} (h : ∀ s, Issues (f ⟨lm, s⟩) lm calls lm₁) :
    Issues (do let t ← get; f t) lm calls lm₁ := fun s => by
  rw [bind_ok (get_apply _)]
  exact h s s

/-- What a run of the program is, whatever the storage does. -/
theorem cases (h : Issues x lm calls lm₁) (s : Storage) :
    (∃ s', x ⟨lm, s⟩ = .ok () ⟨lm₁, s'⟩ ∧ s'.data = StorageCall.effects calls s.data ∧
      s'.trace = s.trace ++ calls) ∨
    ∃ e lm' s' done call rest, x ⟨lm, s⟩ = .error e ⟨lm', s'⟩ ∧ calls = done ++ call :: rest ∧
      s'.data = StorageCall.effects done s.data ∧ s'.trace = s.trace ++ done := by
  rcases StorageCall.performAll_cases calls s with
    ⟨s', hrun, hdata, htrace⟩ | ⟨e, s', done, call, rest, hrun, hsplit, hdata, htrace⟩
  · exact Or.inl ⟨s', (h s).1 s' hrun, hdata, htrace⟩
  · obtain ⟨lm', hx⟩ := (h s).2 e s' hrun
    exact Or.inr ⟨e, lm', s', done, call, rest, hx, hsplit, hdata, htrace⟩

end Issues

namespace LogManager

/-! ## The calls of each method -/

/-- The manager once the end of the log is set. -/
def ended (lm : LogManager) : LogManager :=
  { lm with logsuper := { lm.logsuper with logEnd := UInt32.ofNat lm.writeOffset } }

/-- The start of the buffer in the log data area. -/
def bufferStart (lm : LogManager) : ℕ :=
  lm.writeOffset - lm.writeOffset % logBufferSize

/-- The pages of the buffer that are in use. -/
def dirtyPages (lm : LogManager) : ℕ :=
  (lm.writeOffset - lm.bufferStart + logPSize - 1) / logPSize

/-- The write of page `i` of the buffer. -/
def pageCall (lm : LogManager) (i : ℕ) : StorageCall :=
  .writeBytes (lm.dataStart + (lm.bufferStart / logPSize % 2 ^ 32 + i) * logPSize)
    (slice lm.logBuffer (i * logPSize) logPSize)

/-- The page writes of a flush. -/
def pageCalls (lm : LogManager) : List StorageCall :=
  if lm.bufferDirty ∧ 0 < lm.writeOffset then (List.range lm.dirtyPages).map lm.pageCall else []

/-- The write of the log superblock. -/
def superCall (lm : LogManager) : StorageCall :=
  .writeBytes (lm.logBase + blockSize) (superBytes lm.ended.logsuper)

/-- The calls of `flush_journal`. -/
def flushCalls (lm : LogManager) : List StorageCall :=
  lm.pageCalls ++ [.flushMetadata, .sync, lm.superCall]

/-- The record does not fit in the rest of the buffer. -/
def Full (lm : LogManager) (n : ℕ) : Prop :=
  logBufferSize < lm.writeOffset % logBufferSize + n

instance (lm : LogManager) (n : ℕ) : Decidable (lm.Full n) :=
  inferInstanceAs (Decidable (_ < _))

/-- The manager with an empty buffer at the next buffer boundary. -/
def restarted (lm : LogManager) : LogManager :=
  { lm with
    logBuffer := zeros logBufferSize
    bufferDirty := false
    writeOffset := (lm.writeOffset + logBufferSize - 1) / logBufferSize * logBufferSize }

/-- The manager once there is room for `n` bytes. -/
def roomed (lm : LogManager) (n : ℕ) : LogManager :=
  if lm.Full n then lm.ended.restarted else lm

def roomCalls (lm : LogManager) (n : ℕ) : List StorageCall :=
  if lm.Full n then lm.flushCalls else []

/-- The manager with a record put into the buffer. -/
def placed (lm : LogManager) (record : LogRecord) (prev : ℕ) : LogManager :=
  { lm with
    logBuffer := splice lm.logBuffer (lm.writeOffset % logBufferSize) (recordBytes record)
    bufferDirty := true
    writeOffset := lm.writeOffset + (recordBytes record).length
    prevRecordOffset := prev }

theorem issues_writePages (lm : LogManager) (startPage i count : ℕ) :
    Issues (writePages startPage i count) lm
      ((List.range' i count).map fun i =>
        .writeBytes (lm.dataStart + (startPage + i) * logPSize)
          (slice lm.logBuffer (i * logPSize) logPSize)) lm := by
  induction count generalizing i with
  | zero => exact Issues.of_eq fun _ => rfl
  | succ count ih =>
      rw [List.range'_succ, List.map_cons]
      refine Issues.get_bind fun s => ?_
      have hpage : Issues (writePage (startPage + i) (slice lm.logBuffer (i * logPSize) logPSize)) lm
          [.writeBytes (lm.dataStart + (startPage + i) * logPSize)
            (slice lm.logBuffer (i * logPSize) logPSize)] lm :=
        Issues.get_bind fun s => Issues.single (.writeBytes _ _)
      exact hpage.seq (ih (i + 1))

theorem issues_writeBuffer (lm : LogManager) : Issues writeBuffer lm lm.pageCalls lm := by
  refine Issues.get_bind fun s => ?_
  unfold pageCalls
  simp only
  split
  · rw [List.range_eq_range']
    exact issues_writePages lm _ 0 lm.dirtyPages
  · exact Issues.of_eq fun _ => rfl

/-- **The calls of a flush**: the pages, two flushes, and then the superblock. -/
theorem issues_flushJournal (lm : LogManager) : Issues flushJournal lm lm.flushCalls lm.ended := by
  have hmodify : Issues (modifyManager fun lm =>
      { lm with logsuper := { lm.logsuper with logEnd := UInt32.ofNat lm.writeOffset } })
      lm [] lm.ended := Issues.of_eq fun _ => rfl
  have hsuper : Issues (do writeSuper (← get).manager.logsuper) lm.ended [lm.superCall] lm.ended :=
    Issues.get_bind fun _ => Issues.get_bind fun _ => Issues.single lm.superCall
  exact (issues_writeBuffer lm).seq
    ((Issues.single .flushMetadata).seq ((Issues.single .sync).seq (hmodify.seq hsuper)))

theorem issues_makeRoom (lm : LogManager) (n : ℕ) :
    Issues (makeRoom n) lm (lm.roomCalls n) (lm.roomed n) := by
  refine Issues.get_bind fun s => ?_
  unfold roomCalls roomed
  by_cases hfull : lm.Full n
  · have hreset : Issues (modifyManager restarted) lm.ended [] lm.ended.restarted :=
      Issues.of_eq fun _ => rfl
    have hboth := (issues_flushJournal lm).seq hreset
    rw [List.append_nil] at hboth
    have hcond : logBufferSize < lm.writeOffset % logBufferSize + n := hfull
    rw [if_pos hfull, if_pos hfull]
    simp only
    rw [if_pos hcond]
    exact hboth
  · have hcond : ¬ logBufferSize < lm.writeOffset % logBufferSize + n := hfull
    rw [if_neg hfull, if_neg hfull]
    simp only
    rw [if_neg hcond]
    exact Issues.of_eq fun _ => rfl

theorem length_logBuffer_roomed {lm : LogManager} (hbuffer : lm.logBuffer.length = logBufferSize)
    (n : ℕ) : (lm.roomed n).logBuffer.length = logBufferSize := by
  unfold roomed
  split
  · exact length_zeros _
  · exact hbuffer

theorem writeOffset_roomed (lm : LogManager) (n : ℕ) :
    (lm.roomed n).writeOffset = LogState.startOf lm.writeOffset n := by
  unfold roomed LogState.startOf
  by_cases hfull : lm.Full n
  · rw [if_pos hfull]
    exact (if_pos hfull).symm
  · rw [if_neg hfull]
    exact (if_neg hfull).symm

end LogManager

namespace LogOp

open LogManager

/-- Where the record of the call starts. -/
def start (op : LogOp) (lm : LogManager) : ℕ :=
  (lm.roomed op.size).writeOffset

/-- The manager with the record of the call in its buffer. -/
def placed (op : LogOp) (lm : LogManager) : LogManager :=
  let roomed := lm.roomed op.size
  match op with
  | append _ _ _ => roomed.placed (op.record roomed.prevRecordOffset) roomed.writeOffset
  | commit _ => roomed.placed (op.record roomed.prevRecordOffset) roomed.prevRecordOffset

/-- The storage calls of a call of the writer. -/
def calls (op : LogOp) (lm : LogManager) : List StorageCall :=
  match op with
  | append _ _ _ => lm.roomCalls op.size
  | commit _ => lm.roomCalls op.size ++ (op.placed lm).flushCalls

/-- The manager after a call of the writer. -/
def next (op : LogOp) (lm : LogManager) : LogManager :=
  match op with
  | append _ _ _ => op.placed lm
  | commit _ => { (op.placed lm).ended with prevRecordOffset := 0 }

/-- The storage calls of calls of the writer, one after the other. -/
def callsAll : List LogOp → LogManager → List StorageCall
  | [], _ => []
  | op :: rest, lm => op.calls lm ++ callsAll rest (op.next lm)

def nextAll : List LogOp → LogManager → LogManager
  | [], lm => lm
  | op :: rest, lm => nextAll rest (op.next lm)

theorem issues_copyToBuffer {lm : LogManager} {off : ℕ} {bytes : List UInt8}
    (hfits : off + bytes.length ≤ lm.logBuffer.length) :
    Issues (copyToBuffer off bytes) lm [] { lm with logBuffer := splice lm.logBuffer off bytes } :=
  Issues.of_eq fun s => copyToBuffer_ok (s := ⟨lm, s⟩) hfits

/-- **The calls of a call of the writer.** -/
theorem issues_perform (op : LogOp) {lm : LogManager} (hbuffer : lm.logBuffer.length = logBufferSize)
    (hsize : op.size ≤ logBufferSize) : Issues op.perform lm (op.calls lm) (op.next lm) := by
  have hroom := issues_makeRoom lm op.size
  have hlen := length_logBuffer_roomed hbuffer op.size
  have hfits := LogState.startOf_mod_add_le lm.writeOffset hsize
  rw [← writeOffset_roomed lm] at hfits
  cases op with
  | append txid block data =>
      intro s
      refine ⟨fun s' hrun => ?_, fun e s' hrun => ?_⟩
      · have hmake := (hroom s).1 s' hrun
        refine appendLogRecord_eq ?_ txid block hmake ?_
        · exact hlen
        · exact hfits
      · obtain ⟨lm', hmake⟩ := (hroom s).2 e s' hrun
        exact ⟨lm', bind_error hmake⟩
  | commit txid =>
      let roomed := lm.roomed lrdSize
      let lrd := commitLrd txid roomed.prevRecordOffset
      have hlrd : (lrdBytes lrd).length = lrdSize := length_lrdBytes lrd
      have hcopy : Issues (copyToBuffer (roomed.writeOffset % logBufferSize) (lrdBytes lrd)) roomed []
          { roomed with
            logBuffer := splice roomed.logBuffer (roomed.writeOffset % logBufferSize)
              (lrdBytes lrd) } := by
        apply issues_copyToBuffer
        rw [hlrd]
        exact hfits.trans_eq hlen.symm
      have hplaced : (LogOp.commit txid).placed lm =
          { roomed with
            logBuffer := splice roomed.logBuffer (roomed.writeOffset % logBufferSize)
              (lrdBytes lrd)
            bufferDirty := true
            writeOffset := roomed.writeOffset + lrdSize } := by
        have hbytes : recordBytes (lrd, []) = lrdBytes lrd := List.append_nil _
        show roomed.placed (lrd, []) roomed.prevRecordOffset = _
        unfold LogManager.placed
        rw [hbytes, hlrd]
      have hdirty : Issues (modifyManager fun lm =>
          { lm with bufferDirty := true, writeOffset := lm.writeOffset + lrdSize })
          { roomed with
            logBuffer := splice roomed.logBuffer (roomed.writeOffset % logBufferSize)
              (lrdBytes lrd) } [] ((LogOp.commit txid).placed lm) := by
        rw [hplaced]
        exact Issues.of_eq fun _ => rfl
      have hreset : Issues (modifyManager fun lm => { lm with prevRecordOffset := 0 })
          ((LogOp.commit txid).placed lm).ended [] ((LogOp.commit txid).next lm) :=
        Issues.of_eq fun _ => rfl
      have hflush := (issues_flushJournal ((LogOp.commit txid).placed lm)).seq hreset
      rw [List.append_nil] at hflush
      exact hroom.seq (Issues.get_bind fun _ => hcopy.seq (hdirty.seq hflush))

theorem length_logBuffer_next (op : LogOp) {lm : LogManager}
    (hbuffer : lm.logBuffer.length = logBufferSize) (hsize : op.size ≤ logBufferSize) :
    (op.next lm).logBuffer.length = logBufferSize := by
  have hlen := length_logBuffer_roomed hbuffer op.size
  have hfits := LogState.startOf_mod_add_le lm.writeOffset hsize
  rw [← writeOffset_roomed lm] at hfits
  have hsplice : ∀ prev, (splice (lm.roomed op.size).logBuffer
      ((lm.roomed op.size).writeOffset % logBufferSize) (recordBytes (op.record prev))).length =
      logBufferSize := by
    intro prev
    rw [length_splice, hlen]
    rw [op.length_recordBytes, hlen]
    exact hfits
  cases op with
  | append txid block data => exact hsplice _
  | commit txid => exact hsplice _

theorem length_logBuffer_nextAll {ops : List LogOp} (hsize : ∀ op ∈ ops, op.size ≤ logBufferSize)
    {lm : LogManager} (hbuffer : lm.logBuffer.length = logBufferSize) :
    (nextAll ops lm).logBuffer.length = logBufferSize := by
  induction ops generalizing lm with
  | nil => exact hbuffer
  | cons op rest ih =>
      refine ih (fun op hmem => hsize op (List.mem_cons_of_mem _ hmem)) ?_
      exact op.length_logBuffer_next hbuffer (hsize op (List.mem_cons_self ..))

/-- **The calls of a run of the writer.** -/
theorem issues_performAll {ops : List LogOp} (hsize : ∀ op ∈ ops, op.size ≤ logBufferSize)
    {lm : LogManager} (hbuffer : lm.logBuffer.length = logBufferSize) :
    Issues (performAll ops) lm (callsAll ops lm) (nextAll ops lm) := by
  induction ops generalizing lm with
  | nil => exact Issues.of_eq fun _ => rfl
  | cons op rest ih =>
      have hop := hsize op (List.mem_cons_self ..)
      refine (op.issues_perform hbuffer hop).seq (ih (fun op hmem => ?_) ?_)
      · exact hsize op (List.mem_cons_of_mem _ hmem)
      · exact op.length_logBuffer_next hbuffer hop

theorem unchecked_flushCalls (lm : LogManager) : ∀ call ∈ lm.flushCalls, call.Unchecked := by
  intro call hmem
  unfold flushCalls pageCalls at hmem
  rcases List.mem_append.mp hmem with hpage | hlast
  · split at hpage
    · obtain ⟨i, -, rfl⟩ := List.mem_map.mp hpage
      trivial
    · cases hpage
  · simp only [List.mem_cons, List.not_mem_nil, or_false] at hlast
    rcases hlast with rfl | rfl | rfl <;> trivial

theorem unchecked_callsAll (ops : List LogOp) (lm : LogManager) :
    ∀ call ∈ callsAll ops lm, call.Unchecked := by
  induction ops generalizing lm with
  | nil => exact fun call hmem => absurd hmem List.not_mem_nil
  | cons op rest ih =>
      have hroom : ∀ call ∈ lm.roomCalls op.size, call.Unchecked := by
        intro call hmem
        unfold roomCalls at hmem
        split at hmem
        · exact unchecked_flushCalls lm call hmem
        · cases hmem
      intro call hmem
      rcases List.mem_append.mp hmem with hop | hrest
      · cases op with
        | append txid block data => exact hroom call hop
        | commit txid =>
            rcases List.mem_append.mp hop with hfirst | hflush
            · exact hroom call hfirst
            · exact unchecked_flushCalls _ call hflush
      · exact ih _ call hrest

/-- On a file that is open for writing and does not fail, every run returns. -/
theorem performAll_file {ops : List LogOp} (hsize : ∀ op ∈ ops, op.size ≤ logBufferSize)
    {lm : LogManager} (hbuffer : lm.logBuffer.length = logBufferSize) {storage : Storage}
    (hbackend : storage.backend = .file false) (hfaults : storage.faults = []) :
    ∃ storage', performAll ops ⟨lm, storage⟩ = .ok () ⟨nextAll ops lm, storage'⟩ ∧
      storage'.trace = storage.trace ++ callsAll ops lm ∧ storage'.backend = .file false ∧
      storage'.faults = [] := by
  obtain ⟨storage', hrun, hstill⟩ :=
    StorageCall.performAll_file (unchecked_callsAll ops lm) hbackend hfaults
  exact ⟨storage', (issues_performAll hsize hbuffer storage).1 storage' hrun,
    (StorageCall.performAll_ok hrun).2, hstill⟩

end LogOp

end JfsFuse
