import JfsFuse.Volume.CacheCopies

/-!
# What a commit writes

The bytes that the journal, the allocation map and the dirty pages of a commit
change.  Whatever the outcome, the journal stays above its superblock page and the
allocation map writes only its own blocks, so every other block holds what the last
dirty page for it says.
-/

namespace JfsFuse

open ByteBuf Program

namespace Storage

/-- Only bytes in `P` may differ. -/
def ChangesOnly (P : ℕ → Prop) (s s' : Storage) : Prop :=
  ∀ i, ¬ P i → s'.data i = s.data i

instance (P : ℕ → Prop) : IsPreorder Storage (ChangesOnly P) where
  refl _ _ _ := rfl
  trans _ _ _ h h' i hi := (h' i hi).trans (h i hi)

theorem ChangesOnly.block {P : ℕ → Prop} {s s' : Storage} (h : ChangesOnly P s s') {b : ℕ}
    (hb : ∀ i, b * blockSize ≤ i → i < b * blockSize + blockSize → ¬ P i) : s'.block b = s.block b :=
  Memory.read_congr fun i hlow hhigh => h i (hb i hlow hhigh)

end Storage

namespace StorageM

open Storage

variable {P : ℕ → Prop}

theorem changesOnly_attempt : Within (ChangesOnly P) attempt := by
  intro s
  unfold attempt
  split <;> exact fun _ _ => rfl

theorem changesOnly_readBytes (offset n : ℕ) : Within (ChangesOnly P) (readBytes offset n) := by
  refine Within.bind changesOnly_attempt fun _ => ?_
  refine Within.bind Within.get fun s => ?_
  exact Within.returnExcept _

theorem changesOnly_flush (call : StorageCall) : Within (ChangesOnly P) (flush call) :=
  Within.bind changesOnly_attempt fun _ _ _ _ => rfl

/-- A write that changes bytes of `P` only. -/
theorem changesOnly_written {s : Storage} {offset : ℕ} {data : List UInt8}
    (h : ∀ i, offset ≤ i → i < offset + data.length → P i) (call : StorageCall) :
    ChangesOnly P s ((s.written offset data).record call) := by
  intro i hi
  refine Memory.write_outside ?_
  by_contra hin
  exact hi (h i (by omega) (by omega))

theorem changesOnly_writeBytes {offset : ℕ} {data : List UInt8}
    (h : ∀ i, offset ≤ i → i < offset + data.length → P i) :
    Within (ChangesOnly P) (writeBytes offset data) := by
  refine Within.bind changesOnly_attempt fun _ => Within.get_bind fun s => ?_
  cases s.writeRefused offset data.length with
  | some e => exact refl_of (ChangesOnly P) s
  | none => exact changesOnly_written h _

theorem changesOnly_writeBlock {block : ℕ} {data : List UInt8}
    (h : ∀ i, block * blockSize ≤ i → i < block * blockSize + data.length → P i) :
    Within (ChangesOnly P) (writeBlock block data) := by
  refine Within.bind changesOnly_attempt fun _ => Within.get_bind fun s => ?_
  cases s.writeBlockRefused block data with
  | some e => exact refl_of (ChangesOnly P) s
  | none => exact changesOnly_written h _

theorem length_of_readResult {s : Storage} {offset n : ℕ} {data : List UInt8}
    (h : s.readResult offset n = .ok data) : data.length = n := by
  have hread : data = Memory.read s.data offset n := by
    unfold readResult at h
    split at h
    · simp only at h
      split at h
      · cases h
      · exact (Except.ok.inj h).symm
    · split at h
      · exact (Except.ok.inj h).symm
      · cases h
  rw [hread, Memory.length_read]

/-- A block that was read has the size of a block. -/
theorem length_of_readBlock {block : ℕ} {s s' : Storage} {data : List UInt8}
    (h : readBlock block s = .ok data s') : data.length = blockSize := by
  obtain ⟨_, s₁, -, hrest⟩ := of_bind_ok h
  obtain ⟨s₂, s₃, -, hresult⟩ := of_bind_ok hrest
  cases hres : s₂.readResult (block * blockSize) blockSize with
  | error e =>
      rw [hres] at hresult
      cases hresult
  | ok read =>
      rw [hres] at hresult
      have heq : read = data := by
        injection hresult
      rw [← heq]
      exact length_of_readResult hres

end StorageM

namespace LogManager

open Storage

/-- A log program leaves the bytes below the log superblock alone. -/
def StaysAbove (logBase : ℕ) (s s' : LogState) : Prop :=
  s.manager.logBase = logBase →
    s'.manager.logBase = logBase ∧
      ChangesOnly (fun i => logBase + blockSize ≤ i) s.storage s'.storage

variable {logBase : ℕ}

instance : IsPreorder LogState (StaysAbove logBase) where
  refl s hbase := ⟨hbase, refl_of (ChangesOnly _) s.storage⟩
  trans s s' s'' h h' hbase := by
    obtain ⟨hbase', hdata⟩ := h hbase
    obtain ⟨hbase'', hdata'⟩ := h' hbase'
    exact ⟨hbase'', trans_of (ChangesOnly _) hdata hdata'⟩

theorem staysAbove_onStorage {α : Type} {x : StorageM α}
    (hx : Within (ChangesOnly fun i => logBase + blockSize ≤ i) x) :
    Within (StaysAbove logBase) (onStorage x) :=
  Within.zoom hx fun _ _ hdata hbase => ⟨hbase, hdata⟩

theorem staysAbove_modifyManager {f : LogManager → LogManager}
    (hf : ∀ lm, (f lm).logBase = lm.logBase) : Within (StaysAbove logBase) (modifyManager f) :=
  fun s hbase => ⟨(hf s.manager).trans hbase, refl_of (ChangesOnly _) s.storage⟩

theorem staysAbove_writeSuper (superBlock : LogSuper) :
    Within (StaysAbove logBase) (writeSuper superBlock) := by
  refine Within.get_bind fun s hbase => ?_
  refine staysAbove_onStorage (StorageM.changesOnly_writeBytes fun i hi _ => ?_) s hbase
  rw [← hbase]
  exact hi

theorem staysAbove_writePage (pageNum : ℕ) (data : List UInt8) :
    Within (StaysAbove logBase) (writePage pageNum data) := by
  refine Within.get_bind fun s hbase => ?_
  refine staysAbove_onStorage (StorageM.changesOnly_writeBytes fun i hi _ => ?_) s hbase
  unfold dataStart at hi
  omega

theorem staysAbove_writePages (startPage i count : ℕ) :
    Within (StaysAbove logBase) (writePages startPage i count) := by
  induction count generalizing i with
  | zero => exact Within.pure ()
  | succ count ih =>
      exact Within.bind Within.get fun _ =>
        Within.bind (staysAbove_writePage _ _) fun _ => ih (i + 1)

theorem staysAbove_flushJournal : Within (StaysAbove logBase) flushJournal := by
  have hbuffer : Within (StaysAbove logBase) writeBuffer :=
    Within.bind Within.get fun _ => Within.ite (staysAbove_writePages _ _ _) (Within.pure ())
  refine Within.bind hbuffer fun _ => ?_
  refine Within.bind (staysAbove_onStorage (StorageM.changesOnly_flush _)) fun _ => ?_
  refine Within.bind (staysAbove_onStorage (StorageM.changesOnly_flush _)) fun _ => ?_
  refine Within.bind (staysAbove_modifyManager fun _ => rfl) fun _ => ?_
  exact Within.bind Within.get fun _ => staysAbove_writeSuper _

theorem staysAbove_makeRoom (recordTotal : ℕ) : Within (StaysAbove logBase) (makeRoom recordTotal) := by
  refine Within.bind Within.get fun _ => Within.ite ?_ (Within.pure ())
  exact Within.bind staysAbove_flushJournal fun _ =>
    staysAbove_modifyManager fun _ => rfl

theorem staysAbove_copyToBuffer (off : ℕ) (bytes : List UInt8) :
    Within (StaysAbove logBase) (copyToBuffer off bytes) :=
  Within.bind Within.get fun _ =>
    Within.ite (Within.throw _) (staysAbove_modifyManager fun _ => rfl)

theorem staysAbove_appendLogRecord (txid block : ℕ) (data : List UInt8) :
    Within (StaysAbove logBase) (appendLogRecord txid block data) := by
  refine Within.bind (staysAbove_makeRoom _) fun _ => ?_
  refine Within.bind Within.get fun _ => Within.bind (staysAbove_copyToBuffer _ _) fun _ => ?_
  refine Within.bind (staysAbove_modifyManager fun _ => rfl) fun _ => ?_
  exact Within.bind (staysAbove_copyToBuffer _ _) fun _ =>
    staysAbove_modifyManager fun _ => rfl

theorem staysAbove_commitTransaction (txid : ℕ) :
    Within (StaysAbove logBase) (commitTransaction txid) := by
  refine Within.bind (staysAbove_makeRoom _) fun _ => ?_
  refine Within.bind Within.get fun _ => Within.bind (staysAbove_copyToBuffer _ _) fun _ => ?_
  refine Within.bind (staysAbove_modifyManager fun _ => rfl) fun _ => ?_
  exact Within.bind staysAbove_flushJournal fun _ =>
    staysAbove_modifyManager fun _ => rfl

end LogManager

end JfsFuse
