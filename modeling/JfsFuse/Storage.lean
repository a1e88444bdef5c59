import JfsFuse.Lib.Memory
import JfsFuse.Lib.Program
import JfsFuse.Types

/-!
# Block storage

The `Storage` trait with its two writable backends.  A storage is its content, a
function from byte offsets to bytes, and the size it had when it was opened; a
file can grow past that size.

Two fields have no counterpart in the source.  `faults` decides for each coming
call whether the device fails it, as `FaultInjector` does; a failing call has no
effect, and a storage with no faults listed never fails.  `trace` records the
write and flush calls that took effect, oldest first, so that theorems can speak
about their order.
-/

namespace JfsFuse

open Program

/-- `MemoryStorage`, or `FileStorage` opened for writing or read-only. -/
inductive Backend
  | memory
  | file (readOnly : Bool)
  deriving DecidableEq, Repr

/-- A call that changes or flushes the storage. -/
inductive StorageCall
  | writeBlock (block : ℕ) (data : List UInt8)
  | writeBytes (offset : ℕ) (data : List UInt8)
  | flushData
  | flushMetadata
  | sync
  deriving DecidableEq, Repr

structure Storage where
  backend : Backend
  /-- Size in bytes when the storage was opened. -/
  size : ℕ
  /-- Bytes by which a file has grown past that size. -/
  grown : ℕ := 0
  data : ℕ → UInt8
  faults : List Bool := []
  trace : List StorageCall := []

namespace Storage

/-- `MemoryStorage::new`: zeroed blocks. -/
def newMemory (sizeBlocks : ℕ) : Storage where
  backend := .memory
  size := sizeBlocks * blockSize
  data := fun _ => 0

def sizeBlocks (s : Storage) : ℕ :=
  s.size / blockSize

/-- Length of the backing file. -/
def len (s : Storage) : ℕ :=
  s.size + s.grown

/-- What `read_bytes` returns when the device does not fail. -/
def readResult (s : Storage) (offset n : ℕ) : Except StorageError (List UInt8) :=
  match s.backend with
  | .memory =>
      let stop := offset + n
      let size := s.size
      if size < stop then .error (.other s!"read beyond end of storage: {stop} > {size}")
      else .ok (Memory.read s.data offset n)
  | .file _ =>
      -- `read_exact_at` fills nothing for an empty buffer, wherever it points
      if n = 0 ∨ offset + n ≤ s.len then .ok (Memory.read s.data offset n)
      else .error (.unexpectedEof n (s.len - offset))

/-- What refuses a `write_bytes` of `n` bytes when the device does not fail. -/
def writeRefused (s : Storage) (offset n : ℕ) : Option StorageError :=
  match s.backend with
  | .memory =>
      let stop := offset + n
      let size := s.size
      if size < stop then some (.other s!"write beyond end of storage: {stop} > {size}") else none
  | .file readOnly => if readOnly then some .readOnly else none

/-- `validate_block_write`. -/
def validateBlockWrite (storageSize block : ℕ) (data : List UInt8) : Option StorageError :=
  let length := data.length
  if length ≠ blockSize then
    some (.other s!"write_block: buffer is {length} bytes, expected 4096")
  else if storageSize ≤ block then some (.blockOutOfRange block storageSize)
  else none

/-- The checks of `write_block`.  A memory storage makes none of its own, so
that a buffer of any length is written from the start of the block on. -/
def writeBlockRefused (s : Storage) (block : ℕ) (data : List UInt8) : Option StorageError :=
  match s.backend with
  | .memory => s.writeRefused (block * blockSize) data.length
  | .file readOnly =>
      if readOnly then some .readOnly else validateBlockWrite s.sizeBlocks block data

/-- The content after `data` was written at `offset`; a file grows if needed. -/
def written (s : Storage) (offset : ℕ) (data : List UInt8) : Storage :=
  { s with
    data := Memory.write s.data offset data
    grown := if data = [] then s.grown else max s.grown (offset + data.length - s.size) }

/-- The content of a block. -/
def block (s : Storage) (b : ℕ) : List UInt8 :=
  Memory.read s.data (b * blockSize) blockSize

theorem length_block (s : Storage) (b : ℕ) : (s.block b).length = blockSize :=
  Memory.length_read ..

/-- The blocks depend on the bytes alone. -/
theorem block_of_data {s s' : Storage} (h : s'.data = s.data) (b : ℕ) : s'.block b = s.block b := by
  unfold block
  rw [h]

/-- Add a call to the trace. -/
def record (s : Storage) (call : StorageCall) : Storage :=
  { s with trace := s.trace ++ [call] }

end Storage

/-- A program on a storage. -/
abbrev StorageM := EStateM StorageError Storage

namespace StorageM

/-- Ask the device whether it fails this call. -/
def attempt : StorageM Unit := fun s =>
  match s.faults with
  | [] => .ok () s
  | false :: rest => .ok () { s with faults := rest }
  | true :: rest => .error .io { s with faults := rest }

def readBytes (offset n : ℕ) : StorageM (List UInt8) := do
  attempt
  returnExcept ((← get).readResult offset n)

def readBlock (block : ℕ) : StorageM (List UInt8) :=
  readBytes (block * blockSize) blockSize

def writeBytes (offset : ℕ) (data : List UInt8) : StorageM Unit := do
  attempt
  let s ← get
  match s.writeRefused offset data.length with
  | some e => throw e
  | none => set ((s.written offset data).record (.writeBytes offset data))

def writeBlock (block : ℕ) (data : List UInt8) : StorageM Unit := do
  attempt
  let s ← get
  match s.writeBlockRefused block data with
  | some e => throw e
  | none => set ((s.written (block * blockSize) data).record (.writeBlock block data))

/-- A flush; it changes no content. -/
def flush (call : StorageCall) : StorageM Unit := do
  attempt
  modify fun s => s.record call

def flushData : StorageM Unit :=
  flush .flushData

def flushMetadata : StorageM Unit :=
  flush .flushMetadata

def sync : StorageM Unit :=
  flush .sync

/-! ## Runs on a storage that does not fail -/

theorem attempt_ok {s : Storage} (h : s.faults = []) : attempt s = .ok () s := by
  rw [attempt, h]

theorem readBytes_eq {s : Storage} (h : s.faults = []) (offset n : ℕ) :
    readBytes offset n s = returnExcept (s.readResult offset n) s := by
  rw [readBytes, bind_ok (attempt_ok h), bind_ok (get_apply s)]

/-- A read changes nothing but the decisions of the device. -/
theorem final_readBytes (offset n : ℕ) (s : Storage) :
    ∃ faults, final (readBytes offset n s) = { s with faults } := by
  have hattempt : ∃ faults, final (attempt s) = { s with faults } := by
    unfold attempt
    split
    · exact ⟨s.faults, rfl⟩
    · exact ⟨_, rfl⟩
    · exact ⟨_, rfl⟩
  obtain ⟨faults, hfinal⟩ := hattempt
  refine ⟨faults, ?_⟩
  unfold readBytes
  cases hrun : attempt s with
  | error e s' =>
      rw [hrun] at hfinal
      rw [bind_error hrun]
      exact hfinal
  | ok _ s' =>
      rw [hrun] at hfinal
      rw [bind_ok hrun, bind_ok (get_apply s')]
      cases s'.readResult offset n with
      | ok data => exact hfinal
      | error e => exact hfinal

theorem writeBytes_ok {s : Storage} (h : s.faults = []) {offset : ℕ} {data : List UInt8}
    (hacc : s.writeRefused offset data.length = none) :
    writeBytes offset data s =
      .ok () ((s.written offset data).record (.writeBytes offset data)) := by
  rw [writeBytes, bind_ok (attempt_ok h), bind_ok (get_apply s), hacc]
  rfl

theorem writeBlock_ok {s : Storage} (h : s.faults = []) {block : ℕ} {data : List UInt8}
    (hacc : s.writeBlockRefused block data = none) :
    writeBlock block data s =
      .ok () ((s.written (block * blockSize) data).record (.writeBlock block data)) := by
  rw [writeBlock, bind_ok (attempt_ok h), bind_ok (get_apply s), hacc]
  rfl

theorem flush_ok {s : Storage} (h : s.faults = []) (call : StorageCall) :
    flush call s = .ok () (s.record call) := by
  rw [flush, bind_ok (attempt_ok h)]
  rfl

/-! ### Calls that returned -/

theorem of_attempt_ok {s s' : Storage} {u : Unit} (h : attempt s = .ok u s') : s' = { s with faults := s'.faults } := by
  unfold attempt at h
  split at h
  · cases h
    rfl
  · cases h
    rfl
  · cases h

/-- A block that was read holds what was read. -/
theorem of_readBlock {b : ℕ} {data : List UInt8} {s s' : Storage} (h : readBlock b s = .ok data s') :
    data = s.block b ∧ s' = { s with faults := s'.faults } := by
  obtain ⟨_, s₁, hattempt, h⟩ := of_bind_ok h
  rw [bind_ok (get_apply s₁)] at h
  obtain ⟨hread, rfl⟩ := of_returnExcept_ok h
  have hsame := of_attempt_ok hattempt
  refine ⟨?_, hsame⟩
  rw [hsame] at hread
  unfold Storage.readResult at hread
  split at hread
  · simp only at hread
    split at hread
    · cases hread
    · exact (Except.ok.inj hread).symm
  · split at hread
    · exact (Except.ok.inj hread).symm
    · cases hread

/-- Reading a block changes no block. -/
theorem of_readBlock_frame {b : ℕ} {data : List UInt8} {s s' : Storage} (h : readBlock b s = .ok data s') :
    (∀ block, s'.block block = s.block block) ∧ s'.size = s.size := by
  rw [(of_readBlock h).2]
  exact ⟨fun _ => rfl, rfl⟩

/-- A block that was written holds what was written. -/
theorem of_writeBlock {b : ℕ} {data : List UInt8} {s s' : Storage} {u : Unit} (h : writeBlock b data s = .ok u s') :
    s'.data = Memory.write s.data (b * blockSize) data ∧ s'.size = s.size ∧ s'.backend = s.backend := by
  obtain ⟨_, s₁, hattempt, h⟩ := of_bind_ok h
  rw [of_attempt_ok hattempt, bind_ok (get_apply _)] at h
  cases hrefused : Storage.writeBlockRefused { s with faults := s₁.faults } b data with
  | some e =>
      rw [hrefused] at h
      cases h
  | none =>
      rw [hrefused] at h
      cases h
      exact ⟨rfl, rfl, rfl⟩

theorem of_writeBlock_ok {b : ℕ} {data : List UInt8} {s s' : Storage} {u : Unit} (hlen : data.length = blockSize)
    (h : writeBlock b data s = .ok u s') :
    s'.block b = data ∧ ∀ block, block ≠ b → s'.block block = s.block block := by
  obtain ⟨hdata, -⟩ := of_writeBlock h
  unfold Storage.block
  rw [hdata]
  refine ⟨?_, fun block hne => Memory.read_write_of_disjoint ?_⟩
  · have hread := Memory.read_write_self s.data (b * blockSize) data
    rwa [hlen] at hread
  · rw [hlen]
    rcases Nat.lt_or_gt_of_ne hne with hlt | hgt
    · have hle := Nat.mul_le_mul_right blockSize (Nat.succ_le_of_lt hlt)
      rw [Nat.succ_mul] at hle
      exact Or.inl hle
    · have hle := Nat.mul_le_mul_right blockSize (Nat.succ_le_of_lt hgt)
      rw [Nat.succ_mul] at hle
      exact Or.inr hle

end StorageM

/-! ## A device in memory -/

namespace Storage

theorem writeRefused_memory {s : Storage} (hbackend : s.backend = .memory) {offset n : ℕ}
    (h : offset + n ≤ s.size) : s.writeRefused offset n = none := by
  unfold writeRefused
  rw [hbackend]
  exact if_neg (by omega)

theorem writeBlockRefused_memory {s : Storage} (hbackend : s.backend = .memory) {block : ℕ}
    {data : List UInt8} (h : block * blockSize + data.length ≤ s.size) :
    s.writeBlockRefused block data = none := by
  unfold writeBlockRefused
  rw [hbackend]
  exact writeRefused_memory hbackend h

end Storage

/-- A device in memory that does not fail. -/
structure Storage.Steady (s : Storage) : Prop where
  backend : s.backend = .memory
  faults : s.faults = []

namespace Storage.Steady

variable {s : Storage} (h : s.Steady) {block : ℕ} (hblock : (block + 1) * blockSize ≤ s.size)

include h hblock

theorem readBlock : StorageM.readBlock block s = .ok (s.block block) s := by
  have hresult : s.readResult (block * blockSize) blockSize = .ok (s.block block) := by
    unfold Storage.readResult
    rw [h.backend]
    rw [Nat.succ_mul] at hblock
    exact if_neg (by omega)
  unfold StorageM.readBlock
  rw [StorageM.readBytes_eq h.faults, hresult]
  rfl

theorem writeBlock {data : List UInt8} (hlen : data.length = blockSize) :
    ∃ s', StorageM.writeBlock block data s = .ok () s' ∧ s'.Steady ∧ s'.size = s.size := by
  rw [Nat.succ_mul] at hblock
  have haccepted := Storage.writeBlockRefused_memory h.backend (show block * blockSize + data.length ≤ s.size by
    omega)
  exact ⟨_, StorageM.writeBlock_ok h.faults haccepted, ⟨h.backend, h.faults⟩, rfl⟩

end Storage.Steady

end JfsFuse
