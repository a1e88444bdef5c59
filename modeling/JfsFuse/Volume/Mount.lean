import JfsFuse.Alloc.Persistence
import JfsFuse.Journal.Recovery
import JfsFuse.Volume.Core

/-!
# Mounting

`Volume::open_from_storage`: read and check the superblock, set up the log manager of an
inline log, replay the journal unless the log superblock says that this was done, and read
the allocation map.
-/

namespace JfsFuse

open ByteBuf Program

/-- The fields of `JfsSuperblock` that mounting uses. -/
structure Superblock where
  magic : List UInt8
  version : ℕ
  /-- `s_size`, in blocks. -/
  size : ℕ
  bsize : ℕ
  flag : ℕ
  ait2 : Pxd
  logpxd : Pxd
  deriving DecidableEq, Repr

namespace Superblock

/-- The fields in the bytes of the superblock. -/
def parse (data : List UInt8) : Superblock where
  magic := slice data 0 4
  version := readLE data 4 4
  size := readLE data 8 8
  bsize := readLE data 16 4
  flag := readLE data 36 4
  ait2 := Pxd.read data 48
  logpxd := Pxd.read data 72

/-- `JFS_MAGIC`. -/
def jfsMagic : List UInt8 :=
  [74, 70, 83, 49]

/-- `has_inline_log`, the bit 0x800 of the flags. -/
def hasInlineLog (sb : Superblock) : Bool :=
  sb.flag / 0x800 % 2 = 1

/-- `read_super`. -/
def readSuper : StorageM Superblock := do
  let data ← StorageM.readBytes super1Off blockSize
  return parse data

/-- `validate_super`: what refuses the superblock. -/
def validateSuper (sb : Superblock) : Option StorageError :=
  let version := sb.version
  if sb.magic ≠ jfsMagic then some .invalidSuperblock
  else if version < 1 ∨ 2 < version then some (.other s!"unsupported JFS version: {version}")
  else none

/-- `validate_against_superblock`, for a regular file, whose sectors have 512 bytes. -/
def validateGeometry (sb : Superblock) (storage : Storage) : Option StorageError :=
  let mediaSize := storage.size
  let declared := sb.size * sb.bsize
  match storage.backend with
  | .memory => none
  | .file _ =>
      if mediaSize < super1Off + blockSize then
        some (.other "device too small to hold JFS superblock")
      else if mediaSize < declared then
        some (.other
          s!"device media size {mediaSize} is smaller than filesystem declared size {declared}")
      else none

end Superblock

/-- Stop with the error, if there is one. -/
def refuse : Option StorageError → StorageM Unit
  | none => return ()
  | some e => throw e

/-- `LOGMAGIC`. -/
def logMagic : ℕ := 0x87654321

/-- `LOGVERSION`. -/
def logVersion : ℕ := 1

namespace Volume

open Superblock

/-- `init_log`. -/
def initLog (sb : Superblock) : StorageM (Option LogManager) := do
  if sb.hasInlineLog then
    let logBase := sb.logpxd.address * blockSize
    let logsuper ← LogManager.readSuper logBase
    let version := logsuper.version.toNat
    if logsuper.magic.toNat ≠ logMagic then throw (.other "invalid log superblock magic")
    else if version ≠ logVersion then throw (.other s!"unsupported log version: {version}")
    else return some (LogManager.new logsuper logBase)
  else return none

/-- Run a program of a log manager; the manager afterwards. -/
def runLog (lm : LogManager) (x : LogM Unit) : StorageM LogManager := fun s =>
  match x ⟨lm, s⟩ with
  | .ok _ t => .ok t.manager t.storage
  | .error e t => .error e t.storage

/-- Replay the log, which lies in the storage of the filesystem. -/
def runReplay (lm : LogManager) : StorageM JournalRecovery := fun s =>
  match JournalRecovery.replay lm.dataStart ⟨.new lm.logsuper, { fs := s }⟩ with
  | .ok _ t => .ok t.recovery t.media.fs
  | .error e t => .error e t.media.fs

/-- `recover_journal`. -/
def recoverJournal : Option LogManager → StorageM (Option LogManager)
  | none => return none
  | some lm => do
      if lm.logsuper.state.toNat = logRedone then return some lm
      else
        let recovery ← runReplay lm
        let lm ← runLog lm do
          LogManager.writeSuper recovery.markReplayed.logsuper
          LogManager.onStorage StorageM.sync
        return some lm

/-- `open_from_storage`. -/
def openFromStorage : StorageM Volume := do
  let sb ← readSuper
  refuse sb.validateSuper
  if sb.bsize ≠ blockSize then throw (.unsupportedBlockSize sb.bsize)
  refuse (sb.validateGeometry (← get))
  let log ← initLog sb
  let log ← recoverJournal log
  let bmap ← BlockAllocMap.new
  return { ait2 := sb.ait2, aggSize := sb.size, log, storage := ← get, bmap := some bmap }

end Volume

/-! ## Mounting without a replay -/

namespace Superblock

/-- The superblock that `mkfs` writes. -/
def image (numBlocks : ℕ) : Superblock where
  magic := jfsMagic
  version := 1
  size := numBlocks
  bsize := blockSize
  flag := 0x10200900
  ait2 := Mkfs.makePxd 4 24
  logpxd := Mkfs.makePxd Mkfs.logAreaBlocks 3840

theorem parse_of_hasFields {data : List UInt8} {numBlocks : ℕ} (hmax : numBlocks < 2 ^ 64)
    (h : Mkfs.HasFields data numBlocks) : parse data = image numBlocks := by
  have hread : ∀ {off width n}, slice data off width = leBytes width n → n < 256 ^ width →
      readLE data off width = n := by
    intro off width n hfield hlt
    unfold readLE
    rw [hfield, leNat_leBytes, Nat.mod_eq_of_lt hlt]
  unfold parse image
  rw [h.magic, hread h.version (by decide), hread h.size (by omega), hread h.bsize (by decide),
    hread h.flag (by decide), Pxd.read_of_slice h.ait2, Pxd.read_of_slice h.logpxd]
  rfl

end Superblock

/-- The log superblock is of the known format and says that the log was replayed. -/
structure LogSuper.IsRedone (data : List UInt8) : Prop where
  magic : readLE data 0 4 = logMagic
  version : readLE data 4 4 = logVersion
  state : readLE data 28 4 = logRedone

namespace Volume

/-- The storage holds a filesystem as `mkfs` lays it out, with a journal that counts as replayed. -/
structure Replayed (s : Storage) (numBlocks : ℕ) (bmap : BlockAllocMap) : Prop extends s.Whole where
  superblock : Superblock.parse (Memory.read s.data super1Off blockSize) = Superblock.image numBlocks
  log : LogSuper.IsRedone (s.block 3841)
  map : BlockAllocMap.new s = .ok bmap s

/-- A volume that was just mounted. -/
def mounted (numBlocks : ℕ) (logsuper : LogSuper) (s : Storage) (bmap : BlockAllocMap) : Volume where
  ait2 := Mkfs.makePxd 4 24
  aggSize := numBlocks
  log := some (LogManager.new logsuper (3840 * blockSize))
  storage := s
  bmap := some bmap

theorem initLog_ok {s : Storage} {numBlocks : ℕ} {bmap : BlockAllocMap} (h : Replayed s numBlocks bmap) :
    ∃ logsuper, logsuper.state.toNat = logRedone ∧ initLog (Superblock.image numBlocks) s =
      .ok (some (LogManager.new logsuper (3840 * blockSize))) s := by
  have hbase : (Mkfs.makePxd Mkfs.logAreaBlocks 3840).address = 3840 := by decide
  have hsuper : StorageM.readBytes (3840 * blockSize + blockSize) blockSize s =
      .ok (s.block 3841) s := by
    rw [← Nat.succ_mul]
    exact h.readBlock (by decide)
  have hword : ∀ {off n}, readLE (s.block 3841) off 4 = n →
      (UInt32.ofNat (readLE (s.block 3841) off 4)).toNat = n := by
    intro off n hn
    have hlt : readLE (s.block 3841) off 4 < 256 ^ 4 := readLE_lt _ _ _
    rw [UInt32.toNat_ofNat', Nat.mod_eq_of_lt (by omega), hn]
  obtain ⟨logsuper, hread, hmagic, hversion, hstate⟩ : ∃ logsuper,
      LogManager.readSuper (3840 * blockSize) s = .ok logsuper s ∧ logsuper.magic.toNat = logMagic ∧
      logsuper.version.toNat = logVersion ∧ logsuper.state.toNat = logRedone := by
    exact ⟨_, bind_ok hsuper, hword h.log.magic, hword h.log.version, hword h.log.state⟩
  refine ⟨logsuper, hstate, ?_⟩
  unfold initLog
  rw [if_pos (by simp [Superblock.hasInlineLog, Superblock.image])]
  simp only [Superblock.image]
  rw [hbase, bind_ok hread, if_neg (not_not_intro hmagic), if_neg (not_not_intro hversion)]
  rfl

/-- **A log that counts as replayed** is not replayed: the mount changes nothing. -/
theorem openFromStorage_ok {s : Storage} {numBlocks : ℕ} {bmap : BlockAllocMap}
    (h : Replayed s numBlocks bmap) :
    ∃ logsuper, openFromStorage s = .ok (mounted numBlocks logsuper s bmap) s := by
  obtain ⟨logsuper, hstate, hlog⟩ := initLog_ok h
  have hsuper : Superblock.readSuper s = .ok (Superblock.image numBlocks) s := by
    unfold Superblock.readSuper
    rw [bind_ok (h.readBytes (by decide)), h.superblock]
    rfl
  have hgeometry : (Superblock.image numBlocks).validateGeometry s = none := by
    unfold Superblock.validateGeometry
    rw [h.backend]
  have hrecover : recoverJournal (some (LogManager.new logsuper (3840 * blockSize))) s =
      .ok (some (LogManager.new logsuper (3840 * blockSize))) s := by
    have hredone : (LogManager.new logsuper (3840 * blockSize)).logsuper.state.toNat = logRedone := hstate
    exact (congrFun (if_pos hredone) s).trans rfl
  refine ⟨logsuper, ?_⟩
  have hsize : (Superblock.image numBlocks).bsize = blockSize := rfl
  have hvalid : refuse (Superblock.image numBlocks).validateSuper s = .ok () s := rfl
  have hnone : refuse none s = .ok () s := rfl
  unfold openFromStorage
  rw [bind_ok hsuper, bind_ok hvalid, if_neg (not_not_intro hsize)]
  beta_reduce
  rw [bind_ok (get_apply s), hgeometry, bind_ok hnone, bind_ok hlog, bind_ok hrecover, bind_ok h.map]
  rfl

/-- A new filesystem can be mounted. -/
theorem replayed_create {numBlocks : ℕ} (hblocks : 4096 ≤ numBlocks) (hmax : numBlocks < 2 ^ 64) :
    Replayed (Mkfs.createFilesystemWithBlocks numBlocks) numBlocks
      (BlockAllocMap.loaded (Mkfs.createFilesystemWithBlocks numBlocks)) := by
  have hmap := BlockAllocMap.hasMap_create hblocks
  obtain ⟨-, -, -, hdata⟩ := Mkfs.createFilesystemWithBlocks_spec hblocks
  refine ⟨hmap.toWhole, ?_, ?_, BlockAllocMap.new_ok hmap⟩
  · refine Superblock.parse_of_hasFields hmax ?_
    have hslice : ∀ off n, off + n ≤ 184 → slice (Memory.read
        (Mkfs.createFilesystemWithBlocks numBlocks).data super1Off blockSize) off n =
        slice (Mkfs.superblock numBlocks) off n := by
      intro off n hin
      rw [Memory.slice_read _ (by unfold blockSize; omega), hdata, Mkfs.read_image_super numBlocks hin]
    have hfields := Mkfs.hasFields_superblock numBlocks
    constructor <;> rw [hslice _ _ (by decide)]
    · exact hfields.magic
    · exact hfields.version
    · exact hfields.size
    · exact hfields.bsize
    · exact hfields.flag
    · exact hfields.ait2
    · exact hfields.logpxd
  · have hread : ∀ off n, off + n ≤ 36 →
        readLE ((Mkfs.createFilesystemWithBlocks numBlocks).block 3841) off n =
          readLE (LogManager.superWords Mkfs.logSuper) off n := by
      intro off n hin
      unfold readLE Storage.block
      rw [Memory.slice_read _ (by unfold blockSize; omega), hdata, Mkfs.read_image_log numBlocks hin]
    constructor <;> rw [hread _ _ (by decide)] <;> decide

end Volume

end JfsFuse
