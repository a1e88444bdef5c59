import JfsFuse.Journal.Record
import JfsFuse.Storage

/-!
# Writing the journal

The log manager of `logmgr.rs`.  Records are collected in a buffer of two log
pages and written out page by page by `flushJournal`, which also stores the log
superblock with the new end of the log.  A record that does not fit in the rest
of the buffer starts at the next buffer boundary, so a gap of zero bytes stays
in front of it.

The source keeps the storage behind a shared pointer; here the programs run on
the pair of the manager and the storage.
-/

namespace JfsFuse

open ByteBuf Program

/-- `LOG_BUFFER_SIZE`, two log pages. -/
def logBufferSize : ℕ := 2 * logPSize

/-- The fields of `LogManager` that its methods use. -/
structure LogManager where
  logsuper : LogSuper
  /-- Bytes written to the log data area so far. -/
  writeOffset : ℕ := 0
  /-- Offset of the previous record of the transaction, 0 for none. -/
  prevRecordOffset : ℕ := 0
  logBuffer : List UInt8 := zeros logBufferSize
  bufferDirty : Bool := false
  /-- Byte offset of the log area in the storage. -/
  logBase : ℕ

/-- The manager and the storage it writes to. -/
structure LogState where
  manager : LogManager
  storage : Storage

/-- A program of the log manager. -/
abbrev LogM := EStateM StorageError LogState

namespace LogManager

/-- `LogManager::new`. -/
def new (logsuper : LogSuper) (logBase : ℕ) : LogManager :=
  { logsuper, logBase }

/-- `log_pages`, the size in the superblock the manager was made with. -/
def logPages (lm : LogManager) : ℕ :=
  lm.logsuper.size.toNat

def dataStart (lm : LogManager) : ℕ :=
  lm.logBase + blockSize * 2

/-- `read_super`, from the second block of the log area.  The `active` table is
not read. -/
def readSuper (logBase : ℕ) : StorageM LogSuper := do
  let data ← StorageM.readBytes (logBase + blockSize) blockSize
  let word (off : ℕ) : UInt32 := UInt32.ofNat (readLE data off 4)
  let bytes (off : ℕ) : Vector UInt8 16 := Vector.ofFn fun i => data.getD (off + i) 0
  return {
    magic := word 0, version := word 4, serial := word 8, size := word 12, bsize := word 16,
    l2bsize := word 20, flag := word 24, state := word 28, logEnd := word 32,
    uuid := bytes 36, label := bytes 52 }

/-- The fixed-size fields at the start of a log superblock. -/
def superWords (s : LogSuper) : List UInt8 :=
  [s.magic, s.version, s.serial, s.size, s.bsize, s.l2bsize, s.flag, s.state, s.logEnd].flatMap
    fun word => leBytes 4 word.toNat

/-- The bytes of a log superblock. -/
def superFields (s : LogSuper) : List UInt8 :=
  superWords s ++ s.uuid.toList ++ s.label.toList ++ s.active.toList.flatMap Vector.toList

/-- The page `write_super` stores. -/
def superBytes (s : LogSuper) : List UInt8 :=
  splice (zeros logPSize) 0 (superFields s)

/-- Run a storage program from a log program. -/
def onStorage {α : Type} : StorageM α → LogM α :=
  zoom LogState.storage fun storage s => { s with storage }

/-- Change the manager. -/
def modifyManager (f : LogManager → LogManager) : LogM Unit :=
  modify fun s => { s with manager := f s.manager }

def writeSuper (superBlock : LogSuper) : LogM Unit := do
  let lm := (← get).manager
  onStorage (StorageM.writeBytes (lm.logBase + blockSize) (superBytes superBlock))

def writePage (pageNum : ℕ) (data : List UInt8) : LogM Unit := do
  let lm := (← get).manager
  onStorage (StorageM.writeBytes (lm.dataStart + pageNum * logPSize) data)

/-- The page loop of `flush_journal`: pages `i`, `i + 1`, … of the buffer, `count`
of them, to log pages `startPage + i`, …. -/
def writePages (startPage : ℕ) : ℕ → ℕ → LogM Unit
  | _, 0 => return ()
  | i, count + 1 => do
      let lm := (← get).manager
      writePage (startPage + i) (slice lm.logBuffer (i * logPSize) logPSize)
      writePages startPage (i + 1) count

/-- The first part of `flush_journal`: write the pages of the buffer in use. -/
def writeBuffer : LogM Unit := do
  let lm := (← get).manager
  if lm.bufferDirty ∧ 0 < lm.writeOffset then
    let bufferStart := lm.writeOffset - lm.writeOffset % logBufferSize
    let bytesInBuffer := lm.writeOffset - bufferStart
    let dirtyPages := (bytesInBuffer + logPSize - 1) / logPSize
    writePages (bufferStart / logPSize % 2 ^ 32) 0 dirtyPages
  else return ()

/-- `flush_journal`. -/
def flushJournal : LogM Unit := do
  writeBuffer
  onStorage StorageM.flushMetadata
  onStorage StorageM.sync
  modifyManager fun lm =>
    { lm with logsuper := { lm.logsuper with logEnd := UInt32.ofNat lm.writeOffset } }
  writeSuper (← get).manager.logsuper

/-- Flush the buffer and start a new one at the next buffer boundary, unless
`recordTotal` more bytes fit. -/
def makeRoom (recordTotal : ℕ) : LogM Unit := do
  let lm := (← get).manager
  if logBufferSize < lm.writeOffset % logBufferSize + recordTotal then
    flushJournal
    modifyManager fun lm =>
      { lm with
        logBuffer := zeros logBufferSize
        bufferDirty := false
        writeOffset := (lm.writeOffset + logBufferSize - 1) / logBufferSize * logBufferSize }
  else return ()

/-- `log_buffer[off..off + bytes.len()].copy_from_slice(bytes)`. -/
def copyToBuffer (off : ℕ) (bytes : List UInt8) : LogM Unit := do
  let lm := (← get).manager
  if lm.logBuffer.length < off + bytes.length then throw .panic
  else modifyManager fun lm => { lm with logBuffer := splice lm.logBuffer off bytes }

/-- The descriptor of an after-image of `block`. -/
def redoLrd (txid block prevRecordOffset dataLen : ℕ) : Lrd where
  logtid := UInt32.ofNat txid
  backchain := UInt32.ofNat prevRecordOffset
  type := logRedopage
  length := UInt16.ofNat dataLen
  redopageType := logInode
  redopagePxd := (Pxd.setAddress {} block).setLength 1

/-- The descriptor that commits transaction `txid`. -/
def commitLrd (txid prevRecordOffset : ℕ) : Lrd where
  logtid := UInt32.ofNat txid
  backchain := UInt32.ofNat prevRecordOffset
  type := logCommit

/-- `append_log_record`: the after-image `data` of a metadata block. -/
def appendLogRecord (txid block : ℕ) (data : List UInt8) : LogM Unit := do
  makeRoom (lrdSize + data.length)
  let lm := (← get).manager
  let bufOff := lm.writeOffset % logBufferSize
  copyToBuffer bufOff (lrdBytes (redoLrd txid block lm.prevRecordOffset data.length))
  modifyManager fun lm => { lm with bufferDirty := true }
  copyToBuffer (bufOff + lrdSize) data
  modifyManager fun lm =>
    { lm with
      writeOffset := lm.writeOffset + (lrdSize + data.length)
      prevRecordOffset := lm.writeOffset }

/-- `commit_transaction`: a commit record, then a flush. -/
def commitTransaction (txid : ℕ) : LogM Unit := do
  makeRoom lrdSize
  let lm := (← get).manager
  copyToBuffer (lm.writeOffset % logBufferSize) (lrdBytes (commitLrd txid lm.prevRecordOffset))
  modifyManager fun lm =>
    { lm with bufferDirty := true, writeOffset := lm.writeOffset + lrdSize }
  flushJournal
  modifyManager fun lm => { lm with prevRecordOffset := 0 }

end LogManager

end JfsFuse
