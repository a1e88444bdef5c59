import JfsFuse.Journal.LogManager

/-!
# Replaying the journal

`JournalRecovery::replay` of `recovery.rs`.  A forward scan collects the records
of the log, a backward pass over them notes the committed transactions and
writes the after-images of these to the filesystem, and a last write marks the
log superblock as replayed.

The log can lie inside the filesystem's own storage.  `Media` is the pair of
the two storages, with no second storage in that case.
-/

namespace JfsFuse

open ByteBuf Program

/-- The filesystem's storage, and the log's own if it has one. -/
structure Media where
  fs : Storage
  log : Option Storage := none

namespace Media

/-- The storage that holds the log. -/
def logStorage (m : Media) : Storage :=
  m.log.getD m.fs

def setLogStorage (storage : Storage) (m : Media) : Media :=
  match m.log with
  | some _ => { m with log := some storage }
  | none => { m with fs := storage }

end Media

/-- A log record with its payload. -/
abbrev LogRecord := Lrd × List UInt8

/-! ## Reading the log forward -/

namespace LogReader

/-- `read_bytes_eof_ok`: past the end of a file there are zeros. -/
def readBytesEofOk (offset n : ℕ) : StorageM (List UInt8) :=
  tryCatch (StorageM.readBytes offset n) fun
    | .unexpectedEof _ _ => return zeros n
    | e => throw e

/-- Bytes from one record to the next, for a payload of `dataLen` bytes. -/
def recordTotal (dataLen : ℕ) : ℕ :=
  (lrdSize + dataLen + 3) / 4 * 4

/-- `next_forward` at `pos`, in a log area that ends at `areaEnd`: the record
there and the position after it. -/
def nextForward (areaEnd pos : ℕ) : StorageM (Option (LogRecord × ℕ)) := do
  if areaEnd ≤ pos then return none
  else
    let peek ← readBytesEofOk pos 4
    if peek = zeros 4 then return none
    else
      let lrd := parseLrd (← readBytesEofOk pos lrdSize)
      let dataLen := lrd.length.toNat
      let data ← (if 0 < dataLen then StorageM.readBytes (pos + lrdSize) dataLen else pure [])
      return some ((lrd, data), pos + recordTotal dataLen)

/-- The loop of `find_end`.  Every step passes at least 36 bytes, so `fuel` is
enough when it reaches the end of the area. -/
def findEndFrom (areaEnd : ℕ) : ℕ → ℕ → StorageM ℕ
  | 0, pos => return pos
  | fuel + 1, pos => do
      if areaEnd ≤ pos then return pos
      else
        let peek ← readBytesEofOk pos 4
        if peek = zeros 4 then return pos
        else
          let lrd := parseLrd (← readBytesEofOk pos lrdSize)
          findEndFrom areaEnd fuel (pos + recordTotal lrd.length.toNat)

/-- The forward scan of `replay`: the records that end at or before `logEnd`,
and the position the reader is left at. -/
def collect (areaEnd dataStart logEnd : ℕ) : ℕ → ℕ → StorageM (List LogRecord × ℕ)
  | 0, pos => return ([], pos)
  | fuel + 1, pos => do
      match ← nextForward areaEnd pos with
      | none => return ([], pos)
      | some (record, pos') =>
          if logEnd < pos' - dataStart then return ([], pos')
          else
            let (records, last) ← collect areaEnd dataStart logEnd fuel pos'
            return (record :: records, last)

/-- The first phase of `replay`.  The end of the log is taken from the
superblock, or searched for if that has none; `find_end` returns an absolute
position, which is then used as one relative to `dataStart`. -/
def scan (logsuper : LogSuper) (dataStart : ℕ) : StorageM (List LogRecord × ℕ) := do
  let areaSize := logsuper.size.toNat * logPSize
  let areaEnd := dataStart + areaSize
  let logEnd ← (if 0 < logsuper.logEnd.toNat then pure logsuper.logEnd.toNat
    else findEndFrom areaEnd areaSize dataStart)
  collect areaEnd dataStart logEnd areaSize dataStart

end LogReader

/-! ## The state of a recovery -/

/-- What the replay remembers about a page. -/
structure PageTracker where
  summary : UInt8 := 0
  inodeSlots : UInt8 := 0
  deriving DecidableEq, Repr

namespace PageTracker

def isComplete (tracker : PageTracker) : Bool :=
  tracker.summary == 0xff

def setNoRedo (tracker : PageTracker) : PageTracker :=
  { tracker with summary := 0xff }

end PageTracker

/-- The mount state of a volume in the log; volumes start out dirty. -/
inductive VolumeStatus
  | clean
  | dirty
  | logredo
  deriving DecidableEq, Repr

/-- `JournalRecovery`.  The tables are maps; a tracker table entry is found by
the address of its page. -/
structure JournalRecovery where
  logsuper : LogSuper
  /-- `CommitTracker`: the tids of the commit records seen. -/
  commits : List UInt32 := []
  pages : ℕ → Option PageTracker := fun _ => none
  noRedoFiles : List UInt32 := []
  volumes : UInt32 → VolumeStatus := fun _ => .dirty

structure RecoveryState where
  recovery : JournalRecovery
  media : Media

abbrev RecoveryM := EStateM StorageError RecoveryState

namespace JournalRecovery

/-- `JournalRecovery::new`. -/
def new (logsuper : LogSuper) : JournalRecovery :=
  { logsuper }

/-- `PageTrackerTable::find_or_create`: a missing tracker is created fresh. -/
def findOrCreate (r : JournalRecovery) (addr : ℕ) : JournalRecovery :=
  match r.pages addr with
  | some _ => r
  | none => { r with pages := Function.update r.pages addr (some {}) }

def onFs {α : Type} : StorageM α → RecoveryM α :=
  zoom (fun s => s.media.fs) fun fs s => { s with media := { s.media with fs } }

def onLog {α : Type} : StorageM α → RecoveryM α :=
  zoom (fun s => s.media.logStorage) fun log s => { s with media := s.media.setLogStorage log }

/-- Change the recovery's tables. -/
def modifyRecovery (f : JournalRecovery → JournalRecovery) : RecoveryM Unit :=
  modify fun s => { s with recovery := f s.recovery }

@[simp] theorem modifyRecovery_apply (f : JournalRecovery → JournalRecovery) (s : RecoveryState) :
    modifyRecovery f s = .ok () { s with recovery := f s.recovery } := rfl

/-- What `update_page` notes after it has written an inode page.  A new tracker
is marked, but the table then gets a fresh one instead of it. -/
def noteInodePage (addr : ℕ) (r : JournalRecovery) : JournalRecovery :=
  match r.pages addr with
  | some tracker =>
      { r with
        pages := Function.update r.pages addr
          (some { inodeSlots := 0x07, summary := tracker.summary ||| 0x07 }) }
  | none => r.findOrCreate addr

/-- `update_page`. -/
def updatePage (lrd : Lrd) (data : List UInt8) : RecoveryM Unit := do
  let pageAddr := lrd.redopagePxd.address
  let r := (← get).recovery
  if (r.pages pageAddr).any PageTracker.isComplete then return ()
  else if lrd.redopageType = logInode then
    onFs (StorageM.writeBlock pageAddr data)
    modifyRecovery (noteInodePage pageAddr)
  else if lrd.redopageType &&& logData ≠ 0 then
    onFs (StorageM.writeBlock pageAddr data)
  else return ()

/-- `do_after`. -/
def doAfter (lrd : Lrd) (data : List UInt8) : RecoveryM Unit := do
  let r := (← get).recovery
  if r.volumes lrd.aggregate = .clean ∨ r.volumes lrd.aggregate = .logredo then return ()
  else if lrd.redopageType ≠ logInode ∧ lrd.inode ∈ r.noRedoFiles then return ()
  else updatePage lrd data

/-- Mark the tracker of `addr` as "no redo"; a missing one is created, and is
left unmarked. -/
def filterPage (addr : ℕ) (r : JournalRecovery) : JournalRecovery :=
  match r.pages addr with
  | some tracker => { r with pages := Function.update r.pages addr (some tracker.setNoRedo) }
  | none => r.findOrCreate addr

/-- `do_no_redo_page`. -/
def doNoRedoPage (lrd : Lrd) : RecoveryM Unit :=
  modifyRecovery (filterPage lrd.redopagePxd.address)

/-- The loop of `do_no_redo_ino_ext`.  A new tracker is keyed by the address
packed into a `Pxd`, which keeps 40 bits. -/
def filterPages (r : JournalRecovery) : ℕ → ℕ → JournalRecovery
  | _, 0 => r
  | addr, count + 1 =>
      let r' := match r.pages addr with
        | some _ => filterPage addr r
        | none => r.findOrCreate ((Pxd.setAddress {} addr).setLength 1).address
      filterPages r' (addr + blockSize) count

/-- `do_no_redo_ino_ext`. -/
def doNoRedoInoExt (lrd : Lrd) : RecoveryM Unit :=
  let pages := (lrd.redopagePxd.length + blockSize - 1) / blockSize
  modifyRecovery fun r => filterPages r lrd.redopagePxd.address (min pages 4)

/-- `process_record`.  An `UPDATEMAP` record only edits a working map that the
recovery never loads, so it changes nothing, and the source's second test for
`LOG_COMMIT` is never reached with such a record. -/
def processRecord (lrd : Lrd) (data : List UInt8) : RecoveryM Unit := do
  let r := (← get).recovery
  if lrd.isCommit then modifyRecovery fun r => { r with commits := lrd.logtid :: r.commits }
  else if lrd.isMount then
    modifyRecovery fun r => { r with volumes := Function.update r.volumes lrd.aggregate .clean }
  else if lrd.isSyncpt then return ()
  else if lrd.logtid ∉ r.commits then return ()
  else if lrd.isRedopage then doAfter lrd data
  else if lrd.isNoredopage then doNoRedoPage lrd
  else if lrd.isNoredoinoext then doNoRedoInoExt lrd
  else return ()

/-- The backward pass over `records`, given newest first.  `lastAddr` is the
address of the last sync point seen, 0 for none. -/
def backward (dataStart readerPos : ℕ) : ℕ → List LogRecord → RecoveryM Unit
  | _, [] => return ()
  | lastAddr, (lrd, data) :: rest => do
      processRecord lrd data
      let lastAddr :=
        if lrd.isSyncpt ∧ 0 < lrd.syncptSync then dataStart + lrd.syncptSync * logPSize
        else lastAddr
      if 0 < lastAddr ∧ readerPos ≤ lastAddr then return ()
      else backward dataStart readerPos lastAddr rest

/-- The 128 bytes the finalisation writes over the log superblock. -/
def finalBytes (s : LogSuper) : List UInt8 :=
  splice (zeros 128) 0 (LogManager.superWords s)

/-- Set the state of the superblock to `LOGREDONE`. -/
def markReplayed (r : JournalRecovery) : JournalRecovery :=
  { r with logsuper := { r.logsuper with state := UInt32.ofNat logRedone } }

/-- The three phases of `replay`: scan, backward pass, finalisation. -/
def replayLog (logsuper : LogSuper) (dataStart : ℕ) : RecoveryM Unit := do
  let (records, readerPos) ← onLog (LogReader.scan logsuper dataStart)
  backward dataStart readerPos 0 records.reverse
  modifyRecovery markReplayed
  let final := (← get).recovery.logsuper
  onLog (StorageM.writeBytes (dataStart - blockSize) (finalBytes final))

/-- `replay`, for a log whose data starts at byte `dataStart`. -/
def replay (dataStart : ℕ) : RecoveryM Unit := do
  let logsuper := (← get).recovery.logsuper
  if logsuper.state.toNat = logRedone then return ()
  else replayLog logsuper dataStart

end JournalRecovery

end JfsFuse
