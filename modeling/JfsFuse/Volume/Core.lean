import JfsFuse.Alloc.Dmap
import JfsFuse.Journal.LogManager
import JfsFuse.PageCache

/-!
# Transactions on a volume

The state of a mounted volume, the transaction manager of `transaction.rs`, and
the methods of `volume.rs` that every operation is built from.

The journal is inline: the source makes a log manager only for a log that lies in
the storage of the filesystem, so the volume has one storage.
-/

namespace JfsFuse

open ByteBuf Program

/-- A transaction in progress. -/
structure ActiveTxn where
  txid : ℕ
  /-- Inode and block of the pages marked dirty, the first one in front. -/
  dirtyPages : List (UInt32 × ℕ) := []
  allocated : List ℕ := []
  deriving DecidableEq, Repr

structure TransactionManager where
  nextTxid : ℕ := 1
  active : Option ActiveTxn := none
  lastCommitted : ℕ := 0
  deriving DecidableEq, Repr

structure CommitResult where
  pagesWritten : ℕ
  txid : ℕ
  deriving DecidableEq, Repr

/-- A call of `alloc_extent` that returned: the map before it, the request and the extent. -/
structure Allocation where
  bmap : BlockAllocMap
  nblocks : ℕ
  hint : ℕ
  pxd : Pxd

/-- The fields of `Volume` that its operations use.  One field has no counterpart in the
source: `allocations` records what the allocator returned, oldest first, so that theorems
can speak about all allocations of a run. -/
structure Volume where
  /-- `sb.s_ait2`, where the inode table starts. -/
  ait2 : Pxd
  aggSize : ℕ
  log : Option LogManager
  txMgr : TransactionManager := {}
  storage : Storage
  pageCache : PageCache := PageCache.new 256
  bmap : Option BlockAllocMap
  /-- Open handles, by the block of the inode. -/
  openHandles : ℕ → ℕ := fun _ => 0
  allocations : List Allocation := []

/-- A program on a volume. -/
abbrev VolM := EStateM StorageError Volume

namespace Volume

/-- Run a storage program. -/
def onStorage {α : Type} : StorageM α → VolM α :=
  zoom Volume.storage fun storage v => { v with storage }

/-- Run a program of the log manager, if there is a log. -/
def onLog (x : LogM Unit) : VolM Unit := fun v =>
  match v.log with
  | none => .ok () v
  | some manager =>
      match x ⟨manager, v.storage⟩ with
      | .ok _ s => .ok () { v with log := some s.manager, storage := s.storage }
      | .error e s => .error e { v with log := some s.manager, storage := s.storage }

def modifyCache (f : PageCache → PageCache) : VolM Unit :=
  modify fun v => { v with pageCache := f v.pageCache }

def modifyTxMgr (f : TransactionManager → TransactionManager) : VolM Unit :=
  modify fun v => { v with txMgr := f v.txMgr }

/-! ## The page cache -/

/-- `PageCache::get`. -/
def getPage (inode : UInt32) (block : ℕ) : VolM (Option CachedPage) := do
  let cache := (← get).pageCache
  modifyCache fun _ => (cache.get (inode, block)).2
  return cache.peek (inode, block)

/-- The data for a page that is not cached: a copy of the page of another inode for
the same block, or else the block.  A block that cannot be read counts as empty. -/
def loadData (inode : UInt32) (block : ℕ) : VolM (List UInt8) := do
  match (← get).pageCache.otherCopy inode block with
  | some data => return data
  | none => tryCatch (onStorage (StorageM.readBlock block)) fun _ => return []

/-- `PageCache::get_or_load`. -/
def getOrLoad (inode : UInt32) (block index : ℕ) : VolM CachedPage := do
  match ← getPage inode block with
  | some page => return page
  | none =>
      let data ← loadData inode block
      let page : CachedPage := { block, data, inode := some inode, index }
      modifyCache fun cache => Lru.put cache (inode, block) page
      return page

/-- The change of a page that `update` of one inode makes. -/
def updateAt (pageOffset : ℕ) (update : List UInt8 → List UInt8) (data : List UInt8) : List UInt8 :=
  if pageOffset + disize ≤ data.length then
    splice data pageOffset (update (slice data pageOffset disize))
  else data

/-- `update_inode_page`: change the bytes of an inode in its cached page. -/
def updateInodePage (ino : UInt32) (pageBlock pageOffset : ℕ) (update : List UInt8 → List UInt8) :
    VolM Unit := do
  let _ ← getOrLoad ino pageBlock 0
  let cache ← returnExcept ((← get).pageCache.updateForWrite ino pageBlock fun page =>
    { page with data := updateAt pageOffset update page.data })
  modifyCache fun _ => PageCache.unpinPage cache ino pageBlock

/-! ## Transactions -/

/-- `begin_transaction`. -/
def beginTransaction : VolM ℕ := do
  let txMgr := (← get).txMgr
  if txMgr.active.isSome then throw (.other "transaction already in progress")
  else
    let txid := txMgr.nextTxid
    modifyTxMgr fun txMgr =>
      { txMgr with nextTxid := (txid + 1) % 2 ^ 64, active := some { txid } }
    return txid

/-- The volume after a transaction has begun. -/
def begun (v : Volume) : Volume :=
  { v with
    txMgr := { v.txMgr with
      nextTxid := (v.txMgr.nextTxid + 1) % 2 ^ 64
      active := some { txid := v.txMgr.nextTxid } } }

theorem beginTransaction_of_idle {v : Volume} (h : v.txMgr.active = none) :
    beginTransaction v = .ok v.txMgr.nextTxid v.begun := by
  unfold beginTransaction
  rw [bind_ok (get_apply v), h]
  rfl

/-- `mark_page_dirty`.  The page need not be cached. -/
def markPageDirty (inode : UInt32) (block : ℕ) : VolM Unit := do
  match (← get).txMgr.active with
  | none => throw (.other "no active transaction")
  | some active =>
      modifyCache fun cache => cache.markDirtyTxn inode block active.txid
      let dirtyPages :=
        if (inode, block) ∈ active.dirtyPages then active.dirtyPages
        else active.dirtyPages ++ [(inode, block)]
      modifyTxMgr fun txMgr => { txMgr with active := some { active with dirtyPages } }

/-- The transaction with a page marked dirty. -/
def marked (active : ActiveTxn) (key : UInt32 × ℕ) : ActiveTxn :=
  { active with
    dirtyPages := if key ∈ active.dirtyPages then active.dirtyPages else active.dirtyPages ++ [key] }

/-- `record_allocation`. -/
def recordAllocation (block : ℕ) : VolM Unit := do
  match (← get).txMgr.active with
  | none => throw (.other "no active transaction")
  | some active =>
      modifyTxMgr fun txMgr =>
        { txMgr with active := some { active with allocated := active.allocated ++ [block] } }

/-- Run a part of a commit; when it fails, clean up the dirty pages. -/
def orAbortPages {α : Type} (dirtyPages : List (UInt32 × ℕ)) (x : VolM α) : VolM α :=
  tryCatch x fun e => do
    modifyCache fun cache => cache.abortPages dirtyPages
    throw e

/-- Append an after-image of each dirty page to the journal. -/
def journalPages (txid : ℕ) : List (UInt32 × ℕ) → VolM Unit
  | [] => return ()
  | (inode, block) :: rest => do
      if let some page ← getPage inode block then
        onLog (LogManager.appendLogRecord txid block page.data)
      journalPages txid rest

/-- Write each dirty page to its block; the number of pages written. -/
def writePages : List (UInt32 × ℕ) → VolM ℕ
  | [] => return 0
  | (inode, block) :: rest => do
      match ← getPage inode block with
      | some page =>
          onStorage (StorageM.writeBlock block page.data)
          return (← writePages rest) + 1
      | none => writePages rest

/-- Drop the pages that were written back. -/
def releasePages (dirtyPages : List (UInt32 × ℕ)) : VolM Unit :=
  modifyCache fun cache =>
    dirtyPages.foldl (fun cache page =>
      PageCache.release (cache.unpinPage page.1 page.2) page.1 page.2) cache

/-- The part of `TransactionManager::commit` that can fail. -/
def writeBack (active : ActiveTxn) : VolM ℕ := do
  orAbortPages active.dirtyPages (onStorage StorageM.flushData)
  if (← get).log.isSome then
    orAbortPages active.dirtyPages do
      journalPages active.txid active.dirtyPages
      onLog (LogManager.commitTransaction active.txid)
  let written ← orAbortPages active.dirtyPages (writePages active.dirtyPages)
  orAbortPages active.dirtyPages (onStorage StorageM.flushMetadata)
  return written

/-- `TransactionManager::commit`.  The transaction is closed first, whatever follows. -/
def commitPages : VolM CommitResult := do
  match (← get).txMgr.active with
  | none => throw (.other "no active transaction")
  | some active =>
      modifyTxMgr fun txMgr => { txMgr with active := none }
      let written ← writeBack active
      releasePages active.dirtyPages
      modifyTxMgr fun txMgr => { txMgr with lastCommitted := active.txid }
      return { pagesWritten := written, txid := active.txid }

/-- Write the allocation map back, if there is one. -/
def commitBmap : VolM Unit := do
  match (← get).bmap with
  | none => return ()
  | some bmap =>
      let bmap ← onStorage bmap.commit
      modify fun v => { v with bmap := some bmap }

/-- `commit_transaction`. -/
def commitTransaction : VolM CommitResult := do
  let result ← commitPages
  commitBmap
  return result

/-- `abort_transaction`: roll the allocation map back and close the transaction. -/
def abortTransaction : VolM Unit :=
  modify fun v =>
    let v := { v with bmap := v.bmap.map BlockAllocMap.rollback }
    match v.txMgr.active with
    | none => v
    | some active =>
        { v with
          txMgr := { v.txMgr with active := none }
          pageCache := v.pageCache.abortPages active.dirtyPages }

/-- How the body of an operation ends: it is to be committed with a result, or it has
called `abort_transaction` and returns. -/
inductive Exit (α β : Type)
  | commit (a : α)
  | abort (result : Except StorageError β)

/-- An operation: begin, the body, and its end.  An error of the body is one that the source
passes on with `?`; the transaction then stays open. -/
def transaction {α : Type} (body : VolM (Exit α α)) : VolM α := do
  let _ ← beginTransaction
  match ← body with
  | .commit a =>
      let _ ← commitTransaction
      return a
  | .abort result =>
      abortTransaction
      returnExcept result

end Volume

end JfsFuse
