import JfsFuse.Volume.Inode

/-!
# Names and links

The operations of `volume.rs` on directories: making and removing files, directories,
special files, symbolic links and hard links, renaming, and the handles that keep an
unlinked file alive.

A place where the source calls `abort_transaction` and returns is an exit `.abort` of the
body.  Every other failure is passed on with `?`, as an error of the body.
-/

namespace JfsFuse

open ByteBuf Program

/-- `encode_utf16`. -/
def encodeUtf16 (name : String) : List UInt16 :=
  name.toList.flatMap fun c =>
    let n := c.toNat
    if n < 0x10000 then [UInt16.ofNat n]
    else [UInt16.ofNat (0xD800 + (n - 0x10000) / 0x400), UInt16.ofNat (0xDC00 + (n - 0x10000) % 0x400)]

/-- The names that fit into a slot of a directory root. -/
def validName (name : List UInt16) : Bool :=
  name ≠ [] && name.length ≤ 11

namespace Volume

/-! ## Directories -/

/-- Run a program on a directory root. -/
def runDtree {α : Type} (x : Dtree.DtreeM α) (dtree : Dtree) : VolM (α × Dtree) :=
  match x dtree with
  | .ok a dtree => return (a, dtree)
  | .error e _ => throw e

/-- The directory root of an inode. -/
def readDtree (inode : Inode) : VolM Dtree :=
  returnExcept inode.dtree

/-- The number of entries, 0 if they cannot be listed. -/
def numEntries (dtree : Dtree) : VolM UInt32 :=
  match dtree.entries with
  | .ok entries => return UInt32.ofNat entries.length
  | .error .panic => throw .panic
  | .error _ => return 0

/-- The index for a new entry of a directory. -/
def nextEntryIndex (parentIno : UInt32) : VolM UInt32 := do
  let parent ← readInode parentIno
  numEntries (← readDtree parent)

/-- `insert_dir_entry`: false when the name exists or the root is full. -/
def insertDirEntry (parentIno : UInt32) (name : List UInt16) (childIno index : UInt32) :
    VolM Bool := do
  let inode ← readInode parentIno
  let (inserted, dtree) ← runDtree (Dtree.insert name childIno index) (← readDtree inode)
  if inserted then updateInode parentIno inode (Dinode.setRoot dtree.toBytes)
  return inserted

/-- `remove_dir_entry`: the inode number of the entry. -/
def removeDirEntry (parentIno : UInt32) (name : List UInt16) : VolM (Option UInt32) := do
  let inode ← readInode parentIno
  let (removed, dtree) ← runDtree (Dtree.remove name) (← readDtree inode)
  if removed.isSome then updateInode parentIno inode (Dinode.setRoot dtree.toBytes)
  return removed

/-- Mark the page of an inode, read again, as dirty. -/
def markInodeDirty (ino : UInt32) : VolM Unit := do
  let inode ← readInode ino
  markPageDirty ino inode.pageBlock

/-- Change the link count of an inode and mark its page. -/
def changeNlink (ino : UInt32) (f : ℕ → ℕ) : VolM Unit := do
  let inode ← readInode ino
  updateInode ino inode fun dinode => Dinode.setNlink (f (Dinode.nlink dinode)) dinode
  markPageDirty ino inode.pageBlock

/-- `nlink + 1` of a `u32`. -/
def addLink (nlink : ℕ) : ℕ :=
  (nlink + 1) % 2 ^ 32

/-- `nlink - 1` of a `u32`. -/
def subLink (nlink : ℕ) : ℕ :=
  (nlink + (2 ^ 32 - 1)) % 2 ^ 32

/-! ## New inodes -/

/-- What every new inode is given: mode, size, no blocks, link count, fileset and number. -/
def newDinode (mode size nlink : ℕ) (ino : UInt32) (dinode : List UInt8) : List UInt8 :=
  Dinode.setNumber (ino.toNat - filesystemI) (Dinode.setFileset filesystemI
    (Dinode.setNlink nlink (Dinode.setNblocks 0 (Dinode.setSize size (Dinode.setMode mode dinode)))))

/-- Initialise a new inode, enter it into its directory and mark both.  The steps that
`create_file`, `mknod` and `symlink` share. -/
def enterInode (parentIno : UInt32) (name : List UInt16) (child : UInt32 × ℕ × ℕ)
    (init : List UInt8 → List UInt8) : VolM (Exit UInt32 UInt32) := do
  let (childIno, childBlock, childOff) := child
  updateInodePage childIno childBlock childOff init
  markPageDirty childIno childBlock
  let index ← nextEntryIndex parentIno
  let inserted ← insertDirEntry parentIno name childIno index
  if !inserted then return .abort (.error .alreadyExists)
  markInodeDirty parentIno
  return .commit childIno

def createFileBody (parentIno : UInt32) (name : List UInt16) : VolM (Exit UInt32 UInt32) := do
  let child ← allocateInode
  if !validName name then return .abort (.error .invalidName)
  enterInode parentIno name child (newDinode 0x81a4 0 1 child.1)

/-- `create_file`. -/
def createFile (parentIno : UInt32) (name : String) : VolM UInt32 :=
  transaction (createFileBody parentIno (encodeUtf16 name))

/-- The directory root of a new directory, with `.` in slot 1 and `..` in slot 2.  The rest of
the bytes stays as it is. -/
def initDtroot (ino parentIno : UInt32) (dtroot : List UInt8) : List UInt8 :=
  spliceAll
    [(16, [0x83, 2, 0, 0]), (20, leBytes 4 parentIno.toNat), (24, [1, 2]),
      (32, leBytes 4 ino.toNat), (37, [1]), (38, leBytes 2 0x2E), (60, leBytes 4 0),
      (64, leBytes 4 parentIno.toNat), (69, [2]), (70, leBytes 2 0x2E), (72, leBytes 2 0x2E),
      (92, leBytes 4 1)] dtroot

def newDirectory (ino parentIno : UInt32) (dinode : List UInt8) : List UInt8 :=
  let dinode := newDinode 0x41ED 0 2 ino dinode
  splice dinode Dinode.rootOff (initDtroot ino parentIno (Dinode.root dinode))

def mkdirBody (parentIno : UInt32) (name : List UInt16) : VolM (Exit UInt32 UInt32) := do
  let (childIno, childBlock, childOff) ← allocateInode
  if !validName name then return .abort (.error .invalidName)
  updateInodePage childIno childBlock childOff (newDirectory childIno parentIno)
  markPageDirty childIno childBlock
  let index ← nextEntryIndex parentIno
  let inserted ← insertDirEntry parentIno name childIno index
  if !inserted then return .abort (.error .alreadyExists)
  changeNlink parentIno addLink
  return .commit childIno

/-- `mkdir`. -/
def mkdir (parentIno : UInt32) (name : String) : VolM UInt32 :=
  transaction (mkdirBody parentIno (encodeUtf16 name))

/-- The file types that `mknod` makes: FIFO, character device, block device and socket. -/
def specialTypes : List ℕ :=
  [0x1, 0x2, 0x6, 0xC]

def newSpecial (mode rdev : ℕ) (ino : UInt32) (dinode : List UInt8) : List UInt8 :=
  let dinode := newDinode mode 0 1 ino dinode
  -- the number of a device is stored in the place of `di_ixpxd`
  if mode / 0x1000 % 0x10 = 0x2 ∨ mode / 0x1000 % 0x10 = 0x6 then writeLE dinode 16 8 rdev
  else dinode

def mknodBody (parentIno : UInt32) (name : List UInt16) (mode rdev : ℕ) :
    VolM (Exit UInt32 UInt32) := do
  if !validName name then return .abort (.error .invalidName)
  if mode / 0x1000 % 0x10 ∉ specialTypes then return .abort (.error .invalidFileType)
  let child ← allocateInode
  enterInode parentIno name child (newSpecial mode rdev child.1)

/-- `mknod`; `mode` is a `u32` and `rdev` a `u64`. -/
def mknod (parentIno : UInt32) (name : String) (mode rdev : ℕ) : VolM UInt32 :=
  transaction (mknodBody parentIno (encodeUtf16 name) mode rdev)

/-- A new symbolic link with its target in the union area. -/
def newSymlink (target : List UInt8) (ino : UInt32) (dinode : List UInt8) : List UInt8 :=
  splice (newDinode 0xA1FF target.length 1 ino dinode) Dinode.unionOff target

def symlinkBody (parentIno : UInt32) (name : List UInt16) (target : List UInt8) :
    VolM (Exit UInt32 UInt32) := do
  let child ← allocateInode
  if !validName name then return .abort (.error .invalidName)
  if 128 ≤ target.length then return .abort (.error .notSupported)
  enterInode parentIno name child (newSymlink target child.1)

/-- `symlink`. -/
def symlink (parentIno : UInt32) (name target : String) : VolM UInt32 :=
  transaction (symlinkBody parentIno (encodeUtf16 name) target.toUTF8.toList)

/-- `read_symlink`.  A target of 128 bytes or more would lie in blocks, which is not supported. -/
def readSymlink (ino : UInt32) : VolM (List UInt8) := do
  let inode ← readInode ino
  if !Dinode.isSymlink inode.dinode then throw (.other "not a symbolic link")
  else if 0 < inode.size ∧ inode.size < 128 then return (Dinode.unionArea inode.dinode).take inode.size
  else throw (.other "symlink target not available")

/-! ## Links -/

def linkFileBody (parentIno : UInt32) (name : List UInt16) (targetIno : UInt32) :
    VolM (Exit UInt32 UInt32) := do
  let target ← readInode targetIno
  if target.isDir then return .abort (.error .cannotLinkDir)
  if !validName name then return .abort (.error .invalidName)
  let index ← nextEntryIndex parentIno
  let inserted ← insertDirEntry parentIno name targetIno index
  if !inserted then return .abort (.error .alreadyExists)
  updateInode targetIno target (Dinode.setNlink (addLink target.nlink))
  markPageDirty targetIno target.pageBlock
  markInodeDirty parentIno
  return .commit targetIno

/-- `link_file`. -/
def linkFile (parentIno : UInt32) (name : String) (targetIno : UInt32) : VolM UInt32 :=
  transaction (linkFileBody parentIno (encodeUtf16 name) targetIno)

/-- A freed inode; only mode, size and link count are cleared. -/
def freedDinode (dinode : List UInt8) : List UInt8 :=
  Dinode.setNlink 0 (Dinode.setSize 0 (Dinode.setMode 0 dinode))

def rmdirBody (parentIno : UInt32) (name : List UInt16) : VolM (Exit Bool Bool) := do
  match ← removeDirEntry parentIno name with
  | none => return .abort (.ok false)
  | some childIno =>
      let child ← readInode childIno
      if !child.isDir then return .abort (.error .notADirectory)
      let dtree ← readDtree child
      if 2 < dtree.nextIndex then return .abort (.error .directoryNotEmpty)
      updateInode childIno child freedDinode
      markPageDirty childIno child.pageBlock
      changeNlink parentIno subLink
      return .commit true

/-- `rmdir`. -/
def rmdir (parentIno : UInt32) (name : String) : VolM Bool :=
  transaction (rmdirBody parentIno (encodeUtf16 name))

/-! ## Open handles and freeing -/

/-- `has_open_handles`.  The handles are counted for the block of an inode. -/
def hasOpenHandles (v : Volume) (pageBlock : ℕ) : Bool :=
  0 < v.openHandles pageBlock

/-- Return extents, as address and length, to the allocator.  A refusal is ignored. -/
def freeExtents (extents : List (ℕ × ℕ)) : VolM Unit :=
  modify fun v => { v with
    bmap := v.bmap.map fun bmap => extents.foldl (fun bmap extent =>
      match bmap.freeExtent ((Pxd.setLength {} extent.2).setAddress extent.1) with
      | .ok bmap => bmap
      | .error _ => bmap) bmap }

/-- The extents of a regular file, to be freed. -/
def extentsOf (inode : Inode) : List (ℕ × ℕ) :=
  if inode.isRegular then
    match inode.xtree with
    | .ok xtree => (xtree.truncateExtents 0).1
    | .error _ => []
  else []

def unlinkFileBody (parentIno : UInt32) (name : List UInt16) : VolM (Exit Bool Bool) := do
  match ← removeDirEntry parentIno name with
  | none => return .abort (.ok false)
  | some childIno =>
      let child ← readInode childIno
      if child.isDir then return .abort (.error .invalidFileType)
      let newNlink := child.nlink - 1
      if newNlink = 0 ∧ !(← get).hasOpenHandles child.pageBlock then
        updateInode childIno child freedDinode
        freeExtents (extentsOf child)
      else updateInode childIno child (Dinode.setNlink newNlink)
      markPageDirty childIno child.pageBlock
      markInodeDirty parentIno
      return .commit true

/-- `unlink_file`. -/
def unlinkFile (parentIno : UInt32) (name : String) : VolM Bool :=
  transaction (unlinkFileBody parentIno (encodeUtf16 name))

/-- `open_file`. -/
def openFile (ino : UInt32) : VolM Unit := do
  let inode ← readInode ino
  modify fun v => { v with
    openHandles := Function.update v.openHandles inode.pageBlock (v.openHandles inode.pageBlock + 1) }

def releaseFileBody (ino : UInt32) (inode : Inode) : VolM (Exit Unit Unit) := do
  if inode.nlink = 0 ∧ !(← get).hasOpenHandles inode.pageBlock then
    freeExtents (extentsOf inode)
    updateInode ino inode (Dinode.setMode 0)
    markPageDirty ino inode.pageBlock
  return .commit ()

/-- `release_file`.  The handle is given back before the transaction begins. -/
def releaseFile (ino : UInt32) : VolM Unit := do
  let inode ← readInode ino
  modify fun v => { v with
    openHandles := Function.update v.openHandles inode.pageBlock (v.openHandles inode.pageBlock - 1) }
  transaction (releaseFileBody ino inode)

/-! ## Renaming -/

/-- What refuses to put an inode in the place of another one. -/
def replaceRefused (childIsDir : Bool) (dest : Inode) : Except StorageError (Option StorageError) := do
  if dest.isDir && !childIsDir then return some (.other "cannot rename file over directory")
  if childIsDir && !dest.isDir then return some (.other "cannot rename directory over file")
  if childIsDir && dest.isDir then
    let entries ← (← dest.dtree).entries
    if entries ≠ [] then return some (.other "destination directory not empty")
  return none

/-- Point the `..` of a directory root to another parent. -/
def setParent (parentIno : UInt32) (dinode : List UInt8) : List UInt8 :=
  writeLE dinode (Dinode.rootOff + 20) 4 parentIno.toNat

/-- The links of a directory that was moved to another parent. -/
def moveDirectory (childIno oldParent newParent : UInt32) : VolM Unit := do
  let child ← readInode childIno
  updateInode childIno child (setParent newParent)
  markPageDirty childIno child.pageBlock
  changeNlink oldParent (· - 1)
  changeNlink newParent addLink

/-- The entry that a move replaces is removed first, and checked only then. -/
def removeReplaced (newParent : UInt32) (newName : List UInt16) (childIsDir : Bool) :
    VolM (Option StorageError) := do
  match ← removeDirEntry newParent newName with
  | none => return none
  | some destIno =>
      let dest ← readInode destIno
      match ← returnExcept (replaceRefused childIsDir dest) with
      | some e => return some e
      | none =>
          markPageDirty newParent dest.pageBlock
          return none

/-- A rename into another directory. -/
def renameAcross (oldParent : UInt32) (oldName : List UInt16) (newParent : UInt32)
    (newName : List UInt16) (childIno : UInt32) (childIsDir : Bool) : VolM (Exit Bool Bool) := do
  if let some e ← removeReplaced newParent newName childIsDir then return .abort (.error e)
  let index ← nextEntryIndex newParent
  let inserted ← insertDirEntry newParent newName childIno index
  if !inserted then return .abort (.error (.other "failed to insert directory entry"))
  markInodeDirty newParent
  let _ ← removeDirEntry oldParent oldName
  markInodeDirty oldParent
  if childIsDir then moveDirectory childIno oldParent newParent
  return .commit true

/-- Change the name of an entry, in place of the entry that had the new name. -/
def renameEntry (oldName newName : List UInt16) (childIno index : UInt32) : Dtree.DtreeM Unit := do
  if oldName ≠ newName then let _ ← Dtree.remove oldName
  let _ ← Dtree.remove newName
  let _ ← Dtree.insert newName childIno index

/-- A rename within a directory that has been checked, with the entries of `dtree`. -/
def renameChecked (parentIno : UInt32) (oldName newName : List UInt16) (childIno : UInt32) (dtree : Dtree) :
    VolM (Exit Bool Bool) := do
  let index ← numEntries dtree
  let parent ← readInode parentIno
  let (_, dtree) ← runDtree (renameEntry oldName newName childIno index) (← readDtree parent)
  updateInode parentIno parent (Dinode.setRoot dtree.toBytes)
  markPageDirty parentIno parent.pageBlock
  return .commit true

/-- A rename within a directory. -/
def renameWithin (parentIno : UInt32) (oldName newName : List UInt16) (childIno : UInt32)
    (childIsDir : Bool) : VolM (Exit Bool Bool) := do
  let parent ← readInode parentIno
  let dtree ← readDtree parent
  if let some entry ← returnExcept (dtree.lookup newName) then
    let dest ← readInode entry.inumber
    if let some e ← returnExcept (replaceRefused childIsDir dest) then return .abort (.error e)
  let index ← numEntries dtree
  let parent ← readInode parentIno
  let (_, dtree) ← runDtree (renameEntry oldName newName childIno index) (← readDtree parent)
  updateInode parentIno parent (Dinode.setRoot dtree.toBytes)
  markPageDirty parentIno parent.pageBlock
  return .commit true

def renameBody (oldParent : UInt32) (oldName : List UInt16) (newParent : UInt32)
    (newName : List UInt16) : VolM (Exit Bool Bool) := do
  if !validName oldName then return .abort (.error (.other "invalid source filename length"))
  if !validName newName then return .abort (.error (.other "invalid destination filename length"))
  let parent ← readInode oldParent
  match ← returnExcept ((← readDtree parent).lookup oldName) with
  | none => return .abort (.error .notFound)
  | some entry =>
      let child ← readInode entry.inumber
      if oldParent ≠ newParent then
        renameAcross oldParent oldName newParent newName entry.inumber child.isDir
      else renameWithin oldParent oldName newName entry.inumber child.isDir

/-- `rename`. -/
def rename (oldParent : UInt32) (oldName : String) (newParent : UInt32) (newName : String) :
    VolM Bool :=
  transaction (renameBody oldParent (encodeUtf16 oldName) newParent (encodeUtf16 newName))

end Volume

end JfsFuse
