import JfsFuse.Btree.Dtree
import JfsFuse.Btree.Xtree
import JfsFuse.Volume.Core

/-!
# Inodes

The inode table of a volume, as `inode.rs` reads it and `allocate_inode` searches it.  An
inode is found by its fileset and its number, which both lie in its 512 bytes: the scan
goes over the blocks of the table and some blocks behind it, and looks at any cached copy
of a block before the block itself.
-/

namespace JfsFuse

open ByteBuf Program

/-- The inode bytes with the place they were read from. -/
structure Inode where
  dinode : List UInt8
  ino : UInt32
  pageBlock : ℕ
  pageOffset : ℕ
  deriving DecidableEq, Repr

/-! ## The fields of an inode -/

namespace Dinode

def fileset (dinode : List UInt8) : ℕ :=
  readLE dinode 4 4

def number (dinode : List UInt8) : ℕ :=
  readLE dinode 8 4

def size (dinode : List UInt8) : ℕ :=
  readLE dinode 24 8

def nblocks (dinode : List UInt8) : ℕ :=
  readLE dinode 32 8

def nlink (dinode : List UInt8) : ℕ :=
  readLE dinode 40 4

def mode (dinode : List UInt8) : ℕ :=
  readLE dinode 52 4

/-- The file type, from the bits 12 to 15 of the mode. -/
def fileType (dinode : List UInt8) : ℕ :=
  mode dinode / 0x1000 % 0x10

/-- `S_IFDIR`. -/
def isDir (dinode : List UInt8) : Bool :=
  fileType dinode = 0x4

/-- `S_IFREG`. -/
def isRegular (dinode : List UInt8) : Bool :=
  fileType dinode = 0x8

/-- `S_IFLNK`. -/
def isSymlink (dinode : List UInt8) : Bool :=
  fileType dinode = 0xA

/-- Offset of the union area. -/
def unionOff : ℕ := 128

/-- Offset of the extent root and of the directory root. -/
def rootOff : ℕ := 224

/-- The union area `u`. -/
def unionArea (dinode : List UInt8) : List UInt8 :=
  slice dinode unionOff (disize - unionOff)

/-- `xtroot_bytes` and `dtroot_bytes`. -/
def root (dinode : List UInt8) : List UInt8 :=
  slice dinode rootOff (disize - rootOff)

def setFileset (n : ℕ) (dinode : List UInt8) : List UInt8 :=
  writeLE dinode 4 4 n

def setNumber (n : ℕ) (dinode : List UInt8) : List UInt8 :=
  writeLE dinode 8 4 n

def setSize (n : ℕ) (dinode : List UInt8) : List UInt8 :=
  writeLE dinode 24 8 n

def setNblocks (n : ℕ) (dinode : List UInt8) : List UInt8 :=
  writeLE dinode 32 8 n

def setNlink (n : ℕ) (dinode : List UInt8) : List UInt8 :=
  writeLE dinode 40 4 n

def setMode (n : ℕ) (dinode : List UInt8) : List UInt8 :=
  writeLE dinode 52 4 n

/-- Write a root back to the end of the inode. -/
def setRoot (bytes : List UInt8) (dinode : List UInt8) : List UInt8 :=
  splice dinode (disize - bytes.length) bytes

end Dinode

namespace Inode

def size (inode : Inode) : ℕ :=
  Dinode.size inode.dinode

def nlink (inode : Inode) : ℕ :=
  Dinode.nlink inode.dinode

def nblocks (inode : Inode) : ℕ :=
  Dinode.nblocks inode.dinode

def isDir (inode : Inode) : Bool :=
  Dinode.isDir inode.dinode

def isRegular (inode : Inode) : Bool :=
  Dinode.isRegular inode.dinode

def xtree (inode : Inode) : Except StorageError Xtree :=
  Xtree.fromInodeData (Dinode.root inode.dinode)

def dtree (inode : Inode) : Except StorageError Dtree :=
  Dtree.fromInodeData (Dinode.root inode.dinode)

end Inode

namespace Volume

/-! ## The inode table -/

/-- Blocks that are scanned behind the inode table. -/
def scanSlack : ℕ := 32

/-- A block of the inode table: any cached copy, or else the block. -/
def tablePage (block : ℕ) : VolM (List UInt8) := do
  match (← get).pageCache.peekBlock block with
  | some page => return page.data
  | none => onStorage (StorageM.readBlock block)

/-- The search for an inode in a block, over `count` slots from slot `i` on. -/
def findSlot (data : List UInt8) (fileset number : ℕ) : ℕ → ℕ → Except StorageError (Option ℕ)
  | _, 0 => .ok none
  | i, count + 1 => do
      let dinode ← sliceOrPanic data (i * disize) disize
      if Dinode.fileset dinode = fileset ∧ Dinode.number dinode = number then return some (i * disize)
      else findSlot data fileset number (i + 1) count

/-- The scan of `find_inode_page`, over `count` blocks from `block` on. -/
def findInodeFrom (fileset number : ℕ) : ℕ → ℕ → VolM (Option (ℕ × ℕ))
  | _, 0 => return none
  | block, count + 1 => do
      if (← get).aggSize ≤ block then findInodeFrom fileset number (block + 1) count
      else
        let data ← tablePage block
        match ← returnExcept (findSlot data fileset number 0 inosPerPage) with
        | some offset => return some (block, offset)
        | none => findInodeFrom fileset number (block + 1) count

/-- The fileset and the number that an inode number stands for. -/
def inodeKey (ino : UInt32) : ℕ × ℕ :=
  if filesystemI ≤ ino.toNat then (filesystemI, ino.toNat - filesystemI) else (1, ino.toNat)

/-- `find_inode_page`: block and offset of an inode. -/
def findInodePage (ino : UInt32) : VolM (ℕ × ℕ) := do
  let v ← get
  let fileset := (inodeKey ino).1
  let number := (inodeKey ino).2
  match ← findInodeFrom fileset number v.ait2.address (v.ait2.length + scanSlack) with
  | some place => return place
  | none =>
      throw (.other s!"inode {ino} (fileset={fileset}, number={number}) not found in inode table")

/-- `Inode::read`.  Only the inode's own copy of the block is looked at here. -/
def readInode (ino : UInt32) : VolM Inode := do
  let (block, offset) ← findInodePage ino
  let data ← match (← get).pageCache.peek (ino, block) with
    | some page => pure page.data
    | none => onStorage (StorageM.readBlock block)
  let dinode ← returnExcept (sliceOrPanic data offset disize)
  return { dinode, ino, pageBlock := block, pageOffset := offset }

/-! ## Allocating an inode -/

/-- The inode number of a slot, by its position in the table. -/
def inoAt (blockOffset i : ℕ) : ℕ :=
  filesystemI + (blockOffset * inosPerPage + i)

/-- The first slot with mode 0, over `count` slots from slot `i` on.  The number of the root
directory is left out, and a page that ends early ends the search. -/
def freeSlot (data : List UInt8) (blockOffset : ℕ) : ℕ → ℕ → Option ℕ
  | _, 0 => none
  | i, count + 1 =>
      if data.length < i * disize + disize then none
      else if Dinode.mode (slice data (i * disize) disize) = 0 ∧
          inoAt blockOffset i ≠ filesystemI + rootI then some i
      else freeSlot data blockOffset (i + 1) count

/-- The scan of `allocate_inode`, over `count` blocks from `blockOffset` on. -/
def allocateFrom (tableStart : ℕ) : ℕ → ℕ → VolM (UInt32 × ℕ × ℕ)
  | _, 0 => throw .noFreeInode
  | blockOffset, count + 1 => do
      let block := tableStart + blockOffset
      if (← get).aggSize ≤ block then allocateFrom tableStart (blockOffset + 1) count
      else
        let data ← tablePage block
        match freeSlot data blockOffset 0 inosPerPage with
        | some i =>
            tryCatch (recordAllocation block) fun _ => return ()
            return (UInt32.ofNat (inoAt blockOffset i), block, i * disize)
        | none => allocateFrom tableStart (blockOffset + 1) count

/-- `allocate_inode`: number, block and offset of a free inode. -/
def allocateInode : VolM (UInt32 × ℕ × ℕ) := do
  let v ← get
  allocateFrom v.ait2.address 0 (v.ait2.length + scanSlack)

/-- `update_inode_page` at the place of an inode. -/
def updateInode (ino : UInt32) (inode : Inode) (update : List UInt8 → List UInt8) : VolM Unit :=
  updateInodePage ino inode.pageBlock inode.pageOffset update

end Volume

end JfsFuse
