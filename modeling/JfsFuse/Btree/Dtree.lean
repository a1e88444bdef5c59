import JfsFuse.Lib.Program
import JfsFuse.Types

/-!
# The directory root

A small directory lives in 288 bytes of its inode: a 32-byte header and eight
32-byte slots.  The header holds the number of entries (`nextindex`), a free
list (`freecnt`, `freelist`) and the table `stbl`, which lists the slots in use.

This file translates `btree/dtree.rs`.  The buffer is a list of bytes, the
methods on `&self` return `Except StorageError`, and the methods on `&mut self`
are programs on the state `Dtree`.  Reading a byte past the end of a short
buffer gives 0, which is what the source's length guards produce.
-/

namespace JfsFuse

open ByteBuf Program

/-- A directory entry found by a lookup. -/
structure DirEntry where
  inumber : UInt32
  name : List UInt16
  index : UInt32
  deriving DecidableEq, Repr

/-- The fixed part of an on-disk slot (`LdtEntry`); the name follows it. -/
structure LdtEntry where
  inumber : UInt32
  nameLen : ℕ
  index : UInt32
  deriving DecidableEq, Repr

/-- The raw bytes of a directory root. -/
structure Dtree where
  data : List UInt8
  deriving DecidableEq, Repr

/-- `bytes_to_u16`: little-endian UTF-16 units, an odd last byte dropped. -/
def bytesToU16 : List UInt8 → List UInt16
  | low :: high :: rest => UInt16.ofNat (leNat [low, high]) :: bytesToU16 rest
  | _ => []

/-- The bytes the loop of `write_ldt_entry` stores for the units of a name. -/
def u16ToBytes (name : List UInt16) : List UInt8 :=
  name.flatMap fun unit => leBytes 2 unit.toNat

namespace Dtree

/-- A program on a directory root. -/
abbrev DtreeM := EStateM StorageError Dtree

def fromInodeData (data : List UInt8) : Except StorageError Dtree :=
  if data.length < dtEntryStart * dtSlotSize then
    .error (.other "insufficient data for dtroot")
  else .ok { data }

def nextIndex (t : Dtree) : ℕ :=
  readLE t.data 17 1

/-- The slots listed by the first `numEntries` entries of `stbl`, at most 8. -/
def readStbl (t : Dtree) (numEntries : ℕ) : List ℕ :=
  (slice t.data 24 (min numEntries 8)).map UInt8.toNat

def parseLdtEntry (t : Dtree) (offset : ℕ) : Except StorageError LdtEntry :=
  if t.data.length < offset + dtSlotSize then .error (.other "entry out of bounds")
  else .ok
    { inumber := UInt32.ofNat (readLE t.data offset 4)
      nameLen := readLE t.data (offset + 5) 1
      index := UInt32.ofNat (readLE t.data (offset + 28) 4) }

/-- Parse the slot at `offset` and cut out its name, as `lookup`, `entries` and
`remove` do.  The name length is not checked, so the slice may panic. -/
def readEntry (t : Dtree) (offset : ℕ) : Except StorageError DirEntry := do
  let entry ← t.parseLdtEntry offset
  let nameBytes ← sliceOrPanic t.data (offset + 6) (entry.nameLen * 2)
  return { inumber := entry.inumber, name := bytesToU16 nameBytes, index := entry.index }

/-- The loop of `lookup` over the listed slots. -/
def lookupIn (t : Dtree) (name : List UInt16) : List ℕ → Except StorageError (Option DirEntry)
  | [] => .ok none
  | slot :: rest =>
      if t.data.length < slot * dtSlotSize + dtSlotSize then t.lookupIn name rest
      else do
        let entry ← t.readEntry (slot * dtSlotSize)
        if entry.name = name then return some entry else t.lookupIn name rest

def lookup (t : Dtree) (name : List UInt16) : Except StorageError (Option DirEntry) :=
  if t.nextIndex = 0 then .ok none else t.lookupIn name (t.readStbl t.nextIndex)

/-- The loop of `entries` over the listed slots. -/
def entriesIn (t : Dtree) : List ℕ → Except StorageError (List DirEntry)
  | [] => .ok []
  | slot :: rest =>
      if t.data.length < slot * dtSlotSize + dtSlotSize then t.entriesIn rest
      else do
        let entry ← t.readEntry (slot * dtSlotSize)
        return entry :: (← t.entriesIn rest)

def entries (t : Dtree) : Except StorageError (List DirEntry) :=
  t.entriesIn (t.readStbl t.nextIndex)

/-- `alloc_slot`: the head of the free list, or else the slot after as many
slots as there are entries. -/
def allocSlot (numEntries : ℕ) : DtreeM ℕ := do
  let t ← get
  let freecnt := readLE t.data 18 1
  let freelist := readLE t.data 19 1
  if 0 < freecnt ∧ freelist ≠ 0 then
    let next := readLE t.data (freelist * dtSlotSize + 4) 1
    set { t with data := writeLE (writeLE t.data 18 1 (freecnt - 1)) 19 1 next }
    return freelist
  else return min (numEntries + dtEntryStart) (dtRootMaxSlot - 1)

/-- `write_ldt_entry`.  The byte at `offset + 4` (`next`) and the units after
the name keep their old values. -/
def writeLdtEntry (offset : ℕ) (ino : UInt32) (name : List UInt16) (index : UInt32) :
    DtreeM Unit := do
  let t ← get
  if t.data.length < offset + dtSlotSize then throw (.other "slot offset out of bounds")
  else
    let data := writeLE t.data offset 4 ino.toNat
    let data := writeLE data (offset + 5) 1 (min name.length 11)
    let data := splice data (offset + 6) (u16ToBytes (name.take 11))
    set { t with data := writeLE data (offset + 28) 4 index.toNat }

def setStblEntry (idx slot : ℕ) : DtreeM Unit := do
  let t ← get
  if t.data.length ≤ 24 + idx then throw (.other "stbl offset out of bounds")
  else set { t with data := writeLE t.data (24 + idx) 1 slot }

def readStblEntry (t : Dtree) (idx : ℕ) : Except StorageError ℕ :=
  if t.data.length ≤ 24 + idx then .error (.other "stbl offset out of bounds")
  else .ok (readLE t.data (24 + idx) 1)

def setNextindex (val : ℕ) : DtreeM Unit := do
  let t ← get
  if 17 < t.data.length then set { t with data := writeLE t.data 17 1 val } else return ()

/-- `insert`: true when the entry was added. -/
def insert (name : List UInt16) (ino index : UInt32) : DtreeM Bool := do
  let t ← get
  if (← returnExcept (t.lookup name)).isSome then return false
  else if dtRootMaxSlot - 1 ≤ t.nextIndex then return false
  else
    let freeSlot ← allocSlot t.nextIndex
    if dtRootMaxSlot ≤ freeSlot then return false
    else
      writeLdtEntry (freeSlot * dtSlotSize) ino name index
      setStblEntry t.nextIndex freeSlot
      setNextindex (t.nextIndex + 1)
      return true

/-- The loop of `remove` that moves the `stbl` entries from `j` on down by one,
`count` of them.  A failing store is ignored by the source. -/
def shiftStbl : ℕ → ℕ → DtreeM Unit
  | _, 0 => return ()
  | j, count + 1 => do
      let t ← get
      let nextSlot ← returnExcept (t.readStblEntry (j + 1))
      tryCatch (setStblEntry j nextSlot) fun _ => return ()
      shiftStbl (j + 1) count

/-- What `remove` does once it has found `entry` at index `stblIdx`. -/
def removeAt (stblIdx slot : ℕ) (entry : DirEntry) : DtreeM (Option UInt32) := do
  let numEntries := (← get).nextIndex
  shiftStbl stblIdx (numEntries - 1 - stblIdx)
  tryCatch (setStblEntry (numEntries - 1) 0) fun _ => return ()
  setNextindex (numEntries - 1)
  modify fun t => { t with data := splice t.data (slot * dtSlotSize) (zeros dtSlotSize) }
  return some entry.inumber

/-- The loop of `remove` over the listed slots, `stblIdx` the index of the first. -/
def removeIn (name : List UInt16) : ℕ → List ℕ → DtreeM (Option UInt32)
  | _, [] => return none
  | stblIdx, slot :: rest => do
      let t ← get
      if t.data.length < slot * dtSlotSize + dtSlotSize then removeIn name (stblIdx + 1) rest
      else
        let entry ← returnExcept (t.readEntry (slot * dtSlotSize))
        if entry.name = name then removeAt stblIdx slot entry
        else removeIn name (stblIdx + 1) rest

/-- `remove`: the inode number of the removed entry. -/
def remove (name : List UInt16) : DtreeM (Option UInt32) := do
  let t ← get
  removeIn name 0 (t.readStbl t.nextIndex)

/-- `to_bytes`. -/
def toBytes (t : Dtree) : List UInt8 :=
  t.data

end Dtree

end JfsFuse
