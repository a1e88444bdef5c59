import JfsFuse.Types

/-!
# Log records and the log superblock

The on-disk structures of the journal: the 36-byte log record descriptor `Lrd`,
with its serialisation (`lrd_bytes` of `logmgr.rs`) and parser (`parse_lrd` of
`recovery.rs`), and the log superblock.

Writer and parser were written separately; `parseLrd_lrdBytes` says that they
agree on every field.
-/

namespace JfsFuse

open ByteBuf

/-! ## Record types -/

/-- `LOG_COMMIT`. -/
def logCommit : UInt16 := 0x8000

/-- `LOG_SYNCPT`. -/
def logSyncpt : UInt16 := 0x4000

/-- `LOG_MOUNT`. -/
def logMount : UInt16 := 0x2000

/-- `LOG_REDOPAGE`. -/
def logRedopage : UInt16 := 0x0800

/-- `LOG_NOREDOPAGE`. -/
def logNoredopage : UInt16 := 0x0080

/-- `LOG_NOREDOINOEXT`. -/
def logNoredoinoext : UInt16 := 0x0040

/-- `LOG_UPDATEMAP`. -/
def logUpdatemap : UInt16 := 0x0008

/-- `LOG_INODE`, a page type of redo records. -/
def logInode : UInt16 := 0x0001

/-- `LOG_DATA`, a page type bit of redo records. -/
def logData : UInt16 := 0x0080

/-- `LRD_SIZE`, bytes in a record descriptor. -/
def lrdSize : ℕ := 36

/-! ## The record descriptor -/

/-- A log record descriptor.  The fields from `fileset` on are a union in the
format; a sync point keeps its address in `fileset`. -/
structure Lrd where
  logtid : UInt32 := 0
  backchain : UInt32 := 0
  type : UInt16 := 0
  length : UInt16 := 0
  aggregate : UInt32 := 0
  fileset : UInt32 := 0
  inode : UInt32 := 0
  redopageType : UInt16 := 0
  redopageL2linesize : UInt16 := 0
  redopagePxd : Pxd := {}
  deriving DecidableEq, Repr

namespace Lrd

/-- The record type has the bit `flag`. -/
def has (lrd : Lrd) (flag : UInt16) : Bool :=
  lrd.type &&& flag != 0

def isCommit (lrd : Lrd) : Bool := lrd.has logCommit

def isSyncpt (lrd : Lrd) : Bool := lrd.has logSyncpt

def isMount (lrd : Lrd) : Bool := lrd.has logMount

def isRedopage (lrd : Lrd) : Bool := lrd.has logRedopage

def isNoredopage (lrd : Lrd) : Bool := lrd.has logNoredopage

def isNoredoinoext (lrd : Lrd) : Bool := lrd.has logNoredoinoext

def isUpdatemap (lrd : Lrd) : Bool := lrd.has logUpdatemap

/-- The sync point address, stored in the `fileset` field. -/
def syncptSync (lrd : Lrd) : ℕ :=
  lrd.fileset.toNat

end Lrd

/-- `lrd_bytes`: the 36 on-disk bytes. -/
def lrdBytes (lrd : Lrd) : List UInt8 :=
  leBytes 4 lrd.logtid.toNat ++ leBytes 4 lrd.backchain.toNat ++ leBytes 2 lrd.type.toNat ++
    leBytes 2 lrd.length.toNat ++ leBytes 4 lrd.aggregate.toNat ++ leBytes 4 lrd.fileset.toNat ++
    leBytes 4 lrd.inode.toNat ++ leBytes 2 lrd.redopageType.toNat ++
    leBytes 2 lrd.redopageL2linesize.toNat ++ lrd.redopagePxd.toBytes

/-- `parse_lrd`, on a buffer of at least 36 bytes. -/
def parseLrd (data : List UInt8) : Lrd where
  logtid := UInt32.ofNat (readLE data 0 4)
  backchain := UInt32.ofNat (readLE data 4 4)
  type := UInt16.ofNat (readLE data 8 2)
  length := UInt16.ofNat (readLE data 10 2)
  aggregate := UInt32.ofNat (readLE data 12 4)
  fileset := UInt32.ofNat (readLE data 16 4)
  inode := UInt32.ofNat (readLE data 20 4)
  redopageType := UInt16.ofNat (readLE data 24 2)
  redopageL2linesize := UInt16.ofNat (readLE data 26 2)
  redopagePxd := Pxd.read data 28

theorem length_lrdBytes (lrd : Lrd) : (lrdBytes lrd).length = lrdSize := by
  simp [lrdBytes, Pxd.toBytes, lrdSize]

/-- **The parser reads back every field the writer stores.** -/
theorem parseLrd_lrdBytes (lrd : Lrd) : parseLrd (lrdBytes lrd) = lrd := by
  have word : ∀ n : UInt32, UInt32.ofNat (n.toNat % 256 ^ 4) = n := by
    intro n
    have hlt : n.toNat < 256 ^ 4 := n.toNat_lt
    rw [Nat.mod_eq_of_lt hlt, UInt32.ofNat_toNat]
  have half : ∀ n : UInt16, UInt16.ofNat (n.toNat % 256 ^ 2) = n := by
    intro n
    have hlt : n.toNat < 256 ^ 2 := n.toNat_lt
    rw [Nat.mod_eq_of_lt hlt, UInt16.ofNat_toNat]
  simp (disch := simp) only [parseLrd, Pxd.read, lrdBytes, Pxd.toBytes, readLE_append_left,
    readLE_append_right, readLE_leBytes, List.length_append, length_leBytes, Nat.reduceAdd,
    Nat.reduceSub, word, half]

/-! ## The log superblock -/

/-- The log superblock. -/
structure LogSuper where
  magic : UInt32 := 0
  version : UInt32 := 0
  serial : UInt32 := 0
  /-- Log size in pages. -/
  size : UInt32 := 0
  bsize : UInt32 := 0
  l2bsize : UInt32 := 0
  flag : UInt32 := 0
  state : UInt32 := 0
  /-- End of the log in bytes from the start of its data. -/
  logEnd : UInt32 := 0
  uuid : Vector UInt8 16 := Vector.replicate 16 0
  label : Vector UInt8 16 := Vector.replicate 16 0
  active : Vector (Vector UInt8 16) 128 := Vector.replicate 128 (Vector.replicate 16 0)

end JfsFuse
