import JfsFuse.Lib.Bytes

/-!
# On-disk constants and descriptors

The constants of `types.rs`, the error type every layer shares, and the two
packed descriptors the rest of the format is built from: `Pxd`, a physical
extent (24-bit length, 40-bit address), and `Xad`, an extent of a file (40-bit
logical offset and a `Pxd`).

The source packs both with shifts and masks; here the same fields are taken
apart with division and remainder by powers of two.
-/

namespace JfsFuse

/-! ## Errors -/

/-- `StorageError`, with one more constructor: `panic` is a slice or an index
out of range, which ends the Rust program instead of returning. -/
inductive StorageError
  | io
  | invalidSuperblock
  | journalNotReplayed
  | unsupportedBlockSize (size : ℕ)
  | pageNotFound
  | readOnly
  | blockOutOfRange (block size : ℕ)
  | unexpectedEof (requested actual : ℕ)
  | interrupted
  | xattrNotFound
  | xattrAlreadyExists
  | xattrNameTooLong
  | xattrValueTooLarge
  | xattrDataTooLarge
  | alreadyExists
  | invalidName
  | noFreeInode
  | notADirectory
  | directoryNotEmpty
  | notFound
  | invalidFileType
  | notSupported
  | cannotLinkDir
  | other (message : String)
  | panic
  deriving DecidableEq, Repr

/-- `&data[off..off + n]`. -/
def sliceOrPanic (data : List UInt8) (off n : ℕ) : Except StorageError (List UInt8) :=
  if off + n ≤ data.length then .ok (ByteBuf.slice data off n) else .error .panic

theorem sliceOrPanic_of_le {data : List UInt8} {off n : ℕ} (h : off + n ≤ data.length) :
    sliceOrPanic data off n = .ok (ByteBuf.slice data off n) :=
  if_pos h

/-! ## Constants -/

/-- `BLOCK_SIZE`, bytes in a filesystem block. -/
def blockSize : ℕ := 4096

/-- `DISIZE`, bytes in an on-disk inode. -/
def disize : ℕ := 512

/-- `INOSPERPAGE`, inodes in a block of the inode table. -/
def inosPerPage : ℕ := 8

/-- `ROOT_I`, the inode number of the root directory within its fileset. -/
def rootI : ℕ := 2

/-- `FILESYSTEM_I`, the fileset number of the ordinary files. -/
def filesystemI : ℕ := 16

/-- `LOGPSIZE`, bytes in a log page. -/
def logPSize : ℕ := 4096

/-- `LOGREDONE`: the log has been replayed. -/
def logRedone : ℕ := 1

/-- `XTROOTMAXSLOT`, slots of an inline extent root. -/
def xtRootMaxSlot : ℕ := 18

/-- `XTENTRYSTART`, the first slot that holds an extent. -/
def xtEntryStart : ℕ := 2

theorem entryStart_lt : 2 < xtRootMaxSlot := by
  decide

/-- `DTSLOTSIZE`, bytes in a directory slot. -/
def dtSlotSize : ℕ := 32

/-- `DTENTRYSTART`, the first slot that holds a directory entry. -/
def dtEntryStart : ℕ := 1

/-- `DTROOTMAXSLOT`, slots of an inline directory root. -/
def dtRootMaxSlot : ℕ := 9

/-! ## `pxd_t` -/

/-- A physical extent: the low 24 bits of `lenAddr` are the length, its high 8
bits the top of the address, `addr2` the low 32 bits of the address. -/
structure Pxd where
  lenAddr : UInt32 := 0
  addr2 : UInt32 := 0
  deriving DecidableEq, Repr

namespace Pxd

def length (pxd : Pxd) : ℕ :=
  pxd.lenAddr.toNat % 2 ^ 24

def setLength (pxd : Pxd) (len : ℕ) : Pxd :=
  { pxd with lenAddr := UInt32.ofNat (pxd.lenAddr.toNat / 2 ^ 24 * 2 ^ 24 + len % 2 ^ 24) }

def address (pxd : Pxd) : ℕ :=
  pxd.lenAddr.toNat / 2 ^ 24 * 2 ^ 32 + pxd.addr2.toNat

def setAddress (pxd : Pxd) (addr : ℕ) : Pxd where
  lenAddr := UInt32.ofNat (addr / 2 ^ 32 % 2 ^ 8 * 2 ^ 24 + pxd.lenAddr.toNat % 2 ^ 24)
  addr2 := UInt32.ofNat addr

/-- The eight on-disk bytes. -/
def toBytes (pxd : Pxd) : List UInt8 :=
  ByteBuf.leBytes 4 pxd.lenAddr.toNat ++ ByteBuf.leBytes 4 pxd.addr2.toNat

/-- Read the descriptor at offset `off` of `data`. -/
def read (data : List UInt8) (off : ℕ) : Pxd where
  lenAddr := UInt32.ofNat (ByteBuf.readLE data off 4)
  addr2 := UInt32.ofNat (ByteBuf.readLE data (off + 4) 4)

theorem length_lt (pxd : Pxd) : pxd.length < 2 ^ 24 :=
  Nat.mod_lt _ (by decide)

theorem address_lt (pxd : Pxd) : pxd.address < 2 ^ 40 := by
  have hlen := pxd.lenAddr.toNat_lt
  have haddr := pxd.addr2.toNat_lt
  rw [address]
  omega

@[simp] theorem addr2_setLength (pxd : Pxd) (len : ℕ) : (pxd.setLength len).addr2 = pxd.addr2 := by
  rw [setLength]

private theorem lenAddr_setLength (pxd : Pxd) (len : ℕ) :
    (pxd.setLength len).lenAddr.toNat = pxd.lenAddr.toNat / 2 ^ 24 * 2 ^ 24 + len % 2 ^ 24 := by
  have := pxd.lenAddr.toNat_lt
  rw [setLength, UInt32.toNat_ofNat']
  omega

private theorem lenAddr_setAddress (pxd : Pxd) (addr : ℕ) :
    (pxd.setAddress addr).lenAddr.toNat =
      addr / 2 ^ 32 % 2 ^ 8 * 2 ^ 24 + pxd.lenAddr.toNat % 2 ^ 24 := by
  rw [setAddress, UInt32.toNat_ofNat']
  omega

private theorem addr2_setAddress (pxd : Pxd) (addr : ℕ) :
    (pxd.setAddress addr).addr2.toNat = addr % 2 ^ 32 := by
  rw [setAddress, UInt32.toNat_ofNat']

@[simp] theorem length_setLength (pxd : Pxd) (len : ℕ) :
    (pxd.setLength len).length = len % 2 ^ 24 := by
  rw [length, lenAddr_setLength]
  omega

@[simp] theorem address_setLength (pxd : Pxd) (len : ℕ) :
    (pxd.setLength len).address = pxd.address := by
  have htop : (pxd.setLength len).lenAddr.toNat / 2 ^ 24 = pxd.lenAddr.toNat / 2 ^ 24 := by
    rw [lenAddr_setLength]
    omega
  rw [address, address, htop, addr2_setLength]

@[simp] theorem length_setAddress (pxd : Pxd) (addr : ℕ) :
    (pxd.setAddress addr).length = pxd.length := by
  rw [length, length, lenAddr_setAddress]
  omega

@[simp] theorem address_setAddress (pxd : Pxd) (addr : ℕ) :
    (pxd.setAddress addr).address = addr % 2 ^ 40 := by
  rw [address, lenAddr_setAddress, addr2_setAddress]
  omega

theorem read_of_slice {data : List UInt8} {off : ℕ} {pxd : Pxd}
    (h : ByteBuf.slice data off 8 = pxd.toBytes) : read data off = pxd := by
  have hlen : pxd.lenAddr.toNat < 256 ^ 4 := pxd.lenAddr.toNat_lt
  have haddr : pxd.addr2.toNat < 256 ^ 4 := pxd.addr2.toNat_lt
  have hlow : ByteBuf.readLE data off 4 = pxd.lenAddr.toNat := by
    have hread := ByteBuf.readLE_slice data off (show 0 + 4 ≤ 8 by decide)
    rw [h, toBytes, ByteBuf.readLE_append_left _ (by simp), ByteBuf.readLE_leBytes,
      Nat.mod_eq_of_lt hlen] at hread
    exact hread.symm
  have hhigh : ByteBuf.readLE data (off + 4) 4 = pxd.addr2.toNat := by
    have hread := ByteBuf.readLE_slice data off (show 4 + 4 ≤ 8 by decide)
    rw [h, toBytes, ByteBuf.readLE_append_right _ _ (by simp), ByteBuf.length_leBytes, Nat.sub_self,
      ByteBuf.readLE_leBytes, Nat.mod_eq_of_lt haddr] at hread
    exact hread.symm
  rw [read, hlow, hhigh, UInt32.ofNat_toNat, UInt32.ofNat_toNat]

/-- The bytes of a descriptor are those it was read from. -/
theorem toBytes_read {data : List UInt8} {off : ℕ} (h : off + 8 ≤ data.length) :
    (read data off).toBytes = ByteBuf.slice data off 8 := by
  have hlow : ByteBuf.readLE data off 4 < 2 ^ 32 := ByteBuf.readLE_lt data off 4
  have hhigh : ByteBuf.readLE data (off + 4) 4 < 2 ^ 32 := ByteBuf.readLE_lt data (off + 4) 4
  unfold read toBytes
  simp only
  rw [UInt32.toNat_ofNat_of_lt' hlow, UInt32.toNat_ofNat_of_lt' hhigh, ByteBuf.leBytes_readLE (by omega),
    ByteBuf.leBytes_readLE (by omega), ByteBuf.slice_append_slice]

end Pxd

end JfsFuse
