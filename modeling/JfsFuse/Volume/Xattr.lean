import JfsFuse.Volume.Namespace

/-!
# Extended attributes

`setxattr`, `getxattr`, `listxattr` and `removexattr` of `volume.rs`.  The attributes of an inode
are a list of entries at the start of its union area, with a descriptor at offset 104: a flag, the
size of the list, and the mode bit `INLINEEA`.
-/

namespace JfsFuse

open ByteBuf Program

/-- `IXATTRSIZE`, bytes for the attributes of an inode. -/
def ixattrSize : ℕ := 128

/-- `DXD_INLINE`. -/
def dxdInline : UInt8 := 0x40

/-- `INLINEEA`. -/
def inlineEa : ℕ := 0x40000

/-- An attribute: name and value. -/
abbrev Xattr := List UInt8 × List UInt8

namespace Xattr

/-- `write_xattr_entry`: lengths, name and value. -/
def toBytes (attr : Xattr) : List UInt8 :=
  let nameLen := min attr.1.length 255
  leBytes 2 nameLen ++ leBytes 2 (min attr.2.length 65535) ++ attr.1.take nameLen ++ attr.2

/-- The bytes of a list of attributes. -/
def listBytes (attrs : List Xattr) : List UInt8 :=
  attrs.flatMap toBytes

/-- `parse_xattr_list`.  Every entry takes four bytes or more, so the length of the data bounds
their number. -/
def parseFrom (data : List UInt8) : ℕ → ℕ → List Xattr
  | 0, _ => []
  | fuel + 1, pos =>
      if data.length < pos + 4 then []
      else
        let nameLen := readLE data pos 2
        let valLen := readLE data (pos + 2) 2
        if data.length < pos + 4 + nameLen + valLen then []
        else (slice data (pos + 4) nameLen, slice data (pos + 4 + nameLen) valLen) ::
          parseFrom data fuel (pos + 4 + nameLen + valLen)

def parseList (data : List UInt8) : List Xattr :=
  parseFrom data data.length 0

end Xattr

/-! ## Names as text -/

namespace Utf8

/-- The length of a character by its first byte, 0 if none begins with it. -/
def charLength (first : UInt8) : ℕ :=
  if first < 0x80 then 1 else if first < 0xC2 then 0 else if first < 0xE0 then 2
  else if first < 0xF0 then 3 else if first < 0xF5 then 4 else 0

def isContinuation (byte : UInt8) : Bool :=
  0x80 ≤ byte && byte ≤ 0xBF

/-- Whether a character that begins with `first` can go on with `second`. -/
def goesOn (first second : UInt8) : Bool :=
  isContinuation second && !(first = 0xE0 && second < 0xA0) && !(first = 0xED && 0x9F < second) &&
    !(first = 0xF0 && second < 0x90) && !(first = 0xF4 && 0x8F < second)

/-- The bytes after `first` that belong to its character. -/
def rest (first : UInt8) : List UInt8 → List UInt8
  | [] => []
  | second :: bytes =>
      if goesOn first second then
        (second :: bytes.takeWhile isContinuation).take (charLength first - 1)
      else []

/-- The character of a whole sequence. -/
def decode (first : UInt8) (rest : List UInt8) : Char :=
  let bits := if rest = [] then 7 else 6 - rest.length
  Char.ofNat (rest.foldl (fun code byte => code * 64 + byte.toNat % 64) (first.toNat % 2 ^ bits))

/-- One replacement character for every sequence that is broken off. -/
def lossyChars : ℕ → List UInt8 → List Char
  | 0, _ => []
  | _, [] => []
  | fuel + 1, first :: bytes =>
      let tail := rest first bytes
      (if tail.length + 1 = charLength first then decode first tail else '\uFFFD') ::
        lossyChars fuel (bytes.drop tail.length)

/-- `String::from_utf8_lossy`. -/
def fromUtf8Lossy (bytes : List UInt8) : String :=
  (String.fromUTF8? ⟨bytes.toArray⟩).getD (String.ofList (lossyChars bytes.length bytes))

example : lossyChars 6 [0x61, 0xE2, 0x82, 0xC3, 0xA9, 0xFF] = ['a', '\uFFFD', 'é', '\uFFFD'] := by
  decide

end Utf8

namespace Volume

/-- `read_inline_xattr_data`. -/
def inlineXattrData (inode : Inode) : List UInt8 :=
  if inode.dinode.getD 104 0 &&& dxdInline = 0 then []
  else (Dinode.unionArea inode.dinode).take (readLE inode.dinode 108 4)

def xattrs (inode : Inode) : List Xattr :=
  Xattr.parseList (inlineXattrData inode)

/-- Store a list of attributes, with its descriptor and the mode bit. -/
def storeXattrs (bytes : List UInt8) (flag : UInt8) (setMode : ℕ → ℕ) (dinode : List UInt8) :
    List UInt8 :=
  let dinode := splice dinode Dinode.unionOff (zeros ixattrSize)
  let dinode :=
    if Dinode.unionOff + bytes.length ≤ dinode.length then splice dinode Dinode.unionOff bytes
    else dinode
  let dinode := splice dinode 104 [flag]
  let dinode := splice (writeLE dinode 108 4 bytes.length) 112 (zeros 8)
  Dinode.setMode (setMode (Dinode.mode dinode)) dinode

def addInlineEa (mode : ℕ) : ℕ :=
  mode ||| inlineEa

def dropInlineEa (mode : ℕ) : ℕ :=
  mode &&& (2 ^ 32 - 1 - inlineEa)

def setxattrBody (ino : UInt32) (name value : List UInt8) (flags : ℕ) : VolM (Exit Unit Unit) := do
  let inode ← readInode ino
  if 255 < name.length then return .abort (.error .xattrNameTooLong)
  if ixattrSize < value.length then return .abort (.error .xattrValueTooLarge)
  let parsed := xattrs inode
  let found := parsed.any fun attr => attr.1 = name
  -- `XATTR_CREATE` and `XATTR_REPLACE`
  if flags % 2 = 1 && found then return .abort (.error .xattrAlreadyExists)
  if flags / 2 % 2 = 1 && !found then return .abort (.error .xattrNotFound)
  let replaced := parsed.map fun attr => if attr.1 = name then (attr.1, value) else attr
  let bytes := Xattr.listBytes (if found then replaced else replaced ++ [(name, value)])
  if ixattrSize < bytes.length then return .abort (.error .xattrDataTooLarge)
  updateInode ino inode (storeXattrs bytes dxdInline addInlineEa)
  markPageDirty ino inode.pageBlock
  return .commit ()

/-- `setxattr`. -/
def setxattr (ino : UInt32) (name : String) (value : List UInt8) (flags : ℕ) : VolM Unit :=
  transaction (setxattrBody ino name.toUTF8.toList value flags)

def removexattrBody (ino : UInt32) (name : List UInt8) : VolM (Exit Bool Bool) := do
  let inode ← readInode ino
  let parsed := xattrs inode
  if !parsed.any fun attr => attr.1 = name then return .abort (.ok false)
  let bytes := Xattr.listBytes (parsed.filter fun attr => attr.1 ≠ name)
  if bytes = [] then updateInode ino inode (storeXattrs bytes 0 dropInlineEa)
  else updateInode ino inode (storeXattrs bytes dxdInline addInlineEa)
  markPageDirty ino inode.pageBlock
  return .commit true

/-- `removexattr`. -/
def removexattr (ino : UInt32) (name : String) : VolM Bool :=
  transaction (removexattrBody ino name.toUTF8.toList)

/-- `getxattr`. -/
def getxattr (ino : UInt32) (name : String) : VolM (Option (List UInt8)) := do
  let inode ← readInode ino
  return ((xattrs inode).find? fun attr => attr.1 = name.toUTF8.toList).map Prod.snd

/-- `listxattr`. -/
def listxattr (ino : UInt32) : VolM (List String) := do
  let inode ← readInode ino
  return (xattrs inode).map fun attr => Utf8.fromUtf8Lossy attr.1

end Volume

end JfsFuse
