import JfsFuse.Lib.Lru
import JfsFuse.Storage

/-!
# The page cache

`PageCache` of `storage/mod.rs`: an LRU cache of metadata pages.  Its keys are
pairs of an inode number and a block, so a block of the inode table can be cached
several times, once for each inode that was updated in it.

The methods that take the storage as an argument are programs on the volume, in
`Volume/Core.lean`.
-/

namespace JfsFuse

structure CachedPage where
  block : ℕ
  data : List UInt8
  dirty : Bool := false
  inode : Option UInt32 := none
  index : ℕ := 0
  pinCount : ℕ := 0
  /-- The transaction that made the page dirty, 0 for none. -/
  txid : ℕ := 0
  deriving DecidableEq, Repr

namespace CachedPage

def pin (page : CachedPage) : CachedPage :=
  { page with pinCount := min (page.pinCount + 1) (2 ^ 32 - 1) }

def unpin (page : CachedPage) : CachedPage :=
  { page with pinCount := page.pinCount - 1 }

@[simp] theorem data_pin (page : CachedPage) : page.pin.data = page.data := rfl

@[simp] theorem data_unpin (page : CachedPage) : page.unpin.data = page.data := rfl

@[simp] theorem block_unpin (page : CachedPage) : page.unpin.block = page.block := rfl

end CachedPage

/-- The pages in order of use, by inode number and block. -/
abbrev PageCache := Lru (UInt32 × ℕ) CachedPage

namespace PageCache

def new (capacity : ℕ) : PageCache :=
  Lru.empty (max capacity 1)

@[simp] theorem peek_new (capacity : ℕ) (key : UInt32 × ℕ) : (new capacity).peek key = none := rfl

/-- `peek_block`: the page of the block that was used last, whatever its inode. -/
def peekBlock (cache : PageCache) (block : ℕ) : Option CachedPage :=
  (cache.iter.find? fun e => e.1.2 == block).map Prod.snd

@[simp] theorem peekBlock_new (capacity block : ℕ) : (new capacity).peekBlock block = none := rfl

/-- The page that `get_or_load` copies: the one of the block that was used last
for another inode. -/
def otherCopy (cache : PageCache) (inode : UInt32) (block : ℕ) : Option (List UInt8) :=
  (cache.iter.find? fun e => e.1.2 == block && e.1.1 != inode).map fun e => e.2.data

/-- `get_mut_for_write`, followed by the change `f`. -/
def updateForWrite (cache : PageCache) (inode : UInt32) (block : ℕ) (f : CachedPage → CachedPage) :
    Except StorageError PageCache :=
  match cache.peek (inode, block) with
  | none => .error .pageNotFound
  | some _ => .ok (cache.modify (inode, block) fun page => f page.pin)

def unpinPage (cache : PageCache) (inode : UInt32) (block : ℕ) : PageCache :=
  cache.modify (inode, block) CachedPage.unpin

/-- `put`: a new page may not push out a page that is dirty or pinned. -/
def put (cache : PageCache) (inode : UInt32) (page : CachedPage) : Except StorageError PageCache :=
  let key := (inode, page.block)
  let full := (cache.peek key).isNone && decide (cache.cap ≤ cache.keys.length)
  match full, cache.peekLru with
  | true, some (_, victim) =>
      if victim.dirty ∨ 0 < victim.pinCount then
        .error (.other "cache full: LRU victim is dirty or pinned")
      else .ok (Lru.put cache key page)
  | _, _ => .ok (Lru.put cache key page)

def markDirtyTxn (cache : PageCache) (inode : UInt32) (block txid : ℕ) : PageCache :=
  cache.modify (inode, block) fun page => { page with dirty := true, txid }

def release (cache : PageCache) (inode : UInt32) (block : ℕ) : PageCache :=
  cache.pop (inode, block)

/-- What aborting does to a dirty page: it stays in the cache with its data. -/
def abortPage (cache : PageCache) (inode : UInt32) (block : ℕ) : PageCache :=
  let used : PageCache := (cache.get (inode, block)).2
  match cache.peek (inode, block) with
  | none => used.unpinPage inode block
  | some page =>
      match put used inode { page with dirty := false, txid := 0 }.unpin with
      | .ok restored => unpinPage restored inode block
      | .error _ => used.unpinPage inode block

/-- `abort_pages`. -/
def abortPages (cache : PageCache) (dirtyPages : List (UInt32 × ℕ)) : PageCache :=
  dirtyPages.foldl (fun cache page => cache.abortPage page.1 page.2) cache

end PageCache

end JfsFuse
