import JfsFuse.Volume.CacheCopies
import JfsFuse.Volume.CommitEffect
import JfsFuse.Volume.Dinode
import JfsFuse.Volume.LostUpdate
import JfsFuse.Volume.Namespace

/-!
# The inode table

The blocks that are scanned for inodes hold eight slots each.  The search takes the first slot
that has the fileset and the number of the inode, looking at the copy of a block that was used
last; the inode itself is then read from its own copy of that block.
-/

namespace JfsFuse

open ByteBuf Program

/-- A slot of a block of the inode table. -/
def slotOf (data : List UInt8) (i : ℕ) : List UInt8 :=
  slice data (i * disize) disize

theorem length_slotOf {data : List UInt8} (hlen : data.length = blockSize) {i : ℕ}
    (hi : i < inosPerPage) : (slotOf data i).length = disize := by
  apply length_slice_of_le
  rw [hlen]
  unfold inosPerPage at hi
  unfold disize blockSize
  omega

/-- A change of one slot leaves the others alone. -/
theorem slotOf_updateAt_of_length {data : List UInt8} (hlen : data.length = blockSize) {i j : ℕ}
    (hi : i < inosPerPage) {f : List UInt8 → List UInt8} (hf : (f (slotOf data i)).length = disize) :
    slotOf (Volume.updateAt (i * disize) f data) j = if j = i then f (slotOf data i) else slotOf data j := by
  have hfits : i * disize + disize ≤ data.length := by
    rw [hlen]
    unfold inosPerPage at hi
    unfold disize blockSize
    omega
  have hslot : (f (slice data (i * disize) disize)).length = disize := hf
  unfold Volume.updateAt
  rw [if_pos hfits]
  unfold slotOf
  split
  · next heq =>
      have hself := slice_splice_self (f (slice data (i * disize) disize))
        (show i * disize ≤ data.length by omega)
      rw [hslot] at hself
      rw [heq, hself]
  · next hne =>
      apply slice_splice_of_disjoint
      · omega
      · rw [hslot]
        unfold disize
        omega

theorem slotOf_updateAt {data : List UInt8} (hlen : data.length = blockSize) {i j : ℕ}
    (hi : i < inosPerPage) {f : List UInt8 → List UInt8} (hf : Dinode.IsEdit f) :
    slotOf (Volume.updateAt (i * disize) f data) j = if j = i then f (slotOf data i) else slotOf data j :=
  slotOf_updateAt_of_length hlen hi (hf.length _ (length_slotOf hlen hi))

/-- A change of one slot keeps the length of the block. -/
theorem length_updateAt_of_length {data : List UInt8} (hlen : data.length = blockSize) {i : ℕ}
    (hi : i < inosPerPage) {f : List UInt8 → List UInt8} (hf : (f (slotOf data i)).length = disize) :
    (Volume.updateAt (i * disize) f data).length = blockSize := by
  have hfits : i * disize + disize ≤ data.length := by
    rw [hlen]
    unfold inosPerPage at hi
    unfold disize blockSize
    omega
  unfold Volume.updateAt
  rw [if_pos hfits, length_splice, hlen]
  rw [show (f (slice data (i * disize) disize)).length = disize from hf]
  exact hfits

namespace Volume

/-- The content of a block as a search sees it: the copy used last, or else the block. -/
def shown (v : Volume) (block : ℕ) : List UInt8 :=
  ((v.pageCache.peekBlock block).map CachedPage.data).getD (v.storage.block block)

/-- The content of a block as an inode sees it: its own copy, or else the block. -/
def own (v : Volume) (ino : UInt32) (block : ℕ) : List UInt8 :=
  ((v.pageCache.peek (ino, block)).map CachedPage.data).getD (v.storage.block block)

/-- The device does not fail, the blocks of the volume lie in it, and copies are whole blocks. -/
structure Calm (v : Volume) : Prop where
  faults : v.storage.faults = []
  size : v.aggSize * blockSize ≤ v.storage.size
  pages : ∀ key page, v.pageCache.peek key = some page → page.data.length = blockSize

namespace Calm

variable {v : Volume} (h : v.Calm)

include h

theorem readBlock {block : ℕ} (hblock : block < v.aggSize) :
    StorageM.readBlock block v.storage = .ok (v.storage.block block) v.storage := by
  have hin : ¬ v.storage.size < block * blockSize + blockSize := by
    have hle := (Nat.mul_le_mul_right blockSize (Nat.succ_le_of_lt hblock)).trans h.size
    rw [Nat.succ_mul] at hle
    omega
  have hresult : v.storage.readResult (block * blockSize) blockSize = .ok (v.storage.block block) := by
    unfold Storage.readResult Storage.len
    split
    · exact if_neg hin
    · exact if_pos (Or.inr (by omega))
  unfold StorageM.readBlock
  rw [StorageM.readBytes_eq h.faults, hresult]
  rfl

theorem length_shown (block : ℕ) : (v.shown block).length = blockSize := by
  unfold shown
  cases hpeek : v.pageCache.peekBlock block with
  | none =>
      rw [Option.map_none, Option.getD_none]
      exact v.storage.length_block block
  | some page =>
      obtain ⟨e, hfind, rfl⟩ := Option.map_eq_some_iff.mp hpeek
      rw [Lru.find?_iter v.pageCache fun key => key.2 == block] at hfind
      obtain ⟨key, -, hkey⟩ := Option.bind_eq_some_iff.mp hfind
      obtain ⟨page, hpage, rfl⟩ := Option.map_eq_some_iff.mp hkey
      exact h.pages key page hpage

theorem length_own (ino : UInt32) (block : ℕ) : (v.own ino block).length = blockSize := by
  unfold own
  cases hpeek : v.pageCache.peek (ino, block) with
  | none =>
      rw [Option.map_none, Option.getD_none]
      exact v.storage.length_block block
  | some page =>
      rw [Option.map_some, Option.getD_some]
      exact h.pages _ page hpeek

theorem tablePage {block : ℕ} (hblock : block < v.aggSize) :
    tablePage block v = .ok (v.shown block) v := by
  unfold Volume.tablePage shown
  rw [bind_ok (get_apply v)]
  cases v.pageCache.peekBlock block with
  | some page =>
      rw [Option.map_some, Option.getD_some]
      rfl
  | none =>
      rw [Option.map_none, Option.getD_none]
      exact zoom_ok (h.readBlock hblock)

end Calm

/-! ## Searching -/

/-- The search in a block finds the first slot with the key. -/
theorem findSlot_spec {data : List UInt8} (hlen : data.length = blockSize) (key : ℕ × ℕ) (i count : ℕ)
    (hin : i + count ≤ inosPerPage) :
    (∃ j, i ≤ j ∧ j < i + count ∧ Dinode.HasKey key (slotOf data j) ∧
      (∀ k, i ≤ k → k < j → ¬ Dinode.HasKey key (slotOf data k)) ∧
      findSlot data key.1 key.2 i count = .ok (some (j * disize))) ∨
    (∀ j, i ≤ j → j < i + count → ¬ Dinode.HasKey key (slotOf data j)) ∧
      findSlot data key.1 key.2 i count = .ok none := by
  induction count generalizing i with
  | zero => exact Or.inr ⟨fun j hlow hhigh => absurd hhigh (by omega), rfl⟩
  | succ count ih =>
      have hfits : i * disize + disize ≤ data.length := by
        rw [hlen]
        unfold inosPerPage at hin
        unfold disize blockSize
        omega
      have hstep : findSlot data key.1 key.2 i (count + 1) =
          if Dinode.HasKey key (slotOf data i) then .ok (some (i * disize))
          else findSlot data key.1 key.2 (i + 1) count := by
        rw [findSlot, sliceOrPanic_of_le hfits]
        rfl
      rw [hstep]
      by_cases hkey : Dinode.HasKey key (slotOf data i)
      · rw [if_pos hkey]
        exact Or.inl ⟨i, le_rfl, by omega, hkey, fun k hlow hhigh => absurd hhigh (by omega), rfl⟩
      · rw [if_neg hkey]
        rcases ih (i := i + 1) (by omega) with ⟨j, hlow, hhigh, hj, hfirst, hrun⟩ | ⟨hnone, hrun⟩
        · refine Or.inl ⟨j, by omega, by omega, hj, fun k hk hkj => ?_, hrun⟩
          rcases Nat.eq_or_lt_of_le hk with rfl | hlt
          · exact hkey
          · exact hfirst k hlt hkj
        · refine Or.inr ⟨fun j hlow hhigh => ?_, hrun⟩
          rcases Nat.eq_or_lt_of_le hlow with rfl | hlt
          · exact hkey
          · exact hnone j hlt (by omega)

/-- The search over blocks finds the first slot with the key. -/
theorem Calm.findInodeFrom_spec {v : Volume} (h : v.Calm) (key : ℕ × ℕ) (block count : ℕ) :
    (∃ b j, block ≤ b ∧ b < block + count ∧ b < v.aggSize ∧ j < inosPerPage ∧
      Dinode.HasKey key (slotOf (v.shown b) j) ∧
      (∀ b' j', block ≤ b' → b' < b ∨ b' = b ∧ j' < j → j' < inosPerPage →
        ¬ Dinode.HasKey key (slotOf (v.shown b') j')) ∧
      findInodeFrom key.1 key.2 block count v = .ok (some (b, j * disize)) v) ∨
    (∀ b j, block ≤ b → b < block + count → b < v.aggSize → j < inosPerPage →
      ¬ Dinode.HasKey key (slotOf (v.shown b) j)) ∧
      findInodeFrom key.1 key.2 block count v = .ok none v := by
  induction count generalizing block with
  | zero => exact Or.inr ⟨fun b j hlow hhigh => absurd hhigh (by omega), rfl⟩
  | succ count ih =>
      unfold findInodeFrom
      rw [bind_ok (get_apply v)]
      by_cases hout : v.aggSize ≤ block
      · -- every block from here on is skipped
        rw [if_pos hout]
        rcases ih (block + 1) with ⟨b, j, hlow, -, hb, -⟩ | ⟨-, hrun⟩
        · omega
        · exact Or.inr ⟨fun b j hlow _ hb => by omega, hrun⟩
      · rw [if_neg hout, bind_ok (h.tablePage (Nat.not_le.mp hout))]
        rcases findSlot_spec (h.length_shown block) key 0 inosPerPage (by omega) with
          ⟨j, -, hj, hkey, hfirst, hslot⟩ | ⟨hnone, hslot⟩
        · refine Or.inl ⟨block, j, le_rfl, by omega, Nat.not_le.mp hout, by omega, hkey, ?_, ?_⟩
          · rintro b' j' hlow (hlt | ⟨rfl, hlt⟩) -
            · omega
            · exact hfirst j' (Nat.zero_le _) hlt
          · rw [hslot]
            rfl
        · rw [hslot, bind_ok (returnExcept_ok _ v)]
          rcases ih (block + 1) with ⟨b, j, hlow, hhigh, hb, hj, hkey, hfirst, hrun⟩ | ⟨hrest, hrun⟩
          · refine Or.inl ⟨b, j, by omega, by omega, hb, hj, hkey, ?_, hrun⟩
            intro b' j' hlow' hbefore hj'
            rcases Nat.eq_or_lt_of_le hlow' with rfl | hlt
            · exact hnone j' (Nat.zero_le _) (by omega)
            · exact hfirst b' j' hlt hbefore hj'
          · refine Or.inr ⟨fun b j hlow hhigh hb hj => ?_, hrun⟩
            rcases Nat.eq_or_lt_of_le hlow with rfl | hlt
            · exact hnone j (Nat.zero_le _) (by omega)
            · exact hrest b j hlt (by omega) hb hj

/-- The search for an inode ends at slot `j` of block `b`. -/
structure FoundAt (v : Volume) (ino : UInt32) (b j : ℕ) : Prop where
  low : v.ait2.address ≤ b
  high : b < v.ait2.address + (v.ait2.length + scanSlack)
  inside : b < v.aggSize
  slot : j < inosPerPage
  key : Dinode.HasKey (inodeKey ino) (slotOf (v.shown b) j)
  first : ∀ b' j', v.ait2.address ≤ b' → b' < b ∨ b' = b ∧ j' < j → j' < inosPerPage →
    ¬ Dinode.HasKey (inodeKey ino) (slotOf (v.shown b') j')

theorem FoundAt.unique {v : Volume} {ino : UInt32} {b j b' j' : ℕ} (h : v.FoundAt ino b j)
    (h' : v.FoundAt ino b' j') : b' = b ∧ j' = j := by
  rcases Nat.lt_trichotomy b' b with hlt | rfl | hgt
  · exact absurd h'.key (h.first b' j' h'.low (Or.inl hlt) h'.slot)
  · rcases Nat.lt_trichotomy j' j with hlt | rfl | hgt
    · exact absurd h'.key (h.first b' j' h'.low (Or.inr ⟨rfl, hlt⟩) h'.slot)
    · exact ⟨rfl, rfl⟩
    · exact absurd h.key (h'.first b' j h.low (Or.inr ⟨rfl, hgt⟩) h.slot)
  · exact absurd h.key (h'.first b j h.low (Or.inl hgt) h.slot)

/-- The inode that is read from slot `j` of block `b`. -/
def inodeAt (v : Volume) (ino : UInt32) (b j : ℕ) : Inode where
  dinode := slotOf (v.own ino b) j
  ino
  pageBlock := b
  pageOffset := j * disize

namespace Calm

variable {v : Volume} (h : v.Calm)

include h

theorem readInode_of_place {ino : UInt32} {b j : ℕ} (hb : b < v.aggSize) (hj : j < inosPerPage)
    (hplace : findInodePage ino v = .ok (b, j * disize) v) :
    readInode ino v = .ok (v.inodeAt ino b j) v := by
  have hlen := h.length_own ino b
  have hfits : j * disize + disize ≤ (v.own ino b).length := by
    rw [hlen]
    unfold inosPerPage at hj
    unfold disize blockSize
    omega
  have hdata : (do
      let dinode ← returnExcept (sliceOrPanic (v.own ino b) (j * disize) disize)
      return ({ dinode, ino, pageBlock := b, pageOffset := j * disize } : Inode) : VolM Inode)
      v = .ok (v.inodeAt ino b j) v := by
    rw [sliceOrPanic_of_le hfits]
    rfl
  unfold readInode
  rw [bind_ok hplace, ← hdata]
  simp only
  rw [bind_ok (get_apply v)]
  unfold own
  cases v.pageCache.peek (ino, b) with
  | some page => rfl
  | none =>
      rw [Option.map_none, Option.getD_none]
      exact bind_ok (zoom_ok (h.readBlock hb))

/-- **Reading an inode** reads the slot that the search ends at, or fails. -/
theorem readInode_cases (ino : UInt32) :
    (∃ b j, v.FoundAt ino b j ∧ readInode ino v = .ok (v.inodeAt ino b j) v) ∨
      (∀ b j, ¬ v.FoundAt ino b j) ∧ ∃ e, readInode ino v = .error e v := by
  rcases h.findInodeFrom_spec (inodeKey ino) v.ait2.address (v.ait2.length + scanSlack) with
    ⟨b, j, hlow, hhigh, hb, hj, hkey, hfirst, hrun⟩ | ⟨hnone, hrun⟩
  · have hplace : findInodePage ino v = .ok (b, j * disize) v := by
      unfold findInodePage
      rw [bind_ok (get_apply v), bind_ok hrun]
      rfl
    exact Or.inl ⟨b, j, ⟨hlow, hhigh, hb, hj, hkey, hfirst⟩, h.readInode_of_place hb hj hplace⟩
  · refine Or.inr ⟨fun b j hfound => hnone b j hfound.low hfound.high hfound.inside hfound.slot hfound.key, ?_⟩
    have hplace : ∃ e, findInodePage ino v = .error e v := by
      unfold findInodePage
      rw [bind_ok (get_apply v), bind_ok hrun]
      exact ⟨_, rfl⟩
    obtain ⟨e, hplace⟩ := hplace
    exact ⟨e, bind_error hplace⟩

theorem readInode_of_foundAt {ino : UInt32} {b j : ℕ} (hfound : v.FoundAt ino b j) :
    readInode ino v = .ok (v.inodeAt ino b j) v := by
  rcases h.readInode_cases ino with ⟨b', j', hfound', hread⟩ | ⟨hnone, -⟩
  · obtain ⟨rfl, rfl⟩ := hfound.unique hfound'
    exact hread
  · exact absurd hfound (hnone b j)

theorem of_readInode_ok {ino : UInt32} {inode : Inode} {w : Volume} (hrun : readInode ino v = .ok inode w) :
    w = v ∧ ∃ b j, v.FoundAt ino b j ∧ inode = v.inodeAt ino b j := by
  rcases h.readInode_cases ino with ⟨b, j, hfound, hread⟩ | ⟨-, e, hread⟩
  · rw [hread] at hrun
    cases hrun
    exact ⟨rfl, b, j, hfound, rfl⟩
  · rw [hread] at hrun
    cases hrun

end Calm

end Volume

end JfsFuse
