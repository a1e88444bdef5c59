import JfsFuse.Btree.XtreeBytes
import JfsFuse.Btree.XtreeCuts
import JfsFuse.Volume.Inode

/-!
# The fields of an inode

What a change of one field leaves in the others.  The changes that operations on a file make
keep the fileset and the number, by which an inode is found.
-/

namespace JfsFuse

open ByteBuf

namespace Dinode

/-- The inode has this fileset and number. -/
def HasKey (key : ℕ × ℕ) (dinode : List UInt8) : Prop :=
  fileset dinode = key.1 ∧ number dinode = key.2

instance (key : ℕ × ℕ) (dinode : List UInt8) : Decidable (HasKey key dinode) :=
  inferInstanceAs (Decidable (_ ∧ _))

/-- A change of whole inodes that keeps their fileset and number. -/
structure IsEdit (f : List UInt8 → List UInt8) : Prop where
  length : ∀ dinode, dinode.length = disize → (f dinode).length = disize
  key : ∀ key dinode, dinode.length = disize → (HasKey key (f dinode) ↔ HasKey key dinode)

theorem IsEdit.comp {f g : List UInt8 → List UInt8} (hg : IsEdit g) (hf : IsEdit f) :
    IsEdit fun dinode => g (f dinode) where
  length _ h := hg.length _ (hf.length _ h)
  key key _ h := (hg.key key _ (hf.length _ h)).trans (hf.key key _ h)

section Fields

variable {dinode : List UInt8} (h : dinode.length = disize) (n : ℕ)

include h

theorem length_setSize : (setSize n dinode).length = disize :=
  (length_writeLE n (by rw [h]; decide)).trans h

theorem length_setNblocks : (setNblocks n dinode).length = disize :=
  (length_writeLE n (by rw [h]; decide)).trans h

theorem length_setRoot (xtree : Xtree) : (setRoot xtree.toBytes dinode).length = disize := by
  have hlen := xtree.length_toBytes
  refine (length_splice ?_).trans h
  rw [hlen, h]
  decide

@[simp] theorem size_setSize : size (setSize n dinode) = n % 2 ^ 64 :=
  readLE_writeLE_self n (by rw [h]; decide)

@[simp] theorem nblocks_setSize : nblocks (setSize n dinode) = nblocks dinode :=
  readLE_writeLE_of_disjoint n (by rw [h]; decide) (by decide)

@[simp] theorem root_setSize : root (setSize n dinode) = root dinode :=
  slice_writeLE_of_disjoint n (by rw [h]; decide) (by decide)

@[simp] theorem size_setNblocks : size (setNblocks n dinode) = size dinode :=
  readLE_writeLE_of_disjoint n (by rw [h]; decide) (by decide)

@[simp] theorem nblocks_setNblocks : nblocks (setNblocks n dinode) = n % 2 ^ 64 :=
  readLE_writeLE_self n (by rw [h]; decide)

@[simp] theorem root_setNblocks : root (setNblocks n dinode) = root dinode :=
  slice_writeLE_of_disjoint n (by rw [h]; decide) (by decide)

omit n in
/-- A root that is written lies behind the other fields. -/
theorem readLE_setRoot (xtree : Xtree) {off width : ℕ} (hoff : off + width ≤ rootOff) :
    readLE (setRoot xtree.toBytes dinode) off width = readLE dinode off width := by
  have hlen := xtree.length_toBytes
  unfold setRoot
  rw [hlen]
  unfold rootOff at hoff
  refine readLE_splice_of_disjoint ?_ (Or.inl ?_)
  · rw [hlen, h]
    decide
  · show off + width ≤ 512 - 288
    omega

omit n in
theorem root_setRoot (xtree : Xtree) : root (setRoot xtree.toBytes dinode) = xtree.toBytes := by
  have hlen := xtree.length_toBytes
  have hself := slice_splice_self xtree.toBytes (show disize - 288 ≤ dinode.length by rw [h]; decide)
  rw [hlen] at hself
  unfold setRoot
  rw [hlen]
  exact hself

end Fields

/-- `xtroot_bytes` is the end of the union area. -/
theorem drop_unionArea (dinode : List UInt8) : (unionArea dinode).drop 96 = root dinode := by
  unfold unionArea root slice
  rw [List.drop_take, List.drop_drop]
  rfl

/-- A field behind the number. -/
theorem isEdit_writeLE {off width : ℕ} (hlow : 12 ≤ off) (hhigh : off + width ≤ disize) (n : ℕ) :
    IsEdit fun dinode => writeLE dinode off width n where
  length _ h := (length_writeLE n (by rw [h]; exact hhigh)).trans h
  key key dinode h := by
    have hfileset : fileset (writeLE dinode off width n) = fileset dinode :=
      readLE_writeLE_of_disjoint n (by rw [h]; exact hhigh) (by omega)
    have hnumber : number (writeLE dinode off width n) = number dinode :=
      readLE_writeLE_of_disjoint n (by rw [h]; exact hhigh) (by omega)
    rw [HasKey, HasKey, hfileset, hnumber]

theorem isEdit_setSize (n : ℕ) : IsEdit (setSize n) :=
  isEdit_writeLE (by decide) (by decide) n

theorem isEdit_setNblocks (n : ℕ) : IsEdit (setNblocks n) :=
  isEdit_writeLE (by decide) (by decide) n

theorem isEdit_setRoot (xtree : Xtree) : IsEdit (setRoot xtree.toBytes) where
  length _ h := length_setRoot h xtree
  key key dinode h := by
    have hfileset : fileset (setRoot xtree.toBytes dinode) = fileset dinode :=
      readLE_setRoot h xtree (by decide)
    have hnumber : number (setRoot xtree.toBytes dinode) = number dinode :=
      readLE_setRoot h xtree (by decide)
    rw [HasKey, HasKey, hfileset, hnumber]

end Dinode

/-- **The codec of an extent root**: the bytes of a root are those it was read from, and a root
without the two slots in front is read back, from its bytes and from an inode it is written to. -/
theorem Xtree.codec {data : List UInt8} (hdata : data.length = 288) {xt : Xtree}
    (hslots : ∀ i, i.1 < xtEntryStart → xt.xad.get i = {})
    {dinode : List UInt8} (hdinode : dinode.length = disize) :
    (∃ read, fromInodeData data = .ok read ∧ read.toBytes = data) ∧
      fromInodeData xt.toBytes = .ok xt ∧
      splice dinode (512 - 288) xt.toBytes = Dinode.setRoot xt.toBytes dinode ∧
      fromInodeData ((Dinode.unionArea (splice dinode (512 - 288) xt.toBytes)).drop 96) = .ok xt := by
  have hself : fromInodeData xt.toBytes = .ok xt := by
    rw [fromInodeData_toBytes, stored_of_default hslots]
  have hwrite : splice dinode (512 - 288) xt.toBytes = Dinode.setRoot xt.toBytes dinode := by
    unfold Dinode.setRoot
    rw [xt.length_toBytes]
    rfl
  refine ⟨?_, hself, hwrite, ?_⟩
  · have hread : fromInodeData data = .ok _ := if_neg (by rw [hdata]; decide)
    exact ⟨_, hread, toBytes_of_fromInodeData hdata hread⟩
  · rw [hwrite, Dinode.drop_unionArea, Dinode.root_setRoot hdinode, hself]

theorem Xtree.xad_threeBlocks : ∀ i, i.1 < xtEntryStart → threeBlocks.xad.get i = {} := by
  decide

/-- The codec on the bytes of a root with one extent. -/
theorem Xtree.codec_threeBlocks :
    (∃ read, fromInodeData threeBlocks.toBytes = .ok read ∧ read.toBytes = threeBlocks.toBytes) ∧
      fromInodeData threeBlocks.toBytes = .ok threeBlocks ∧
      fromInodeData ((Dinode.unionArea (splice (zeros disize) (512 - 288) threeBlocks.toBytes)).drop 96) =
        .ok threeBlocks := by
  obtain ⟨hbytes, hself, -, hparsed⟩ :=
    codec threeBlocks.length_toBytes xad_threeBlocks (length_zeros disize)
  exact ⟨hbytes, hself, hparsed⟩

end JfsFuse
