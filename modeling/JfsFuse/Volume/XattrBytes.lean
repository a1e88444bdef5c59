import JfsFuse.Volume.Dinode
import JfsFuse.Volume.Xattr

/-!
# The attribute list in an inode

A list of attributes is parsed back from its bytes, whatever the names and values are, as long as
their lengths fit the two fields in front of them; an attribute with an empty name and an empty
value takes four zero bytes and is parsed as well.  An inode that a list was stored in holds this
list, if the list fits the 128 bytes.
-/

namespace JfsFuse

open ByteBuf

namespace Xattr

/-- The lengths of name and value are stored as they are. -/
def Sized (attr : Xattr) : Prop :=
  attr.1.length ≤ 255 ∧ attr.2.length < 65536

theorem toBytes_of_sized {attr : Xattr} (h : Sized attr) :
    toBytes attr = leBytes 2 attr.1.length ++ leBytes 2 attr.2.length ++ attr.1 ++ attr.2 := by
  unfold toBytes
  simp only [Nat.min_eq_left h.1, Nat.min_eq_left (show attr.2.length ≤ 65535 from Nat.le_of_lt_succ h.2),
    List.take_length]

theorem length_toBytes {attr : Xattr} (h : Sized attr) : (toBytes attr).length = 4 + attr.1.length + attr.2.length := by
  rw [toBytes_of_sized h]
  simp only [List.length_append, length_leBytes]

theorem listBytes_cons (attr : Xattr) (rest : List Xattr) :
    listBytes (attr :: rest) = toBytes attr ++ listBytes rest := List.flatMap_cons

theorem length_listBytes {attrs : List Xattr} (h : ∀ attr ∈ attrs, Sized attr) :
    (listBytes attrs).length = (attrs.map fun attr => 4 + attr.1.length + attr.2.length).sum := by
  unfold listBytes
  rw [List.length_flatMap]
  exact congrArg List.sum (List.map_congr_left fun attr hattr => length_toBytes (h attr hattr))

/-- The lengths alone are four bytes. -/
theorem listBytes_eq_nil {attrs : List Xattr} : listBytes attrs = [] ↔ attrs = [] := by
  unfold listBytes
  rw [List.flatMap_eq_nil_iff, List.eq_nil_iff_forall_not_mem]
  refine forall₂_congr fun attr _ => iff_of_false ?_ not_false
  intro hnil
  have hlength := congrArg List.length hnil
  unfold toBytes at hlength
  simp only [List.length_append, length_leBytes, List.length_nil] at hlength
  omega

/-- The entry that is parsed where the bytes of an attribute stand. -/
theorem parseFrom_toBytes {attr : Xattr} (h : Sized attr) (done rest : List UInt8) (fuel : ℕ) :
    parseFrom (done ++ (toBytes attr ++ rest)) (fuel + 1) done.length =
      attr :: parseFrom (done ++ (toBytes attr ++ rest)) fuel (done.length + (toBytes attr).length) := by
  have hlength := length_toBytes h
  have hdata : (done ++ (toBytes attr ++ rest)).length = done.length + ((toBytes attr).length + rest.length) := by
    rw [List.length_append, List.length_append]
  have hname : attr.1.length < 256 ^ 2 := lt_of_le_of_lt h.1 (by decide)
  have hvalue : attr.2.length < 256 ^ 2 := h.2
  -- whatever is read from the entry is read from its own bytes
  have hslice : ∀ off n, off + n ≤ (toBytes attr).length →
      slice (done ++ (toBytes attr ++ rest)) (done.length + off) n = slice (toBytes attr) off n := by
    intro off n hoff
    rw [slice_append_right _ _ (Nat.le_add_right _ _), Nat.add_sub_cancel_left, slice_append_left _ hoff]
  have hnameLen : readLE (done ++ (toBytes attr ++ rest)) done.length 2 = attr.1.length := by
    have hread := hslice 0 2 (by omega)
    rw [Nat.add_zero] at hread
    rw [readLE, hread, toBytes_of_sized h, List.append_assoc, List.append_assoc, slice_append_left _ (by simp)]
    exact (readLE_leBytes 2 _).trans (Nat.mod_eq_of_lt hname)
  have hvalueLen : readLE (done ++ (toBytes attr ++ rest)) (done.length + 2) 2 = attr.2.length := by
    rw [readLE, hslice 2 2 (by omega), toBytes_of_sized h, List.append_assoc, List.append_assoc,
      slice_append_right _ _ (by simp), length_leBytes, slice_append_left _ (by simp)]
    exact (readLE_leBytes 2 _).trans (Nat.mod_eq_of_lt hvalue)
  have hnameBytes : slice (done ++ (toBytes attr ++ rest)) (done.length + 4) attr.1.length = attr.1 := by
    rw [hslice 4 _ (by omega), toBytes_of_sized h, List.append_assoc, slice_append_right _ _ (by simp),
      slice_append_left _ (by simp)]
    simp
  have hvalueBytes : slice (done ++ (toBytes attr ++ rest)) (done.length + 4 + attr.1.length) attr.2.length =
      attr.2 := by
    have hfront : (leBytes 2 attr.1.length ++ leBytes 2 attr.2.length ++ attr.1).length = 4 + attr.1.length := by
      simp only [List.length_append, length_leBytes]
    rw [Nat.add_assoc, hslice (4 + attr.1.length) _ (by omega), toBytes_of_sized h,
      slice_append_right _ _ hfront.le, hfront, Nat.sub_self]
    exact slice_zero_length attr.2
  rw [parseFrom]
  simp only [hnameLen, hvalueLen, hnameBytes, hvalueBytes]
  rw [if_neg (by omega), if_neg (by omega), hlength]
  congr 2
  omega

/-- The rest of a list is parsed behind its first part. -/
theorem parseFrom_listBytes {attrs : List Xattr} (h : ∀ attr ∈ attrs, Sized attr) (done : List UInt8) {fuel : ℕ}
    (hfuel : attrs.length ≤ fuel) : parseFrom (done ++ listBytes attrs) fuel done.length = attrs := by
  induction attrs generalizing done fuel with
  | nil =>
      have hend : (done ++ listBytes []).length = done.length := by simp [listBytes]
      cases fuel with
      | zero => rfl
      | succ fuel => exact if_pos (by omega)
  | cons attr rest ih =>
      obtain ⟨hattr, hrest⟩ := List.forall_mem_cons.mp h
      cases fuel with
      | zero => simp at hfuel
      | succ fuel =>
          rw [listBytes_cons, parseFrom_toBytes hattr, ← List.append_assoc, ← List.length_append,
            ih hrest _ (Nat.le_of_succ_le_succ hfuel)]

/-- **A list of attributes is parsed back.** -/
theorem parseList_listBytes {attrs : List Xattr} (h : ∀ attr ∈ attrs, Sized attr) :
    parseList (listBytes attrs) = attrs := by
  have hcount : attrs.length ≤ (listBytes attrs).length := by
    rw [length_listBytes h]
    have hsum := List.length_le_sum_of_one_le (attrs.map fun attr => 4 + attr.1.length + attr.2.length)
    rw [List.length_map] at hsum
    refine hsum fun n hn => ?_
    obtain ⟨attr, -, rfl⟩ := List.mem_map.mp hn
    omega
  exact parseFrom_listBytes h [] hcount

end Xattr

namespace Dinode

/-- Bytes behind the number. -/
theorem isEdit_splice {off : ℕ} {data : List UInt8} (hlow : 12 ≤ off) (hhigh : off + data.length ≤ disize) :
    IsEdit fun dinode => splice dinode off data where
  length _ h := (length_splice (by rw [h]; exact hhigh)).trans h
  key key dinode h := by
    have hfileset : fileset (splice dinode off data) = fileset dinode :=
      readLE_splice_of_disjoint (by rw [h]; exact hhigh) (by omega)
    have hnumber : number (splice dinode off data) = number dinode :=
      readLE_splice_of_disjoint (by rw [h]; exact hhigh) (by omega)
    rw [HasKey, HasKey, hfileset, hnumber]

/-- A field behind the number, set from what the inode holds. -/
theorem isEdit_writeField {off width : ℕ} (hlow : 12 ≤ off) (hhigh : off + width ≤ disize) (n : List UInt8 → ℕ) :
    IsEdit fun dinode => writeLE dinode off width (n dinode) where
  length dinode h := (isEdit_writeLE hlow hhigh (n dinode)).length dinode h
  key key dinode h := (isEdit_writeLE hlow hhigh (n dinode)).key key dinode h

end Dinode

namespace Volume

open Dinode

variable {bytes : List UInt8} {flag : UInt8} {newMode : ℕ → ℕ} {d : List UInt8}

/-- The union area with a list at its start. -/
def withList (bytes d : List UInt8) : List UInt8 :=
  splice (splice d unionOff (zeros ixattrSize)) unionOff bytes

/-- The descriptor of a list of `size` bytes. -/
def withDescriptor (flag : UInt8) (size : ℕ) (d : List UInt8) : List UInt8 :=
  splice (writeLE (splice d 104 [flag]) 108 4 size) 112 (zeros 8)

theorem isEdit_withList (hbytes : bytes.length ≤ ixattrSize) : IsEdit (withList bytes) := by
  unfold ixattrSize at hbytes
  exact (isEdit_splice (by decide) (by unfold unionOff disize; omega)).comp
    (isEdit_splice (by decide) (by rw [length_zeros]; decide))

theorem isEdit_withDescriptor (flag : UInt8) (size : ℕ) : IsEdit (withDescriptor flag size) := by
  have hflag : IsEdit fun d => splice d 104 [flag] := isEdit_splice (by omega) (by simp [disize])
  have hsize : IsEdit fun d => writeLE d 108 4 size := isEdit_writeLE (by omega) (by decide) size
  exact (isEdit_splice (by omega) (by rw [length_zeros]; decide)).comp (hsize.comp hflag)

theorem isEdit_setModeBy (newMode : ℕ → ℕ) : IsEdit fun d => setMode (newMode (mode d)) d :=
  isEdit_writeField (by omega) (by decide) fun d => newMode (mode d)

theorem storeXattrs_eq (hlen : d.length = disize) (hbytes : bytes.length ≤ ixattrSize) :
    storeXattrs bytes flag newMode d =
      setMode (newMode (mode (withDescriptor flag bytes.length (withList bytes d))))
        (withDescriptor flag bytes.length (withList bytes d)) := by
  have hzeros : (splice d unionOff (zeros ixattrSize)).length = disize :=
    (isEdit_splice (by decide) (by rw [length_zeros]; decide)).length d hlen
  have hfits : unionOff + bytes.length ≤ (splice d unionOff (zeros ixattrSize)).length := by
    rw [hzeros]
    unfold unionOff disize
    unfold ixattrSize at hbytes
    omega
  unfold storeXattrs withDescriptor withList
  simp only [if_pos hfits]

theorem isEdit_storeXattrs (hbytes : bytes.length ≤ ixattrSize) (flag : UInt8) (newMode : ℕ → ℕ) :
    IsEdit (storeXattrs bytes flag newMode) := by
  have hall := (isEdit_setModeBy newMode).comp
    ((isEdit_withDescriptor flag bytes.length).comp (isEdit_withList hbytes))
  constructor
  · intro d hlen
    rw [storeXattrs_eq hlen hbytes]
    exact hall.length d hlen
  · intro key d hlen
    rw [storeXattrs_eq hlen hbytes]
    exact hall.key key d hlen

section Fields

variable (hlen : d.length = disize) (hbytes : bytes.length ≤ ixattrSize)

include hlen

include hbytes in
theorem length_withList : (withList bytes d).length = disize :=
  (isEdit_withList hbytes).length d hlen

theorem slice_withList : slice (withList bytes d) unionOff bytes.length = bytes := by
  unfold withList
  refine slice_splice_self bytes ?_
  rw [(isEdit_splice (by decide) (by rw [length_zeros]; decide)).length d hlen]
  decide

end Fields

section Descriptor

variable (hlen : d.length = disize) (flag : UInt8) (size : ℕ)

include hlen

theorem getD_withDescriptor : (withDescriptor flag size d).getD 104 0 = flag := by
  have hflag : (splice d 104 [flag]).length = disize := by
    rw [length_splice (by rw [hlen]; simp [disize]), hlen]
  have hsize : (writeLE (splice d 104 [flag]) 108 4 size).length = disize :=
    (length_writeLE size (by rw [hflag]; decide)).trans hflag
  unfold withDescriptor
  rw [getD_splice _ _ (by rw [hsize, length_zeros]; decide), if_neg (by omega)]
  unfold writeLE
  rw [getD_splice _ _ (by rw [hflag, length_leBytes]; decide), if_neg (by omega),
    getD_splice _ _ (by rw [hlen]; simp [disize]), if_pos (by simp)]
  rfl

theorem readLE_withDescriptor : readLE (withDescriptor flag size d) 108 4 = size % 2 ^ 32 := by
  have hflag : (splice d 104 [flag]).length = disize := by
    rw [length_splice (by rw [hlen]; simp [disize]), hlen]
  have hsize : (writeLE (splice d 104 [flag]) 108 4 size).length = disize :=
    (length_writeLE size (by rw [hflag]; decide)).trans hflag
  unfold withDescriptor
  rw [readLE_splice_of_disjoint (by rw [hsize, length_zeros]; decide) (by omega)]
  exact readLE_writeLE_self size (by rw [hflag]; decide)

theorem slice_withDescriptor {off n : ℕ} (hoff : 120 ≤ off) :
    slice (withDescriptor flag size d) off n = slice d off n := by
  have hflag : (splice d 104 [flag]).length = disize := by
    rw [length_splice (by rw [hlen]; simp [disize]), hlen]
  have hsize : (writeLE (splice d 104 [flag]) 108 4 size).length = disize :=
    (length_writeLE size (by rw [hflag]; decide)).trans hflag
  unfold withDescriptor
  rw [slice_splice_of_disjoint (by rw [hsize, length_zeros]; decide) (by rw [length_zeros]; omega),
    slice_writeLE_of_disjoint size (by rw [hflag]; decide) (by omega),
    slice_splice_of_disjoint (by rw [hlen]; simp [disize]) (by simp; omega)]

end Descriptor

/-- The attributes that an inode holds. -/
def xattrsOf (d : List UInt8) : List Xattr :=
  Xattr.parseList (if d.getD 104 0 &&& dxdInline = 0 then [] else (unionArea d).take (readLE d 108 4))

theorem xattrs_eq (inode : Inode) : xattrs inode = xattrsOf inode.dinode := rfl

section Stored

variable (hlen : d.length = disize) (newMode : ℕ → ℕ)

include hlen

/-- What is read of the list and of its descriptor once they are stored. -/
theorem stored_fields (hbytes : bytes.length ≤ ixattrSize) (flag : UInt8) :
    (storeXattrs bytes flag newMode d).getD 104 0 = flag ∧
      readLE (storeXattrs bytes flag newMode d) 108 4 = bytes.length ∧
      (unionArea (storeXattrs bytes flag newMode d)).take bytes.length = bytes := by
  have hlist := length_withList hlen hbytes
  have hwhole : (withDescriptor flag bytes.length (withList bytes d)).length = disize :=
    (isEdit_withDescriptor flag bytes.length).length _ hlist
  have hsmall : bytes.length < 2 ^ 32 := by
    unfold ixattrSize at hbytes
    omega
  rw [storeXattrs_eq hlen hbytes]
  unfold setMode
  refine ⟨?_, ?_, ?_⟩
  · unfold writeLE
    rw [getD_splice _ _ (by rw [hwhole, length_leBytes]; decide), if_neg (by rw [length_leBytes]; omega)]
    exact getD_withDescriptor hlist flag _
  · rw [readLE_writeLE_of_disjoint _ (by rw [hwhole]; decide) (by omega), readLE_withDescriptor hlist,
      Nat.mod_eq_of_lt hsmall]
  · have htake : ∀ whole : List UInt8, (unionArea whole).take bytes.length = slice whole unionOff bytes.length := by
      intro whole
      unfold ixattrSize at hbytes
      unfold unionArea slice
      rw [List.take_take, Nat.min_eq_left (by unfold disize unionOff; omega)]
    rw [htake, slice_writeLE_of_disjoint _ (by rw [hwhole]; decide) (by unfold unionOff; omega),
      slice_withDescriptor hlist _ _ (by unfold unionOff; omega), slice_withList hlen]

/-- **The attributes that were stored are held.** -/
theorem xattrsOf_storeXattrs {attrs : List Xattr} (hsized : ∀ attr ∈ attrs, attr.Sized)
    (hfits : (Xattr.listBytes attrs).length ≤ ixattrSize) :
    xattrsOf (storeXattrs (Xattr.listBytes attrs) dxdInline newMode d) = attrs := by
  obtain ⟨hflag, hsize, hbytes⟩ := stored_fields hlen newMode hfits dxdInline
  unfold xattrsOf
  rw [hflag, if_neg (by decide), hsize, hbytes, Xattr.parseList_listBytes hsized]

/-- Without `DXD_INLINE` there are none. -/
theorem xattrsOf_storeXattrs_nil : xattrsOf (storeXattrs [] 0 newMode d) = [] := by
  have hempty : ([] : List UInt8).length ≤ ixattrSize := Nat.zero_le _
  obtain ⟨hflag, -⟩ := stored_fields hlen newMode hempty 0
  unfold xattrsOf
  rw [hflag, if_pos (by decide)]
  rfl

end Stored

end Volume

end JfsFuse
