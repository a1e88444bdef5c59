import JfsFuse.Volume.AttributeFlags
import JfsFuse.Volume.FreshCalls
import JfsFuse.Volume.LastExtent
import JfsFuse.Volume.Truncate

/-!
# The union area of an inode

The last 384 bytes of an inode hold a list of attributes or the target of a symbolic link from
their start on, and the root of a file or of a directory from byte 96 on.  A list is stored over
128 bytes, filled up with zeros, so `setxattr` and `removexattr` reach 32 bytes into the root and
replace the target of a link.  A root that is stored in turn covers what a list has beyond byte 96.
-/

namespace JfsFuse

open ByteBuf Program

namespace Xattr

/-- What is written for a list: it is filled up with zeros to `IXATTRSIZE`. -/
def padded (bytes : List UInt8) : List UInt8 :=
  bytes ++ zeros (ixattrSize - bytes.length)

theorem length_padded (bytes : List UInt8) : (padded bytes).length = max ixattrSize bytes.length := by
  unfold padded
  rw [List.length_append, length_zeros]
  omega

theorem length_toBytes_le (attr : Xattr) : (toBytes attr).length ≤ 4 + attr.1.length + attr.2.length := by
  unfold toBytes
  simp only [List.length_append, length_leBytes, List.length_take]
  omega

/-- The attributes that are parsed take no more bytes than they were parsed from. -/
theorem length_listBytes_parseFrom (p : Xattr → Bool) (data : List UInt8) (fuel pos : ℕ) :
    (listBytes ((parseFrom data fuel pos).filter p)).length ≤ data.length - pos := by
  induction fuel generalizing pos with
  | zero => exact Nat.zero_le _
  | succ fuel ih =>
      rw [parseFrom]
      simp only
      split
      · exact Nat.zero_le _
      · split
        · exact Nat.zero_le _
        · next hfits =>
            have hrest := ih (pos + 4 + readLE data pos 2 + readLE data (pos + 2) 2)
            have hentry := length_toBytes_le (slice data (pos + 4) (readLE data pos 2),
              slice data (pos + 4 + readLE data pos 2) (readLE data (pos + 2) 2))
            simp only [length_slice] at hentry
            rw [List.filter_cons]
            split
            · rw [listBytes_cons, List.length_append]
              omega
            · omega

end Xattr

namespace Volume

open Dinode

variable {d bytes : List UInt8} {flag : UInt8} {newMode : ℕ → ℕ}

/-! ## Storing a list -/

/-- A list is stored over the start of the union area. -/
theorem withList_eq (h : d.length = disize) (hfits : unionOff + bytes.length ≤ disize) :
    withList bytes d = splice d unionOff (Xattr.padded bytes) := by
  unfold withList Xattr.padded
  rw [splice_splice_at (by rw [length_zeros, h]; decide) (by rw [h]; exact hfits)]
  unfold zeros
  rw [List.drop_replicate]

theorem storeXattrs_eq_of_fits (h : d.length = disize) (hfits : unionOff + bytes.length ≤ disize) :
    storeXattrs bytes flag newMode d =
      setMode (newMode (mode (withDescriptor flag bytes.length (withList bytes d))))
        (withDescriptor flag bytes.length (withList bytes d)) := by
  have hzeros : (splice d unionOff (zeros ixattrSize)).length = disize :=
    (length_splice (by rw [h, length_zeros]; decide)).trans h
  unfold storeXattrs withDescriptor withList
  simp only [if_pos (hfits.trans_eq hzeros.symm)]

section Stored

variable (h : d.length = disize) (hfits : unionOff + bytes.length ≤ disize)

include h hfits

theorem length_withList_of_fits : (withList bytes d).length = disize := by
  rw [withList_eq h hfits, length_splice, h]
  rw [Xattr.length_padded, h]
  unfold unionOff disize ixattrSize at *
  omega

/-- **The union area** with a list. -/
theorem slice_storeXattrs {off n : ℕ} (hoff : unionOff ≤ off) :
    slice (storeXattrs bytes flag newMode d) off n = slice (splice d unionOff (Xattr.padded bytes)) off n := by
  have hlist := length_withList_of_fits h hfits
  have hwhole := (isEdit_withDescriptor flag bytes.length).length _ hlist
  unfold unionOff at hoff
  rw [storeXattrs_eq_of_fits h hfits, ← withList_eq h hfits]
  unfold setMode
  rw [slice_writeLE_of_disjoint _ (by rw [hwhole]; decide) (by omega),
    slice_withDescriptor hlist _ _ (by omega)]

/-- The fields in front of the descriptor stay until the mode is set. -/
theorem readLE_withList {off width : ℕ} (hoff : off + width ≤ 104) :
    readLE (withDescriptor flag bytes.length (withList bytes d)) off width = readLE d off width := by
  have hlist := length_withList_of_fits h hfits
  have hflag : (splice (withList bytes d) 104 [flag]).length = disize := by
    rw [length_splice (by rw [hlist]; simp [disize]), hlist]
  have hsize : (writeLE (splice (withList bytes d) 104 [flag]) 108 4 bytes.length).length = disize :=
    (length_writeLE _ (by rw [hflag]; decide)).trans hflag
  have hpadded : unionOff + (Xattr.padded bytes).length ≤ d.length := by
    rw [Xattr.length_padded, h]
    unfold unionOff disize ixattrSize at *
    omega
  unfold withDescriptor
  rw [readLE_splice_of_disjoint (by rw [hsize, length_zeros]; decide) (by omega),
    readLE_writeLE_of_disjoint _ (by rw [hflag]; decide) (by omega),
    readLE_splice_of_disjoint (by rw [hlist]; simp [disize]) (by omega), withList_eq h hfits]
  exact readLE_splice_of_disjoint hpadded (by unfold unionOff; omega)

/-- The fields in front of the mode stay. -/
theorem readLE_storeXattrs {off width : ℕ} (hoff : off + width ≤ 52) :
    readLE (storeXattrs bytes flag newMode d) off width = readLE d off width := by
  have hwhole := (isEdit_withDescriptor flag bytes.length).length _ (length_withList_of_fits h hfits)
  rw [storeXattrs_eq_of_fits h hfits]
  unfold setMode
  rw [readLE_writeLE_of_disjoint _ (by rw [hwhole]; decide) (by omega)]
  exact readLE_withList h hfits (by omega)

/-- The mode is changed. -/
theorem mode_storeXattrs : mode (storeXattrs bytes flag newMode d) = newMode (mode d) % 2 ^ 32 := by
  have hwhole := (isEdit_withDescriptor flag bytes.length).length _ (length_withList_of_fits h hfits)
  have hmode : mode (withDescriptor flag bytes.length (withList bytes d)) = mode d :=
    readLE_withList h hfits (by decide)
  rw [storeXattrs_eq_of_fits h hfits, hmode]
  exact (setMode_spec hwhole _).2.1

end Stored

/-- A change of the bit `INLINEEA` alone leaves the file type. -/
theorem fileType_of_testBit {n m : ℕ} (hbits : ∀ i < 16, n.testBit i = m.testBit i) :
    n / 0x1000 % 0x10 = m / 0x1000 % 0x10 := by
  have hdiv : ∀ k, k / 0x1000 % 0x10 = k / 2 ^ 12 % 2 ^ 4 := fun _ => rfl
  rw [hdiv, hdiv]
  refine Nat.eq_of_testBit_eq fun i => ?_
  rw [Nat.testBit_mod_two_pow, Nat.testBit_mod_two_pow, Nat.testBit_div_two_pow, Nat.testBit_div_two_pow]
  by_cases hi : i < 4
  · rw [hbits _ (by omega)]
  · simp [hi]

theorem testBit_newMode (n : ℕ) {i : ℕ} (hi : i < 16) :
    (addInlineEa n % 2 ^ 32).testBit i = n.testBit i ∧ (dropInlineEa n % 2 ^ 32).testBit i = n.testBit i := by
  have hmask : ∀ k < 16, inlineEa.testBit k = false ∧ (2 ^ 32 - 1 - inlineEa).testBit k = true := by
    decide
  obtain ⟨hclear, hset⟩ := hmask i hi
  unfold addInlineEa dropInlineEa
  rw [Nat.testBit_mod_two_pow, Nat.testBit_mod_two_pow, Nat.testBit_or, Nat.testBit_and, hclear, hset,
    Bool.or_false, Bool.and_true, decide_eq_true (by omega)]
  exact ⟨Bool.true_and _, Bool.true_and _⟩

/-! ## The root and the target under a list -/

/-- A list that is stored leaves the root: it agrees with the root where it reaches into it. -/
def SparesRoot (bytes d : List UInt8) : Prop :=
  (Xattr.padded bytes).drop 96 = slice d rootOff ((Xattr.padded bytes).length - 96)

instance (bytes d : List UInt8) : Decidable (SparesRoot bytes d) :=
  inferInstanceAs (Decidable (_ = _))

/-- A list that ends before the root clears the start of the root. -/
theorem sparesRoot_iff_of_short (hshort : bytes.length ≤ 96) : SparesRoot bytes d ↔ slice d rootOff 32 = zeros 32 := by
  have hlen : (Xattr.padded bytes).length = 128 := by
    rw [Xattr.length_padded]
    unfold ixattrSize
    omega
  have hrest : (Xattr.padded bytes).drop 96 = zeros 32 := by
    unfold Xattr.padded zeros ixattrSize
    rw [List.drop_append, List.drop_eq_nil_of_le hshort, List.nil_append, List.drop_replicate]
    congr 1
    omega
  unfold SparesRoot
  rw [hrest, hlen]
  exact eq_comm

/-- What `read_symlink` makes of an inode. -/
def targetOf (d : List UInt8) : Except StorageError (List UInt8) :=
  if !isSymlink d then .error (.other "not a symbolic link")
  else if 0 < size d ∧ size d < 128 then .ok ((unionArea d).take (size d))
  else .error (.other "symlink target not available")

/-- A list that is stored leaves the target of a link: it begins with the target. -/
def SparesTarget (bytes d : List UInt8) : Prop :=
  isSymlink d = true → 0 < size d → size d < 128 → (Xattr.padded bytes).take (size d) = (unionArea d).take (size d)

instance (bytes d : List UInt8) : Decidable (SparesTarget bytes d) :=
  inferInstanceAs (Decidable (_ → _ → _ → _))

section Stored

variable (h : d.length = disize) (hfits : unionOff + bytes.length ≤ disize)

include h hfits

theorem root_storeXattrs_iff : root (storeXattrs bytes flag newMode d) = root d ↔ SparesRoot bytes d := by
  have hlen := Xattr.length_padded bytes
  unfold root SparesRoot
  rw [slice_storeXattrs h hfits (by decide)]
  refine (slice_splice_eq_iff (by decide) ?_ ?_ (by rw [h]; decide)).trans ?_
  · rw [hlen]
    unfold unionOff rootOff ixattrSize
    omega
  · rw [hlen]
    unfold unionOff rootOff disize ixattrSize at *
    omega
  · rw [show unionOff + (Xattr.padded bytes).length - rootOff = (Xattr.padded bytes).length - 96 by
      unfold unionOff rootOff
      omega]
    exact Iff.rfl

theorem targetOf_storeXattrs_iff (hbits : ∀ i < 16, (newMode (mode d) % 2 ^ 32).testBit i = (mode d).testBit i) :
    targetOf (storeXattrs bytes flag newMode d) = targetOf d ↔ SparesTarget bytes d := by
  have hsize : size (storeXattrs bytes flag newMode d) = size d := readLE_storeXattrs h hfits (by decide)
  have htype : isSymlink (storeXattrs bytes flag newMode d) = isSymlink d := by
    unfold isSymlink fileType
    rw [mode_storeXattrs h hfits, fileType_of_testBit hbits]
  have hlen := Xattr.length_padded bytes
  unfold targetOf SparesTarget
  rw [hsize, htype]
  by_cases hlink : isSymlink d = true
  · have hnot : ¬ (!true) = true := by decide
    rw [hlink, if_neg hnot, if_neg hnot]
    by_cases hshort : 0 < size d ∧ size d < 128
    · rw [if_pos hshort, if_pos hshort]
      have hlist : (unionArea (storeXattrs bytes flag newMode d)).take (size d) =
          (Xattr.padded bytes).take (size d) := by
        have hinside : slice (splice d unionOff (Xattr.padded bytes)) (unionOff + 0) (size d) =
            slice (Xattr.padded bytes) 0 (size d) :=
          slice_splice_inside (by rw [h]; decide) (by rw [hlen]; unfold ixattrSize; omega)
        unfold unionArea
        rw [slice_storeXattrs h hfits le_rfl]
        unfold slice at *
        rw [List.take_take, Nat.min_eq_left (by unfold disize unionOff; omega)]
        exact hinside
      rw [hlist]
      exact ⟨fun heq _ _ _ => Except.ok.inj heq, fun heq => congrArg Except.ok (heq rfl hshort.1 hshort.2)⟩
    · rw [if_neg hshort, if_neg hshort]
      exact iff_of_true rfl fun _ hpos hlow => absurd ⟨hpos, hlow⟩ hshort
  · rw [Bool.not_eq_true] at hlink
    have hset : (!false) = true := by decide
    rw [hlink, if_pos hset, if_pos hset]
    exact iff_of_true rfl fun hfalse => by cases hfalse

end Stored

end Volume

/-! ## Calls on attributes -/

namespace XattrCall

open Volume

/-- The bytes of the list that a call stores in an inode; `none` if it stores no list. -/
def stores : XattrCall → List UInt8 → Option (List UInt8)
  | set name value _, d =>
      let parsed := xattrsOf d
      let replaced := parsed.map fun attr => if attr.1 = name.toUTF8.toList then (attr.1, value) else attr
      some (Xattr.listBytes (if parsed.any fun attr => attr.1 = name.toUTF8.toList then replaced
        else replaced ++ [(name.toUTF8.toList, value)]))
  | remove name, d =>
      let parsed := xattrsOf d
      if parsed.any fun attr => attr.1 = name.toUTF8.toList then
        some (Xattr.listBytes (parsed.filter fun attr => attr.1 ≠ name.toUTF8.toList))
      else none

theorem stores_set_of_nil {d : List UInt8} (hnil : xattrsOf d = []) (name : String) (value : List UInt8) (flags : ℕ) :
    (set name value flags).stores d = some (Xattr.listBytes [(name.toUTF8.toList, value)]) := by
  simp [stores, hnil]

end XattrCall

namespace Volume

open Dinode

variable {lo hi : ℕ} {v w : Volume} {ino : UInt32} {b j : ℕ} {d : List UInt8}

theorem isEdit_storeXattrs_of_fits {bytes : List UInt8} (hfits : unionOff + bytes.length ≤ disize) (flag : UInt8)
    (newMode : ℕ → ℕ) : IsEdit (storeXattrs bytes flag newMode) where
  length d h := (storeXattrs_flags h bytes flag newMode).1
  key key d h := by
    have hfileset : fileset (storeXattrs bytes flag newMode d) = fileset d := readLE_storeXattrs h hfits (by decide)
    have hnumber : number (storeXattrs bytes flag newMode d) = number d := readLE_storeXattrs h hfits (by decide)
    rw [HasKey, HasKey, hfileset, hnumber]

/-- **An update and a mark** at the end of a body. -/
theorem FileAt.of_update_and_mark {α : Type} (h : FileAt lo hi v ino b j d) (hdirty : v.DirtyOnly ino b)
    {f : List UInt8 → List UInt8} (hf : IsEdit f) {a exit : α} (hrun : (do
      updateInodePage ino b (j * disize) f
      markPageDirty ino b
      return a : VolM α) v = .ok exit w) :
    exit = a ∧ FileAt lo hi w ino b j (f d) ∧ w.DirtyOnly ino b := by
  obtain ⟨_, v₁, hupdate, hrun⟩ := of_bind_ok hrun
  obtain ⟨_, v₂, hmark, hrun⟩ := of_bind_ok hrun
  cases hrun
  obtain ⟨h₁, -, htxMgr⟩ := h.update hf hupdate
  have hdirty₁ : v₁.DirtyOnly ino b := by
    unfold DirtyOnly at *
    rwa [htxMgr]
  obtain ⟨h₂, -, hdirty₂⟩ := h₁.mark hdirty₁ hmark
  exact ⟨rfl, h₂, hdirty₂⟩

/-- What a call makes of the inode. -/
def StoresList (call : XattrCall) (d d' : List UInt8) : Prop :=
  ∃ bytes flag newMode, call.stores d = some bytes ∧ unionOff + bytes.length ≤ disize ∧
    d' = storeXattrs bytes flag newMode d ∧ ∀ n, ∀ i < 16, (newMode n % 2 ^ 32).testBit i = n.testBit i

/-- **`setxattr`** that is not refused. -/
theorem FileAt.of_setxattrBody (h : FileAt lo hi v ino b j d) (hdirty : v.DirtyOnly ino b) {name : String}
    {value : List UInt8} {flags : ℕ} {exit : Exit Unit Unit}
    (hrun : setxattrBody ino name.toUTF8.toList value flags v = .ok exit w) :
    (∃ e, exit = .abort (.error e)) ∨ exit = .commit () ∧ ∃ d', StoresList (.set name value flags) d d' ∧
      FileAt lo hi w ino b j d' ∧ w.DirtyOnly ino b := by
  obtain ⟨inode, v₁, hread, hrest⟩ := of_bind_ok hrun
  obtain ⟨rfl, rfl⟩ := h.of_readInode hread
  dsimp only at hrest
  have hrefused : ∀ {e : StorageError}, (pure (.abort (.error e)) : VolM (Exit Unit Unit)) v₁ = .ok exit w →
      ∃ e', exit = .abort (.error e') := by
    intro e he
    cases he
    exact ⟨e, rfl⟩
  generalize hbytes : Xattr.listBytes _ = bytes at hrest
  split at hrest
  · exact .inl (hrefused hrest)
  split at hrest
  · exact .inl (hrefused hrest)
  split at hrest
  · exact .inl (hrefused hrest)
  split at hrest
  · exact .inl (hrefused hrest)
  split at hrest
  · exact .inl (hrefused hrest)
  · next hlength =>
      have hfits : unionOff + bytes.length ≤ disize := by
        unfold unionOff disize
        unfold ixattrSize at hlength
        omega
      obtain ⟨rfl, hw, hdirty'⟩ := h.of_update_and_mark hdirty (isEdit_storeXattrs_of_fits hfits _ _) hrest
      have hstores : (XattrCall.set name value flags).stores d = some bytes := congrArg some hbytes
      exact .inr ⟨rfl, _, ⟨_, _, _, hstores, hfits, rfl, fun n i hi => (testBit_newMode n hi).1⟩, hw, hdirty'⟩

/-- The list that is left of a list of attributes lies in the union area. -/
theorem fits_filter (d : List UInt8) (p : Xattr → Bool) :
    unionOff + (Xattr.listBytes ((xattrsOf d).filter p)).length ≤ disize := by
  unfold xattrsOf Xattr.parseList
  refine (Nat.add_le_add_left (Xattr.length_listBytes_parseFrom p _ _ 0) unionOff).trans ?_
  split
  · decide
  · rw [List.length_take, unionArea, length_slice]
    unfold unionOff disize
    omega

/-- **`removexattr`**, with an attribute to remove or without one. -/
theorem FileAt.of_removexattrBody (h : FileAt lo hi v ino b j d) (hdirty : v.DirtyOnly ino b) {name : String}
    {exit : Exit Bool Bool} (hrun : removexattrBody ino name.toUTF8.toList v = .ok exit w) :
    (exit = .abort (.ok false) ∧ (XattrCall.remove name).stores d = none ∧ w = v) ∨
      exit = .commit true ∧ ∃ d', StoresList (.remove name) d d' ∧ FileAt lo hi w ino b j d' ∧ w.DirtyOnly ino b := by
  obtain ⟨inode, v₁, hread, hrest⟩ := of_bind_ok hrun
  obtain ⟨rfl, rfl⟩ := h.of_readInode hread
  dsimp only at hrest
  have hfits := fits_filter d fun attr => attr.1 ≠ name.toUTF8.toList
  split at hrest
  · next hnone =>
      cases hrest
      refine .inl ⟨rfl, if_neg fun hfound => ?_, rfl⟩
      rw [Bool.not_eq_true'] at hnone
      exact absurd (hnone.symm.trans hfound) (by decide)
  · next hsome =>
      have hfound := Bool.not_eq_false _ ▸ mt (Bool.not_eq_true' _).mpr hsome
      have hstores : (XattrCall.remove name).stores d =
          some (Xattr.listBytes ((xattrsOf d).filter fun attr => attr.1 ≠ name.toUTF8.toList)) := if_pos hfound
      split at hrest
      · obtain ⟨rfl, hw, hdirty'⟩ := h.of_update_and_mark hdirty (isEdit_storeXattrs_of_fits hfits _ _) hrest
        exact .inr ⟨rfl, _, ⟨_, _, _, hstores, hfits, rfl, fun n i hi => (testBit_newMode n hi).2⟩, hw, hdirty'⟩
      · obtain ⟨rfl, hw, hdirty'⟩ := h.of_update_and_mark hdirty (isEdit_storeXattrs_of_fits hfits _ _) hrest
        exact .inr ⟨rfl, _, ⟨_, _, _, hstores, hfits, rfl, fun n i hi => (testBit_newMode n hi).1⟩, hw, hdirty'⟩

/-- What `read_symlink` returns is made of the inode. -/
theorem InodeAt.readSymlink (h : InodeAt lo hi v ino b j d) : readSymlink ino v = returnExcept (targetOf d) v := by
  unfold Volume.readSymlink targetOf
  rw [bind_ok h.readInode]
  unfold Inode.size
  dsimp only
  split
  · rfl
  · split <;> rfl

end Volume

namespace XattrCall

open Volume

/-- The call leaves the root of the inode. -/
def SparesRoot (call : XattrCall) (d : List UInt8) : Prop :=
  ∀ bytes, call.stores d = some bytes → Volume.SparesRoot bytes d

/-- The call leaves the target of the link. -/
def SparesTarget (call : XattrCall) (d : List UInt8) : Prop :=
  ∀ bytes, call.stores d = some bytes → Volume.SparesTarget bytes d

end XattrCall

namespace Volume

open Dinode

section Calls

variable {lo hi : ℕ} {v w : Volume} {ino : UInt32} {b j : ℕ} {d d' : List UInt8}

theorem StoresList.spares {call : XattrCall} (h : StoresList call d d') (hlen : d.length = disize) :
    (root d' = root d ↔ call.SparesRoot d) ∧ (targetOf d' = targetOf d ↔ call.SparesTarget d) := by
  obtain ⟨bytes, flag, newMode, hstores, hfits, rfl, hbits⟩ := h
  have hall : ∀ Q : List UInt8 → Prop, (∀ bytes', call.stores d = some bytes' → Q bytes') ↔ Q bytes := by
    intro Q
    refine ⟨fun hQ => hQ bytes hstores, fun hQ bytes' hstores' => ?_⟩
    cases hstores.symm.trans hstores'
    exact hQ
  exact ⟨(root_storeXattrs_iff hlen hfits).trans (hall fun bytes => SparesRoot bytes d).symm,
    (targetOf_storeXattrs_iff hlen hfits (hbits _)).trans (hall fun bytes => SparesTarget bytes d).symm⟩

theorem spares_of_none {call : XattrCall} (hnone : call.stores d = none) :
    (root d = root d ↔ call.SparesRoot d) ∧ (targetOf d = targetOf d ↔ call.SparesTarget d) :=
  ⟨iff_of_true rfl fun _ hsome => absurd (hnone.symm.trans hsome) (by simp),
    iff_of_true rfl fun _ hsome => absurd (hnone.symm.trans hsome) (by simp)⟩

/-- **A call on the attributes** that returns leaves the root and the target exactly when its list
agrees with them. -/
theorem FileAt.spares_iff (h : FileAt lo hi v ino b j d) {call : XattrCall} (hok : call.fails ino v = false) :
    ∃ d', InodeAt lo hi (call.after ino v) ino b j d' ∧ (root d' = root d ↔ call.SparesRoot d) ∧
      (targetOf d' = targetOf d ↔ call.SparesTarget d) := by
  have hbegun := h.begun
  have hclean := dirtyOnly_begun v ino b
  cases call with
  | set name value flags =>
      cases hrun : setxattr ino name value flags v with
      | error e w => exact absurd (hok.symm.trans (XattrCall.after_set_error hrun).2) (by decide)
      | ok _ w =>
          obtain ⟨exit, u, hbody, hend⟩ := of_transaction_ok hrun
          rw [(XattrCall.after_set_ok hrun).1]
          rcases hbegun.of_setxattrBody hclean hbody with ⟨e, rfl⟩ | ⟨rfl, d', hstored, hu, hdirty⟩
          · rcases hend with ⟨hno, -⟩ | ⟨hno, -⟩ <;> cases hno
          · rcases hend with ⟨-, result, hcommit⟩ | ⟨hno, -⟩
            · exact ⟨d', hu.inodeAt.commit hdirty hcommit, hstored.spares h.length⟩
            · cases hno
  | remove name =>
      cases hrun : removexattr ino name v with
      | error e w =>
          have hfails : (XattrCall.remove name).fails ino v = true := congrArg failed hrun
          rw [hfails] at hok
          cases hok
      | ok found w =>
          obtain ⟨exit, u, hbody, hend⟩ := of_transaction_ok hrun
          rw [XattrCall.after_remove_ok hrun]
          rcases hbegun.of_removexattrBody hclean hbody with ⟨rfl, hnone, rfl⟩ | ⟨rfl, d', hstored, hu, hdirty⟩
          · rcases hend with ⟨hno, -⟩ | ⟨-, habort⟩
            · cases hno
            · exact ⟨d, hbegun.inodeAt.abort rfl habort, spares_of_none hnone⟩
          · rcases hend with ⟨-, result, hcommit⟩ | ⟨hno, -⟩
            · exact ⟨d', hu.inodeAt.commit hdirty hcommit, hstored.spares h.length⟩
            · cases hno

end Calls

/-! ## Calls on content -/

variable {d : List UInt8}

/-- The list of an inode, which ends before the root if there is one. -/
def HoldsShort (attrs : List Xattr) (d : List UInt8) : Prop :=
  xattrsOf d = attrs ∧ (HasInline d → readLE d 108 4 ≤ 96)

/-- A change outside of the descriptor and of the first 96 bytes of the union area. -/
structure KeepsList (f : List UInt8 → List UInt8) : Prop where
  length : ∀ d, d.length = disize → (f d).length = disize
  flag : ∀ d, d.length = disize → (f d).getD 104 0 = d.getD 104 0
  size : ∀ d, d.length = disize → readLE (f d) 108 4 = readLE d 108 4
  list : ∀ d, d.length = disize → slice (f d) unionOff 96 = slice d unionOff 96

theorem KeepsList.comp {f g : List UInt8 → List UInt8} (hf : KeepsList f) (hg : KeepsList g) :
    KeepsList fun d => f (g d) where
  length d h := hf.length _ (hg.length d h)
  flag d h := (hf.flag _ (hg.length d h)).trans (hg.flag d h)
  size d h := (hf.size _ (hg.length d h)).trans (hg.size d h)
  list d h := (hf.list _ (hg.length d h)).trans (hg.list d h)

/-- Bytes in front of the descriptor, or the root. -/
theorem keepsList_splice {off : ℕ} {data : List UInt8} (hhigh : off + data.length ≤ disize)
    (hapart : off + data.length ≤ 104 ∨ rootOff ≤ off) : KeepsList fun d => splice d off data where
  length d h := (length_splice (by rw [h]; exact hhigh)).trans h
  flag d h := by
    unfold rootOff at hapart
    rw [getD_splice _ _ (by rw [h]; exact hhigh), if_neg (by omega)]
  size d h := by
    unfold rootOff at hapart
    exact readLE_splice_of_disjoint (by rw [h]; exact hhigh) (by omega)
  list d h := by
    unfold rootOff at hapart
    exact slice_splice_of_disjoint (by rw [h]; exact hhigh) (by unfold unionOff; omega)

/-- A change that keeps the list keeps the attributes, if the list is short. -/
theorem KeepsList.holdsShort {f : List UInt8 → List UInt8} (hf : KeepsList f) {attrs : List Xattr}
    (h : d.length = disize) (hd : HoldsShort attrs d) : HoldsShort attrs (f d) := by
  obtain ⟨hattrs, hshort⟩ := hd
  unfold HoldsShort HasInline at *
  rw [hf.flag d h, hf.size d h]
  refine ⟨?_, hshort⟩
  rw [← hattrs]
  unfold xattrsOf
  rw [hf.flag d h, hf.size d h]
  by_cases hnone : d.getD 104 0 &&& dxdInline = 0
  · rw [if_pos hnone, if_pos hnone]
  · have htake : ∀ whole : List UInt8, (unionArea whole).take (readLE d 108 4) =
        (slice whole unionOff 96).take (readLE d 108 4) := by
      intro whole
      have hsize := hshort hnone
      unfold unionArea slice
      rw [List.take_take, List.take_take, Nat.min_eq_left (by unfold disize unionOff; omega),
        Nat.min_eq_left hsize]
    rw [if_neg hnone, if_neg hnone, htake, htake, hf.list d h]

/-- A field in front of the descriptor. -/
theorem keepsList_writeLE {off width : ℕ} (hoff : off + width ≤ 104) (n : ℕ) : KeepsList fun d => writeLE d off width n :=
  keepsList_splice (by rw [length_leBytes]; unfold disize; omega) (.inl (by rwa [length_leBytes]))

theorem keepsList_setRoot {bytes : List UInt8} (h : bytes.length = 288) : KeepsList (setRoot bytes) := by
  have hoff : disize - bytes.length = 224 := by
    rw [h]
    rfl
  unfold setRoot
  rw [hoff]
  exact keepsList_splice (by rw [h]; decide) (.inr (by decide))

theorem keepsList_setXtree (xtree : Xtree) (n : ℕ) : KeepsList (setXtree xtree n) :=
  (keepsList_writeLE (by decide) n).comp (keepsList_setRoot xtree.length_toBytes)

theorem keepsList_resize (xtree : Xtree) (size n : ℕ) : KeepsList (resize xtree size n) :=
  (keepsList_writeLE (by decide) n).comp
    ((keepsList_writeLE (by decide) size).comp (keepsList_setRoot xtree.length_toBytes))

/-- The inode lies in slot `j` of block `b` and holds the list there; it lies nowhere else. -/
def ListIn (ino : UInt32) (b j : ℕ) (attrs : List Xattr) (b' j' : ℕ) (d : List UInt8) : Prop :=
  if b' = b ∧ j' = j then HasKey (inodeKey ino) d ∧ HoldsShort attrs d else ¬ HasKey (inodeKey ino) d

theorem keepsSlot_listIn {ino : UInt32} {b j : ℕ} {attrs : List Xattr} {f : List UInt8 → List UInt8} (hedit : IsEdit f)
    (hlist : KeepsList f) : KeepsSlot (ListIn ino b j attrs) f := by
  intro b' j' d h hd
  refine ⟨hedit.length d h, ?_⟩
  unfold ListIn at *
  rw [hedit.key _ d h]
  split
  · next hplace =>
      rw [if_pos hplace] at hd
      exact ⟨hd.1, hlist.holdsShort h hd.2⟩
  · next hplace =>
      rwa [if_neg hplace] at hd

section Content

variable {S : ℕ → ℕ → List UInt8 → Prop} {lo hi : ℕ} {v w : Volume} {ino : UInt32} {b j : ℕ} {attrs : List Xattr}

/-- The list of the inode is the one that is read. -/
theorem SlotsHold.of_getxattr (h : v.SlotsHold (ListIn ino b j attrs) lo hi) {name : String}
    {value : Option (List UInt8)} (hrun : getxattr ino name v = .ok value w) :
    value = (attrs.find? fun attr => attr.1 = name.toUTF8.toList).map Prod.snd := by
  obtain ⟨inode, w', hread, hend⟩ := of_bind_ok hrun
  obtain ⟨-, j', hj', hin, -, ⟨data, hshows, hwhole, hdinode⟩, found, hfound, hfoundWhole, hkey⟩ := h.of_readInode hread
  have hplace : inode.pageBlock = b ∧ j' = j := by
    by_contra helsewhere
    have hslot := h.slots _ _ hin hfound hfoundWhole j' hj'
    unfold ListIn at hslot
    rw [if_neg helsewhere] at hslot
    exact hslot hkey
  have hslot := h.slots _ _ hin hshows hwhole j' hj'
  unfold ListIn at hslot
  rw [if_pos hplace, ← hdinode] at hslot
  cases hend
  rw [xattrs_eq, hslot.2.1]

/-! ### The blocks of files -/

/-- The allocation map lies apart from the table. -/
def MapApart (lo hi : ℕ) (v : Volume) : Prop :=
  ∀ m, v.bmap = some m → ∀ page, page ≤ mapPages m ∨ page ∈ m.dirtyPages → ¬ InTable lo hi (m.dmapStart + page)

/-- The blocks of the file, as it is read, lie apart from the table. -/
def TreeApart (lo hi : ℕ) (ino : UInt32) (v : Volume) : Prop :=
  ∀ inode w xtree, readInode ino v = .ok inode w → inode.xtree = .ok xtree →
    ∀ a ∈ xtree.blocks, ¬ InTable lo hi a

/-- **A data phase** that spares the table. -/
theorem keeps_dataPhase (hmap : MapApart lo hi v) (h : DataPhase (InTable lo hi) v w) : Keeps S lo hi v w := by
  obtain ⟨hrest, hstorage, hmoves⟩ := h
  intro hv
  refine hv.of_same (by rw [hrest]) (by rw [hrest]) (by rw [hrest]) hstorage.blocks
    (by rw [hrest]; exact fun _ => rfl) fun m' hm' i htouch => ?_
  obtain ⟨m, hm, hmove⟩ := hmoves m' hm'
  rcases htouch with hdesc | ⟨page, hpage, hblock⟩
  · rw [hdesc, hmove.dmapStart]
    exact hmap m hm 0 (.inl (Nat.zero_le _))
  · rw [hblock, hmove.dmapStart]
    exact hmap m hm page (hmove.pending page hpage).symm

theorem Quiet.bmap (h : Quiet v w) : w.bmap = v.bmap := by
  obtain ⟨txMgr, faults, rfl, -⟩ := h
  rfl

/-- An inode and its tree are read first. -/
theorem keeps_readXtree_bind {α : Type} {f : Inode → Xtree → VolM α} (hspared : Spared (InTable lo hi) v)
    (hmap : MapApart lo hi v) (htree : TreeApart lo hi ino v)
    (hf : ∀ inode xtree w, Spared (InTable lo hi) w → MapApart lo hi w → (∀ a ∈ xtree.blocks, ¬ InTable lo hi a) →
      SlotAt lo hi inode.pageBlock inode.pageOffset → Keeps S lo hi w (final (f inode xtree w))) :
    Keeps S lo hi v (final ((do
      let inode ← readInode ino
      let xtree ← returnExcept inode.xtree
      f inode xtree) v)) := by
  refine keeps_readInode_bind fun inode w hread hat _ => ?_
  refine Within.bind_at (Within.returnExcept _ w) fun xtree w' hreturn => ?_
  obtain ⟨hxtree, rfl⟩ := of_returnExcept_ok hreturn
  have hbmap := (Quiet.of_run (reads_quiet.readInode ino) hread).bmap
  refine hf inode xtree w' ?_ ?_ (htree inode w' xtree hread hxtree) hat
  · unfold Spared
    rwa [hbmap]
  · unfold MapApart
    rwa [hbmap]

section Bodies

variable (hspared : Spared (InTable lo hi) v) (hmap : MapApart lo hi v) (htree : TreeApart lo hi ino v)
  (hsize : ∀ n, KeepsSlot S (Dinode.setSize n))

include hspared hmap htree hsize

theorem keeps_truncateBody (hresize : ∀ xtree size n, KeepsSlot S (resize xtree size n)) (newSize : ℕ) :
    Keeps S lo hi v (final (truncateBody ino newSize v)) := by
  refine keeps_readXtree_bind hspared hmap htree fun inode xtree w _ hmap hblocks hat => ?_
  dsimp only
  split
  · refine Within.bind_from (keeps_dataPhase hmap (dataPhase_freeExtents _ _ w)) fun _ => ?_
    exact keeps_update_and_mark hat (hresize _ _ _) _ _
  · have hresized : Within (Keeps S lo hi) (do
        updateInode ino inode (Dinode.setSize newSize)
        markPageDirty ino inode.pageBlock
        return (.commit () : Exit Unit Unit)) := keeps_update_and_mark hat (hsize newSize) _ _
    split
    · refine Within.bind_from (keeps_dataPhase hmap ?_) fun _ => hresized
      refine dataPhase_zeroTail (Nat.mod_lt _ (by decide)).le (fun addr count hmem haddr a hlow hhigh => ?_) w
      exact hblocks a (Xtree.mem_blocks_of_mapBlocks hmem haddr a hlow hhigh)
    · exact hresized w

variable (hxtree : ∀ xtree n, KeepsSlot S (setXtree xtree n))

include hxtree

theorem keeps_writeAtBody (offset : ℕ) (data : List UInt8) (token : List Bool) :
    Keeps S lo hi v (final (writeAtBody ino offset data token v)) := by
  refine keeps_readXtree_bind hspared hmap htree fun inode xtree w hspared hmap hblocks hat => ?_
  dsimp only
  refine Within.bind_from (keeps_dataPhase hmap (writes_writeParts data (fun addr count hmem haddr a hlow hhigh => ?_)
    (Nat.mod_lt _ (by decide)).le w hspared).2) fun s => ?_
  · exact hblocks a (Xtree.mem_blocks_of_mapBlocks hmem haddr a hlow hhigh)
  · have hmark : Within (Keeps S lo hi) (do
        markPageDirty ino inode.pageBlock
        return (.commit s.written : Exit ℕ ℕ)) := Within.bind (keeps_markPageDirty _ _) fun _ => Within.pure _
    have hstored : Within (Keeps S lo hi) (do
        if s.modified then updateInode ino inode (setXtree s.xtree s.xtree.totalBlocks)
        markPageDirty ino inode.pageBlock
        return (.commit s.written : Exit ℕ ℕ)) :=
      Within.ite (keeps_update_and_mark hat (hxtree _ _) _ _) hmark
    refine Within.bind (within_checkToken _) fun _ => Within.bind (keeps_flush _) fun _ => ?_
    refine Within.ite (Within.bind (fun u => ?_) fun _ => hstored) hstored
    exact keeps_updateInodePage hat ino ((hsize _).admits u _ _ _)

theorem keeps_fallocateBody (offset len mode : ℕ) :
    Keeps S lo hi v (final (fallocateBody ino offset len mode v)) := by
  refine keeps_readXtree_bind hspared hmap htree fun inode xtree w hspared hmap _ hat => ?_
  dsimp only
  refine Within.bind_from (keeps_dataPhase hmap ?_) fun changed => ?_
  · unfold changeBlocks
    split
    · exact refl_of (DataPhase _) w
    · split
      · exact Within.bind (dataPhase_freeExtents _ _) (fun _ => Within.pure _) w
      · exact (writes_allocateBlocks _ _ _ w hspared).2
  · obtain ⟨xtree', modified⟩ := changed
    have hend : Within (Keeps S lo hi) (do
        markPageDirty ino inode.pageBlock
        onStorage StorageM.flushData
        return (.commit () : Exit Unit Unit)) :=
      Within.bind (keeps_markPageDirty _ _) fun _ => Within.bind (keeps_flush _) fun _ => Within.pure _
    have hstored : Within (Keeps S lo hi) (do
        if modified then updateInode ino inode (setXtree xtree' xtree'.totalBlocks)
        markPageDirty ino inode.pageBlock
        onStorage StorageM.flushData
        return (.commit () : Exit Unit Unit)) := by
      refine Within.ite (Within.bind (fun u => ?_) fun _ => hend) hend
      exact keeps_updateInodePage hat ino ((hxtree _ _).admits u _ _ _)
    refine Within.ite (Within.bind (fun u => ?_) fun _ => hstored) hstored
    exact keeps_updateInodePage hat ino ((hsize _).admits u _ _ _)

end Bodies

end Content

/-- A call on the content of a file, or a change of the entries of a directory. -/
inductive ContentCall
  | writeAt (ino : UInt32) (offset : ℕ) (data : List UInt8) (token : List Bool)
  | truncate (ino : UInt32) (newSize : ℕ)
  | fallocate (ino : UInt32) (offset len mode : ℕ)
  | insertDirEntry (parentIno : UInt32) (name : List UInt16) (childIno index : UInt32)
  | removeDirEntry (parentIno : UInt32) (name : List UInt16)

namespace ContentCall

/-- The volume behind a call, whether it returns or fails. -/
def after (v : Volume) : ContentCall → Volume
  | writeAt ino offset data token => final (writeAtWithInterrupt ino offset data token v)
  | truncate ino newSize => final (Volume.truncate ino newSize v)
  | fallocate ino offset len mode => final (Volume.fallocate ino offset len mode v)
  | insertDirEntry parentIno name childIno index => final (Volume.insertDirEntry parentIno name childIno index v)
  | removeDirEntry parentIno name => final (Volume.removeDirEntry parentIno name v)

/-- The files whose blocks a call may write. -/
def files : ContentCall → List UInt32
  | writeAt ino _ _ _ | truncate ino _ | fallocate ino _ _ _ => [ino]
  | _ => []

end ContentCall

/-- The inode is listed with its attributes, and neither a free block nor the allocation map is a
block of the table. -/
structure Lists (lo hi : ℕ) (v : Volume) (ino : UInt32) (b j : ℕ) (attrs : List Xattr) : Prop where
  slots : v.SlotsHold (ListIn ino b j attrs) lo hi
  spared : Spared (InTable lo hi) v
  map : MapApart lo hi v

section Calls

variable {S : ℕ → ℕ → List UInt8 → Prop} {lo hi : ℕ} {v : Volume} {ino : UInt32} {b j : ℕ} {attrs : List Xattr}

/-- `write_at_with_interrupt`, with its abort behind a failed commit. -/
theorem keeps_writeAtWithInterrupt {offset : ℕ} {data : List UInt8} {token : List Bool}
    (hbody : Keeps S lo hi v.begun (final (writeAtBody ino offset data token v.begun))) :
    Keeps S lo hi v (final (writeAtWithInterrupt ino offset data token v)) := by
  unfold writeAtWithInterrupt
  cases hactive : v.txMgr.active with
  | some active =>
      have hbegin : beginTransaction v = .error (.other "transaction already in progress") v := by
        unfold beginTransaction
        rw [bind_ok (get_apply v), hactive]
        rfl
      rw [bind_error hbegin]
      exact id
  | none =>
      rw [bind_ok (beginTransaction_of_idle hactive)]
      refine Within.bind_from (trans_of (Keeps S lo hi) (keeps_begun v) hbody) fun exit => ?_
      cases exit with
      | commit written =>
          refine Within.bind (Within.tryCatch (Within.bind keeps_commitTransaction fun _ => Within.pure _) fun e => ?_)
            fun _ => Within.pure _
          exact Within.bind keeps_abortTransaction fun _ => Within.throw _
      | abort result => exact Within.bind keeps_abortTransaction fun _ => Within.returnExcept _

theorem keeps_fallocate {offset len mode : ℕ}
    (hbody : Keeps S lo hi v.begun (final (fallocateBody ino offset len mode v.begun))) :
    Keeps S lo hi v (final (Volume.fallocate ino offset len mode v)) := by
  unfold Volume.fallocate
  split
  · exact refl_of (Keeps S lo hi) v
  · exact keeps_transaction hbody

theorem keepsSlot_listIn_setRoot {bytes : List UInt8} (h : bytes.length = 288) :
    KeepsSlot (ListIn ino b j attrs) (setRoot bytes) :=
  keepsSlot_listIn (isEdit_setRoot_bytes h) (keepsList_setRoot h)

/-- **A call on content** keeps the list. -/
theorem Lists.after (h : Lists lo hi v ino b j attrs) (call : ContentCall)
    (hfiles : ∀ f ∈ call.files, TreeApart lo hi f v.begun) :
    (call.after v).SlotsHold (ListIn ino b j attrs) lo hi := by
  obtain ⟨hslots, hspared, hmap⟩ := h
  have hsize : ∀ n, KeepsSlot (ListIn ino b j attrs) (Dinode.setSize n) := fun n =>
    keepsSlot_listIn (isEdit_setSize n) (keepsList_writeLE (by decide) n)
  have hxtree : ∀ xtree n, KeepsSlot (ListIn ino b j attrs) (setXtree xtree n) := fun xtree n =>
    keepsSlot_listIn (isEdit_setXtree xtree n) (keepsList_setXtree xtree n)
  cases call with
  | writeAt f offset data token =>
      have htree := hfiles f (List.mem_singleton_self f)
      exact keeps_writeAtWithInterrupt (keeps_writeAtBody (v := v.begun) hspared hmap htree hsize hxtree _ _ _) hslots
  | truncate f newSize =>
      have htree := hfiles f (List.mem_singleton_self f)
      refine keeps_transaction (keeps_truncateBody (v := v.begun) hspared hmap htree hsize (fun xtree size n => ?_) _) hslots
      exact keepsSlot_listIn (isEdit_resize xtree size n) (keepsList_resize xtree size n)
  | fallocate f offset len mode =>
      have htree := hfiles f (List.mem_singleton_self f)
      exact keeps_fallocate (keeps_fallocateBody (v := v.begun) hspared hmap htree hsize hxtree _ _ _) hslots
  | insertDirEntry parentIno name childIno index =>
      exact keeps_insertDirEntry (fun _ => keepsSlot_listIn_setRoot) parentIno name childIno index v hslots
  | removeDirEntry parentIno name =>
      exact keeps_removeDirEntry (fun _ => keepsSlot_listIn_setRoot) parentIno name v hslots

end Calls

theorem returnExcept_inj {a b : Except StorageError (List UInt8)} {v : Volume} :
    (returnExcept a : VolM (List UInt8)) v = returnExcept b v ↔ a = b := by
  constructor
  · intro heq
    cases a <;> cases b <;> cases heq <;> rfl
  · rintro rfl
    rfl

section OneFile

variable (xtree : Xtree) (size : ℕ)

theorem hasInline_fileInode : ¬ HasInline (fileInode xtree size) := by
  have hsized := length_setSize length_emptyInode size
  have hsize : KeepsList (setSize size) := keepsList_writeLE (by decide) size
  have hempty : ¬ HasInline emptyInode := by decide +kernel
  unfold HasInline fileInode at *
  rwa [(keepsList_setXtree _ _).flag _ hsized, hsize.flag _ length_emptyInode]

theorem xattrsOf_of_not_hasInline {d : List UInt8} (h : ¬ HasInline d) : xattrsOf d = [] := by
  unfold xattrsOf
  rw [if_pos (not_not.mp h)]
  rfl

/-- The other slots are empty. -/
theorem slotOf_oneInode_of_ne {d : List UInt8} (hlen : d.length = disize) {block j : ℕ} (hj : j < inosPerPage)
    (hne : ¬ (block = 4 ∧ j = 0)) : slotOf ((oneInode d fun _ => 0).storage.block block) j = zeros disize := by
  by_cases hblock : block = 4
  · subst hblock
    rw [block_oneInode_table _ hlen, slotOf_inodeBlock (by decide) hlen hj, if_neg fun hzero => hne ⟨rfl, hzero⟩]
  · have htable := Mkfs.length_inodeBlock (show 0 < inosPerPage by decide) hlen
    have hread : (oneInode d fun _ => 0).storage.block block = zeros blockSize := by
      refine (Memory.read_write_of_disjoint ?_).trans ?_
      · rw [htable]
        unfold blockSize
        omega
      · unfold Memory.read zeros
        rw [List.map_const', List.length_range]
    rw [hread]
    exact slotOf_zeros hj

theorem lists_oneFile : Lists 4 35 (oneFile xtree size fun _ => 0) 19 4 0 [] := by
  have hlen := length_fileInode xtree size
  refine ⟨slotsHold_oneInode fun block hin j hj => ?_, ⟨_, rfl, by decide, fun a ha => ?_⟩, fun m hm page hpage hin => ?_⟩
  · unfold ListIn
    split
    · next hplace =>
        obtain ⟨rfl, rfl⟩ := hplace
        have hnone := hasInline_fileInode xtree size
        rw [slotOf_oneInode _ hlen]
        exact ⟨hasKey_fileInode xtree size, xattrsOf_of_not_hasInline hnone, fun hinline => absurd hinline hnone⟩
    · next helsewhere =>
        rw [slotOf_oneInode_of_ne hlen hj helsewhere]
        decide +kernel
  · obtain ⟨hlow, hhigh⟩ := ha
    exact decide_eq_false (by omega)
  · cases hm
    obtain ⟨hlow, -⟩ := hin
    rcases hpage with hle | hmem
    · have hpage : page ≤ 1 + 128 / blocksPerDmap := hle
      have htable : 4 ≤ 1 + page := hlow
      unfold blocksPerDmap at hpage
      omega
    · cases hmem

/-- A file without attributes is given one. -/
theorem exists_setxattr_oneFile (content : ℕ → UInt8) :
    (XattrCall.set "a" [1] 0).fails 19 (oneFile xtree size content) = false := by
  have hat := (fileAt_oneFile xtree size content).inodeAt
  have hnone := not_not.mp (hasInline_fileInode xtree size)
  have hkeeps := keepsXattrs_nil hat rfl hnone
  have hrefused : ¬ (∅ : XattrMap).Refuses "a" [1] 0 := by decide
  obtain ⟨w, hrun, -⟩ := hkeeps.setxattr_inserts hrefused (hkeeps.settled (settled_oneFile ..) (.set "a" [1] 0)).1
  exact (XattrCall.after_set_ok hrun).2

/-- Only the calls of a file with extents reach its blocks. -/
theorem treeApart_oneFile {xtree : Xtree} (hblocks : ∀ a ∈ xtree.stored.blocks, ¬ (4 ≤ a ∧ a ≤ 35)) (size : ℕ)
    (content : ℕ → UInt8) : TreeApart 4 35 19 (oneFile xtree size content).begun := by
  intro inode w xt hread hxtree
  obtain ⟨rfl, -⟩ := (fileAt_oneFile xtree size content).begun.of_readInode hread
  cases (xtree_fileInode xtree size).symm.trans hxtree
  exact hblocks

end OneFile

end Volume

end JfsFuse
