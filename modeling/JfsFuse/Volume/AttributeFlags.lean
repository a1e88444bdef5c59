import Mathlib.Data.Nat.Bitwise
import JfsFuse.Consistency
import JfsFuse.Volume.SlotInvariant
import JfsFuse.Volume.XattrMap

/-!
# The two flags of inline attributes

`DXD_INLINE` in the descriptor of an inode and `INLINEEA` in its mode both say that the inode holds
attributes.  `setxattr` and `removexattr` set and clear them together.  A change of the mode writes
the mode without `INLINEEA`, and a new inode is given a mode while the descriptor of the slot stays
as the last inode left it.  So the flags agree along a run exactly as long as each such call starts
from a slot whose descriptor fits the mode that it writes.
-/

namespace JfsFuse

open ByteBuf Program

namespace Dinode

/-- `DXD_INLINE` is set in the descriptor. -/
def HasInline (d : List UInt8) : Prop :=
  d.getD 104 0 &&& dxdInline ≠ 0

instance (d : List UInt8) : Decidable (HasInline d) :=
  inferInstanceAs (Decidable (_ ≠ _))

/-- The descriptor and the mode agree. -/
def InStep (d : List UInt8) : Prop :=
  HasInline d ↔ mode d &&& inlineEa ≠ 0

instance (d : List UInt8) : Decidable (InStep d) :=
  inferInstanceAs (Decidable (_ ↔ _))

/-- A change that leaves the mode and the flags of the descriptor alone. -/
structure KeepsFlags (f : List UInt8 → List UInt8) : Prop where
  length : ∀ d, d.length = disize → (f d).length = disize
  mode : ∀ d, d.length = disize → mode (f d) = mode d
  inline : ∀ d, d.length = disize → (HasInline (f d) ↔ HasInline d)

theorem KeepsFlags.comp {f g : List UInt8 → List UInt8} (hf : KeepsFlags f) (hg : KeepsFlags g) :
    KeepsFlags fun d => f (g d) where
  length d h := hf.length _ (hg.length d h)
  mode d h := (hf.mode _ (hg.length d h)).trans (hg.mode d h)
  inline d h := (hf.inline _ (hg.length d h)).trans (hg.inline d h)

theorem KeepsFlags.inStep {f : List UInt8 → List UInt8} (hf : KeepsFlags f) {d : List UInt8} (h : d.length = disize) :
    InStep (f d) ↔ InStep d := by
  unfold InStep
  rw [hf.inline d h, hf.mode d h]

/-- Bytes apart from the mode and from the flags. -/
theorem keepsFlags_splice {off : ℕ} {data : List UInt8} (hhigh : off + data.length ≤ disize)
    (hmode : 56 ≤ off ∨ off + data.length ≤ 52) (hflag : 105 ≤ off ∨ off + data.length ≤ 104) :
    KeepsFlags fun d => splice d off data where
  length d h := (length_splice (by rw [h]; exact hhigh)).trans h
  mode d h := readLE_splice_of_disjoint (by rw [h]; exact hhigh) (by omega)
  inline d h := by
    unfold HasInline
    rw [getD_splice _ _ (by rw [h]; exact hhigh), if_neg (by omega)]

theorem keepsFlags_writeLE {off width : ℕ} (hhigh : off + width ≤ disize) (hmode : 56 ≤ off ∨ off + width ≤ 52)
    (hflag : 105 ≤ off ∨ off + width ≤ 104) (n : ℕ) : KeepsFlags fun d => writeLE d off width n :=
  keepsFlags_splice (by rwa [length_leBytes]) (by rwa [length_leBytes]) (by rwa [length_leBytes])

/-- A field that is written or left alone. -/
theorem keepsFlags_writeField {off width : ℕ} (hhigh : off + width ≤ disize) (hmode : 56 ≤ off ∨ off + width ≤ 52)
    (hflag : 105 ≤ off ∨ off + width ≤ 104) (n : List UInt8 → ℕ) : KeepsFlags fun d => writeLE d off width (n d) where
  length d h := (keepsFlags_writeLE hhigh hmode hflag (n d)).length d h
  mode d h := (keepsFlags_writeLE hhigh hmode hflag (n d)).mode d h
  inline d h := (keepsFlags_writeLE hhigh hmode hflag (n d)).inline d h

/-- The mode is written, and the flags of the descriptor stay. -/
theorem setMode_spec {d : List UInt8} (h : d.length = disize) (n : ℕ) :
    (setMode n d).length = disize ∧ mode (setMode n d) = n % 2 ^ 32 ∧ (HasInline (setMode n d) ↔ HasInline d) := by
  unfold setMode
  refine ⟨?_, ?_, ?_⟩
  · rw [length_writeLE n (by rw [h]; decide), h]
  · exact readLE_writeLE_self n (by rw [h]; decide)
  · unfold HasInline writeLE
    rw [getD_splice _ _ (by rw [h, length_leBytes]; decide), if_neg (by rw [length_leBytes]; omega)]

end Dinode

namespace Volume

open Dinode

/-! ## The changes that the calls make -/

variable {d : List UInt8}

theorem and_inlineEa_ne_zero_iff (n : ℕ) : n &&& inlineEa ≠ 0 ↔ n.testBit 18 = true := by
  have hand : n &&& inlineEa = 2 ^ 18 * (n.testBit 18).toNat := by
    rw [Nat.and_comm]
    exact Nat.two_pow_and n 18
  rw [hand]
  cases n.testBit 18 <;> simp

theorem testBit_addInlineEa (n : ℕ) : (addInlineEa n % 2 ^ 32).testBit 18 = true := by
  unfold addInlineEa
  rw [show inlineEa = 2 ^ 18 from rfl, Nat.testBit_mod_two_pow, Nat.testBit_or, Nat.testBit_two_pow_self]
  simp

theorem testBit_dropInlineEa (n : ℕ) : (dropInlineEa n % 2 ^ 32).testBit 18 = false := by
  have hmask : (2 ^ 32 - 1 - inlineEa).testBit 18 = false := by decide
  unfold dropInlineEa
  rw [Nat.testBit_mod_two_pow, Nat.testBit_and, hmask, Bool.and_false, Bool.and_false]

/-- What a list that is stored leaves: the flag that it is stored with, and the mode that is made of
the one before. -/
theorem storeXattrs_flags (h : d.length = disize) (bytes : List UInt8) (flag : UInt8) (newMode : ℕ → ℕ) :
    (storeXattrs bytes flag newMode d).length = disize ∧
      (HasInline (storeXattrs bytes flag newMode d) ↔ flag &&& dxdInline ≠ 0) ∧
      ∃ n, mode (storeXattrs bytes flag newMode d) = newMode n % 2 ^ 32 := by
  let listed := splice d unionOff (zeros ixattrSize)
  let filled := if unionOff + bytes.length ≤ listed.length then splice listed unionOff bytes else listed
  let flagged := splice filled 104 [flag]
  have hlisted : listed.length = disize := (length_splice (by rw [h, length_zeros]; decide)).trans h
  have hfilled : filled.length = disize := by
    unfold filled
    split
    · rename_i hfits
      exact (length_splice hfits).trans hlisted
    · exact hlisted
  have hfits : 104 + [flag].length ≤ filled.length := by
    rw [hfilled, List.length_singleton]
    decide
  have hflagged : flagged.length = disize := (length_splice hfits).trans hfilled
  have hflag : HasInline flagged ↔ flag &&& dxdInline ≠ 0 := by
    unfold HasInline flagged
    rw [getD_splice _ _ hfits, if_pos (by rw [List.length_singleton]; decide)]
    rfl
  -- the size and the place of the list lie behind the flag
  have hrest : KeepsFlags fun d => splice (writeLE d 108 4 bytes.length) 112 (zeros 8) :=
    (keepsFlags_splice (by rw [length_zeros]; decide) (.inl (by decide)) (.inl (by decide))).comp
      (keepsFlags_writeLE (by decide) (.inl (by decide)) (.inl (by decide)) _)
  obtain ⟨hlen, hmode, hinline⟩ := setMode_spec (hrest.length _ hflagged)
    (newMode (mode (splice (writeLE flagged 108 4 bytes.length) 112 (zeros 8))))
  exact ⟨hlen, hinline.trans ((hrest.inline _ hflagged).trans hflag), _, hmode⟩

/-- A list that is stored sets both flags, and no list clears both. -/
theorem inStep_storeXattrs (h : d.length = disize) (bytes : List UInt8) :
    InStep (storeXattrs bytes dxdInline addInlineEa d) ∧ InStep (storeXattrs bytes 0 dropInlineEa d) := by
  obtain ⟨-, hset, n, hadded⟩ := storeXattrs_flags h bytes dxdInline addInlineEa
  obtain ⟨-, hclear, m, hdropped⟩ := storeXattrs_flags h bytes 0 dropInlineEa
  constructor
  · unfold InStep
    rw [hset, hadded, and_inlineEa_ne_zero_iff]
    exact iff_of_true (by decide) (testBit_addInlineEa n)
  · unfold InStep
    rw [hclear, hdropped, and_inlineEa_ne_zero_iff, testBit_dropInlineEa]
    decide

/-- The fields of a new inode; the flags of the descriptor are those of the slot. -/
theorem newDinode_flags (h : d.length = disize) (newMode size nlink : ℕ) (ino : UInt32) :
    (newDinode newMode size nlink ino d).length = disize ∧ mode (newDinode newMode size nlink ino d) = newMode % 2 ^ 32 ∧
      (HasInline (newDinode newMode size nlink ino d) ↔ HasInline d) := by
  have hrest : KeepsFlags fun d => setNumber (ino.toNat - filesystemI) (setFileset filesystemI
      (setNlink nlink (setNblocks 0 (setSize size d)))) :=
    (keepsFlags_writeLE (by decide) (by decide) (by decide) _).comp
      ((keepsFlags_writeLE (by decide) (by decide) (by decide) _).comp
        ((keepsFlags_writeLE (by decide) (by decide) (by decide) _).comp
          ((keepsFlags_writeLE (by decide) (by decide) (by decide) _).comp
            (keepsFlags_writeLE (by decide) (by decide) (by decide) _))))
  -- the size is written after the mode
  have hsized : newDinode newMode size nlink ino d = setNumber (ino.toNat - filesystemI) (setFileset filesystemI
      (setNlink nlink (setNblocks 0 (setSize size (setMode newMode d))))) := rfl
  obtain ⟨hlen, hmode, hinline⟩ := setMode_spec h newMode
  rw [hsized]
  exact ⟨hrest.length _ hlen, (hrest.mode _ hlen).trans hmode, (hrest.inline _ hlen).trans hinline⟩

/-- A root that is written back. -/
theorem keepsFlags_setRoot {bytes : List UInt8} (hbytes : bytes.length = 288) : KeepsFlags (setRoot bytes) := by
  have hoff : disize - bytes.length = 224 := by
    rw [hbytes]
    rfl
  unfold setRoot
  rw [hoff]
  exact keepsFlags_splice (by rw [hbytes]; decide) (.inl (by decide)) (.inl (by decide))

/-- The fields of a new directory. -/
theorem newDirectory_flags (h : d.length = disize) (ino parentIno : UInt32) :
    (newDirectory ino parentIno d).length = disize ∧ mode (newDirectory ino parentIno d) = 0x41ED ∧
      (HasInline (newDirectory ino parentIno d) ↔ HasInline d) := by
  obtain ⟨hlen, hmode, hinline⟩ := newDinode_flags h 0x41ED 0 2 ino
  have hroot : (root (newDinode 0x41ED 0 2 ino d)).length = 288 := length_slice_of_le (by rw [hlen]; decide)
  have hinit : (initDtroot ino parentIno (root (newDinode 0x41ED 0 2 ino d))).length = 288 := by
    rw [← hroot]
    apply length_spliceAll
    rw [hroot]
    simp
  have hrest : KeepsFlags fun dinode => splice dinode rootOff (initDtroot ino parentIno (root (newDinode 0x41ED 0 2 ino d))) :=
    keepsFlags_splice (by rw [hinit]; decide) (.inl (by decide)) (.inl (by decide))
  exact ⟨hrest.length _ hlen, (hrest.mode _ hlen).trans hmode, (hrest.inline _ hlen).trans hinline⟩

/-- A device number is stored in front of the flags. -/
theorem newSpecial_flags (h : d.length = disize) (newMode rdev : ℕ) (ino : UInt32) :
    (newSpecial newMode rdev ino d).length = disize ∧ mode (newSpecial newMode rdev ino d) = newMode % 2 ^ 32 ∧
      (HasInline (newSpecial newMode rdev ino d) ↔ HasInline d) := by
  obtain ⟨hlen, hmode, hinline⟩ := newDinode_flags h newMode 0 1 ino
  have hdevice : KeepsFlags fun dinode => writeLE dinode 16 8 rdev :=
    keepsFlags_writeLE (by decide) (.inr (by decide)) (.inr (by decide)) rdev
  unfold newSpecial
  dsimp only
  split
  · exact ⟨hdevice.length _ hlen, (hdevice.mode _ hlen).trans hmode, (hdevice.inline _ hlen).trans hinline⟩
  · exact ⟨hlen, hmode, hinline⟩

/-- The target of a link is stored behind the flags. -/
theorem newSymlink_flags (h : d.length = disize) {target : List UInt8} (htarget : target.length < 128) (ino : UInt32) :
    (newSymlink target ino d).length = disize ∧ mode (newSymlink target ino d) = 0xA1FF ∧
      (HasInline (newSymlink target ino d) ↔ HasInline d) := by
  obtain ⟨hlen, hmode, hinline⟩ := newDinode_flags h 0xA1FF target.length 1 ino
  have hstored : KeepsFlags fun dinode => splice dinode unionOff target :=
    keepsFlags_splice (by unfold unionOff disize; omega) (.inl (by decide)) (.inl (by decide))
  exact ⟨hstored.length _ hlen, (hstored.mode _ hlen).trans hmode, (hstored.inline _ hlen).trans hinline⟩

/-- A field that may be written. -/
theorem keepsFlags_setField {off : ℕ} (hoff : off + 4 ≤ 52) (value : Option ℕ) : KeepsFlags (setField value off) := by
  unfold setField
  cases value with
  | none => exact ⟨fun _ => id, fun _ _ => rfl, fun _ _ => Iff.rfl⟩
  | some n => exact keepsFlags_writeLE (by unfold disize; omega) (.inr hoff) (.inr (by omega)) n

/-- A time that may be written. -/
theorem keepsFlags_setTime {off : ℕ} (hlow : 56 ≤ off) (hhigh : off + 8 ≤ 104) (value : Option ℕ) :
    KeepsFlags (setTime value off) := by
  unfold setTime
  cases value with
  | none => exact ⟨fun _ => id, fun _ _ => rfl, fun _ _ => Iff.rfl⟩
  | some n =>
      exact (keepsFlags_writeLE (by unfold disize; omega) (.inl (by omega)) (.inr (by omega)) 0).comp
        (keepsFlags_writeLE (by unfold disize; omega) (.inl hlow) (.inr (by omega)) n)

theorem keepsFlags_changed (change : AttrChange) : KeepsFlags fun d =>
    setTime change.mtime 72 (setTime change.atime 56 (setField change.gid 48 (setField change.uid 44 d))) :=
  (keepsFlags_setTime (by decide) (by decide) _).comp ((keepsFlags_setTime (by decide) (by decide) _).comp
    ((keepsFlags_setField (by decide) _).comp (keepsFlags_setField (by decide) _)))

/-- A change of the mode has no bits above the type. -/
theorem chmod_flags (h : d.length = disize) (newMode : ℕ) :
    (chmod newMode d).length = disize ∧ mode (chmod newMode d) < 2 ^ 16 ∧ (HasInline (chmod newMode d) ↔ HasInline d) := by
  obtain ⟨hlen, hmode, hinline⟩ := setMode_spec h (fileType d * 0x1000 + newMode % 0x1000)
  refine ⟨hlen, ?_, hinline⟩
  have htype : fileType d < 0x10 := Nat.mod_lt _ (by decide)
  unfold chmod
  rw [hmode]
  omega

theorem and_inlineEa_of_lt {n : ℕ} (h : n < 2 ^ 16) : n &&& inlineEa = 0 := by
  by_contra hne
  rw [← ne_eq, and_inlineEa_ne_zero_iff, Nat.testBit_lt_two_pow (h.trans (by decide))] at hne
  cases hne

/-- A change that leaves the mode leaves the flags. -/
theorem keepsFlags_applyAttr {change : AttrChange} (hnone : change.mode = none) : KeepsFlags (applyAttr change) := by
  unfold applyAttr
  rw [hnone]
  exact keepsFlags_changed change

/-- A change of the mode leaves an inode in step if it has no list of attributes. -/
theorem inStep_applyAttr (h : d.length = disize) {change : AttrChange} (hsome : change.mode.isSome) :
    (applyAttr change d).length = disize ∧ (InStep (applyAttr change d) ↔ ¬ HasInline d) := by
  obtain ⟨newMode, hmode⟩ := Option.isSome_iff_exists.mp hsome
  obtain ⟨hlen, hlow, hinline⟩ := chmod_flags h newMode
  have hrest := keepsFlags_changed change
  unfold applyAttr
  rw [hmode]
  refine ⟨hrest.length _ hlen, (hrest.inStep hlen).trans ?_⟩
  unfold InStep
  rw [hinline, and_inlineEa_of_lt hlow]
  simp

/-- A new inode is in step if the descriptor of the slot fits its mode. -/
theorem inStep_of_flags {d' : List UInt8} {n : ℕ} (hmode : mode d' = n) (hinline : HasInline d' ↔ HasInline d) :
    InStep d' ↔ (HasInline d ↔ n &&& inlineEa ≠ 0) := by
  unfold InStep
  rw [hmode, hinline]

/-! ## The slots that are in step -/

/-- A live inode in one of the slots `P` is in step. -/
def InStepIn (P : ℕ → ℕ → Prop) (b j : ℕ) (d : List UInt8) : Prop :=
  P b j → mode d ≠ 0 → InStep d

section Steps

variable {P : ℕ → ℕ → Prop} {lo hi : ℕ} {v : Volume}

theorem keepsSlot_of_flags {f : List UInt8 → List UInt8} (hf : KeepsFlags f) : KeepsSlot (InStepIn P) f :=
  fun _ _ d h hd => ⟨hf.length d h, fun hin hlive => (hf.inStep h).mpr (hd hin (by rwa [hf.mode d h] at hlive))⟩

/-- A program that goes on with an inode that it reads. -/
theorem keeps_readInode_bind {α : Type} {S : ℕ → ℕ → List UInt8 → Prop} {ino : UInt32} {f : Inode → VolM α}
    (hf : ∀ inode w, readInode ino v = .ok inode w → SlotAt lo hi inode.pageBlock inode.pageOffset →
      inode.dinode.length = disize → Keeps S lo hi w (final (f inode w))) :
    Keeps S lo hi v (final ((readInode ino >>= f) v)) := fun h =>
  Within.bind_at (readSteps_keeps.readInode ino v) (fun inode w hrun => by
    obtain ⟨-, j, hj, hin, hoffset, ⟨data, -, hwhole, hdinode⟩, -⟩ := h.of_readInode hrun
    exact hf inode w hrun ⟨hin, j, hj, hoffset⟩ (hdinode ▸ length_slotOf hwhole hj)) h

/-- A program that goes on with a slot that it allocates. -/
theorem keeps_allocateInode_bind {α : Type} {S : ℕ → ℕ → List UInt8 → Prop} {f : UInt32 × ℕ × ℕ → VolM α}
    (hf : ∀ child b offset w, allocateInode v = .ok (child, b, offset) w → SlotAt lo hi b offset →
      Keeps S lo hi w (final (f (child, b, offset) w))) :
    Keeps S lo hi v (final ((allocateInode >>= f) v)) := fun h =>
  Within.bind_at (readSteps_keeps.allocateInode v) (fun ⟨child, b, offset⟩ w hrun =>
    hf child b offset w hrun (h.slotAt_of_allocateInode hrun)) h

/-- A program on a root that keeps the size of the root. -/
theorem length_runDtree {α : Type} {x : Dtree.DtreeM α} (hx : Within Dtree.SameSize x) {dtree dtree' : Dtree} {a : α}
    {w : Volume} (hlen : dtree.data.length = 288) (hrun : runDtree x dtree v = .ok (a, dtree') w) :
    dtree'.data.length = 288 := by
  have hsize := hx dtree hlen
  unfold runDtree at hrun
  cases happly : x dtree with
  | ok a t =>
      rw [happly] at hrun hsize
      cases hrun
      exact hsize
  | error e t =>
      rw [happly] at hrun
      cases hrun

/-- A change of the entries of a directory, which writes its root back or leaves it. -/
theorem keeps_changeEntries {S : ℕ → ℕ → List UInt8 → Prop} {α : Type} {x : Dtree.DtreeM α}
    (hroot : ∀ bytes, bytes.length = 288 → KeepsSlot S (setRoot bytes)) (hx : Within Dtree.SameSize x)
    (parentIno : UInt32) (p : α → Bool) : Within (Keeps S lo hi) (do
      let inode ← readInode parentIno
      let (a, dtree) ← runDtree x (← readDtree inode)
      if p a then updateInode parentIno inode (Dinode.setRoot dtree.toBytes)
      return a : VolM α) := by
  refine fun v => keeps_readInode_bind fun inode w _ hat hlen => ?_
  refine Within.bind_at (Within.returnExcept _ w) fun dtree w' hdtree => ?_
  obtain ⟨hdecoded, rfl⟩ := of_returnExcept_ok hdtree
  have hdata : dtree.data.length = 288 := by
    unfold Inode.dtree Dtree.fromInodeData at hdecoded
    split at hdecoded
    · cases hdecoded
    · cases hdecoded
      exact length_slice_of_le (by rw [hlen]; decide)
  refine Within.bind_at (ReadSteps.runDtree _ _ w') fun ⟨a, dtree'⟩ u hrun => ?_
  have hsize := length_runDtree hx hdata hrun
  dsimp only
  split
  · refine Within.bind_at (keeps_updateInodePage hat parentIno ?_) fun _ u' _ => refl_of (Keeps S lo hi) u'
    exact (hroot _ hsize).admits _ _ _ _
  · exact refl_of (Keeps S lo hi) u

theorem keeps_insertDirEntry {S : ℕ → ℕ → List UInt8 → Prop}
    (hroot : ∀ bytes, bytes.length = 288 → KeepsSlot S (setRoot bytes)) (parentIno : UInt32) (name : List UInt16)
    (childIno index : UInt32) : Within (Keeps S lo hi) (insertDirEntry parentIno name childIno index) :=
  keeps_changeEntries hroot (Dtree.sameSize_insert _ _ _) parentIno id

theorem keeps_removeDirEntry {S : ℕ → ℕ → List UInt8 → Prop}
    (hroot : ∀ bytes, bytes.length = 288 → KeepsSlot S (setRoot bytes)) (parentIno : UInt32) (name : List UInt16) :
    Within (Keeps S lo hi) (removeDirEntry parentIno name) :=
  keeps_changeEntries hroot (Dtree.sameSize_remove _) parentIno Option.isSome

theorem keepsSlot_setRoot {bytes : List UInt8} (h : bytes.length = 288) : KeepsSlot (InStepIn P) (setRoot bytes) :=
  keepsSlot_of_flags (keepsFlags_setRoot h)

theorem keeps_changeNlink (ino : UInt32) (f : ℕ → ℕ) : Within (Keeps (InStepIn P) lo hi) (changeNlink ino f) := by
  refine fun v => keeps_readInode_bind fun inode w _ hat hlen => ?_
  refine Within.bind_at (keeps_updateInodePage hat ino ?_) fun _ w' _ => keeps_markPageDirty _ _ w'
  exact (keepsSlot_of_flags (keepsFlags_writeField (by decide) (by decide) (by decide) _)).admits _ _ _ _

theorem keeps_markInodeDirty (ino : UInt32) : Within (Keeps (InStepIn P) lo hi) (markInodeDirty ino) :=
  Within.bind (readSteps_keeps.readInode ino) fun _ => keeps_markPageDirty _ _

/-- A slot that a call starts from may be written so that it is in step. -/
theorem admits_of_flags {ino : UInt32} {b offset : ℕ} {f : List UInt8 → List UInt8}
    (hf : ∀ j < inosPerPage, offset = j * disize → ∀ d, d = slotOf (v.loaded ino b) j → d.length = disize →
      (f d).length = disize ∧ (P b j → InStep (f d))) :
    Admits (InStepIn P) v ino b offset f := by
  intro j hj hoffset hwhole _
  obtain ⟨hlen, hstep⟩ := hf j hj hoffset _ rfl (length_slotOf hwhole hj)
  exact ⟨hlen, fun hin _ => hstep hin⟩

theorem keeps_enterInode (parentIno : UInt32) (name : List UInt16) {child : UInt32} {b offset : ℕ}
    {init : List UInt8 → List UInt8} (hat : SlotAt lo hi b offset)
    (hinit : Admits (InStepIn P) v child b offset init) :
    Keeps (InStepIn P) lo hi v (final (enterInode parentIno name (child, b, offset) init v)) := by
  refine Within.bind_from (keeps_updateInodePage hat child hinit) fun _ => ?_
  refine Within.bind (keeps_markPageDirty _ _) fun _ => Within.bind (readSteps_keeps.nextEntryIndex _) fun index => ?_
  refine Within.bind (keeps_insertDirEntry (fun _ => keepsSlot_setRoot) _ _ _ _) fun inserted => Within.ite (Within.pure _) ?_
  exact Within.bind (keeps_markInodeDirty _) fun _ => Within.pure _

/-- What is read leaves what an update starts from. -/
theorem Quiet.loaded {w : Volume} (h : Quiet v w) (ino : UInt32) (b : ℕ) : w.loaded ino b = v.loaded ino b := by
  obtain ⟨txMgr, faults, rfl, -⟩ := h
  rfl

/-- An inode that is read, changed and marked. -/
theorem keeps_edit {α : Type} {ino : UInt32} {f : List UInt8 → List UInt8} {a : α}
    (hf : ∀ inode w, readInode ino v = .ok inode w → Admits (InStepIn P) v ino inode.pageBlock inode.pageOffset f) :
    Keeps (InStepIn P) lo hi v (final ((do
      let inode ← readInode ino
      updateInode ino inode f
      markPageDirty ino inode.pageBlock
      return a : VolM α) v)) := by
  refine keeps_readInode_bind fun inode w hrun hat _ => ?_
  have hadmits : Admits (InStepIn P) w ino inode.pageBlock inode.pageOffset f := by
    have hfrom := hf inode w hrun
    unfold Admits at *
    rwa [(Quiet.of_run (reads_quiet.readInode ino) hrun).loaded]
  refine Within.bind_from (keeps_updateInodePage hat ino hadmits) fun _ => ?_
  exact Within.bind (keeps_markPageDirty _ _) fun _ => Within.pure _

/-- A list of attributes is stored. -/
theorem keepsSlot_storeXattrs (bytes : List UInt8) :
    KeepsSlot (InStepIn P) (storeXattrs bytes dxdInline addInlineEa) ∧
      KeepsSlot (InStepIn P) (storeXattrs bytes 0 dropInlineEa) := by
  constructor
  · exact fun _ _ d h _ => ⟨(storeXattrs_flags h bytes _ _).1, fun _ _ => (inStep_storeXattrs h bytes).1⟩
  · exact fun _ _ d h _ => ⟨(storeXattrs_flags h bytes _ _).1, fun _ _ => (inStep_storeXattrs h bytes).2⟩

/-- The end of a call that changes one inode. -/
theorem keeps_update_and_mark {S : ℕ → ℕ → List UInt8 → Prop} {α : Type} {ino : UInt32} {b offset : ℕ}
    {f : List UInt8 → List UInt8} (hat : SlotAt lo hi b offset) (hf : KeepsSlot S f) (block : ℕ) (a : α) :
    Within (Keeps S lo hi) (do
      updateInodePage ino b offset f
      markPageDirty ino block
      return a : VolM α) :=
  Within.bind (fun v => keeps_updateInodePage hat ino (hf.admits v _ _ _)) fun _ =>
    Within.bind (keeps_markPageDirty _ _) fun _ => Within.pure _

theorem keeps_setxattrBody (ino : UInt32) (name value : List UInt8) (flags : ℕ) :
    Within (Keeps (InStepIn P) lo hi) (setxattrBody ino name value flags) := by
  refine fun v => keeps_readInode_bind fun inode w _ hat _ => ?_
  refine Within.ite (Within.pure _) (Within.ite (Within.pure _) (Within.ite (Within.pure _) ?_)) w
  refine Within.ite (Within.pure _) (Within.ite (Within.pure _) ?_)
  exact keeps_update_and_mark hat (keepsSlot_storeXattrs _).1 _ _

theorem keeps_removexattrBody (ino : UInt32) (name : List UInt8) :
    Within (Keeps (InStepIn P) lo hi) (removexattrBody ino name) := by
  refine fun v => keeps_readInode_bind fun inode w _ hat _ => ?_
  refine Within.ite (Within.pure _) (Within.ite ?_ ?_) w
  · exact keeps_update_and_mark hat (keepsSlot_storeXattrs _).2 _ _
  · exact keeps_update_and_mark hat (keepsSlot_storeXattrs _).1 _ _

end Steps

end Volume

/-! ## The calls -/

namespace Operation

open Dinode

/-- The calls that change attributes and modes, or that make an inode. -/
def OnAttributes : Operation → Prop
  | setattr .. | createFile .. | mkdir .. | mknod .. | symlink .. | setxattr .. | removexattr .. => True
  | _ => False

/-- The inode that a call writes, with its place in the table. -/
def place : Operation → VolM (UInt32 × ℕ × ℕ)
  | setattr ino _ | setxattr ino .. | removexattr ino _ => do
      let inode ← Volume.readInode ino
      return (ino, inode.pageBlock, inode.pageOffset)
  | _ => Volume.allocateInode

/-- The descriptor in the bytes that a call starts from fits the mode that the call writes: a new mode
has no bit `INLINEEA`, but for the mode that `mknod` is given. -/
def Fits : Operation → List UInt8 → Prop
  | setattr _ change, d => change.mode.isSome → ¬ HasInline d
  | createFile _ name, d | mkdir _ name, d => validName (encodeUtf16 name) → ¬ HasInline d
  | symlink _ name target, d =>
      validName (encodeUtf16 name) → target.toUTF8.toList.length < 128 → ¬ HasInline d
  | mknod _ name mode _, d =>
      validName (encodeUtf16 name) → mode / 0x1000 % 0x10 ∈ Volume.specialTypes →
        (HasInline d ↔ mode % 2 ^ 32 &&& inlineEa ≠ 0)
  | _, _ => True

/-- A call on one of the slots `P` fits the bytes that it starts from. -/
def FitsIn (P : ℕ → ℕ → Prop) (op : Operation) (v : Volume) : Prop :=
  ∀ ino b j w, op.place v.begun = .ok (ino, b, j * disize) w → P b j → op.Fits (slotOf (v.loaded ino b) j)

/-- So does every call of a run. -/
def FitAll (P : ℕ → ℕ → Prop) : List Operation → Volume → Prop
  | [], _ => True
  | op :: rest, v => op.FitsIn P v ∧ FitAll P rest (op.after v)

end Operation

namespace Volume

open Dinode

section Calls

variable {P : ℕ → ℕ → Prop} {lo hi : ℕ} {v : Volume}

theorem keeps_setattrBody {ino : UInt32} {change : AttrChange} (hfits : (Operation.setattr ino change).FitsIn P v) :
    Keeps (InStepIn P) lo hi v.begun (final (setattrBody ino change v.begun)) := by
  refine keeps_edit fun inode w hrun j hj hoffset hwhole hd => ?_
  have hlen := length_slotOf hwhole hj
  have hplace : (Operation.setattr ino change).place v.begun = .ok (ino, inode.pageBlock, j * disize) w := by
    rw [← hoffset]
    exact bind_ok hrun
  cases hmode : change.mode with
  | none => exact keepsSlot_of_flags (keepsFlags_applyAttr hmode) _ _ _ hlen hd
  | some newMode =>
      have hsome : change.mode.isSome := by rw [hmode]; rfl
      obtain ⟨hlen', hstep⟩ := inStep_applyAttr hlen hsome
      exact ⟨hlen', fun hin _ => hstep.mpr (hfits _ _ _ _ hplace hin hsome)⟩

/-- A new inode may be made in a slot that a call fits. -/
theorem admits_init {op : Operation} (hfits : op.FitsIn P v) {child : UInt32} {b offset : ℕ} {w : Volume}
    (hplace : op.place v.begun = .ok (child, b, offset) w) (hrun : allocateInode v.begun = .ok (child, b, offset) w)
    {init : List UInt8 → List UInt8} {n : ℕ} (hinit : ∀ d, d.length = disize → (init d).length = disize ∧
      mode (init d) = n ∧ (HasInline (init d) ↔ HasInline d))
    (hstep : ∀ d, op.Fits d → (HasInline d ↔ n &&& inlineEa ≠ 0)) : Admits (InStepIn P) w child b offset init := by
  rintro j hj rfl hwhole _
  obtain ⟨hlen, hmode, hinline⟩ := hinit _ (length_slotOf hwhole hj)
  refine ⟨hlen, fun hin _ => (inStep_of_flags hmode hinline).mpr (hstep _ ?_)⟩
  rw [(Quiet.of_run reads_quiet.allocateInode hrun).loaded]
  exact hfits child b j w hplace hin

theorem keeps_createFileBody {parentIno : UInt32} {name : String}
    (hfits : (Operation.createFile parentIno name).FitsIn P v) :
    Keeps (InStepIn P) lo hi v.begun (final (createFileBody parentIno (encodeUtf16 name) v.begun)) := by
  refine keeps_allocateInode_bind fun child b offset w hrun hat => ?_
  split
  · exact refl_of _ w
  · rename_i hvalid
    have hname : validName (encodeUtf16 name) := by simpa using hvalid
    refine keeps_enterInode _ _ hat (admits_init hfits hrun hrun (fun d h => newDinode_flags h 0x81a4 0 1 child) ?_)
    exact fun d hd => iff_of_false (hd hname) (by decide)

theorem keeps_mkdirBody {parentIno : UInt32} {name : String} (hfits : (Operation.mkdir parentIno name).FitsIn P v) :
    Keeps (InStepIn P) lo hi v.begun (final (mkdirBody parentIno (encodeUtf16 name) v.begun)) := by
  refine keeps_allocateInode_bind fun child b offset w hrun hat => ?_
  dsimp only
  split
  · exact refl_of _ w
  · rename_i hvalid
    have hname : validName (encodeUtf16 name) := by simpa using hvalid
    refine Within.bind_from (keeps_updateInodePage hat child (admits_init hfits hrun hrun
      (fun d h => newDirectory_flags h child parentIno) ?_)) fun _ => ?_
    · exact fun d hd => iff_of_false (hd hname) (by decide)
    · refine Within.bind (keeps_markPageDirty _ _) fun _ => Within.bind (readSteps_keeps.nextEntryIndex _) fun _ => ?_
      refine Within.bind (keeps_insertDirEntry (fun _ => keepsSlot_setRoot) _ _ _ _) fun _ => Within.ite (Within.pure _) ?_
      exact Within.bind (keeps_changeNlink _ _) fun _ => Within.pure _

theorem keeps_mknodBody {parentIno : UInt32} {name : String} {mode rdev : ℕ}
    (hfits : (Operation.mknod parentIno name mode rdev).FitsIn P v) :
    Keeps (InStepIn P) lo hi v.begun (final (mknodBody parentIno (encodeUtf16 name) mode rdev v.begun)) := by
  unfold mknodBody
  split
  · exact refl_of _ v.begun
  · rename_i hvalid
    have hname : validName (encodeUtf16 name) := by simpa using hvalid
    split
    · exact refl_of _ v.begun
    · rename_i htype
      rw [not_not] at htype
      refine keeps_allocateInode_bind fun child b offset w hrun hat => ?_
      refine keeps_enterInode _ _ hat (admits_init hfits hrun hrun (fun d h => newSpecial_flags h mode rdev child) ?_)
      exact fun d hd => hd hname htype

theorem keeps_symlinkBody {parentIno : UInt32} {name target : String}
    (hfits : (Operation.symlink parentIno name target).FitsIn P v) :
    Keeps (InStepIn P) lo hi v.begun
      (final (symlinkBody parentIno (encodeUtf16 name) target.toUTF8.toList v.begun)) := by
  refine keeps_allocateInode_bind fun child b offset w hrun hat => ?_
  split
  · exact refl_of _ w
  · rename_i hvalid
    have hname : validName (encodeUtf16 name) := by simpa using hvalid
    split
    · exact refl_of _ w
    · rename_i hlong
      have htarget := Nat.lt_of_not_le hlong
      refine keeps_enterInode _ _ hat (admits_init hfits hrun hrun (fun d h => newSymlink_flags h htarget child) ?_)
      exact fun d hd => iff_of_false (hd hname htarget) (by decide)

/-- **A call keeps the slots in step** if the bytes that it starts from fit. -/
theorem keeps_onAttributes {op : Operation} (hop : op.OnAttributes) (hfits : op.FitsIn P v) :
    Keeps (InStepIn P) lo hi v (op.after v) := by
  unfold Operation.after
  cases op with
  | setattr ino change => exact keeps_transaction (keeps_setattrBody hfits)
  | createFile parentIno name =>
      rw [Operation.run, Operation.final_forget]
      exact keeps_transaction (keeps_createFileBody hfits)
  | mkdir parentIno name =>
      rw [Operation.run, Operation.final_forget]
      exact keeps_transaction (keeps_mkdirBody hfits)
  | mknod parentIno name mode rdev =>
      rw [Operation.run, Operation.final_forget]
      exact keeps_transaction (keeps_mknodBody hfits)
  | symlink parentIno name target =>
      rw [Operation.run, Operation.final_forget]
      exact keeps_transaction (keeps_symlinkBody hfits)
  | setxattr ino name value flags => exact keeps_transaction (keeps_setxattrBody _ _ _ _ _)
  | removexattr ino name =>
      rw [Operation.run, Operation.final_forget]
      exact keeps_transaction (keeps_removexattrBody _ _ _)
  | _ => exact hop.elim

/-- So does a run of such calls. -/
theorem keeps_afterAll {ops : List Operation} (hops : ∀ op ∈ ops, op.OnAttributes) (hfits : Operation.FitAll P ops v) :
    Keeps (InStepIn P) lo hi v (Operation.afterAll ops v) := by
  induction ops generalizing v with
  | nil => exact refl_of _ v
  | cons op rest ih =>
      rw [List.forall_mem_cons] at hops
      exact trans_of _ (keeps_onAttributes hops.1 hfits.1) (ih hops.2 hfits.2)

/-- What is read from the slots `P`: every live inode is in step, and the check has nothing to add to
its report. -/
def ReadsInStep (P : ℕ → ℕ → Prop) (v : Volume) : Prop :=
  ∀ entry inode w j, readInode entry.inumber v = .ok inode w → inode.pageOffset = j * disize → P inode.pageBlock j →
    mode inode.dinode ≠ 0 → InStep inode.dinode ∧ ∀ report, checkXattr entry report v = .ok report w

theorem SlotsHold.readsInStep (h : v.SlotsHold (InStepIn P) lo hi) : v.ReadsInStep P := by
  intro entry inode w j hrun hoffset hin hlive
  obtain ⟨-, j', hj', htable, hplace, ⟨data, hshows, hwhole, hdinode⟩, -⟩ := h.of_readInode hrun
  obtain rfl : j = j' := Nat.eq_of_mul_eq_mul_right (by decide) (hoffset.symm.trans hplace)
  have hstep : InStep inode.dinode := by
    have hslot := h.slots _ _ htable hshows hwhole j hj'
    rw [← hdinode] at hslot
    exact hslot hin hlive
  refine ⟨hstep, fun report => ?_⟩
  have htry : tryReadInode entry.inumber v = .ok (.ok inode) w := tryCatch_ok (bind_ok hrun)
  have hclean : ¬ (inode.dinode.getD 104 0 &&& dxdInline ≠ 0 ∧ mode inode.dinode &&& inlineEa = 0) :=
    fun hboth => hstep.mp hboth.1 hboth.2
  unfold checkXattr
  rw [bind_ok htry]
  simp only
  rw [if_neg hclean]
  rfl

/-- **The two flags stay in step** along every run of these calls whose calls fit: in every state that
is reached, every live inode that is read is in step, and the check has nothing to add for it. -/
theorem readsInStep_afterAll (h : v.SlotsHold (InStepIn P) lo hi) {ops : List Operation}
    (hops : ∀ op ∈ ops, op.OnAttributes) (hfits : Operation.FitAll P ops v) :
    (Operation.afterAll ops v).ReadsInStep P :=
  (keeps_afterAll hops hfits h).readsInStep

end Calls

/-! ## A change of the mode -/

theorem isEdit_applyAttr (change : AttrChange) : IsEdit (applyAttr change) := by
  have hfield : ∀ value off, 12 ≤ off → off + 4 ≤ disize → IsEdit (setField value off) := by
    intro value off hlow hhigh
    unfold setField
    cases value with
    | none => exact ⟨fun _ => id, fun _ _ _ => Iff.rfl⟩
    | some n => exact isEdit_writeLE hlow hhigh n
  have htime : ∀ value off, 12 ≤ off → off + 8 ≤ disize → IsEdit (setTime value off) := by
    intro value off hlow hhigh
    unfold setTime
    cases value with
    | none => exact ⟨fun _ => id, fun _ _ _ => Iff.rfl⟩
    | some n => exact (isEdit_writeLE (by omega) (by omega) 0).comp (isEdit_writeLE hlow (by omega) n)
  have hrest := ((htime change.mtime 72 (by decide) (by decide)).comp (htime change.atime 56 (by decide) (by decide))).comp
    ((hfield change.gid 48 (by decide) (by decide)).comp (hfield change.uid 44 (by decide) (by decide)))
  unfold applyAttr
  cases change.mode with
  | none => exact hrest
  | some newMode => exact hrest.comp (isEdit_writeField (by decide) (by decide) _)

/-- `setattr` on an inode with no other copy of its page. -/
theorem Settled.exists_setattr {lo hi b j : ℕ} {v : Volume} {ino : UInt32} {d : List UInt8} (h : v.Settled)
    (hidle : v.txMgr.active = none) (hat : InodeAt lo hi v ino b j d)
    (halone : ∀ i, i ≠ ino → v.pageCache.peek (i, b) = none) (change : AttrChange) :
    ∃ w, setattr ino change v = .ok () w ∧ InodeAt lo hi w ino b j (applyAttr change d) := by
  obtain ⟨u, d', hupdate, -, hloaded, hat', hpages, htxMgr⟩ := hat.begun.update (isEdit_applyAttr change)
  obtain rfl : d = d' := by
    rw [← hloaded, loaded_eq_own (v := v.begun) halone]
    exact hat.begun.inode.symm
  have hactive : u.txMgr.active ≠ none := by
    rw [htxMgr]
    exact Option.some_ne_none _
  have hdirty : u.DirtyOnly ino b := by
    unfold DirtyOnly
    rw [htxMgr]
    exact dirtyOnly_begun v ino b
  obtain ⟨w, hmark, hat'', hpages', hdirty', hactive'⟩ := hat'.mark hactive hdirty
  have hbody : setattrBody ino change v.begun = .ok (.commit ()) w := by
    unfold setattrBody updateInode
    rw [bind_ok hat.begun.readInode]
    dsimp only
    rw [bind_ok hupdate, bind_ok hmark]
    rfl
  have hw : w.Settled := by
    unfold PagesOnly at hpages hpages'
    rw [hpages', hpages] at hat'' ⊢
    exact h.of_rest hat''.guarded.toCalm rfl rfl rfl fun m hm => ⟨m, hm, MapMoves.refl m⟩
  obtain ⟨active, hopen⟩ := Option.ne_none_iff_exists'.mp hactive'
  obtain ⟨result, w', hcommit⟩ := hw.exists_commit hopen fun key hkey => by
    rw [hdirty' active hopen key hkey]
    exact hat''.block_lt
  refine ⟨w', ?_, hat''.commit hdirty' hcommit⟩
  unfold setattr transaction
  rw [bind_ok (beginTransaction_of_idle hidle), bind_ok hbody]
  exact bind_ok hcommit

/-- The inode of a regular file that has an attribute. -/
def taggedInode : List UInt8 :=
  storeXattrs (Xattr.listBytes [([0x61], [0x31])]) dxdInline addInlineEa emptyInode

theorem length_taggedBytes : (Xattr.listBytes [([0x61], [0x31])]).length ≤ ixattrSize := by
  decide

theorem length_taggedInode : taggedInode.length = disize :=
  (storeXattrs_flags length_emptyInode _ _ _).1

theorem hasKey_taggedInode : HasKey (inodeKey 19) taggedInode :=
  ((isEdit_storeXattrs length_taggedBytes _ _).key _ _ length_emptyInode).mpr (by decide +kernel)

theorem hasInline_taggedInode : HasInline taggedInode :=
  (storeXattrs_flags length_emptyInode _ _ _).2.1.mpr (by decide)

theorem inStep_taggedInode : InStep taggedInode :=
  (inStep_storeXattrs length_emptyInode _).1

/-- A volume with this file alone. -/
def taggedVolume : Volume :=
  oneInode taggedInode fun _ => 0

theorem slotsHold_oneInode {S : ℕ → ℕ → List UInt8 → Prop} {d : List UInt8} {content : ℕ → UInt8}
    (hslots : ∀ block, InTable 4 35 block → ∀ j < inosPerPage, S block j (slotOf ((oneInode d content).storage.block block) j)) :
    (oneInode d content).SlotsHold S 4 35 where
  filed key page hpeek := absurd (hpeek.symm.trans (PageCache.peek_new ..)) (by simp)
  pages key page hpeek := absurd (hpeek.symm.trans (PageCache.peek_new ..)) (by simp)
  start := (ait2_oneInode ..).ge
  stop b _ hb := by
    have hlength : (oneInode d content).ait2.length = 0 := show (Mkfs.makePxd 0 4).length = 0 by decide
    rw [ait2_oneInode, hlength] at hb
    unfold scanSlack at hb
    omega
  log i hi := by
    obtain ⟨lm, hlm, -⟩ := hi
    cases hlm
  map m hm i hi hin := by
    cases hm
    rcases hi with hdesc | ⟨page, hpage, -⟩
    · rw [hdesc] at hin
      exact absurd hin.1 (by decide)
    · cases hpage
  slots block data hin hshows _ j hj := by
    rw [← (shows_oneInode_iff ..).mp hshows]
    exact hslots block hin j hj

theorem slotsHold_taggedVolume : taggedVolume.SlotsHold (InStepIn fun b j => b = 4 ∧ j = 0) 4 35 := by
  refine slotsHold_oneInode fun block _ j _ hslot _ => ?_
  obtain ⟨rfl, rfl⟩ := hslot
  rw [slotOf_oneInode _ length_taggedInode]
  exact inStep_taggedInode

theorem readsInStep_taggedVolume : (Operation.afterAll
    [.setxattr 19 "b" [2] 0, .setattr 19 { uid := some 5 }, .removexattr 19 "a"] taggedVolume).ReadsInStep
      fun b j => b = 4 ∧ j = 0 := by
  refine readsInStep_afterAll slotsHold_taggedVolume (fun op hop => ?_) ⟨fun _ _ _ _ _ _ => trivial, ?_, ?_⟩
  · simp only [List.mem_cons, List.not_mem_nil, or_false] at hop
    rcases hop with rfl | rfl | rfl <;> trivial
  · exact fun _ _ _ _ _ _ hsome => absurd hsome (by decide)
  · exact ⟨fun _ _ _ _ _ _ => trivial, trivial⟩

/-- A volume on which `setattr` goes through. -/
theorem exists_settled {d : List UInt8} (hlen : d.length = disize) (hkey : HasKey (inodeKey 19) d) :
    ∃ v : Volume, v.Settled ∧ v.txMgr.active = none ∧ InodeAt 4 4 v 19 4 0 d ∧
      ∀ i, i ≠ 19 → v.pageCache.peek (i, 4) = none :=
  ⟨oneInode d fun _ => 0, settled_oneInode _, rfl, inodeAt_of_oneInode _ hlen hkey, fun _ _ => PageCache.peek_new ..⟩

/-- A change of the mode drops the bit `INLINEEA` and leaves the flag of the descriptor. -/
theorem exists_setattr_out_of_step : ¬ ∀ (v w w' w'' : Volume) (ino : UInt32) (change : AttrChange) (inode inode' : Inode),
    readInode ino v = .ok inode w → mode inode.dinode ≠ 0 → InStep inode.dinode → setattr ino change w = .ok () w' →
      readInode ino w' = .ok inode' w'' → InStep inode'.dinode := by
  intro hall
  have hinline := hasInline_taggedInode
  have hstep := inStep_taggedInode
  obtain ⟨v, hsettled, hidle, hat, halone⟩ := exists_settled length_taggedInode hasKey_taggedInode
  generalize taggedInode = d at hinline hstep hat
  obtain ⟨w, hrun, hat'⟩ := hsettled.exists_setattr hidle hat halone { mode := some 0o600 }
  have hlive : mode d ≠ 0 := by
    intro hzero
    refine hstep.mp hinline ?_
    rw [hzero]
    decide
  have hafter := hall v v w w 19 { mode := some 0o600 } _ _ hat.readInode hlive hstep hrun hat'.readInode
  have hsome : ({ mode := some 0o600 } : AttrChange).mode.isSome := rfl
  exact (inStep_applyAttr hat.length hsome).2.mp hafter hinline

end Volume

end JfsFuse
