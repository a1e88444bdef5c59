import JfsFuse.Fuse.FileRead
import JfsFuse.Volume.KeptBlocks

/-!
# Calls on other files

A file reads the same after any run of calls on other inodes, whether these return or fail, as long
as no call of the run finds one of its blocks in the tree of the inode that it is about.  The copies
of an inode that lie in the pages of its neighbours do not matter here: a call changes the slot of
its own inode only, so every copy of the slot of the file shows the same bytes.
-/

namespace JfsFuse

open ByteBuf Program

namespace Xtree

/-! ## Reading the same blocks -/

theorem readRun_congr {block count : ℕ} {st st₁ st₂ : ReadState} {s₁ s₂ t₁ t₂ : Storage}
    (hsame : ∀ a, block ≤ a → a < block + count → s₂.block a = s₁.block a)
    (h₁ : readRun block count st s₁ = .ok st₁ t₁) (h₂ : readRun block count st s₂ = .ok st₂ t₂) :
    st₂ = st₁ ∧ (∀ a, t₁.block a = s₁.block a) ∧ ∀ a, t₂.block a = s₂.block a := by
  induction count generalizing block st s₁ s₂ with
  | zero =>
      cases h₁
      cases h₂
      exact ⟨rfl, fun _ => rfl, fun _ => rfl⟩
  | succ count ih =>
      unfold readRun at h₁ h₂
      split at h₁
      · next hdone =>
          rw [if_pos hdone] at h₂
          cases h₁
          cases h₂
          exact ⟨rfl, fun _ => rfl, fun _ => rfl⟩
      · next hmore =>
          rw [if_neg hmore] at h₂
          obtain ⟨data₁, u₁, hread₁, h₁⟩ := of_bind_ok h₁
          obtain ⟨data₂, u₂, hread₂, h₂⟩ := of_bind_ok h₂
          have hdata : data₂ = data₁ := by
            rw [(StorageM.of_readBlock hread₁).1, (StorageM.of_readBlock hread₂).1]
            exact hsame block le_rfl (by omega)
          have hblocks₁ := (StorageM.of_readBlock_frame hread₁).1
          have hblocks₂ := (StorageM.of_readBlock_frame hread₂).1
          subst hdata
          dsimp only at h₁ h₂
          obtain ⟨bytes₁, w₁, hslice₁, hrest₁⟩ := of_bind_ok h₁
          obtain ⟨bytes₂, w₂, hslice₂, hrest₂⟩ := of_bind_ok h₂
          obtain ⟨hbytes₁, rfl⟩ := of_returnExcept_ok hslice₁
          obtain ⟨hbytes₂, rfl⟩ := of_returnExcept_ok hslice₂
          cases hbytes₁.symm.trans hbytes₂
          have hnext : ∀ a, block + 1 ≤ a → a < block + 1 + count → w₂.block a = w₁.block a := by
            intro a hlow hhigh
            rw [hblocks₁, hblocks₂]
            exact hsame a (by omega) (by omega)
          obtain ⟨hst, hend₁, hend₂⟩ := ih hnext hrest₁ hrest₂
          exact ⟨hst, fun a => (hend₁ a).trans (hblocks₁ a), fun a => (hend₂ a).trans (hblocks₂ a)⟩

theorem readParts_congr {parts : List (ℕ × ℕ)} {st st₁ st₂ : ReadState} {s₁ s₂ t₁ t₂ : Storage}
    (hsame : ∀ addr count, (addr, count) ∈ parts → addr ≠ 0 →
      ∀ a, addr ≤ a → a < addr + count → s₂.block a = s₁.block a)
    (h₁ : readParts parts st s₁ = .ok st₁ t₁) (h₂ : readParts parts st s₂ = .ok st₂ t₂) : st₂ = st₁ := by
  induction parts generalizing st s₁ s₂ with
  | nil =>
      cases h₁
      cases h₂
      rfl
  | cons part rest ih =>
      obtain ⟨addr, count⟩ := part
      have hrest := fun addr' count' hmem => hsame addr' count' (List.mem_cons_of_mem _ hmem)
      unfold readParts at h₁ h₂
      by_cases haddr : addr = 0
      · rw [if_pos haddr] at h₁ h₂
        dsimp only at h₁ h₂
        split at h₁
        · next hdone =>
            rw [if_pos hdone] at h₂
            cases h₁
            cases h₂
            rfl
        · next hmore =>
            rw [if_neg hmore] at h₂
            exact ih hrest h₁ h₂
      · rw [if_neg haddr] at h₁ h₂
        obtain ⟨mid₁, u₁, hrun₁, h₁⟩ := of_bind_ok h₁
        obtain ⟨mid₂, u₂, hrun₂, h₂⟩ := of_bind_ok h₂
        obtain ⟨rfl, hend₁, hend₂⟩ := readRun_congr (hsame addr count (List.mem_cons_self ..) haddr) hrun₁ hrun₂
        refine ih (fun addr' count' hmem haddr' a hlow hhigh => ?_) h₁ h₂
        rw [hend₁, hend₂]
        exact hrest addr' count' hmem haddr' a hlow hhigh

/-- **What is read** is determined by the blocks of the file. -/
theorem readData_congr {xt : Xtree} {offset length : ℕ} {s₁ s₂ t₁ t₂ : Storage} {data₁ data₂ : List UInt8}
    (hsame : ∀ a ∈ xt.blocks, s₂.block a = s₁.block a) (h₁ : xt.readData offset length s₁ = .ok data₁ t₁)
    (h₂ : xt.readData offset length s₂ = .ok data₂ t₂) : data₂ = data₁ := by
  obtain ⟨st₁, u₁, hparts₁, h₁⟩ := of_bind_ok h₁
  obtain ⟨st₂, u₂, hparts₂, h₂⟩ := of_bind_ok h₂
  cases h₁
  cases h₂
  rw [readParts_congr (fun addr count hmem haddr a hlow hhigh => ?_) hparts₁ hparts₂]
  exact hsame a (mem_blocks_of_mapBlocks hmem haddr a hlow hhigh)

/-! ## What is freed of a tree -/

theorem mem_blocks_of_mem_slots {xt : Xtree} {xad : Xad} (hmem : xad ∈ xt.slots) {a : ℕ} (hlow : xad.address ≤ a)
    (hhigh : a < xad.address + xad.length) : a ∈ xt.blocks := by
  refine Runs.mem_spans.mpr ⟨xad.run, List.mem_map_of_mem hmem, ?_⟩
  rw [Run.span, mem_addressSpan]
  exact ⟨hlow, hhigh⟩

/-- The part lies in the extent. -/
def PartOf (xad : Xad) (part : ℕ × ℕ) : Prop :=
  xad.address ≤ part.1 ∧ part.1 + part.2 ≤ xad.address + xad.length

theorem partOf_truncateXad {newEof : ℤ} {xad : Xad} {part : ℕ × ℕ} (h : part ∈ (truncateXad newEof xad).2) :
    PartOf xad part := by
  have hstop : xad.stop = xad.offset + xad.length := rfl
  unfold truncateXad at h
  unfold PartOf
  split_ifs at h
  · cases h
  · cases List.mem_singleton.mp h
    exact ⟨le_rfl, le_rfl⟩
  · cases List.mem_singleton.mp h
    dsimp only
    omega
  · cases h

theorem partOf_punchXad {start stop : ℤ} (hle : start ≤ stop) {xad : Xad} {part : ℕ × ℕ}
    (h : part ∈ (punchXad start stop xad).2) : PartOf xad part := by
  have hstop : xad.stop = xad.offset + xad.length := rfl
  unfold punchXad at h
  unfold PartOf
  split_ifs at h
  · cases h
  · cases h
  · cases h
  · cases List.mem_singleton.mp h
    exact ⟨le_rfl, le_rfl⟩
  · cases List.mem_singleton.mp h
    dsimp only
    omega
  · cases List.mem_singleton.mp h
    dsimp only
    omega
  · cases List.mem_singleton.mp h
    dsimp only
    omega

end Xtree

namespace Volume

/-- No block of the tree is one to be kept; its blocks have numbers of 40 bits. -/
def ClearOf (keep : ℕ → Prop) (xtree : Xtree) : Prop :=
  ∀ a ∈ xtree.blocks, a < 2 ^ 40 ∧ ¬ keep a

section Trees

variable {keep : ℕ → Prop} {xtree : Xtree}

/-- What is freed of a tree is not to be kept. -/
theorem ClearOf.freed (h : ClearOf keep xtree) {xad : Xad} (hmem : xad ∈ xtree.slots) {part : ℕ × ℕ}
    (hpart : Xtree.PartOf xad part) {a : ℕ} (hlow : part.1 % 2 ^ 40 ≤ a)
    (hhigh : a < part.1 % 2 ^ 40 + part.2 % 2 ^ 24) : ¬ keep a := by
  obtain ⟨hstart, hstop⟩ := hpart
  have hshort := Nat.mod_le part.2 (2 ^ 24)
  have hfirst := (h part.1 (Xtree.mem_blocks_of_mem_slots hmem hstart (by omega))).1
  rw [Nat.mod_eq_of_lt hfirst] at hlow hhigh
  exact (h a (Xtree.mem_blocks_of_mem_slots hmem (by omega) (by omega))).2

theorem ClearOf.truncateExtents (h : ClearOf keep xtree) (newEof : ℤ) :
    ∀ e ∈ (xtree.truncateExtents newEof).1, ∀ a, e.1 % 2 ^ 40 ≤ a → a < e.1 % 2 ^ 40 + e.2 % 2 ^ 24 → ¬ keep a := by
  intro e he a hlow hhigh
  obtain ⟨part, hpart, hfreed⟩ := List.mem_flatMap.mp he
  obtain ⟨xad, hmem, rfl⟩ := List.mem_map.mp hpart
  exact h.freed hmem (Xtree.partOf_truncateXad hfreed) hlow hhigh

theorem ClearOf.punchExtents (h : ClearOf keep xtree) {start stop : ℤ} (hle : start ≤ stop) :
    ∀ e ∈ (xtree.punchExtents start stop).1, ∀ a, e.1 % 2 ^ 40 ≤ a → a < e.1 % 2 ^ 40 + e.2 % 2 ^ 24 → ¬ keep a := by
  intro e he a hlow hhigh
  obtain ⟨part, hpart, hfreed⟩ := List.mem_flatMap.mp he
  obtain ⟨xad, hmem, rfl⟩ := List.mem_map.mp hpart
  exact h.freed hmem (Xtree.partOf_punchXad hle hfreed) hlow hhigh

theorem ClearOf.mapBlocks (h : ClearOf keep xtree) {offset length : ℕ} :
    ∀ addr count, (addr, count) ∈ xtree.mapBlocks offset length → addr ≠ 0 →
      ∀ a, addr ≤ a → a < addr + count → ¬ keep a :=
  fun _ _ hmem haddr a hlow hhigh => (h a (Xtree.mem_blocks_of_mapBlocks hmem haddr a hlow hhigh)).2

end Trees

/-! ## The other inodes -/

/-- The inode `d` lies in slot `j` of block `b`; the number `ino` is in no other slot. -/
def KeptIn (ino : UInt32) (b j : ℕ) (d : List UInt8) (b' j' : ℕ) (d' : List UInt8) : Prop :=
  if b' = b ∧ j' = j then d' = d else ¬ Dinode.HasKey (inodeKey ino) d'

section Bodies

variable {keep : ℕ → Prop} {content : ℕ → List UInt8} {lo hi : ℕ} {v w : Volume} {ino f : UInt32} {b j : ℕ}
  {d : List UInt8}

/-- Every change of the inode leaves the blocks alone. -/
def Changeable (keep : ℕ → Prop) (content : ℕ → List UInt8) (S : ℕ → ℕ → List UInt8 → Prop) (lo hi : ℕ) (f : UInt32)
    (inode : Inode) : Prop :=
  ∀ edit, Dinode.IsEdit edit → Within (LeavesAlone keep content S lo hi) (updateInode f inode edit)

theorem Changeable.update_and_mark {S : ℕ → ℕ → List UInt8 → Prop} {inode : Inode}
    (h : Changeable keep content S lo hi f inode) {edit : List UInt8 → List UInt8} (hedit : Dinode.IsEdit edit)
    {α : Type} (a : α) :
    Within (LeavesAlone keep content S lo hi) (do
      updateInode f inode edit
      markPageDirty f inode.pageBlock
      return a : VolM α) :=
  Within.bind (h edit hedit) fun _ => Within.bind (leavesAlone_markPageDirty _ _) fun _ => Within.pure _

/-- What is read is the inode that is kept, or one that lies elsewhere and may be changed. -/
structure Found (keep : ℕ → Prop) (content : ℕ → List UInt8) (ino : UInt32) (b j : ℕ) (d : List UInt8) (lo hi : ℕ)
    (f : UInt32) (inode : Inode) : Prop where
  length : inode.dinode.length = disize
  kept : f = ino → inode.dinode = d
  other : f ≠ ino → Changeable keep content (KeptIn ino b j d) lo hi f inode

/-- A slot other than that of the inode may be given another number. -/
theorem leavesAlone_updateElsewhere {b' j' : ℕ} (hat : SlotAt lo hi b' (j' * disize))
    (helsewhere : ¬ (b' = b ∧ j' = j)) {edit : List UInt8 → List UInt8}
    (hedit : ∀ d', d'.length = disize → ¬ Dinode.HasKey (inodeKey ino) d' →
      (edit d').length = disize ∧ ¬ Dinode.HasKey (inodeKey ino) (edit d')) :
    Within (LeavesAlone keep content (KeptIn ino b j d) lo hi) (updateInodePage f b' (j' * disize) edit) := by
  intro u
  refine leavesAlone_updateInodePage hat f fun i hi' hplace hlen hslot => ?_
  have hi : j' = i := Nat.eq_of_mul_eq_mul_right (by decide) hplace
  subst hi
  have hold := length_slotOf hlen hi'
  unfold KeptIn at hslot ⊢
  rw [if_neg helsewhere] at hslot ⊢
  exact hedit _ hold hslot

theorem Undisturbed.found (h : v.Undisturbed keep content (KeptIn ino b j d) lo hi)
    (hkey : Dinode.HasKey (inodeKey ino) d) {inode : Inode} (hread : readInode f v = .ok inode w) :
    Found keep content ino b j d lo hi f inode := by
  obtain ⟨-, j', hj', hin, hoffset, ⟨data, hshows, hdata, hdinode⟩, found, hfound, hwhole, hother⟩ :=
    h.slots.of_readInode hread
  have hslot := h.slots.slots _ _ hin hfound hwhole j' hj'
  refine ⟨hdinode ▸ length_slotOf hdata hj', ?_, fun hne edit hedit => ?_⟩
  · rintro rfl
    have hplace : inode.pageBlock = b ∧ j' = j := by
      by_contra helsewhere
      unfold KeptIn at hslot
      rw [if_neg helsewhere] at hslot
      exact hslot hother
    have hread := h.slots.slots _ _ hin hshows hdata j' hj'
    unfold KeptIn at hread
    rw [if_pos hplace] at hread
    exact hdinode.trans hread
  · have helsewhere : ¬ (inode.pageBlock = b ∧ j' = j) := by
      intro hplace
      unfold KeptIn at hslot
      rw [if_pos hplace] at hslot
      rw [hslot] at hother
      have hnumber : inodeKey f = inodeKey ino := Prod.ext (hother.1.symm.trans hkey.1) (hother.2.symm.trans hkey.2)
      exact hne (inodeKey_injective hnumber)
    unfold updateInode
    rw [hoffset]
    refine leavesAlone_updateElsewhere ⟨hin, j', hj', rfl⟩ helsewhere fun d' hlen hnone => ?_
    exact ⟨hedit.length d' hlen, fun hnew => hnone ((hedit.key _ d' hlen).mp hnew)⟩

/-- The blocks of the file, as it is read, are apart from those to be kept. -/
def TreeClear (keep : ℕ → Prop) (f : UInt32) (v : Volume) : Prop :=
  ∀ inode w xtree, readInode f v = .ok inode w → inode.xtree = .ok xtree → ClearOf keep xtree

/-- What is freed when the file is removed is not to be kept. -/
theorem TreeClear.extentsOf {keep : ℕ → Prop} (h : TreeClear keep f v) {inode : Inode}
    (hread : readInode f v = .ok inode w) :
    ∀ e ∈ Volume.extentsOf inode, ∀ a, e.1 % 2 ^ 40 ≤ a → a < e.1 % 2 ^ 40 + e.2 % 2 ^ 24 → ¬ keep a := by
  unfold Volume.extentsOf
  split
  · cases hxtree : inode.xtree with
    | ok xtree => exact (h inode w xtree hread hxtree).truncateExtents 0
    | error e => exact fun e he => absurd he List.not_mem_nil
  · exact fun e he => absurd he List.not_mem_nil

variable (hkey : Dinode.HasKey (inodeKey ino) d)

include hkey

/-- An inode is read first. -/
theorem leavesAlone_readInode_bind {α : Type} {g : Inode → VolM α}
    (hg : ∀ inode w, readInode f v = .ok inode w → Found keep content ino b j d lo hi f inode →
      LeavesAlone keep content (KeptIn ino b j d) lo hi w (final (g inode w))) :
    LeavesAlone keep content (KeptIn ino b j d) lo hi v (final ((do
      let inode ← readInode f
      g inode) v)) := by
  intro h
  refine (show LeavesAlone keep content (KeptIn ino b j d) lo hi v _ from ?_) h
  refine Within.bind_at (readSteps_leavesAlone.readInode f v) fun inode w hread => ?_
  exact hg inode w hread (h.found hkey hread)

variable (hne : f ≠ ino)

include hne

/-- Another inode and its tree are read first. -/
theorem leavesAlone_readXtree_bind {α : Type} {g : Inode → Xtree → VolM α}
    (htree : TreeClear (fun a => keep a ∨ InTable lo hi a) f v)
    (hg : ∀ inode xtree w, ClearOf (fun a => keep a ∨ InTable lo hi a) xtree →
      Changeable keep content (KeptIn ino b j d) lo hi f inode →
        LeavesAlone keep content (KeptIn ino b j d) lo hi w (final (g inode xtree w))) :
    LeavesAlone keep content (KeptIn ino b j d) lo hi v (final ((do
      let inode ← readInode f
      let xtree ← returnExcept inode.xtree
      g inode xtree) v)) := by
  refine leavesAlone_readInode_bind hkey fun inode w hread hfound => ?_
  refine Within.bind_at (Within.returnExcept _ w) fun xtree w' hreturn => ?_
  obtain ⟨hxtree, rfl⟩ := of_returnExcept_ok hreturn
  exact hg inode xtree w' (htree inode w' xtree hread hxtree) (hfound.other hne)

/-! ### The bodies -/

theorem leavesAlone_truncateBody (newSize : ℕ) (htree : TreeClear (fun a => keep a ∨ InTable lo hi a) f v) :
    LeavesAlone keep content (KeptIn ino b j d) lo hi v (final (truncateBody f newSize v)) := by
  refine leavesAlone_readXtree_bind hkey hne htree fun inode xtree w hclear hchange => ?_
  dsimp only
  split
  · refine Within.bind_from (leavesAlone_freeExtents (hclear.truncateExtents _) w) fun _ => ?_
    exact hchange.update_and_mark (isEdit_resize _ _ _) _
  · have hresized := hchange.update_and_mark (Dinode.isEdit_setSize newSize) (.commit () : Exit Unit Unit)
    split
    · refine Within.bind_from (leavesAlone_dataPhase ?_ ((writeSteps_keepsMap _).zeroTail _ _ w)) fun _ => hresized
      exact dataPhase_zeroTail (Nat.mod_lt _ (by decide)).le hclear.mapBlocks w
    · exact hresized w

theorem leavesAlone_writeAtBody (offset : ℕ) (data : List UInt8) (token : List Bool)
    (htree : TreeClear (fun a => keep a ∨ InTable lo hi a) f v) :
    LeavesAlone keep content (KeptIn ino b j d) lo hi v (final (writeAtBody f offset data token v)) := by
  refine leavesAlone_readXtree_bind hkey hne htree fun inode xtree w hclear hchange => ?_
  dsimp only
  refine Within.bind_from (fun h => ?_) fun s => ?_
  · refine leavesAlone_dataPhase (writes_writeParts data hclear.mapBlocks ?_ w h.map.spared).2
      ((writeSteps_keepsMap _).writeParts _ _ _ w) h
    exact (Nat.mod_lt _ (by decide)).le
  · have hmark : Within (LeavesAlone keep content (KeptIn ino b j d) lo hi) (do
        markPageDirty f inode.pageBlock
        return (.commit s.written : Exit ℕ ℕ)) :=
      Within.bind (leavesAlone_markPageDirty _ _) fun _ => Within.pure _
    have hstored : Within (LeavesAlone keep content (KeptIn ino b j d) lo hi) (do
        if s.modified then updateInode f inode (setXtree s.xtree s.xtree.totalBlocks)
        markPageDirty f inode.pageBlock
        return (.commit s.written : Exit ℕ ℕ)) :=
      Within.ite (hchange.update_and_mark (isEdit_setXtree _ _) _) hmark
    refine Within.bind (within_checkToken _) fun _ => Within.bind (leavesAlone_flush _) fun _ => ?_
    exact Within.ite (Within.bind (hchange _ (Dinode.isEdit_setSize _)) fun _ => hstored) hstored

theorem leavesAlone_fallocateBody {offset len mode : ℕ} (hrange : offset + len + blockSize ≤ 2 ^ 64)
    (htree : TreeClear (fun a => keep a ∨ InTable lo hi a) f v) :
    LeavesAlone keep content (KeptIn ino b j d) lo hi v (final (fallocateBody f offset len mode v)) := by
  refine leavesAlone_readXtree_bind hkey hne htree fun inode xtree w hclear hchange => ?_
  have hle : offset / blockSize ≤ blocksUpTo (addU64 offset len) := by
    unfold blockSize at hrange
    rw [addU64, Nat.mod_eq_of_lt (by omega), blocksUpTo_eq (by unfold blockSize; omega)]
    exact Nat.div_le_div_right (by omega)
  dsimp only
  refine Within.bind_from ?_ fun changed => ?_
  · unfold changeBlocks
    split
    · exact refl_of (LeavesAlone _ _ _ _ _) w
    · split
      · refine Within.bind (leavesAlone_freeExtents (hclear.punchExtents ?_)) (fun _ => Within.pure _) w
        exact_mod_cast hle
      · intro h
        have hblocks := writes_allocateBlocks (offset / blockSize)
          (blocksUpTo (addU64 offset len) - offset / blockSize) (xtree, false) w h.map.spared
        exact leavesAlone_dataPhase hblocks.2 ((writeSteps_keepsMap _).allocateBlocks _ _ _ w) h
  · obtain ⟨xtree', modified⟩ := changed
    have hend : Within (LeavesAlone keep content (KeptIn ino b j d) lo hi) (do
        markPageDirty f inode.pageBlock
        onStorage StorageM.flushData
        return (.commit () : Exit Unit Unit)) :=
      Within.bind (leavesAlone_markPageDirty _ _) fun _ => Within.bind (leavesAlone_flush _) fun _ => Within.pure _
    have hstored : Within (LeavesAlone keep content (KeptIn ino b j d) lo hi) (do
        if modified then updateInode f inode (setXtree xtree' xtree'.totalBlocks)
        markPageDirty f inode.pageBlock
        onStorage StorageM.flushData
        return (.commit () : Exit Unit Unit)) :=
      Within.ite (Within.bind (hchange _ (isEdit_setXtree _ _)) fun _ => hend) hend
    exact Within.ite (Within.bind (hchange _ (Dinode.isEdit_setSize _)) fun _ => hstored) hstored

theorem leavesAlone_setattrBody (change : AttrChange) :
    LeavesAlone keep content (KeptIn ino b j d) lo hi v (final (setattrBody f change v)) :=
  leavesAlone_readInode_bind hkey fun _ w _ hfound => (hfound.other hne).update_and_mark (isEdit_applyAttr change) _ w

theorem leavesAlone_setxattrBody (name value : List UInt8) (flags : ℕ) :
    LeavesAlone keep content (KeptIn ino b j d) lo hi v (final (setxattrBody f name value flags v)) := by
  refine leavesAlone_readInode_bind hkey fun inode w _ hfound => ?_
  have hchange := hfound.other hne
  dsimp only
  generalize Xattr.listBytes _ = bytes
  split
  · exact refl_of (LeavesAlone _ _ _ _ _) w
  split
  · exact refl_of (LeavesAlone _ _ _ _ _) w
  split
  · exact refl_of (LeavesAlone _ _ _ _ _) w
  split
  · exact refl_of (LeavesAlone _ _ _ _ _) w
  split
  · exact refl_of (LeavesAlone _ _ _ _ _) w
  · next hlength => exact hchange.update_and_mark (isEdit_storeXattrs (Nat.le_of_not_lt hlength) _ _) _ w

theorem leavesAlone_removexattrBody (name : List UInt8) :
    LeavesAlone keep content (KeptIn ino b j d) lo hi v (final (removexattrBody f name v)) := by
  refine leavesAlone_readInode_bind hkey fun inode w _ hfound => ?_
  have hchange := hfound.other hne
  dsimp only
  have hfits := fits_filter inode.dinode fun attr => attr.1 ≠ name
  rw [← xattrs_eq] at hfits
  split
  · exact refl_of (LeavesAlone _ _ _ _ _) w
  · split
    · exact hchange.update_and_mark (isEdit_storeXattrs_of_fits hfits _ _) _ w
    · exact hchange.update_and_mark (isEdit_storeXattrs_of_fits hfits _ _) _ w

end Bodies

end Volume

end JfsFuse
