import JfsFuse.Btree.XtreePunch
import JfsFuse.Volume.Truncate

/-!
# Punching a hole

`fallocate` punches out whole blocks, from the one that the range begins in to the one that it
ends in, and writes nothing into them.  What the file shows behind the call is the map of the
punched root over the old blocks.
-/

namespace JfsFuse

open ByteBuf Program

namespace Dinode

variable {d : List UInt8} (h : d.length = disize)

include h

theorem size_setXtree (xtree : Xtree) (n : ℕ) : size (Volume.setXtree xtree n d) = size d := by
  unfold Volume.setXtree
  rw [size_setNblocks (length_setRoot h xtree)]
  exact readLE_setRoot h xtree (by decide)

theorem xtree_setXtree (xtree : Xtree) (n : ℕ) :
    Xtree.fromInodeData (root (Volume.setXtree xtree n d)) = .ok xtree.stored := by
  unfold Volume.setXtree
  rw [root_setNblocks (length_setRoot h xtree), root_setRoot h]
  exact Xtree.fromInodeData_toBytes xtree

end Dinode

namespace Xtree

variable {xt : Xtree} {start stop : ℕ}

/-- The extents after a punch; an empty range changes nothing. -/
def punched (xt : Xtree) (start stop : ℕ) : Xtree :=
  if start = stop then xt else (xt.punchExtents start stop).2

theorem physical_punched (hle : start ≤ stop) (hmap : xt.WellMapped) (hnext : xt.nextIndex ≤ 17) (block : ℕ) :
    (xt.punched start stop).physical block =
      if start ≤ block ∧ block < stop then none
      else if xt.Moved start stop block then xt.physical (block - (stop - start))
      else xt.physical block := by
  unfold punched
  split
  · next hempty =>
      rw [if_neg (by omega), hempty, Nat.sub_self, Nat.sub_zero, ite_self]
  · next hne => exact physical_punchExtents (Nat.lt_of_le_of_ne hle hne) hmap hnext block

/-- **The bytes of a punched file.** -/
theorem byteAt_punched (hle : start ≤ stop) (hmap : xt.WellMapped) (hnext : xt.nextIndex ≤ 17) (s : Storage)
    (i : ℕ) : (xt.punched start stop).byteAt s i =
      if start ≤ i / blockSize ∧ i / blockSize < stop then 0
      else if xt.Moved start stop (i / blockSize) then xt.byteAt s (i - blockSize * (stop - start))
      else xt.byteAt s i := by
  have hphysical := physical_punched hle hmap hnext (i / blockSize)
  split
  · next hinside =>
      rw [if_pos hinside] at hphysical
      exact byteAt_of_none s hphysical
  · next houtside =>
      rw [if_neg houtside] at hphysical
      split
      · next hmoved =>
          rw [if_pos hmoved] at hphysical
          have hge : blockSize * (stop - start) ≤ i :=
            (Nat.mul_le_mul_left _ ((Nat.sub_le _ _).trans hmoved.1)).trans (Nat.mul_div_le i blockSize)
          unfold byteAt
          rw [hphysical, Nat.sub_mul_div, Nat.sub_mul_mod hge]
      · next hkept =>
          rw [if_neg hkept] at hphysical
          exact byteAt_congr hphysical fun _ _ => rfl

end Xtree

namespace Volume

open Dinode

variable {lo hi : ℕ} {v w : Volume} {ino : UInt32} {b j : ℕ} {d : List UInt8} {xtree : Xtree}

/-- The inode after `fallocate`, with the new extents if they changed. -/
def fallocated (mode stop : ℕ) (xtree : Xtree) (modified : Bool) (d : List UInt8) : List UInt8 :=
  let sized := if !isPunch mode && !keepsSize mode && size d < stop then setSize stop d else d
  if modified then setXtree xtree xtree.totalBlocks sized else sized

theorem DataPhase.mono {keep keep' : ℕ → Prop} (h : DataPhase keep v w) (hkeep : ∀ a, keep' a → keep a) :
    DataPhase keep' v w :=
  ⟨h.rest, ⟨h.storage.faults, h.storage.size, fun a ha => h.storage.blocks a (hkeep a ha)⟩, h.map⟩

namespace FileAt

/-- **The end of `fallocate`**: the page is marked, and the data is flushed. -/
theorem markAndFlush (h : FileAt lo hi v ino b j d) (hdirty : v.DirtyOnly ino b) {exit : Exit Unit Unit}
    (hrun : (do
      markPageDirty ino b
      onStorage StorageM.flushData
      return .commit () : VolM (Exit Unit Unit)) v = .ok exit w) :
    exit = .commit () ∧ FileAt lo hi w ino b j d ∧ StaysPut v w ∧ w.DirtyOnly ino b ∧
      ∀ a, w.storage.block a = v.storage.block a := by
  obtain ⟨_, v₁, hmark, hrun⟩ := of_bind_ok hrun
  obtain ⟨_, v₂, hflush, hrun⟩ := of_bind_ok hrun
  cases hrun
  obtain ⟨hfile, hpages, hdirty'⟩ := h.mark hdirty hmark
  have hphase : DataPhase (fun _ => True) v₁ w :=
    Returns.of_run hflush (dataPhase_onStorage (storageKeeps_flush _ _)).returns
  refine ⟨rfl, hfile.dataPhase (hphase.mono fun _ _ => trivial), ?_, ?_, fun a => ?_⟩
  · exact trans_of StaysPut hpages.staysPut hphase.staysPut
  · rw [hphase.rest]
    exact hdirty'
  · rw [hphase.storage.blocks a trivial, hpages]

/-- **The body of `fallocate`** behind the change of the blocks. -/
theorem fallocateBody (h : FileAt lo hi v ino b j d) (hdirty : v.DirtyOnly ino b)
    (hxtree : Xtree.fromInodeData (root d) = .ok xtree) {offset len mode : ℕ} {exit : Exit Unit Unit}
    (hbody : Volume.fallocateBody ino offset len mode v = .ok exit w) :
    ∃ xtree₁ modified v₁,
      changeBlocks mode (offset / blockSize) (blocksUpTo (addU64 offset len)) xtree v = .ok (xtree₁, modified) v₁ ∧
      (DataPhase (fun block => lo ≤ block ∧ block ≤ hi) v v₁ →
        exit = .commit () ∧
          FileAt lo hi w ino b j (fallocated mode (addU64 offset len) xtree₁ modified d) ∧
          StaysPut v w ∧ w.DirtyOnly ino b ∧ ∀ a, w.storage.block a = v₁.storage.block a) := by
  obtain ⟨inode, v₀, hread, hrun⟩ := of_bind_ok hbody
  obtain ⟨rfl, rfl⟩ := h.of_readInode hread
  obtain ⟨xtree', v₂, hxtree', hrun⟩ := of_bind_ok hrun
  obtain ⟨hsame, rfl⟩ := of_returnExcept_ok hxtree'
  cases hsame.symm.trans hxtree
  obtain ⟨⟨xtree₁, modified⟩, v₃, hchange, hrun⟩ := of_bind_ok hrun
  refine ⟨xtree₁, modified, v₃, hchange, fun hphase => ?_⟩
  have hdirty₃ : v₃.DirtyOnly ino b := by
    rw [hphase.rest]
    exact hdirty
  -- the new root, and then the end
  have hroot : ∀ {u : Volume} {d₁ : List UInt8}, FileAt lo hi u ino b j d₁ → u.DirtyOnly ino b → StaysPut v₂ u →
      u.storage = v₃.storage → (do
        if modified then updateInodePage ino b (j * disize) (setXtree xtree₁ xtree₁.totalBlocks)
        markPageDirty ino b
        onStorage StorageM.flushData
        return .commit () : VolM (Exit Unit Unit)) u = .ok exit w →
      exit = .commit () ∧
        FileAt lo hi w ino b j (if modified then setXtree xtree₁ xtree₁.totalBlocks d₁ else d₁) ∧
        StaysPut v₂ w ∧ w.DirtyOnly ino b ∧ ∀ a, w.storage.block a = v₃.storage.block a := by
    intro u d₁ hfile hu hput hstorage hrun
    cases modified with
    | false =>
        obtain ⟨hexit, hfile', hput', hdirty', hblocks⟩ := hfile.markAndFlush hu hrun
        refine ⟨hexit, hfile', trans_of StaysPut hput hput', hdirty', fun a => ?_⟩
        rw [hblocks, hstorage]
    | true =>
        obtain ⟨_, u', hupdate, hrun⟩ := of_bind_ok hrun
        obtain ⟨hfile', hpages, htx⟩ := hfile.update (isEdit_setXtree _ _) hupdate
        have hu' : u'.DirtyOnly ino b := by
          unfold DirtyOnly
          rw [htx]
          exact hu
        obtain ⟨hexit, hfile'', hput', hdirty', hblocks⟩ := hfile'.markAndFlush hu' hrun
        refine ⟨hexit, hfile'', ?_, hdirty', fun a => ?_⟩
        · exact trans_of StaysPut (trans_of StaysPut hput hpages.staysPut) hput'
        · rw [hblocks, hpages, ← hstorage]
  unfold fallocated
  change (if (!isPunch mode && !keepsSize mode && decide (size d < addU64 offset len)) = true then _ else _ :
    VolM (Exit Unit Unit)) v₃ = .ok exit w at hrun
  split at hrun
  · next hgrows =>
      simp only [if_pos hgrows]
      obtain ⟨_, u, hupdate, hrun⟩ := of_bind_ok hrun
      obtain ⟨hfile, hpages, htx⟩ := (h.dataPhase hphase).update (isEdit_setSize _) hupdate
      refine hroot hfile ?_ (trans_of StaysPut hphase.staysPut hpages.staysPut) (by rw [hpages]) hrun
      unfold DirtyOnly
      rw [htx]
      exact hdirty₃
  · next hkeep =>
      simp only [if_neg hkeep]
      exact hroot (h.dataPhase hphase) hdirty₃ hphase.staysPut rfl hrun

/-- **A call of `fallocate`** behind the change of the blocks. -/
theorem fallocate (h : FileAt lo hi v ino b j d) (hxtree : Xtree.fromInodeData (root d) = .ok xtree)
    {offset len mode : ℕ} (hrun : Volume.fallocate ino offset len mode v = .ok () w) :
    ∃ xtree₁ modified v₁,
      changeBlocks mode (offset / blockSize) (blocksUpTo (addU64 offset len)) xtree v.begun =
        .ok (xtree₁, modified) v₁ ∧
      (DataPhase (fun block => lo ≤ block ∧ block ≤ hi) v.begun v₁ →
        FileAt lo hi w ino b j (fallocated mode (addU64 offset len) xtree₁ modified d) ∧ StaysPut v w ∧
          ∀ a, Apart lo hi v a → w.storage.block a = v₁.storage.block a) := by
  have hidle : v.begun.DirtyOnly ino b := by
    intro active hactive key hkey
    cases hactive
    cases hkey
  unfold Volume.fallocate at hrun
  split at hrun
  · cases hrun
  obtain ⟨exit, u, hbody, -⟩ := of_transaction_ok hrun
  obtain ⟨xtree₁, modified, v₁, hchange, -⟩ := h.begun.fallocateBody hidle hxtree hbody
  refine ⟨xtree₁, modified, v₁, hchange, fun hphase => ?_⟩
  obtain ⟨hfile, hput, u', hblocks, hend⟩ := transaction hrun (Q := fun u => ∀ a, u.storage.block a = v₁.storage.block a)
    fun exit u hbody => by
      obtain ⟨xtree₂, modified₂, v₂, hchange₂, hrest⟩ := h.begun.fallocateBody hidle hxtree hbody
      cases hchange.symm.trans hchange₂
      obtain ⟨hexit, hrest⟩ := hrest hphase
      exact ⟨⟨(), hexit⟩, hrest⟩
  exact ⟨hfile, hput, fun a ha => (hend a ha).trans (hblocks a)⟩

end FileAt

/-- A punch changes the root and the allocation map. -/
theorem changeBlocks_punch {mode start stop : ℕ} (hmode : isPunch mode = true) {xtree₁ : Xtree} {modified : Bool}
    (hrun : changeBlocks mode start stop xtree v = .ok (xtree₁, modified) w) :
    xtree₁ = xtree.punched start stop ∧ modified = decide (start ≠ stop) ∧ DataPhase (fun _ => True) v w := by
  unfold changeBlocks at hrun
  unfold Xtree.punched
  split at hrun
  · next hempty =>
      cases hrun
      exact ⟨(if_pos hempty).symm, (decide_eq_false fun hne => hne hempty).symm, refl_of (DataPhase _) _⟩
  · next hne =>
      obtain ⟨_, u, hfree, hrun⟩ := of_bind_ok hrun
      cases hrun
      refine ⟨(if_neg hne).symm, (decide_eq_true hne).symm, ?_⟩
      exact Returns.of_run hfree (dataPhase_freeExtents _ _).returns

/-- **A punched file** has its size, and its bytes are those of the punched extents. -/
theorem FileAt.punch (h : FileAt lo hi v ino b j d) (hxtree : Xtree.fromInodeData (root d) = .ok xtree)
    (hsited : Sited lo hi v xtree) {offset len mode : ℕ} (hmode : isPunch mode = true)
    (hmap : xtree.WellMapped) (hnext : xtree.nextIndex ≤ 17)
    (hle : offset / blockSize ≤ blocksUpTo (addU64 offset len))
    (hrun : Volume.fallocate ino offset len mode v = .ok () w) :
    ∃ d' xtree', FileAt lo hi w ino b j d' ∧ Xtree.fromInodeData (root d') = .ok xtree' ∧ size d' = size d ∧
      w.InVolume xtree' ∧ ∀ i, xtree'.byteAt w.storage i =
        (xtree.punched (offset / blockSize) (blocksUpTo (addU64 offset len))).byteAt v.storage i := by
  obtain ⟨xtree₁, modified, v₁, hchange, hrest⟩ := h.fallocate hxtree hrun
  obtain ⟨hpunched, hmodified, hphase⟩ := changeBlocks_punch hmode hchange
  obtain ⟨hfile, hput, hblocks⟩ := hrest (hphase.mono fun _ _ => trivial)
  have hinode : fallocated mode (addU64 offset len) xtree₁ modified d =
      if modified then setXtree xtree₁ xtree₁.totalBlocks d else d := by
    unfold fallocated
    rw [hmode]
    rfl
  rw [hinode] at hfile
  -- every block of the punched file was a block of the file
  have hphysical : ∀ block a, xtree₁.physical block = some a → ∃ block', xtree.physical block' = some a := by
    intro block a ha
    rw [hpunched, Xtree.physical_punched hle hmap hnext] at ha
    split at ha
    · cases ha
    · split at ha
      · exact ⟨_, ha⟩
      · exact ⟨_, ha⟩
  have hfound : ∃ xtree', Xtree.fromInodeData (root (if modified then setXtree xtree₁ xtree₁.totalBlocks d else d)) =
      .ok xtree' ∧ ∀ block, xtree'.physical block = xtree₁.physical block := by
    cases modified with
    | true => exact ⟨_, xtree_setXtree h.length _ _, Xtree.physical_stored _⟩
    | false =>
        refine ⟨xtree, hxtree, fun block => ?_⟩
        have hempty := of_decide_eq_false hmodified.symm
        rw [hpunched, Xtree.punched, if_pos (not_not.mp hempty)]
  obtain ⟨xtree', hxtree', hsame⟩ := hfound
  refine ⟨_, xtree', hfile, hxtree', ?_, fun block a ha => ?_, fun i => ?_⟩
  · split
    · exact size_setXtree h.length _ _
    · rfl
  · rw [hsame] at ha
    obtain ⟨block', ha'⟩ := hphysical block a ha
    rw [hput.aggSize]
    exact hsited.inside block' a ha'
  · rw [← hpunched]
    refine Xtree.byteAt_congr (hsame _) fun a ha => ?_
    obtain ⟨block', ha'⟩ := hphysical _ a ha
    rw [hblocks a (hsited.apart block' a ha'), hphase.storage.blocks a trivial]
    rfl

end Volume

end JfsFuse
