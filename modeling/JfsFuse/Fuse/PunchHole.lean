import JfsFuse.Fuse.ShrinkGrow
import JfsFuse.Volume.Punch

/-!
# Punching a hole by bytes

The request is in bytes and `fallocate` works on blocks.  The other bytes of the first and of the
last block are lost with them, and behind the hole the rest of an extent that is split shows the
blocks that lie the length of the hole before.
-/

namespace JfsFuse

open ByteBuf Program

namespace Volume

open Dinode

variable {lo hi : ℕ} {v w : Volume} {ino : UInt32} {b j : ℕ} {d : List UInt8} {xtree : Xtree}

/-- The bytes of the range are read as zeros and all others as before, and the size is the same. -/
def PunchedOnly (v w : Volume) (ino : UInt32) (size offset len : ℕ) : Prop :=
  (∀ i < size, offset ≤ i ∧ i < offset + len → w.ReadsByte ino i 0) ∧
    (∀ i < size, ¬ (offset ≤ i ∧ i < offset + len) → ∀ x, v.ReadsByte ino i x → w.ReadsByte ino i x) ∧
    ∃ inode, readInode ino w = .ok inode w ∧ inode.size = size

/-- The bytes outside the range are zeros in the blocks that the range meets, and, in the part of
an extent that is moved, equal to the bytes that lie the length of the hole before. -/
def SparesOthers (v : Volume) (xtree : Xtree) (size offset len : ℕ) : Prop :=
  ∀ i < size, ¬ (offset ≤ i ∧ i < offset + len) →
    (offset / blockSize ≤ i / blockSize ∧ i / blockSize < blocksUpTo (offset + len) →
      xtree.byteAt v.storage i = 0) ∧
    (xtree.Moved (offset / blockSize) (blocksUpTo (offset + len)) (i / blockSize) →
      xtree.byteAt v.storage (i - blockSize * (blocksUpTo (offset + len) - offset / blockSize)) =
        xtree.byteAt v.storage i)

/-- The blocks of a range hold its bytes. -/
theorem block_of_range {offset len i : ℕ} (hfits : offset + len + (blockSize - 1) < 2 ^ 64)
    (hi : offset ≤ i ∧ i < offset + len) :
    offset / blockSize ≤ i / blockSize ∧ i / blockSize < blocksUpTo (offset + len) := by
  rw [blocksUpTo_eq hfits]
  unfold blockSize
  omega

/-- **`fallocate` returns** when the change of the blocks does. -/
theorem FileAt.exists_fallocate (h : FileAt lo hi v ino b j d) (hidle : v.txMgr.active = none)
    (hxtree : Xtree.fromInodeData (root d) = .ok xtree) {offset len mode : ℕ} (hmode : unsupportedMode mode = false)
    {xtree₁ : Xtree} {modified : Bool} {u : Volume} (hchange : changeBlocks mode (offset / blockSize)
      (blocksUpTo (addU64 offset len)) xtree v.begun = .ok (xtree₁, modified) u)
    (hphase : DataPhase (fun block => lo ≤ block ∧ block ≤ hi) v.begun u) (hu : u.Settled) :
    ∃ w, Volume.fallocate ino offset len mode v = .ok () w ∧ w.Settled ∧ w.txMgr.active = none := by
  have hbegun := h.begun
  have hguarded := (hbegun.dataPhase hphase).guarded
  have hactive : u.txMgr = v.begun.txMgr := by rw [hphase.rest]
  have hagg : u.aggSize = v.aggSize := by rw [hphase.rest]; rfl
  -- the end: a mark, and a flush
  have hend : ∀ {x : Volume}, x.Settled → x.Guarded lo hi → x.aggSize = v.aggSize → x.txMgr = v.begun.txMgr →
      ∃ y active, (do
        markPageDirty ino b
        onStorage StorageM.flushData
        return .commit () : VolM (Exit Unit Unit)) x = .ok (.commit ()) y ∧ y.Settled ∧ y.Guarded lo hi ∧
          y.txMgr.active = some active ∧ ∀ key ∈ active.dirtyPages, key.2 < y.aggSize := by
    intro x hx hguarded hagg htx
    obtain ⟨y, hmark, hy, hguarded', hagg', hactive'⟩ := hx.exists_mark hguarded ino b (congrArg TransactionManager.active htx)
    have hflush : onStorage StorageM.flushData y = .ok () { y with storage := y.storage.record .flushData } :=
      zoom_ok (StorageM.flush_ok hy.faults _)
    have hphase' : DataPhase (fun block => lo ≤ block ∧ block ≤ hi) y { y with storage := y.storage.record .flushData } :=
      ⟨rfl, ⟨id, rfl, fun _ _ => rfl⟩, fun m hm => ⟨m, hm, MapMoves.refl m⟩⟩
    obtain ⟨hguarded'', -⟩ := hphase'.safe (P := fun _ => True) hguarded'
    refine ⟨_, _, (bind_ok hmark).trans ((bind_ok hflush).trans rfl), ⟨hguarded''.toCalm, hy.backend, hy.log, hy.map⟩,
      hguarded'', hactive', fun key hkey => ?_⟩
    have hself : key = (ino, b) := by simpa [marked] using hkey
    rw [hself]
    show b < y.aggSize
    rw [hagg', hagg]
    exact h.placed.inside
  -- the root before it
  have hroot : ∀ {x : Volume}, x.Settled → x.Guarded lo hi → x.aggSize = v.aggSize → x.txMgr = v.begun.txMgr →
      ∃ y active, (do
        if modified then updateInodePage ino b (j * disize) (setXtree xtree₁ xtree₁.totalBlocks)
        markPageDirty ino b
        onStorage StorageM.flushData
        return .commit () : VolM (Exit Unit Unit)) x = .ok (.commit ()) y ∧ y.Settled ∧ y.Guarded lo hi ∧
          y.txMgr.active = some active ∧ ∀ key ∈ active.dirtyPages, key.2 < y.aggSize := by
    intro x hx hguarded hagg htx
    cases modified with
    | false => exact hend hx hguarded hagg htx
    | true =>
        obtain ⟨x', hupdate, hx', hguarded', hagg', htx'⟩ := hx.exists_update hguarded ino h.high h.placed.slot
          (isEdit_setXtree xtree₁ xtree₁.totalBlocks)
        obtain ⟨y, active, hrun, hrest⟩ := hend hx' hguarded' (hagg'.trans hagg) (htx'.trans htx)
        exact ⟨y, active, (bind_ok hupdate).trans hrun, hrest⟩
  obtain ⟨y, active, hbody, hy, hguarded', hactive', hkeys⟩ : ∃ y active,
      Volume.fallocateBody ino offset len mode v.begun = .ok (.commit ()) y ∧ y.Settled ∧ y.Guarded lo hi ∧
        y.txMgr.active = some active ∧ ∀ key ∈ active.dirtyPages, key.2 < y.aggSize := by
    unfold Volume.fallocateBody
    rw [bind_ok hbegun.readInode]
    have hread : returnExcept (Inode.xtree { dinode := d, ino, pageBlock := b, pageOffset := j * disize }) v.begun =
        .ok xtree v.begun := by
      rw [show Inode.xtree { dinode := d, ino, pageBlock := b, pageOffset := j * disize } = .ok xtree from hxtree]
      rfl
    rw [bind_ok hread]
    simp only
    rw [bind_ok hchange]
    by_cases hgrows : (!isPunch mode && !keepsSize mode && decide (size d < addU64 offset len)) = true
    · obtain ⟨x, hupdate, hx, hguarded', hagg', htx'⟩ := hu.exists_update hguarded ino h.high h.placed.slot
        (isEdit_setSize (addU64 offset len))
      obtain ⟨y, active, hrun, hrest⟩ := hroot hx hguarded' (hagg'.trans hagg) (htx'.trans hactive)
      exact ⟨y, active, (congrFun (if_pos hgrows) u).trans ((bind_ok hupdate).trans hrun), hrest⟩
    · obtain ⟨y, active, hrun, hrest⟩ := hroot hu hguarded hagg hactive
      exact ⟨y, active, (congrFun (if_neg hgrows) u).trans hrun, hrest⟩
  obtain ⟨w, hrun, hw⟩ := exists_transaction hidle hbody hy hguarded' hactive' hkeys
  refine ⟨w, ?_, hw⟩
  unfold Volume.fallocate
  rw [hmode]
  exact hrun

/-- **A punch returns.** -/
theorem Settled.exists_punch (hsettled : v.Settled) (h : FileAt lo hi v ino b j d) (hidle : v.txMgr.active = none)
    (hxtree : Xtree.fromInodeData (root d) = .ok xtree) {offset len : ℕ}
    (hne : offset / blockSize ≠ blocksUpTo (addU64 offset len)) :
    ∃ w, Volume.fallocate ino offset len 3 v = .ok () w := by
  have hchange : ∃ u, changeBlocks 3 (offset / blockSize) (blocksUpTo (addU64 offset len)) xtree v.begun =
      .ok ((xtree.punchExtents ↑(offset / blockSize) ↑(blocksUpTo (addU64 offset len))).2, true) u ∧
        u.storage = v.begun.storage := by
    unfold changeBlocks
    rw [if_neg hne]
    exact ⟨_, rfl, rfl⟩
  obtain ⟨u, hchange, hstorage⟩ := hchange
  have hphase : DataPhase (fun block => lo ≤ block ∧ block ≤ hi) v.begun u :=
    (changeBlocks_punch (by decide) hchange).2.2.mono fun _ _ => trivial
  have hsettled' : v.begun.Settled :=
    hsettled.of_rest h.begun.guarded.toCalm rfl rfl rfl fun m hm => ⟨m, hm, MapMoves.refl m⟩
  have hu : u.Settled := hsettled'.of_rest (h.begun.dataPhase hphase).guarded.toCalm hstorage (by rw [hphase.rest])
    (by rw [hphase.rest]) hphase.map
  obtain ⟨w, hrun, -⟩ := h.exists_fallocate hidle hxtree (by decide) hchange hphase hu
  exact ⟨w, hrun⟩

section OneFile

/-- A file of three blocks, of which the third holds other bytes. -/
def twoKinds (i : ℕ) : UInt8 :=
  if i < 102 * blockSize then 1 else 2

theorem exists_punch_threeBlocks (offset len : ℕ) (hne : offset / blockSize ≠ blocksUpTo (addU64 offset len)) :
    ∃ w, Volume.fallocate 19 offset len 3 (oneFile Xtree.threeBlocks 12288 twoKinds) = .ok () w :=
  (settled_oneFile ..).exists_punch (fileAt_oneFile ..) rfl xtree_threeBlocks hne

theorem wellMapped_threeBlocks_stored : Xtree.threeBlocks.stored.WellMapped := by
  obtain ⟨hdisjoint, hoffset, haddress⟩ := Xtree.wellMapped_threeBlocks
  rw [← Xtree.slots_stored] at hdisjoint hoffset haddress
  exact ⟨hdisjoint, hoffset, haddress⟩

theorem byteAt_twoKinds (i : ℕ) : Xtree.threeBlocks.stored.byteAt (oneFile Xtree.threeBlocks 12288 twoKinds).storage i =
    ((Xtree.threeBlocks.physical (i / blockSize)).map fun a => twoKinds (a * blockSize + i % blockSize)).getD 0 :=
  byteAt_oneFile _ _ _ (by decide) i

end OneFile

end Volume

end JfsFuse
