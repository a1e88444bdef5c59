import JfsFuse.Btree.XtreeRead
import JfsFuse.Volume.TableSteps

/-!
# The blocks that file operations write

Before it updates the inode, an operation on a file writes the blocks of the file's extents and
the blocks that it allocates.  A block that is in no extent and not free is left alone.
-/

namespace JfsFuse

open ByteBuf Program

namespace Xtree

/-- The parts of a range are pieces of extents, or holes. -/
theorem mem_blocks_of_mapBlocksFrom {xt : Xtree} {stop fuel current addr count : ℕ}
    (h : (addr, count) ∈ xt.mapBlocksFrom stop fuel current) (haddr : addr ≠ 0) :
    ∀ a, addr ≤ a → a < addr + count → a ∈ xt.blocks := by
  induction fuel generalizing current with
  | zero => cases h
  | succ fuel ih =>
      rw [mapBlocksFrom] at h
      split at h
      · cases h
      · cases hlookup : xt.lookup current with
        | none =>
            rw [hlookup] at h
            cases List.mem_singleton.mp h
            exact absurd rfl haddr
        | some xad =>
            rw [hlookup] at h
            rcases List.mem_cons.mp h with heq | hrest
            · obtain ⟨hmem, hlow, hhigh⟩ := lookup_eq_some hlookup
              cases heq
              intro a ha ha'
              refine Runs.mem_spans.mpr ⟨xad.run, List.mem_map_of_mem hmem, ?_⟩
              rw [Run.span, mem_addressSpan]
              show xad.address ≤ a ∧ a < xad.address + xad.length
              omega
            · exact ih hrest

theorem mem_blocks_of_mapBlocks {xt : Xtree} {offset length addr count : ℕ}
    (h : (addr, count) ∈ xt.mapBlocks offset length) (haddr : addr ≠ 0) :
    ∀ a, addr ≤ a → a < addr + count → a ∈ xt.blocks :=
  mem_blocks_of_mapBlocksFrom h haddr

end Xtree

namespace Volume

/-- There is an allocation map for a volume of at most `2 ^ 40` blocks, in which no block to be
kept is free. -/
def Spared (keep : ℕ → Prop) (v : Volume) : Prop :=
  ∃ m, v.bmap = some m ∧ m.mapsize ≤ 2 ^ 40 ∧ ∀ a, keep a → m.freeMap a = false

/-- The step writes no block to be kept, and frees none. -/
def Writes (keep : ℕ → Prop) (v w : Volume) : Prop :=
  Spared keep v → Spared keep w ∧ DataPhase keep v w

instance (keep : ℕ → Prop) : IsPreorder Volume (Writes keep) where
  refl v h := ⟨h, refl_of (DataPhase keep) v⟩
  trans _ _ _ h h' hv := by
    obtain ⟨hmid, hfirst⟩ := h hv
    obtain ⟨hend, hrest⟩ := h' hmid
    exact ⟨hend, trans_of (DataPhase keep) hfirst hrest⟩

section Writes

variable {keep : ℕ → Prop}

theorem writes_onStorage {α : Type} {x : StorageM α} (hx : Within (StorageKeeps keep) x) :
    Within (Writes keep) (onStorage x) := by
  intro v hv
  have hphase := dataPhase_onStorage hx v
  refine ⟨?_, hphase⟩
  unfold onStorage
  rw [final_zoom]
  exact hv

theorem within_checkToken {R : Volume → Volume → Prop} [IsPreorder Volume R] (token : List Bool) :
    Within R (checkToken token) := by
  unfold checkToken
  split
  · exact Within.throw _
  · exact Within.pure _

theorem writes_writeBlock {b : ℕ} (hb : ¬ keep b) {data : List UInt8} (hlen : data.length ≤ blockSize) :
    Within (Writes keep) (onStorage (StorageM.writeBlock b data)) :=
  writes_onStorage (storageKeeps_writeBlock hb hlen)

theorem length_copyInto {block data : List UInt8} (hlen : block.length = blockSize) {offset n : ℕ}
    (pos : ℕ) (hfits : offset + n ≤ blockSize) : (copyInto block data offset pos n).length = blockSize := by
  unfold copyInto
  rw [length_splice, hlen]
  rw [length_slice, hlen]
  omega

/-- **The loop over new blocks** writes these blocks only. -/
theorem writes_fillNewBlocks (data : List UInt8) {block count : ℕ} {offset : ℕ}
    (hkeep : ∀ a, block ≤ a → a < block + count → ¬ keep a) (hoffset : offset ≤ blockSize)
    (s : WriteState) : Within (Writes keep) (fillNewBlocks data block count offset s) := by
  induction count generalizing block offset s with
  | zero => exact Within.pure _
  | succ count ih =>
      refine Within.bind (within_checkToken _) fun token => Within.ite (Within.pure _) ?_
      refine Within.bind (writes_writeBlock (hkeep block le_rfl (by omega)) ?_) fun _ =>
        ih (fun a hlow hhigh => hkeep a (by omega) (by omega)) (Nat.zero_le _) _
      split
      · exact (length_copyInto (length_zeros _) _ (by omega)).le
      · exact (length_zeros _).le

theorem length_of_readBlock {block : ℕ} {v w : Volume} {data : List UInt8}
    (h : onStorage (StorageM.readBlock block) v = .ok data w) : data.length = blockSize := by
  unfold onStorage zoom at h
  split at h
  · next hok =>
      cases h
      exact StorageM.length_of_readBlock hok
  · cases h

theorem of_sliceOrPanic_ok {data bytes : List UInt8} {off n : ℕ} (h : sliceOrPanic data off n = .ok bytes) :
    off + n ≤ data.length ∧ bytes = slice data off n := by
  unfold sliceOrPanic at h
  split at h
  · cases h
    exact ⟨by assumption, rfl⟩
  · cases h

theorem length_of_sliceOrPanic {data bytes : List UInt8} {off n : ℕ}
    (h : sliceOrPanic data off n = .ok bytes) : bytes.length = n := by
  obtain ⟨hfits, rfl⟩ := of_sliceOrPanic_ok h
  exact length_slice_of_le hfits

/-- **The loop over mapped blocks** writes these blocks only. -/
theorem writes_writeBlocks (data : List UInt8) {block count : ℕ}
    (hkeep : ∀ a, block ≤ a → a < block + count → ¬ keep a) {s : WriteState}
    (hoffset : s.byteOffset ≤ blockSize) : Within (Writes keep) (writeBlocks data block count s) := by
  induction count generalizing block s with
  | zero => exact Within.pure _
  | succ count ih =>
      refine Within.bind (within_checkToken _) fun token => Within.ite (Within.pure _) ?_
      refine Within.bind_of_ok (writes_onStorage (storageKeeps_readBytes keep _ _)) fun v blockData w hread => ?_
      have hlen := length_of_readBlock hread
      cases hbytes : sliceOrPanic data s.dataPos (min (blockSize - s.byteOffset) s.remaining) with
      | error e => exact Within.throw e w
      | ok bytes =>
          have hcopied := length_of_sliceOrPanic hbytes
          refine Within.bind (writes_writeBlock (hkeep block le_rfl (by omega)) ?_) (fun _ =>
            ih (fun a hlow hhigh => hkeep a (by omega) (by omega)) (Nat.zero_le _)) w
          rw [length_splice (by omega), hlen]

/-- The start and the length of an extent that was allocated; long extents are cut off. -/
theorem address_of_allocExtent {start : ℕ} (hstart : start < 2 ^ 40) (nblocks : ℕ) :
    ((Pxd.setAddress {} start).setLength nblocks).address = start := by
  rw [Pxd.address_setLength, Pxd.address_setAddress, Nat.mod_eq_of_lt hstart]

/-- **An allocation** takes blocks that are not to be kept. -/
theorem Spared.allocExtent {v w : Volume} (hv : Spared keep v) {nblocks hint : ℕ} {result : Option Pxd}
    (h : allocExtent nblocks hint v = .ok result w) :
    Spared keep w ∧ ∃ pxd, result = some pxd ∧ pxd.length = nblocks % 2 ^ 24 ∧
      ∀ a, pxd.address ≤ a → a < pxd.address + pxd.length → ¬ keep a := by
  obtain ⟨m, hm, hsize, hfree⟩ := hv
  unfold Volume.allocExtent at h
  rw [bind_ok (get_apply v), hm] at h
  simp only at h
  cases halloc : m.allocExtent nblocks hint with
  | error e =>
      rw [halloc] at h
      cases h
  | ok pair =>
      obtain ⟨start, hpos, hfits, hrun, hpxd, hm'⟩ := BlockAllocMap.allocExtent_ok halloc
      rw [halloc] at h
      cases h
      refine ⟨⟨pair.2, rfl, ?_, fun a ha => ?_⟩, pair.1, rfl, ?_, fun a hlow hhigh hkeep => ?_⟩
      · rw [hm']
        exact hsize
      · rw [hm']
        show BlockAllocMap.mark m.freeMap start nblocks false a = false
        unfold BlockAllocMap.mark
        split
        · rfl
        · exact hfree a ha
      · rw [hpxd, Pxd.length_setLength]
      · rw [hpxd, address_of_allocExtent (by omega)] at hlow hhigh
        rw [Pxd.length_setLength] at hhigh
        have hle := Nat.mod_le nblocks (2 ^ 24)
        have htaken := hrun a hlow (by omega)
        rw [hfree a hkeep] at htaken
        cases htaken

theorem writes_allocExtent (nblocks hint : ℕ) : Within (Writes keep) (allocExtent nblocks hint) := by
  intro v hv
  refine ⟨?_, dataPhase_allocExtent nblocks hint v⟩
  cases h : allocExtent nblocks hint v with
  | ok result w => exact (hv.allocExtent h).1
  | error e w =>
      obtain ⟨m, hm, -⟩ := id hv
      unfold allocExtent at h
      rw [bind_ok (get_apply v), hm] at h
      simp only at h
      cases halloc : m.allocExtent nblocks hint with
      | error e =>
          rw [halloc] at h
          cases h
          exact hv
      | ok pair =>
          rw [halloc] at h
          cases h

/-- Something is done with an extent that was allocated. -/
theorem writes_bind_allocExtent {α : Type} {nblocks hint : ℕ} {f : Option Pxd → VolM α}
    (hf : ∀ pxd : Pxd, pxd.length = nblocks % 2 ^ 24 → (∀ a, pxd.address ≤ a → a < pxd.address + pxd.length → ¬ keep a) →
      Within (Writes keep) (f (some pxd))) :
    Within (Writes keep) (allocExtent nblocks hint >>= f) := by
  intro v hv
  refine Within.bind_at (R := Writes keep) (writes_allocExtent nblocks hint v) (fun result w h => ?_) hv
  obtain ⟨-, pxd, rfl, hlen, hblocks⟩ := hv.allocExtent h
  exact hf pxd hlen hblocks w

theorem writes_writeHole (data : List UInt8) {pxd : Pxd}
    (hblocks : ∀ a, pxd.address ≤ a → a < pxd.address + pxd.length → ¬ keep a) {s : WriteState}
    (hoffset : s.byteOffset ≤ blockSize) : Within (Writes keep) (writeHole data pxd s) := by
  refine Within.bind (writes_fillNewBlocks data hblocks hoffset s) fun s' => ?_
  split
  · exact Within.pure _
  · exact Within.pure _

theorem writes_writeMapped (data : List UInt8) {addr count : ℕ}
    (hkeep : ∀ a, addr ≤ a → a < addr + count → ¬ keep a) {s : WriteState}
    (hoffset : s.byteOffset ≤ blockSize) : Within (Writes keep) (writeMapped data addr count s) :=
  Within.bind (writes_writeBlocks data hkeep hoffset) fun _ => Within.pure _

theorem writes_writePart (data : List UInt8) {addr count : ℕ}
    (hkeep : addr ≠ 0 → ∀ a, addr ≤ a → a < addr + count → ¬ keep a) {s : WriteState}
    (hoffset : s.byteOffset ≤ blockSize) : Within (Writes keep) (writePart data addr count s) := by
  unfold writePart
  split
  · exact writes_bind_allocExtent fun pxd _ hblocks => writes_writeHole data hblocks hoffset
  · next haddr => exact writes_writeMapped data (hkeep haddr) hoffset

theorem byteOffset_fillNewBlocks {data : List UInt8} {block count offset : ℕ} {s s' : WriteState}
    {v w : Volume} (h : fillNewBlocks data block count offset s v = .ok s' w) :
    s'.byteOffset = s.byteOffset := by
  induction count generalizing block offset s v with
  | zero =>
      cases h
      rfl
  | succ count ih =>
      obtain ⟨token, v₁, -, h⟩ := of_bind_ok h
      split at h
      · cases h
        rfl
      · obtain ⟨_, v₂, -, h⟩ := of_bind_ok h
        have hrest := ih h
        exact hrest

theorem byteOffset_writeBlocks {data : List UInt8} {block count : ℕ} {s s' : WriteState} {v w : Volume}
    (h : writeBlocks data block count s v = .ok s' w) : s'.byteOffset ≤ s.byteOffset := by
  induction count generalizing block s v with
  | zero =>
      cases h
      exact le_rfl
  | succ count ih =>
      obtain ⟨token, v₁, -, h⟩ := of_bind_ok h
      split at h
      · cases h
        exact le_rfl
      · obtain ⟨blockData, v₂, -, h⟩ := of_bind_ok h
        obtain ⟨bytes, v₃, -, h⟩ := of_bind_ok h
        obtain ⟨_, v₄, -, h⟩ := of_bind_ok h
        exact (ih h).trans (Nat.zero_le _)

theorem byteOffset_writePart {data : List UInt8} {addr count : ℕ} {s s' : WriteState} {v w : Volume}
    (h : writePart data addr count s v = .ok s' w) : s'.byteOffset ≤ s.byteOffset := by
  have hmapped : ∀ {s₀ : WriteState} {v : Volume}, writeMapped data addr count s₀ v = .ok s' w →
      s'.byteOffset ≤ s₀.byteOffset := by
    intro s₀ v h
    obtain ⟨s₁, v₁, hblocks, h⟩ := of_bind_ok h
    cases h
    have hle : s₁.byteOffset ≤ s₀.byteOffset := byteOffset_writeBlocks hblocks
    exact hle
  unfold writePart at h
  split at h
  · obtain ⟨result, v₁, -, h⟩ := of_bind_ok h
    cases result with
    | some pxd =>
        obtain ⟨s₁, v₂, hfill, h⟩ := of_bind_ok h
        have hsame := byteOffset_fillNewBlocks hfill
        simp only at h
        cases hinsert : s₁.xtree.insertExtent s₁.nextLogical pxd.length pxd.address <;>
          rw [hinsert] at h <;> cases h <;> exact hsame.le
    | none => exact (hmapped h).trans (Nat.zero_le _)
  · exact hmapped h

/-- **The loop over the parts of a write.** -/
theorem writes_writeParts (data : List UInt8) {parts : List (ℕ × ℕ)}
    (hkeep : ∀ addr count, (addr, count) ∈ parts → addr ≠ 0 →
      ∀ a, addr ≤ a → a < addr + count → ¬ keep a) {s : WriteState}
    (hoffset : s.byteOffset ≤ blockSize) : Within (Writes keep) (writeParts data parts s) := by
  induction parts generalizing s with
  | nil => exact Within.pure _
  | cons part rest ih =>
      obtain ⟨addr, count⟩ := part
      refine Within.bind (within_checkToken _) fun token => Within.ite (Within.pure _) ?_
      refine Within.bind_of_ok (writes_writePart data (hkeep addr count (List.mem_cons_self ..)) hoffset)
        fun v s' w hpart => ?_
      have hafter := byteOffset_writePart hpart
      exact ih (fun addr' count' hmem => hkeep addr' count' (List.mem_cons_of_mem _ hmem))
        (hafter.trans hoffset) w

/-! ## Growing and allocating -/

/-- **Clearing the tail** writes mapped blocks only. -/
theorem dataPhase_zeroTail {byteOffset : ℕ} (hoffset : byteOffset ≤ blockSize) {parts : List (ℕ × ℕ)}
    (hkeep : ∀ addr count, (addr, count) ∈ parts → addr ≠ 0 →
      ∀ a, addr ≤ a → a < addr + count → ¬ keep a) :
    Within (DataPhase keep) (zeroTail byteOffset parts) := by
  induction parts with
  | nil => exact Within.pure _
  | cons part rest ih =>
      obtain ⟨addr, count⟩ := part
      have hrest := ih fun addr' count' hmem => hkeep addr' count' (List.mem_cons_of_mem _ hmem)
      unfold zeroTail
      split
      · next hmapped =>
          have hb := hkeep addr count (List.mem_cons_self ..) hmapped.1 addr le_rfl (by omega)
          refine Within.bind_of_ok (dataPhase_readBlock addr) fun v blockData w hread => ?_
          have hlen := length_of_readBlock hread
          refine Within.bind (dataPhase_onStorage (storageKeeps_writeBlock hb ?_)) (fun _ => hrest) w
          rw [length_splice (by rw [length_zeros]; omega), hlen]
      · exact hrest

/-- **The loop of `fallocate`** writes blocks that it allocated. -/
theorem writes_allocateBlocks (fsb count : ℕ) (state : Xtree × Bool) :
    Within (Writes keep) (allocateBlocks fsb count state) := by
  induction count generalizing fsb state with
  | zero => exact Within.pure _
  | succ count ih =>
      obtain ⟨xtree, modified⟩ := state
      unfold allocateBlocks
      refine Within.ite (ih _ _) (writes_bind_allocExtent fun pxd hlen hblocks => ?_)
      refine Within.bind (writes_writeBlock (hblocks _ le_rfl (by omega)) (length_zeros _).le) fun _ => ?_
      split
      · exact ih _ _
      · exact ih _ _

end Writes

end Volume

end JfsFuse
