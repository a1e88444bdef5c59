import JfsFuse.Btree.XtreeMapping

/-!
# Truncating, punching and taking

Each of the three operations cuts every extent at one or two places.  `truncate_extents` keeps
the part below the new end, `take_extents` and `punch_extents` the parts below and above a
range.
-/

namespace JfsFuse

namespace Xad

/-! ## Parts of an extent -/

variable (xad : Xad) {n : ℕ}

theorem length_below : (xad.run.below n).length = min xad.length (n - xad.offset) := rfl

theorem length_above : (xad.run.above n).length = xad.length - min xad.length (n - xad.offset) := rfl

theorem below_of_stop_le (h : xad.stop ≤ n) : xad.run.below n = xad.run := by
  unfold stop at h
  unfold Run.below Run.first run
  simp only [Run.mk.injEq, true_and, and_true]
  omega

theorem above_of_le_offset (h : n ≤ xad.offset) : xad.run.above n = xad.run := by
  unfold Run.above Run.rest run
  simp only [Nat.sub_eq_zero_of_le h, Nat.min_zero, Nat.add_zero, Nat.sub_zero]

theorem run_setLength_below (hlow : xad.offset ≤ n) (hhigh : n ≤ xad.stop) :
    (xad.setLength (n - xad.offset)).run = xad.run.below n := by
  have hlength := xad.length_lt
  unfold stop at hhigh
  rw [run_setLength xad (by omega)]
  unfold Run.below
  congr 1
  unfold run
  simp only
  omega

/-- The part above `n`, as `punch_extents` and `take_extents` write it. -/
theorem run_moved_above {length address : ℕ} (hlow : xad.offset ≤ n) (hhigh : n < xad.stop)
    (hoffset : xad.stop ≤ 2 ^ 40) (haddress : xad.address + xad.length ≤ 2 ^ 40)
    (hlength : length = xad.stop - n) (haddr : address = xad.address + (n - xad.offset)) :
    (((xad.setOffset n).setLength length).setAddress address).run = xad.run.above n := by
  have hlt := xad.length_lt
  unfold stop at *
  rw [run_moved xad (by omega) (by omega) (by omega) (by omega)]
  unfold Run.above Run.rest run
  simp only [Run.mk.injEq, Int.toNat_natCast]
  omega

end Xad

namespace Xtree

/-! ## Truncating -/

theorem length_truncateXad (newEof : ℤ) (xad : Xad) : (truncateXad newEof xad).1.length ≤ 1 := by
  unfold truncateXad
  split_ifs <;> simp

/-- The part of an extent below the new end is kept. -/
theorem map_run_truncateXad (newEof : ℤ) (xad : Xad) :
    (truncateXad newEof xad).1.map Xad.run = Runs.nonempty [xad.run.below newEof.toNat] := by
  have hstop : xad.stop = xad.offset + xad.length := rfl
  have hlength := xad.length_below (n := newEof.toNat)
  unfold truncateXad
  split_ifs with hempty hbeyond hstraddle
  · rw [Runs.nonempty_cons_of_empty _ (by omega)]
    rfl
  · rw [Runs.nonempty_cons_of_empty _ (by omega)]
    rfl
  · have hkeep : (newEof - xad.offset).toNat = newEof.toNat - xad.offset := by omega
    rw [Runs.nonempty_cons_of_pos _ (by omega), hkeep, List.map_singleton,
      xad.run_setLength_below (by omega) (by omega)]
    rfl
  · rw [Runs.nonempty_cons_of_pos _ (by omega), List.map_singleton,
      xad.below_of_stop_le (by omega)]
    rfl

/-- The part of an extent above the new end is freed. -/
theorem freedBlocks_truncateXad (newEof : ℤ) (xad : Xad) :
    freedBlocks (truncateXad newEof xad).2 = (xad.run.above newEof.toNat).span := by
  have hstop : xad.stop = xad.offset + xad.length := rfl
  have hlength := xad.length_above (n := newEof.toNat)
  unfold truncateXad
  split_ifs with hempty hbeyond hstraddle
  · rw [Run.span_of_length_eq_zero (by omega)]
    rfl
  · rw [xad.above_of_le_offset (by omega)]
    simp [freedBlocks, Run.span, Xad.run]
  · have hkeep : (newEof - xad.offset).toNat = min xad.length (newEof.toNat - xad.offset) := by omega
    have hfree : (xad.stop - newEof).toNat = xad.length - min xad.length (newEof.toNat - xad.offset) := by
      omega
    simp [freedBlocks, Run.span, Run.above, Run.rest, Xad.run, hkeep, hfree]
  · rw [Run.span_of_length_eq_zero (by omega)]
    rfl

theorem runs_truncateExtents (xt : Xtree) (newEof : ℤ) :
    (xt.truncateExtents newEof).2.runs =
      xt.slots.flatMap fun xad => Runs.nonempty [xad.run.below newEof.toNat] := by
  unfold truncateExtents
  simp only [List.flatMap_map]
  rw [runs_storeKept, List.map_flatMap]
  · exact List.flatMap_congr fun xad _ => map_run_truncateXad newEof xad
  · have hslots := xt.length_slots
    refine (length_flatMap_le fun xad _ => length_truncateXad newEof xad).trans ?_
    omega

/-- **Truncating partitions the map.** -/
theorem truncateExtents_partition (xt : Xtree) (n : ℤ) :
    (∀ block : ℕ, block < n → (xt.truncateExtents n).2.physical block = xt.physical block) ∧
      (∀ block : ℕ, n ≤ block → (xt.truncateExtents n).2.lookup block = none) ∧
      (xt.truncateExtents n).2.blocks + freedBlocks (xt.truncateExtents n).1 = xt.blocks := by
  have hlocate : ∀ block (xad : Xad), Runs.locate (Runs.nonempty [xad.run.below n.toNat]) block =
      if block < n.toNat then xad.run.locate block else none := by
    intro block xad
    rw [Runs.locate_nonempty, Runs.locate_singleton, Run.locate_below]
  refine ⟨fun block hblock => ?_, fun block hblock => ?_, ?_⟩
  · rw [physical_eq_locate, physical_eq_locate, runs_truncateExtents]
    refine Runs.locate_flatMap_of fun xad _ => ?_
    rw [hlocate, if_pos (by omega)]
  · have hnone : (xt.truncateExtents n).2.physical block = none := by
      rw [physical_eq_locate, runs_truncateExtents]
      refine Runs.locate_flatMap_none fun xad _ => ?_
      rw [hlocate, if_neg (by omega)]
    exact Option.map_eq_none_iff.mp hnone
  · unfold blocks
    rw [runs_truncateExtents]
    unfold truncateExtents
    simp only [List.flatMap_map]
    refine freedBlocks_flatMap_of fun xad _ => ?_
    rw [Runs.spans_nonempty, Runs.spans_cons, Runs.spans_nil, add_zero, freedBlocks_truncateXad,
      Run.span_below_above]

/-! ## Cutting a range out -/

/-- The extents lie apart in the file, and neither their blocks nor their physical blocks
leave the 40 bits of a descriptor. -/
structure WellMapped (xt : Xtree) : Prop where
  disjoint : xt.slots.Pairwise fun xad other => xad.run.Disjoint other.run
  offset_le : ∀ xad ∈ xt.slots, xad.length ≠ 0 → xad.stop ≤ 2 ^ 40
  address_le : ∀ xad ∈ xt.slots, xad.length ≠ 0 → xad.address + xad.length ≤ 2 ^ 40

namespace WellMapped

variable {xt : Xtree}

theorem disjoint_runs (h : xt.WellMapped) : xt.runs.Pairwise Run.Disjoint := by
  unfold runs
  rw [List.pairwise_map]
  exact h.disjoint

theorem physical_eq_some_iff (h : xt.WellMapped) {block address : ℕ} :
    xt.physical block = some address ↔ ∃ xad ∈ xt.slots, xad.run.locate block = some address := by
  rw [physical_eq_locate, Runs.locate_eq_some_iff h.disjoint_runs]
  unfold runs
  simp only [List.mem_map, exists_exists_and_eq_and]

end WellMapped

/-- Both operations keep the same number of parts. -/
theorem length_punchXad {start stop : ℤ} {xad : Xad} :
    (punchXad start stop xad).1.length = (takeXad start stop xad).1.length := by
  unfold punchXad takeXad
  split_ifs <;> simp

theorem length_takeXad {start stop : ℤ} {xad : Xad} : (takeXad start stop xad).1.length ≤ 2 := by
  unfold takeXad
  split_ifs <;> simp

section Cut

variable {start stop : ℕ} {xad : Xad} {xt after : Xtree}

/-- What is kept of an extent when the range is cut out. -/
def outside (start stop : ℕ) (xad : Xad) : List Run :=
  Runs.nonempty [xad.run.below start, xad.run.above stop]

theorem locate_outside (hle : start ≤ stop) (block : ℕ) :
    Runs.locate (outside start stop xad) block =
      if start ≤ block ∧ block < stop then none else xad.run.locate block := by
  unfold outside
  rw [Runs.locate_nonempty, Runs.locate_cons, Runs.locate_singleton, Run.locate_below, Run.locate_above]
  by_cases hbelow : block < start
  · rw [if_pos hbelow, if_neg (by omega), if_neg (by omega), Option.or_none]
  · by_cases habove : stop ≤ block
    · rw [if_neg hbelow, if_pos habove, if_neg (by omega), Option.none_or]
    · rw [if_neg hbelow, if_neg habove, if_pos (by omega)]
      rfl

theorem physical_of_outside (hle : start ≤ stop) (hafter : after.runs = xt.slots.flatMap (outside start stop))
    {block : ℕ} (hblock : block < start ∨ stop ≤ block) : after.physical block = xt.physical block := by
  rw [physical_eq_locate, physical_eq_locate, hafter]
  refine Runs.locate_flatMap_of fun xad _ => ?_
  rw [locate_outside hle, if_neg (by omega)]

theorem lookup_of_inside (hle : start ≤ stop) (hafter : after.runs = xt.slots.flatMap (outside start stop))
    {block : ℕ} (hlow : start ≤ block) (hhigh : block < stop) : after.lookup block = none := by
  have hnone : after.physical block = none := by
    rw [physical_eq_locate, hafter]
    refine Runs.locate_flatMap_none fun xad _ => ?_
    rw [locate_outside hle, if_pos ⟨hlow, hhigh⟩]
  exact Option.map_eq_none_iff.mp hnone

/-! ## Taking -/

/-- The parts of an extent on both sides of the range are kept. -/
theorem map_run_takeXad (hle : start ≤ stop) (hoffset : xad.length ≠ 0 → xad.stop ≤ 2 ^ 40)
    (haddress : xad.length ≠ 0 → xad.address + xad.length ≤ 2 ^ 40) :
    (takeXad start stop xad).1.map Xad.run =
      outside start stop xad := by
  have hstop : xad.stop = xad.offset + xad.length := rfl
  have hlt := xad.length_lt
  have hbelow := xad.length_below (n := start)
  have habove := xad.length_above (n := stop)
  unfold outside takeXad
  split_ifs with hempty hbefore hafter hinside hspans hleft
  · rw [Runs.nonempty_cons_of_empty _ (by omega), Runs.nonempty_cons_of_empty _ (by omega)]
    rfl
  · rw [Runs.nonempty_cons_of_pos _ (by omega), Runs.nonempty_cons_of_empty _ (by omega),
      xad.below_of_stop_le (by omega)]
    rfl
  · rw [Runs.nonempty_cons_of_empty _ (by omega), Runs.nonempty_cons_of_pos _ (by omega),
      xad.above_of_le_offset (by omega)]
    rfl
  · rw [Runs.nonempty_cons_of_empty _ (by omega), Runs.nonempty_cons_of_empty _ (by omega)]
    rfl
  · have htaken : ((stop - start : ℤ) % 2 ^ 64).toNat = stop - start := by
      rw [Int.emod_eq_of_lt (by omega) (by omega), Int.toNat_sub]
    rw [Runs.nonempty_cons_of_pos _ (by omega), Runs.nonempty_cons_of_pos _ (by omega), htaken,
      Int.toNat_sub, Int.toNat_sub, List.map_cons, List.map_singleton,
      xad.run_setLength_below (by omega) (by omega),
      xad.run_moved_above (by omega) (by omega) (hoffset hempty) (haddress hempty) rfl (by omega)]
    rfl
  · rw [Runs.nonempty_cons_of_pos _ (by omega), Runs.nonempty_cons_of_empty _ (by omega),
      Int.toNat_sub, List.map_singleton, xad.run_setLength_below (by omega) (by omega)]
    rfl
  · rw [Runs.nonempty_cons_of_empty _ (by omega), Runs.nonempty_cons_of_pos _ (by omega),
      Int.toNat_sub, List.map_singleton,
      xad.run_moved_above (by omega) (by omega) (hoffset hempty) (haddress hempty) (by omega) rfl]
    rfl

theorem length_takeXad_of_not_holds (h : ¬ xad.run.Holds start) :
    (takeXad start stop xad).1.length ≤ 1 := by
  unfold takeXad
  split_ifs with hempty hbefore hafter hinside hspans
  · simp
  · simp
  · simp
  · simp
  · refine absurd ⟨?_, ?_⟩ h
    · unfold Xad.run
      simp only
      omega
    · change start < xad.stop
      omega
  · simp
  · simp

/-- **A root with a free slot has room for what is kept**: at most one extent reaches over
both ends of the range. -/
theorem length_keep_outside (hmap : xt.WellMapped) (hnext : xt.nextIndex ≤ 17)
    {keep : Xad → List Xad} (hlength : ∀ xad, (keep xad).length = (takeXad start stop xad).1.length) :
    (xt.slots.flatMap keep).length ≤ xtRootMaxSlot - xtEntryStart := by
  have hroom : (xt.slots.flatMap keep).length ≤ xt.slots.length + 1 := by
    refine @length_flatMap_le_succ _ _ (fun xad => xad.run.Holds start) ?_ ?_ ?_
    · exact hmap.disjoint.imp fun hdisj => hdisj start
    · intro xad _
      rw [hlength]
      exact length_takeXad
    · intro xad _ hholds
      rw [hlength]
      exact length_takeXad_of_not_holds hholds
  have hslots := xt.length_slots
  unfold xtRootMaxSlot xtEntryStart at *
  omega

/-- A triple of `take_extents` maps a block to a physical block. -/
def Covers (taken : ℤ × ℕ × ℕ) (block address : ℕ) : Prop :=
  taken.1 ≤ block ∧ block < taken.1 + taken.2.1 ∧ (address : ℤ) = taken.2.2 + (block - taken.1)

/-- The part of an extent in the range is taken. -/
theorem covers_takeXad (hle : start ≤ stop) {block address : ℕ} :
    (∃ taken ∈ (takeXad start stop xad).2, Covers taken block address) ↔
      (start ≤ block ∧ block < stop) ∧ xad.run.locate block = some address := by
  have hstop : xad.stop = xad.offset + xad.length := rfl
  have hlt := xad.length_lt
  have hlocate : xad.run.locate block = some address ↔
      (xad.offset ≤ block ∧ block < xad.stop) ∧ xad.address + (block - xad.offset) = address :=
    Run.locate_eq_some
  have hsingle : ∀ taken : ℤ × ℕ × ℕ, (∃ taken' ∈ [taken], Covers taken' block address) ↔
      Covers taken block address := by simp
  have hnil : ¬ ∃ taken' ∈ ([] : List (ℤ × ℕ × ℕ)), Covers taken' block address := by simp
  rw [hlocate]
  unfold takeXad
  split_ifs with hempty hbefore hafter hinside hspans hleft
  · rw [iff_false_left hnil]
    omega
  · rw [iff_false_left hnil]
    omega
  · rw [iff_false_left hnil]
    omega
  · rw [hsingle]
    unfold Covers
    simp only
    omega
  · have htaken : ((stop - start : ℤ) % 2 ^ 32).toNat = stop - start := by
      rw [Int.emod_eq_of_lt (by omega) (by omega), Int.toNat_sub]
    rw [hsingle, htaken, Int.toNat_sub]
    unfold Covers
    simp only
    omega
  · rw [hsingle, Int.toNat_sub]
    unfold Covers
    simp only
    omega
  · rw [hsingle, Int.toNat_sub]
    unfold Covers
    simp only
    omega

theorem pairwise_takeXad :
    (takeXad start stop xad).2.Pairwise fun taken other =>
      ∀ block address address', Covers taken block address → ¬ Covers other block address' := by
  unfold takeXad
  split_ifs <;> simp

/-- **Taking partitions the map.** -/
theorem takeExtents_partition (xt : Xtree) (start stop : ℕ) (hle : start ≤ stop) (hmap : xt.WellMapped)
    (hnext : xt.nextIndex ≤ 17) :
    (∀ block, block < start ∨ stop ≤ block →
        (xt.takeExtents start stop).2.physical block = xt.physical block) ∧
      (∀ block, start ≤ block → block < stop → (xt.takeExtents start stop).2.lookup block = none) ∧
      (∀ block address, (∃ taken ∈ (xt.takeExtents start stop).1, Covers taken block address) ↔
        (start ≤ block ∧ block < stop) ∧ xt.physical block = some address) ∧
      (xt.takeExtents start stop).1.Pairwise fun taken other =>
        ∀ block address address', Covers taken block address → ¬ Covers other block address' := by
  have hafter : (xt.takeExtents start stop).2.runs = xt.slots.flatMap (outside start stop) := by
    unfold takeExtents
    simp only [List.flatMap_map]
    rw [runs_storeKept _ (length_keep_outside hmap hnext fun _ => rfl), List.map_flatMap]
    refine List.flatMap_congr fun xad hxad => ?_
    exact map_run_takeXad hle (hmap.offset_le xad hxad) (hmap.address_le xad hxad)
  have htaken : (xt.takeExtents start stop).1 = xt.slots.flatMap fun xad => (takeXad start stop xad).2 := by
    unfold takeExtents
    simp only [List.flatMap_map]
  refine ⟨fun block hblock => physical_of_outside hle hafter hblock,
    fun block hlow hhigh => lookup_of_inside hle hafter hlow hhigh, fun block address => ?_, ?_⟩
  · rw [htaken, hmap.physical_eq_some_iff]
    simp only [List.mem_flatMap]
    constructor
    · rintro ⟨taken, ⟨xad, hxad, hmem⟩, hcovers⟩
      obtain ⟨hrange, hlocate⟩ := (covers_takeXad hle).mp ⟨taken, hmem, hcovers⟩
      exact ⟨hrange, xad, hxad, hlocate⟩
    · rintro ⟨hrange, xad, hxad, hlocate⟩
      obtain ⟨taken, hmem, hcovers⟩ := (covers_takeXad hle).mpr ⟨hrange, hlocate⟩
      exact ⟨taken, ⟨xad, hxad, hmem⟩, hcovers⟩
  · rw [htaken, List.pairwise_flatMap]
    refine ⟨fun xad _ => pairwise_takeXad, hmap.disjoint.imp ?_⟩
    intro xad other hdisj taken hmem taken' hmem' block address address' hcovers hcovers'
    have hholds := ((covers_takeXad hle).mp ⟨taken, hmem, hcovers⟩).2
    have hholds' := ((covers_takeXad hle).mp ⟨taken', hmem', hcovers'⟩).2
    exact hdisj block (Run.locate_eq_some.mp hholds).1 (Run.locate_eq_some.mp hholds').1

/-- A root with one extent, three blocks at block 100. -/
def threeBlocks : Xtree where
  header := { nextindex := 3 }
  xad := (Vector.replicate xtRootMaxSlot {}).set 2 { loc := { lenAddr := 3, addr2 := 100 } } entryStart_lt

theorem slots_threeBlocks : threeBlocks.slots = [{ loc := { lenAddr := 3, addr2 := 100 } }] := by
  decide

theorem wellMapped_threeBlocks : threeBlocks.WellMapped := by
  refine ⟨?_, ?_, ?_⟩
  · rw [slots_threeBlocks]
    exact List.pairwise_singleton _ _
  · rw [slots_threeBlocks]
    decide
  · rw [slots_threeBlocks]
    decide

theorem takeExtents_partition_middle :
    threeBlocks.WellMapped ∧ (threeBlocks.takeExtents 1 2).1 = [(1, 1, 101)] ∧
      (threeBlocks.takeExtents 1 2).2.physical 2 = threeBlocks.physical 2 :=
  ⟨wellMapped_threeBlocks, by decide,
    (takeExtents_partition threeBlocks 1 2 (by decide) wellMapped_threeBlocks (by decide)).1 2 (by decide)⟩

/-! ## Punching -/

/-- Away from both ends of an extent, `punch_extents` keeps what `take_extents` keeps. -/
theorem punchXad_fst (h : ¬ (xad.offset < start ∧ stop < xad.stop) ∨ start = stop) :
    (punchXad start stop xad).1 = (takeXad start stop xad).1 := by
  have hstop : xad.stop = xad.offset + xad.length := rfl
  unfold punchXad takeXad
  split_ifs with hempty hbefore hafter hinside hspans hleft
  · rfl
  · rfl
  · rfl
  · rfl
  · have hequal : start = stop := by omega
    subst hequal
    simp
  · rfl
  · have hlength : xad.stop - stop = xad.length - (stop - xad.offset) := by omega
    simp only [Int.toNat_sub, hlength]

/-- The part of an extent in the range is freed. -/
theorem freedBlocks_punchXad (hle : start ≤ stop) :
    freedBlocks (punchXad start stop xad).2 = (xad.run.between start stop).span := by
  have hstop : xad.stop = xad.offset + xad.length := rfl
  have hlt := xad.length_lt
  have hlength : (xad.run.between start stop).length = min xad.length (stop - xad.offset) -
      min (min xad.length (stop - xad.offset)) (start - xad.offset) := rfl
  have hspan : (xad.run.between start stop).span =
      addressSpan (xad.address + min (min xad.length (stop - xad.offset)) (start - xad.offset))
        (min xad.length (stop - xad.offset) -
          min (min xad.length (stop - xad.offset)) (start - xad.offset)) := rfl
  unfold punchXad
  split_ifs with hempty hbefore hafter hinside hspans hleft
  · rw [Run.span_of_length_eq_zero (by omega), freedBlocks_nil]
  · rw [Run.span_of_length_eq_zero (by omega), freedBlocks_nil]
  · rw [Run.span_of_length_eq_zero (by omega), freedBlocks_nil]
  · rw [freedBlocks_singleton, hspan]
    exact congrArg₂ addressSpan (by omega) (by omega)
  · have hfreed : ((stop - start : ℤ) % 2 ^ 32).toNat = stop - start := by
      rw [Int.emod_eq_of_lt (by omega) (by omega), Int.toNat_sub]
    rw [freedBlocks_singleton, hspan, hfreed, Int.toNat_sub]
    exact congrArg₂ addressSpan (by omega) (by omega)
  · rw [freedBlocks_singleton, hspan, Int.toNat_sub]
    exact congrArg₂ addressSpan (by omega) (by omega)
  · rw [freedBlocks_singleton, hspan, Int.toNat_sub]
    exact congrArg₂ addressSpan (by omega) (by omega)

/-- The extents lie apart on the disk. -/
def Unshared (xt : Xtree) : Prop :=
  xt.slots.Pairwise fun xad other => Disjoint xad.run.span other.run.span

theorem Unshared.eq_of_mem {xt : Xtree} (h : xt.Unshared) {xad other : Xad} (hxad : xad ∈ xt.slots)
    (hother : other ∈ xt.slots) {address : ℕ} (hmem : address ∈ xad.run.span)
    (hmem' : address ∈ other.run.span) : xad = other := by
  by_contra hne
  have : Std.Symm fun x y : Xad => Disjoint x.run.span y.run.span := ⟨fun _ _ h => h.symm⟩
  have hdisj := List.Pairwise.forall h hxad hother hne
  exact Multiset.disjoint_left.mp hdisj hmem hmem'

/-- Punching the range out keeps every block outside it where it was, unmaps every block inside
it and frees its physical block. -/
def PunchPartitions (xt : Xtree) (start stop : ℕ) : Prop :=
  (∀ block, block < start ∨ stop ≤ block →
      (xt.punchExtents start stop).2.physical block = xt.physical block) ∧
    (∀ block, start ≤ block → block < stop → (xt.punchExtents start stop).2.lookup block = none) ∧
    (∀ address, address ∈ freedBlocks (xt.punchExtents start stop).1 ↔
      ∃ block, (start ≤ block ∧ block < stop) ∧ xt.physical block = some address) ∧
    (xt.punchExtents start stop).2.blocks + freedBlocks (xt.punchExtents start stop).1 = xt.blocks ∧
    ((xt.punchExtents start stop).2.blocks + freedBlocks (xt.punchExtents start stop).1).Nodup

/-- No extent reaches over both ends of a range that is not empty. -/
def NotSplit (xt : Xtree) (start stop : ℕ) : Prop :=
  ∀ xad ∈ xt.slots, xad.offset < start → stop < xad.stop → start = stop

theorem mem_freedBlocks_punchExtents (hle : start ≤ stop) (hmap : xt.WellMapped) {address : ℕ} :
    address ∈ freedBlocks (xt.punchExtents start stop).1 ↔
      ∃ block, (start ≤ block ∧ block < stop) ∧ xt.physical block = some address := by
  unfold punchExtents
  simp only [List.flatMap_map, mem_freedBlocks_flatMap, freedBlocks_punchXad hle,
    Run.mem_span_iff_locate, Run.locate_between, hmap.physical_eq_some_iff,
    Option.ite_none_right_eq_some]
  constructor
  · rintro ⟨xad, hxad, block, hrange, hlocate⟩
    exact ⟨block, hrange, xad, hxad, hlocate⟩
  · rintro ⟨block, hrange, xad, hxad, hlocate⟩
    exact ⟨xad, hxad, block, hrange, hlocate⟩

theorem punchPartitions_of_notSplit (hle : start ≤ stop) (hmap : xt.WellMapped) (hunshared : xt.Unshared)
    (hnext : xt.nextIndex ≤ 17) (hsplit : xt.NotSplit start stop) : xt.PunchPartitions start stop := by
  have hafter : (xt.punchExtents start stop).2.runs = xt.slots.flatMap (outside start stop) := by
    unfold punchExtents
    simp only [List.flatMap_map]
    rw [runs_storeKept _ (length_keep_outside hmap hnext fun _ => length_punchXad), List.map_flatMap]
    refine List.flatMap_congr fun xad hxad => ?_
    rw [punchXad_fst (by have := hsplit xad hxad; tauto)]
    exact map_run_takeXad hle (hmap.offset_le xad hxad) (hmap.address_le xad hxad)
  have hblocks : (xt.punchExtents start stop).2.blocks + freedBlocks (xt.punchExtents start stop).1 =
      xt.blocks := by
    unfold blocks
    rw [hafter]
    unfold punchExtents
    simp only [List.flatMap_map]
    refine freedBlocks_flatMap_of fun xad _ => ?_
    unfold outside
    rw [Runs.spans_nonempty, Runs.spans_cons, Runs.spans_cons, Runs.spans_nil, add_zero,
      freedBlocks_punchXad hle, Run.span_below_between_above _ hle]
  refine ⟨fun block hblock => physical_of_outside hle hafter hblock,
    fun block hlow hhigh => lookup_of_inside hle hafter hlow hhigh,
    fun address => mem_freedBlocks_punchExtents hle hmap, hblocks, ?_⟩
  rw [hblocks]
  refine Runs.nodup_spans ?_
  unfold runs
  rw [List.pairwise_map]
  exact hunshared

/-- The right part of an extent that reaches over both ends gets the address of the hole. -/
theorem exists_right_of_split (hmap : xt.WellMapped) (hxad : xad ∈ xt.slots) (hlow : xad.offset < start)
    (hhigh : stop < xad.stop) (hlt : start < stop) :
    ∃ right ∈ (punchXad start stop xad).1,
      right.run = { offset := stop, length := xad.stop - stop, address := xad.address + (start - xad.offset) } := by
  have hstop : xad.stop = xad.offset + xad.length := rfl
  have hlength := xad.length_lt
  have hoffset := hmap.offset_le xad hxad (by omega)
  have haddress := hmap.address_le xad hxad (by omega)
  unfold punchXad
  rw [if_neg (by omega), if_neg (by omega), if_neg (by omega), if_neg (by omega), if_pos (by omega)]
  refine ⟨_, List.mem_cons_of_mem _ (List.mem_singleton_self _), ?_⟩
  rw [Int.toNat_sub, Int.toNat_sub, Xad.run_moved xad (by omega) (by omega) (by omega) (by omega),
    Int.toNat_natCast]

theorem notSplit_of_punchPartitions (hle : start ≤ stop) (hmap : xt.WellMapped) (hnext : xt.nextIndex ≤ 17)
    (hpunch : xt.PunchPartitions start stop) : xt.NotSplit start stop := by
  obtain ⟨-, -, -, -, hnodup⟩ := hpunch
  intro xad hxad hlow hhigh
  by_contra hne
  obtain ⟨right, hright, hrun⟩ := exists_right_of_split hmap hxad hlow hhigh (by omega)
  -- the first block of the hole is freed, and mapped again as the first block behind the hole
  have hstart : xad.run.locate start = some (xad.address + (start - xad.offset)) :=
    Run.locate_of_holds ⟨hlow.le, show start < xad.stop by omega⟩
  have hfreed : xad.address + (start - xad.offset) ∈ freedBlocks (xt.punchExtents start stop).1 :=
    (mem_freedBlocks_punchExtents hle hmap).mpr
      ⟨start, by omega, hmap.physical_eq_some_iff.mpr ⟨xad, hxad, hstart⟩⟩
  have hkept : xad.address + (start - xad.offset) ∈ (xt.punchExtents start stop).2.blocks := by
    unfold blocks punchExtents
    simp only [List.flatMap_map]
    rw [runs_storeKept _ (length_keep_outside hmap hnext fun _ => length_punchXad), Runs.mem_spans]
    refine ⟨right.run, List.mem_map_of_mem (List.mem_flatMap.mpr ⟨xad, hxad, hright⟩), ?_⟩
    rw [hrun, Run.span, mem_addressSpan]
    simp only
    omega
  exact Multiset.disjoint_left.mp (Multiset.nodup_add.mp hnodup).2.2 hkept hfreed

/-- **Punching partitions the map exactly when it splits no extent.** -/
theorem punchPartitions_iff (xt : Xtree) (start stop : ℕ) (hle : start ≤ stop) (hmap : xt.WellMapped)
    (hunshared : xt.Unshared) (hnext : xt.nextIndex ≤ 17) :
    xt.PunchPartitions start stop ↔ xt.NotSplit start stop :=
  ⟨notSplit_of_punchPartitions hle hmap hnext, punchPartitions_of_notSplit hle hmap hunshared hnext⟩

theorem unshared_threeBlocks : threeBlocks.Unshared := by
  unfold Unshared
  rw [slots_threeBlocks]
  exact List.pairwise_singleton _ _

theorem punchPartitions_iff_tail :
    threeBlocks.WellMapped ∧ threeBlocks.Unshared ∧ threeBlocks.PunchPartitions 2 3 := by
  refine ⟨wellMapped_threeBlocks, unshared_threeBlocks, ?_⟩
  refine (punchPartitions_iff threeBlocks 2 3 (by decide) wellMapped_threeBlocks unshared_threeBlocks
    (by decide)).mpr ?_
  unfold NotSplit
  rw [slots_threeBlocks]
  decide

/-- A hole in the middle of three blocks moves the third to the place of the second, which is
freed. -/
theorem not_punchPartitions_middle :
    threeBlocks.WellMapped ∧ threeBlocks.Unshared ∧ threeBlocks.nextIndex = 3 ∧
      (threeBlocks.punchExtents 1 2).1 = [(101, 1)] ∧
      threeBlocks.physical 2 = some 102 ∧ (threeBlocks.punchExtents 1 2).2.physical 2 = some 101 ∧
      ¬ threeBlocks.PunchPartitions 1 2 := by
  have hmoved : (threeBlocks.punchExtents 1 2).2.physical 2 = some 101 := by decide
  have hbefore : threeBlocks.physical 2 = some 102 := by decide
  refine ⟨wellMapped_threeBlocks, unshared_threeBlocks, by decide, by decide, hbefore, hmoved, ?_⟩
  rintro ⟨hsame, -⟩
  have hkept := hsame 2 (by decide)
  rw [hbefore] at hkept
  exact absurd (hmoved.symm.trans hkept) (by decide)

end Cut

end Xtree

end JfsFuse
