import JfsFuse.Btree.XtreeCapacity

/-!
# Splitting an extent

`split_extent` shortens the extent that reaches over a block and puts the other part behind
the last extent.  The extents lie apart, so no block is located by another extent than before,
although the parts of one extent no longer stand side by side.
-/

namespace JfsFuse

namespace Xtree

/-- Either nothing is split, or there is one extent more. -/
theorem splitExtent_fst (xt : Xtree) (splitAt : ℤ) :
    ((xt.splitExtent splitAt).1 = false ∧ (xt.splitExtent splitAt).2 = xt) ∨
      ((xt.splitExtent splitAt).1 = true ∧ (xt.splitExtent splitAt).2.nextIndex = xt.nextIndex + 1) := by
  unfold splitExtent
  by_cases hneg : splitAt ≤ 0
  · rw [if_pos hneg]
    exact .inl ⟨rfl, rfl⟩
  rw [if_neg hneg]
  cases xt.slots.findIdx? (straddles splitAt) with
  | none => exact .inl ⟨rfl, rfl⟩
  | some i =>
      simp only
      by_cases hfull : xtRootMaxSlot < xt.nextIndex + 1
      · rw [if_pos hfull]
        exact .inl ⟨rfl, rfl⟩
      · rw [if_neg hfull]
        refine .inr ⟨rfl, nextIndex_setNextindex _ ?_⟩
        unfold xtRootMaxSlot at hfull
        omega

/-- The part behind the cut. -/
theorem run_right {xad right : Xad} {splitAt : ℤ} (hstraddles : straddles splitAt xad)
    (hoffset : xad.stop ≤ 2 ^ 40) (haddress : xad.address + xad.length ≤ 2 ^ 40)
    (hright : right.run =
      { offset := (splitAt % 2 ^ 40).toNat
        length := (xad.length - (splitAt - xad.offset).toNat) % 2 ^ 24
        address := (xad.address + (splitAt - xad.offset).toNat) % 2 ^ 40 }) :
    right.run = xad.run.above splitAt.toNat := by
  have hlength := xad.length_lt
  have hstop : xad.stop = xad.offset + xad.length := rfl
  unfold straddles at hstraddles
  simp only [Bool.and_eq_true, decide_eq_true_eq] at hstraddles
  rw [hright]
  unfold Run.above Run.rest Xad.run
  simp only [Run.mk.injEq]
  omega

/-- Both parts of the extent together locate what the extent located. -/
theorem locate_parts {xad : Xad} {splitAt : ℤ} (hstraddles : straddles splitAt xad) (block : ℕ) :
    xad.run.locate block =
      ((xad.setLength (splitAt - xad.offset).toNat).run.locate block).or
        ((xad.run.above splitAt.toNat).locate block) := by
  unfold straddles at hstraddles
  simp only [Bool.and_eq_true, decide_eq_true_eq] at hstraddles
  have hkeep : (splitAt - xad.offset).toNat = splitAt.toNat - xad.offset := by omega
  rw [hkeep, Xad.run_setLength_below xad (by omega) (by omega), Run.locate_below, Run.locate_above]
  by_cases hbelow : block < splitAt.toNat
  · rw [if_pos hbelow, if_neg (by omega), Option.or_none]
  · rw [if_neg hbelow, if_pos (by omega), Option.none_or]

/-- Every block keeps its place. -/
theorem physical_splitExtent {xt : Xtree} (hmap : xt.WellMapped) (splitAt : ℤ) (block : ℕ) :
    (xt.splitExtent splitAt).2.physical block = xt.physical block := by
  rcases xt.splitExtent_cases splitAt with
    ⟨hsame, -⟩ | ⟨i, xad, right, -, -, hget, hstraddles, -, hslots, hright⟩
  · rw [hsame]
  obtain ⟨hi, rfl⟩ := List.getElem?_eq_some_iff.mp hget
  have hmem : xt.slots[i] ∈ xt.slots := List.getElem_mem hi
  have hnonempty : xt.slots[i].length ≠ 0 := by
    have hstop : xt.slots[i].stop = xt.slots[i].offset + xt.slots[i].length := rfl
    unfold straddles at hstraddles
    simp only [Bool.and_eq_true, decide_eq_true_eq] at hstraddles
    omega
  have habove := run_right hstraddles (hmap.offset_le _ hmem hnonempty)
    (hmap.address_le _ hmem hnonempty) hright
  have hwhole : xt.runs =
      (xt.slots.take i).map Xad.run ++ xt.slots[i].run :: (xt.slots.drop (i + 1)).map Xad.run := by
    unfold runs
    rw [← List.map_cons, ← List.map_append, List.getElem_cons_drop, List.take_append_drop]
  have hdisj := hmap.disjoint_runs
  rw [physical_eq_locate, physical_eq_locate, hwhole]
  rw [hwhole] at hdisj
  rw [← Runs.locate_cut hdisj block (locate_parts hstraddles block), ← habove]
  unfold runs
  rw [hslots, List.set_eq_take_append_cons_drop, if_pos hi]
  simp only [List.map_append, List.map_cons, List.map_nil]

/-- An extent starts at the block where another was split. -/
theorem exists_start_of_split {xt : Xtree} (hmap : xt.WellMapped) {splitAt : ℤ}
    (hsplit : (xt.splitExtent splitAt).1 = true) :
    ∃ xad ∈ (xt.splitExtent splitAt).2.slots, (xad.offset : ℤ) = splitAt ∧ xad.length ≠ 0 := by
  rcases xt.splitExtent_cases splitAt with
    ⟨hsame, -⟩ | ⟨i, xad, right, -, -, hget, hstraddles, -, hslots, hright⟩
  · rcases xt.splitExtent_fst splitAt with ⟨hnot, -⟩ | ⟨-, hnext⟩
    · rw [hnot] at hsplit
      cases hsplit
    · rw [hsame] at hnext
      omega
  have hmem := List.mem_of_getElem? hget
  have hlength := xad.length_lt
  have hstop : xad.stop = xad.offset + xad.length := rfl
  have hstraddle := hstraddles
  unfold straddles at hstraddle
  simp only [Bool.and_eq_true, decide_eq_true_eq] at hstraddle
  have habove := run_right hstraddles (hmap.offset_le _ hmem (by omega))
    (hmap.address_le _ hmem (by omega)) hright
  have hoffset : right.run.offset = xad.offset + min xad.length (splitAt.toNat - xad.offset) := by
    rw [habove]
    rfl
  have hrest : right.run.length = xad.length - min xad.length (splitAt.toNat - xad.offset) := by
    rw [habove]
    rfl
  refine ⟨right, ?_, ?_, ?_⟩
  · rw [hslots]
    exact List.mem_append_right _ (List.mem_singleton_self _)
  · have heq : right.offset = right.run.offset := rfl
    omega
  · have heq : right.length = right.run.length := rfl
    omega

/-- A split changes the extents but not what they map. -/
theorem splitExtent_preserves (xt : Xtree) (splitAt : ℤ) (hmap : xt.WellMapped) :
    (∀ block, (xt.splitExtent splitAt).2.physical block = xt.physical block) ∧
      ((xt.splitExtent splitAt).1 = true →
        (∃ xad ∈ (xt.splitExtent splitAt).2.slots, (xad.offset : ℤ) = splitAt ∧ xad.length ≠ 0) ∧
          (xt.splitExtent splitAt).2.nextIndex = xt.nextIndex + 1 ∧
          (xt.splitExtent splitAt).2.nextIndex ≤ xtRootMaxSlot) ∧
      ((xt.splitExtent splitAt).1 = false → (xt.splitExtent splitAt).2 = xt) := by
  refine ⟨physical_splitExtent hmap splitAt, fun hsplit => ?_, fun hsplit => ?_⟩
  · rcases xt.splitExtent_cases splitAt with ⟨hsame, -⟩ | ⟨_, _, _, hroom, -, -, -, hnext, -⟩
    · obtain ⟨hnot, -⟩ | ⟨-, hmore⟩ := xt.splitExtent_fst splitAt
      · rw [hnot] at hsplit
        cases hsplit
      · rw [hsame] at hmore
        omega
    · exact ⟨exists_start_of_split hmap hsplit, hnext, by omega⟩
  · obtain ⟨-, hsame⟩ | ⟨hdone, -⟩ := xt.splitExtent_fst splitAt
    · exact hsame
    · rw [hsplit] at hdone
      cases hdone

theorem splitExtent_preserves_threeBlocks :
    threeBlocks.WellMapped ∧ (threeBlocks.splitExtent 1).1 = true ∧
      (threeBlocks.splitExtent 1).2.physical 2 = threeBlocks.physical 2 :=
  ⟨wellMapped_threeBlocks, by decide,
    (splitExtent_preserves threeBlocks 1 wellMapped_threeBlocks).1 2⟩

end Xtree

end JfsFuse
