import JfsFuse.Btree.XtreeCuts

/-!
# Where punching moves blocks

An extent that reaches over both ends of the range is split, and its right part begins at the
address of the hole.  Behind the hole, each block of the extent is then found where the block was
that lies the length of the hole before it.
-/

namespace JfsFuse

namespace Xtree

section Punch

variable {start stop : ℕ} {xad : Xad} {xt : Xtree}

/-- The block lies behind the range, in an extent that begins before it. -/
def Moved (xt : Xtree) (start stop block : ℕ) : Prop :=
  stop ≤ block ∧ ∃ xad ∈ xt.slots, xad.offset < start ∧ block < xad.stop

instance (xt : Xtree) (start stop block : ℕ) : Decidable (xt.Moved start stop block) :=
  inferInstanceAs (Decidable (_ ∧ _))

/-- The parts of an extent that is split. -/
theorem map_run_punchXad_split (hlow : xad.offset < start) (hlt : start < stop) (hhigh : stop < xad.stop)
    (hoffset : xad.stop ≤ 2 ^ 40) (haddress : xad.address + xad.length ≤ 2 ^ 40) :
    (punchXad start stop xad).1.map Xad.run =
      [xad.run.below start,
        { offset := stop, length := xad.stop - stop, address := xad.address + (start - xad.offset) }] := by
  have hstop : xad.stop = xad.offset + xad.length := rfl
  have hlength := xad.length_lt
  unfold punchXad
  rw [if_neg (by omega), if_neg (by omega), if_neg (by omega), if_neg (by omega), if_pos (by omega)]
  rw [List.map_cons, List.map_singleton, Int.toNat_sub, Int.toNat_sub,
    Xad.run_moved xad (by omega) (by omega) (by omega) (by omega), Int.toNat_natCast,
    xad.run_setLength_below hlow.le (by omega)]

/-- The parts of any other extent. -/
theorem map_run_punchXad (hle : start ≤ stop) (hsplit : ¬ (xad.offset < start ∧ stop < xad.stop))
    (hoffset : xad.length ≠ 0 → xad.stop ≤ 2 ^ 40)
    (haddress : xad.length ≠ 0 → xad.address + xad.length ≤ 2 ^ 40) :
    (punchXad start stop xad).1.map Xad.run = outside start stop xad := by
  rw [punchXad_fst (Or.inl (by omega))]
  exact map_run_takeXad hle hoffset haddress

/-- **Where the parts of an extent locate a block.** -/
theorem locate_punchXad (hlt : start < stop) (hoffset : xad.length ≠ 0 → xad.stop ≤ 2 ^ 40)
    (haddress : xad.length ≠ 0 → xad.address + xad.length ≤ 2 ^ 40) (block : ℕ) :
    Runs.locate ((punchXad start stop xad).1.map Xad.run) block =
      if block < start then xad.run.locate block
      else if block < stop then none
      else if xad.offset < start ∧ block < xad.stop then xad.run.locate (block - (stop - start))
      else xad.run.locate block := by
  have hstop : xad.stop = xad.offset + xad.length := rfl
  by_cases hsplit : xad.offset < start ∧ stop < xad.stop
  · have hnonempty : xad.length ≠ 0 := by omega
    rw [map_run_punchXad_split hsplit.1 hlt hsplit.2 (hoffset hnonempty) (haddress hnonempty),
      Runs.locate_cons, Runs.locate_singleton, Run.locate_below]
    by_cases hbelow : block < start
    · rw [if_pos hbelow, if_pos hbelow]
      rw [Run.locate_of_not_holds (r := { offset := stop, length := _, address := _ }) fun hholds => by
        have hge : stop ≤ block := hholds.1
        omega]
      exact Option.or_none
    rw [if_neg hbelow, if_neg hbelow, Option.none_or]
    by_cases hinside : block < stop
    · rw [if_pos hinside]
      exact Run.locate_of_not_holds fun hholds => absurd hholds.1 (Nat.not_le.mpr hinside)
    rw [if_neg hinside]
    by_cases hin : block < xad.stop
    · have hbefore : xad.run.Holds (block - (stop - start)) := by
        refine ⟨show xad.offset ≤ _ by omega, show _ < xad.offset + xad.length by omega⟩
      have hholds : stop ≤ block ∧ block < stop + (xad.stop - stop) := by omega
      rw [if_pos ⟨hsplit.1, hin⟩, Run.locate_of_holds hbefore]
      refine (if_pos hholds).trans (congrArg some ?_)
      show xad.address + (start - xad.offset) + (block - stop) =
        xad.address + (block - (stop - start) - xad.offset)
      omega
    · rw [if_neg fun h => hin h.2, Run.locate_of_not_holds (r := xad.run) fun hholds => hin hholds.2]
      exact Run.locate_of_not_holds fun hholds => hin (by
        have hend : block < stop + (xad.stop - stop) := hholds.2
        omega)
  · rw [map_run_punchXad hlt.le hsplit hoffset haddress, locate_outside hlt.le]
    by_cases hbelow : block < start
    · rw [if_pos hbelow, if_neg (by omega)]
    rw [if_neg hbelow]
    by_cases hinside : block < stop
    · rw [if_pos hinside, if_pos (by omega)]
    · rw [if_neg hinside, if_neg (by omega), if_neg (by omega)]

/-- **The map of a punched root.** -/
theorem physical_punchExtents (hlt : start < stop) (hmap : xt.WellMapped) (hnext : xt.nextIndex ≤ 17)
    (block : ℕ) : (xt.punchExtents start stop).2.physical block =
      if start ≤ block ∧ block < stop then none
      else if xt.Moved start stop block then xt.physical (block - (stop - start))
      else xt.physical block := by
  have hruns : (xt.punchExtents start stop).2.runs =
      xt.slots.flatMap fun xad => (punchXad start stop xad).1.map Xad.run := by
    unfold punchExtents
    simp only [List.flatMap_map]
    rw [runs_storeKept _ (length_keep_outside hmap hnext fun _ => length_punchXad), List.map_flatMap]
  have hlocate : ∀ xad ∈ xt.slots, _ := fun xad hxad =>
    locate_punchXad hlt (hmap.offset_le xad hxad) (hmap.address_le xad hxad) block
  rw [physical_eq_locate, hruns]
  by_cases hinside : start ≤ block ∧ block < stop
  · rw [if_pos hinside]
    refine Runs.locate_flatMap_none fun xad hxad => ?_
    rw [hlocate xad hxad, if_neg (by omega), if_pos hinside.2]
  rw [if_neg hinside]
  by_cases hmoved : xt.Moved start stop block
  · rw [if_pos hmoved, physical_eq_locate]
    obtain ⟨hge, xad₀, hxad₀, hlow, hhigh⟩ := hmoved
    refine Runs.locate_flatMap_of fun xad hxad => ?_
    rw [hlocate xad hxad, if_neg (by omega), if_neg (by omega)]
    split
    · rfl
    · next hnot =>
        -- any other extent holds neither of the two blocks
        have hne : xad ≠ xad₀ := by
          rintro rfl
          exact hnot ⟨hlow, hhigh⟩
        have hsymm : Std.Symm fun x y : Xad => x.run.Disjoint y.run := ⟨fun _ _ h => h.symm⟩
        have hdisjoint := List.Pairwise.forall hmap.disjoint hxad hxad₀ hne
        have hnone : ∀ k, xad₀.offset ≤ k → k < xad₀.stop → xad.run.locate k = none := fun k hle hlt =>
          Run.locate_of_not_holds fun hholds => hdisjoint k hholds ⟨hle, hlt⟩
        rw [hnone _ (by omega) hhigh, hnone _ (by omega) (by omega)]
  · rw [if_neg hmoved, physical_eq_locate]
    refine Runs.locate_flatMap_of fun xad hxad => ?_
    rw [hlocate xad hxad]
    by_cases hbelow : block < start
    · rw [if_pos hbelow]
    · have hge : stop ≤ block := by omega
      rw [if_neg hbelow, if_neg (by omega), if_neg fun hin => hmoved ⟨hge, xad, hxad, hin⟩]

end Punch

end Xtree

end JfsFuse
