import JfsFuse.Btree.XtreeBytes
import JfsFuse.Btree.XtreeInsert
import Mathlib.Algebra.Group.Action.Defs
import Mathlib.Algebra.Order.BigOperators.Group.List

/-!
# The number of blocks of a file

`total_blocks` adds up the extents of a root.  It is 0 exactly when there is no extent left,
and this section says when a cut leaves none: every extent lies in the part that is cut off.
-/

namespace JfsFuse

open ByteBuf

namespace Xtree

theorem totalBlocks_eq (xt : Xtree) : xt.totalBlocks = (xt.slots.map Xad.length).sum := by
  unfold totalBlocks iterExtents
  rw [List.map_map]
  induction xt.slots with
  | nil => rfl
  | cons xad rest ih =>
      by_cases hlen : xad.length = 0
      · rw [List.filter_cons_of_neg (by simp [hlen]), List.map_cons, List.sum_cons, hlen, Nat.zero_add, ih]
      · rw [List.filter_cons_of_pos (by simp [hlen]), List.map_cons, List.map_cons, List.sum_cons,
          List.sum_cons, ih]
        rfl

theorem totalBlocks_of_slots {xt xt' : Xtree} (h : xt'.slots = xt.slots) :
    xt'.totalBlocks = xt.totalBlocks := by
  rw [totalBlocks_eq, totalBlocks_eq, h]

theorem totalBlocks_eq_zero_iff (xt : Xtree) :
    xt.totalBlocks = 0 ↔ ∀ xad ∈ xt.slots, xad.length = 0 := by
  rw [totalBlocks_eq, List.sum_eq_zero_iff_forall_eq_nat, List.forall_mem_map]

theorem exists_of_totalBlocks_ne_zero {xt : Xtree} (h : xt.totalBlocks ≠ 0) :
    ∃ xad ∈ xt.slots, xad.length ≠ 0 := by
  by_contra hnone
  refine h ((totalBlocks_eq_zero_iff xt).mpr fun xad hxad => ?_)
  by_contra hlen
  exact hnone ⟨xad, hxad, hlen⟩

/-- At most sixteen extents of less than `2 ^ 24` blocks. -/
theorem totalBlocks_lt (xt : Xtree) : xt.totalBlocks < 2 ^ 64 := by
  have hle : (xt.slots.map Xad.length).sum ≤ xt.slots.length * 2 ^ 24 := by
    have hsum := List.sum_le_card_nsmul (xt.slots.map Xad.length) (2 ^ 24) fun n hn => by
      obtain ⟨xad, -, rfl⟩ := List.mem_map.mp hn
      exact xad.length_lt.le
    rwa [List.length_map, smul_eq_mul] at hsum
  have hslots : xt.slots.length ≤ 16 := by
    rw [length_slots]
    unfold xtRootMaxSlot xtEntryStart
    omega
  rw [totalBlocks_eq]
  have := Nat.mul_le_mul_right (2 ^ 24) hslots
  omega

/-! ## After a cut -/

/-- At most two parts of each of at most sixteen extents. -/
theorem length_kept_le (xt : Xtree) {keep : Xad → List Xad} (hlength : ∀ xad, (keep xad).length ≤ 2) :
    (xt.slots.flatMap keep).length ≤ 32 := by
  have hslots : xt.slots.length ≤ 16 := by
    rw [length_slots]
    unfold xtRootMaxSlot xtEntryStart
    omega
  have hsum := List.sum_le_card_nsmul (xt.slots.map fun xad => (keep xad).length) 2 fun n hn => by
    obtain ⟨xad, -, rfl⟩ := List.mem_map.mp hn
    exact hlength xad
  rw [List.length_map, smul_eq_mul] at hsum
  rw [List.length_flatMap]
  omega

/-- Nothing is kept exactly when no part of any extent is. -/
theorem totalBlocks_storeKept {xt : Xtree} {keep : Xad → List Xad}
    (hpos : ∀ xad, ∀ part ∈ keep xad, part.length ≠ 0) (hlength : ∀ xad, (keep xad).length ≤ 2) :
    (xt.storeKept (xt.slots.flatMap keep)).totalBlocks = 0 ↔ ∀ xad ∈ xt.slots, keep xad = [] := by
  rw [totalBlocks_eq_zero_iff, slots_storeKept xt (length_kept_le xt hlength)]
  constructor
  · intro hnone xad hxad
    by_contra hne
    -- the first part that is kept has a slot
    obtain ⟨part, rest, hparts⟩ := List.exists_cons_of_ne_nil
      (show xt.slots.flatMap keep ≠ [] from fun hnil => hne (List.flatMap_eq_nil_iff.mp hnil xad hxad))
    have hmem : part ∈ (xt.slots.flatMap keep).take (xtRootMaxSlot - xtEntryStart) := by
      rw [hparts]
      exact List.mem_cons_self ..
    obtain ⟨owner, -, hpart⟩ := List.mem_flatMap.mp (List.mem_of_mem_take hmem)
    exact hpos owner part hpart (hnone part hmem)
  · intro hnil xad hxad
    rw [List.flatMap_eq_nil_iff.mpr hnil] at hxad
    cases hxad

theorem length_ne_zero_truncateXad (newEof : ℤ) (xad : Xad) :
    ∀ part ∈ (truncateXad newEof xad).1, part.length ≠ 0 := by
  have hlt := xad.length_lt
  unfold truncateXad Xad.stop
  split_ifs with hempty hbeyond hcut
  · simp
  · simp
  · simp only [List.mem_singleton, forall_eq, Xad.length_setLength]
    omega
  · simpa using hempty

theorem truncateXad_eq_nil_iff (newEof : ℤ) (xad : Xad) :
    (truncateXad newEof xad).1 = [] ↔ xad.length = 0 ∨ newEof ≤ xad.offset := by
  unfold truncateXad
  split_ifs with hempty hbeyond hcut
  · simp [hempty]
  · simp [hbeyond]
  · simp [hempty, hbeyond]
  · simp [hempty, hbeyond]

/-- **A truncation leaves no extent** when all of them lie behind the new end. -/
theorem totalBlocks_truncateExtents (xt : Xtree) (newEof : ℤ) :
    (xt.truncateExtents newEof).2.totalBlocks = 0 ↔
      ∀ xad ∈ xt.slots, xad.length ≠ 0 → newEof ≤ xad.offset := by
  unfold truncateExtents
  simp only [List.flatMap_map]
  rw [totalBlocks_storeKept (length_ne_zero_truncateXad newEof) fun xad =>
    (length_truncateXad newEof xad).trans (by decide)]
  refine forall₂_congr fun xad _ => ?_
  rw [truncateXad_eq_nil_iff, or_iff_not_imp_left]

theorem length_ne_zero_takeXad (start stop : ℤ) (xad : Xad) :
    ∀ part ∈ (takeXad start stop xad).1, part.length ≠ 0 := by
  have hlt := xad.length_lt
  unfold takeXad Xad.stop
  split_ifs with hempty hbefore hafter hinside hspans hleft
  · simp
  · simpa using hempty
  · simpa using hempty
  · simp
  · simp only [List.mem_cons, List.not_mem_nil, or_false, forall_eq_or_imp, forall_eq,
      Xad.length_setLength, Xad.length_setAddress]
    omega
  · simp only [List.mem_singleton, forall_eq, Xad.length_setLength]
    omega
  · simp only [List.mem_singleton, forall_eq, Xad.length_setLength, Xad.length_setAddress]
    omega

theorem takeXad_eq_nil_iff (start stop : ℤ) (xad : Xad) :
    (takeXad start stop xad).1 = [] ↔
      xad.length = 0 ∨ start ≤ xad.offset ∧ (xad.stop : ℤ) ≤ stop := by
  unfold takeXad Xad.stop
  split_ifs with hempty hbefore hafter hinside hspans hleft <;> simp <;> omega

/-- **Taking a range leaves no extent** when all of them lie in the range. -/
theorem totalBlocks_takeExtents (xt : Xtree) (start stop : ℤ) :
    (xt.takeExtents start stop).2.totalBlocks = 0 ↔
      ∀ xad ∈ xt.slots, xad.length ≠ 0 → start ≤ xad.offset ∧ (xad.stop : ℤ) ≤ stop := by
  unfold takeExtents
  simp only [List.flatMap_map]
  rw [totalBlocks_storeKept (length_ne_zero_takeXad start stop) fun _ => length_takeXad]
  refine forall₂_congr fun xad _ => ?_
  rw [takeXad_eq_nil_iff, or_iff_not_imp_left]

/-- Then no slot is in use either. -/
theorem slots_takeExtents_eq_nil {xt : Xtree} {start stop : ℤ}
    (h : (xt.takeExtents start stop).2.totalBlocks = 0) : (xt.takeExtents start stop).2.slots = [] := by
  unfold takeExtents at h ⊢
  simp only [List.flatMap_map] at h ⊢
  rw [totalBlocks_storeKept (length_ne_zero_takeXad start stop) fun _ => length_takeXad] at h
  rw [List.flatMap_eq_nil_iff.mpr h, slots_storeKept xt (by simp), List.take_nil]

/-! ## After an insertion -/

theorem totalBlocks_of_runs {xt : Xtree} {l : List Run} {r : Run} (h : xt.runs = l ++ [r])
    (hr : r.length ≠ 0) : xt.totalBlocks ≠ 0 := by
  intro hzero
  have hmem : r ∈ xt.runs := by
    rw [h]
    exact List.mem_append_right _ (List.mem_singleton_self _)
  obtain ⟨xad, hxad, rfl⟩ := List.mem_map.mp hmem
  exact hr ((totalBlocks_eq_zero_iff xt).mp hzero xad hxad)

theorem length_takenXad (start stop : ℤ) (xad : Xad) : (takeXad start stop xad).2.length ≤ 1 := by
  unfold takeXad
  split_ifs <;> simp

/-- The pieces that are taken are not empty. -/
theorem length_taken {start stop : ℕ} (hlt : start < stop) {xad : Xad} :
    ∀ taken ∈ (takeXad start stop xad).2, taken.2.1 % 2 ^ 24 ≠ 0 := by
  have hlength := xad.length_lt
  unfold takeXad Xad.stop
  split_ifs with hempty hbefore hafter hinside hspans hleft
  · simp
  · simp
  · simp
  · simp only [List.mem_singleton, forall_eq]
    omega
  · simp only [List.mem_singleton, forall_eq]
    omega
  · simp only [List.mem_singleton, forall_eq]
    omega
  · simp only [List.mem_singleton, forall_eq]
    omega

end Xtree

end JfsFuse
