import Mathlib.Order.Bounds.Basic
import Mathlib.Tactic.Common

/-!
# Segments in order

A list of segments, each from its first point to the point behind its last one, none empty and
each behind the ones before it.  The first segment that ends behind a point `x` decides what is
covered from `x` on: the least covered point is `x` itself or the start of this segment, and if
the segment holds `x`, nothing before its end is uncovered.
-/

namespace Segments

variable {α : Type*} [LinearOrder α]

/-- Some segment holds `x`. -/
def Covered (l : List (α × α)) (x : α) : Prop :=
  ∃ s ∈ l, s.1 ≤ x ∧ x < s.2

/-- The segments are in order, and not empty. -/
structure Sorted (l : List (α × α)) : Prop where
  order : l.Pairwise fun s s' => s.2 ≤ s'.1
  pos : ∀ s ∈ l, s.1 < s.2

/-- The first segment that ends behind `x`. -/
def next (l : List (α × α)) (x : α) : Option (α × α) :=
  l.find? fun s => x < s.2

theorem next_cons (s : α × α) (l : List (α × α)) (x : α) :
    next (s :: l) x = if x < s.2 then some s else next l x := by
  unfold next
  split
  · next h => exact List.find?_cons_of_pos (by simpa using h)
  · next h => exact List.find?_cons_of_neg (by simpa using h)

theorem le_of_next_none {l : List (α × α)} {x : α} (h : next l x = none) {s : α × α} (hs : s ∈ l) : s.2 ≤ x := by
  have hnot := List.find?_eq_none.mp h s hs
  simpa using hnot

theorem not_covered_of_next_none {l : List (α × α)} {x y : α} (h : next l x = none) (hy : x ≤ y) :
    ¬ Covered l y := by
  rintro ⟨s, hs, -, hlt⟩
  exact absurd hlt (not_lt.mpr ((le_of_next_none h hs).trans hy))

section Next

variable {l : List (α × α)} (hl : Sorted l) {x : α} {s : α × α} (h : next l x = some s)

include h

theorem mem_of_next : s ∈ l :=
  List.mem_of_find?_eq_some h

theorem lt_of_next : x < s.2 := by
  have hfound := List.find?_some h
  simpa using hfound

include hl

/-- Every other segment that ends behind the point lies behind the first one. -/
theorem le_start_of_ne {s' : α × α} (hs' : s' ∈ l) (hlt : x < s'.2) (hne : s' ≠ s) : s.2 ≤ s'.1 := by
  obtain ⟨-, before, after, rfl, hbefore⟩ := List.find?_eq_some_iff_append.mp h
  rcases List.mem_append.mp hs' with hearly | hlate
  · have hnot := hbefore s' hearly
    simp only [hlt, decide_true, Bool.not_true, Bool.false_eq_true] at hnot
  · rcases List.mem_cons.mp hlate with rfl | hmem
    · exact absurd rfl hne
    · exact (List.pairwise_cons.mp (List.pairwise_append.mp hl.order).2.1).1 s' hmem

/-- **The least covered point** from `x` on. -/
theorem isLeast_covered : IsLeast {y | x ≤ y ∧ Covered l y} (max x s.1) := by
  have hpos := hl.pos s (mem_of_next h)
  refine ⟨⟨le_max_left .., s, mem_of_next h, le_max_right .., max_lt (lt_of_next h) hpos⟩, ?_⟩
  rintro y ⟨hxy, s', hs', hstart, hstop⟩
  refine max_le hxy ?_
  by_cases hsame : s' = s
  · exact hsame ▸ hstart
  · exact hpos.le.trans ((le_start_of_ne hl h hs' (hxy.trans_lt hstop) hsame).trans hstart)

/-- A point before the segment is not covered. -/
theorem not_covered_of_lt (hx : x < s.1) : ¬ Covered l x := by
  rintro ⟨s', hs', hstart, hstop⟩
  by_cases hsame : s' = s
  · exact absurd hx (not_lt.mpr (hsame ▸ hstart))
  · have hbehind := (le_start_of_ne hl h hs' hstop hsame).trans hstart
    exact absurd (lt_of_next h) (not_lt.mpr hbehind)

omit hl in
/-- What is not covered lies behind a segment that holds `x`. -/
theorem le_of_not_covered (hx : s.1 ≤ x) {y : α} (hxy : x ≤ y) (hy : ¬ Covered l y) : s.2 ≤ y := by
  by_contra hlt
  exact hy ⟨s, mem_of_next h, hx.trans hxy, not_le.mp hlt⟩

/-- The end of the segment is covered if another one starts there. -/
theorem covered_stop_iff : Covered l s.2 ↔ ∃ s' ∈ l, s'.1 = s.2 := by
  constructor
  · rintro ⟨s', hs', hstart, hstop⟩
    have hsame : s' ≠ s := fun heq => absurd hstop (by rw [heq]; exact lt_irrefl _)
    exact ⟨s', hs', le_antisymm hstart (le_start_of_ne hl h hs' ((lt_of_next h).trans hstop) hsame)⟩
  · rintro ⟨s', hs', heq⟩
    exact ⟨s', hs', heq.le, heq ▸ hl.pos s' hs'⟩

end Next

end Segments
