import Mathlib.Algebra.BigOperators.Group.Multiset.Basic
import Mathlib.Data.List.Range
import Mathlib.Tactic.Abel

/-!
# Maps made of runs

A run maps the blocks from an offset on to the addresses from an address on.  A list of runs
is a map: a block is located by the first run that holds it.

A pass over such a list replaces each run by pieces of it.  What the pass does to the map
(`locate_flatMap_of`) and to the addresses in use (`spans_flatMap_of`) then follows from what
it does to a single run.
-/

/-- The addresses from `address` on. -/
def addressSpan (address length : ℕ) : Multiset ℕ :=
  List.range' address length

theorem addressSpan_add (address first second : ℕ) :
    addressSpan address (first + second) =
      addressSpan address first + addressSpan (address + first) second := by
  unfold addressSpan
  rw [Multiset.coe_add]
  congr 1
  have happend := @List.range'_append address first second 1
  rw [Nat.one_mul] at happend
  exact happend.symm

@[simp] theorem addressSpan_zero (address : ℕ) : addressSpan address 0 = 0 := rfl

theorem mem_addressSpan {address length b : ℕ} :
    b ∈ addressSpan address length ↔ address ≤ b ∧ b < address + length := by
  unfold addressSpan
  rw [Multiset.mem_coe, List.mem_range'_1]

/-- The blocks `offset`, `offset + 1`, … at the addresses `address`, `address + 1`, …. -/
structure Run where
  offset : ℕ
  length : ℕ
  address : ℕ
  deriving DecidableEq, Repr

namespace Run

/-- The block lies in the run. -/
def Holds (r : Run) (b : ℕ) : Prop :=
  r.offset ≤ b ∧ b < r.offset + r.length

instance (r : Run) (b : ℕ) : Decidable (r.Holds b) :=
  inferInstanceAs (Decidable (_ ∧ _))

/-- The address of a block of the run. -/
def locate (r : Run) (b : ℕ) : Option ℕ :=
  if r.Holds b then some (r.address + (b - r.offset)) else none

/-- The addresses of the run. -/
def span (r : Run) : Multiset ℕ :=
  addressSpan r.address r.length

/-- The first `k` blocks of the run. -/
def first (r : Run) (k : ℕ) : Run :=
  { r with length := k }

/-- The run without its first `k` blocks. -/
def rest (r : Run) (k : ℕ) : Run where
  offset := r.offset + k
  length := r.length - k
  address := r.address + k

theorem span_first_rest (r : Run) {k : ℕ} (hk : k ≤ r.length) :
    (r.first k).span + (r.rest k).span = r.span := by
  unfold span first rest
  rw [← addressSpan_add, Nat.add_sub_cancel' hk]

theorem locate_first (r : Run) {k b : ℕ} (hk : k ≤ r.length) :
    (r.first k).locate b = if b < r.offset + k then r.locate b else none := by
  unfold locate Holds first
  by_cases hlt : b < r.offset + k
  · rw [if_pos hlt]
    exact if_congr (by simp only; omega) rfl rfl
  · rw [if_neg hlt]
    exact if_neg (by simp only; omega)

theorem locate_rest (r : Run) {k b : ℕ} :
    (r.rest k).locate b = if r.offset + k ≤ b then r.locate b else none := by
  unfold locate Holds rest
  by_cases hle : r.offset + k ≤ b
  · have haddress : r.address + k + (b - (r.offset + k)) = r.address + (b - r.offset) := by omega
    rw [if_pos hle]
    simp only [haddress]
    exact if_congr (by omega) rfl rfl
  · rw [if_neg hle]
    exact if_neg (by simp only; omega)

/-- The blocks of the run before `n`. -/
def below (r : Run) (n : ℕ) : Run :=
  r.first (min r.length (n - r.offset))

/-- The blocks of the run from `n` on. -/
def above (r : Run) (n : ℕ) : Run :=
  r.rest (min r.length (n - r.offset))

theorem span_below_above (r : Run) (n : ℕ) : (r.below n).span + (r.above n).span = r.span :=
  r.span_first_rest (Nat.min_le_left _ _)

theorem locate_of_length_eq_zero {r : Run} (h : r.length = 0) (b : ℕ) : r.locate b = none := by
  unfold locate Holds
  exact if_neg (by omega)

theorem span_of_length_eq_zero {r : Run} (h : r.length = 0) : r.span = 0 := by
  unfold span
  rw [h, addressSpan_zero]

theorem locate_below (r : Run) (n b : ℕ) :
    (r.below n).locate b = if b < n then r.locate b else none := by
  unfold below
  rw [locate_first r (Nat.min_le_left _ _)]
  by_cases hholds : r.Holds b
  · have hiff : b < r.offset + min r.length (n - r.offset) ↔ b < n := by
      unfold Holds at hholds
      omega
    exact if_congr hiff rfl rfl
  · rw [show r.locate b = none from if_neg hholds, ite_self, ite_self]

theorem locate_above (r : Run) (n b : ℕ) :
    (r.above n).locate b = if n ≤ b then r.locate b else none := by
  unfold above
  rw [locate_rest]
  by_cases hholds : r.Holds b
  · have hiff : r.offset + min r.length (n - r.offset) ≤ b ↔ n ≤ b := by
      unfold Holds at hholds
      omega
    exact if_congr hiff rfl rfl
  · rw [show r.locate b = none from if_neg hholds, ite_self, ite_self]

/-- The blocks of the run from `start` on and before `stop`. -/
def between (r : Run) (start stop : ℕ) : Run :=
  (r.below stop).above start

theorem locate_between (r : Run) (start stop b : ℕ) :
    (r.between start stop).locate b = if start ≤ b ∧ b < stop then r.locate b else none := by
  unfold between
  rw [locate_above, locate_below, ite_and]

theorem span_below_between_above (r : Run) {start stop : ℕ} (h : start ≤ stop) :
    (r.below start).span + (r.above stop).span + (r.between start stop).span = r.span := by
  have hbelow : (r.below stop).below start = r.below start := by
    unfold below first
    simp only [mk.injEq, true_and, and_true]
    omega
  have hinner := (r.below stop).span_below_above start
  rw [hbelow] at hinner
  rw [← r.span_below_above stop, ← hinner]
  unfold between
  abel

theorem locate_of_holds {r : Run} {b : ℕ} (h : r.Holds b) :
    r.locate b = some (r.address + (b - r.offset)) :=
  if_pos h

theorem locate_of_not_holds {r : Run} {b : ℕ} (h : ¬ r.Holds b) : r.locate b = none :=
  if_neg h

theorem locate_eq_some {r : Run} {b a : ℕ} :
    r.locate b = some a ↔ r.Holds b ∧ r.address + (b - r.offset) = a := by
  by_cases h : r.Holds b
  · rw [locate_of_holds h, Option.some.injEq]
    exact (and_iff_right h).symm
  · rw [locate_of_not_holds h]
    exact iff_of_false (by simp) fun h' => h h'.1

/-- The addresses of a run are those of its blocks. -/
theorem mem_span_iff_locate {r : Run} {a : ℕ} : a ∈ r.span ↔ ∃ b, r.locate b = some a := by
  unfold span
  rw [mem_addressSpan]
  constructor
  · rintro ⟨hlow, hhigh⟩
    refine ⟨r.offset + (a - r.address), locate_eq_some.mpr ⟨?_, by omega⟩⟩
    unfold Holds
    omega
  · rintro ⟨b, hb⟩
    obtain ⟨⟨hlow, hhigh⟩, rfl⟩ := locate_eq_some.mp hb
    omega

/-- No block lies in both runs. -/
def Disjoint (r r' : Run) : Prop :=
  ∀ b, r.Holds b → ¬ r'.Holds b

theorem Disjoint.symm {r r' : Run} (h : Disjoint r r') : Disjoint r' r :=
  fun b hb hb' => h b hb' hb

end Run

namespace Runs

/-- The address of a block, by the first run that holds it. -/
def locate (l : List Run) (b : ℕ) : Option ℕ :=
  l.findSome? fun r => r.locate b

/-- The addresses of all runs. -/
def spans (l : List Run) : Multiset ℕ :=
  (l.map Run.span).sum

@[simp] theorem locate_nil (b : ℕ) : locate [] b = none := rfl

theorem locate_cons (r : Run) (l : List Run) (b : ℕ) :
    locate (r :: l) b = (r.locate b).or (locate l b) := by
  unfold locate
  rw [List.findSome?_cons]
  cases r.locate b <;> rfl

theorem locate_append (l l' : List Run) (b : ℕ) :
    locate (l ++ l') b = (locate l b).or (locate l' b) :=
  List.findSome?_append

@[simp] theorem locate_singleton (r : Run) (b : ℕ) : locate [r] b = r.locate b := by
  rw [locate_cons, locate_nil, Option.or_none]

@[simp] theorem spans_nil : spans [] = 0 := rfl

@[simp] theorem spans_cons (r : Run) (l : List Run) : spans (r :: l) = r.span + spans l := by
  unfold spans
  rw [List.map_cons, List.sum_cons]

theorem spans_append (l l' : List Run) : spans (l ++ l') = spans l + spans l' := by
  unfold spans
  rw [List.map_append, List.sum_append]

theorem mem_spans {l : List Run} {b : ℕ} : b ∈ spans l ↔ ∃ r ∈ l, b ∈ r.span := by
  induction l with
  | nil => simp
  | cons r l ih => rw [spans_cons, Multiset.mem_add, ih]; simp

/-- The runs that hold a block. -/
def nonempty (l : List Run) : List Run :=
  l.filter fun r => r.length ≠ 0

theorem nonempty_cons_of_pos {r : Run} (l : List Run) (h : r.length ≠ 0) :
    nonempty (r :: l) = r :: nonempty l := by
  unfold nonempty
  rw [List.filter_cons_of_pos (by simpa using h)]

theorem nonempty_cons_of_empty {r : Run} (l : List Run) (h : r.length = 0) :
    nonempty (r :: l) = nonempty l := by
  unfold nonempty
  rw [List.filter_cons_of_neg (by simpa using h)]

@[simp] theorem nonempty_nil : nonempty [] = [] := rfl

theorem locate_nonempty (l : List Run) (b : ℕ) : locate (nonempty l) b = locate l b := by
  induction l with
  | nil => rfl
  | cons r rest ih =>
      by_cases h : r.length = 0
      · rw [nonempty_cons_of_empty _ h, ih, locate_cons, Run.locate_of_length_eq_zero h]
        rfl
      · rw [nonempty_cons_of_pos _ h, locate_cons, ih, locate_cons]

theorem spans_nonempty (l : List Run) : spans (nonempty l) = spans l := by
  induction l with
  | nil => rfl
  | cons r rest ih =>
      by_cases h : r.length = 0
      · rw [nonempty_cons_of_empty _ h, ih, spans_cons, Run.span_of_length_eq_zero h, zero_add]
      · rw [nonempty_cons_of_pos _ h, spans_cons, ih, spans_cons]

/-! ## Passes over the runs -/

section Pass

variable {α : Type} {l : List α} {run : α → Run} {f g : α → List Run}

/-- The pieces of every run locate a block where the run locates it, or another block `b'`. -/
theorem locate_flatMap_of {b b' : ℕ} (h : ∀ a ∈ l, locate (f a) b = (run a).locate b') :
    locate (l.flatMap f) b = locate (l.map run) b' := by
  induction l with
  | nil => rfl
  | cons a rest ih =>
      rw [List.flatMap_cons, List.map_cons, locate_append, locate_cons, h a (List.mem_cons_self ..),
        ih fun a' ha' => h a' (List.mem_cons_of_mem _ ha')]

/-- A block that the pieces of no run hold. -/
theorem locate_flatMap_none {b : ℕ} (h : ∀ a ∈ l, locate (f a) b = none) :
    locate (l.flatMap f) b = none := by
  induction l with
  | nil => rfl
  | cons a rest ih =>
      rw [List.flatMap_cons, locate_append, h a (List.mem_cons_self ..),
        ih fun a' ha' => h a' (List.mem_cons_of_mem _ ha')]
      rfl

/-- A pass that sorts the addresses of every run into two lists. -/
theorem spans_flatMap_of (h : ∀ a ∈ l, spans (f a) + spans (g a) = (run a).span) :
    spans (l.flatMap f) + spans (l.flatMap g) = spans (l.map run) := by
  induction l with
  | nil => rfl
  | cons a rest ih =>
      have hrest := ih fun a' ha' => h a' (List.mem_cons_of_mem _ ha')
      rw [List.flatMap_cons, List.flatMap_cons, List.map_cons, spans_append, spans_append, spans_cons,
        ← hrest, ← h a (List.mem_cons_self ..)]
      abel

end Pass

/-! ## Disjoint runs -/

theorem locate_eq_none_iff {l : List Run} {b : ℕ} : locate l b = none ↔ ∀ r ∈ l, ¬ r.Holds b := by
  induction l with
  | nil => simp
  | cons r rest ih =>
      rw [locate_cons, Option.or_eq_none_iff, ih]
      unfold Run.locate
      by_cases h : r.Holds b <;> simp [h]

/-- Where runs are disjoint, the one that holds a block locates it. -/
theorem locate_of_mem {l : List Run} (hdisj : l.Pairwise Run.Disjoint) {r : Run} (hr : r ∈ l) {b : ℕ}
    (hb : r.Holds b) : locate l b = r.locate b := by
  induction l with
  | nil => cases hr
  | cons first rest ih =>
      obtain ⟨hfirst, hrest⟩ := List.pairwise_cons.mp hdisj
      rw [locate_cons]
      rcases List.mem_cons.mp hr with rfl | hmem
      · rw [Run.locate_of_holds hb]
        rfl
      · have hnot : ¬ first.Holds b := fun hheld => hfirst r hmem b hheld hb
        rw [Run.locate_of_not_holds hnot, ih hrest hmem]
        rfl

/-- A run cut in two, the second part behind the others, locates the same blocks. -/
theorem locate_cut {earlier later : List Run} {r left right : Run}
    (hdisj : (earlier ++ r :: later).Pairwise Run.Disjoint) (b : ℕ)
    (hcut : r.locate b = (left.locate b).or (right.locate b)) :
    locate (earlier ++ left :: later ++ [right]) b = locate (earlier ++ r :: later) b := by
  have hparts : r.locate b = left.locate b ∨ locate later b = none := by
    by_cases hheld : r.Holds b
    · obtain ⟨-, hrest, -⟩ := List.pairwise_append.mp hdisj
      exact .inr (locate_eq_none_iff.mpr fun other hother hholds =>
        (List.pairwise_cons.mp hrest).1 other hother b hheld hholds)
    · rw [Run.locate_of_not_holds hheld] at hcut ⊢
      exact .inl (Option.or_eq_none_iff.mp hcut.symm).1.symm
  rw [locate_append, locate_append, locate_append, locate_cons left, locate_cons r, locate_singleton,
    Option.or_assoc, Option.or_assoc]
  congr 1
  rcases hparts with hleft | hlater
  · rw [hleft] at hcut ⊢
    cases hlocate : left.locate b with
    | some address => rfl
    | none =>
        rw [hlocate, Option.none_or] at hcut
        rw [← hcut, Option.or_none]
  · rw [hlater, Option.none_or, Option.or_none]
    exact hcut.symm

theorem locate_eq_some_iff {l : List Run} (hdisj : l.Pairwise Run.Disjoint) {b a : ℕ} :
    locate l b = some a ↔ ∃ r ∈ l, r.locate b = some a := by
  constructor
  · intro h
    exact List.exists_of_findSome?_eq_some h
  · rintro ⟨r, hr, hlocate⟩
    rw [locate_of_mem hdisj hr (Run.locate_eq_some.mp hlocate).1, hlocate]

/-- Runs with different addresses hold each address once. -/
theorem nodup_spans {l : List Run} (h : l.Pairwise fun r r' => Disjoint r.span r'.span) :
    (spans l).Nodup := by
  induction l with
  | nil => exact Multiset.nodup_zero
  | cons r rest ih =>
      obtain ⟨hfirst, hrest⟩ := List.pairwise_cons.mp h
      rw [spans_cons, Multiset.nodup_add]
      refine ⟨List.nodup_range', ih hrest, ?_⟩
      rw [Multiset.disjoint_left]
      intro a ha hrests
      obtain ⟨r', hr', ha'⟩ := mem_spans.mp hrests
      exact Multiset.disjoint_left.mp (hfirst r' hr') ha ha'

/-! ## Runs in order -/

/-- The first run ends before the second one starts; empty runs are not looked at. -/
def Before (r r' : Run) : Prop :=
  r.length ≠ 0 → r'.length ≠ 0 → r.offset + r.length ≤ r'.offset

/-- The runs lie in the order of the list. -/
def Ordered (l : List Run) : Prop :=
  l.Pairwise Before

theorem Ordered.disjoint {l : List Run} (h : Ordered l) : l.Pairwise Run.Disjoint := by
  refine List.Pairwise.imp (fun {r r'} hbefore b hb hb' => ?_) h
  have hle := hbefore
  unfold Before Run.Holds at *
  omega

theorem Ordered.before {l : List Run} (h : Ordered l) {i j : ℕ} {r r' : Run} (hi : l[i]? = some r)
    (hj : l[j]? = some r') (hij : i < j) : Before r r' := by
  obtain ⟨hilt, rfl⟩ := List.getElem?_eq_some_iff.mp hi
  obtain ⟨hjlt, rfl⟩ := List.getElem?_eq_some_iff.mp hj
  exact List.pairwise_iff_getElem.mp h i j hilt hjlt hij

/-- A run behind the others. -/
theorem ordered_append_singleton {l : List Run} {r : Run} :
    Ordered (l ++ [r]) ↔
      Ordered l ∧ (r.length = 0 ∨ ∀ r' ∈ l, r'.length ≠ 0 → r'.offset + r'.length ≤ r.offset) := by
  unfold Ordered
  rw [List.pairwise_append]
  simp only [List.pairwise_singleton, true_and, List.mem_singleton, forall_eq]
  refine and_congr_right fun _ => ⟨fun h => ?_, fun h r' hr' hne hne' => ?_⟩
  · by_cases hempty : r.length = 0
    · exact Or.inl hempty
    · exact Or.inr fun r' hr' hne => h r' hr' hne hempty
  · exact h.resolve_left hne' r' hr' hne

/-- A run made shorter stays in its place. -/
theorem Ordered.set {l : List Run} (h : Ordered l) {i : ℕ} {r r' : Run} (hget : l[i]? = some r)
    (hoffset : r'.offset = r.offset) (hlength : r'.length ≤ r.length) : Ordered (l.set i r') := by
  obtain ⟨hi, hget⟩ := List.getElem?_eq_some_iff.mp hget
  unfold Ordered at *
  rw [List.pairwise_iff_getElem] at *
  intro j k hj hk hjk
  rw [List.length_set] at hj hk
  have hbefore := h j k hj hk hjk
  unfold Before at *
  rw [List.getElem_set, List.getElem_set]
  by_cases hij : i = j
  · subst hij
    rw [if_pos rfl, if_neg (by omega)]
    rw [hget] at hbefore
    omega
  · rw [if_neg hij]
    by_cases hik : i = k
    · subst hik
      rw [if_pos rfl]
      rw [hget] at hbefore
      omega
    · rwa [if_neg hik]

end Runs
