import Mathlib.Data.List.Nodup
import Mathlib.Data.Set.Function
import Mathlib.Logic.Function.Basic
import Mathlib.Tactic.Common

/-!
# Maps that remember the order of their keys

A finite map with its keys in the order they were added.  A new value for a key leaves the key
in its place.  A list of entries represents a map if its keys are the keys of the map in order and
a search for a key finds the value; the three ways in which an entry list is changed represent the
changes of the map.  A renaming of the keys that tells them apart carries a map to one that is
changed in the same way.
-/

/-- A finite map and its keys, oldest first. -/
@[ext]
structure OrderedMap (κ υ : Type*) where
  order : List κ
  value : κ → Option υ
  nodup : order.Nodup
  mem_iff : ∀ k, k ∈ order ↔ (value k).isSome

namespace OrderedMap

variable {κ υ : Type*}

instance : EmptyCollection (OrderedMap κ υ) where
  emptyCollection := ⟨[], fun _ => none, List.nodup_nil, fun _ => by simp⟩

@[simp] theorem order_empty : (∅ : OrderedMap κ υ).order = [] := rfl

@[simp] theorem value_empty (k : κ) : (∅ : OrderedMap κ υ).value k = none := rfl

theorem value_eq_none {m : OrderedMap κ υ} {k : κ} : m.value k = none ↔ k ∉ m.order := by
  rw [m.mem_iff, Option.not_isSome_iff_eq_none]

variable [DecidableEq κ]

/-- Set the value of a key; a new key becomes the last one. -/
def insert (m : OrderedMap κ υ) (k : κ) (v : υ) : OrderedMap κ υ where
  order := if k ∈ m.order then m.order else m.order ++ [k]
  value := Function.update m.value k (some v)
  nodup := by
    split
    · exact m.nodup
    · next hnew => exact m.nodup.append (List.nodup_singleton k) (by simpa using hnew)
  mem_iff k' := by
    by_cases hsame : k' = k
    · subst hsame
      rw [Function.update_self]
      split <;> simp_all
    · rw [Function.update_of_ne hsame, ← m.mem_iff]
      split <;> simp [hsame]

/-- Remove a key. -/
def erase (m : OrderedMap κ υ) (k : κ) : OrderedMap κ υ where
  order := m.order.filter (· ≠ k)
  value := Function.update m.value k none
  nodup := m.nodup.filter _
  mem_iff k' := by
    by_cases hsame : k' = k
    · simp [hsame]
    · rw [Function.update_of_ne hsame, ← m.mem_iff]
      simp [hsame]

theorem value_insert (m : OrderedMap κ υ) (k : κ) (v : υ) :
    (m.insert k v).value = Function.update m.value k (some v) := rfl

theorem value_erase (m : OrderedMap κ υ) (k : κ) : (m.erase k).value = Function.update m.value k none := rfl

theorem mem_insert {m : OrderedMap κ υ} {k k' : κ} {v : υ} : k' ∈ (m.insert k v).order ↔ k' = k ∨ k' ∈ m.order := by
  show k' ∈ (if k ∈ m.order then m.order else m.order ++ [k]) ↔ _
  split
  · next hold => exact ⟨Or.inr, fun h => h.elim (fun heq => heq ▸ hold) id⟩
  · rw [List.mem_append, List.mem_singleton, or_comm]

theorem erase_of_notMem {m : OrderedMap κ υ} {k : κ} (hk : k ∉ m.order) : m.erase k = m := by
  ext1
  · exact List.filter_eq_self.mpr fun k' hk' => decide_eq_true fun heq => hk (heq ▸ hk')
  · rw [value_erase, ← value_eq_none.mpr hk, Function.update_eq_self]

/-- The entries are those of the map, in order. -/
structure Represents (l : List (κ × υ)) (m : OrderedMap κ υ) : Prop where
  order : l.map Prod.fst = m.order
  value : ∀ k, (l.find? fun e => e.1 = k).map Prod.snd = m.value k

theorem represents_nil : Represents [] (∅ : OrderedMap κ υ) :=
  ⟨rfl, fun _ => rfl⟩

namespace Represents

variable {l : List (κ × υ)} {m : OrderedMap κ υ} (h : Represents l m)

include h

theorem any_eq (k : κ) : (l.any fun e => e.1 = k) = decide (k ∈ m.order) := by
  rw [← h.order, Bool.eq_iff_iff]
  simp [List.any_eq_true]

theorem value_of_mem {e : κ × υ} (he : e ∈ l) : m.value e.1 = some e.2 := by
  have hnodup : (l.map Prod.fst).Nodup := h.order ▸ m.nodup
  rw [← h.value]
  cases hfind : l.find? fun e' => e'.1 = e.1 with
  | none =>
      have hnot := List.find?_eq_none.mp hfind e he
      exact absurd (decide_eq_true rfl) hnot
  | some e' =>
      have hkey : e'.1 = e.1 := by simpa using List.find?_some hfind
      rw [List.inj_on_of_nodup_map hnodup (List.mem_of_find?_eq_some hfind) he hkey]
      rfl

/-- A sum over the keys, with their values, is one over the entries. -/
theorem map_order {β : Type*} (f : κ → υ → β) (d : υ) :
    (m.order.map fun k => f k ((m.value k).getD d)) = l.map fun e => f e.1 e.2 := by
  rw [← h.order, List.map_map]
  refine List.map_congr_left fun e he => ?_
  rw [Function.comp_apply, h.value_of_mem he, Option.getD_some]

/-- A new value in the place of an old one. -/
theorem replace {k : κ} (hk : k ∈ m.order) (v : υ) :
    Represents (l.map fun e => if e.1 = k then (e.1, v) else e) (m.insert k v) where
  order := by
    have hfst : (Prod.fst ∘ fun e : κ × υ => if e.1 = k then (e.1, v) else e) = Prod.fst := by
      funext e
      by_cases hkey : e.1 = k <;> simp [hkey]
    rw [List.map_map, hfst, h.order]
    exact (if_pos hk).symm
  value k' := by
    have hkey : ((fun e : κ × υ => decide (e.1 = k')) ∘ fun e => if e.1 = k then (e.1, v) else e) =
        fun e => decide (e.1 = k') := by
      funext e
      by_cases hkey : e.1 = k <;> simp [hkey]
    have hvalue := h.value k'
    rw [List.find?_map, hkey, value_insert]
    cases hfind : l.find? fun e => e.1 = k' with
    | none =>
        have hne : k' ≠ k := by
          rintro rfl
          rw [hfind, Option.map_none] at hvalue
          exact value_eq_none.mp hvalue.symm hk
        rw [Function.update_of_ne hne, ← hvalue, hfind]
        rfl
    | some e =>
        have hfound : e.1 = k' := by simpa using List.find?_some hfind
        by_cases hsame : k' = k
        · rw [hsame, Function.update_self]
          simp [hfound, hsame]
        · rw [Function.update_of_ne hsame, ← hvalue, hfind]
          simp [hfound, hsame]

/-- A new entry behind the others. -/
theorem append {k : κ} (hk : k ∉ m.order) (v : υ) : Represents (l ++ [(k, v)]) (m.insert k v) where
  order := by
    rw [List.map_append, h.order]
    exact (if_neg hk).symm
  value k' := by
    rw [List.find?_append, value_insert]
    by_cases hsame : k' = k
    · subst hsame
      have hnone : l.find? (fun e => e.1 = k') = none := by
        have hvalue := h.value k'
        rw [value_eq_none.mpr hk] at hvalue
        exact Option.map_eq_none_iff.mp hvalue
      rw [hnone, Function.update_self]
      simp
    · rw [Function.update_of_ne hsame, ← h.value k']
      cases l.find? (fun e => e.1 = k') with
      | none => simp [Ne.symm hsame]
      | some e => rfl

/-- The entries without those of a key. -/
theorem erase (k : κ) : Represents (l.filter fun e => e.1 ≠ k) (m.erase k) where
  order := by
    show _ = m.order.filter _
    rw [← h.order, List.filter_map]
    rfl
  value k' := by
    rw [value_erase]
    by_cases hsame : k' = k
    · subst hsame
      rw [Function.update_self, Option.map_eq_none_iff, List.find?_eq_none]
      simp
    · rw [Function.update_of_ne hsame, ← h.value k', List.find?_filter]
      congr 2
      funext e
      by_cases hkey : e.1 = k'
      · simp [hkey, hsame]
      · simp [hkey]

end Represents

/-! ### Renamed keys -/

/-- The map `m'` is `m` under other names for the keys in `N`. -/
structure Renames {κ' : Type*} (f : κ → κ') (N : Set κ) (m : OrderedMap κ υ) (m' : OrderedMap κ' υ) : Prop where
  keys : ∀ k ∈ m.order, k ∈ N
  order : m'.order = m.order.map f
  value : ∀ k ∈ N, m'.value (f k) = m.value k

section Renames

variable {κ' : Type*} [DecidableEq κ'] {f : κ → κ'} {N : Set κ} {m : OrderedMap κ υ} {m' : OrderedMap κ' υ}

omit [DecidableEq κ] [DecidableEq κ'] in
theorem renames_empty (f : κ → κ') (N : Set κ) : Renames f N (∅ : OrderedMap κ υ) ∅ :=
  ⟨fun _ hk => absurd hk List.not_mem_nil, rfl, fun _ _ => rfl⟩

namespace Renames

variable (h : Renames f N m m') (hinj : Set.InjOn f N) {k : κ} (hk : k ∈ N)

include h hinj hk

omit [DecidableEq κ] [DecidableEq κ'] in
theorem mem_iff : f k ∈ m'.order ↔ k ∈ m.order := by
  rw [h.order, List.mem_map]
  refine ⟨?_, fun hmem => ⟨k, hmem, rfl⟩⟩
  rintro ⟨k', hk', heq⟩
  rwa [← hinj (h.keys k' hk') hk heq]

theorem insert (v : υ) : Renames f N (m.insert k v) (m'.insert (f k) v) where
  keys k' hk' := (mem_insert.mp hk').elim (fun heq => heq ▸ hk) (h.keys k')
  order := by
    show (if f k ∈ m'.order then m'.order else m'.order ++ [f k]) =
      (if k ∈ m.order then m.order else m.order ++ [k]).map f
    by_cases hmem : k ∈ m.order
    · rw [if_pos ((h.mem_iff hinj hk).mpr hmem), if_pos hmem, h.order]
    · rw [if_neg ((h.mem_iff hinj hk).not.mpr hmem), if_neg hmem, List.map_append, h.order]
      rfl
  value k' hk' := by
    rw [value_insert, value_insert]
    by_cases hsame : k' = k
    · rw [hsame, Function.update_self, Function.update_self]
    · rw [Function.update_of_ne (fun heq => hsame (hinj hk' hk heq)), Function.update_of_ne hsame, h.value k' hk']

theorem erase : Renames f N (m.erase k) (m'.erase (f k)) where
  keys k' hk' := h.keys k' (List.mem_of_mem_filter hk')
  order := by
    show m'.order.filter (· ≠ f k) = (m.order.filter (· ≠ k)).map f
    rw [h.order, List.filter_map]
    refine congrArg _ (List.filter_congr fun k' hk' => ?_)
    exact decide_eq_decide.mpr (not_congr (hinj.eq_iff (h.keys k' hk') hk))
  value k' hk' := by
    rw [value_erase, value_erase]
    by_cases hsame : k' = k
    · rw [hsame, Function.update_self, Function.update_self]
    · rw [Function.update_of_ne (fun heq => hsame (hinj hk' hk heq)), Function.update_of_ne hsame, h.value k' hk']

end Renames

end Renames

end OrderedMap
