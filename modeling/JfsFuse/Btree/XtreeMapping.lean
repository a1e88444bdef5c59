import JfsFuse.Btree.Xtree
import JfsFuse.Lib.Runs

/-!
# The block map of a file

The slots in use of an extent root are a list of runs, and `lookup` is the search through
it.  `truncate_extents`, `punch_extents` and `take_extents` replace each extent by the parts
they keep, and list the parts they remove: what they do to the map and to the blocks in
use follows from what they do to one extent, as long as the parts kept fit into the root.
-/

namespace JfsFuse

/-! ## Descriptors -/

namespace Xad

/-- The extent as a run. -/
def run (xad : Xad) : Run where
  offset := xad.offset
  length := xad.length
  address := xad.address

theorem offset_lt (xad : Xad) : xad.offset < 2 ^ 40 := by
  have hhigh := xad.off1.toNat_lt
  have hlow := xad.off2.toNat_lt
  unfold offset
  omega

theorem length_lt (xad : Xad) : xad.length < 2 ^ 24 := by
  have hlt := xad.loc.length_lt
  rw [length]
  omega

@[simp] theorem length_setLength (xad : Xad) (n : ℕ) : (xad.setLength n).length = n % 2 ^ 24 := by
  rw [length, setLength, Pxd.length_setLength]

@[simp] theorem address_setLength (xad : Xad) (n : ℕ) : (xad.setLength n).address = xad.address := by
  rw [address, setLength, Pxd.address_setLength, address]

@[simp] theorem offset_setLength (xad : Xad) (n : ℕ) : (xad.setLength n).offset = xad.offset := by
  unfold setLength offset
  rfl

@[simp] theorem length_setAddress (xad : Xad) (n : ℕ) : (xad.setAddress n).length = xad.length := by
  rw [length, setAddress, Pxd.length_setAddress, length]

@[simp] theorem address_setAddress (xad : Xad) (n : ℕ) : (xad.setAddress n).address = n % 2 ^ 40 := by
  rw [address, setAddress, Pxd.address_setAddress]

@[simp] theorem offset_setAddress (xad : Xad) (n : ℕ) : (xad.setAddress n).offset = xad.offset := by
  unfold setAddress offset
  rfl

@[simp] theorem length_setOffset (xad : Xad) (n : ℤ) : (xad.setOffset n).length = xad.length := rfl

@[simp] theorem address_setOffset (xad : Xad) (n : ℤ) : (xad.setOffset n).address = xad.address := rfl

/-- An offset is cut off to 40 bits. -/
theorem offset_setOffset_eq (xad : Xad) (n : ℤ) : (xad.setOffset n).offset = (n % 2 ^ 40).toNat := by
  unfold setOffset offset
  simp only [UInt8.toNat_ofNat', UInt32.toNat_ofNat']
  omega

theorem offset_setOffset (xad : Xad) {n : ℤ} (hlow : 0 ≤ n) (hhigh : n < 2 ^ 40) :
    (xad.setOffset n).offset = n.toNat := by
  rw [offset_setOffset_eq, Int.emod_eq_of_lt hlow hhigh]

/-- A descriptor that is written with an offset, a length and an address. -/
theorem run_written (xad : Xad) (offset : ℤ) (length address : ℕ) :
    (((xad.setOffset offset).setLength length).setAddress address).run =
      { offset := (offset % 2 ^ 40).toNat, length := length % 2 ^ 24, address := address % 2 ^ 40 } := by
  unfold run
  rw [offset_setAddress, offset_setLength, offset_setOffset_eq, length_setAddress, length_setLength,
    address_setAddress]

/-- The part of the extent from `start` on, `length` blocks, at another address. -/
theorem run_moved (xad : Xad) {start : ℤ} {length address : ℕ} (hlow : 0 ≤ start)
    (hhigh : start < 2 ^ 40) (hlength : length < 2 ^ 24) (haddress : address < 2 ^ 40) :
    (((xad.setOffset start).setLength length).setAddress address).run =
      { offset := start.toNat, length, address } := by
  rw [run_written, Int.emod_eq_of_lt hlow hhigh, Nat.mod_eq_of_lt hlength, Nat.mod_eq_of_lt haddress]

theorem run_setLength (xad : Xad) {k : ℕ} (hk : k < 2 ^ 24) : (xad.setLength k).run = xad.run.first k := by
  unfold run Run.first
  rw [length_setLength, Nat.mod_eq_of_lt hk, address_setLength, offset_setLength]

end Xad

namespace Xtree

/-! ## The map of a root -/

/-- The extents in use, as runs. -/
def runs (xt : Xtree) : List Run :=
  xt.slots.map Xad.run

/-- The physical block of a block of the file. -/
def physical (xt : Xtree) (block : ℕ) : Option ℕ :=
  (xt.lookup block).map fun xad => xad.address + (block - xad.offset)

/-- The physical blocks of all extents. -/
def blocks (xt : Xtree) : Multiset ℕ :=
  Runs.spans xt.runs

theorem physical_eq_locate (xt : Xtree) (block : ℕ) : xt.physical block = Runs.locate xt.runs block := by
  unfold physical lookup runs
  induction xt.slots with
  | nil => rfl
  | cons xad rest ih =>
      rw [List.map_cons, Runs.locate_cons, ← ih]
      by_cases h : xad.offset ≤ block ∧ block < xad.stop
      · have hholds : xad.run.Holds block := h
        rw [List.find?_cons_of_pos (by simpa using h), Run.locate_of_holds hholds]
        rfl
      · have hnot : ¬ xad.run.Holds block := h
        rw [List.find?_cons_of_neg (by simpa using h), Run.locate_of_not_holds hnot]
        rfl

theorem getElem?_slots (xt : Xtree) (i : ℕ) :
    xt.slots[i]? = if xtEntryStart + i < xt.nextIndex then xt.xad.toList[xtEntryStart + i]? else none := by
  unfold slots
  rw [List.getElem?_drop, List.getElem?_take]

theorem length_slots (xt : Xtree) : xt.slots.length = min xt.nextIndex xtRootMaxSlot - xtEntryStart := by
  unfold slots
  rw [List.length_drop, List.length_take, Vector.length_toList]

theorem nextIndex_setNextindex (xt : Xtree) {n : ℕ} (h : n < 2 ^ 16) : (xt.setNextindex n).nextIndex = n := by
  unfold setNextindex nextIndex
  rw [UInt16.toNat_ofNat', Nat.mod_eq_of_lt h]

/-! ## Writing extents back -/

/-- At most two parts are kept of each extent. -/
theorem nextIndex_storeKept (xt : Xtree) {kept : List Xad} (h : kept.length ≤ 32) :
    (xt.storeKept kept).nextIndex = xtEntryStart + kept.length := by
  unfold storeKept
  refine nextIndex_setNextindex _ ?_
  unfold xtEntryStart
  omega

/-- **The extents kept are the extents in use afterwards**, as far as there are slots for them. -/
theorem slots_storeKept (xt : Xtree) {kept : List Xad} (h : kept.length ≤ 32) :
    (xt.storeKept kept).slots = kept.take (xtRootMaxSlot - xtEntryStart) := by
  refine List.ext_getElem? fun i => ?_
  rw [getElem?_slots, nextIndex_storeKept xt h, List.getElem?_take]
  by_cases hslot : i < xtRootMaxSlot - xtEntryStart
  · rw [if_pos hslot]
    have hbound : xtEntryStart + i < xtRootMaxSlot := by
      unfold xtRootMaxSlot xtEntryStart at *
      omega
    by_cases hkept : i < kept.length
    · have hin : xtEntryStart + i < xtEntryStart + kept.length := by omega
      have hlow : ¬ xtEntryStart + i < xtEntryStart := by omega
      rw [if_pos hin]
      unfold storeKept setNextindex
      rw [Vector.getElem?_toList, Vector.getElem?_eq_getElem hbound, Vector.getElem_ofFn,
        if_neg hlow, if_pos hin, Nat.add_sub_cancel_left, List.getElem?_eq_getElem hkept,
        List.getD_eq_getElem?_getD, List.getElem?_eq_getElem hkept]
      rfl
    · rw [if_neg (by omega), List.getElem?_eq_none (by omega)]
  · rw [if_neg hslot]
    split
    · refine List.getElem?_eq_none ?_
      rw [Vector.length_toList]
      unfold xtRootMaxSlot xtEntryStart at *
      omega
    · rfl

theorem runs_storeKept (xt : Xtree) {kept : List Xad} (h : kept.length ≤ xtRootMaxSlot - xtEntryStart) :
    (xt.storeKept kept).runs = kept.map Xad.run := by
  unfold runs
  rw [slots_storeKept xt (h.trans (by decide)), List.take_of_length_le h]

/-! ## A pass over the extents -/

/-- The physical blocks of extents freed. -/
def freedBlocks (freed : List (ℕ × ℕ)) : Multiset ℕ :=
  (freed.map fun part => addressSpan part.1 part.2).sum

@[simp] theorem freedBlocks_nil : freedBlocks [] = 0 := rfl

@[simp] theorem freedBlocks_singleton (address length : ℕ) :
    freedBlocks [(address, length)] = addressSpan address length := by
  simp [freedBlocks]

theorem mem_freedBlocks {freed : List (ℕ × ℕ)} {address : ℕ} :
    address ∈ freedBlocks freed ↔ ∃ part ∈ freed, address ∈ addressSpan part.1 part.2 := by
  unfold freedBlocks
  induction freed with
  | nil => simp
  | cons part rest ih =>
      rw [List.map_cons, List.sum_cons, Multiset.mem_add, ih]
      simp

theorem mem_freedBlocks_flatMap {l : List Xad} {free : Xad → List (ℕ × ℕ)} {address : ℕ} :
    address ∈ freedBlocks (l.flatMap free) ↔ ∃ xad ∈ l, address ∈ freedBlocks (free xad) := by
  simp only [mem_freedBlocks, List.mem_flatMap]
  constructor
  · rintro ⟨part, ⟨xad, hxad, hpart⟩, haddress⟩
    exact ⟨xad, hxad, part, hpart, haddress⟩
  · rintro ⟨xad, hxad, part, hpart, haddress⟩
    exact ⟨part, ⟨xad, hxad, hpart⟩, haddress⟩

/-- A pass that keeps some of the blocks of every extent and frees the others. -/
theorem freedBlocks_flatMap_of {l : List Xad} {keep : Xad → List Run} {free : Xad → List (ℕ × ℕ)}
    (h : ∀ xad ∈ l, Runs.spans (keep xad) + freedBlocks (free xad) = xad.run.span) :
    Runs.spans (l.flatMap keep) + freedBlocks (l.flatMap free) = Runs.spans (l.map Xad.run) := by
  have hfreed : ∀ freed : List (ℕ × ℕ), freedBlocks freed =
      Runs.spans (freed.map fun part => { offset := 0, length := part.2, address := part.1 }) := by
    intro freed
    unfold freedBlocks Runs.spans
    rw [List.map_map]
    rfl
  rw [hfreed, List.map_flatMap]
  refine Runs.spans_flatMap_of fun xad hxad => ?_
  rw [← hfreed]
  exact h xad hxad

/-- A pass that keeps at most one part of each extent. -/
theorem length_flatMap_le {l : List Xad} {keep : Xad → List Xad} (h : ∀ xad ∈ l, (keep xad).length ≤ 1) :
    (l.flatMap keep).length ≤ l.length := by
  induction l with
  | nil => simp
  | cons x rest ih =>
      have hfirst := h x (List.mem_cons_self ..)
      have hrest := ih fun y hy => h y (List.mem_cons_of_mem _ hy)
      rw [List.flatMap_cons, List.length_append, List.length_cons]
      omega

/-- A pass that keeps two parts of one extent at most. -/
theorem length_flatMap_le_succ {l : List Xad} {keep : Xad → List Xad} {cut : Xad → Prop}
    (hcut : l.Pairwise fun xad other => cut xad → ¬ cut other) (htwo : ∀ xad ∈ l, (keep xad).length ≤ 2)
    (hone : ∀ xad ∈ l, ¬ cut xad → (keep xad).length ≤ 1) :
    (l.flatMap keep).length ≤ l.length + 1 := by
  induction l with
  | nil => simp
  | cons xad rest ih =>
      obtain ⟨hfirst, hrest⟩ := List.pairwise_cons.mp hcut
      have htail := ih hrest (fun y hy => htwo y (List.mem_cons_of_mem _ hy))
        fun y hy => hone y (List.mem_cons_of_mem _ hy)
      rw [List.flatMap_cons, List.length_append, List.length_cons]
      by_cases h : cut xad
      · have hothers : (rest.flatMap keep).length ≤ rest.length :=
          length_flatMap_le fun y hy => hone y (List.mem_cons_of_mem _ hy) (hfirst y hy h)
        have := htwo xad (List.mem_cons_self ..)
        omega
      · have := hone xad (List.mem_cons_self ..) h
        omega

end Xtree

end JfsFuse
