import JfsFuse.Btree.XtreeCuts

/-!
# The capacity of a root

Sixteen extents fit into a root.  A call that splits extents can need more: the extents that
find no slot are dropped, although `nextindex` counts them.  This file settles which calls lose
no block.

There are three ways to lose one.  A root overflows; a length or an address outgrows its field
and is cut off; and `punch_extents` gives the right part of a split extent the address of
the hole.
-/

namespace JfsFuse

namespace Xad

theorem span_setLength (xad : Xad) (n : ℕ) :
    (xad.setLength n).run.span = addressSpan xad.address (n % 2 ^ 24) := by
  unfold run Run.span
  rw [address_setLength, length_setLength]

theorem span_moved (xad : Xad) (offset : ℤ) (length address : ℕ) :
    (((xad.setOffset offset).setLength length).setAddress address).run.span =
      addressSpan (address % 2 ^ 40) (length % 2 ^ 24) := by
  unfold run Run.span
  rw [address_setAddress, length_setAddress, length_setLength]

theorem run_flag (xad : Xad) (flag : UInt8) : { xad with flag }.run = xad.run := rfl

end Xad

/-- A call that changes a root. -/
inductive RootCall
  | insertExtent (logicalOffset : ℤ) (length physicalAddr : ℕ)
  | insertTakenExtent (logicalOffset : ℤ) (length physicalAddr : ℕ)
  | truncateExtents (newEof : ℤ)
  | punchExtents (start stop : ℤ)
  | takeExtents (start stop : ℤ)
  | splitExtent (splitAt : ℤ)
  deriving DecidableEq, Repr

namespace Xtree

/-- The extents a call returns, as address and length, and the root after it. -/
def after (xt : Xtree) : RootCall → List (ℕ × ℕ) × Xtree
  | .insertExtent logicalOffset length physicalAddr =>
      ([], (xt.insertExtent logicalOffset length physicalAddr).getD xt)
  | .insertTakenExtent logicalOffset length physicalAddr =>
      ([], (xt.insertTakenExtent logicalOffset length physicalAddr).getD xt)
  | .truncateExtents newEof => xt.truncateExtents newEof
  | .punchExtents start stop => xt.punchExtents start stop
  | .takeExtents start stop =>
      ((xt.takeExtents start stop).1.map fun taken => (taken.2.2, taken.2.1),
        (xt.takeExtents start stop).2)
  | .splitExtent splitAt => ([], (xt.splitExtent splitAt).2)

/-- The root does not overflow, and every block that was mapped is still mapped or returned. -/
def Keeps (xt : Xtree) (call : RootCall) : Prop :=
  (xt.after call).2.nextIndex ≤ xtRootMaxSlot ∧
    ∀ address ∈ xt.blocks, address ∈ (xt.after call).2.blocks ∨ address ∈ freedBlocks (xt.after call).1

/-! ## The condition -/

/-- The extent lies in the range. -/
def within (start stop : ℤ) (xad : Xad) : Bool :=
  start ≤ xad.offset && xad.stop ≤ stop

/-- Both ends of the range lie inside the extent. -/
def splits (start stop : ℤ) (xad : Xad) : Bool :=
  xad.offset < start && start < xad.stop && xad.offset < stop && stop < xad.stop

/-- The number of extents once the range is cut out: those that do not lie in it, and one more
for each that is split. -/
def pieces (xt : Xtree) (start stop : ℤ) : ℕ :=
  xt.slots.countP (fun xad => xad.length ≠ 0 && !within start stop xad) +
    xt.slots.countP (splits start stop)

/-- The part of an extent above the range starts at an address of 40 bits. -/
def NoWrap (xt : Xtree) (start stop : ℤ) : Prop :=
  ∀ xad ∈ xt.slots, start ≤ stop → xad.offset < stop → stop < xad.stop →
    xad.address + (stop - xad.offset) < 2 ^ 40

/-- The call loses nothing. -/
def Fits (xt : Xtree) : RootCall → Prop
  | .insertExtent logicalOffset length physicalAddr =>
      ∀ last ∈ xt.slots.getLast?, continues last logicalOffset physicalAddr →
        last.length ≤ (last.length + length) % 2 ^ 24
  | .insertTakenExtent _ _ _ => True
  | .truncateExtents _ => True
  | .punchExtents start stop =>
      xt.pieces start stop ≤ xtRootMaxSlot - xtEntryStart ∧ xt.NoWrap start stop ∧
        ∀ xad ∈ xt.slots, splits start stop xad → stop ≤ start
  | .takeExtents start stop =>
      xt.pieces start stop ≤ xtRootMaxSlot - xtEntryStart ∧ xt.NoWrap start stop
  | .splitExtent splitAt =>
      xt.nextIndex < xtRootMaxSlot → ∀ xad ∈ xt.slots.find? (straddles splitAt),
        xad.address + (splitAt - xad.offset) < 2 ^ 40

/-! ## Passes -/

/-- The number of parts kept. -/
theorem length_takeXad_eq {start stop : ℤ} {xad : Xad} :
    (takeXad start stop xad).1.length =
      (if (xad.length ≠ 0 && !within start stop xad) = true then 1 else 0) +
        if splits start stop xad = true then 1 else 0 := by
  have hstop : xad.stop = xad.offset + xad.length := rfl
  have hwithin : within start stop xad = true ↔ start ≤ xad.offset ∧ xad.stop ≤ stop := by
    unfold within
    simp
  have hsplits : splits start stop xad = true ↔
      ((xad.offset < start ∧ start < xad.stop) ∧ xad.offset < stop) ∧ stop < xad.stop := by
    unfold splits
    simp
  simp only [Bool.and_eq_true, decide_eq_true_eq, Bool.not_eq_true', ← Bool.not_eq_true, hwithin, hsplits]
  unfold takeXad
  split_ifs <;> first | rfl | omega

theorem length_keep_eq_pieces (xt : Xtree) {start stop : ℤ} {keep : Xad → List Xad}
    (hkeep : ∀ xad, (keep xad).length = (takeXad start stop xad).1.length) :
    (xt.slots.flatMap keep).length = xt.pieces start stop := by
  unfold pieces
  induction xt.slots with
  | nil => rfl
  | cons xad rest ih =>
      rw [List.flatMap_cons, List.length_append, ih, hkeep, length_takeXad_eq, List.countP_cons,
        List.countP_cons]
      omega

theorem pieces_le (xt : Xtree) (start stop : ℤ) : xt.pieces start stop ≤ 32 := by
  have hwhole := xt.slots.countP_le_length (p := fun xad => xad.length ≠ 0 && !within start stop xad)
  have hsplit := xt.slots.countP_le_length (p := splits start stop)
  have hslots := xt.length_slots
  unfold pieces
  unfold xtRootMaxSlot xtEntryStart at hslots
  omega

section Pass

variable {xt : Xtree} {keep : Xad → List Xad} {free : Xad → List (ℕ × ℕ)}

/-- A pass whose parts all find a slot and that drops no block of an extent. -/
theorem keeps_of_pass (hroom : (xt.slots.flatMap keep).length ≤ xtRootMaxSlot - xtEntryStart)
    (hcover : ∀ xad ∈ xt.slots, ∀ address ∈ xad.run.span,
      (∃ part ∈ keep xad, address ∈ part.run.span) ∨ address ∈ freedBlocks (free xad)) :
    (xt.storeKept (xt.slots.flatMap keep)).nextIndex ≤ xtRootMaxSlot ∧
      ∀ address ∈ xt.blocks, address ∈ (xt.storeKept (xt.slots.flatMap keep)).blocks ∨
        address ∈ freedBlocks (xt.slots.flatMap free) := by
  constructor
  · rw [nextIndex_storeKept xt (hroom.trans (by decide))]
    unfold xtRootMaxSlot xtEntryStart at *
    omega
  · intro address haddress
    obtain ⟨run, hrun, hmem⟩ := Runs.mem_spans.mp haddress
    obtain ⟨xad, hxad, rfl⟩ := List.mem_map.mp hrun
    rcases hcover xad hxad address hmem with ⟨part, hpart, hkept⟩ | hfreed
    · left
      unfold blocks
      rw [runs_storeKept xt hroom, Runs.mem_spans]
      exact ⟨part.run, List.mem_map_of_mem (List.mem_flatMap.mpr ⟨xad, hxad, hpart⟩), hkept⟩
    · right
      exact mem_freedBlocks_flatMap.mpr ⟨xad, hxad, hfreed⟩

end Pass

section Cover

variable {start stop : ℤ} {xad : Xad} {address : ℕ}

theorem mem_span_run : address ∈ xad.run.span ↔ xad.address ≤ address ∧ address < xad.address + xad.length :=
  mem_addressSpan

theorem mem_span_setLength {n : ℕ} (hn : n < 2 ^ 24) :
    address ∈ (xad.setLength n).run.span ↔ xad.address ≤ address ∧ address < xad.address + n := by
  rw [xad.span_setLength, Nat.mod_eq_of_lt hn, mem_addressSpan]

theorem mem_span_moved {offset : ℤ} {length start : ℕ} (hlength : length < 2 ^ 24) (hstart : start < 2 ^ 40) :
    address ∈ (((xad.setOffset offset).setLength length).setAddress start).run.span ↔
      start ≤ address ∧ address < start + length := by
  rw [xad.span_moved, Nat.mod_eq_of_lt hlength, Nat.mod_eq_of_lt hstart, mem_addressSpan]

/-- `truncate_extents` drops no block of an extent. -/
theorem covers_truncateXad {newEof : ℤ} (h : address ∈ xad.run.span) :
    (∃ part ∈ (truncateXad newEof xad).1, address ∈ part.run.span) ∨
      address ∈ freedBlocks (truncateXad newEof xad).2 := by
  have hmem : address ∈ (xad.run.below newEof.toNat).span + (xad.run.above newEof.toNat).span := by
    rwa [Run.span_below_above]
  rcases Multiset.mem_add.mp hmem with hbelow | habove
  · left
    have hspans : address ∈ Runs.spans ((truncateXad newEof xad).1.map Xad.run) := by
      rw [map_run_truncateXad, Runs.spans_nonempty, Runs.spans_cons, Runs.spans_nil, add_zero]
      exact hbelow
    obtain ⟨run, hrun, hpart⟩ := Runs.mem_spans.mp hspans
    obtain ⟨part, hmem, rfl⟩ := List.mem_map.mp hrun
    exact ⟨part, hmem, hpart⟩
  · right
    rwa [freedBlocks_truncateXad]

/-- The length of a range that ends before it starts is read as a number of 32 bits. -/
theorem toNat_emod_of_neg {n : ℤ} (hneg : n < 0) (hlow : -2 ^ 24 < n) : 2 ^ 24 ≤ (n % 2 ^ 32).toNat := by
  omega

/-- `take_extents` drops no block of an extent. -/
theorem covers_parts_takeXad (h : address ∈ xad.run.span)
    (hwrap : start ≤ stop → xad.offset < stop → stop < xad.stop →
      xad.address + (stop - xad.offset) < 2 ^ 40) :
    (∃ part ∈ (takeXad start stop xad).1, address ∈ part.run.span) ∨
      address ∈ freedBlocks ((takeXad start stop xad).2.map fun taken => (taken.2.2, taken.2.1)) := by
  have hstop : xad.stop = xad.offset + xad.length := rfl
  have hlt := xad.length_lt
  have hspan := mem_span_run.mp h
  unfold takeXad
  split_ifs with hempty hbefore hafter hinside hspans hleft
  · omega
  · exact .inl ⟨xad, List.mem_singleton_self _, h⟩
  · exact .inl ⟨xad, List.mem_singleton_self _, h⟩
  · right
    rw [List.map_singleton, freedBlocks_singleton, mem_addressSpan]
    exact hspan
  · by_cases hlower : address < xad.address + (start - xad.offset).toNat
    · refine .inl ⟨_, List.mem_cons_self .., ?_⟩
      rw [mem_span_setLength (by omega)]
      exact ⟨hspan.1, hlower⟩
    · by_cases hmiddle : address < xad.address + (start - xad.offset).toNat + ((stop - start) % 2 ^ 32).toNat
      · right
        rw [List.map_singleton, freedBlocks_singleton, mem_addressSpan]
        exact ⟨Nat.le_of_not_lt hlower, hmiddle⟩
      · have hle : start ≤ stop := by
          by_contra hgt
          have := toNat_emod_of_neg (n := stop - start) (by omega) (by omega)
          omega
        have hbound := hwrap hle (by omega) (by omega)
        have hhole : ((stop - start) % 2 ^ 64).toNat = (stop - start).toNat := by
          rw [Int.emod_eq_of_lt (by omega) (by omega)]
        have htaken : ((stop - start) % 2 ^ 32).toNat = (stop - start).toNat := by
          rw [Int.emod_eq_of_lt (by omega) (by omega)]
        refine .inl ⟨_, List.mem_cons_of_mem _ (List.mem_singleton_self _), ?_⟩
        rw [hhole, mem_span_moved (by omega) (by omega)]
        omega
  · by_cases hlower : address < xad.address + (start - xad.offset).toNat
    · refine .inl ⟨_, List.mem_singleton_self _, ?_⟩
      rw [mem_span_setLength (by omega)]
      exact ⟨hspan.1, hlower⟩
    · right
      rw [List.map_singleton, freedBlocks_singleton, mem_addressSpan]
      simp only
      omega
  · by_cases hlower : address < xad.address + (stop - xad.offset).toNat
    · right
      rw [List.map_singleton, freedBlocks_singleton, mem_addressSpan]
      exact ⟨hspan.1, hlower⟩
    · have hbound := hwrap (by omega) (by omega) (by omega)
      refine .inl ⟨_, List.mem_singleton_self _, ?_⟩
      rw [mem_span_moved (by omega) (by omega)]
      omega

/-- `punch_extents` drops no block of an extent that it does not split. -/
theorem covers_parts_punchXad (h : address ∈ xad.run.span)
    (hwrap : start ≤ stop → xad.offset < stop → stop < xad.stop →
      xad.address + (stop - xad.offset) < 2 ^ 40)
    (hsplit : splits start stop xad → stop ≤ start) :
    (∃ part ∈ (punchXad start stop xad).1, address ∈ part.run.span) ∨
      address ∈ freedBlocks (punchXad start stop xad).2 := by
  have hstop : xad.stop = xad.offset + xad.length := rfl
  have hlt := xad.length_lt
  have hspan := mem_span_run.mp h
  unfold punchXad
  split_ifs with hempty hbefore hafter hinside hspans hleft
  · omega
  · exact .inl ⟨xad, List.mem_singleton_self _, h⟩
  · exact .inl ⟨xad, List.mem_singleton_self _, h⟩
  · right
    rw [freedBlocks_singleton, mem_addressSpan]
    exact hspan
  · have hle : stop ≤ start := by
      refine hsplit ?_
      unfold splits
      simp only [Bool.and_eq_true, decide_eq_true_eq]
      omega
    by_cases hlower : address < xad.address + (start - xad.offset).toNat
    · refine .inl ⟨_, List.mem_cons_self .., ?_⟩
      rw [mem_span_setLength (by omega)]
      exact ⟨hspan.1, hlower⟩
    · by_cases hempty : start = stop
      · have hbound := hwrap (by omega) (by omega) (by omega)
        refine .inl ⟨_, List.mem_cons_of_mem _ (List.mem_singleton_self _), ?_⟩
        rw [mem_span_moved (by omega) (by omega)]
        omega
      · have hlong := toNat_emod_of_neg (n := stop - start) (by omega) (by omega)
        right
        rw [freedBlocks_singleton, mem_addressSpan]
        omega
  · by_cases hlower : address < xad.address + (start - xad.offset).toNat
    · refine .inl ⟨_, List.mem_singleton_self _, ?_⟩
      rw [mem_span_setLength (by omega)]
      exact ⟨hspan.1, hlower⟩
    · right
      rw [freedBlocks_singleton, mem_addressSpan]
      omega
  · by_cases hlower : address < xad.address + (stop - xad.offset).toNat
    · right
      rw [freedBlocks_singleton, mem_addressSpan]
      exact ⟨hspan.1, hlower⟩
    · have hbound := hwrap (by omega) (by omega) (by omega)
      refine .inl ⟨_, List.mem_singleton_self _, ?_⟩
      rw [mem_span_moved (by omega) (by omega)]
      omega

end Cover

/-! ## Slots of a changed root -/

theorem slots_setIfInBounds (xt : Xtree) (i : ℕ) (xad : Xad) :
    { xt with xad := xt.xad.setIfInBounds (xtEntryStart + i) xad }.slots = xt.slots.set i xad := by
  unfold slots nextIndex
  rw [Vector.toList_setIfInBounds, List.take_set, List.drop_set, if_neg (by omega), Nat.add_sub_cancel_left]

/-- A new slot behind the others. -/
theorem slots_extended (xt : Xtree) (xad : Xad) (hlow : xtEntryStart ≤ xt.nextIndex)
    (hhigh : xt.nextIndex < xtRootMaxSlot) :
    ({ xt with xad := xt.xad.setIfInBounds xt.nextIndex xad }.setNextindex (xt.nextIndex + 1)).slots =
      xt.slots ++ [xad] := by
  have hnext : ({ xt with xad := xt.xad.setIfInBounds xt.nextIndex xad }.setNextindex
      (xt.nextIndex + 1)).nextIndex = xt.nextIndex + 1 := by
    refine nextIndex_setNextindex _ ?_
    unfold xtRootMaxSlot at hhigh
    omega
  unfold slots
  rw [hnext]
  unfold setNextindex
  rw [Vector.toList_setIfInBounds, List.take_add_one, List.take_set_of_le le_rfl, List.getElem?_set_self,
    Option.toList_some, List.drop_append_of_le_length]
  · rw [List.length_take, Vector.length_toList]
    unfold xtRootMaxSlot xtEntryStart at *
    omega
  · rw [Vector.length_toList]
    exact hhigh

/-- A slot replaced and a new one behind the others. -/
theorem slots_set_extended (xt : Xtree) (i : ℕ) (left right : Xad) (hlow : xtEntryStart ≤ xt.nextIndex)
    (hhigh : xt.nextIndex < xtRootMaxSlot) :
    ({ xt with
        xad := (xt.xad.setIfInBounds (xtEntryStart + i) left).setIfInBounds xt.nextIndex right }.setNextindex
      (xt.nextIndex + 1)).slots = xt.slots.set i left ++ [right] := by
  have hslots := slots_extended { xt with xad := xt.xad.setIfInBounds (xtEntryStart + i) left } right
    hlow hhigh
  rw [slots_setIfInBounds] at hslots
  exact hslots

theorem mem_blocks {xt : Xtree} {address : ℕ} :
    address ∈ xt.blocks ↔ ∃ xad ∈ xt.slots, address ∈ xad.run.span := by
  unfold blocks runs
  rw [Runs.mem_spans]
  simp

theorem slots_eq_nil {xt : Xtree} (h : xt.nextIndex ≤ xtEntryStart) : xt.slots = [] := by
  have hslots := xt.length_slots
  exact List.length_eq_zero_iff.mp (by omega)

/-- The last slot in use. -/
theorem slots_eq_append {xt : Xtree} (hlow : xtEntryStart < xt.nextIndex) (hhigh : xt.nextIndex ≤ xtRootMaxSlot) :
    ∃ init : List Xad, xt.slots = init ++ [xt.xad.toList.getD (xt.nextIndex - 1) {}] ∧
      xtEntryStart + init.length = xt.nextIndex - 1 := by
  obtain ⟨m, hm⟩ : ∃ m, xt.nextIndex = m + 1 := ⟨xt.nextIndex - 1, by omega⟩
  have hlast : m < xt.xad.toList.length := by
    rw [Vector.length_toList]
    omega
  refine ⟨(xt.xad.toList.take m).drop xtEntryStart, ?_, ?_⟩
  · unfold slots
    rw [hm, List.take_add_one, List.drop_append_of_le_length, Nat.add_sub_cancel,
      List.getD_eq_getElem?_getD, List.getElem?_eq_getElem hlast]
    · rfl
    · rw [List.length_take]
      omega
  · rw [List.length_drop, List.length_take]
    omega

theorem nextIndex_append (xt : Xtree) {logicalOffset : ℤ} {length physicalAddr : ℕ} {flag : UInt8}
    (hnext : xt.nextIndex < xtRootMaxSlot) :
    (xt.append logicalOffset length physicalAddr flag).nextIndex = xt.newSlot + 1 := by
  unfold append
  refine nextIndex_setNextindex _ ?_
  unfold newSlot
  unfold xtRootMaxSlot xtEntryStart at *
  omega

/-- A new extent leaves the others in place. -/
theorem keeps_append {xt : Xtree} {logicalOffset : ℤ} {length physicalAddr : ℕ} {flag : UInt8}
    (hnext : xt.nextIndex < xtRootMaxSlot) :
    (xt.append logicalOffset length physicalAddr flag).nextIndex ≤ xtRootMaxSlot ∧
      ∀ address ∈ xt.blocks, address ∈ (xt.append logicalOffset length physicalAddr flag).blocks := by
  constructor
  · rw [nextIndex_append xt hnext]
    unfold newSlot
    unfold xtRootMaxSlot xtEntryStart at *
    omega
  · intro address haddress
    obtain ⟨xad, hxad, hspan⟩ := mem_blocks.mp haddress
    rcases Nat.lt_or_ge xtEntryStart xt.nextIndex with hlow | hlow
    · have hslot : xt.newSlot = xt.nextIndex := Nat.max_eq_left hlow.le
      refine mem_blocks.mpr ⟨xad, ?_, hspan⟩
      unfold append
      rw [hslot, slots_extended xt _ hlow.le hnext]
      exact List.mem_append_left _ hxad
    · rw [slots_eq_nil hlow] at hxad
      cases hxad

/-- What `insert_extent` does to a root that is not overfull. -/
theorem insertExtent_cases (xt : Xtree) (logicalOffset : ℤ) (length physicalAddr : ℕ)
    (hnext : xt.nextIndex ≤ xtRootMaxSlot) :
    (∃ init last merged, xt.slots = init ++ [last] ∧ continues last logicalOffset physicalAddr ∧
        xt.insertExtent logicalOffset length physicalAddr = some merged ∧
        merged.nextIndex = xt.nextIndex ∧
        merged.slots = init ++ [last.setLength (last.length + length)]) ∨
      ((∀ last ∈ xt.slots.getLast?, ¬ continues last logicalOffset physicalAddr) ∧
        (xt.insertExtent logicalOffset length physicalAddr = none ∨
          xt.nextIndex < xtRootMaxSlot ∧ xt.insertExtent logicalOffset length physicalAddr =
            some (xt.append logicalOffset length physicalAddr Xad.xadNew))) := by
  have hrest : xt.nextIndex < xtRootMaxSlot ∨ ¬ xt.nextIndex < xtRootMaxSlot := by omega
  unfold insertExtent
  rw [if_neg (by omega)]
  rcases Nat.lt_or_ge xtEntryStart xt.nextIndex with hlow | hlow
  · obtain ⟨init, hinit, hlength⟩ := slots_eq_append hlow hnext
    by_cases hcont : continues (xt.xad.toList.getD (xt.nextIndex - 1) {}) logicalOffset physicalAddr = true
    · left
      refine ⟨init, _, _, hinit, hcont, if_pos ⟨hlow, hcont⟩, rfl, ?_⟩
      rw [← hlength, slots_setIfInBounds, hlength, hinit, List.set_append_right _ _ le_rfl, Nat.sub_self]
      rfl
    · right
      refine ⟨fun last hlast => ?_, ?_⟩
      · rw [hinit, List.getLast?_append] at hlast
        obtain rfl : _ = last := Option.some.inj hlast
        exact hcont
      · rw [if_neg fun h => hcont h.2]
        rcases hrest with hroom | hfull
        · exact .inr ⟨hroom, if_neg (by omega)⟩
        · exact .inl (if_pos (by omega))
  · right
    refine ⟨fun last hlast => ?_, ?_⟩
    · rw [slots_eq_nil hlow] at hlast
      cases hlast
    · rw [if_neg fun h => by omega]
      rcases hrest with hroom | hfull
      · exact .inr ⟨hroom, if_neg (by omega)⟩
      · exact .inl (if_pos (by omega))

/-- What `split_extent` does. -/
theorem splitExtent_cases (xt : Xtree) (splitAt : ℤ) :
    ((xt.splitExtent splitAt).2 = xt ∧
        (xt.nextIndex < xtRootMaxSlot → ∀ xad ∈ xt.slots, ¬ straddles splitAt xad)) ∨
      ∃ i xad right, xt.nextIndex < xtRootMaxSlot ∧ xt.slots.find? (straddles splitAt) = some xad ∧
        xt.slots[i]? = some xad ∧ straddles splitAt xad ∧
        (xt.splitExtent splitAt).2.nextIndex = xt.nextIndex + 1 ∧
        (xt.splitExtent splitAt).2.slots =
          xt.slots.set i (xad.setLength (splitAt - xad.offset).toNat) ++ [right] ∧
        right.run =
          { offset := (splitAt % 2 ^ 40).toNat
            length := (xad.length - (splitAt - xad.offset).toNat) % 2 ^ 24
            address := (xad.address + (splitAt - xad.offset).toNat) % 2 ^ 40 } := by
  unfold splitExtent
  by_cases hneg : splitAt ≤ 0
  · rw [if_pos hneg]
    refine .inl ⟨rfl, fun _ xad _ hstraddles => ?_⟩
    unfold straddles at hstraddles
    simp only [Bool.and_eq_true, decide_eq_true_eq] at hstraddles
    omega
  rw [if_neg hneg]
  cases hfound : xt.slots.findIdx? (straddles splitAt) with
  | none => exact .inl ⟨rfl, fun _ xad hxad => by simp [List.findIdx?_eq_none_iff.mp hfound xad hxad]⟩
  | some i =>
      simp only
      by_cases hfull : xtRootMaxSlot < xt.nextIndex + 1
      · rw [if_pos hfull]
        exact .inl ⟨rfl, fun hroom => by omega⟩
      rw [if_neg hfull]
      obtain ⟨hi, hstraddles, hearlier⟩ := List.findIdx?_eq_some_iff_getElem.mp hfound
      have hslots := xt.length_slots
      have hget : xt.slots[i]? = some xt.slots[i] := List.getElem?_eq_getElem hi
      have hxad : xt.xad.toList.getD (xtEntryStart + i) {} = xt.slots[i] := by
        have hslot := getElem?_slots xt i
        rw [if_pos (by omega), hget] at hslot
        rw [List.getD_eq_getElem?_getD, ← hslot]
        rfl
      have hfirst : xt.slots.find? (straddles splitAt) = some xt.slots[i] := by
        rw [List.find?_eq_some_iff_getElem]
        exact ⟨hstraddles, i, hi, rfl, fun j hj => by simpa using hearlier j hj⟩
      simp only [hxad]
      set keepLen := (splitAt - xt.slots[i].offset).toNat
      right
      refine ⟨i, xt.slots[i], { ((((xt.xad.setIfInBounds (xtEntryStart + i)
        (xt.slots[i].setLength keepLen)).toList.getD xt.nextIndex {}).setOffset splitAt).setLength
          (xt.slots[i].length - keepLen)).setAddress (xt.slots[i].address + keepLen) with flag := 0 },
        by omega, hfirst, hget, hstraddles, ?_, ?_, ?_⟩
      · refine nextIndex_setNextindex _ ?_
        unfold xtRootMaxSlot at hfull
        omega
      · exact slots_set_extended xt i _ _ (by omega) (by omega)
      · rw [Xad.run_flag, Xad.run_written]

/-! ## Calls that fit -/

section Fits

variable {xt : Xtree}

theorem keeps_self (hnext : xt.nextIndex ≤ xtRootMaxSlot) (freed : List (ℕ × ℕ)) :
    xt.nextIndex ≤ xtRootMaxSlot ∧ ∀ address ∈ xt.blocks, address ∈ xt.blocks ∨ address ∈ freedBlocks freed :=
  ⟨hnext, fun _ haddress => .inl haddress⟩

theorem keeps_insertExtent (hnext : xt.nextIndex ≤ xtRootMaxSlot) {logicalOffset : ℤ} {length physicalAddr : ℕ}
    (hfits : xt.Fits (.insertExtent logicalOffset length physicalAddr)) :
    xt.Keeps (.insertExtent logicalOffset length physicalAddr) := by
  unfold Keeps after
  rcases xt.insertExtent_cases logicalOffset length physicalAddr hnext with
    ⟨init, last, merged, hslots, hcont, hinsert, hindex, hmerged⟩ | ⟨-, hinsert | ⟨hroom, hinsert⟩⟩
  · simp only [hinsert, Option.getD_some]
    refine ⟨hindex.le.trans hnext, fun address haddress => .inl ?_⟩
    obtain ⟨xad, hxad, hspan⟩ := mem_blocks.mp haddress
    rw [mem_blocks, hmerged]
    rw [hslots] at hxad
    rcases List.mem_append.mp hxad with hinit | hlast
    · exact ⟨xad, List.mem_append_left _ hinit, hspan⟩
    · obtain rfl := List.mem_singleton.mp hlast
      have hlonger := hfits xad (by rw [hslots, List.getLast?_append]; rfl) hcont
      refine ⟨_, List.mem_append_right _ (List.mem_singleton_self _), ?_⟩
      rw [Xad.span_setLength, mem_addressSpan]
      have := mem_span_run.mp hspan
      omega
  · simp only [hinsert, Option.getD_none]
    exact keeps_self hnext _
  · simp only [hinsert, Option.getD_some]
    exact ⟨(keeps_append hroom).1, fun address haddress => .inl ((keeps_append hroom).2 address haddress)⟩

theorem keeps_insertTakenExtent (hnext : xt.nextIndex ≤ xtRootMaxSlot) (logicalOffset : ℤ)
    (length physicalAddr : ℕ) : xt.Keeps (.insertTakenExtent logicalOffset length physicalAddr) := by
  unfold Keeps after insertTakenExtent
  by_cases hfull : xtRootMaxSlot ≤ xt.nextIndex
  · simp only [if_pos hfull, Option.getD_none]
    exact keeps_self hnext _
  · have hroom : xt.nextIndex < xtRootMaxSlot := by omega
    simp only [if_neg hfull, Option.getD_some]
    exact ⟨(keeps_append hroom).1, fun address haddress => .inl ((keeps_append hroom).2 address haddress)⟩

theorem keeps_truncateExtents (xt : Xtree) (newEof : ℤ) : xt.Keeps (.truncateExtents newEof) := by
  unfold Keeps after truncateExtents
  simp only [List.flatMap_map]
  refine keeps_of_pass ?_ fun xad _ address haddress => covers_truncateXad haddress
  have hslots := xt.length_slots
  refine (length_flatMap_le fun xad _ => length_truncateXad newEof xad).trans ?_
  omega

theorem keeps_punchExtents {start stop : ℤ} (hfits : xt.Fits (.punchExtents start stop)) :
    xt.Keeps (.punchExtents start stop) := by
  obtain ⟨hroom, hwrap, hsplit⟩ := hfits
  unfold Keeps after punchExtents
  simp only [List.flatMap_map]
  refine keeps_of_pass ?_ fun xad hxad address haddress => ?_
  · rwa [length_keep_eq_pieces xt fun _ => length_punchXad]
  · exact covers_parts_punchXad haddress (hwrap xad hxad) (hsplit xad hxad)

theorem keeps_takeExtents {start stop : ℤ} (hfits : xt.Fits (.takeExtents start stop)) :
    xt.Keeps (.takeExtents start stop) := by
  obtain ⟨hroom, hwrap⟩ := hfits
  unfold Keeps after takeExtents
  simp only [List.flatMap_map, List.map_flatMap]
  refine keeps_of_pass ?_ fun xad hxad address haddress => ?_
  · rwa [length_keep_eq_pieces xt fun _ => rfl]
  · exact covers_parts_takeXad haddress (hwrap xad hxad)

theorem keeps_splitExtent (hnext : xt.nextIndex ≤ xtRootMaxSlot) {splitAt : ℤ}
    (hfits : xt.Fits (.splitExtent splitAt)) : xt.Keeps (.splitExtent splitAt) := by
  unfold Keeps after
  rcases xt.splitExtent_cases splitAt with
    ⟨hsame, -⟩ | ⟨i, xad, right, hroom, hfind, hget, hstraddles, hindex, hslots, hright⟩
  · rw [hsame]
    exact keeps_self hnext _
  · have hbound := hfits hroom xad hfind
    have hlt := xad.length_lt
    have hstop : xad.stop = xad.offset + xad.length := rfl
    obtain ⟨hlow, hhigh⟩ : xad.offset < splitAt ∧ splitAt < xad.stop := by
      unfold straddles at hstraddles
      simpa using hstraddles
    refine ⟨hindex.trans_le hroom, fun address haddress => .inl ?_⟩
    obtain ⟨xad', hxad', hspan⟩ := mem_blocks.mp haddress
    obtain ⟨j, hj⟩ := List.mem_iff_getElem?.mp hxad'
    rw [mem_blocks, hslots]
    by_cases hij : i = j
    · subst hij
      obtain rfl : xad = xad' := Option.some.inj (hget.symm.trans hj)
      have hi := (List.getElem?_eq_some_iff.mp hj).1
      have hmem := mem_span_run.mp hspan
      by_cases hlower : address < xad.address + (splitAt - xad.offset).toNat
      · refine ⟨_, List.mem_append_left _ (List.mem_set hi _), ?_⟩
        rw [mem_span_setLength (by omega)]
        exact ⟨hmem.1, hlower⟩
      · refine ⟨right, List.mem_append_right _ (List.mem_singleton_self _), ?_⟩
        unfold Run.span
        rw [hright, mem_addressSpan, Nat.mod_eq_of_lt (by omega), Nat.mod_eq_of_lt (by omega)]
        simp only
        omega
    · refine ⟨xad', List.mem_append_left _ ?_, hspan⟩
      refine List.mem_of_getElem? (i := j) ?_
      rw [List.getElem?_set_ne hij, hj]

theorem keeps_of_fits (hnext : xt.nextIndex ≤ xtRootMaxSlot) {call : RootCall} (hfits : xt.Fits call) :
    xt.Keeps call := by
  cases call with
  | insertExtent => exact keeps_insertExtent hnext hfits
  | insertTakenExtent => exact keeps_insertTakenExtent hnext _ _ _
  | truncateExtents => exact keeps_truncateExtents xt _
  | punchExtents => exact keeps_punchExtents hfits
  | takeExtents => exact keeps_takeExtents hfits
  | splitExtent => exact keeps_splitExtent hnext hfits

end Fits

/-! ## Calls that do not fit -/

/-- The extents lie apart on the disk, and their physical blocks are numbers of 40 bits. -/
structure Proper (xt : Xtree) : Prop where
  unshared : xt.Unshared
  address_le : ∀ xad ∈ xt.slots, xad.length ≠ 0 → xad.address + xad.length ≤ 2 ^ 40

section Lost

variable {xt : Xtree}

theorem Proper.noWrap (h : xt.Proper) (start stop : ℤ) : xt.NoWrap start stop := by
  intro xad hxad _ hlow hhigh
  have hstop : xad.stop = xad.offset + xad.length := rfl
  have haddress := h.address_le xad hxad (by omega)
  omega

theorem pieces_le_of_nextIndex {start stop : ℤ} {keep : Xad → List Xad}
    (hkeep : ∀ xad, (keep xad).length = (takeXad start stop xad).1.length)
    (h : (xt.storeKept (xt.slots.flatMap keep)).nextIndex ≤ xtRootMaxSlot) :
    xt.pieces start stop ≤ xtRootMaxSlot - xtEntryStart := by
  have hpieces := xt.length_keep_eq_pieces hkeep
  have hle := xt.pieces_le start stop
  rw [nextIndex_storeKept xt (by omega)] at h
  omega

/-- The parts of an extent lie in the extent. -/
theorem mem_span_of_punchXad {start stop : ℤ} (hle : start ≤ stop) {xad : Xad}
    (haddress : xad.length ≠ 0 → xad.address + xad.length ≤ 2 ^ 40) {address : ℕ}
    (h : (∃ part ∈ (punchXad start stop xad).1, address ∈ part.run.span) ∨
      address ∈ freedBlocks (punchXad start stop xad).2) :
    address ∈ xad.run.span := by
  have hstop : xad.stop = xad.offset + xad.length := rfl
  have hlt := xad.length_lt
  rw [mem_span_run]
  unfold punchXad at h
  split_ifs at h with hempty hbefore hafter hinside hspans hleft
  · simp at h
  · simpa [mem_span_run] using h
  · simpa [mem_span_run] using h
  · simpa [mem_addressSpan] using h
  · have hbound := haddress hempty
    rcases h with ⟨part, hpart, hspan⟩ | hfreed
    · rcases List.mem_cons.mp hpart with rfl | hpart
      · rw [mem_span_setLength (by omega)] at hspan
        omega
      · obtain rfl := List.mem_singleton.mp hpart
        rw [mem_span_moved (by omega) (by omega)] at hspan
        omega
    · rw [freedBlocks_singleton, mem_addressSpan, Int.emod_eq_of_lt (by omega) (by omega)] at hfreed
      omega
  · rcases h with ⟨part, hpart, hspan⟩ | hfreed
    · obtain rfl := List.mem_singleton.mp hpart
      rw [mem_span_setLength (by omega)] at hspan
      omega
    · rw [freedBlocks_singleton, mem_addressSpan] at hfreed
      omega
  · have hbound := haddress hempty
    rcases h with ⟨part, hpart, hspan⟩ | hfreed
    · obtain rfl := List.mem_singleton.mp hpart
      rw [mem_span_moved (by omega) (by omega)] at hspan
      omega
    · rw [freedBlocks_singleton, mem_addressSpan] at hfreed
      omega

/-- The last block of an extent that `punch_extents` splits is in none of its parts. -/
theorem last_lost_of_splits {start stop : ℤ} (hlt : start < stop) {xad : Xad}
    (haddress : xad.length ≠ 0 → xad.address + xad.length ≤ 2 ^ 40) (hsplits : splits start stop xad) :
    ¬ ((∃ part ∈ (punchXad start stop xad).1, xad.address + xad.length - 1 ∈ part.run.span) ∨
      xad.address + xad.length - 1 ∈ freedBlocks (punchXad start stop xad).2) := by
  have hstop : xad.stop = xad.offset + xad.length := rfl
  have hlength := xad.length_lt
  unfold splits at hsplits
  simp only [Bool.and_eq_true, decide_eq_true_eq] at hsplits
  have hbound := haddress (by omega)
  unfold punchXad
  rw [if_neg (by omega), if_neg (by omega), if_neg (by omega), if_neg (by omega), if_pos (by omega)]
  rintro (⟨part, hpart, hspan⟩ | hfreed)
  · rcases List.mem_cons.mp hpart with rfl | hpart
    · rw [mem_span_setLength (by omega)] at hspan
      omega
    · obtain rfl := List.mem_singleton.mp hpart
      rw [mem_span_moved (by omega) (by omega)] at hspan
      omega
  · rw [freedBlocks_singleton, mem_addressSpan, Int.emod_eq_of_lt (by omega) (by omega)] at hfreed
    omega

theorem fits_insertExtent (hnext : xt.nextIndex ≤ xtRootMaxSlot) (hproper : xt.Proper) {logicalOffset : ℤ}
    {length physicalAddr : ℕ} (hkeeps : xt.Keeps (.insertExtent logicalOffset length physicalAddr)) :
    xt.Fits (.insertExtent logicalOffset length physicalAddr) := by
  intro last hlast hcont
  by_contra hshort
  rcases xt.insertExtent_cases logicalOffset length physicalAddr hnext with
    ⟨init, last', merged, hslots, -, hinsert, -, hmerged⟩ | ⟨hnone, -⟩
  · obtain rfl : last' = last := by
      rw [hslots, List.getLast?_append] at hlast
      exact Option.some.inj hlast
    have hunshared := hproper.unshared
    unfold Unshared at hunshared
    rw [hslots, List.pairwise_append] at hunshared
    have hmem : last'.address + last'.length - 1 ∈ last'.run.span := by
      rw [mem_span_run]
      omega
    have hblock : last'.address + last'.length - 1 ∈ xt.blocks := by
      rw [mem_blocks, hslots]
      exact ⟨last', List.mem_append_right _ (List.mem_singleton_self _), hmem⟩
    have hkept := hkeeps.2 _ hblock
    unfold after at hkept
    simp only [hinsert, Option.getD_some, freedBlocks_nil, Multiset.notMem_zero, or_false] at hkept
    rw [mem_blocks, hmerged] at hkept
    obtain ⟨xad, hxad, hspan⟩ := hkept
    rcases List.mem_append.mp hxad with hinit | hlast'
    · exact Multiset.disjoint_left.mp (hunshared.2.2 xad hinit last' (List.mem_singleton_self _)) hspan hmem
    · obtain rfl := List.mem_singleton.mp hlast'
      rw [Xad.span_setLength, mem_addressSpan] at hspan
      omega
  · exact hnone last hlast hcont

theorem fits_punchExtents (hproper : xt.Proper) {start stop : ℤ}
    (hkeeps : xt.Keeps (.punchExtents start stop)) : xt.Fits (.punchExtents start stop) := by
  unfold Keeps after punchExtents at hkeeps
  simp only [List.flatMap_map] at hkeeps
  obtain ⟨hindex, hblocks⟩ := hkeeps
  have hpieces := pieces_le_of_nextIndex (fun _ => length_punchXad) hindex
  refine ⟨hpieces, hproper.noWrap start stop, fun xad hxad hsplits => ?_⟩
  by_contra hlt
  have hstop : xad.stop = xad.offset + xad.length := rfl
  have hlast : xad.address + xad.length - 1 ∈ xad.run.span := by
    unfold splits at hsplits
    simp only [Bool.and_eq_true, decide_eq_true_eq] at hsplits
    rw [mem_span_run]
    omega
  -- the last block of the extent would be in a part of some extent, which can only be this one
  obtain ⟨other, hother, hpart⟩ : ∃ other ∈ xt.slots,
      (∃ part ∈ (punchXad start stop other).1, xad.address + xad.length - 1 ∈ part.run.span) ∨
        xad.address + xad.length - 1 ∈ freedBlocks (punchXad start stop other).2 := by
    rcases hblocks _ (mem_blocks.mpr ⟨xad, hxad, hlast⟩) with hkept | hfreed
    · unfold blocks at hkept
      rw [runs_storeKept xt (by rwa [length_keep_eq_pieces xt fun _ => length_punchXad]), Runs.mem_spans] at hkept
      obtain ⟨run, hrun, hmem⟩ := hkept
      obtain ⟨part, hpart, rfl⟩ := List.mem_map.mp hrun
      obtain ⟨other, hother, hpart⟩ := List.mem_flatMap.mp hpart
      exact ⟨other, hother, .inl ⟨part, hpart, hmem⟩⟩
    · obtain ⟨other, hother, hmem⟩ := mem_freedBlocks_flatMap.mp hfreed
      exact ⟨other, hother, .inr hmem⟩
  have hmem := mem_span_of_punchXad (by omega) (hproper.address_le other hother) hpart
  obtain rfl := hproper.unshared.eq_of_mem hxad hother hlast hmem
  exact last_lost_of_splits (by omega) (hproper.address_le xad hxad) hsplits hpart

theorem fits_takeExtents (hproper : xt.Proper) {start stop : ℤ}
    (hkeeps : xt.Keeps (.takeExtents start stop)) : xt.Fits (.takeExtents start stop) := by
  unfold Keeps after takeExtents at hkeeps
  simp only [List.flatMap_map] at hkeeps
  exact ⟨pieces_le_of_nextIndex (fun _ => rfl) hkeeps.1, hproper.noWrap start stop⟩

theorem fits_splitExtent (hproper : xt.Proper) (splitAt : ℤ) : xt.Fits (.splitExtent splitAt) := by
  intro _ xad hfind
  have hstraddles := List.find?_some hfind
  unfold straddles at hstraddles
  simp only [Bool.and_eq_true, decide_eq_true_eq] at hstraddles
  have hstop : xad.stop = xad.offset + xad.length := rfl
  have haddress := hproper.address_le xad (List.mem_of_find?_eq_some hfind) (by omega)
  omega

theorem fits_of_keeps (hnext : xt.nextIndex ≤ xtRootMaxSlot) (hproper : xt.Proper) {call : RootCall}
    (hkeeps : xt.Keeps call) : xt.Fits call := by
  cases call with
  | insertExtent => exact fits_insertExtent hnext hproper hkeeps
  | insertTakenExtent => trivial
  | truncateExtents => trivial
  | punchExtents => exact fits_punchExtents hproper hkeeps
  | takeExtents => exact fits_takeExtents hproper hkeeps
  | splitExtent => exact fits_splitExtent hproper _

end Lost

/-- **A call that fits loses no block**, and on a root whose extents lie apart on the disk no
other call keeps all of them. -/
theorem keeps_of_fits_and_converse (xt : Xtree) (call : RootCall) (hnext : xt.nextIndex ≤ xtRootMaxSlot) :
    (xt.Fits call → xt.Keeps call) ∧ (xt.Proper → (xt.Keeps call ↔ xt.Fits call)) :=
  ⟨keeps_of_fits hnext, fun hproper => ⟨fits_of_keeps hnext hproper, keeps_of_fits hnext⟩⟩

theorem keeps_take_threeBlocks :
    threeBlocks.nextIndex ≤ xtRootMaxSlot ∧ threeBlocks.Keeps (.takeExtents 1 2) := by
  have hnext : threeBlocks.nextIndex ≤ xtRootMaxSlot := by decide
  refine ⟨hnext, (keeps_of_fits_and_converse threeBlocks (.takeExtents 1 2) hnext).1 ⟨by decide, ?_⟩⟩
  unfold NoWrap
  rw [slots_threeBlocks]
  decide

/-- A full root: sixteen extents of three blocks each. -/
def fullRoot : Xtree where
  header := { nextindex := 18 }
  xad := Vector.ofFn fun i =>
    { off2 := UInt32.ofNat (4 * i.1), loc := { lenAddr := 3, addr2 := UInt32.ofNat (100 + 4 * i.1) } }

/-- Taking the middle block of an extent of a full root drops the last extent. -/
theorem not_keeps_take_fullRoot :
    fullRoot.nextIndex = xtRootMaxSlot ∧ (fullRoot.takeExtents 9 10).1 = [(9, 1, 109)] ∧
      (fullRoot.takeExtents 9 10).2.nextIndex = 19 ∧ fullRoot.physical 68 = some 168 ∧
      (fullRoot.takeExtents 9 10).2.physical 68 = none ∧ ¬ fullRoot.Keeps (.takeExtents 9 10) := by
  have hindex : (fullRoot.takeExtents 9 10).2.nextIndex = 19 := by decide
  refine ⟨by decide, by decide, hindex, by decide, by decide, ?_⟩
  rintro ⟨hroom, -⟩
  unfold after at hroom
  simp only [hindex] at hroom
  exact absurd hroom (by decide)

end Xtree

end JfsFuse
