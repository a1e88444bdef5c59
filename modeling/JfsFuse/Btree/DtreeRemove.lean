import JfsFuse.Btree.DtreeSlots
import Mathlib.Data.List.Nodup

/-!
# Removing an entry

On a well-formed root `remove` drops the entry of the name and moves the others together in
`stbl`, whatever slots they live in.
-/

namespace JfsFuse

open ByteBuf Program

namespace Dtree

/-- The listed slots are in the root and different, their names fit and are different. -/
structure WellFormed (t : Dtree) : Prop where
  size : t.data.length = 288
  count_le : t.nextIndex ≤ 8
  slots : (t.readStbl t.nextIndex).Nodup
  slot : ∀ slot ∈ t.readStbl t.nextIndex, 1 ≤ slot ∧ slot ≤ 8
  nameLen : ∀ slot ∈ t.readStbl t.nextIndex, readLE t.data (slot * dtSlotSize + 5) 1 ≤ 11
  names : ∃ listed, t.entries = .ok listed ∧ (listed.map DirEntry.name).Nodup

/-- The entries that the table lists, each with its slot. -/
def listedSlots (t : Dtree) : List (ℕ × DirEntry) :=
  (t.readStbl t.nextIndex).map fun slot => (slot, decodeSlot (t.slotBytes slot))

theorem map_fst_listedSlots (t : Dtree) : t.listedSlots.map Prod.fst = t.readStbl t.nextIndex := by
  unfold listedSlots
  rw [List.map_map]
  exact List.map_id _

theorem nameLen_slotBytes (t : Dtree) (slot : ℕ) :
    readLE (t.slotBytes slot) 5 1 = readLE t.data (slot * dtSlotSize + 5) 1 :=
  readLE_slice t.data _ (by decide)

/-- **A well-formed root lists its entries.** -/
theorem WellFormed.lists {t : Dtree} (h : WellFormed t) : Lists t t.listedSlots := by
  have hsize := h.size
  have hcount := h.count_le
  have hlen : (t.readStbl t.nextIndex).length = t.nextIndex := by
    unfold readStbl
    rw [List.length_map, length_slice]
    omega
  have hlisted : t.listedSlots.length = t.nextIndex := (List.length_map _).trans hlen
  refine ⟨hsize, hlisted.symm, hlisted ▸ hcount, fun i slot entry hget => ?_, fun p hp => ?_, fun p hp => ?_,
    fun p hp => ?_⟩
  · obtain ⟨hi, -⟩ := List.getElem?_eq_some_iff.mp hget
    unfold listedSlots readStbl at hget
    rw [List.map_map, List.getElem?_map, Option.map_eq_some_iff] at hget
    obtain ⟨byte, hbyte, heq⟩ := hget
    have hslot := congrArg Prod.fst heq
    simp only [Function.comp_apply] at hslot
    have hgetD := getD_slice t.data 24 (min t.nextIndex 8) i 0 (by omega)
    rw [List.getD_eq_getElem?_getD, hbyte, Option.getD_some] at hgetD
    rw [readLE_one, ← hgetD, hslot]
  · obtain ⟨slot, hslot, rfl⟩ := List.mem_map.mp hp
    exact h.slot slot hslot
  · obtain ⟨slot, hslot, rfl⟩ := List.mem_map.mp hp
    rw [nameLen_slotBytes]
    exact h.nameLen slot hslot
  · obtain ⟨slot, hslot, rfl⟩ := List.mem_map.mp hp
    rfl

namespace Lists

variable {t : Dtree} {live : List (ℕ × DirEntry)}

theorem wellFormed (h : Lists t live) (hslots : (live.map Prod.fst).Nodup)
    (hnames : (live.map fun p => p.2.name).Nodup) : WellFormed t where
  size := h.size
  count_le := h.nextIndex ▸ h.count_le
  slots := by rwa [h.readStbl]
  slot slot hslot := by
    rw [h.readStbl] at hslot
    obtain ⟨p, hp, rfl⟩ := List.mem_map.mp hslot
    exact h.slot p hp
  nameLen slot hslot := by
    rw [h.readStbl] at hslot
    obtain ⟨p, hp, rfl⟩ := List.mem_map.mp hslot
    rw [← nameLen_slotBytes]
    exact h.nameLen p hp
  names := ⟨_, h.entries, by rwa [List.map_map]⟩

/-- **A removal** drops the entry of the name; without one it changes nothing. -/
theorem exists_remove (h : Lists t live) (hslots : (live.map Prod.fst).Nodup)
    (hnames : (live.map fun p => p.2.name).Nodup) (name : List UInt16) :
    ∃ t', remove name t = .ok (((live.map Prod.snd).find? fun e => e.name = name).map DirEntry.inumber) t' ∧
      Lists t' (live.filter fun p => p.2.name ≠ name) ∧ ((∀ p ∈ live, p.2.name ≠ name) → t' = t) := by
  by_cases hpresent : ∃ p ∈ live, p.2.name = name
  · obtain ⟨p, hp, rfl⟩ := hpresent
    obtain ⟨before, after, rfl⟩ := List.append_of_mem hp
    -- the entry is the only one of its name, and the only one in its slot
    rw [List.map_append, List.map_cons, List.nodup_middle, List.nodup_cons, ← List.map_append] at hslots hnames
    have hslot : ∀ q ∈ before ++ after, q.1 ≠ p.1 := fun q hq heq =>
      hslots.1 (List.mem_map.mpr ⟨q, hq, heq⟩)
    have hname : ∀ q ∈ before ++ after, q.2.name ≠ p.2.name := fun q hq heq =>
      hnames.1 (List.mem_map.mpr ⟨q, hq, heq⟩)
    have hbefore : ∀ q ∈ before, q.2.name ≠ p.2.name := fun q hq => hname q (List.mem_append_left _ hq)
    obtain ⟨t', hrun, hlists, -⟩ := h.remove_present hbefore hslot
    have hfilter : (before ++ p :: after).filter (fun q => q.2.name ≠ p.2.name) = before ++ after := by
      rw [List.filter_append, List.filter_cons_of_neg (by simp), ← List.filter_append, List.filter_eq_self]
      exact fun q hq => decide_eq_true (hname q hq)
    have hfound : ((before ++ p :: after).map Prod.snd).find? (fun e => e.name = p.2.name) = some p.2 := by
      have hskip : (before.map Prod.snd).find? (fun e => e.name = p.2.name) = none := by
        rw [List.find?_eq_none]
        intro e he hmatch
        obtain ⟨q, hq, rfl⟩ := List.mem_map.mp he
        exact hbefore q hq (by simpa using hmatch)
      rw [List.map_append, List.find?_append, hskip, List.map_cons, List.find?_cons_of_pos (by simp)]
      rfl
    refine ⟨t', ?_, hfilter ▸ hlists, fun habsent => absurd rfl (habsent p (by simp))⟩
    rw [hfound]
    exact hrun
  · have habsent : ∀ p ∈ live, p.2.name ≠ name := fun p hp heq => hpresent ⟨p, hp, heq⟩
    have hnone : (live.map Prod.snd).find? (fun e => e.name = name) = none := by
      rw [List.find?_eq_none]
      intro e he hmatch
      obtain ⟨q, hq, rfl⟩ := List.mem_map.mp he
      exact habsent q hq (by simpa using hmatch)
    have hfilter : live.filter (fun q => q.2.name ≠ name) = live :=
      List.filter_eq_self.mpr fun q hq => decide_eq_true (habsent q hq)
    refine ⟨t, ?_, hfilter.symm ▸ h, fun _ => rfl⟩
    rw [hnone]
    exact h.remove_absent habsent

end Lists

/-- **Removing is exact**: the result is the inode number that a lookup finds, afterwards the name is
absent, the other names are found as before and listed in the same order, and the root is well
formed again; if the name is absent, nothing changes. -/
theorem remove_exact {t : Dtree} (h : WellFormed t) (name : List UInt16) :
    ∃ found listed t', t.lookup name = .ok found ∧ t.entries = .ok listed ∧
      remove name t = .ok (found.map DirEntry.inumber) t' ∧ WellFormed t' ∧
      t'.lookup name = .ok none ∧ (∀ other, other ≠ name → t'.lookup other = t.lookup other) ∧
      t'.entries = .ok (listed.filter fun e => e.name ≠ name) ∧ (found = none → t' = t) := by
  have hlists := h.lists
  have hslots : (t.listedSlots.map Prod.fst).Nodup := by
    rw [map_fst_listedSlots]
    exact h.slots
  have hnames : (t.listedSlots.map fun p => p.2.name).Nodup := by
    obtain ⟨listed, hentries, hnodup⟩ := h.names
    rw [hlists.entries] at hentries
    rwa [← Except.ok.inj hentries, List.map_map] at hnodup
  obtain ⟨t', hrun, hlists', hsame⟩ := hlists.exists_remove hslots hnames name
  have hrest : (t.listedSlots.filter fun p => p.2.name ≠ name).map Prod.snd =
      (t.listedSlots.map Prod.snd).filter fun e => e.name ≠ name := by
    rw [List.filter_map]
    rfl
  refine ⟨_, _, t', hlists.lookup name, hlists.entries, hrun, hlists'.wellFormed ?_ ?_, ?_, fun other hother => ?_,
    ?_, fun hnone => hsame fun p hp heq => ?_⟩
  · exact hslots.sublist ((List.filter_sublist ..).map _)
  · exact hnames.sublist ((List.filter_sublist ..).map _)
  · rw [hlists'.lookup, hrest, List.find?_filter]
    refine congrArg Except.ok (List.find?_eq_none.mpr fun e _ hmatch => ?_)
    simp at hmatch
  · rw [hlists'.lookup, hlists.lookup, hrest, List.find?_filter]
    refine congrArg Except.ok (congrArg (fun p => List.find? p _) (funext fun e => ?_))
    by_cases heq : e.name = other
    · simp [heq, hother]
    · simp [heq]
  · rw [hlists'.entries, hrest]
  · exact absurd (decide_eq_true heq) (List.find?_eq_none.mp hnone p.2 (List.mem_map_of_mem hp))

/-- A root with the entries `a` in slot 2 and `b` in slot 1. -/
def swappedRoot : Dtree where
  data := spliceAll [(17, [2]), (24, [2, 1]), (32, leBytes 4 21), (37, [1, 98]), (64, leBytes 4 20), (69, [1, 97])]
    (zeros 288)

/-- Removing `a` from it leaves `b`. -/
theorem remove_exact_swappedRoot :
    WellFormed swappedRoot ∧ ∃ t', remove [97] swappedRoot = .ok (some 20) t' ∧ WellFormed t' ∧
      t'.entries = .ok [{ inumber := 21, name := [98], index := 0 }] := by
  have hentries : swappedRoot.entries = .ok [{ inumber := 20, name := [97], index := 0 },
      { inumber := 21, name := [98], index := 0 }] := by decide +kernel
  have hstbl : swappedRoot.readStbl swappedRoot.nextIndex = [2, 1] := by decide
  have hwell : WellFormed swappedRoot := by
    refine ⟨by decide +kernel, by decide +kernel, ?_, ?_, ?_, _, hentries, by decide⟩
    · rw [hstbl]
      decide
    · rw [hstbl]
      decide
    · rw [hstbl]
      decide
  obtain ⟨found, listed, t', hlookup, hlisted, hrun, hwell', -, -, hrest, -⟩ := remove_exact hwell [97]
  have hfound : swappedRoot.lookup [97] = .ok (some { inumber := 20, name := [97], index := 0 }) := by
    decide +kernel
  rw [hfound] at hlookup
  rw [hentries] at hlisted
  rw [← Except.ok.inj hlookup] at hrun
  rw [← Except.ok.inj hlisted] at hrest
  exact ⟨hwell, t', hrun, hwell', hrest⟩

end Dtree

end JfsFuse
