import JfsFuse.Btree.XtreeCapacity
import Mathlib.Data.List.Find

/-!
# Inserting extents

`insert_extent` puts a new extent into the slot behind the last one, wherever it lies in the
file, or adds its length to the last extent if that one ends where the new one starts.
`split_extent` puts the second half of an extent behind the last one as well.  So the extents
stay in the order that `validate` asks for only if what is added lies behind all others, and
the block map grows by the new extent only if the sum of two lengths fits into 24 bits.
-/

namespace JfsFuse

namespace Xtree

/-! ## `validate` -/

/-- The loop of `validate` over the slots from `i` on. -/
def validateFrom : ℕ → ℕ → List Xad → Except String Unit
  | _, _, [] => .ok ()
  | i, prevEnd, xad :: rest =>
      if xad.length = 0 then validateFrom (i + 1) prevEnd rest
      else
        let offset := xad.offset
        if offset < prevEnd then
          .error s!"extent at index {i} overlaps previous (offset={offset}, prev_end={prevEnd})"
        else validateFrom (i + 1) xad.stop rest

/-- `validate`. -/
def validate (xt : Xtree) : Except String Unit :=
  validateFrom xtEntryStart 0 xt.slots

theorem validateFrom_ok_iff {i prevEnd : ℕ} {l : List Xad} :
    validateFrom i prevEnd l = .ok () ↔
      (∀ xad ∈ l, xad.length ≠ 0 → prevEnd ≤ xad.offset) ∧ Runs.Ordered (l.map Xad.run) := by
  induction l generalizing i prevEnd with
  | nil => simp [validateFrom, Runs.Ordered]
  | cons xad rest ih =>
      unfold validateFrom
      have hstop : xad.stop = xad.offset + xad.length := rfl
      have hordered : Runs.Ordered ((xad :: rest).map Xad.run) ↔
          (∀ other ∈ rest, xad.length ≠ 0 → other.length ≠ 0 → xad.stop ≤ other.offset) ∧
            Runs.Ordered (rest.map Xad.run) := by
        unfold Runs.Ordered
        rw [List.map_cons, List.pairwise_cons]
        refine and_congr_left fun _ => ?_
        simp only [List.forall_mem_map]
        rfl
      rw [hordered, List.forall_mem_cons]
      by_cases hempty : xad.length = 0
      · rw [if_pos hempty, ih]
        simp [hempty]
      · rw [if_neg hempty]
        simp only
        by_cases hbefore : xad.offset < prevEnd
        · rw [if_pos hbefore]
          refine iff_of_false (by simp) fun h => ?_
          have := h.1.1 hempty
          omega
        · rw [if_neg hbefore, ih]
          constructor
          · rintro ⟨hrest, hsorted⟩
            refine ⟨⟨fun _ => by omega, fun other hother hne => ?_⟩,
              fun other hother _ hne => hrest other hother hne, hsorted⟩
            have := hrest other hother hne
            omega
          · rintro ⟨-, hrest, hsorted⟩
            exact ⟨fun other hother hne => hrest other hother hempty hne, hsorted⟩

theorem validate_ok_iff (xt : Xtree) : xt.validate = .ok () ↔ Runs.Ordered xt.runs := by
  unfold validate
  rw [validateFrom_ok_iff]
  exact and_iff_right fun _ _ _ => Nat.zero_le _

/-- The slot holds an extent of the file. -/
def InUse (xt : Xtree) (i : Fin xtRootMaxSlot) : Prop :=
  xtEntryStart ≤ i.1 ∧ i.1 < xt.nextIndex

theorem getElem?_slots_of_inUse {xt : Xtree} {i : Fin xtRootMaxSlot} (h : xt.InUse i) :
    xt.slots[i.1 - xtEntryStart]? = some (xt.xad.get i) := by
  have hback : xtEntryStart + (i.1 - xtEntryStart) = i.1 := Nat.add_sub_cancel' h.1
  rw [getElem?_slots, hback, if_pos h.2, Vector.getElem?_toList, Vector.getElem?_eq_getElem i.2]
  rfl

theorem exists_inUse {xt : Xtree} {k : ℕ} {xad : Xad} (h : xt.slots[k]? = some xad) :
    ∃ i : Fin xtRootMaxSlot, xt.InUse i ∧ i.1 = xtEntryStart + k ∧ xt.xad.get i = xad := by
  have hlt := (List.getElem?_eq_some_iff.mp h).1
  rw [length_slots] at hlt
  have hslot : xtEntryStart + k < xtRootMaxSlot := by omega
  have huse : xt.InUse ⟨xtEntryStart + k, hslot⟩ := ⟨Nat.le_add_right .., by simp only; omega⟩
  refine ⟨⟨xtEntryStart + k, hslot⟩, huse, rfl, ?_⟩
  have hget := getElem?_slots_of_inUse huse
  rw [Nat.add_sub_cancel_left] at hget
  exact Option.some.inj (hget.symm.trans h)

/-- The order of the runs, slot by slot. -/
theorem ordered_runs_iff (xt : Xtree) :
    Runs.Ordered xt.runs ↔ ∀ i j, xt.InUse i → xt.InUse j → i < j →
      Runs.Before (xt.xad.get i).run (xt.xad.get j).run := by
  constructor
  · intro h i j hi hj hij
    have hrun : ∀ k, xt.InUse k → xt.runs[k.1 - xtEntryStart]? = some (xt.xad.get k).run := by
      intro k hk
      rw [runs, List.getElem?_map, getElem?_slots_of_inUse hk]
      rfl
    have hlt : i.1 - xtEntryStart < j.1 - xtEntryStart := by
      have hslots : i.1 < j.1 := hij
      have hstart := hi.1
      omega
    exact h.before (hrun i hi) (hrun j hj) hlt
  · intro h
    refine List.pairwise_map.mpr (List.pairwise_iff_getElem.mpr fun k l hk hl hkl => ?_)
    obtain ⟨i, hi, hik, heq⟩ := exists_inUse (List.getElem?_eq_getElem hk)
    obtain ⟨j, hj, hjl, heq'⟩ := exists_inUse (List.getElem?_eq_getElem hl)
    rw [← heq, ← heq']
    refine h i j hi hj ?_
    show i.1 < j.1
    omega

/-- In order, two slots do not hold the same block. -/
theorem eq_of_holds {xt : Xtree} (h : Runs.Ordered xt.runs) {i j : Fin xtRootMaxSlot} (hi : xt.InUse i)
    (hj : xt.InUse j) {block : ℕ} (hholds : (xt.xad.get i).run.Holds block)
    (hholds' : (xt.xad.get j).run.Holds block) : i = j := by
  have hbefore := xt.ordered_runs_iff.mp h
  unfold Run.Holds at hholds hholds'
  rcases lt_trichotomy i.1 j.1 with hlt | heq | hgt
  · have hends := hbefore i j hi hj hlt (by omega) (by omega)
    omega
  · exact Fin.ext heq
  · have hends := hbefore j i hj hi hgt (by omega) (by omega)
    omega

/-- Then the search does not depend on the order of the slots. -/
theorem lookup_of_perm {xt xt' : Xtree} (h : Runs.Ordered xt.runs) (hperm : xt'.slots.Perm xt.slots)
    (block : ℕ) : xt'.lookup block = xt.lookup block := by
  refine (List.find?_eq_find?_of_perm hperm.symm ?_).symm
  rintro xad ⟨hxad, hholds⟩ other ⟨hother, hholds'⟩
  obtain ⟨k, hk⟩ := List.getElem?_of_mem hxad
  obtain ⟨l, hl⟩ := List.getElem?_of_mem hother
  obtain ⟨i, hi, -, rfl⟩ := exists_inUse hk
  obtain ⟨j, hj, -, rfl⟩ := exists_inUse hl
  have hfound : ∀ xad : Xad, (xad.offset ≤ block && block < xad.stop) = true → xad.run.Holds block := by
    intro xad hmatch
    rw [Bool.and_eq_true, decide_eq_true_eq, decide_eq_true_eq] at hmatch
    exact hmatch
  have heq : i = j := eq_of_holds h hi hj (hfound _ hholds) (hfound _ hholds')
  rw [heq]

/-- **`validate` is exact**: it accepts a root exactly when every extent ends before each later
one starts, and then at most one slot holds a block and the order of the slots does not matter. -/
theorem validate_exact (xt : Xtree) :
    (xt.validate = .ok () ↔ ∀ i j, xt.InUse i → xt.InUse j → i < j →
      (xt.xad.get i).length ≠ 0 → (xt.xad.get j).length ≠ 0 →
        (xt.xad.get i).offset + (xt.xad.get i).length ≤ (xt.xad.get j).offset) ∧
    (xt.validate = .ok () → ∀ block,
      (∀ i j, xt.InUse i → xt.InUse j →
        (xt.xad.get i).offset ≤ block ∧ block < (xt.xad.get i).offset + (xt.xad.get i).length →
        (xt.xad.get j).offset ≤ block ∧ block < (xt.xad.get j).offset + (xt.xad.get j).length → i = j) ∧
      ∀ xt' : Xtree, xt'.slots.Perm xt.slots → xt'.lookup block = xt.lookup block) := by
  refine ⟨xt.validate_ok_iff.trans xt.ordered_runs_iff, fun h block => ?_⟩
  have hordered := xt.validate_ok_iff.mp h
  exact ⟨fun i j hi hj hholds hholds' => eq_of_holds hordered hi hj hholds hholds',
    fun xt' hperm => lookup_of_perm hordered hperm block⟩

/-! ## What the calls add -/

/-- An extent as a descriptor stores it. -/
def storedRun (logicalOffset : ℤ) (length physicalAddr : ℕ) : Run where
  offset := (logicalOffset % 2 ^ 40).toNat
  length := length % 2 ^ 24
  address := physicalAddr % 2 ^ 40

theorem runs_append (xt : Xtree) {logicalOffset : ℤ} {length physicalAddr : ℕ} {flag : UInt8}
    (hnext : xt.nextIndex < xtRootMaxSlot) :
    (xt.append logicalOffset length physicalAddr flag).runs =
      xt.runs ++ [storedRun logicalOffset length physicalAddr] := by
  have hslots : ∃ old : Xad, (xt.append logicalOffset length physicalAddr flag).slots = xt.slots ++
      [{ (((old.setOffset logicalOffset).setLength length).setAddress physicalAddr) with flag }] := by
    rcases Nat.lt_or_ge xt.nextIndex xtEntryStart with hlow | hlow
    · -- the first slot in use is behind the header
      have hslot : xt.newSlot = xtEntryStart := Nat.max_eq_right hlow.le
      have hstart : (xt.setNextindex xtEntryStart).nextIndex = xtEntryStart :=
        nextIndex_setNextindex xt (by decide)
      have hextended := slots_extended (xt.setNextindex xtEntryStart)
        { ((((xt.xad.toList.getD xtEntryStart {}).setOffset logicalOffset).setLength length).setAddress
          physicalAddr) with flag } hstart.ge (by rw [hstart]; decide)
      rw [slots_eq_nil hstart.le, hstart] at hextended
      refine ⟨xt.xad.toList.getD xtEntryStart {}, ?_⟩
      rw [slots_eq_nil hlow.le, ← hextended]
      unfold append
      rw [hslot]
      rfl
    · have hslot : xt.newSlot = xt.nextIndex := Nat.max_eq_left hlow
      unfold append
      rw [hslot]
      exact ⟨_, slots_extended xt _ hlow hnext⟩
  obtain ⟨old, hslots⟩ := hslots
  unfold runs
  rw [hslots, List.map_append, List.map_singleton, Xad.run_flag, Xad.run_written]
  rfl

/-- **What `insert_extent` adds**: a longer last extent or a new one. -/
theorem insertExtent_runs {xt xt' : Xtree} {logicalOffset : ℤ} {length physicalAddr : ℕ}
    (hnext : xt.nextIndex ≤ xtRootMaxSlot)
    (hinsert : xt.insertExtent logicalOffset length physicalAddr = some xt') :
    (∃ init last, xt.slots = init ++ [last] ∧ continues last logicalOffset physicalAddr ∧
      xt'.runs = init.map Xad.run ++ [{ last.run with length := (last.length + length) % 2 ^ 24 }]) ∨
    (∀ last ∈ xt.slots.getLast?, ¬ continues last logicalOffset physicalAddr) ∧
      xt'.runs = xt.runs ++ [storedRun logicalOffset length physicalAddr] := by
  rcases xt.insertExtent_cases logicalOffset length physicalAddr hnext with
    ⟨init, last, merged, hslots, hcont, hsome, -, hmerged⟩ | ⟨hnone, hfull | ⟨hroom, hsome⟩⟩
  · left
    obtain rfl : merged = xt' := Option.some.inj (hsome.symm.trans hinsert)
    refine ⟨init, last, hslots, hcont, ?_⟩
    unfold runs
    rw [hmerged, List.map_append, List.map_singleton]
    unfold Xad.run
    simp only [Xad.offset_setLength, Xad.length_setLength, Xad.address_setLength]
  · rw [hfull] at hinsert
    cases hinsert
  · right
    obtain rfl := Option.some.inj (hsome.symm.trans hinsert)
    exact ⟨hnone, runs_append xt hroom⟩

theorem insertTakenExtent_runs {xt xt' : Xtree} {logicalOffset : ℤ} {length physicalAddr : ℕ}
    (hinsert : xt.insertTakenExtent logicalOffset length physicalAddr = some xt') :
    xt'.runs = xt.runs ++ [storedRun logicalOffset length physicalAddr] := by
  unfold insertTakenExtent at hinsert
  split at hinsert
  · cases hinsert
  next hroom =>
    obtain rfl := Option.some.inj hinsert
    exact runs_append xt (by omega)

/-! ## The order of the extents -/

/-- An extent of this length may be put behind the others at this offset: it lies behind them
all, as it is stored, or it is stored with length 0. -/
def Behind (xt : Xtree) (logicalOffset : ℤ) (length : ℕ) : Prop :=
  length % 2 ^ 24 = 0 ∨
    ∀ xad ∈ xt.slots, xad.length ≠ 0 → (xad.stop : ℤ) ≤ logicalOffset % 2 ^ 40

/-- The extent makes a last extent that is not empty longer. -/
def Continued (xt : Xtree) (logicalOffset : ℤ) (physicalAddr : ℕ) : Prop :=
  ∃ last ∈ xt.slots.getLast?, continues last logicalOffset physicalAddr ∧ last.length ≠ 0

/-- Of the extents, only the last one reaches over the block, and it can be split there. -/
def SplitsLast (xt : Xtree) (splitAt : ℤ) : Prop :=
  xt.nextIndex < xtRootMaxSlot → ∀ xad ∈ xt.slots, straddles splitAt xad →
    splitAt < 2 ^ 40 ∧ ∀ other ∈ xt.slots, other.length ≠ 0 → other.stop ≤ xad.stop

/-- A run behind extents in order. -/
theorem ordered_map_append_iff {l : List Xad} {r : Run} :
    Runs.Ordered (l.map Xad.run ++ [r]) ↔ Runs.Ordered (l.map Xad.run) ∧
      (r.length = 0 ∨ ∀ xad ∈ l, xad.length ≠ 0 → xad.stop ≤ r.offset) := by
  rw [Runs.ordered_append_singleton, List.forall_mem_map]
  rfl

theorem ordered_stored_iff {xt : Xtree} (hordered : Runs.Ordered xt.runs) (logicalOffset : ℤ)
    (length physicalAddr : ℕ) :
    Runs.Ordered (xt.runs ++ [storedRun logicalOffset length physicalAddr]) ↔
      xt.Behind logicalOffset length := by
  unfold runs at *
  rw [ordered_map_append_iff, and_iff_right hordered]
  unfold Behind storedRun
  refine or_congr_right (forall₃_congr fun xad _ _ => ?_)
  simp only
  omega

section Order

variable {xt xt' : Xtree} {logicalOffset : ℤ} {length physicalAddr : ℕ}

theorem validate_insertExtent_iff (hvalid : xt.validate = .ok ()) (hnext : xt.nextIndex ≤ xtRootMaxSlot)
    (hinsert : xt.insertExtent logicalOffset length physicalAddr = some xt') :
    xt'.validate = .ok () ↔
      xt.Continued logicalOffset physicalAddr ∨ xt.Behind logicalOffset length := by
  rw [validate_ok_iff] at *
  rcases insertExtent_runs hnext hinsert with ⟨init, last, hslots, hcont, hruns⟩ | ⟨hnone, hruns⟩
  · have hlast : last ∈ xt.slots.getLast? := by
      rw [hslots, List.getLast?_append]
      rfl
    have hstop : last.stop = last.offset + last.length := rfl
    have hends : (last.stop : ℤ) = logicalOffset := by
      unfold continues at hcont
      simp only [Bool.and_eq_true, decide_eq_true_eq] at hcont
      exact hcont.1
    have hbound := last.offset_lt
    unfold runs at hvalid
    rw [hslots, List.map_append, List.map_singleton, ordered_map_append_iff] at hvalid
    rw [hruns, ordered_map_append_iff, and_iff_right hvalid.1]
    have hoffset : last.run.offset = last.offset := rfl
    simp only [hoffset] at hvalid ⊢
    by_cases hempty : last.length = 0
    · -- an empty last extent takes the place of the new one
      have hcontinued : ¬ xt.Continued logicalOffset physicalAddr := by
        rintro ⟨last', hlast', -, hne⟩
        obtain rfl : last = last' := Option.some.inj (hlast.symm.trans hlast')
        exact hne hempty
      rw [or_iff_right hcontinued]
      unfold Behind
      rw [hslots]
      simp only [hempty, Nat.zero_add, List.mem_append, List.mem_singleton, or_imp, forall_and, forall_eq]
      refine or_congr_right ?_
      constructor
      · intro hall
        refine ⟨fun xad hxad hne => ?_, fun hne => absurd rfl hne⟩
        have := hall xad hxad hne
        omega
      · rintro ⟨hall, -⟩ xad hxad hne
        have := hall xad hxad hne
        omega
    · refine iff_of_true (Or.inr fun xad hxad hne => ?_) (Or.inl ⟨last, hlast, hcont, hempty⟩)
      exact hvalid.2.resolve_left hempty xad hxad hne
  · have hcontinued : ¬ xt.Continued logicalOffset physicalAddr := by
      rintro ⟨last, hlast, hcont, -⟩
      exact hnone last hlast hcont
    rw [hruns, ordered_stored_iff hvalid, or_iff_right hcontinued]

private theorem forall_mem_set_iff {α : Type} {l : List α} {i : ℕ} (hi : i < l.length) {a : α} {P : α → Prop} :
    (∀ b ∈ l.set i a, P b) ↔ P a ∧ ∀ j b, j ≠ i → l[j]? = some b → P b := by
  simp only [List.mem_iff_getElem?, forall_exists_index, List.getElem?_set]
  constructor
  · intro h
    refine ⟨h a i (by rw [if_pos rfl, if_pos hi]), fun j b hne hj => h b j ?_⟩
    rwa [if_neg hne.symm]
  · rintro ⟨hself, hothers⟩ b j hj
    by_cases hij : i = j
    · rw [if_pos hij, if_pos (hij ▸ hi)] at hj
      exact Option.some.inj hj ▸ hself
    · rw [if_neg hij] at hj
      exact hothers j b (Ne.symm hij) hj

theorem validate_splitExtent_iff (hvalid : xt.validate = .ok ()) (splitAt : ℤ) :
    (xt.splitExtent splitAt).2.validate = .ok () ↔ xt.SplitsLast splitAt := by
  have hordered := xt.validate_ok_iff.mp hvalid
  rcases xt.splitExtent_cases splitAt with
    ⟨hsame, hnone⟩ | ⟨i, xad, right, hroom, -, hget, hstraddles, -, hslots, hright⟩
  · rw [hsame]
    exact iff_of_true hvalid fun hroom xad hxad hstraddles => absurd hstraddles (hnone hroom xad hxad)
  · have hxad : xad ∈ xt.slots := List.mem_of_getElem? hget
    obtain ⟨hlow, hhigh⟩ : xad.offset < splitAt ∧ splitAt < xad.stop := by
      unfold straddles at hstraddles
      simpa using hstraddles
    have hstop : xad.stop = xad.offset + xad.length := rfl
    have hlt := xad.length_lt
    obtain ⟨left, hleft, hoffset, hlength⟩ : ∃ left,
        (xad.setLength (splitAt - xad.offset).toNat).run = left ∧ left.offset = xad.offset ∧
          left.length = (splitAt - xad.offset).toNat := by
      refine ⟨_, rfl, xad.offset_setLength _, (xad.length_setLength _).trans ?_⟩
      exact Nat.mod_eq_of_lt (by omega)
    have hi : i < xt.runs.length := by
      unfold runs
      rw [List.length_map]
      exact (List.getElem?_eq_some_iff.mp hget).1
    have hrun : xt.runs[i]? = some xad.run := by
      unfold runs
      rw [List.getElem?_map, hget]
      rfl
    have hset : Runs.Ordered (xt.runs.set i left) :=
      hordered.set hrun hoffset (hlength.trans_le (show _ ≤ xad.length by omega))
    have hrightLength : (xad.length - (splitAt - xad.offset).toNat) % 2 ^ 24 ≠ 0 := by
      rw [Nat.mod_eq_of_lt (by omega)]
      omega
    have hruns : (xt.splitExtent splitAt).2.runs = xt.runs.set i left ++ [right.run] := by
      unfold runs
      rw [hslots, List.map_append, List.map_singleton, List.map_set, hleft]
    rw [validate_ok_iff, hruns, Runs.ordered_append_singleton, and_iff_right hset, hright]
    simp only
    rw [or_iff_right hrightLength, forall_mem_set_iff hi, hoffset, hlength]
    constructor
    · rintro ⟨hself, hothers⟩ hroom' xad' hxad' hstraddles'
      obtain ⟨hlow', hhigh'⟩ : xad'.offset < splitAt ∧ splitAt < xad'.stop := by
        unfold straddles at hstraddles'
        simpa using hstraddles'
      have hfirst := hself (by omega)
      -- every other extent ends before the right part starts
      have hbefore : ∀ other ∈ xt.slots, other.length ≠ 0 → other = xad ∨ (other.stop : ℤ) ≤ splitAt := by
        intro other hother hne
        obtain ⟨j, hj⟩ := List.mem_iff_getElem?.mp hother
        by_cases hij : j = i
        · rw [hij, hget] at hj
          exact Or.inl (Option.some.inj hj).symm
        · have hend := hothers j other.run hij (by unfold runs; rw [List.getElem?_map, hj]; rfl) hne
          have hstop' : other.run.offset + other.run.length = other.stop := rfl
          right
          omega
      have hstop' : xad'.stop = xad'.offset + xad'.length := rfl
      obtain rfl : xad' = xad := by
        rcases hbefore xad' hxad' (by omega) with heq | hend
        · exact heq
        · omega
      refine ⟨by omega, fun other hother hne => ?_⟩
      rcases hbefore other hother hne with rfl | hend
      · exact le_rfl
      · omega
    · intro hlast
      obtain ⟨hsmall, hbehind⟩ := hlast hroom xad hxad hstraddles
      rw [Int.emod_eq_of_lt (by omega) hsmall]
      refine ⟨fun _ => by omega, fun j r hne hj hlength => ?_⟩
      rcases Nat.lt_or_gt_of_ne hne with hbefore | hafter
      · have hend : r.offset + r.length ≤ xad.offset :=
          hordered.before hj hrun hbefore hlength (show xad.length ≠ 0 by omega)
        omega
      · have hstart : xad.offset + xad.length ≤ r.offset :=
          hordered.before hrun hj hafter (show xad.length ≠ 0 by omega) hlength
        unfold runs at hj
        rw [List.getElem?_map, Option.map_eq_some_iff] at hj
        obtain ⟨other, hj, rfl⟩ := hj
        have hend : other.run.offset + other.run.length ≤ xad.stop :=
          hbehind other (List.mem_of_getElem? hj) hlength
        omega

end Order

/-- **The extents stay in order exactly when what is added lies behind them.** -/
theorem validate_after_insert_iff (xt : Xtree) (hvalid : xt.validate = .ok ())
    (hnext : xt.nextIndex ≤ xtRootMaxSlot) :
    (∀ logicalOffset length physicalAddr xt',
      xt.insertExtent logicalOffset length physicalAddr = some xt' →
        (xt'.validate = .ok () ↔
          xt.Continued logicalOffset physicalAddr ∨ xt.Behind logicalOffset length)) ∧
    (∀ logicalOffset length physicalAddr xt',
      xt.insertTakenExtent logicalOffset length physicalAddr = some xt' →
        (xt'.validate = .ok () ↔ xt.Behind logicalOffset length)) ∧
    ∀ splitAt, (xt.splitExtent splitAt).2.validate = .ok () ↔ xt.SplitsLast splitAt := by
  refine ⟨fun _ _ _ _ hinsert => validate_insertExtent_iff hvalid hnext hinsert,
    fun logicalOffset length physicalAddr xt' hinsert => ?_, validate_splitExtent_iff hvalid⟩
  rw [validate_ok_iff, insertTakenExtent_runs hinsert]
  exact ordered_stored_iff (xt.validate_ok_iff.mp hvalid) logicalOffset length physicalAddr

theorem validate_after_insert_iff_threeBlocks :
    threeBlocks.validate = .ok () ∧ threeBlocks.nextIndex ≤ xtRootMaxSlot ∧
      (threeBlocks.splitExtent 1).2.validate = .ok () := by
  have hvalid : threeBlocks.validate = .ok () := by decide
  have hnext : threeBlocks.nextIndex ≤ xtRootMaxSlot := by decide
  refine ⟨hvalid, hnext, ((validate_after_insert_iff threeBlocks hvalid hnext).2.2 1).mpr ?_⟩
  unfold SplitsLast
  rw [slots_threeBlocks]
  decide

/-- A file with a block mapped behind a hole of four blocks. -/
def fifthBlock : Xtree where
  header := { nextindex := 3 }
  xad := (Vector.replicate xtRootMaxSlot {}).set 2 { off2 := 4, loc := { lenAddr := 1, addr2 := 100 } } entryStart_lt

/-- A block written into the hole lands behind the one that follows it in the file. -/
theorem not_validate_insert_fifthBlock :
    fifthBlock.validate = .ok () ∧ fifthBlock.nextIndex = 3 ∧ fifthBlock.physical 0 = none ∧
      ∃ xt, fifthBlock.insertExtent 0 1 50 = some xt ∧ xt.validate ≠ .ok () := by
  exact ⟨by decide, by decide, by decide, _, rfl, by decide⟩

/-! ## The block map -/

/-- The new extent is mapped as asked for, and no other block of the file is mapped differently. -/
def Extends (xt xt' : Xtree) (offset length address : ℕ) : Prop :=
  (∀ i < length, xt'.physical (offset + i) = some (address + i)) ∧
    ∀ block, block < offset ∨ offset + length ≤ block → xt'.physical block = xt.physical block

theorem physical_of_runs {xt xt' : Xtree} {l : List Run} {r : Run} {offset length address : ℕ}
    (hunmapped : ∀ i < length, xt.physical (offset + i) = none)
    (hruns : xt.runs = l) (hruns' : xt'.runs = l ++ [r]) (hoffset : r.offset = offset)
    (hlength : r.length = length) (haddress : r.address = address) :
    xt.Extends xt' offset length address := by
  have hphysical : ∀ block, xt'.physical block = (xt.physical block).or (r.locate block) := by
    intro block
    rw [physical_eq_locate, physical_eq_locate, hruns, hruns', Runs.locate_append, Runs.locate_singleton]
  constructor
  · intro i hi
    have hholds : r.Holds (offset + i) := by
      unfold Run.Holds
      omega
    rw [hphysical, hunmapped i hi, Option.none_or, Run.locate_of_holds hholds, hoffset, haddress]
    congr 1
    omega
  · intro block hblock
    have hholds : ¬ r.Holds block := by
      unfold Run.Holds
      omega
    rw [hphysical, Run.locate_of_not_holds hholds, Option.or_none]

/-- `MAXXLEN`. -/
def maxXLen : ℕ := 2 ^ 24 - 1

section Map

variable {xt xt' : Xtree} {offset length address : ℕ}

/-- A last extent that is made longer covers the new blocks exactly if its length is not cut off. -/
theorem extends_of_continued_iff {init : List Xad} {last : Xad}
    (hslots : xt.slots = init ++ [last]) (hcont : continues last offset address) (hpos : 1 ≤ length)
    (hmax : length ≤ maxXLen) (hunmapped : ∀ i < length, xt.physical (offset + i) = none)
    (hruns : xt'.runs = init.map Xad.run ++ [{ last.run with length := (last.length + length) % 2 ^ 24 }]) :
    xt.Extends xt' offset length address ↔ last.length + length ≤ maxXLen := by
  obtain ⟨hends, hmeets⟩ : last.offset + last.length = offset ∧ last.address + last.length = address := by
    unfold continues at hcont
    simp only [Bool.and_eq_true, decide_eq_true_eq] at hcont
    exact ⟨by exact_mod_cast hcont.1, hcont.2⟩
  have hlt := last.length_lt
  have hinit : ∀ block, xt'.physical block = (Runs.locate (init.map Xad.run) block).or
      (({ last.run with length := (last.length + length) % 2 ^ 24 } : Run).locate block) := by
    intro block
    rw [physical_eq_locate, hruns, Runs.locate_append, Runs.locate_singleton]
  have hold : ∀ block, xt.physical block =
      (Runs.locate (init.map Xad.run) block).or (last.run.locate block) := by
    intro block
    rw [physical_eq_locate]
    unfold runs
    rw [hslots, List.map_append, List.map_singleton, Runs.locate_append, Runs.locate_singleton]
  have hfree : ∀ i < length, Runs.locate (init.map Xad.run) (offset + i) = none := fun i hi =>
    (Option.or_eq_none_iff.mp ((hold _).symm.trans (hunmapped i hi))).1
  unfold maxXLen at *
  constructor
  · rintro ⟨hmapped, -⟩
    by_contra hlong
    -- the last of the new blocks is not reached
    have hlast := hmapped (length - 1) (by omega)
    rw [hinit, hfree _ (by omega), Option.none_or, Run.locate_eq_some] at hlast
    have hholds := hlast.1
    unfold Run.Holds at hholds
    simp only at hholds
    have hoffset : last.run.offset = last.offset := rfl
    omega
  · intro hshort
    have hsum : (last.length + length) % 2 ^ 24 = last.length + length := Nat.mod_eq_of_lt (by omega)
    rw [hsum] at hinit
    constructor
    · intro i hi
      rw [hinit, hfree i hi, Option.none_or, Run.locate_eq_some]
      unfold Run.Holds Xad.run
      simp only
      omega
    · intro block hblock
      have hsame : ({ last.run with length := last.length + length } : Run).locate block =
          last.run.locate block := by
        refine if_congr ?_ rfl rfl
        unfold Run.Holds Xad.run
        simp only
        omega
      rw [hinit, hold, hsame]

/-- **An insertion extends the map exactly unless a length outgrows its 24 bits.** -/
theorem insertExtent_extends_iff (xt xt' : Xtree) (offset length address : ℕ)
    (hnext : xt.nextIndex ≤ xtRootMaxSlot) (hpos : 1 ≤ length) (hmax : length ≤ maxXLen)
    (hoffset : offset + length ≤ 2 ^ 40) (haddress : address + length ≤ 2 ^ 40)
    (hunmapped : ∀ i < length, xt.physical (offset + i) = none)
    (hinsert : xt.insertExtent offset length address = some xt') :
    xt.Extends xt' offset length address ↔
      ∀ last ∈ xt.slots.getLast?, continues last offset address → last.length + length ≤ maxXLen := by
  rcases insertExtent_runs hnext hinsert with ⟨init, last, hslots, hcont, hruns⟩ | ⟨hnone, hruns⟩
  · rw [extends_of_continued_iff hslots hcont hpos hmax hunmapped hruns, hslots,
      List.getLast?_append]
    simp [hcont]
  · refine iff_of_true ?_ fun last hlast hcont => absurd hcont (hnone last hlast)
    unfold maxXLen at hmax
    refine physical_of_runs hunmapped rfl hruns ?_ ?_ ?_
    · show ((offset : ℤ) % 2 ^ 40).toNat = offset
      omega
    · exact Nat.mod_eq_of_lt (by omega)
    · exact Nat.mod_eq_of_lt (by omega)

theorem insertExtent_extends_iff_threeBlocks :
    threeBlocks.nextIndex ≤ xtRootMaxSlot ∧ 1 ≤ 2 ∧ 2 ≤ maxXLen ∧ 3 + 2 ≤ 2 ^ 40 ∧ 103 + 2 ≤ 2 ^ 40 ∧
      (∀ i < 2, threeBlocks.physical (3 + i) = none) ∧
        ∃ xt, threeBlocks.insertExtent 3 2 103 = some xt ∧ threeBlocks.Extends xt 3 2 103 := by
  have hnext : threeBlocks.nextIndex ≤ xtRootMaxSlot := by decide
  have hunmapped : ∀ i < 2, threeBlocks.physical (3 + i) = none := by decide
  refine ⟨hnext, by decide, by decide, by decide, by decide, hunmapped, _, rfl, ?_⟩
  refine (insertExtent_extends_iff threeBlocks _ 3 2 103 hnext (by decide) (by decide) (by decide)
    (by decide) hunmapped rfl).mpr ?_
  rw [slots_threeBlocks]
  decide

end Map

/-- A file of one extent of the greatest length. -/
def longestExtent : Xtree where
  header := { nextindex := 3 }
  xad := (Vector.replicate xtRootMaxSlot {}).set 2 { loc := { lenAddr := 0xFFFFFF, addr2 := 100 } } entryStart_lt

/-- One more block leaves an extent of length 0. -/
theorem not_extends_longestExtent :
    longestExtent.nextIndex = 3 ∧ longestExtent.physical maxXLen = none ∧
      longestExtent.physical 0 = some 100 ∧
        ∃ xt, longestExtent.insertExtent maxXLen 1 (100 + maxXLen) = some xt ∧
          xt.physical maxXLen = none ∧ xt.physical 0 = none := by
  exact ⟨by decide, by decide, by decide, _, rfl, by decide, by decide⟩

end Xtree

end JfsFuse
