import JfsFuse.Btree.Dtree

/-!
# What a directory root shows

`Shows t live` reads the bytes of a directory root as the list `live` of its
entries in `stbl` order, each with the slot it is stored in.  Under this view
each operation of `Dtree` becomes one on lists:

* `lookup` searches and `entries` lists the entries (`Shows.lookup`,
  `Shows.entries`);
* `insert` of an absent name writes slot `live.length + 1` and appends that
  slot to the list, whether or not an entry lives there (`Shows.insert`);
* `remove` drops the first entry of that name (`Shows.remove`).

The bytes are not looked at again above this file.
-/

namespace JfsFuse

open ByteBuf Program

theorem bytesToU16_u16ToBytes (name : List UInt16) : bytesToU16 (u16ToBytes name) = name := by
  induction name with
  | nil => rfl
  | cons unit rest ih =>
      have hunit : UInt16.ofNat (leNat (leBytes 2 unit.toNat)) = unit := by
        have hlt : unit.toNat < 256 ^ 2 := unit.toNat_lt
        rw [leNat_leBytes, Nat.mod_eq_of_lt hlt, UInt16.ofNat_toNat]
      calc bytesToU16 (u16ToBytes (unit :: rest))
          = UInt16.ofNat (leNat (leBytes 2 unit.toNat)) :: bytesToU16 (u16ToBytes rest) := rfl
        _ = unit :: rest := by rw [hunit, ih]

theorem length_u16ToBytes (name : List UInt16) : (u16ToBytes name).length = 2 * name.length := by
  induction name with
  | nil => rfl
  | cons unit rest ih =>
      rw [u16ToBytes, List.flatMap_cons, List.length_append, length_leBytes, List.length_cons]
      rw [u16ToBytes] at ih
      omega

namespace Dtree

/-- The 32 bytes of a slot. -/
def slotBytes (t : Dtree) (slot : ℕ) : List UInt8 :=
  slice t.data (slot * dtSlotSize) dtSlotSize

/-- The entry that 32 slot bytes hold. -/
def decodeSlot (bytes : List UInt8) : DirEntry where
  inumber := UInt32.ofNat (readLE bytes 0 4)
  name := bytesToU16 (slice bytes 6 (readLE bytes 5 1 * 2))
  index := UInt32.ofNat (readLE bytes 28 4)

/-- The entries of the root `t` in `stbl` order, each with its slot, are `live`. -/
structure Lists (t : Dtree) (live : List (ℕ × DirEntry)) : Prop where
  size : t.data.length = 288
  count : readLE t.data 17 1 = live.length
  count_le : live.length ≤ 8
  stbl : ∀ i slot entry, live[i]? = some (slot, entry) → readLE t.data (24 + i) 1 = slot
  slot : ∀ p ∈ live, 1 ≤ p.1 ∧ p.1 ≤ 8
  nameLen : ∀ p ∈ live, readLE (t.slotBytes p.1) 5 1 ≤ 11
  entry : ∀ p ∈ live, decodeSlot (t.slotBytes p.1) = p.2

/-- The root `t` has no free list, and its entries in `stbl` order, each with
its slot, are `live`. -/
structure Shows (t : Dtree) (live : List (ℕ × DirEntry)) : Prop where
  size : t.data.length = 288
  freecnt : readLE t.data 18 1 = 0
  count : readLE t.data 17 1 = live.length
  count_le : live.length ≤ 8
  stbl : ∀ i slot entry, live[i]? = some (slot, entry) → readLE t.data (24 + i) 1 = slot
  slot : ∀ p ∈ live, 1 ≤ p.1 ∧ p.1 ≤ 8
  nameLen : ∀ p ∈ live, readLE (t.slotBytes p.1) 5 1 ≤ 11
  entry : ∀ p ∈ live, decodeSlot (t.slotBytes p.1) = p.2

/-! ## Reading -/

/-- A slot whose name fits in it is read without a panic. -/
theorem readEntry_eq {t : Dtree} {slot : ℕ} (hsize : slot * dtSlotSize + 32 ≤ t.data.length)
    (hname : readLE (t.slotBytes slot) 5 1 ≤ 11) :
    t.readEntry (slot * dtSlotSize) = .ok (decodeSlot (t.slotBytes slot)) := by
  have hread : ∀ k w, k + w ≤ 32 →
      readLE (t.slotBytes slot) k w = readLE t.data (slot * dtSlotSize + k) w :=
    fun k w h => readLE_slice t.data _ h
  rw [hread 5 1 (by omega)] at hname
  have hslice : slice (t.slotBytes slot) 6 (readLE t.data (slot * dtSlotSize + 5) 1 * 2) =
      slice t.data (slot * dtSlotSize + 6) (readLE t.data (slot * dtSlotSize + 5) 1 * 2) :=
    slice_slice t.data (show 6 + _ * 2 ≤ 32 by omega)
  have hparse : t.parseLdtEntry (slot * dtSlotSize) = .ok
      { inumber := UInt32.ofNat (readLE t.data (slot * dtSlotSize) 4)
        nameLen := readLE t.data (slot * dtSlotSize + 5) 1
        index := UInt32.ofNat (readLE t.data (slot * dtSlotSize + 28) 4) } :=
    if_neg (by simp only [dtSlotSize] at *; omega)
  rw [readEntry, hparse, decodeSlot, hread 0 4 (by omega), hread 5 1 (by omega),
    hread 28 4 (by omega), hslice]
  change (do
    let nameBytes ← sliceOrPanic t.data (slot * dtSlotSize + 6)
      (readLE t.data (slot * dtSlotSize + 5) 1 * 2)
    pure _ : Except StorageError DirEntry) = _
  rw [sliceOrPanic_of_le (by omega)]
  rfl

namespace Lists

variable {t : Dtree} {live : List (ℕ × DirEntry)}

theorem nextIndex (h : Lists t live) : t.nextIndex = live.length :=
  h.count

theorem slot_fits (h : Lists t live) {p : ℕ × DirEntry} (hmem : p ∈ live) :
    p.1 * dtSlotSize + 32 ≤ t.data.length := by
  have hslot := (h.slot p hmem).2
  have hsize := h.size
  simp only [dtSlotSize]
  omega

theorem readEntry (h : Lists t live) {p : ℕ × DirEntry} (hmem : p ∈ live) :
    t.readEntry (p.1 * dtSlotSize) = .ok p.2 := by
  rw [readEntry_eq (h.slot_fits hmem) (h.nameLen p hmem), h.entry p hmem]

theorem readStbl (h : Lists t live) : t.readStbl t.nextIndex = live.map Prod.fst := by
  have hlen : (slice t.data 24 (min live.length 8)).length = live.length := by
    have := h.size
    have := h.count_le
    rw [length_slice]
    omega
  rw [h.nextIndex, Dtree.readStbl]
  refine List.ext_getElem (by simp only [List.length_map, hlen]) fun i hi hi' => ?_
  have hi'' : i < live.length := by simpa using hi'
  have hstbl := h.stbl i _ _ (List.getElem?_eq_getElem hi'')
  have hget := getD_slice t.data 24 (min live.length 8) i 0 (by have := h.count_le; omega)
  rw [readLE_one, ← hget, List.getD_eq_getElem?_getD, List.getElem?_eq_getElem (by omega)] at hstbl
  simpa using hstbl

/-- **Lookups search the shown entries in order.** -/
theorem lookup (h : Lists t live) (name : List UInt16) :
    t.lookup name = .ok ((live.map Prod.snd).find? fun e => e.name = name) := by
  have hloop : ∀ part ⊆ live, t.lookupIn name (part.map Prod.fst) =
      .ok ((part.map Prod.snd).find? fun e => e.name = name) := by
    intro part hpart
    induction part with
    | nil => rfl
    | cons p rest ih =>
        have hmem : p ∈ live := hpart (List.mem_cons_self ..)
        have hfits := h.slot_fits hmem
        have hrest := ih fun q hq => hpart (List.mem_cons_of_mem _ hq)
        rw [List.map_cons, lookupIn, if_neg (by simp only [dtSlotSize] at *; omega),
          h.readEntry hmem, List.map_cons, List.find?_cons]
        by_cases hname : p.2.name = name
        · simp [hname, bind, Except.bind, pure, Except.pure]
        · simpa [hname, bind, Except.bind] using hrest
  rw [Dtree.lookup]
  split
  · next hzero =>
      rw [h.nextIndex] at hzero
      rw [List.length_eq_zero_iff.mp hzero]
      rfl
  · rw [h.readStbl]
    exact hloop live fun _ hp => hp

/-- **`entries` lists the shown entries in order.** -/
theorem entries (h : Lists t live) : t.entries = .ok (live.map Prod.snd) := by
  have hloop : ∀ part ⊆ live, t.entriesIn (part.map Prod.fst) = .ok (part.map Prod.snd) := by
    intro part hpart
    induction part with
    | nil => rfl
    | cons p rest ih =>
        have hmem : p ∈ live := hpart (List.mem_cons_self ..)
        have hfits := h.slot_fits hmem
        have hrest := ih fun q hq => hpart (List.mem_cons_of_mem _ hq)
        rw [List.map_cons, entriesIn, if_neg (by simp only [dtSlotSize] at *; omega),
          h.readEntry hmem, hrest]
        rfl
  rw [Dtree.entries, h.readStbl]
  exact hloop live fun _ hp => hp

end Lists

namespace Shows

variable {t : Dtree} {live : List (ℕ × DirEntry)}

theorem lists (h : Shows t live) : Lists t live :=
  ⟨h.size, h.count, h.count_le, h.stbl, h.slot, h.nameLen, h.entry⟩

theorem nextIndex (h : Shows t live) : t.nextIndex = live.length :=
  h.count

theorem readStbl (h : Shows t live) : t.readStbl t.nextIndex = live.map Prod.fst :=
  h.lists.readStbl

theorem lookup (h : Shows t live) (name : List UInt16) :
    t.lookup name = .ok ((live.map Prod.snd).find? fun e => e.name = name) :=
  h.lists.lookup name

theorem entries (h : Shows t live) : t.entries = .ok (live.map Prod.snd) :=
  h.lists.entries

end Shows

theorem Lists.shows {t : Dtree} {live : List (ℕ × DirEntry)} (h : Lists t live)
    (hfree : readLE t.data 18 1 = 0) : Shows t live :=
  ⟨h.size, hfree, h.count, h.count_le, h.stbl, h.slot, h.nameLen, h.entry⟩

/-! ## Inserting -/

/-- `write_ldt_entry` stores the entry in the slot and touches nothing else. -/
theorem writeLdtEntry_spec {t : Dtree} {slot : ℕ} (ino : UInt32) {name : List UInt16}
    (index : UInt32) (hsize : slot * dtSlotSize + 32 ≤ t.data.length) (hname : name.length ≤ 11) :
    ∃ t', writeLdtEntry (slot * dtSlotSize) ino name index t = .ok () t' ∧
      t'.data.length = t.data.length ∧
      readLE (t'.slotBytes slot) 5 1 = name.length ∧
      decodeSlot (t'.slotBytes slot) = ⟨ino, name, index⟩ ∧
      ∀ off n, off + n ≤ slot * dtSlotSize ∨ slot * dtSlotSize + 32 ≤ off →
        slice t'.data off n = slice t.data off n := by
  generalize hbase : slot * dtSlotSize = base at hsize ⊢
  have htake : name.take 11 = name := List.take_of_length_le hname
  have hmin : min name.length 11 = name.length := by omega
  have hnameBytes := length_u16ToBytes name
  -- the four stores, one after the other
  let d₁ := writeLE t.data base 4 ino.toNat
  let d₂ := writeLE d₁ (base + 5) 1 name.length
  let d₃ := splice d₂ (base + 6) (u16ToBytes name)
  let d₄ := writeLE d₃ (base + 28) 4 index.toNat
  have hl₁ : d₁.length = t.data.length := length_writeLE _ (by omega)
  have hl₂ : d₂.length = t.data.length := (length_writeLE _ (by omega)).trans hl₁
  have hl₃ : d₃.length = t.data.length := (length_splice (by omega)).trans hl₂
  have hl₄ : d₄.length = t.data.length := (length_writeLE _ (by omega)).trans hl₃
  have hrun : writeLdtEntry base ino name index t = .ok () ⟨d₄⟩ := by
    have hfits : ¬ t.data.length < base + dtSlotSize := by simp only [dtSlotSize]; omega
    rw [writeLdtEntry, bind_ok (get_apply t), if_neg hfits, htake, hmin]
    rfl
  have hino : readLE d₄ base 4 = ino.toNat := by
    rw [readLE_writeLE_of_disjoint _ (by omega) (by omega),
      readLE_splice_of_disjoint (by omega) (by omega),
      readLE_writeLE_of_disjoint _ (by omega) (by omega),
      readLE_writeLE_self _ (by omega)]
    exact Nat.mod_eq_of_lt ino.toNat_lt
  have hlen : readLE d₄ (base + 5) 1 = name.length := by
    rw [readLE_writeLE_of_disjoint _ (by omega) (by omega),
      readLE_splice_of_disjoint (by omega) (by omega), readLE_writeLE_self _ (by omega)]
    exact Nat.mod_eq_of_lt (by omega)
  have hunits : slice d₄ (base + 6) (name.length * 2) = u16ToBytes name := by
    have hself := slice_splice_self (u16ToBytes name) (show base + 6 ≤ d₂.length by omega)
    rw [slice_writeLE_of_disjoint _ (by omega) (by omega), Nat.mul_comm, ← hnameBytes]
    exact hself
  have hindex : readLE d₄ (base + 28) 4 = index.toNat := by
    rw [readLE_writeLE_self _ (by omega)]
    exact Nat.mod_eq_of_lt index.toNat_lt
  have hslot : slotBytes ⟨d₄⟩ slot = slice d₄ base 32 := by
    rw [slotBytes, hbase, dtSlotSize]
  refine ⟨⟨d₄⟩, hrun, hl₄, ?_, ?_, ?_⟩
  · rw [hslot, readLE_slice _ _ (by omega), hlen]
  · rw [hslot, decodeSlot, readLE_slice _ _ (by omega), readLE_slice _ _ (by omega),
      readLE_slice _ _ (by omega), Nat.add_zero, hino, hlen, hindex, slice_slice _ (by omega),
      hunits, bytesToU16_u16ToBytes, UInt32.ofNat_toNat, UInt32.ofNat_toNat]
  · intro off n hdisj
    rw [slice_writeLE_of_disjoint _ (by omega) (by omega),
      slice_splice_of_disjoint (by omega) (by omega),
      slice_writeLE_of_disjoint _ (by omega) (by omega),
      slice_writeLE_of_disjoint _ (by omega) (by omega)]

theorem setStblEntry_eq {t : Dtree} {idx : ℕ} (slot : ℕ) (h : 24 + idx < t.data.length) :
    setStblEntry idx slot t = .ok () ⟨writeLE t.data (24 + idx) 1 slot⟩ := by
  rw [setStblEntry, bind_ok (get_apply t), if_neg (by omega)]
  rfl

theorem setNextindex_eq {t : Dtree} (val : ℕ) (h : 17 < t.data.length) :
    setNextindex val t = .ok () ⟨writeLE t.data 17 1 val⟩ := by
  rw [setNextindex, bind_ok (get_apply t), if_pos h]
  rfl

/-- Without a free list the next slot is the one after as many slots as there
are entries. -/
theorem Shows.allocSlot {t : Dtree} {live : List (ℕ × DirEntry)} (h : Shows t live)
    (hroom : live.length < 8) : allocSlot t.nextIndex t = .ok (live.length + 1) t := by
  have hempty : ¬ (0 < readLE t.data 18 1 ∧ readLE t.data 19 1 ≠ 0) := by
    rw [h.freecnt]
    omega
  have hslot : min (t.nextIndex + dtEntryStart) (dtRootMaxSlot - 1) = live.length + 1 := by
    rw [h.nextIndex, dtEntryStart, dtRootMaxSlot]
    omega
  rw [Dtree.allocSlot, bind_ok (get_apply t), if_neg hempty, hslot]
  rfl

/-- What the list shows after `entry` was stored in `slot` and appended: every
entry that was listed for that slot is overwritten. -/
def placed (live : List (ℕ × DirEntry)) (slot : ℕ) (entry : DirEntry) : List (ℕ × DirEntry) :=
  live.map (fun p => if p.1 = slot then (slot, entry) else p) ++ [(slot, entry)]

theorem mem_placed {live : List (ℕ × DirEntry)} {slot : ℕ} {entry : DirEntry} {p : ℕ × DirEntry}
    (h : p ∈ placed live slot entry) : p = (slot, entry) ∨ p ∈ live ∧ p.1 ≠ slot := by
  rcases List.mem_append.mp h with h | h
  · obtain ⟨q, hq, rfl⟩ := List.mem_map.mp h
    split
    · exact Or.inl rfl
    · next hne => exact Or.inr ⟨hq, hne⟩
  · exact Or.inl (List.mem_singleton.mp h)

theorem Shows.insert_present {t : Dtree} {live : List (ℕ × DirEntry)} (h : Shows t live)
    {name : List UInt16} (ino index : UInt32)
    (hpresent : ((live.map Prod.snd).find? fun e => e.name = name).isSome) :
    insert name ino index t = .ok false t := by
  rw [insert, bind_ok (get_apply t), h.lookup, bind_ok (returnExcept_ok _ t), if_pos hpresent]
  rfl

theorem Shows.insert_full {t : Dtree} {live : List (ℕ × DirEntry)} (h : Shows t live)
    {name : List UInt16} (ino index : UInt32)
    (habsent : (live.map Prod.snd).find? (fun e => e.name = name) = none)
    (hfull : 8 ≤ live.length) : insert name ino index t = .ok false t := by
  have hmax : dtRootMaxSlot - 1 ≤ t.nextIndex := by rw [h.nextIndex]; exact hfull
  rw [insert, bind_ok (get_apply t), h.lookup, bind_ok (returnExcept_ok _ t), habsent,
    if_neg (by decide), if_pos hmax]
  rfl

/-- **Inserting an absent name writes the slot after as many slots as there
are entries**, whether or not that slot is in use. -/
theorem Shows.insert_absent {t : Dtree} {live : List (ℕ × DirEntry)} (h : Shows t live)
    {name : List UInt16} (ino index : UInt32) (hname : name.length ≤ 11)
    (habsent : (live.map Prod.snd).find? (fun e => e.name = name) = none)
    (hroom : live.length < 8) :
    ∃ t', insert name ino index t = .ok true t' ∧
      Shows t' (placed live (live.length + 1) ⟨ino, name, index⟩) := by
  have hsize := h.size
  have hfits : (live.length + 1) * dtSlotSize + 32 ≤ t.data.length := by
    rw [dtSlotSize]
    omega
  obtain ⟨t₁, hwrite, hlen₁, hnameLen, hdecode, hframe⟩ :=
    writeLdtEntry_spec ino index hfits hname
  have hhead : ∀ off n, off + n ≤ 32 → readLE t₁.data off n = readLE t.data off n := by
    intro off n hoff
    rw [readLE, hframe off n (Or.inl (by rw [dtSlotSize]; omega)), readLE]
  let t₂ : Dtree := ⟨writeLE t₁.data (24 + live.length) 1 (live.length + 1)⟩
  let t₃ : Dtree := ⟨writeLE t₂.data 17 1 (live.length + 1)⟩
  have hlen₂ : t₂.data.length = 288 := (length_writeLE _ (by omega)).trans (by omega)
  have hlen₃ : t₃.data.length = 288 := (length_writeLE _ (by omega)).trans hlen₂
  have hslots : ∀ slot, 1 ≤ slot → t₃.slotBytes slot = t₁.slotBytes slot := by
    intro slot hslot
    have hoff : 32 ≤ slot * dtSlotSize := by rw [dtSlotSize]; omega
    rw [slotBytes, slice_writeLE_of_disjoint _ (by omega) (by omega),
      slice_writeLE_of_disjoint _ (by omega) (by omega), slotBytes]
  have hother : ∀ slot, slot ≠ live.length + 1 → t₁.slotBytes slot = t.slotBytes slot := by
    intro slot hne
    refine hframe _ _ ?_
    simp only [dtSlotSize]
    omega
  have hrun : insert name ino index t = .ok true t₃ := by
    have hmax : ¬ dtRootMaxSlot - 1 ≤ t.nextIndex := by
      rw [h.nextIndex, dtRootMaxSlot]
      omega
    have hslotMax : ¬ dtRootMaxSlot ≤ live.length + 1 := by
      rw [dtRootMaxSlot]
      omega
    rw [insert, bind_ok (get_apply t), h.lookup, bind_ok (returnExcept_ok _ t), habsent,
      if_neg (by decide), if_neg hmax, bind_ok (h.allocSlot hroom), if_neg hslotMax,
      bind_ok hwrite, h.nextIndex, bind_ok (setStblEntry_eq _ (by omega)),
      bind_ok (setNextindex_eq _ (by rw [hlen₂]; omega))]
    rfl
  refine ⟨t₃, hrun, hlen₃, ?_, ?_, ?_, ?_, ?_, ?_, ?_⟩
  · rw [readLE_writeLE_of_disjoint _ (by omega) (by omega),
      readLE_writeLE_of_disjoint _ (by omega) (by omega), hhead _ _ (by omega), h.freecnt]
  · rw [readLE_writeLE_self _ (by omega), placed, List.length_append, List.length_map]
    exact Nat.mod_eq_of_lt (by omega)
  · rw [placed, List.length_append, List.length_map]
    exact hroom
  · intro i slot entry hi
    rw [readLE_writeLE_of_disjoint _ (by omega) (by omega)]
    rcases Nat.lt_trichotomy i live.length with hlt | rfl | hgt
    · rw [readLE_writeLE_of_disjoint _ (by omega) (by omega), hhead _ _ (by omega)]
      rw [placed, List.getElem?_append_left (by simpa using hlt), List.getElem?_map] at hi
      obtain ⟨p, hp, heq⟩ := Option.map_eq_some_iff.mp hi
      have hstbl := h.stbl i p.1 p.2 hp
      split at heq <;> cases heq <;> simp_all
    · rw [placed, List.getElem?_append_right (by simp)] at hi
      have hentry : (live.length + 1, (⟨ino, name, index⟩ : DirEntry)) = (slot, entry) := by
        simpa using hi
      cases hentry
      rw [readLE_writeLE_self _ (by omega)]
      exact Nat.mod_eq_of_lt (by omega)
    · rw [placed, List.getElem?_eq_none (by simp; omega)] at hi
      cases hi
  · intro p hp
    rcases mem_placed hp with rfl | ⟨hp, -⟩
    · simp only
      omega
    · exact h.slot p hp
  · intro p hp
    rcases mem_placed hp with rfl | ⟨hp, hne⟩
    · rw [hslots _ (by omega), hnameLen]
      exact hname
    · rw [hslots _ (h.slot p hp).1, hother _ hne]
      exact h.nameLen p hp
  · intro p hp
    rcases mem_placed hp with rfl | ⟨hp, hne⟩
    · rw [hslots _ (by omega), hdecode]
    · rw [hslots _ (h.slot p hp).1, hother _ hne]
      exact h.entry p hp

/-! ## Removing -/

/-- The shifting loop moves `count` table entries down by one and touches
nothing else. -/
theorem shiftStbl_spec (count j : ℕ) (t : Dtree) (hsize : 24 + j + count < t.data.length) :
    ∃ t', shiftStbl j count t = .ok () t' ∧ t'.data.length = t.data.length ∧
      (∀ i, j ≤ i → i < j + count → readLE t'.data (24 + i) 1 = readLE t.data (24 + i + 1) 1) ∧
      ∀ off n, off + n ≤ 24 + j ∨ 24 + j + count ≤ off →
        slice t'.data off n = slice t.data off n := by
  induction count generalizing j t with
  | zero => exact ⟨t, rfl, rfl, fun i hle hlt => by omega, fun off n _ => rfl⟩
  | succ count ih =>
      have hread : t.readStblEntry (j + 1) = .ok (readLE t.data (24 + (j + 1)) 1) :=
        if_neg (by omega)
      let t₁ : Dtree := ⟨writeLE t.data (24 + j) 1 (readLE t.data (24 + (j + 1)) 1)⟩
      have hlen₁ : t₁.data.length = t.data.length := length_writeLE _ (by omega)
      have hstep : shiftStbl j (count + 1) t = shiftStbl (j + 1) count t₁ := by
        have hset : (tryCatch (setStblEntry j (readLE t.data (24 + (j + 1)) 1)) fun _ => return ()
            : DtreeM Unit) t = .ok () t₁ := by
          change EStateM.tryCatch _ _ t = _
          rw [EStateM.tryCatch, setStblEntry_eq _ (by omega)]
        rw [shiftStbl, bind_ok (get_apply t), hread, bind_ok (returnExcept_ok _ t), bind_ok hset]
      obtain ⟨t', hrun, hlen, hmoved, hframe⟩ := ih (j + 1) t₁ (by omega)
      refine ⟨t', hstep.trans hrun, hlen.trans hlen₁, ?_, ?_⟩
      · intro i hle hlt
        rcases Nat.eq_or_lt_of_le hle with rfl | hgt
        · rw [readLE, hframe _ _ (by omega)]
          change readLE t₁.data (24 + j) 1 = _
          rw [readLE_writeLE_self _ (by omega)]
          exact Nat.mod_eq_of_lt (readLE_lt ..)
        · rw [hmoved i hgt (by omega), readLE_writeLE_of_disjoint _ (by omega) (by omega)]
      · intro off n hdisj
        rw [hframe off n (by omega), slice_writeLE_of_disjoint _ (by omega) (by omega)]

namespace Lists

variable {t : Dtree} {live : List (ℕ × DirEntry)}

/-- Clearing table entry `before.length` and its slot drops that entry. -/
theorem removeAt {before after : List (ℕ × DirEntry)} {p : ℕ × DirEntry}
    (h : Lists t (before ++ p :: after))
    (hslots : ∀ q ∈ before ++ after, q.1 ≠ p.1) :
    ∃ t', removeAt before.length p.1 p.2 t = .ok (some p.2.inumber) t' ∧
      Lists t' (before ++ after) ∧ readLE t'.data 18 1 = readLE t.data 18 1 := by
  have hsize := h.size
  have hcount := h.nextIndex
  have hle := h.count_le
  simp only [List.length_append, List.length_cons] at hcount hle
  have hp := h.slot p (by simp)
  have hmem : ∀ q ∈ before ++ after, q ∈ before ++ p :: after := by
    intro q hq
    rcases List.mem_append.mp hq with hq | hq
    · exact List.mem_append_left _ hq
    · exact List.mem_append_right _ (List.mem_cons_of_mem _ hq)
  obtain ⟨t₁, hshift, hlen₁, hmoved, hframe⟩ :=
    shiftStbl_spec after.length before.length t (by omega)
  let t₂ : Dtree := ⟨writeLE t₁.data (24 + (before.length + after.length)) 1 0⟩
  let t₃ : Dtree := ⟨writeLE t₂.data 17 1 (before.length + after.length)⟩
  let t₄ : Dtree := ⟨splice t₃.data (p.1 * dtSlotSize) (zeros dtSlotSize)⟩
  have hlen₂ : t₂.data.length = 288 := (length_writeLE _ (by omega)).trans (by omega)
  have hlen₃ : t₃.data.length = 288 := (length_writeLE _ (by omega)).trans hlen₂
  have hbase : 32 ≤ p.1 * dtSlotSize ∧ p.1 * dtSlotSize + dtSlotSize ≤ 288 := by
    rw [dtSlotSize]
    omega
  have hzeros : p.1 * dtSlotSize + (zeros dtSlotSize).length ≤ t₃.data.length := by
    rw [length_zeros, hlen₃]
    exact hbase.2
  have hlen₄ : t₄.data.length = 288 := (length_splice hzeros).trans hlen₃
  have hhead : ∀ off n, off + n ≤ 32 → readLE t₄.data off n = readLE t₃.data off n :=
    fun off n hoff => readLE_splice_of_disjoint hzeros (Or.inl (by omega))
  have hother : ∀ q ∈ before ++ after, t₄.slotBytes q.1 = t.slotBytes q.1 := by
    intro q hq
    have hq' := h.slot q (hmem q hq)
    have hne := hslots q hq
    have hoff : 32 ≤ q.1 * dtSlotSize := by rw [dtSlotSize]; omega
    have hdisj : q.1 * dtSlotSize + dtSlotSize ≤ p.1 * dtSlotSize ∨
        p.1 * dtSlotSize + (zeros dtSlotSize).length ≤ q.1 * dtSlotSize := by
      rw [length_zeros, dtSlotSize]
      omega
    rw [slotBytes, slice_splice_of_disjoint hzeros hdisj,
      slice_writeLE_of_disjoint _ (by omega) (by omega),
      slice_writeLE_of_disjoint _ (by omega) (by omega), hframe _ _ (by omega), slotBytes]
  have hrun : Dtree.removeAt before.length p.1 p.2 t = .ok (some p.2.inumber) t₄ := by
    have hshift' : shiftStbl before.length (t.nextIndex - 1 - before.length) t = .ok () t₁ := by
      rw [← hshift]
      congr 1
      omega
    have hlast : t.nextIndex - 1 = before.length + after.length := by omega
    have hclear : (tryCatch (setStblEntry (before.length + after.length) 0) fun _ => return ()
        : DtreeM Unit) t₁ = .ok () t₂ := by
      change EStateM.tryCatch _ _ t₁ = _
      rw [EStateM.tryCatch, setStblEntry_eq _ (by omega)]
    rw [Dtree.removeAt, bind_ok (get_apply t), bind_ok hshift', hlast, bind_ok hclear,
      bind_ok (setNextindex_eq _ (by rw [hlen₂]; omega))]
    rfl
  have hfree : readLE t₄.data 18 1 = readLE t.data 18 1 := by
    rw [hhead _ _ (by omega), readLE_writeLE_of_disjoint _ (by omega) (by omega),
      readLE_writeLE_of_disjoint _ (by omega) (by omega), readLE, hframe _ _ (by omega), readLE]
  refine ⟨t₄, hrun, ⟨hlen₄, ?_, ?_, ?_, ?_, ?_, ?_⟩, hfree⟩
  · rw [hhead _ _ (by omega), readLE_writeLE_self _ (by omega), List.length_append]
    exact Nat.mod_eq_of_lt (by omega)
  · rw [List.length_append]
    omega
  · intro i slot entry hi
    have hlt : i < before.length + after.length := by
      obtain ⟨hlt, -⟩ := List.getElem?_eq_some_iff.mp hi
      rwa [List.length_append] at hlt
    rw [hhead _ _ (by omega), readLE_writeLE_of_disjoint _ (by omega) (by omega),
      readLE_writeLE_of_disjoint _ (by omega) (by omega)]
    rcases Nat.lt_or_ge i before.length with hbefore | hafter
    · rw [List.getElem?_append_left hbefore] at hi
      rw [readLE, hframe _ _ (by omega)]
      exact h.stbl i slot entry (by rw [List.getElem?_append_left hbefore]; exact hi)
    · rw [List.getElem?_append_right hafter] at hi
      rw [hmoved i hafter hlt, Nat.add_assoc]
      refine h.stbl (i + 1) slot entry ?_
      rw [List.getElem?_append_right (by omega), Nat.succ_sub hafter, List.getElem?_cons_succ]
      exact hi
  · exact fun q hq => h.slot q (hmem q hq)
  · intro q hq
    rw [hother q hq]
    exact h.nameLen q (hmem q hq)
  · intro q hq
    rw [hother q hq]
    exact h.entry q (hmem q hq)

/-- The loop of `remove` passes over entries with other names. -/
theorem removeIn_skip (h : Lists t live) {name : List UInt16} {before : List (ℕ × DirEntry)}
    (hmem : before ⊆ live) (hname : ∀ q ∈ before, q.2.name ≠ name) (k : ℕ) (rest : List ℕ) :
    removeIn name k (before.map Prod.fst ++ rest) t =
      removeIn name (k + before.length) rest t := by
  induction before generalizing k with
  | nil => rfl
  | cons q before ih =>
      have hq := hmem (List.mem_cons_self ..)
      have hfits := h.slot_fits hq
      rw [List.map_cons, List.cons_append, removeIn, bind_ok (get_apply t),
        if_neg (by simp only [dtSlotSize] at *; omega), h.readEntry hq,
        bind_ok (returnExcept_ok _ t), if_neg (hname q (List.mem_cons_self ..)),
        ih (fun x hx => hmem (List.mem_cons_of_mem _ hx))
          (fun x hx => hname x (List.mem_cons_of_mem _ hx)), List.length_cons]
      congr 1
      omega

/-- **Removing a name that is not shown changes nothing.** -/
theorem remove_absent (h : Lists t live) {name : List UInt16}
    (habsent : ∀ p ∈ live, p.2.name ≠ name) : remove name t = .ok none t := by
  have hskip := h.removeIn_skip (fun _ hp => hp) habsent 0 []
  rw [remove, bind_ok (get_apply t), h.readStbl, ← List.append_nil (live.map Prod.fst), hskip]
  rfl

/-- **Removing drops the first entry of that name**, as long as no other entry
lives in its slot. -/
theorem remove_present {before after : List (ℕ × DirEntry)} {p : ℕ × DirEntry}
    (h : Lists t (before ++ p :: after)) (hfirst : ∀ q ∈ before, q.2.name ≠ p.2.name)
    (hslots : ∀ q ∈ before ++ after, q.1 ≠ p.1) :
    ∃ t', remove p.2.name t = .ok (some p.2.inumber) t' ∧ Lists t' (before ++ after) ∧
      readLE t'.data 18 1 = readLE t.data 18 1 := by
  obtain ⟨t', hrun, hlists⟩ := h.removeAt hslots
  refine ⟨t', ?_, hlists⟩
  have hp : p ∈ before ++ p :: after := by simp
  have hfits := h.slot_fits hp
  rw [remove, bind_ok (get_apply t), h.readStbl, List.map_append,
    h.removeIn_skip (List.subset_append_left ..) hfirst, Nat.zero_add, List.map_cons, removeIn,
    bind_ok (get_apply t), if_neg (by simp only [dtSlotSize] at *; omega), h.readEntry hp,
    bind_ok (returnExcept_ok _ t), if_pos rfl, hrun]

end Lists

/-! ## The size of a root -/

/-- A root of 288 bytes keeps its size. -/
def SameSize (t t' : Dtree) : Prop :=
  t.data.length = 288 → t'.data.length = 288

instance : IsPreorder Dtree SameSize where
  refl _ := id
  trans _ _ _ h h' := h' ∘ h

theorem sameSize_allocSlot (numEntries : ℕ) : Within SameSize (allocSlot numEntries) := by
  refine Within.get_bind fun t => ?_
  dsimp only
  split
  · intro h
    show (writeLE (writeLE t.data 18 1 _) 19 1 _).length = 288
    have hcount : (writeLE t.data 18 1 (readLE t.data 18 1 - 1)).length = t.data.length := length_writeLE _ (by omega)
    rw [length_writeLE _ (by omega), hcount, h]
  · exact refl_of SameSize t

theorem sameSize_writeLdtEntry (offset : ℕ) (ino : UInt32) (name : List UInt16) (index : UInt32) :
    Within SameSize (writeLdtEntry offset ino name index) := by
  refine Within.get_bind fun t => ?_
  split
  · exact refl_of SameSize t
  · rename_i hfits
    rw [Nat.not_lt] at hfits
    intro h
    unfold dtSlotSize at hfits
    have hname : (u16ToBytes (name.take 11)).length ≤ 22 := by
      rw [length_u16ToBytes, List.length_take]
      omega
    show (writeLE (splice (writeLE (writeLE t.data offset 4 _) (offset + 5) 1 _) (offset + 6) _) (offset + 28) 4 _).length = 288
    have h₁ : (writeLE t.data offset 4 ino.toNat).length = t.data.length := length_writeLE _ (by omega)
    have h₂ := (length_writeLE (min name.length 11) (show offset + 5 + 1 ≤ _ by rw [h₁]; omega)).trans h₁
    have h₃ := (length_splice (show offset + 6 + (u16ToBytes (name.take 11)).length ≤ _ by rw [h₂]; omega)).trans h₂
    rw [length_writeLE _ (by omega), h₃, h]

theorem sameSize_setStblEntry (idx slot : ℕ) : Within SameSize (setStblEntry idx slot) := by
  refine Within.get_bind fun t => ?_
  split
  · exact refl_of SameSize t
  · intro h
    exact (length_writeLE _ (by omega)).trans h

theorem sameSize_setNextindex (val : ℕ) : Within SameSize (setNextindex val) := by
  refine Within.get_bind fun t => ?_
  split
  · intro h
    exact (length_writeLE _ (by omega)).trans h
  · exact refl_of SameSize t

theorem sameSize_insert (name : List UInt16) (ino index : UInt32) : Within SameSize (insert name ino index) := by
  refine Within.bind Within.get fun t => Within.bind (Within.returnExcept _) fun found => ?_
  refine Within.ite (Within.pure _) (Within.ite (Within.pure _) ?_)
  refine Within.bind (sameSize_allocSlot _) fun slot => Within.ite (Within.pure _) ?_
  exact Within.bind (sameSize_writeLdtEntry _ _ _ _) fun _ => Within.bind (sameSize_setStblEntry _ _) fun _ =>
    Within.bind (sameSize_setNextindex _) fun _ => Within.pure _

theorem sameSize_shiftStbl (j count : ℕ) : Within SameSize (shiftStbl j count) := by
  induction count generalizing j with
  | zero => exact Within.pure _
  | succ count ih =>
      refine Within.bind Within.get fun t => Within.bind (Within.returnExcept _) fun slot => ?_
      exact Within.bind (Within.tryCatch (sameSize_setStblEntry _ _) fun _ => Within.pure _) fun _ => ih _

theorem sameSize_removeAt (stblIdx : ℕ) {slot : ℕ} (hslot : slot * dtSlotSize + dtSlotSize ≤ 288) (entry : DirEntry) :
    Within SameSize (removeAt stblIdx slot entry) := by
  refine Within.bind Within.get fun t => Within.bind (sameSize_shiftStbl _ _) fun _ => ?_
  refine Within.bind (Within.tryCatch (sameSize_setStblEntry _ _) fun _ => Within.pure _) fun _ => ?_
  refine Within.bind (sameSize_setNextindex _) fun _ => Within.bind (fun u h => ?_) fun _ => Within.pure _
  exact (length_splice (by rw [length_zeros, h]; exact hslot)).trans h

theorem sameSize_removeIn (name : List UInt16) (stblIdx : ℕ) (slots : List ℕ) :
    Within SameSize (removeIn name stblIdx slots) := by
  induction slots generalizing stblIdx with
  | nil => exact Within.pure _
  | cons slot rest ih =>
      refine Within.get_bind fun t => ?_
      split
      · exact ih _ t
      · rename_i hfits
        intro h
        rw [h, Nat.not_lt] at hfits
        refine Within.bind (R := SameSize) (Within.returnExcept _) (fun entry => ?_) t h
        exact Within.ite (sameSize_removeAt _ hfits _) (ih _)

theorem sameSize_remove (name : List UInt16) : Within SameSize (remove name) :=
  Within.get_bind fun t => sameSize_removeIn _ _ _ t

end Dtree

end JfsFuse
