import JfsFuse.Btree.DtreeSlots

/-!
# Malformed directory roots

Slots and indices that lie outside of the root are skipped or refused.  The length of a name is
not checked: a listed slot whose name reaches past the root makes every method panic that comes
to it, and `entries` comes to all of them.
-/

namespace JfsFuse

open ByteBuf Program

namespace Dtree

/-- The name of every listed slot that lies in the root ends in the root. -/
def NamesFit (t : Dtree) : Prop :=
  ∀ slot ∈ t.readStbl t.nextIndex, slot * dtSlotSize + dtSlotSize ≤ t.data.length →
    slot * dtSlotSize + 6 + readLE t.data (slot * dtSlotSize + 5) 1 * 2 ≤ t.data.length

instance (t : Dtree) : Decidable t.NamesFit :=
  List.decidableBAll _ _

section Reading

variable {t : Dtree} {slot : ℕ} (hin : slot * dtSlotSize + dtSlotSize ≤ t.data.length)

include hin

theorem parseLdtEntry_of_le : t.parseLdtEntry (slot * dtSlotSize) = .ok
    { inumber := UInt32.ofNat (readLE t.data (slot * dtSlotSize) 4)
      nameLen := readLE t.data (slot * dtSlotSize + 5) 1
      index := UInt32.ofNat (readLE t.data (slot * dtSlotSize + 28) 4) } :=
  if_neg (Nat.not_lt.mpr hin)

theorem exists_readEntry
    (hfits : slot * dtSlotSize + 6 + readLE t.data (slot * dtSlotSize + 5) 1 * 2 ≤ t.data.length) :
    ∃ entry, t.readEntry (slot * dtSlotSize) = .ok entry := by
  unfold readEntry
  rw [parseLdtEntry_of_le hin]
  simp only [bind, Except.bind, sliceOrPanic_of_le hfits]
  exact ⟨_, rfl⟩

theorem readEntry_panic
    (hfits : ¬ slot * dtSlotSize + 6 + readLE t.data (slot * dtSlotSize + 5) 1 * 2 ≤ t.data.length) :
    t.readEntry (slot * dtSlotSize) = .error .panic := by
  have hslice : sliceOrPanic t.data (slot * dtSlotSize + 6)
      (readLE t.data (slot * dtSlotSize + 5) 1 * 2) = .error .panic := if_neg hfits
  unfold readEntry
  rw [parseLdtEntry_of_le hin]
  simp only [bind, Except.bind, hslice]

end Reading

/-- **`entries` panics** exactly at a name that does not fit. -/
theorem entries_ne_panic_iff (t : Dtree) : t.entries ≠ .error .panic ↔ t.NamesFit := by
  unfold entries NamesFit
  induction t.readStbl t.nextIndex with
  | nil => simp [entriesIn]
  | cons slot rest ih =>
      rw [List.forall_mem_cons, ← ih]
      by_cases hin : slot * dtSlotSize + dtSlotSize ≤ t.data.length
      · have hstep : t.entriesIn (slot :: rest) = (do
            let entry ← t.readEntry (slot * dtSlotSize)
            return entry :: (← t.entriesIn rest)) := if_neg (Nat.not_lt.mpr hin)
        rw [hstep]
        by_cases hfits : slot * dtSlotSize + 6 + readLE t.data (slot * dtSlotSize + 5) 1 * 2 ≤ t.data.length
        · obtain ⟨entry, hentry⟩ := exists_readEntry hin hfits
          rw [hentry, and_iff_right fun _ => hfits]
          cases hrest : t.entriesIn rest with
          | ok listed => simp [bind, Except.bind, pure, Except.pure]
          | error e => simp [bind, Except.bind]
        · rw [readEntry_panic hin hfits]
          exact iff_of_false (fun h => h rfl) fun h => hfits (h.1 hin)
      · have hskip : t.entriesIn (slot :: rest) = t.entriesIn rest := if_pos (Nat.not_le.mp hin)
        rw [hskip, and_iff_right fun h => absurd h hin]

/-! ## The other methods -/

variable {t : Dtree}

theorem lookupIn_ne_panic {name : List UInt16} {slots : List ℕ}
    (h : ∀ slot ∈ slots, slot * dtSlotSize + dtSlotSize ≤ t.data.length →
      slot * dtSlotSize + 6 + readLE t.data (slot * dtSlotSize + 5) 1 * 2 ≤ t.data.length) :
    t.lookupIn name slots ≠ .error .panic := by
  induction slots with
  | nil => simp [lookupIn]
  | cons slot rest ih =>
      obtain ⟨hslot, hrest⟩ := List.forall_mem_cons.mp h
      unfold lookupIn
      split
      · exact ih hrest
      · next hin =>
          obtain ⟨entry, hentry⟩ := exists_readEntry (Nat.not_lt.mp hin) (hslot (Nat.not_lt.mp hin))
          rw [hentry]
          change (if entry.name = name then .ok (some entry) else t.lookupIn name rest) ≠ _
          split
          · simp
          · exact ih hrest

theorem NamesFit.lookup_ne_panic (h : t.NamesFit) (name : List UInt16) : t.lookup name ≠ .error .panic := by
  unfold lookup
  split
  · simp
  · exact lookupIn_ne_panic h

/-- The program does not panic when it starts with `t`. -/
def SafeAt {α : Type} (x : DtreeM α) (t : Dtree) : Prop :=
  ∀ t', x t ≠ .error .panic t'

section SafeAt

variable {α β : Type}

theorem SafeAt.bind {x : DtreeM α} {f : α → DtreeM β} (hx : SafeAt x t)
    (hf : ∀ a t', x t = .ok a t' → SafeAt (f a) t') : SafeAt (x >>= f) t := by
  intro t' hpanic
  cases hrun : x t with
  | ok a t₁ =>
      rw [bind_ok hrun] at hpanic
      exact hf a t₁ hrun t' hpanic
  | error e t₁ =>
      rw [bind_error hrun] at hpanic
      cases hpanic
      exact hx t' hrun

theorem safeAt_pure (a : α) : SafeAt (pure a) t :=
  fun _ h => by cases h

theorem safeAt_get : SafeAt (get : DtreeM Dtree) t :=
  fun _ h => by cases h

theorem safeAt_set (t₁ : Dtree) : SafeAt (set t₁ : DtreeM Unit) t :=
  fun _ h => by cases h

theorem safeAt_other (message : String) : SafeAt (throw (.other message) : DtreeM α) t :=
  fun _ h => by cases h

theorem safeAt_returnExcept {result : Except StorageError α} (h : result ≠ .error .panic) :
    SafeAt (returnExcept result : DtreeM α) t := by
  intro t' hpanic
  cases result with
  | ok a => cases hpanic
  | error e =>
      cases hpanic
      exact h rfl

theorem safeAt_tryCatch_unit {x : DtreeM Unit} : SafeAt (tryCatch x fun _ => return ()) t := by
  intro t' hpanic
  cases hrun : x t with
  | ok a t₁ =>
      rw [tryCatch_ok hrun] at hpanic
      cases hpanic
  | error e t₁ =>
      rw [tryCatch_error hrun] at hpanic
      cases hpanic

end SafeAt

theorem readStblEntry_ne_panic (t : Dtree) (idx : ℕ) : t.readStblEntry idx ≠ .error .panic := by
  unfold readStblEntry
  split <;> simp

theorem safeAt_shiftStbl (count j : ℕ) : SafeAt (shiftStbl j count) t := by
  induction count generalizing j t with
  | zero => exact safeAt_pure ()
  | succ count ih =>
      unfold shiftStbl
      refine safeAt_get.bind fun t₁ _ _ => ?_
      refine (safeAt_returnExcept (readStblEntry_ne_panic t₁ (j + 1))).bind fun slot _ _ => ?_
      exact safeAt_tryCatch_unit.bind fun _ _ _ => ih (j + 1)

theorem safeAt_setNextindex (val : ℕ) : SafeAt (setNextindex val) t := by
  refine safeAt_get.bind fun t₁ _ _ => ?_
  split
  · exact safeAt_set _
  · exact safeAt_pure ()

theorem safeAt_setStblEntry (idx slot : ℕ) : SafeAt (setStblEntry idx slot) t := by
  refine safeAt_get.bind fun t₁ _ _ => ?_
  split
  · exact safeAt_other _
  · exact safeAt_set _

theorem safeAt_removeAt (stblIdx slot : ℕ) (entry : DirEntry) : SafeAt (removeAt stblIdx slot entry) t := by
  unfold removeAt
  refine safeAt_get.bind fun t₁ _ _ => (safeAt_shiftStbl _ _).bind fun _ _ _ => ?_
  refine safeAt_tryCatch_unit.bind fun _ _ _ => (safeAt_setNextindex _).bind fun _ _ _ => ?_
  intro t' hpanic
  cases hpanic

theorem safeAt_removeIn {name : List UInt16} {slots : List ℕ}
    (h : ∀ slot ∈ slots, slot * dtSlotSize + dtSlotSize ≤ t.data.length →
      slot * dtSlotSize + 6 + readLE t.data (slot * dtSlotSize + 5) 1 * 2 ≤ t.data.length) (k : ℕ) :
    SafeAt (removeIn name k slots) t := by
  induction slots generalizing k with
  | nil => exact safeAt_pure _
  | cons slot rest ih =>
      obtain ⟨hslot, hrest⟩ := List.forall_mem_cons.mp h
      unfold removeIn
      intro t'
      rw [bind_ok (get_apply t)]
      split
      · exact ih hrest (k + 1) t'
      · next hin =>
          obtain ⟨entry, hentry⟩ := exists_readEntry (Nat.not_lt.mp hin) (hslot (Nat.not_lt.mp hin))
          rw [hentry, bind_ok (returnExcept_ok entry t)]
          split
          · exact safeAt_removeAt k slot entry t'
          · exact ih hrest (k + 1) t'

theorem NamesFit.safeAt_remove (h : t.NamesFit) (name : List UInt16) : SafeAt (remove name) t := by
  intro t'
  unfold remove
  rw [bind_ok (get_apply t)]
  exact safeAt_removeIn h 0 t'

theorem safeAt_allocSlot (numEntries : ℕ) : SafeAt (allocSlot numEntries) t := by
  refine safeAt_get.bind fun t₁ _ _ => ?_
  simp only
  split
  · exact (safeAt_set _).bind fun _ _ _ => safeAt_pure _
  · exact safeAt_pure _

theorem safeAt_writeLdtEntry (offset : ℕ) (ino : UInt32) (name : List UInt16) (index : UInt32) :
    SafeAt (writeLdtEntry offset ino name index) t := by
  refine safeAt_get.bind fun t₁ _ _ => ?_
  split
  · exact safeAt_other _
  · exact safeAt_set _

theorem NamesFit.safeAt_insert (h : t.NamesFit) (name : List UInt16) (ino index : UInt32) :
    SafeAt (insert name ino index) t := by
  intro t'
  unfold insert
  rw [bind_ok (get_apply t)]
  revert t'
  refine (safeAt_returnExcept (h.lookup_ne_panic name)).bind fun found t₁ _ => ?_
  split
  · exact safeAt_pure _
  · split
    · exact safeAt_pure _
    · refine (safeAt_allocSlot _).bind fun freeSlot _ _ => ?_
      split
      · exact safeAt_pure _
      · refine (safeAt_writeLdtEntry _ ino name index).bind fun _ _ _ => (safeAt_setStblEntry _ _).bind fun _ _ _ => ?_
        exact (safeAt_setNextindex _).bind fun _ _ _ => safeAt_pure _

/-- **No method panics** exactly if the names of the listed slots end in the root. -/
theorem no_panic_iff (t : Dtree) (name : List UInt16) (ino index : UInt32) :
    (t.lookup name ≠ .error .panic ∧ t.entries ≠ .error .panic ∧ SafeAt (insert name ino index) t ∧
      SafeAt (remove name) t) ↔ t.NamesFit :=
  ⟨fun h => (entries_ne_panic_iff t).mp h.2.1, fun h =>
    ⟨h.lookup_ne_panic name, (entries_ne_panic_iff t).mpr h, h.safeAt_insert name ino index, h.safeAt_remove name⟩⟩

/-- A root whose only entry, in slot 8, has a name of 14 units. -/
def longName : List UInt8 :=
  spliceAll [(17, [1]), (24, [8]), (256 + 5, [14])] (zeros 288)

/-- Listing it panics. -/
theorem entries_longName_panics :
    ∃ t, fromInodeData longName = .ok t ∧ t.entries = .error .panic ∧ t.lookup [97] = .error .panic := by
  refine ⟨⟨longName⟩, by decide +kernel, by decide +kernel, by decide +kernel⟩

end Dtree

end JfsFuse
