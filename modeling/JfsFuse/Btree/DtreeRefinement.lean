import JfsFuse.Btree.DtreeSlots
import Mathlib.Data.Finmap

/-!
# A directory root against a finite map

The purpose of a directory root is to be a finite map from names to inode
numbers.  `Refines ops t m` says that running the operations `ops` on the root
`t` keeps it in step with the map `m`: before the first and after every
operation, lookups and listings agree with the map, and every operation returns
what the map says.

`alloc_slot` finds the free list empty, since `remove` never fills it, and takes
the slot after as many slots as there are entries.  After an entry other than
the last was removed, that slot may be in use.  The root refines the map on
exactly the sequences in which this never happens (`refines_iff`).

The induction is over the operations.  The invariant is `Represents`: the shown
entries are the pairs of the map, in distinct slots.
-/

namespace JfsFuse

open ByteBuf Program

/-! ## The abstract directory -/

/-- A directory as a finite map from names to inode numbers. -/
abbrev DirMap := Finmap fun _ : List UInt16 => UInt32

/-- A name as every caller of the directory checks it: 1 to 11 units. -/
structure DirName where
  units : List UInt16
  pos : 0 < units.length
  bound : units.length ≤ 11

/-- The two operations that change a directory. -/
inductive DirOp
  | insert (name : DirName) (ino index : UInt32)
  | remove (name : DirName)

/-- The pair of the map that an entry stands for. -/
def DirEntry.pair (e : DirEntry) : Σ _ : List UInt16, UInt32 :=
  ⟨e.name, e.inumber⟩

namespace DirMap

/-- A name is added when it is absent and fewer than 8 names are present. -/
def Accepts (m : DirMap) (name : List UInt16) : Prop :=
  name ∉ m ∧ m.entries.card < 8

instance (m : DirMap) (name : List UInt16) : Decidable (m.Accepts name) :=
  inferInstanceAs (Decidable (_ ∧ _))

/-- The map after an insertion. -/
def add (m : DirMap) (name : List UInt16) (ino : UInt32) : DirMap :=
  if m.Accepts name then m.insert name ino else m

end DirMap

namespace Dtree

/-- Every lookup gives the map's inode number, and `entries` lists exactly the
pairs of the map, each once. -/
def Agrees (t : Dtree) (m : DirMap) : Prop :=
  (∀ name, ∃ found, t.lookup name = .ok found ∧
    found.map DirEntry.inumber = m.lookup name) ∧
  ∃ listed, t.entries = .ok listed ∧ (listed.map DirEntry.pair : Multiset _) = m.entries

/-- The root `t` stays in step with the map `m` along `ops`. -/
def Refines : List DirOp → Dtree → DirMap → Prop
  | [], t, m => Agrees t m
  | .insert name ino index :: ops, t, m =>
      Agrees t m ∧ ∃ t', insert name.units ino index t = .ok (m.Accepts name.units) t' ∧
        Refines ops t' (m.add name.units ino)
  | .remove name :: ops, t, m =>
      Agrees t m ∧ ∃ t', remove name.units t = .ok (m.lookup name.units) t' ∧
        Refines ops t' (m.erase name.units)

/-- An insertion of `name` would take the slot after as many slots as there
are entries, and that slot is in use. -/
def Overwrites (t : Dtree) (name : List UInt16) : Prop :=
  (t.lookup name).toOption = some none ∧ t.nextIndex < 8 ∧
    t.nextIndex + 1 ∈ t.readStbl t.nextIndex

instance (t : Dtree) (name : List UInt16) : Decidable (t.Overwrites name) :=
  inferInstanceAs (Decidable (_ ∧ _))

/-- No insertion along `ops` overwrites a slot in use. -/
def NeverOverwrites : List DirOp → Dtree → Prop
  | [], _ => True
  | .insert name ino index :: ops, t =>
      ¬ t.Overwrites name.units ∧ NeverOverwrites ops (final (insert name.units ino index t))
  | .remove name :: ops, t => NeverOverwrites ops (final (remove name.units t))

/-- The root is empty and has no free list, as `mkfs` writes it. -/
def IsEmptyRoot (t : Dtree) : Prop :=
  t.data.length = 288 ∧ t.nextIndex = 0 ∧ readLE t.data 18 1 = 0 ∧ readLE t.data 19 1 = 0

theorem Refines.agrees {ops : List DirOp} {t : Dtree} {m : DirMap} (h : Refines ops t m) :
    Agrees t m := by
  cases ops with
  | nil => exact h
  | cons op ops =>
      cases op with
      | insert name ino index => exact h.1
      | remove name => exact h.1

/-! ## The invariant -/

/-- The shown entries are the pairs of the map and live in distinct slots. -/
structure Represents (t : Dtree) (live : List (ℕ × DirEntry)) (m : DirMap) : Prop where
  shows : Shows t live
  slots : (live.map Prod.fst).Nodup
  pairs : (live.map fun p => p.2.pair : Multiset _) = m.entries

namespace Represents

variable {t : Dtree} {live : List (ℕ × DirEntry)} {m : DirMap}

theorem card (h : Represents t live m) : m.entries.card = live.length := by
  rw [← h.pairs, Multiset.coe_card, List.length_map]

theorem nodupKeys (h : Represents t live m) : (live.map fun p => p.2.pair).NodupKeys := by
  have hnodup := m.nodupKeys
  rwa [← h.pairs, Multiset.coe_nodupKeys] at hnodup

theorem eq_toFinmap (h : Represents t live m) :
    m = AList.toFinmap ⟨live.map fun p => p.2.pair, h.nodupKeys⟩ :=
  Finmap.ext h.pairs.symm

/-- The map's lookup is the search through the shown entries. -/
theorem lookup_map (h : Represents t live m) (name : List UInt16) :
    m.lookup name =
      ((live.map Prod.snd).find? fun e => e.name = name).map DirEntry.inumber := by
  have hsearch : ∀ part : List (ℕ × DirEntry), (part.map fun p => p.2.pair).dlookup name =
      ((part.map Prod.snd).find? fun e => e.name = name).map DirEntry.inumber := by
    intro part
    induction part with
    | nil => rfl
    | cons p rest ih =>
        by_cases hname : p.2.name = name
        · subst hname
          rw [List.map_cons, List.map_cons, List.find?_cons_of_pos (by simp)]
          exact List.dlookup_cons_eq (β := fun _ => UInt32) _ p.2.name p.2.inumber
        · rw [List.map_cons, List.map_cons, List.find?_cons_of_neg (by simpa using hname), ← ih]
          exact List.dlookup_cons_ne _ p.2.pair (Ne.symm hname)
  rw [h.eq_toFinmap, Finmap.lookup_toFinmap]
  exact hsearch live

theorem mem_iff (h : Represents t live m) (name : List UInt16) :
    name ∈ m ↔ ∃ p ∈ live, p.2.name = name := by
  rw [Finmap.mem_def, ← h.pairs, Multiset.coe_keys, Multiset.mem_coe, List.keys, List.map_map,
    List.mem_map]
  rfl

theorem find?_eq_none (h : Represents t live m) {name : List UInt16} (hname : name ∉ m) :
    (live.map Prod.snd).find? (fun e => e.name = name) = none := by
  rw [List.find?_eq_none]
  intro e he hmatch
  obtain ⟨p, hp, rfl⟩ := List.mem_map.mp he
  exact hname ((h.mem_iff name).mpr ⟨p, hp, by simpa using hmatch⟩)

/-- **A represented map agrees with the root.** -/
theorem agrees (h : Represents t live m) : Agrees t m := by
  refine ⟨fun name => ⟨_, h.shows.lookup name, (h.lookup_map name).symm⟩,
    live.map Prod.snd, h.shows.entries, ?_⟩
  rw [List.map_map]
  exact h.pairs

theorem overwrites_iff (h : Represents t live m) (name : List UInt16) :
    t.Overwrites name ↔ m.Accepts name ∧ live.length + 1 ∈ live.map Prod.fst := by
  have hlookup : (t.lookup name).toOption = some none ↔ name ∉ m := by
    rw [h.shows.lookup, Except.toOption, ← Finmap.lookup_eq_none, h.lookup_map,
      Option.map_eq_none_iff, Option.some_inj]
  rw [Overwrites, hlookup, h.shows.readStbl, h.shows.nextIndex, DirMap.Accepts, h.card]
  exact and_assoc.symm

/-! ## One operation -/

theorem insert_refused (h : Represents t live m) {name : DirName} (ino index : UInt32)
    (hrefused : ¬ m.Accepts name.units) : insert name.units ino index t = .ok false t := by
  by_cases hmem : name.units ∈ m
  · refine h.shows.insert_present ino index ?_
    rwa [← Finmap.lookup_isSome, h.lookup_map, Option.isSome_map] at hmem
  · have hfull : ¬ m.entries.card < 8 := fun hroom => hrefused ⟨hmem, hroom⟩
    rw [h.card] at hfull
    exact h.shows.insert_full ino index (h.find?_eq_none hmem) (by omega)

/-- An accepted insertion shows the new entry in its slot and in every place
that listed this slot. -/
theorem insert_accepted (h : Represents t live m) {name : DirName} (ino index : UInt32)
    (haccept : m.Accepts name.units) :
    ∃ t', insert name.units ino index t = .ok true t' ∧
      Shows t' (placed live (live.length + 1) ⟨ino, name.units, index⟩) := by
  have hroom := haccept.2
  rw [h.card] at hroom
  exact h.shows.insert_absent ino index name.bound (h.find?_eq_none haccept.1) hroom

theorem placed_of_free {slot : ℕ} {entry : DirEntry} (hfree : slot ∉ live.map Prod.fst) :
    placed live slot entry = live ++ [(slot, entry)] := by
  have hkeep : live.map (fun p => if p.1 = slot then (slot, entry) else p) = live := by
    refine (List.map_congr_left fun p hp => ?_).trans (List.map_id live)
    exact if_neg fun hslot => hfree (List.mem_map.mpr ⟨p, hp, hslot⟩)
  rw [placed, hkeep]

/-- In a free slot, the new root represents the map with the new pair. -/
theorem insert_free (h : Represents t live m) {t' : Dtree} {name : List UInt16}
    {ino index : UInt32} (haccept : m.Accepts name)
    (hshows : Shows t' (placed live (live.length + 1) ⟨ino, name, index⟩))
    (hfree : live.length + 1 ∉ live.map Prod.fst) :
    Represents t' (live ++ [(live.length + 1, ⟨ino, name, index⟩)]) (m.insert name ino) := by
  rw [placed_of_free hfree] at hshows
  refine ⟨hshows, ?_, ?_⟩
  · rw [List.map_append, List.nodup_append]
    refine ⟨h.slots, List.nodup_singleton _, ?_⟩
    intro slot hslot other hother heq
    rw [List.map_singleton, List.mem_singleton] at hother
    rw [heq, hother] at hslot
    exact hfree hslot
  · rw [Finmap.entries_insert_of_notMem haccept.1, ← h.pairs, List.map_append, Multiset.cons_coe,
      Multiset.coe_eq_coe]
    exact List.perm_append_singleton _ _

/-- In a slot in use, the name that lived there is lost. -/
theorem not_agrees_of_overwrite (h : Represents t live m) {t' : Dtree} {name : List UInt16}
    {ino index : UInt32} (haccept : m.Accepts name)
    (hshows : Shows t' (placed live (live.length + 1) ⟨ino, name, index⟩))
    (hused : live.length + 1 ∈ live.map Prod.fst) : ¬ Agrees t' (m.insert name ino) := by
  intro hagrees
  obtain ⟨p, hp, hslot⟩ := List.mem_map.mp hused
  have hold : p.2.name ∈ m := (h.mem_iff _).mpr ⟨p, hp, rfl⟩
  have hne : p.2.name ≠ name := fun heq => haccept.1 (heq ▸ hold)
  -- no entry of the new root has the old name
  have hgone : ((placed live (live.length + 1) ⟨ino, name, index⟩).map Prod.snd).find?
      (fun e => e.name = p.2.name) = none := by
    rw [List.find?_eq_none]
    intro e he hmatch
    obtain ⟨q, hq, rfl⟩ := List.mem_map.mp he
    have hname : q.2.name = p.2.name := by simpa using hmatch
    rcases mem_placed hq with rfl | ⟨hlive, hother⟩
    · exact hne hname.symm
    · have hsame : q = p := by
        refine List.inj_on_of_nodup_map (f := fun r : ℕ × DirEntry => r.2.name) ?_ hlive hp hname
        have hkeys := h.nodupKeys
        rwa [List.NodupKeys, List.keys, List.map_map] at hkeys
      exact hother (hsame ▸ hslot)
  obtain ⟨found, hfound, hmap⟩ := hagrees.1 p.2.name
  rw [hshows.lookup, hgone] at hfound
  cases hfound
  rw [Finmap.lookup_insert_of_ne _ hne] at hmap
  exact Finmap.lookup_eq_none.mp hmap.symm hold

/-- **A removal returns the map's value and drops exactly its pair.** -/
theorem remove (h : Represents t live m) (name : List UInt16) :
    ∃ t' live', remove name t = .ok (m.lookup name) t' ∧
      Represents t' live' (m.erase name) := by
  by_cases hmem : name ∈ m
  · -- split the shown entries at the first, and only, entry of that name
    obtain ⟨p, hp, rfl⟩ := (h.mem_iff name).mp hmem
    obtain ⟨before, after, rfl⟩ := List.append_of_mem hp
    have hnodup := h.nodupKeys
    have hslots := h.slots
    rw [List.NodupKeys, List.keys, List.map_map, List.map_append, List.map_cons,
      List.nodup_middle, List.nodup_cons] at hnodup
    rw [List.map_append, List.map_cons, List.nodup_middle, List.nodup_cons,
      ← List.map_append] at hslots
    have hfirst : ∀ q ∈ before, q.2.name ≠ p.2.name := fun q hq heq =>
      hnodup.1 (List.mem_append_left _ (List.mem_map.mpr ⟨q, hq, heq⟩))
    have hother : ∀ q ∈ before ++ after, q.1 ≠ p.1 := fun q hq heq =>
      hslots.1 (List.mem_map.mpr ⟨q, hq, heq⟩)
    obtain ⟨t', hrun, hlists, hfree⟩ := h.shows.lists.remove_present hfirst hother
    have hshows := hlists.shows (hfree.trans h.shows.freecnt)
    have hlookup : m.lookup p.2.name = some p.2.inumber := by
      have hskip : (before.map Prod.snd).find? (fun e => e.name = p.2.name) = none := by
        rw [List.find?_eq_none]
        intro e he hmatch
        obtain ⟨q, hq, rfl⟩ := List.mem_map.mp he
        exact hfirst q hq (by simpa using hmatch)
      rw [h.lookup_map, List.map_append, List.find?_append, hskip, List.map_cons,
        List.find?_cons_of_pos (by simp)]
      rfl
    refine ⟨t', before ++ after, by rw [hlookup, hrun], hshows, hslots.2, ?_⟩
    have herase : (m.erase p.2.name).entries =
        ((before ++ p :: after).map fun q => q.2.pair).kerase p.2.name := by
      rw [h.eq_toFinmap, Finmap.erase_toFinmap]
      rfl
    have hskip : p.2.name ∉ (before.map fun q => q.2.pair).keys := by
      rw [List.keys, List.map_map, List.mem_map]
      rintro ⟨q, hq, heq⟩
      exact hfirst q hq heq
    rw [herase, List.map_append, List.map_append, List.map_cons, List.kerase_append_right hskip,
      List.kerase_cons_eq (show p.2.name = p.2.pair.1 from rfl)]
  · have habsent : ∀ p ∈ live, p.2.name ≠ name := fun p hp heq =>
      hmem ((h.mem_iff name).mpr ⟨p, hp, heq⟩)
    have herase : m.erase name = m := by
      refine Finmap.ext_lookup fun other => ?_
      by_cases heq : other = name
      · rw [heq, Finmap.lookup_erase, Finmap.lookup_eq_none.mpr hmem]
      · rw [Finmap.lookup_erase_ne heq]
    refine ⟨t, live, ?_, herase.symm ▸ h⟩
    rw [h.shows.lists.remove_absent habsent, Finmap.lookup_eq_none.mpr hmem]

/-! ## Whole runs -/

/-- Along any operations, a root that represents a map stays in step with it
exactly when no insertion overwrites a slot in use. -/
theorem refines_iff (h : Represents t live m) (ops : List DirOp) :
    Refines ops t m ↔ NeverOverwrites ops t := by
  induction ops generalizing t live m with
  | nil => exact iff_of_true h.agrees trivial
  | cons op ops ih =>
      cases op with
      | insert name ino index =>
          by_cases haccept : m.Accepts name.units
          · obtain ⟨t', hrun, hshows⟩ := h.insert_accepted ino index haccept
            have hadd : m.add name.units ino = m.insert name.units ino := if_pos haccept
            by_cases hused : live.length + 1 ∈ live.map Prod.fst
            · -- the overwritten name is missing right after this insertion
              refine iff_of_false ?_ fun hsafe =>
                hsafe.1 ((h.overwrites_iff _).mpr ⟨haccept, hused⟩)
              rintro ⟨-, t'', hrun', hrest⟩
              have hsame : t'' = t' := by
                rw [hrun] at hrun'
                exact (EStateM.Result.ok.inj hrun').2.symm
              rw [hsame, hadd] at hrest
              exact h.not_agrees_of_overwrite haccept hshows hused hrest.agrees
            · have hnext := ih (h.insert_free haccept hshows hused)
              have hsafe : ¬ t.Overwrites name.units := fun hover =>
                hused ((h.overwrites_iff _).mp hover).2
              rw [Refines, NeverOverwrites, hrun, hadd, final_ok, ← hnext]
              simp [h.agrees, hsafe, haccept]
          · have hrun := h.insert_refused ino index haccept
            have hadd : m.add name.units ino = m := if_neg haccept
            have hsafe : ¬ t.Overwrites name.units := fun hover =>
              haccept ((h.overwrites_iff _).mp hover).1
            rw [Refines, NeverOverwrites, hrun, hadd, final_ok, ← ih h]
            simp [h.agrees, hsafe, haccept]
      | remove name =>
          obtain ⟨t', live', hrun, hnext⟩ := h.remove name.units
          rw [Refines, NeverOverwrites, hrun, final_ok, ← ih hnext]
          simp [h.agrees]

end Represents

theorem IsEmptyRoot.represents {t : Dtree} (h : IsEmptyRoot t) : Represents t [] ∅ := by
  refine ⟨⟨h.1, h.2.2.1, h.2.1, by simp, ?_, ?_, ?_, ?_⟩, List.nodup_nil, rfl⟩ <;> simp

/-- **A directory root that starts empty refines the finite map along a run
exactly when no insertion of the run overwrites a slot in use.** -/
theorem refines_map_iff (t : Dtree) (hempty : IsEmptyRoot t) (ops : List DirOp) :
    Refines ops t ∅ ↔ NeverOverwrites ops t :=
  hempty.represents.refines_iff ops

/-- The empty root `mkfs` writes: `flag` 0x83 and `idotdot` 2. -/
def mkfsRoot : Dtree :=
  ⟨writeLE (writeLE (zeros 288) 16 1 0x83) 20 4 2⟩

/-- A name of one unit. -/
def oneUnit (unit : UInt16) : DirName :=
  ⟨[unit], by simp, by simp⟩

theorem mkfsRoot_isEmptyRoot : IsEmptyRoot mkfsRoot :=
  ⟨by decide +kernel, by decide +kernel, by decide +kernel, by decide +kernel⟩

theorem refines_map_iff_mkfsRoot : IsEmptyRoot mkfsRoot ∧
    (Refines [.insert (oneUnit 65) 20 0, .remove (oneUnit 65), .insert (oneUnit 66) 21 0]
      mkfsRoot ∅ ↔
    NeverOverwrites [.insert (oneUnit 65) 20 0, .remove (oneUnit 65), .insert (oneUnit 66) 21 0]
      mkfsRoot) :=
  ⟨mkfsRoot_isEmptyRoot, refines_map_iff mkfsRoot mkfsRoot_isEmptyRoot _⟩

/-- With names A and B in slots 1 and 2, removing A leaves one entry, and the
next insertion writes over B in slot 2. -/
theorem not_refines_after_removing_first :
    ¬ Refines [.insert (oneUnit 65) 20 0, .insert (oneUnit 66) 21 0, .remove (oneUnit 65),
      .insert (oneUnit 67) 22 0] mkfsRoot ∅ := by
  rw [mkfsRoot_isEmptyRoot.represents.refines_iff]
  rintro ⟨-, -, hsafe, -⟩
  exact hsafe (by decide +kernel)

end Dtree

end JfsFuse
