import Mathlib.Data.List.AList

/-!
# Least-recently-used caches

A cache of bounded size is an association list in order of use, the entry used
last in front.  Every access moves its entry to the front, and a new entry pushes
the last one out when the cache is full.

A cache is described by the order of its keys and by `peek`: each operation has
one lemma for each of the two.
-/

/-- A cache of at most `cap` entries. -/
structure Lru (κ υ : Type) [DecidableEq κ] where
  cap : ℕ
  /-- The entries, the one used last in front. -/
  entries : AList fun _ : κ => υ

namespace Lru

variable {κ υ : Type} [DecidableEq κ]

/-- An empty cache. -/
def empty (cap : ℕ) : Lru κ υ :=
  { cap, entries := ∅ }

def keys (c : Lru κ υ) : List κ :=
  c.entries.keys

/-- The value of a key; this is no use of the entry. -/
def peek (c : Lru κ υ) (k : κ) : Option υ :=
  c.entries.lookup k

/-- The entries in order of use. -/
def iter (c : Lru κ υ) : List (κ × υ) :=
  c.entries.entries.map fun e => (e.1, e.2)

/-- The entry that would be pushed out next. -/
def peekLru (c : Lru κ υ) : Option (κ × υ) :=
  c.iter.getLast?

/-- Change the value of a key, if it is there, and move it to the front. -/
def modify (c : Lru κ υ) (k : κ) (f : υ → υ) : Lru κ υ :=
  match c.peek k with
  | none => c
  | some v => { c with entries := c.entries.insert k (f v) }

/-- The value of a key; a use of the entry. -/
def get (c : Lru κ υ) (k : κ) : Option υ × Lru κ υ :=
  (c.peek k, c.modify k id)

/-- The entries without the last one. -/
def evicted (entries : AList fun _ : κ => υ) : AList fun _ : κ => υ :=
  ⟨entries.entries.dropLast, entries.nodupKeys.sublist (List.dropLast_sublist _)⟩

/-- Set the value of a key. -/
def put (c : Lru κ υ) (k : κ) (v : υ) : Lru κ υ :=
  if k ∈ c.entries ∨ c.entries.entries.length < c.cap then
    { c with entries := c.entries.insert k v }
  else { c with entries := (evicted c.entries).insert k v }

/-- Remove a key. -/
def pop (c : Lru κ υ) (k : κ) : Lru κ υ :=
  { c with entries := c.entries.erase k }

/-! ## Keys and values -/

theorem mem_keys_iff {c : Lru κ υ} {k : κ} : k ∈ c.keys ↔ ∃ v, c.peek k = some v := by
  rw [← Option.isSome_iff_exists]
  exact AList.lookup_isSome.symm

theorem peek_eq_none_iff {c : Lru κ υ} {k : κ} : c.peek k = none ↔ k ∉ c.keys :=
  AList.lookup_eq_none

theorem keys_nodup (c : Lru κ υ) : c.keys.Nodup :=
  c.entries.keys_nodup

theorem erase_keys (c : Lru κ υ) (k : κ) : c.keys.erase k = c.keys.filter (· ≠ k) := by
  rw [c.keys_nodup.erase_eq_filter]
  exact List.filter_congr fun _ _ => by simp [bne, BEq.beq]

theorem modify_of_not_mem {c : Lru κ υ} {k : κ} (h : k ∉ c.keys) (f : υ → υ) : c.modify k f = c := by
  rw [modify, peek_eq_none_iff.mpr h]

theorem keys_modify {c : Lru κ υ} {k : κ} (h : k ∈ c.keys) (f : υ → υ) :
    (c.modify k f).keys = k :: c.keys.filter (· ≠ k) := by
  obtain ⟨v, hv⟩ := mem_keys_iff.mp h
  rw [modify, hv, ← erase_keys]
  exact AList.keys_insert _

@[simp] theorem peek_modify_self (c : Lru κ υ) (k : κ) (f : υ → υ) :
    (c.modify k f).peek k = (c.peek k).map f := by
  cases h : c.peek k with
  | none => rw [modify, h, h]; rfl
  | some v =>
      rw [modify, h]
      exact AList.lookup_insert _

theorem peek_modify_ne (c : Lru κ υ) {k k' : κ} (h : k' ≠ k) (f : υ → υ) :
    (c.modify k f).peek k' = c.peek k' := by
  unfold modify
  split
  · rfl
  · exact AList.lookup_insert_ne h

@[simp] theorem cap_modify (c : Lru κ υ) (k : κ) (f : υ → υ) : (c.modify k f).cap = c.cap := by
  unfold modify
  split <;> rfl

@[simp] theorem peek_get (c : Lru κ υ) (k k' : κ) : (c.get k).2.peek k' = c.peek k' := by
  by_cases h : k' = k
  · rw [h]
    exact (c.peek_modify_self k id).trans Option.map_id'
  · exact c.peek_modify_ne h id

@[simp] theorem keys_pop (c : Lru κ υ) (k : κ) : (c.pop k).keys = c.keys.filter (· ≠ k) := by
  rw [← erase_keys]
  exact AList.keys_erase ..

theorem peek_pop_ne (c : Lru κ υ) {k k' : κ} (h : k' ≠ k) : (c.pop k).peek k' = c.peek k' :=
  AList.lookup_erase_ne h

@[simp] theorem peek_pop_self (c : Lru κ υ) (k : κ) : (c.pop k).peek k = none :=
  AList.lookup_erase ..

/-! ## New entries -/

@[simp] theorem cap_put (c : Lru κ υ) (k : κ) (v : υ) : (c.put k v).cap = c.cap := by
  unfold put
  split <;> rfl

@[simp] theorem peek_put_self (c : Lru κ υ) (k : κ) (v : υ) : (c.put k v).peek k = some v := by
  unfold put
  split <;> exact AList.lookup_insert _

omit [DecidableEq κ] in
theorem keys_evicted (entries : AList fun _ : κ => υ) :
    (evicted entries).keys = entries.keys.dropLast :=
  List.map_dropLast

/-- The keys that stay when `k` is added. -/
def kept (c : Lru κ υ) : List κ :=
  if c.keys.length < c.cap then c.keys else c.keys.dropLast

theorem keys_put_of_not_mem {c : Lru κ υ} {k : κ} (h : k ∉ c.keys) (v : υ) :
    (c.put k v).keys = k :: c.kept := by
  have hlen : c.entries.entries.length = c.keys.length := (List.length_map _).symm
  unfold put kept
  by_cases hfull : c.keys.length < c.cap
  · rw [if_pos (Or.inr (by rwa [hlen])), if_pos hfull]
    refine (AList.keys_insert _).trans ?_
    change k :: c.keys.erase k = _
    rw [List.erase_of_not_mem h]
  · rw [if_neg (by rw [hlen]; exact not_or.mpr ⟨h, hfull⟩), if_neg hfull]
    refine (AList.keys_insert _).trans ?_
    rw [keys_evicted]
    change k :: c.keys.dropLast.erase k = _
    rw [List.erase_of_not_mem fun hmem => h (List.dropLast_subset _ hmem)]

theorem peek_put_of_kept {c : Lru κ υ} {k k' : κ} (h : k ∉ c.keys) (hk : k' ∈ c.kept) (v : υ) :
    (c.put k v).peek k' = c.peek k' := by
  have hlen : c.entries.entries.length = c.keys.length := (List.length_map _).symm
  unfold kept at hk
  unfold put
  by_cases hfull : c.keys.length < c.cap
  · rw [if_pos hfull] at hk
    rw [if_pos (Or.inr (by rwa [hlen]))]
    exact AList.lookup_insert_ne fun heq => h (heq ▸ hk)
  · rw [if_neg hfull] at hk
    have hne : k' ≠ k := fun heq => h (heq ▸ List.dropLast_subset _ hk)
    rw [if_neg (by rw [hlen]; exact not_or.mpr ⟨h, hfull⟩)]
    obtain ⟨v', hv'⟩ := mem_keys_iff.mp (List.dropLast_subset _ hk)
    refine (AList.lookup_insert_ne hne).trans ?_
    -- the entry is in the part that stays, and keys occur once
    have hmem : k' ∈ evicted c.entries := by
      rw [AList.mem_keys, keys_evicted]
      exact hk
    obtain ⟨w, hw⟩ := Option.isSome_iff_exists.mp (AList.lookup_isSome.mpr hmem)
    have hsub : c.entries.lookup k' = some w :=
      List.sublist_dlookup c.entries.nodupKeys (List.dropLast_sublist _) hw
    rw [hw]
    exact hsub.symm

theorem peek_put_of_mem {c : Lru κ υ} {k k' : κ} (hmem : k ∈ c.keys) (hne : k' ≠ k) (v : υ) :
    (c.put k v).peek k' = c.peek k' := by
  have hin : k ∈ c.entries := hmem
  unfold put
  rw [if_pos (Or.inl hin)]
  exact AList.lookup_insert_ne hne

/-- A new entry leaves another one alone, or pushes it out. -/
theorem peek_put_ne (c : Lru κ υ) {k k' : κ} (hne : k' ≠ k) (v : υ) :
    (c.put k v).peek k' = c.peek k' ∨ (c.put k v).peek k' = none := by
  by_cases hmem : k ∈ c.keys
  · exact Or.inl (peek_put_of_mem hmem hne v)
  · by_cases hkept : k' ∈ c.kept
    · exact Or.inl (peek_put_of_kept hmem hkept v)
    · right
      rw [peek_eq_none_iff, keys_put_of_not_mem hmem]
      exact List.not_mem_cons_of_ne_of_not_mem hne hkept

theorem head?_keys_put (c : Lru κ υ) (k : κ) (v : υ) : (c.put k v).keys.head? = some k := by
  unfold put
  split <;> exact congrArg List.head? (AList.keys_insert _)

theorem head?_keys_modify {c : Lru κ υ} {k : κ} (h : k ∈ c.keys) (f : υ → υ) :
    (c.modify k f).keys.head? = some k := by
  rw [keys_modify h]
  rfl

/-- The entry used last is not the one that is pushed out. -/
theorem head_mem_kept {c : Lru κ υ} (hcap : 2 ≤ c.cap) {k : κ} (h : c.keys.head? = some k) :
    k ∈ c.kept := by
  obtain ⟨rest, hrest⟩ := List.head?_eq_some_iff.mp h
  unfold kept
  split
  · rw [hrest]
    exact List.mem_cons_self ..
  · next hfull =>
      have hne : rest ≠ [] := by
        rintro rfl
        rw [hrest, List.length_singleton] at hfull
        omega
      rw [hrest, List.dropLast_cons_of_ne_nil hne]
      exact List.mem_cons_self ..

/-! ## The entry that is pushed out -/

/-- The entries are the keys with their values. -/
theorem mem_iter {c : Lru κ υ} {k : κ} {v : υ} : (k, v) ∈ c.iter ↔ c.peek k = some v := by
  unfold iter
  rw [List.mem_map]
  constructor
  · rintro ⟨⟨k', v'⟩, hmem, heq⟩
    obtain ⟨rfl, rfl⟩ := Prod.mk.inj heq
    exact AList.mem_lookup_iff.mpr hmem
  · exact fun h => ⟨⟨k, v⟩, AList.mem_lookup_iff.mp h, rfl⟩

theorem keys_eq_map_iter (c : Lru κ υ) : c.keys = c.iter.map Prod.fst := by
  unfold iter
  rw [List.map_map]
  rfl

theorem getLast?_keys (c : Lru κ υ) : c.keys.getLast? = c.peekLru.map Prod.fst := by
  rw [keys_eq_map_iter, List.getLast?_map]
  rfl

theorem peek_of_peekLru {c : Lru κ υ} {k : κ} {v : υ} (h : c.peekLru = some (k, v)) : c.peek k = some v :=
  mem_iter.mp (List.mem_of_getLast? h)

/-- An entry stays, or it is the last one of a full cache. -/
theorem mem_kept_or_peekLru {c : Lru κ υ} {k : κ} {v : υ} (h : c.peek k = some v) :
    k ∈ c.kept ∨ c.cap ≤ c.keys.length ∧ c.peekLru = some (k, v) := by
  have hmem : k ∈ c.keys := mem_keys_iff.mpr ⟨v, h⟩
  unfold kept
  split
  · exact .inl hmem
  · next hfull =>
      cases hlast : c.peekLru with
      | none =>
          have hnil := c.getLast?_keys
          rw [hlast, Option.map_none, List.getLast?_eq_none_iff] at hnil
          rw [hnil] at hmem
          cases hmem
      | some victim =>
          obtain ⟨k', v'⟩ := victim
          have hsplit := c.getLast?_keys
          rw [hlast, Option.map_some] at hsplit
          obtain ⟨front, hfront⟩ := List.getLast?_eq_some_iff.mp hsplit
          rw [hfront, List.mem_append, List.mem_singleton] at hmem
          rw [show c.keys.dropLast = front by rw [hfront, List.dropLast_concat]]
          refine hmem.imp id fun heq => ⟨Nat.not_lt.mp hfull, ?_⟩
          have heq : k = k' := heq
          subst heq
          rw [Option.some.inj (h.symm.trans (peek_of_peekLru hlast))]

/-- **A new entry pushes the last one out** of a full cache. -/
theorem peek_put_of_peekLru {c : Lru κ υ} {k k' : κ} {v' : υ} (h : k ∉ c.keys) (hfull : c.cap ≤ c.keys.length)
    (hlast : c.peekLru = some (k', v')) (v : υ) : (c.put k v).peek k' = none := by
  have hsplit := c.getLast?_keys
  rw [hlast, Option.map_some] at hsplit
  obtain ⟨front, hfront⟩ := List.getLast?_eq_some_iff.mp hsplit
  have hnodup := c.keys_nodup
  rw [hfront] at hnodup
  have hmem : k' ∈ c.keys := mem_keys_iff.mpr ⟨v', peek_of_peekLru hlast⟩
  rw [peek_eq_none_iff, keys_put_of_not_mem h]
  unfold kept
  rw [if_neg (Nat.not_lt.mpr hfull), hfront, List.dropLast_concat]
  refine List.not_mem_cons_of_ne_of_not_mem (fun heq => h (heq ▸ hmem)) fun hfrontmem => ?_
  exact (List.nodup_append.mp hnodup).2.2 _ hfrontmem _ (List.mem_singleton_self _) rfl

/-! ## Searching in order of use -/

/-- The first entry whose key satisfies `p`. -/
theorem find?_iter (c : Lru κ υ) (p : κ → Bool) :
    (c.iter.find? fun e => p e.1) = (c.keys.find? p).bind fun k => (c.peek k).map fun v => (k, v) := by
  have hgen : ∀ entries : List (Sigma fun _ : κ => υ), entries.NodupKeys →
      ((entries.map fun e => (e.1, e.2)).find? fun e => p e.1) =
        (entries.keys.find? p).bind fun k => (List.dlookup k entries).map fun v => (k, v) := by
    intro entries hnodup
    induction entries with
    | nil => rfl
    | cons e rest ih =>
        obtain ⟨k, v⟩ := e
        rw [List.map_cons, List.keys_cons]
        by_cases hp : p k = true
        · have hleft := List.find?_cons_of_pos (p := fun e : κ × υ => p e.1) (a := (k, v))
            (l := rest.map fun e => (e.1, e.2)) hp
          rw [List.find?_cons_of_pos hp, Option.bind_some, List.dlookup_cons_eq]
          exact hleft
        · have hleft := List.find?_cons_of_neg (p := fun e : κ × υ => p e.1) (a := (k, v))
            (l := rest.map fun e => (e.1, e.2)) hp
          have hright : ((rest.keys.find? p).bind fun k' =>
              (List.dlookup k' (⟨k, v⟩ :: rest)).map fun v => (k', v)) =
              (rest.keys.find? p).bind fun k' => (List.dlookup k' rest).map fun v => (k', v) := by
            refine Option.bind_congr fun k' hk' => ?_
            have hne : k' ≠ k := by
              rintro rfl
              exact hp (List.find?_some hk')
            rw [List.dlookup_cons_ne rest ⟨k, v⟩ hne]
          rw [List.find?_cons_of_neg hp, hright, ← ih (List.nodupKeys_cons.mp hnodup).2]
          exact hleft
  exact hgen c.entries.entries c.entries.nodupKeys

end Lru
