import JfsFuse.Volume.Core

/-!
# The cached copies of a block

Each inode that was updated has its own copy of its block of the inode table.
`Copies` says which inodes have a copy of a block, in order of use, and what is in
it.  An update changes the copy of its inode, and makes it first when there is none;
a commit writes the copies of the inodes that were marked, in the order of the marks.
-/

namespace JfsFuse

open ByteBuf Program

namespace PageCache

/-- The inodes in `order`, and no others, have a copy of the block in the cache; they
are the entries used last. -/
structure Copies (cache : PageCache) (block : ℕ) (order : List UInt32)
    (data : UInt32 → List UInt8) : Prop where
  keys : ∃ others, cache.keys = order.map (fun i => (i, block)) ++ others ∧
    ∀ key ∈ others, key.2 ≠ block
  data : ∀ i ∈ order, ∃ page, cache.peek (i, block) = some page ∧ page.data = data i

section Copies

variable {cache : PageCache} {block : ℕ} {order : List UInt32} {data : UInt32 → List UInt8}

theorem Copies.mem_keys_iff (h : Copies cache block order data) (ino : UInt32) :
    (ino, block) ∈ cache.keys ↔ ino ∈ order := by
  obtain ⟨others, hkeys, hothers⟩ := h.keys
  rw [hkeys, List.mem_append, List.mem_map]
  constructor
  · rintro (⟨i, hi, heq⟩ | hmem)
    · cases heq
      exact hi
    · exact absurd rfl (hothers _ hmem)
  · intro hi
    exact Or.inl ⟨ino, hi, rfl⟩

theorem Copies.nodup (h : Copies cache block order data) : order.Nodup := by
  obtain ⟨others, hkeys, -⟩ := h.keys
  have hnodup := cache.keys_nodup
  rw [hkeys] at hnodup
  exact List.Nodup.of_map _ (List.nodup_append.mp hnodup).1

/-- A use of a copy, with a change `f` of its data. -/
theorem Copies.touch (h : Copies cache block order data) {ino : UInt32} (hino : ino ∈ order)
    (change : CachedPage → CachedPage) {f : List UInt8 → List UInt8}
    (hchange : ∀ page, (change page).data = f page.data) :
    Copies (cache.modify (ino, block) change) block (ino :: order.filter (· ≠ ino))
      (Function.update data ino (f (data ino))) := by
  obtain ⟨others, hkeys, hothers⟩ := h.keys
  have hmem := (h.mem_keys_iff ino).mpr hino
  refine ⟨⟨others, ?_, hothers⟩, ?_⟩
  · have hself : (order.map fun i => (i, block)).filter (· ≠ (ino, block)) =
        (order.filter (· ≠ ino)).map fun i => (i, block) := by
      rw [List.filter_map]
      exact congrArg _ (List.filter_congr fun i _ => by simp)
    have hrest : others.filter (· ≠ (ino, block)) = others := by
      rw [List.filter_eq_self]
      intro key hkey
      have hne : key ≠ (ino, block) := fun heq => hothers key hkey (congrArg Prod.snd heq)
      simp [hne]
    rw [Lru.keys_modify hmem, hkeys, List.filter_append, hself, hrest]
    rfl
  · intro i hi
    by_cases heq : i = ino
    · subst heq
      obtain ⟨page, hpeek, hdata⟩ := h.data i hino
      refine ⟨change page, ?_, ?_⟩
      · rw [Lru.peek_modify_self, hpeek]
        rfl
      · rw [hchange, hdata, Function.update_self]
    · have hold : i ∈ order := List.mem_of_mem_filter ((List.mem_cons.mp hi).resolve_left heq)
      obtain ⟨page, hpeek, hdata⟩ := h.data i hold
      refine ⟨page, ?_, ?_⟩
      · rw [Lru.peek_modify_ne _ (fun hkey => heq (congrArg Prod.fst hkey)), hpeek]
      · rw [hdata, Function.update_of_ne heq]

/-- A use that changes no data. -/
theorem Copies.use (h : Copies cache block order data) {ino : UInt32} (hino : ino ∈ order)
    (change : CachedPage → CachedPage) (hchange : ∀ page, (change page).data = page.data) :
    Copies (cache.modify (ino, block) change) block (ino :: order.filter (· ≠ ino)) data := by
  have htouch := h.touch hino change (f := id) hchange
  rwa [id, Function.update_eq_self] at htouch

/-- A new copy pushes out a page of another block, if any. -/
theorem Copies.add (h : Copies cache block order data) {ino : UInt32} (hino : ino ∉ order)
    (hroom : order.length < cache.cap) (page : CachedPage) :
    Copies (Lru.put cache (ino, block) page) block (ino :: order)
      (Function.update data ino page.data) := by
  obtain ⟨others, hkeys, hothers⟩ := h.keys
  have hnew : (ino, block) ∉ cache.keys := fun hmem => hino ((h.mem_keys_iff ino).mp hmem)
  have hkept : ∃ rest, cache.kept = order.map (fun i => (i, block)) ++ rest ∧
      ∀ key ∈ rest, key.2 ≠ block := by
    unfold Lru.kept
    rw [hkeys]
    split
    · exact ⟨others, rfl, hothers⟩
    · next hfull =>
        have hne : others ≠ [] := by
          rintro rfl
          rw [List.append_nil, List.length_map] at hfull
          exact hfull hroom
        refine ⟨others.dropLast, List.dropLast_append_of_ne_nil hne, ?_⟩
        exact fun key hkey => hothers key (List.dropLast_subset _ hkey)
  obtain ⟨rest, hkept, hrest⟩ := hkept
  refine ⟨⟨rest, ?_, hrest⟩, ?_⟩
  · rw [Lru.keys_put_of_not_mem hnew, hkept]
    rfl
  · intro i hi
    by_cases heq : i = ino
    · subst heq
      exact ⟨page, Lru.peek_put_self .., by rw [Function.update_self]⟩
    · have hold : i ∈ order := (List.mem_cons.mp hi).resolve_left heq
      obtain ⟨page', hpeek, hdata⟩ := h.data i hold
      refine ⟨page', ?_, ?_⟩
      · rw [Lru.peek_put_of_kept hnew, hpeek]
        rw [hkept]
        exact List.mem_append_left _ (List.mem_map_of_mem hold)
      · rw [hdata, Function.update_of_ne heq]

/-- What a new copy is made from: the copy used last. -/
theorem Copies.otherCopy (h : Copies cache block order data) {ino : UInt32} (hino : ino ∉ order) :
    cache.otherCopy ino block = order.head?.map data := by
  obtain ⟨others, hkeys, hothers⟩ := h.keys
  have hfind : cache.keys.find? (fun key => key.2 == block && key.1 != ino) =
      order.head?.map fun i => (i, block) := by
    rw [hkeys]
    cases order with
    | nil =>
        rw [List.map_nil, List.nil_append, List.head?_nil, Option.map_none, List.find?_eq_none]
        intro key hkey
        simp [hothers key hkey]
    | cons first rest =>
        have hne : first ≠ ino := fun heq => hino (heq ▸ List.mem_cons_self ..)
        rw [List.map_cons, List.cons_append, List.find?_cons_of_pos (by simp [hne])]
        rfl
  unfold PageCache.otherCopy
  rw [Lru.find?_iter cache fun key => key.2 == block && key.1 != ino, hfind]
  cases hfirst : order.head? with
  | none => rfl
  | some first =>
      obtain ⟨page, hpeek, hdata⟩ := h.data first (List.mem_of_mem_head? hfirst)
      rw [Option.map_some, Option.bind_some, hpeek, Option.map_some, Option.map_some, Option.map_some,
        hdata]

end Copies

/-- The data that is cached for an inode and a block. -/
def copyOf (cache : PageCache) (block : ℕ) (ino : UInt32) : Option (List UInt8) :=
  (cache.peek (ino, block)).map CachedPage.data

theorem Copies.copyOf {cache : PageCache} {block : ℕ} {order : List UInt32}
    {data : UInt32 → List UInt8} (h : Copies cache block order data) (ino : UInt32) :
    cache.copyOf block ino = if ino ∈ order then some (data ino) else none := by
  unfold PageCache.copyOf
  split
  · next hino =>
      obtain ⟨page, hpeek, hdata⟩ := h.data ino hino
      rw [hpeek, Option.map_some, hdata]
  · next hino =>
      rw [Lru.peek_eq_none_iff.mpr fun hmem => hino ((h.mem_keys_iff ino).mp hmem)]
      rfl

end PageCache

namespace Volume

open PageCache

section Update

variable {v : Volume} {block : ℕ} {order : List UInt32} {data : UInt32 → List UInt8}
  {original : List UInt8}

/-- What an update of an inode starts from: the copy of the inode, or else the copy
used last, or else the block. -/
def source {α : Type} (order : List UInt32) (data : UInt32 → α) (original : α) (ino : UInt32) : α :=
  if ino ∈ order then data ino else (order.head?.map data).getD original

theorem getPage_apply (v : Volume) (ino : UInt32) (block : ℕ) :
    getPage ino block v = .ok (v.pageCache.peek (ino, block))
      { v with pageCache := (v.pageCache.get (ino, block)).2 } := rfl

theorem loadData_ok (h : Copies v.pageCache block order data) {ino : UInt32} (hino : ino ∉ order)
    (hread : StorageM.readBlock block v.storage = .ok original v.storage) :
    loadData ino block v = .ok ((order.head?.map data).getD original) v := by
  unfold loadData
  rw [bind_ok (get_apply v), h.otherCopy hino]
  cases order.head? with
  | none => exact tryCatch_ok (zoom_ok hread)
  | some first => rfl

/-- After `get_or_load` the inode has a copy, and it was used last. -/
theorem getOrLoad_ok (h : Copies v.pageCache block order data)
    (hroom : order.length < v.pageCache.cap)
    (hread : StorageM.readBlock block v.storage = .ok original v.storage) (ino : UInt32) :
    ∃ page cache, getOrLoad ino block 0 v = .ok page { v with pageCache := cache } ∧
      cache.cap = v.pageCache.cap ∧
      Copies cache block (ino :: order.filter (· ≠ ino))
        (Function.update data ino (source order data original ino)) := by
  unfold getOrLoad
  rw [bind_ok (getPage_apply v ino block)]
  by_cases hino : ino ∈ order
  · obtain ⟨page, hpeek, -⟩ := h.data ino hino
    have hcopies := h.use hino id fun _ => rfl
    rw [hpeek]
    refine ⟨page, _, rfl, Lru.cap_modify .., ?_⟩
    rw [source, if_pos hino, Function.update_eq_self]
    exact hcopies
  · have hnew : (ino, block) ∉ v.pageCache.keys := fun hmem => hino ((h.mem_keys_iff ino).mp hmem)
    have hsame : (v.pageCache.get (ino, block)).2 = v.pageCache := Lru.modify_of_not_mem hnew id
    have hfilter : order.filter (· ≠ ino) = order := by
      rw [List.filter_eq_self]
      intro i hi
      have hne : i ≠ ino := fun heq => hino (heq ▸ hi)
      simp [hne]
    rw [Lru.peek_eq_none_iff.mpr hnew, hsame]
    simp only
    rw [bind_ok (loadData_ok h hino hread)]
    refine ⟨_, _, rfl, Lru.cap_put .., ?_⟩
    rw [source, if_neg hino, hfilter]
    exact h.add hino hroom _

/-- **An update** changes the copy of its inode and leaves the others alone. -/
theorem updateInodePage_ok (h : Copies v.pageCache block order data)
    (hroom : order.length < v.pageCache.cap)
    (hread : StorageM.readBlock block v.storage = .ok original v.storage) (ino : UInt32)
    (pageOffset : ℕ) (update : List UInt8 → List UInt8) :
    ∃ cache, updateInodePage ino block pageOffset update v = .ok () { v with pageCache := cache } ∧
      cache.cap = v.pageCache.cap ∧
      Copies cache block (ino :: order.filter (· ≠ ino))
        (Function.update data ino
          (updateAt pageOffset update (source order data original ino))) := by
  obtain ⟨page, loaded, hload, hcap, hloaded⟩ := getOrLoad_ok h hroom hread ino
  have hfront : ∀ rest : List UInt32, ino :: (ino :: rest.filter (· ≠ ino)).filter (· ≠ ino) =
      ino :: rest.filter (· ≠ ino) := by
    intro rest
    rw [List.filter_cons_of_neg (by simp), List.filter_filter]
    simp
  -- the page is there, so it can be changed and then unpinned
  obtain ⟨found, hpeek, -⟩ := hloaded.data ino (List.mem_cons_self ..)
  have hchanged := hloaded.touch (List.mem_cons_self ..)
    (fun page : CachedPage => { page.pin with data := updateAt pageOffset update page.pin.data })
    (f := updateAt pageOffset update) fun page => rfl
  have hunpinned := hchanged.use (List.mem_cons_self ..) CachedPage.unpin CachedPage.data_unpin
  rw [hfront, hfront, Function.update_self, Function.update_idem] at hunpinned
  refine ⟨_, ?_, ?_, hunpinned⟩
  · unfold updateInodePage
    rw [bind_ok hload, bind_ok (get_apply _)]
    simp only [updateForWrite, hpeek]
    rfl
  · rw [Lru.cap_modify, Lru.cap_modify, hcap]

/-- **A mark** is a use of the copy, if there is one. -/
theorem markPageDirty_ok (h : Copies v.pageCache block order data) {active : ActiveTxn}
    (hactive : v.txMgr.active = some active) (ino : UInt32) :
    ∃ cache, markPageDirty ino block v = .ok ()
        { v with
          pageCache := cache
          txMgr := { v.txMgr with
            active := some { active with
              dirtyPages := if (ino, block) ∈ active.dirtyPages then active.dirtyPages
                else active.dirtyPages ++ [(ino, block)] } } } ∧
      cache.cap = v.pageCache.cap ∧
      Copies cache block (if ino ∈ order then ino :: order.filter (· ≠ ino) else order) data := by
  refine ⟨v.pageCache.markDirtyTxn ino block active.txid, ?_, Lru.cap_modify .., ?_⟩
  · unfold markPageDirty
    rw [bind_ok (get_apply v), hactive]
    rfl
  · unfold markDirtyTxn
    by_cases hino : ino ∈ order
    · rw [if_pos hino]
      exact h.use hino _ fun _ => rfl
    · have hnew : (ino, block) ∉ v.pageCache.keys := fun hmem => hino ((h.mem_keys_iff ino).mp hmem)
      rw [if_neg hino, Lru.modify_of_not_mem hnew]
      exact h

end Update

end Volume

end JfsFuse
