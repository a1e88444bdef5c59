import JfsFuse.Volume.CommitEffect
import JfsFuse.Volume.CopyLineage
import JfsFuse.Volume.WriteAhead

/-!
# Updates of inodes in one block

A transaction that updates inodes of one block of the inode table and marks them dirty.
What the commit leaves in the block is the copy whose inode was marked for the first time
last, and this copy has all the updates exactly when they come in sequence.
-/

namespace JfsFuse

open ByteBuf Program

namespace PageCall

/-- A call, with the change `f` that an update makes to the bytes of its inode. -/
def perform (block : ℕ) (slot : UInt32 → ℕ) (f : List UInt8 → List UInt8) : PageCall → VolM Unit
  | update ino => Volume.updateInodePage ino block (slot ino * disize) f
  | mark ino => Volume.markPageDirty ino block

def performAll (block : ℕ) (slot : UInt32 → ℕ) : List (Change (List UInt8)) → VolM Unit
  | [] => return ()
  | (call, f) :: rest => do
      call.perform block slot f
      performAll block slot rest

/-- A transaction of these calls. -/
def transaction (block : ℕ) (slot : UInt32 → ℕ) (changes : List (Change (List UInt8))) :
    VolM CommitResult := do
  let _ ← Volume.beginTransaction
  performAll block slot changes
  Volume.commitTransaction

/-- A change of the bytes of an inode as a change of its block. -/
def onBlock (slot : UInt32 → ℕ) (change : Change (List UInt8)) : Change (List UInt8) :=
  (change.1, Volume.updateAt (slot change.1.ino * disize) change.2)

/-- The updates, one after the other, on the bytes of the block. -/
def updated (slot : UInt32 → ℕ) (changes : List (Change (List UInt8))) (data : List UInt8) :
    List UInt8 :=
  Change.applyAll (changes.map (onBlock slot)) data

/-- The inodes lie in different slots of one block. -/
structure InBlock (slot : UInt32 → ℕ) (calls : List PageCall) : Prop where
  slot_lt : ∀ call ∈ calls, slot call.ino < inosPerPage
  slot_inj : ∀ call ∈ calls, ∀ call' ∈ calls, slot call.ino = slot call'.ino → call.ino = call'.ino

/-- A block has room for a few inodes only. -/
theorem InBlock.length_le {slot : UInt32 → ℕ} {calls : List PageCall} (h : InBlock slot calls)
    {order : List UInt32} (hnodup : order.Nodup) (hmem : ∀ i ∈ order, ∃ call ∈ calls, call.ino = i) :
    order.length ≤ inosPerPage := by
  have hslots : (order.map slot).Nodup := by
    refine List.Nodup.map_on (fun i hi j hj heq => ?_) hnodup
    obtain ⟨call, hcall, rfl⟩ := hmem i hi
    obtain ⟨call', hcall', rfl⟩ := hmem j hj
    exact h.slot_inj call hcall call' hcall' heq
  have hsub : order.map slot ⊆ List.range inosPerPage := by
    intro n hn
    obtain ⟨i, hi, rfl⟩ := List.mem_map.mp hn
    obtain ⟨call, hcall, rfl⟩ := hmem i hi
    exact List.mem_range.mpr (h.slot_lt call hcall)
  have hle := (List.Nodup.subperm hslots hsub).length_le
  rwa [List.length_map, List.length_range] at hle

/-! ## The calls on a volume -/

open PageCache

section Run

variable {block : ℕ} {slot : UInt32 → ℕ} {original : List UInt8}

/-- **A run of the calls** makes the copies of the lineage, and marks them. -/
theorem performAll_ok {calls : List PageCall} (hblock : InBlock slot calls)
    {changes : List (Change (List UInt8))} (hcalls : ∀ change ∈ changes, change.1 ∈ calls)
    {v : Volume} {active : ActiveTxn} (hactive : v.txMgr.active = some active) {marks : List UInt32}
    (hmarks : active.dirtyPages = marks.map fun i => (i, block)) {l : Lineage (List UInt8)}
    (hcopies : Copies v.pageCache block l.order l.data)
    (horder : ∀ i ∈ l.order, ∃ call ∈ calls, call.ino = i) (hcap : inosPerPage < v.pageCache.cap)
    (hread : StorageM.readBlock block v.storage = .ok original v.storage) :
    ∃ cache, performAll block slot changes v = .ok ()
        { v with
          pageCache := cache
          txMgr := { v.txMgr with
            active := some { active with
              dirtyPages := ((changes.map Prod.fst).foldl addMark marks).map fun i => (i, block) } } } ∧
      Copies cache block (l.run original (changes.map (onBlock slot))).order
        (l.run original (changes.map (onBlock slot))).data := by
  induction changes generalizing v active marks l with
  | nil =>
      refine ⟨v.pageCache, ?_, hcopies⟩
      have hsame : ({ active with dirtyPages := marks.map fun i => (i, block) } : ActiveTxn) = active := by
        rw [← hmarks]
      show EStateM.Result.ok () v = _
      rw [List.map_nil, List.foldl_nil, hsame, ← hactive]
  | cons change rest ih =>
      obtain ⟨call, f⟩ := change
      have hrest : ∀ change ∈ rest, change.1 ∈ calls :=
        fun change hmem => hcalls change (List.mem_cons_of_mem _ hmem)
      have hcall := hcalls _ (List.mem_cons_self ..)
      have hroom := (hblock.length_le hcopies.nodup horder).trans_lt hcap
      cases call with
      | update ino =>
          obtain ⟨cache, hrun, hsame, hnext⟩ :=
            Volume.updateInodePage_ok hcopies hroom hread ino (slot ino * disize) f
          have horder' : ∀ i ∈ (l.update original ino (Volume.updateAt (slot ino * disize) f)).order,
              ∃ call ∈ calls, call.ino = i := by
            intro i hi
            rcases (Lineage.mem_update original).mp hi with rfl | hin
            · exact ⟨_, hcall, rfl⟩
            · exact horder i hin
          obtain ⟨cache', hrun', hlast⟩ := ih hrest (v := { v with pageCache := cache }) hactive hmarks
            hnext horder' (hsame ▸ hcap) hread
          exact ⟨cache', (bind_ok hrun).trans hrun', hlast⟩
      | mark ino =>
          obtain ⟨cache, hrun, hsame, hnext⟩ := Volume.markPageDirty_ok hcopies hactive ino
          have hdirty : (if (ino, block) ∈ active.dirtyPages then active.dirtyPages
              else active.dirtyPages ++ [(ino, block)]) =
                (addMark marks (.mark ino)).map fun i => (i, block) := by
            have hadd : addMark marks (.mark ino) = if ino ∈ marks then marks else marks ++ [ino] := rfl
            rw [hmarks, hadd]
            by_cases hin : ino ∈ marks
            · rw [if_pos hin, if_pos (List.mem_map_of_mem hin)]
            · rw [if_neg hin, if_neg (by simpa using hin), List.map_append]
              rfl
          have horder' : ∀ i ∈ (l.mark ino).order, ∃ call ∈ calls, call.ino = i :=
            fun i hi => horder i (Lineage.mem_mark.mp hi)
          obtain ⟨cache', hrun', hlast⟩ := ih hrest (v := { v with
              pageCache := cache
              txMgr := { v.txMgr with
                active := some { active with
                  dirtyPages := if (ino, block) ∈ active.dirtyPages then active.dirtyPages
                    else active.dirtyPages ++ [(ino, block)] } } })
            rfl hdirty (l := l.mark ino) hnext horder' (hsame ▸ hcap) hread
          exact ⟨cache', (bind_ok hrun).trans hrun', hlast⟩

end Run

/-! ## The page written last -/

theorem cachedPages_marks {cache : PageCache} {block : ℕ} {order : List UInt32}
    {data : UInt32 → List UInt8} (h : Copies cache block order data) (marks : List UInt32) :
    Volume.cachedPages cache (marks.map fun i => (i, block)) =
      (marks.filter (· ∈ order)).map fun i => (block, data i) := by
  induction marks with
  | nil => rfl
  | cons i rest ih =>
      rw [List.map_cons, Volume.cachedPages_cons, ih]
      have hcopy := h.copyOf i
      unfold PageCache.copyOf at hcopy
      by_cases hi : i ∈ order
      · rw [if_pos hi] at hcopy
        obtain ⟨page, hpeek, hdata⟩ := Option.map_eq_some_iff.mp hcopy
        rw [hpeek, List.filter_cons_of_pos (by simpa using hi), List.map_cons, ← hdata]
        rfl
      · rw [if_neg hi] at hcopy
        rw [Option.map_eq_none_iff.mp hcopy, List.filter_cons_of_neg (by simpa using hi)]
        rfl

theorem lastPage_marks (order : List UInt32) (data : UInt32 → List UInt8) (block : ℕ) :
    Volume.lastPage (order.map fun i => (block, data i)) block = order.getLast?.map data := by
  unfold Volume.lastPage
  have hall : (order.map fun i => (block, data i)).filter (fun page => page.1 = block) =
      order.map fun i => (block, data i) := by
    rw [List.filter_eq_self]
    intro page hpage
    obtain ⟨i, -, rfl⟩ := List.mem_map.mp hpage
    simp
  rw [hall, List.getLast?_map, Option.map_map]
  rfl

/-- A change of a slice keeps its length. -/
def KeepsLength (f : List UInt8 → List UInt8) : Prop :=
  ∀ data, (f data).length = data.length

theorem length_updateAt {f : List UInt8 → List UInt8} (hf : KeepsLength f) (pageOffset : ℕ)
    (data : List UInt8) : (Volume.updateAt pageOffset f data).length = data.length := by
  unfold Volume.updateAt
  split
  · next h =>
      refine length_splice ?_
      rw [hf, length_slice_of_le h]
      exact h
  · rfl

/-- No transaction is in progress, no copy of the block is cached, and the block can be read. -/
structure Ready (v : Volume) (block : ℕ) : Prop where
  idle : v.txMgr.active = none
  uncached : ∀ ino, (ino, block) ∉ v.pageCache.keys
  room : inosPerPage < v.pageCache.cap
  read : StorageM.readBlock block v.storage = .ok (v.storage.block block) v.storage
  plain : v.IsPlain block

/-- The volume in the transaction, before the commit. -/
theorem Ready.performAll {v : Volume} {block : ℕ} (h : Ready v block) {slot : UInt32 → ℕ}
    {changes : List (Change (List UInt8))} (hblock : InBlock slot (changes.map Prod.fst)) :
    ∃ w active, (∀ x : VolM CommitResult, (do
          let _ ← Volume.beginTransaction
          PageCall.performAll block slot changes
          x) v = x w) ∧
      w.txMgr.active = some active ∧ w.storage = v.storage ∧ w.log = v.log ∧ w.bmap = v.bmap ∧
      active.dirtyPages = (firstMarks (changes.map Prod.fst)).map (fun i => (i, block)) ∧
      Copies w.pageCache block
        ((Lineage.empty (v.storage.block block)).run (v.storage.block block)
          (changes.map (onBlock slot))).order
        ((Lineage.empty (v.storage.block block)).run (v.storage.block block)
          (changes.map (onBlock slot))).data := by
  have hbegin := Volume.beginTransaction_of_idle h.idle
  have hstart : Copies v.pageCache block (Lineage.empty (v.storage.block block)).order
      (Lineage.empty (v.storage.block block)).data := by
    refine ⟨⟨v.pageCache.keys, rfl, ?_⟩, by simp [Lineage.empty]⟩
    rintro ⟨ino, b⟩ hkey rfl
    exact h.uncached ino hkey
  obtain ⟨cache, hrun, hcopies⟩ := performAll_ok (v := v.begun) hblock (fun change hmem => List.mem_map_of_mem hmem) rfl
    (List.map_nil (f := fun i => (i, block))).symm hstart (by simp [Lineage.empty]) h.room h.read
  refine ⟨_, _, fun x => (bind_ok hbegin).trans (bind_ok hrun), rfl, rfl, rfl, rfl, rfl, hcopies⟩

/-- The pages to be written are whole copies of the block. -/
theorem of_mem_cachedPages {cache : PageCache} {block : ℕ} {slot : UInt32 → ℕ} {original : List UInt8}
    {changes : List (Change (List UInt8))} (hkeeps : ∀ change ∈ changes, KeepsLength change.2)
    (horiginal : original.length = blockSize)
    (hcopies : Copies cache block
      ((Lineage.empty original).run original (changes.map (onBlock slot))).order
      ((Lineage.empty original).run original (changes.map (onBlock slot))).data)
    {marks : List UInt32} {page : ℕ × List UInt8}
    (hpage : page ∈ Volume.cachedPages cache (marks.map fun i => (i, block))) :
    page.1 = block ∧ page.2.length = blockSize := by
  rw [cachedPages_marks hcopies] at hpage
  obtain ⟨i, hi, rfl⟩ := List.mem_map.mp hpage
  refine ⟨rfl, ?_⟩
  refine Lineage.forall_run (P := fun data : List UInt8 => data.length = blockSize) _ horiginal
    (by simp [Lineage.empty]) (fun change hchange data hdata => ?_) i
    (by simpa using (List.mem_filter.mp hi).2)
  obtain ⟨c, hc, rfl⟩ := List.mem_map.mp hchange
  exact (length_updateAt (hkeeps c hc) _ data).trans hdata

/-- **The block after the transaction**: the copy of the inode whose first mark came last. -/
theorem block_of_transaction {v v' : Volume} {block : ℕ} (h : Ready v block) {slot : UInt32 → ℕ}
    {changes : List (Change (List UInt8))} (hblock : InBlock slot (changes.map Prod.fst))
    (hkeeps : ∀ change ∈ changes, KeepsLength change.2) {result : CommitResult}
    (hrun : transaction block slot changes v = .ok result v') :
    v'.storage.block block =
      ((((firstMarks (changes.map Prod.fst)).filter
        (· ∈ ((Lineage.empty (v.storage.block block)).run (v.storage.block block)
          (changes.map (onBlock slot))).order)).getLast?).map
        ((Lineage.empty (v.storage.block block)).run (v.storage.block block)
          (changes.map (onBlock slot))).data).getD (v.storage.block block) := by
  obtain ⟨w, active, hstart, hactive, hstorage, hlog, hmap, hdirty, hcopies⟩ := h.performAll hblock
  have hcommit : Volume.commitTransaction w = .ok result v' := (hstart _).symm.trans hrun
  have hplain : w.IsPlain block := by
    have hin : w.InLog = v.InLog := Volume.inLog_congr (by rw [hlog])
    have hinmap : w.InMap = v.InMap := by
      unfold Volume.InMap
      rw [hmap]
    intro i hi
    rw [hin, hinmap]
    exact h.plain i hi
  have hpages := cachedPages_marks hcopies (firstMarks (changes.map Prod.fst))
  have hlen : ∀ page ∈ Volume.cachedPages w.pageCache active.dirtyPages, page.2.length = blockSize := by
    rw [hdirty]
    exact fun page hpage => (of_mem_cachedPages hkeeps (v.storage.length_block block) hcopies hpage).2
  rw [Volume.block_of_commit hactive hcommit hplain hlen, hdirty, hpages, lastPage_marks, hstorage]

/-! ## An update that is lost -/

/-- Fill the bytes with ones. -/
def stamp (data : List UInt8) : List UInt8 :=
  data.map fun _ => 1

/-- The calls, numbered from `n` on, with a change at the number `k` only. -/
def stampOnly (k : ℕ) : ℕ → List PageCall → List (Change (List UInt8))
  | _, [] => []
  | n, call :: rest => (call, if n = k then stamp else id) :: stampOnly k (n + 1) rest

/-- A volume of zeros, without a journal. -/
def zeroVolume (block : ℕ) : Volume where
  ait2 := { lenAddr := 4, addr2 := UInt32.ofNat block }
  aggSize := block + 1
  log := none
  storage := Storage.newMemory (block + 1)
  bmap := none

theorem keepsLength_stampOnly (k n : ℕ) (calls : List PageCall) :
    ∀ change ∈ stampOnly k n calls, KeepsLength change.2 := by
  induction calls generalizing n with
  | nil => exact fun change hmem => absurd hmem List.not_mem_nil
  | cons call rest ih =>
      intro change hmem data
      rcases List.mem_cons.mp hmem with rfl | hin
      · by_cases hk : n = k
        · simp [hk, stamp]
        · simp [hk]
      · exact ih (n + 1) change hin data

theorem map_fst_stampOnly (k n : ℕ) (calls : List PageCall) :
    (stampOnly k n calls).map Prod.fst = calls := by
  induction calls generalizing n with
  | nil => rfl
  | cons call rest ih => exact congrArg _ (ih (n + 1))

/-- The content of a copy with these updates. -/
def stampedIf (k offset : ℕ) (original : List UInt8) (updates : Finset ℕ) : List UInt8 :=
  if k ∈ updates then Volume.updateAt offset stamp original else original

/-- The content belongs to the set of updates. -/
def IsStamped (k offset : ℕ) (original data : List UInt8) (updates : Finset ℕ) : Prop :=
  data = stampedIf k offset original updates

theorem isStamped_empty (k offset : ℕ) (original : List UInt8) :
    IsStamped k offset original original ∅ := by
  unfold IsStamped stampedIf
  rw [if_neg (Finset.notMem_empty k)]

theorem updateAt_id (offset : ℕ) (data : List UInt8) : Volume.updateAt offset id data = data := by
  unfold Volume.updateAt
  split
  · next h => exact splice_slice_self h
  · rfl

theorem updateAt_stamp_twice (offset : ℕ) (data : List UInt8) :
    Volume.updateAt offset stamp (Volume.updateAt offset stamp data) =
      Volume.updateAt offset stamp data := by
  unfold Volume.updateAt
  by_cases h : offset + disize ≤ data.length
  · have hslice : (stamp (slice data offset disize)).length = disize := by
      unfold stamp
      rw [List.length_map, length_slice_of_le h]
    have hfits : offset + (stamp (slice data offset disize)).length ≤ data.length := by
      rw [hslice]
      exact h
    have hread : slice (splice data offset (stamp (slice data offset disize))) offset disize =
        stamp (slice data offset disize) := by
      have hself := slice_splice_self (stamp (slice data offset disize)) (Nat.le_of_add_right_le h)
      rwa [hslice] at hself
    have hagain : stamp (stamp (slice data offset disize)) = stamp (slice data offset disize) :=
      List.map_map
    rw [if_pos h, length_splice hfits, if_pos h, hread, hagain, splice_splice_self rfl hfits]
  · rw [if_neg h, if_neg h]

section Lost

variable (slot : UInt32 → ℕ) {ino : UInt32} {k : ℕ} (original : List UInt8)

/-- Each change makes the content that belongs to its set of updates. -/
theorem stampOnly_related {calls : List PageCall} {n : ℕ}
    (h : ∀ m call, calls[m]? = some call → n + m = k → call = .update ino) :
    List.Forall₂ (fun (c : Change (List UInt8)) (d : Change (Finset ℕ)) => c.1 = d.1 ∧
        ∀ x y, IsStamped k (slot ino * disize) original x y →
          IsStamped k (slot ino * disize) original (c.2 x) (d.2 y))
      ((stampOnly k n calls).map (onBlock slot)) (numbered n calls) := by
  induction calls generalizing n with
  | nil => exact List.Forall₂.nil
  | cons call rest ih =>
      have hrest := ih (n := n + 1) fun m c hm hnext => h (m + 1) c hm (by omega)
      by_cases hk : n = k
      · have hcall := h 0 call rfl hk
        subst hcall
        refine List.Forall₂.cons ⟨rfl, ?_⟩ hrest
        rintro x y rfl
        show Volume.updateAt (slot ino * disize) (if n = k then stamp else id) _ =
          stampedIf k (slot ino * disize) original (insert n y)
        have hin : k ∈ insert n y := by
          rw [hk]
          exact Finset.mem_insert_self ..
        unfold stampedIf
        rw [if_pos hk, if_pos hin]
        split
        · exact updateAt_stamp_twice ..
        · rfl
      · have hid : ∀ x, (onBlock slot (call, if n = k then stamp else id)).2 x = x := by
          intro x
          show Volume.updateAt _ (if n = k then stamp else id) x = x
          rw [if_neg hk, updateAt_id]
        cases call with
        | update i =>
            refine List.Forall₂.cons ⟨rfl, ?_⟩ hrest
            rintro x y rfl
            rw [hid]
            have hmem : k ∈ insert n y ↔ k ∈ y := by
              rw [Finset.mem_insert]
              exact or_iff_right fun heq => hk heq.symm
            unfold IsStamped stampedIf
            simp only [hmem]
        | mark i =>
            refine List.Forall₂.cons ⟨rfl, ?_⟩ hrest
            rintro x y rfl
            exact hid _

theorem applyAll_related {R : List UInt8 → Finset ℕ → Prop} {changes : List (Change (List UInt8))}
    {changes' : List (Change (Finset ℕ))}
    (h : List.Forall₂ (fun c d => c.1 = d.1 ∧ ∀ x y, R x y → R (c.2 x) (d.2 y)) changes changes')
    {x : List UInt8} {y : Finset ℕ} (hstart : R x y) :
    R (Change.applyAll changes x) (Change.applyAll changes' y) := by
  induction h generalizing x y with
  | nil => exact hstart
  | @cons c d _ _ hfirst _ ih =>
      obtain ⟨call, f⟩ := c
      obtain ⟨_, g⟩ := d
      obtain ⟨rfl, hchange⟩ := hfirst
      cases call with
      | update i => exact ih (hchange x y hstart)
      | mark i => exact ih hstart

theorem subset_applyAll_numbered (n : ℕ) (calls : List PageCall) (y : Finset ℕ) :
    y ⊆ Change.applyAll (numbered n calls) y := by
  induction calls generalizing n y with
  | nil => exact Finset.Subset.refl y
  | cons call rest ih =>
      cases call with
      | update i => exact (Finset.subset_insert n y).trans (ih (n + 1) (insert n y))
      | mark i => exact ih (n + 1) y

theorem mem_applyAll_numbered {calls : List PageCall} {n m : ℕ} {i : UInt32} (y : Finset ℕ)
    (h : calls[m]? = some (.update i)) : n + m ∈ Change.applyAll (numbered n calls) y := by
  induction calls generalizing n m y with
  | nil => cases h
  | cons call rest ih =>
      cases m with
      | zero =>
          cases h
          exact subset_applyAll_numbered (n + 1) rest (insert n y) (Finset.mem_insert_self ..)
      | succ m =>
          rw [show n + (m + 1) = n + 1 + m by omega]
          cases call with
          | update i => exact ih (n := n + 1) _ h
          | mark i => exact ih (n := n + 1) _ h

/-- The copies, and the block with all the updates. -/
theorem stampOnly_history {calls : List PageCall} (hk : calls[k]? = some (.update ino)) :
    Lineage.Related (IsStamped k (slot ino * disize) original)
        ((Lineage.empty original).run original ((stampOnly k 0 calls).map (onBlock slot)))
        (history calls) ∧
      updated slot (stampOnly k 0 calls) original =
        Volume.updateAt (slot ino * disize) stamp original := by
  have honly : ∀ m call, calls[m]? = some call → 0 + m = k → call = .update ino := by
    intro m call hm heq
    rw [← heq, Nat.zero_add, hm] at hk
    cases hk
    rfl
  have hchanges := stampOnly_related slot original honly
  have hstart := isStamped_empty k (slot ino * disize) original
  refine ⟨Lineage.Related.run hstart hchanges ⟨rfl, fun _ => hstart⟩, ?_⟩
  have hall : updated slot (stampOnly k 0 calls) original = stampedIf k (slot ino * disize) original _ :=
    applyAll_related hchanges hstart
  have hfull := mem_applyAll_numbered (n := 0) ∅ hk
  rw [Nat.zero_add] at hfull
  rw [hall, stampedIf, if_pos hfull]

end Lost

/-- A transaction on the volume of zeros returns. -/
theorem ready_zeroVolume (block : ℕ) : Ready (zeroVolume block) block where
  idle := rfl
  uncached := fun ino => by simp [zeroVolume, PageCache.new, Lru.keys, Lru.empty]
  room := show inosPerPage < 256 by decide
  read := by
    unfold StorageM.readBlock
    rw [StorageM.readBytes_eq rfl]
    have hsize : ¬ (zeroVolume block).storage.size < block * blockSize + blockSize := by
      show ¬ (block + 1) * blockSize < block * blockSize + blockSize
      rw [Nat.succ_mul]
      exact lt_irrefl _
    unfold Storage.readResult
    show returnExcept (if (zeroVolume block).storage.size < _ then _ else _) _ = _
    rw [if_neg hsize]
    rfl
  plain := by
    intro i _
    constructor
    · rintro ⟨lm, hlog, -⟩
      cases hlog
    · rintro ⟨m, hmap, -⟩
      cases hmap

theorem transaction_zeroVolume (block : ℕ) {slot : UInt32 → ℕ} {changes : List (Change (List UInt8))}
    (hblock : InBlock slot (changes.map Prod.fst))
    (hkeeps : ∀ change ∈ changes, KeepsLength change.2) :
    ∃ result v', transaction block slot changes (zeroVolume block) = .ok result v' := by
  obtain ⟨w, active, hstart, hactive, hstorage, hlog, hmap, hdirty, hcopies⟩ :=
    (ready_zeroVolume block).performAll hblock
  have hfits : ∀ call ∈ StorageCall.flushData :: (Volume.pageWrites (Volume.cachedPages w.pageCache
      active.dirtyPages) ++ [.flushMetadata]), call.extent ≤ w.storage.size := by
    have hsize : w.storage.size = (block + 1) * blockSize := by
      rw [hstorage]
      rfl
    intro call hcall
    rcases List.mem_cons.mp hcall with rfl | hcall
    · exact Nat.zero_le _
    rcases List.mem_append.mp hcall with hpage | hflush
    · obtain ⟨page, hin, rfl⟩ := List.mem_map.mp hpage
      rw [hdirty] at hin
      obtain ⟨hpage, hlen⟩ := of_mem_cachedPages hkeeps (Storage.length_block _ block) hcopies hin
      show page.1 * blockSize + page.2.length ≤ w.storage.size
      rw [hpage, hlen, hsize, Nat.succ_mul]
    · rw [List.mem_singleton.mp hflush]
      exact Nat.zero_le _
  obtain ⟨s', hcalls, -⟩ := StorageCall.performAll_memory_of_no_faults (s := w.storage)
    (by rw [hstorage]; rfl) hfits (by rw [hstorage]; rfl)
  obtain ⟨result, v', hrun, hsame⟩ :=
    (Volume.issues_commitPages_of_no_log (hlog.trans rfl) hactive w.storage).1 s' hcalls
  refine ⟨result, v'.withStorage s', ?_⟩
  have hnone : (v'.withStorage s').bmap = none := hsame.trans (hmap.trans rfl)
  have hbmap : Volume.commitBmap (v'.withStorage s') = .ok () (v'.withStorage s') := by
    unfold Volume.commitBmap
    rw [bind_ok (get_apply _), hnone]
    rfl
  have hcommit : Volume.commitPages w = .ok result (v'.withStorage s') := hrun
  rw [transaction, hstart, Volume.commitTransaction, bind_ok hcommit, bind_ok hbmap]
  rfl

theorem stamped_ne {offset : ℕ} (h : offset + disize ≤ blockSize) (block : ℕ) :
    Volume.updateAt offset stamp ((zeroVolume block).storage.block block) ≠
      (zeroVolume block).storage.block block := by
  intro heq
  have hfits : offset + disize ≤ ((zeroVolume block).storage.block block).length := by
    rw [Storage.length_block]
    exact h
  have hslice := length_slice_of_le hfits
  -- the bytes of the inode would be ones and zeros at once
  have hsame : stamp (slice ((zeroVolume block).storage.block block) offset disize) =
      slice ((zeroVolume block).storage.block block) offset disize := by
    have hself := slice_splice_self (stamp (slice ((zeroVolume block).storage.block block) offset disize))
      (Nat.le_of_add_right_le hfits)
    rw [Volume.updateAt, if_pos hfits] at heq
    rw [heq, stamp, List.length_map, hslice] at hself
    exact hself.symm
  obtain ⟨x, hx⟩ := List.exists_mem_of_length_pos (hslice.symm ▸ (by decide : 0 < disize))
  have hzero : x = 0 := by
    obtain ⟨i, -, rfl⟩ := List.mem_map.mp (List.mem_of_mem_drop (List.mem_of_mem_take hx))
    rfl
  have hone : x = 1 := by
    rw [← hsame] at hx
    obtain ⟨_, -, rfl⟩ := List.mem_map.mp hx
    rfl
  rw [hzero] at hone
  cases hone

/-- **A lost update.**  The copy written last lacks an update, and the block with it. -/
theorem lost_of_missing {calls : List PageCall} {slot : UInt32 → ℕ} (hblock : InBlock slot calls)
    {j : UInt32} (hlast : ((firstMarks calls).filter (· ∈ (history calls).order)).getLast? = some j)
    {k : ℕ} {ino : UInt32} (hk : calls[k]? = some (.update ino)) (hmissing : k ∉ (history calls).data j)
    (block : ℕ) :
    ∃ result v', transaction block slot (stampOnly k 0 calls) (zeroVolume block) = .ok result v' ∧
      v'.storage.block block ≠
        updated slot (stampOnly k 0 calls) ((zeroVolume block).storage.block block) := by
  have hcalls := map_fst_stampOnly k 0 calls
  have hkeeps := keepsLength_stampOnly k 0 calls
  have hin : InBlock slot ((stampOnly k 0 calls).map Prod.fst) := hcalls.symm ▸ hblock
  obtain ⟨result, v', hrun⟩ := transaction_zeroVolume block hin hkeeps
  refine ⟨result, v', hrun, ?_⟩
  have hslot : slot ino * disize + disize ≤ blockSize := by
    have hlt : slot ino < 8 := hblock.slot_lt _ (List.mem_of_getElem? hk)
    unfold disize blockSize
    omega
  obtain ⟨hcopies, hall⟩ := stampOnly_history slot ((zeroVolume block).storage.block block) hk
  have hwritten : Lineage.data _ j = _ := hcopies.data j
  rw [block_of_transaction (ready_zeroVolume block) hin hkeeps hrun, hcalls, hcopies.order, hlast,
    Option.map_some, Option.getD_some, hwritten, stampedIf, if_neg hmissing, hall]
  exact (stamped_ne hslot block).symm

/-! ## When no update is lost -/

theorem mem_foldl_addMark {calls : List PageCall} {marks : List UInt32} {i : UInt32} :
    i ∈ calls.foldl addMark marks ↔ i ∈ marks ∨ .mark i ∈ calls := by
  induction calls generalizing marks with
  | nil => simp
  | cons call rest ih =>
      rw [List.foldl_cons, ih, List.mem_cons]
      cases call with
      | update j => simp [addMark]
      | mark j =>
          have hadd : i ∈ addMark marks (.mark j) ↔ i ∈ marks ∨ i = j := by
            show i ∈ (if j ∈ marks then marks else marks ++ [j]) ↔ _
            split
            · next hj => exact ⟨Or.inl, fun h => h.elim id fun heq => heq ▸ hj⟩
            · rw [List.mem_append, List.mem_singleton]
          rw [hadd, PageCall.mark.injEq, or_assoc]

theorem mem_firstMarks {calls : List PageCall} {i : UInt32} :
    i ∈ firstMarks calls ↔ .mark i ∈ calls := by
  unfold firstMarks
  rw [mem_foldl_addMark]
  simp

/-- **No update is lost** exactly when the updates come in sequence and the inode updated
last is the last one to be marked for the first time. -/
theorem block_of_transaction_iff_inSequence {calls : List PageCall} {slot : UInt32 → ℕ}
    (hblock : InBlock slot calls) (hmarked : ∀ i, .update i ∈ calls → .mark i ∈ calls) (block : ℕ) :
    (∀ v changes, Ready v block → changes.map Prod.fst = calls →
        (∀ change ∈ changes, KeepsLength change.2) → ∀ result v',
        transaction block slot changes v = .ok result v' →
          v'.storage.block block = updated slot changes (v.storage.block block)) ↔
      InSequence calls := by
  constructor
  · intro h
    by_contra hseq
    obtain ⟨j, hlast, k, ino, hk, hmissing⟩ :=
      exists_missing hseq fun i hi => mem_firstMarks.mpr (hmarked i hi)
    obtain ⟨result, v', hrun, hlost⟩ := lost_of_missing hblock hlast hk hmissing block
    exact hlost (h _ _ (ready_zeroVolume block) (map_fst_stampOnly k 0 calls)
      (keepsLength_stampOnly k 0 calls) result v' hrun)
  · rintro hseq v changes hready rfl hkeeps result v' hrun
    have hmap : (changes.map (onBlock slot)).map Prod.fst = changes.map Prod.fst :=
      List.map_map.trans rfl
    have hcomplete := complete_of_inSequence (changes.map (onBlock slot)) (v.storage.block block)
      (hmap.symm ▸ hseq)
    rw [hmap] at hcomplete
    rw [block_of_transaction hready hblock hkeeps hrun, updated, ← hcomplete]

/-- Two inodes, marked in the order in which they were updated. -/
theorem block_of_ordered_marks :
    Ready (zeroVolume 28) 28 ∧ ∀ v changes, Ready v 28 →
      changes.map Prod.fst = [.update 18, .update 19, .mark 18, .mark 19] →
        (∀ change ∈ changes, KeepsLength change.2) → ∀ result v',
        transaction 28 (fun ino => ino.toNat % 8) changes v = .ok result v' →
          v'.storage.block 28 = updated (fun ino => ino.toNat % 8) changes (v.storage.block 28) :=
  ⟨ready_zeroVolume 28, (block_of_transaction_iff_inSequence ⟨by decide, by decide⟩
    (fun i hi => by simpa using hi) 28).mpr (by decide)⟩

/-- A directory and a new link in it, in the order of `link_file`: the directory is updated
first and marked last, and the update of the link target is lost. -/
theorem lost_update_of_reversed_marks :
    ∃ result v', transaction 28 (fun ino => ino.toNat % 8)
        (stampOnly 1 0 [.update 18, .update 19, .mark 19, .mark 18]) (zeroVolume 28) = .ok result v' ∧
      v'.storage.block 28 ≠ updated (fun ino => ino.toNat % 8)
        (stampOnly 1 0 [.update 18, .update 19, .mark 19, .mark 18])
        ((zeroVolume 28).storage.block 28) :=
  lost_of_missing ⟨by decide, by decide⟩ (j := 18) (by decide) (k := 1) rfl (by decide) 28

end PageCall

end JfsFuse
