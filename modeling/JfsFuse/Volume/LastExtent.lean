import JfsFuse.Volume.OneFile

/-!
# The last extent of a file

`copy_file_range_extent` takes the extents of the source out of its root before it looks at the
destination.  Both roots are written back with their number of blocks, so the count goes wrong
only for a source that has lost its last extent.
-/

namespace JfsFuse

open ByteBuf Program

namespace Volume

open Dinode

/-! ## Inserting the extents that were taken -/

theorem totalBlocks_insertTaken {srcStart dstStart : ℕ} {taken : List (ℤ × ℕ × ℕ)} {xt xt' : Xtree}
    (hpos : ∀ t ∈ taken, t.2.1 % 2 ^ 24 ≠ 0) (hinsert : insertTaken srcStart dstStart taken xt = some xt')
    (hsome : xt.totalBlocks ≠ 0 ∨ taken ≠ []) : xt'.totalBlocks ≠ 0 := by
  induction taken generalizing xt with
  | nil =>
      cases hinsert
      exact hsome.resolve_right fun h => h rfl
  | cons first rest ih =>
      obtain ⟨next, hnext, hrest⟩ := Option.bind_eq_some_iff.mp hinsert
      refine ih (fun t ht => hpos t (List.mem_cons_of_mem _ ht)) hrest (Or.inl ?_)
      exact Xtree.totalBlocks_of_runs (Xtree.insertTakenExtent_runs hnext) (hpos first (List.mem_cons_self ..))

/-- A root with enough slots takes all of them. -/
theorem insertTaken_of_room {srcStart dstStart : ℕ} {taken : List (ℤ × ℕ × ℕ)} {xt : Xtree}
    (hroom : xt.newSlot + taken.length ≤ xtRootMaxSlot) :
    ∃ xt', insertTaken srcStart dstStart taken xt = some xt' := by
  induction taken generalizing xt with
  | nil => exact ⟨xt, rfl⟩
  | cons first rest ih =>
      rw [List.length_cons] at hroom
      have hnext : xt.nextIndex ≤ xt.newSlot := Nat.le_max_left ..
      have hsome : xt.insertTakenExtent (dstStart + (first.1 - srcStart)) first.2.1 first.2.2 =
          some (xt.append (dstStart + (first.1 - srcStart)) first.2.1 first.2.2 0) := if_neg (by omega)
      have hindex : (xt.append (dstStart + (first.1 - srcStart)) first.2.1 first.2.2 0).nextIndex =
          xt.newSlot + 1 := Xtree.nextIndex_append xt (by omega)
      have hslot : (xt.append (dstStart + (first.1 - srcStart)) first.2.1 first.2.2 0).newSlot =
          xt.newSlot + 1 := by
        have hlow : xtEntryStart ≤ xt.newSlot := Nat.le_max_right ..
        unfold Xtree.newSlot at hlow hindex ⊢
        rw [hindex]
        exact Nat.max_eq_left (by omega)
      obtain ⟨xt', hrest⟩ := ih (by rw [hslot]; omega)
      exact ⟨xt', Option.bind_eq_some_iff.mpr ⟨_, hsome, hrest⟩⟩

/-! ## The steps of a move -/

section Parts

variable (srcStart srcEnd dstStart dstEnd : ℕ)

/-- What is written to the source. -/
def giveUp (xtree : Xtree) (nblocks : ℕ) : List UInt8 → List UInt8 :=
  setXtree (xtree.takeExtents srcStart srcEnd).2 (computeNblocks (xtree.takeExtents srcStart srcEnd).2 nblocks)

/-- The root of the destination with the extents of the source; `none` when it is full. -/
def receive (xtree dstXtree : Xtree) : Option Xtree :=
  insertTaken srcStart dstStart (xtree.takeExtents srcStart srcEnd).1 (dstXtree.punchExtents dstStart dstEnd).2

/-- A run of `copy_file_range_extent` up to the insertion: extents are taken, the source is
written to its page, and the old blocks of the destination are freed. -/
structure Moves (srcIno : UInt32) (b₁ j₁ : ℕ) (dstIno : UInt32) (b₂ j₂ : ℕ) (v : Volume) (xtree : Xtree)
    (v₁ : Volume) (dstXtree : Xtree) (v₂ : Volume) : Prop where
  taken : (xtree.takeExtents srcStart srcEnd).1 ≠ []
  source : (do
    Volume.updateInodePage srcIno b₁ (j₁ * disize)
      (giveUp srcStart srcEnd xtree (nblocks (slotOf (v.own srcIno b₁) j₁)))
    Volume.markPageDirty srcIno b₁ : VolM Unit) v = .ok () v₁
  dest : (v₁.inodeAt dstIno b₂ j₂).xtree = .ok dstXtree
  freed : Volume.freeExtents (dstXtree.punchExtents dstStart dstEnd).1 v₁ = .ok () v₂

end Parts

section Move

variable {lo hi : ℕ} {v : Volume} (hv : v.Guarded lo hi) {srcIno dstIno : UInt32}
  {b₁ j₁ b₂ j₂ srcOffset dstOffset len : ℕ} (hsrc : v.Placed srcIno b₁ j₁) (hb₁ : b₁ ≤ hi)
  (hdst : v.Placed dstIno b₂ j₂) (hb₂ : b₂ ≤ hi)

include hv hsrc hb₁

/-- The page of the source is written with the inodes in their places. -/
theorem Guarded.source_written {f : List UInt8 → List UInt8} (hf : IsEdit f) {v₁ : Volume}
    (hrun : (do
      Volume.updateInodePage srcIno b₁ (j₁ * disize) f
      Volume.markPageDirty srcIno b₁ : VolM Unit) v = .ok () v₁) {P : List UInt8 → Prop}
    (hP : ∀ dinode, dinode.length = disize → P dinode → P (f dinode)) :
    v₁.Guarded lo hi ∧ Carries P lo hi v v₁ :=
  Returns.of_run hrun (Returns.bind (returns_updateInodePage hf hP hb₁ hsrc.slot srcIno) fun _ =>
    returns_markPageDirty srcIno b₁) hv

include hdst hb₂

/-- **The parts of a run** of `copy_file_range_extent`. -/
theorem Guarded.of_copyFileRangeBody (hlo : lo ≤ v.ait2.address) {exit : Exit (Option ℕ) (Option ℕ)} {w : Volume}
    (hrun : copyFileRangeBody srcIno srcOffset dstIno dstOffset len v = .ok exit w) {srcStart srcEnd dstStart : ℕ}
    (hstart : srcOffset / blockSize = srcStart) (hend : srcStart + len / blockSize = srcEnd)
    (hdstStart : dstOffset / blockSize = dstStart) :
    ∃ xtree, (v.inodeAt srcIno b₁ j₁).xtree = .ok xtree ∧
      ((xtree.takeExtents srcStart srcEnd).1 = [] ∧ w = v ∨
        ∃ v₁ dstXtree v₂, Moves srcStart srcEnd dstStart (dstStart + len / blockSize) srcIno b₁ j₁
            dstIno b₂ j₂ v xtree v₁ dstXtree v₂ ∧
          (receive srcStart srcEnd dstStart (dstStart + len / blockSize) xtree dstXtree = none ∧
              exit = .abort (.ok none) ∧ w = v₂ ∨
            ∃ newXtree,
              receive srcStart srcEnd dstStart (dstStart + len / blockSize) xtree dstXtree = some newXtree ∧
              exit = .commit (some len) ∧
              (do
                Volume.updateInodePage dstIno b₂ (j₂ * disize)
                  (resize newXtree (max (v₁.inodeAt dstIno b₂ j₂).size (addU64 dstOffset len))
                    (computeNblocks newXtree (nblocks (slotOf (v₁.own dstIno b₂) j₂))))
                Volume.markPageDirty dstIno b₂ : VolM Unit) v₂ = .ok () w)) := by
  subst hstart hend hdstStart
  obtain ⟨inode, v₀, hread, hrun⟩ := of_bind_ok hrun
  obtain ⟨rfl, rfl⟩ := hv.toCalm.readInode_of_placed hsrc hread
  obtain ⟨xtree, v₀', hxtree, hrun⟩ := of_bind_ok hrun
  obtain ⟨hxtree, rfl⟩ := of_returnExcept_ok hxtree
  refine ⟨xtree, hxtree, ?_⟩
  simp only at hrun
  split at hrun
  · next htaken =>
      cases hrun
      exact Or.inl ⟨htaken, rfl⟩
  next htaken =>
  obtain ⟨_, v₀, hupdate, hrun⟩ := of_bind_ok hrun
  obtain ⟨_, v₁, hmark, hrun⟩ := of_bind_ok hrun
  obtain ⟨dstInode, v₁', hread, hrun⟩ := of_bind_ok hrun
  have hsource : (do
      Volume.updateInodePage srcIno b₁ (j₁ * disize)
        (giveUp (srcOffset / blockSize) (srcOffset / blockSize + len / blockSize) xtree
          (nblocks (slotOf (v₀'.own srcIno b₁) j₁)))
      Volume.markPageDirty srcIno b₁ : VolM Unit) v₀' = .ok () v₁ := (bind_ok hupdate).trans hmark
  -- the destination is found where it was
  obtain ⟨hv₁, hcarries⟩ := hv.source_written hsrc hb₁ (isEdit_setXtree _ _) hsource
    (P := fun _ => True) fun _ _ _ => trivial
  obtain ⟨rfl, rfl⟩ := hv₁.toCalm.readInode_of_placed (hcarries.placed hlo hb₂ hdst) hread
  obtain ⟨dstXtree, v₁'', hdest, hrun⟩ := of_bind_ok hrun
  obtain ⟨hdest, rfl⟩ := of_returnExcept_ok hdest
  obtain ⟨_, v₂, hfree, hrun⟩ := of_bind_ok hrun
  refine Or.inr ⟨v₁'', dstXtree, v₂, ⟨htaken, hsource, hdest, hfree⟩, ?_⟩
  generalize hreceive : insertTaken _ _ _ _ = received at hrun
  cases received with
  | none =>
      cases hrun
      exact Or.inl ⟨hreceive, rfl, rfl⟩
  | some newXtree =>
      obtain ⟨_, v₃, hupdate, hrun⟩ := of_bind_ok hrun
      obtain ⟨_, v₄, hmark, hrun⟩ := of_bind_ok hrun
      cases hrun
      exact Or.inr ⟨newXtree, hreceive, rfl, (bind_ok hupdate).trans hmark⟩

end Move

/-! ## Calls that keep the count -/

section Count

variable {srcStart srcEnd dstStart dstEnd : ℕ}

theorem countsBlocks_giveUp_iff {dinode : List UInt8} (h : dinode.length = disize) (xtree : Xtree)
    {count : ℕ} (hcount : count < 2 ^ 64) :
    CountsBlocks (giveUp srcStart srcEnd xtree count dinode) ↔
      ((xtree.takeExtents srcStart srcEnd).2.totalBlocks = 0 → count = 0) := by
  unfold giveUp
  rw [countsBlocks_setXtree_iff h, computeNblocks_eq_iff _ hcount]

theorem isEdit_giveUp (xtree : Xtree) (count : ℕ) : IsEdit (giveUp srcStart srcEnd xtree count) :=
  isEdit_setXtree _ _

/-- The destination has an extent after the move. -/
theorem totalBlocks_receive (hlt : srcStart < srcEnd) {xtree dstXtree newXtree : Xtree}
    (htaken : (xtree.takeExtents srcStart srcEnd).1 ≠ [])
    (hreceive : receive srcStart srcEnd dstStart dstEnd xtree dstXtree = some newXtree) :
    newXtree.totalBlocks ≠ 0 := by
  refine totalBlocks_insertTaken (fun t ht => ?_) hreceive (Or.inr htaken)
  unfold Xtree.takeExtents at ht
  simp only [List.flatMap_map] at ht
  obtain ⟨xad, -, hpiece⟩ := List.mem_flatMap.mp ht
  exact Xtree.length_taken hlt t hpiece

/-- A root that has lost all of its extents takes them back. -/
theorem receive_of_empty {xtree dstXtree : Xtree} (hempty : dstXtree.slots = []) :
    ∃ newXtree, receive srcStart srcEnd dstStart dstEnd xtree dstXtree = some newXtree := by
  refine insertTaken_of_room ?_
  have hnext : (dstXtree.punchExtents dstStart dstEnd).2.newSlot = xtEntryStart := by
    unfold Xtree.punchExtents Xtree.newSlot
    simp only [hempty, List.map_nil, List.flatMap_nil]
    rw [Xtree.nextIndex_storeKept _ (by decide), List.length_nil, Nat.add_zero, max_self]
  have htaken : (xtree.takeExtents srcStart srcEnd).1.length ≤ xtree.slots.length := by
    unfold Xtree.takeExtents
    rw [List.length_flatMap, List.map_map]
    refine (List.sum_le_card_nsmul _ 1 fun n hn => ?_).trans (by simp)
    obtain ⟨xad, -, rfl⟩ := List.mem_map.mp hn
    exact Xtree.length_takenXad srcStart srcEnd xad
  have hslots := xtree.length_slots
  rw [hnext]
  unfold xtRootMaxSlot xtEntryStart at *
  omega

end Count

section Moved

variable {lo hi : ℕ} {v : Volume} (hv : v.Guarded lo hi) {srcIno dstIno : UInt32}
  {b₁ j₁ b₂ j₂ srcOffset dstOffset len : ℕ} (hsrc : v.Placed srcIno b₁ j₁) (hb₁ : b₁ ≤ hi)
  (hdst : v.Placed dstIno b₂ j₂) (hb₂ : b₂ ≤ hi) (hlo : lo ≤ v.ait2.address)
  (hcounts : v.Everywhere b₁ j₁ CountsBlocks) (hpos : 0 < len / blockSize)
  {exit : Exit (Option ℕ) (Option ℕ)} {w : Volume}
  (hrun : copyFileRangeBody srcIno srcOffset dstIno dstOffset len v = .ok exit w)

include hv hsrc hb₁ hdst hb₂ hlo hcounts hpos hrun

/-- **The body of `copy_file_range_extent`**, when the source keeps an extent. -/
theorem Guarded.safe_copyFileRangeBody
    (hkeeps : ∀ xtree, (v.inodeAt srcIno b₁ j₁).xtree = .ok xtree → xtree.totalBlocks ≠ 0 →
      (xtree.takeExtents ↑(srcOffset / blockSize)
        ↑(srcOffset / blockSize + len / blockSize)).2.totalBlocks ≠ 0) :
    Safe CountsBlocks lo hi v w := by
  obtain ⟨xtree, hxtree, ⟨-, rfl⟩ | ⟨v₁, dstXtree, v₂, hmoves, hend⟩⟩ :=
    hv.of_copyFileRangeBody hsrc hb₁ hdst hb₂ hlo hrun rfl rfl rfl
  · exact refl_of (Safe CountsBlocks lo hi) w
  have hnblocks : nblocks (slotOf (v.own srcIno b₁) j₁) = xtree.totalBlocks := by
    obtain ⟨xtree', hxtree', hcount⟩ := hcounts _ (v.shows_own srcIno b₁)
    cases hxtree.symm.trans hxtree'
    exact hcount
  have hfirst : Safe CountsBlocks lo hi v v₁ := fun _ =>
    hv.source_written hsrc hb₁ (isEdit_giveUp _ _) hmoves.source fun dinode hlen _ => by
      refine (countsBlocks_giveUp_iff hlen xtree (nblocks_lt _)).mpr fun hzero => ?_
      by_contra hne
      exact hkeeps xtree hxtree (fun htotal => hne (hnblocks.trans htotal)) hzero
  refine trans_of (Safe CountsBlocks lo hi) hfirst ?_
  refine trans_of (Safe CountsBlocks lo hi)
    (Returns.of_run hmoves.freed (returns_of_dataPhase (dataPhase_freeExtents _ _))) ?_
  rcases hend with ⟨-, -, rfl⟩ | ⟨newXtree, hreceive, -, hupdate⟩
  · exact refl_of (Safe CountsBlocks lo hi) w
  · have htotal := totalBlocks_receive (by omega) hmoves.taken hreceive
    refine Returns.of_run hupdate (Returns.bind ?_ fun _ => returns_markPageDirty dstIno b₂)
    refine returns_updateInodePage (isEdit_resize _ _ _) (fun dinode hlen _ => ?_) hb₂ hdst.slot dstIno
    refine (countsBlocks_resize_iff hlen newXtree _ _).mpr ?_
    exact (computeNblocks_eq_iff newXtree (nblocks_lt _)).mpr fun hzero => absurd hzero htotal

end Moved

section Within

variable {lo hi : ℕ} {v : Volume} (hv : v.Guarded lo hi) {ino : UInt32} {b j : ℕ}
  (hplaced : v.Placed ino b j) (hb : b ≤ hi)

include hv hplaced hb

/-- What a file reads of itself after an update. -/
theorem Guarded.own_of_update {f : List UInt8 → List UInt8} (hf : IsEdit f) {v₁ : Volume}
    (hrun : (do
      Volume.updateInodePage ino b (j * disize) f
      Volume.markPageDirty ino b : VolM Unit) v = .ok () v₁) :
    v₁.own ino b = updateAt (j * disize) f (v.loaded ino b) ∧
      slotOf (v₁.own ino b) j = f (slotOf (v.loaded ino b) j) := by
  obtain ⟨active, cache, -, rfl, hreplaces⟩ :=
    hv.toCalm.of_update_and_mark (lt_of_le_of_lt hb hv.inside) hrun
  obtain ⟨page, hpage, hdata, -⟩ := hreplaces.page
  have hown : own { v with
      pageCache := cache
      txMgr := { v.txMgr with active := some (marked active (ino, b)) } } ino b =
      updateAt (j * disize) f (v.loaded ino b) := by
    unfold own
    simp only [hpage, Option.map_some, Option.getD_some, hdata]
  refine ⟨hown, ?_⟩
  rw [hown, slotOf_updateAt (hv.length_of_shows (v.shows_loaded ino b)) hplaced.slot hf, if_pos rfl]

/-- **Two updates of one page**, with a data phase between them. -/
theorem Guarded.safe_twice {P : List UInt8 → Prop} {f g : List UInt8 → List UInt8} (hf : IsEdit f)
    (hg : IsEdit g) {v₁ v₂ w : Volume}
    (hfirst : (do
      Volume.updateInodePage ino b (j * disize) f
      Volume.markPageDirty ino b : VolM Unit) v = .ok () v₁)
    (hphase : DataPhase (fun block => lo ≤ block ∧ block ≤ hi) v₁ v₂)
    (hsecond : (do
      Volume.updateInodePage ino b (j * disize) g
      Volume.markPageDirty ino b : VolM Unit) v₂ = .ok () w)
    (hP : ∀ dinode, dinode.length = disize → P (g (f dinode))) : Safe P lo hi v w := by
  intro _
  have hstep : ∀ {f : List UInt8 → List UInt8} {v v' : Volume}, IsEdit f → (do
      Volume.updateInodePage ino b (j * disize) f
      Volume.markPageDirty ino b : VolM Unit) v = .ok () v' → Safe (fun _ => True) lo hi v v' :=
    fun hf hrun => Returns.of_run hrun
      (Returns.bind (returns_updateInodePage hf (fun _ _ _ => trivial) hb hplaced.slot ino) fun _ =>
        returns_markPageDirty ino b)
  obtain ⟨hv₁, -⟩ := hstep hf hfirst hv
  obtain ⟨hv₂, -⟩ := hphase.safe (P := fun _ => True) hv₁
  obtain ⟨hw, -⟩ := hstep hg hsecond hv₂
  refine ⟨hw, ?_⟩
  have hbv : b < v.aggSize := lt_of_le_of_lt hb hv.inside
  obtain ⟨active, cache, -, rfl, hreplaces⟩ := hv.toCalm.of_update_and_mark hbv hfirst
  obtain ⟨hrest, hstorage, -⟩ := hphase
  obtain ⟨active₂, cache₂, -, rfl, hreplaces₂⟩ := hv₂.toCalm.of_update_and_mark
    (lt_of_le_of_lt hb hv₂.inside) hsecond
  have hcache : v₂.pageCache = cache := by rw [hrest]
  have hloaded : v₂.loaded ino b = updateAt (j * disize) f (v.loaded ino b) := by
    obtain ⟨page, hpage, hdata, -⟩ := hreplaces.page
    unfold loaded
    rw [hcache, hpage, Option.map_some, Option.getD_some, hdata]
    rfl
  rw [hcache, hloaded] at hreplaces₂
  have hlen := hv.length_of_shows (v.shows_loaded ino b)
  have hcarries : Carries P lo hi v { v with pageCache := cache₂ } := by
    refine carries_slots (k := (ino, b)) (v.shows_loaded ino b) (fun j' hj' => ?_)
      (hreplaces.trans hreplaces₂)
    rw [slotOf_updateAt (length_updateAt_slot hlen hplaced.slot hf) hplaced.slot hg,
      slotOf_updateAt hlen hplaced.slot hf, slotOf_updateAt hlen hplaced.slot hf, if_pos rfl]
    split
    · next heq =>
        have hslot := length_slotOf hlen hplaced.slot
        rw [heq]
        refine ⟨fun key => ?_, fun _ => hP _ hslot⟩
        rw [hg.key key _ (hf.length _ hslot), hf.key key _ hslot]
    · exact ⟨fun _ => Iff.rfl, id⟩
  refine hcarries.trans (Carries.of_shows (by rw [hrest]) (by rw [hrest]) fun block data hlow hhigh h => ?_)
  rcases h with hblock | hcached
  · exact Or.inl ((hstorage.blocks block ⟨hlow, hhigh⟩).symm.trans hblock)
  · exact Or.inr hcached

/-- **The body of `copy_file_range_extent`** within one file. -/
theorem Guarded.safe_copyWithin (hlo : lo ≤ v.ait2.address) (hcounts : v.Everywhere b j CountsBlocks)
    {srcOffset dstOffset len : ℕ} (hpos : 0 < len / blockSize) {exit : Exit (Option ℕ) (Option ℕ)}
    {w : Volume} (hrun : copyFileRangeBody ino srcOffset ino dstOffset len v = .ok exit w) :
    Safe CountsBlocks lo hi v w := by
  have hrun' := hrun
  obtain ⟨xtree, hxtree, ⟨-, rfl⟩ | ⟨v₁, dstXtree, v₂, hmoves, hend⟩⟩ :=
    hv.of_copyFileRangeBody hplaced hb hplaced hb hlo hrun rfl rfl rfl
  · exact refl_of (Safe CountsBlocks lo hi) w
  by_cases hzero : (xtree.takeExtents ↑(srcOffset / blockSize)
      ↑(srcOffset / blockSize + len / blockSize)).2.totalBlocks = 0
  · -- the root that is read back is empty, so the extents go back into it
    have hempty : dstXtree.slots = [] := by
      obtain ⟨-, hslot⟩ := hv.own_of_update hplaced hb (isEdit_giveUp _ _) hmoves.source
      have hlen := length_slotOf (hv.length_of_shows (v.shows_loaded ino b)) hplaced.slot
      have hroot : Dinode.root (slotOf (v₁.own ino b) j) = (xtree.takeExtents ↑(srcOffset / blockSize)
          ↑(srcOffset / blockSize + len / blockSize)).2.toBytes := by
        rw [hslot]
        exact (root_setNblocks (length_setRoot hlen _) _).trans (root_setRoot hlen _)
      have hdest := hmoves.dest
      unfold Inode.xtree inodeAt at hdest
      rw [hroot] at hdest
      rw [Xtree.slots_fromInodeData_toBytes hdest, Xtree.slots_takeExtents_eq_nil hzero]
    have hreceives : ∃ newXtree, receive ↑(srcOffset / blockSize) ↑(srcOffset / blockSize + len / blockSize)
        ↑(dstOffset / blockSize) ↑(dstOffset / blockSize + len / blockSize) xtree dstXtree = some newXtree :=
      receive_of_empty hempty
    obtain ⟨newXtree, hreceive⟩ := hreceives
    rcases hend with ⟨hnone, -⟩ | ⟨newXtree', hreceive', -, hupdate⟩
    · exact absurd (hnone.symm.trans hreceive) (by simp)
    have htotal := totalBlocks_receive (by omega) hmoves.taken hreceive'
    have hphase : DataPhase (fun block => lo ≤ block ∧ block ≤ hi) v₁ v₂ :=
      Returns.of_run hmoves.freed (dataPhase_freeExtents _ _).returns
    refine hv.safe_twice hplaced hb (isEdit_giveUp _ _) (isEdit_resize _ _ _) hmoves.source hphase hupdate
      fun dinode hlen => ?_
    refine (countsBlocks_resize_iff ((isEdit_giveUp _ _).length dinode hlen) newXtree' _ _).mpr ?_
    exact (computeNblocks_eq_iff newXtree' (nblocks_lt _)).mpr fun h => absurd h htotal
  · refine hv.safe_copyFileRangeBody hplaced hb hplaced hb hlo hcounts hpos hrun' fun xtree' hxtree' _ => ?_
    cases hxtree.symm.trans hxtree'
    exact hzero

end Within

/-! ## Calls that lose the count -/

theorem inodeKey_injective : Function.Injective inodeKey := by
  intro ino ino' h
  unfold inodeKey filesystemI at h
  apply UInt32.toNat_inj.mp
  split at h <;> split at h <;> simp only [Prod.mk.injEq] at h <;> omega

/-- Different inodes have different places. -/
theorem Placed.ne {v : Volume} {ino ino' : UInt32} {b j j' : ℕ} (h : v.Placed ino b j)
    (h' : v.Placed ino' b j') (hne : ino ≠ ino') : j ≠ j' := by
  rintro rfl
  obtain ⟨hfileset, hnumber⟩ := h.key _ (v.shows_shown b)
  obtain ⟨hfileset', hnumber'⟩ := h'.key _ (v.shows_shown b)
  refine hne (inodeKey_injective (Prod.ext ?_ ?_))
  · exact hfileset.symm.trans hfileset'
  · exact hnumber.symm.trans hnumber'

section Loses

variable {lo hi : ℕ} {v : Volume} (hv : v.Guarded lo hi) {ino : UInt32} {b j : ℕ}
  (hplaced : v.Placed ino b j) (hb : b ≤ hi) {active : ActiveTxn}
  (hactive : v.txMgr.active = some active) (hclean : active.dirtyPages = [])

include hv hplaced hb hactive hclean

/-- **A truncation that leaves no extent** writes the old number of blocks. -/
theorem Guarded.miscounts_truncateBody {newSize : ℕ} {xtree : Xtree}
    (hxtree : (v.inodeAt ino b j).xtree = .ok xtree)
    (hshrink : blocksUpTo newSize < blocksUpTo (v.inodeAt ino b j).size)
    (hcut : ∀ xad ∈ xtree.slots, xad.length ≠ 0 → blocksUpTo newSize ≤ xad.offset)
    (hnblocks : nblocks (slotOf (v.own ino b) j) ≠ 0)
    {exit : Exit Unit Unit} {w : Volume} (hrun : truncateBody ino newSize v = .ok exit w) :
    Safe (fun _ => True) lo hi v w ∧ exit = .commit () ∧ ∃ active data, w.txMgr.active = some active ∧
      lastPage (cachedPages w.pageCache active.dirtyPages) b = some data ∧
        ¬ CountsBlocks (slotOf data j) := by
  obtain ⟨inode, v₁, hread, hrun⟩ := of_bind_ok hrun
  obtain ⟨rfl, rfl⟩ := hv.toCalm.readInode_of_placed hplaced hread
  obtain ⟨xtree', v₂, hxtree', hrun⟩ := of_bind_ok hrun
  obtain ⟨hxtree', rfl⟩ := of_returnExcept_ok hxtree'
  cases hxtree.symm.trans hxtree'
  simp only at hrun
  rw [if_pos hshrink] at hrun
  obtain ⟨_, v₃, hfree, hrun⟩ := of_bind_ok hrun
  obtain ⟨_, v₄, hupdate, hrun⟩ := of_bind_ok hrun
  obtain ⟨_, v₅, hmark, hrun⟩ := of_bind_ok hrun
  cases hrun
  have hphase : DataPhase (fun block => lo ≤ block ∧ block ≤ hi) v₂ v₃ :=
    Returns.of_run hfree (dataPhase_freeExtents _ _).returns
  obtain ⟨hv₃, -⟩ := hphase.safe (P := fun _ => True) hv
  have hwritten : (do
      Volume.updateInodePage ino b (j * disize) (resize (xtree.truncateExtents ↑(blocksUpTo newSize)).2 newSize
        (computeNblocks (xtree.truncateExtents ↑(blocksUpTo newSize)).2 (nblocks (slotOf (v₂.own ino b) j))))
      Volume.markPageDirty ino b : VolM Unit) v₃ = .ok () w := (bind_ok hupdate).trans hmark
  have hsafe : Safe (fun _ => True) lo hi v₃ w := Returns.of_run hwritten
    (Returns.bind (returns_updateInodePage (isEdit_resize _ newSize _) (fun _ _ _ => trivial) hb hplaced.slot ino)
      fun _ => returns_markPageDirty ino b)
  refine ⟨trans_of (Safe _ lo hi) hphase.safe hsafe, rfl, ?_⟩
  obtain ⟨active', cache, hactive', rfl, hreplaces⟩ :=
    hv₃.toCalm.of_update_and_mark (lt_of_le_of_lt hb hv₃.inside) hwritten
  obtain ⟨page, hpage, hdata, -⟩ := hreplaces.page
  have hsame : active' = active := by
    rw [hphase.rest] at hactive'
    exact Option.some.inj (hactive'.symm.trans hactive)
  refine ⟨_, page.data, rfl, ?_, ?_⟩
  · unfold marked
    rw [hsame, hclean, if_neg List.not_mem_nil, List.nil_append, cachedPages_cons_of_peek hpage]
    unfold lastPage
    simp [cachedPages]
  · have hlen := hv₃.length_of_shows (v₃.shows_loaded ino b)
    rw [hdata, slotOf_updateAt hlen hplaced.slot (isEdit_resize _ newSize _), if_pos rfl,
      countsBlocks_resize_iff (length_slotOf hlen hplaced.slot), computeNblocks_eq_iff _ (nblocks_lt _)]
    exact fun h => hnblocks (h ((xtree.totalBlocks_truncateExtents _).mpr fun xad hxad hne => by
      exact_mod_cast hcut xad hxad hne))

end Loses

theorem taken_ne_nil {xtree : Xtree} {srcStart srcEnd : ℕ} (hsome : xtree.totalBlocks ≠ 0)
    (hall : ∀ xad ∈ xtree.slots, xad.length ≠ 0 → srcStart ≤ xad.offset ∧ xad.stop ≤ srcEnd) :
    (xtree.takeExtents srcStart srcEnd).1 ≠ [] := by
  intro hnil
  refine hsome ((Xtree.totalBlocks_eq_zero_iff xtree).mpr fun xad hxad => ?_)
  by_contra hlen
  unfold Xtree.takeExtents at hnil
  simp only [List.flatMap_map] at hnil
  have hpiece := List.flatMap_eq_nil_iff.mp hnil xad hxad
  have hwithin := hall xad hxad hlen
  unfold Xtree.takeXad Xad.stop at hpiece
  unfold Xad.stop at hwithin
  rw [if_neg hlen, if_neg (by push_cast; omega), if_neg (by omega), if_pos (by push_cast; omega)] at hpiece
  cases hpiece

section Gives

variable {lo hi : ℕ} {v : Volume} (hv : v.Guarded lo hi) {srcIno dstIno : UInt32} {b₁ j₁ b₂ j₂ : ℕ}
  (hsrc : v.Placed srcIno b₁ j₁) (hb₁ : b₁ ≤ hi) (hdst : v.Placed dstIno b₂ j₂) (hb₂ : b₂ ≤ hi)
  (hne : srcIno ≠ dstIno) {active : ActiveTxn} (hactive : v.txMgr.active = some active)
  (hclean : active.dirtyPages = []) (hcold : v.pageCache.peek (dstIno, b₂) = none)

include hv hsrc hb₁ hdst hb₂ hne hactive hclean hcold

/-- **A move that takes the last extent** of another file writes its old number of blocks. -/
theorem Guarded.miscounts_copyFileRangeBody (hlo : lo ≤ v.ait2.address) {srcOffset dstOffset len : ℕ}
    {xtree : Xtree} (hxtree : (v.inodeAt srcIno b₁ j₁).xtree = .ok xtree) (hsome : xtree.totalBlocks ≠ 0)
    (hall : ∀ xad ∈ xtree.slots, xad.length ≠ 0 → srcOffset / blockSize ≤ xad.offset ∧
      xad.stop ≤ srcOffset / blockSize + len / blockSize)
    (hnblocks : nblocks (slotOf (v.own srcIno b₁) j₁) ≠ 0)
    {exit : Exit (Option ℕ) (Option ℕ)} {w : Volume}
    (hrun : copyFileRangeBody srcIno srcOffset dstIno dstOffset len v = .ok exit w) :
    Safe (fun _ => True) lo hi v w ∧ ∃ data, ¬ CountsBlocks (slotOf data j₁) ∧
      (exit = .abort (.ok none) ∧ w.Shows b₁ data ∨
        ∃ active, exit = .commit (some len) ∧ w.txMgr.active = some active ∧
          lastPage (cachedPages w.pageCache active.dirtyPages) b₁ = some data) := by
  have htaken := taken_ne_nil hsome hall
  obtain ⟨xtree', hxtree', ⟨hnil, -⟩ | ⟨v₁, dstXtree, v₂, hmoves, hend⟩⟩ :=
    hv.of_copyFileRangeBody hsrc hb₁ hdst hb₂ hlo hrun rfl rfl rfl
  · cases hxtree.symm.trans hxtree'
    exact absurd hnil htaken
  cases hxtree.symm.trans hxtree'
  have hzero : (xtree.takeExtents ↑(srcOffset / blockSize)
      ↑(srcOffset / blockSize + len / blockSize)).2.totalBlocks = 0 := by
    refine (xtree.totalBlocks_takeExtents _ _).mpr fun xad hxad hlen => ?_
    exact_mod_cast hall xad hxad hlen
  have hphase : DataPhase (fun block => lo ≤ block ∧ block ≤ hi) v₁ v₂ :=
    Returns.of_run hmoves.freed (dataPhase_freeExtents _ _).returns
  have hsafe : Safe (fun _ => True) lo hi v v₂ := by
    refine trans_of (Safe _ lo hi) (fun _ => ?_) hphase.safe
    exact hv.source_written hsrc hb₁ (isEdit_giveUp _ _) hmoves.source fun _ _ _ => trivial
  -- the page of the source is wrong from here on
  obtain ⟨active', cache, hactive', rfl, hreplaces⟩ :=
    hv.toCalm.of_update_and_mark (lt_of_le_of_lt hb₁ hv.inside) hmoves.source
  cases hactive.symm.trans hactive'
  obtain ⟨page, hpage, hdata, -⟩ := hreplaces.page
  have hlen := hv.length_of_shows (v.shows_loaded srcIno b₁)
  have hwrong : ¬ CountsBlocks (slotOf page.data j₁) := by
    rw [hdata, slotOf_updateAt hlen hsrc.slot (isEdit_giveUp _ _), if_pos rfl]
    rw [countsBlocks_giveUp_iff (length_slotOf hlen hsrc.slot) xtree (nblocks_lt _)]
    exact fun h => hnblocks (h hzero)
  have hcache : v₂.pageCache = cache := by rw [hphase.rest]
  rcases hend with ⟨-, hexit, rfl⟩ | ⟨newXtree, -, hexit, hupdate⟩
  · refine ⟨hsafe, page.data, hwrong, Or.inl ⟨hexit, Or.inr ⟨srcIno, page, ?_, rfl⟩⟩⟩
    rw [hcache]
    exact hpage
  obtain ⟨hv₂, -⟩ := hsafe hv
  refine ⟨trans_of (Safe _ lo hi) hsafe (Returns.of_run hupdate (Returns.bind
    (returns_updateInodePage (isEdit_resize _ _ _) (fun _ _ _ => trivial) hb₂ hdst.slot dstIno)
    fun _ => returns_markPageDirty dstIno b₂)), ?_⟩
  obtain ⟨active₂, cache₂, hactive₂, rfl, hreplaces₂⟩ :=
    hv₂.toCalm.of_update_and_mark (lt_of_le_of_lt hb₂ hv₂.inside) hupdate
  rw [hcache] at hreplaces₂
  have hkeys : (srcIno, b₁) ≠ (dstIno, b₂) := fun h => hne (congrArg Prod.fst h)
  have hkept : cache₂.peek (srcIno, b₁) = some page :=
    (hreplaces₂.recent (by rw [hreplaces.cap]; exact hv.room) _ hreplaces.front hkeys).trans hpage
  have hdirty : active₂.dirtyPages = [(srcIno, b₁)] := by
    rw [hphase.rest] at hactive₂
    cases hactive₂
    unfold marked
    rw [hclean, if_neg List.not_mem_nil, List.nil_append]
  obtain ⟨page₂, hpage₂, hdata₂, -⟩ := hreplaces₂.page
  have hpages : cachedPages cache₂ (marked active₂ (dstIno, b₂)).dirtyPages =
      [(b₁, page.data)] ++ [(b₂, page₂.data)] := by
    unfold marked
    rw [hdirty, if_neg (by simpa using hkeys.symm), List.singleton_append, cachedPages_cons_of_peek hkept,
      cachedPages_cons_of_peek hpage₂]
    rfl
  have hlast := lastPage_append [(b₁, page.data)] (b₂, page₂.data) b₁
  rw [← hpages] at hlast
  by_cases hblock : b₂ = b₁
  · -- the page of the destination is a copy of the one of the source
    subst hblock
    rw [if_pos rfl] at hlast
    refine ⟨page₂.data, ?_, Or.inr ⟨_, hexit, rfl, hlast⟩⟩
    have hcold₁ : cache.peek (dstIno, b₂) = none := by
      rcases hreplaces.others (dstIno, b₂) hkeys.symm with hsame | hnone
      · exact hsame.trans hcold
      · exact hnone
    have hloaded : v₂.loaded dstIno b₂ = page.data := by
      refine loaded_of_head hne ?_ ?_ ?_
      · rw [hcache]
        exact hcold₁
      · rw [hcache]
        exact hreplaces.front
      · rw [hcache]
        exact hpage
    have hlen₂ := hv₂.length_of_shows (v₂.shows_loaded dstIno b₂)
    rw [hdata₂, slotOf_updateAt hlen₂ hdst.slot (isEdit_resize _ _ _), if_neg (hsrc.ne hdst hne), hloaded]
    exact hwrong
  · rw [if_neg hblock] at hlast
    refine ⟨page.data, hwrong, Or.inr ⟨_, hexit, rfl, hlast.trans ?_⟩⟩
    unfold lastPage
    simp

end Gives

/-! ## Whole calls -/

/-- The inode has a place in the table, and every copy of it has the number of its blocks. -/
def Counted (hi : ℕ) (v : Volume) (ino : UInt32) : Prop :=
  ∃ b j, v.Placed ino b j ∧ b ≤ hi ∧ v.Everywhere b j CountsBlocks

/-- The inode table, up to block `hi`, is not free, and none of the files has an extent in it. -/
structure Sound (hi : ℕ) (v : Volume) (files : List UInt32) : Prop where
  guarded : v.Guarded v.ait2.address hi
  spared : Spared (fun a => v.ait2.address ≤ a ∧ a ≤ hi) v
  extents : ∀ ino ∈ files, ∀ b j, v.Placed ino b j → ∀ xtree, (v.inodeAt ino b j).xtree = .ok xtree →
    ∀ a ∈ xtree.blocks, ¬ (v.ait2.address ≤ a ∧ a ≤ hi)

theorem of_writeAt_ok {ino : UInt32} {offset : ℕ} {data : List UInt8} {token : List Bool} {v v' : Volume}
    {written : ℕ} (hrun : writeAtWithInterrupt ino offset data token v = .ok written v') :
    transaction (writeAtBody ino offset data token) v = .ok written v' := by
  obtain ⟨txid, v₁, hbegin, hrun⟩ := of_bind_ok hrun
  obtain ⟨exit, w, hexit, hend⟩ := of_bind_ok hrun
  refine (bind_ok hbegin).trans ((bind_ok hexit).trans ?_)
  cases exit with
  | abort result => exact hend
  | commit n =>
      obtain ⟨_, w', hcommit, hend⟩ := of_bind_ok hend
      cases hend
      -- a failed commit is an error of the call
      cases hdone : (do let _ ← commitTransaction : VolM Unit) w with
      | error e w'' =>
          rw [tryCatch_error hdone] at hcommit
          obtain ⟨_, _, -, hthrow⟩ := of_bind_ok hcommit
          cases hthrow
      | ok _ w'' =>
          cases hcommit.symm.trans (tryCatch_ok hdone)
          obtain ⟨result, _, hcommit, hdone⟩ := of_bind_ok hdone
          cases hdone
          exact bind_ok hcommit

theorem Carries.counted {hi : ℕ} {v v' : Volume} (h : Carries CountsBlocks v.ait2.address hi v v')
    {ino : UInt32} (hcounted : v.Counted hi ino) : v'.Counted hi ino := by
  obtain ⟨b, j, hplaced, hb, hcounts⟩ := hcounted
  exact ⟨b, j, h.placed le_rfl hb hplaced, hb, h.everywhere hplaced.low hb hplaced.slot hcounts⟩

/-- A file that does not lose all of its extents. -/
theorem exists_of_not_losesAll {v : Volume} (h : v.Calm) {ino : UInt32} {b j : ℕ} (hplaced : v.Placed ino b j)
    {cut : Inode → Xad → Prop} (hnot : ¬ LosesAll v ino cut) {xtree : Xtree}
    (hxtree : (v.inodeAt ino b j).xtree = .ok xtree) (hsome : xtree.totalBlocks ≠ 0) :
    ∃ xad ∈ xtree.slots, xad.length ≠ 0 ∧ ¬ cut (v.inodeAt ino b j) xad := by
  by_contra hall
  refine hnot ⟨_, xtree, h.readInode_of_foundAt hplaced.foundAt, hxtree, hsome, fun xad hxad hlen => ?_⟩
  by_contra hcut
  exact hall ⟨xad, hxad, hlen, hcut⟩

section Calls

variable {hi : ℕ} {v v' : Volume}

/-- **A call that takes no last extent** keeps the places and the counts. -/
theorem FileCall.carries (call : FileCall) (hsound : v.Sound hi call.files)
    (hcounted : ∀ ino ∈ call.files, v.Counted hi ino) (hrun : call.run v = .ok () v')
    (hkeeps : ¬ call.TakesLast v) : Carries CountsBlocks v.ait2.address hi v v' := by
  obtain ⟨hv, hspared, hextents⟩ := hsound
  obtain ⟨hbegun, hstart⟩ := safe_begun (P := CountsBlocks) v hv
  cases call with
  | writeAt ino offset data token =>
      obtain ⟨b, j, hplaced, hb, hcounts⟩ := hcounted ino (List.mem_singleton_self ino)
      obtain ⟨written, w, hwrite, hrun⟩ := of_bind_ok hrun
      cases hrun
      refine hv.carries_transaction (fun exit w hbody => ?_) (of_writeAt_ok hwrite)
      exact hbegun.safe_writeAtBody (hstart.placed le_rfl hb hplaced) hb hspared
        (hextents ino (List.mem_singleton_self ino) b j hplaced) hbody
  | truncate ino newSize =>
      obtain ⟨b, j, hplaced, hb, hcounts⟩ := hcounted ino (List.mem_singleton_self ino)
      refine hv.carries_transaction (fun exit w hbody => ?_) hrun
      refine hbegun.safe_truncateBody (hstart.placed le_rfl hb hplaced) hb
        (hstart.everywhere hplaced.low hb hplaced.slot hcounts)
        (hextents ino (List.mem_singleton_self ino) b j hplaced) (fun xtree hxtree hshrink hsome => ?_) hbody
      obtain ⟨xad, hxad, hlen, hcut⟩ := exists_of_not_losesAll hv.toCalm hplaced hkeeps hxtree hsome
      exact ⟨xad, hxad, hlen, not_le.mp fun hle => hcut ⟨hshrink, hle⟩⟩
  | fallocate ino offset len mode =>
      obtain ⟨b, j, hplaced, hb, hcounts⟩ := hcounted ino (List.mem_singleton_self ino)
      change Volume.fallocate ino offset len mode v = .ok () v' at hrun
      unfold Volume.fallocate at hrun
      split at hrun
      · cases hrun
      · refine hv.carries_transaction (fun exit w hbody => ?_) hrun
        exact hbegun.safe_fallocateBody (hstart.placed le_rfl hb hplaced) hb hspared hbody
  | copyFileRangeExtent srcIno srcOffset dstIno dstOffset len =>
      obtain ⟨b₁, j₁, hsrc, hb₁, hcounts⟩ := hcounted srcIno (List.mem_cons_self ..)
      obtain ⟨b₂, j₂, hdst, hb₂, -⟩ := hcounted dstIno (List.mem_cons_of_mem _ (List.mem_singleton_self dstIno))
      obtain ⟨copied, w, hcopy, hrun⟩ := of_bind_ok hrun
      cases hrun
      unfold Volume.copyFileRangeExtent at hcopy
      split at hcopy
      · cases hcopy
        exact Carries.refl CountsBlocks _ hi _
      next haligned =>
      have hpos : 0 < len / blockSize := by
        unfold blockSize at *
        omega
      refine hv.carries_transaction (fun exit w hbody => ?_) hcopy
      have hsrc' := hstart.placed le_rfl hb₁ hsrc
      have hcounts' := hstart.everywhere hsrc.low hb₁ hsrc.slot hcounts
      by_cases hsame : srcIno = dstIno
      · rw [← hsame] at hbody
        exact hbegun.safe_copyWithin hsrc' hb₁ le_rfl hcounts' hpos hbody
      · refine hbegun.safe_copyFileRangeBody hsrc' hb₁ (hstart.placed le_rfl hb₂ hdst) hb₂ le_rfl hcounts' hpos
          hbody fun xtree hxtree hsome => ?_
        have hnot : ¬ LosesAll v srcIno fun _ xad => srcOffset / blockSize ≤ xad.offset ∧
            xad.stop ≤ srcOffset / blockSize + len / blockSize := fun hloses =>
          hkeeps ⟨by omega, by omega, by omega, hsame, hloses⟩
        obtain ⟨xad, hxad, hlen, hcut⟩ := exists_of_not_losesAll hv.toCalm hsrc hnot hxtree hsome
        intro hzero
        have hall := (xtree.totalBlocks_takeExtents _ _).mp hzero xad hxad hlen
        exact hcut (by exact_mod_cast hall)

/-- **A call that takes the last extent** of a file leaves it with a wrong count. -/
theorem FileCall.not_counted (call : FileCall) (hsound : v.Sound hi call.files)
    (hcounted : ∀ ino ∈ call.files, v.Counted hi ino) (hrun : call.run v = .ok () v')
    (hcold : ∀ ino ∈ call.files, ∀ b, v.pageCache.peek (ino, b) = none) (htakes : call.TakesLast v) :
    ∃ ino ∈ call.files, ¬ v'.Counted hi ino := by
  obtain ⟨hv, hspared, hextents⟩ := hsound
  obtain ⟨hbegun, hstart⟩ := safe_begun (P := fun _ => True) v hv
  -- a copy that was carried over, in its old place, counts wrong
  have hwrong : ∀ {ino : UInt32} {b j : ℕ} {data : List UInt8}, v.Placed ino b j → b ≤ hi →
      Carries (fun _ => True) v.ait2.address hi v v' → v'.Shows b data → ¬ CountsBlocks (slotOf data j) →
      ¬ v'.Counted hi ino := by
    rintro ino b j data hplaced hb hcarries hshows hmiscounts ⟨b', j', hplaced', -, hcounts⟩
    obtain ⟨rfl, rfl⟩ := (hcarries.placed le_rfl hb hplaced).unique hplaced'
    exact hmiscounts (hcounts data hshows)
  have hbefore : ∀ {ino : UInt32} {b j : ℕ} {xtree : Xtree}, v.Everywhere b j CountsBlocks →
      (v.inodeAt ino b j).xtree = .ok xtree → nblocks (slotOf (v.own ino b) j) = xtree.totalBlocks := by
    intro ino b j xtree hcounts hxtree
    obtain ⟨xtree', hxtree', hcount⟩ := hcounts _ (v.shows_own ino b)
    cases hxtree.symm.trans hxtree'
    exact hcount
  cases call with
  | writeAt ino offset data token => exact absurd htakes not_false
  | fallocate ino offset len mode => exact absurd htakes not_false
  | truncate ino newSize =>
      obtain ⟨b, j, hplaced, hb, hcounts⟩ := hcounted ino (List.mem_singleton_self ino)
      obtain ⟨inode, xtree, hread, hxtree, hsome, hall⟩ := htakes
      obtain ⟨-, rfl⟩ := hv.toCalm.readInode_of_placed hplaced hread
      obtain ⟨last, hlast, hlen⟩ := Xtree.exists_of_totalBlocks_ne_zero hsome
      have hbody := fun exit w (hexit : truncateBody ino newSize v.begun = .ok exit w) =>
        hbegun.miscounts_truncateBody (hstart.placed le_rfl hb hplaced) hb rfl rfl hxtree (hall last hlast hlen).1
          (fun xad hxad hlen => (hall xad hxad hlen).2)
          (fun hzero => hsome ((hbefore hcounts hxtree).symm.trans hzero)) hexit
      have hcarries := hv.carries_transaction (fun exit w hexit => (hbody exit w hexit).1) hrun
      refine ⟨ino, List.mem_singleton_self ino, ?_⟩
      obtain ⟨exit, w, hexit, hend⟩ := of_transaction_ok hrun
      obtain ⟨hsafe, rfl, active, data, hactive, hpage, hmiscounts⟩ := hbody exit w hexit
      rcases hend with ⟨-, result, hcommit⟩ | ⟨habort, -⟩
      · obtain ⟨hw, -⟩ := hsafe hbegun
        have hshows := hw.toCalm.shows_last hactive hcommit (hw.plain hplaced.low hb) hpage
        exact hwrong hplaced hb hcarries hshows hmiscounts
      · cases habort
  | copyFileRangeExtent srcIno srcOffset dstIno dstOffset len =>
      obtain ⟨b₁, j₁, hsrc, hb₁, hcounts⟩ := hcounted srcIno (List.mem_cons_self ..)
      obtain ⟨b₂, j₂, hdst, hb₂, -⟩ := hcounted dstIno (List.mem_cons_of_mem _ (List.mem_singleton_self dstIno))
      obtain ⟨hsrcAligned, hdstAligned, hlenAligned, hne, inode, xtree, hread, hxtree, hsome, hall⟩ := htakes
      obtain ⟨-, rfl⟩ := hv.toCalm.readInode_of_placed hsrc hread
      obtain ⟨copied, w', hcopy, hrun⟩ := of_bind_ok hrun
      cases hrun
      have hpos : len ≠ 0 := by
        rintro rfl
        obtain ⟨last, hlast, hlen⟩ := Xtree.exists_of_totalBlocks_ne_zero hsome
        have hwithin := hall last hlast hlen
        rw [Nat.zero_div] at hwithin
        unfold Xad.stop at hwithin
        omega
      unfold Volume.copyFileRangeExtent at hcopy
      rw [if_neg (by omega)] at hcopy
      have hbody := fun exit w (hexit : copyFileRangeBody srcIno srcOffset dstIno dstOffset len v.begun = .ok exit w) =>
        hbegun.miscounts_copyFileRangeBody (hstart.placed le_rfl hb₁ hsrc) hb₁
          (hstart.placed le_rfl hb₂ hdst) hb₂ hne rfl rfl
          (hcold dstIno (List.mem_cons_of_mem _ (List.mem_singleton_self dstIno)) b₂) le_rfl hxtree hsome hall
          (fun hzero => hsome ((hbefore hcounts hxtree).symm.trans hzero)) hexit
      have hcarries := hv.carries_transaction (fun exit w hexit => (hbody exit w hexit).1) hcopy
      refine ⟨srcIno, List.mem_cons_self .., ?_⟩
      obtain ⟨exit, w, hexit, hend⟩ := of_transaction_ok hcopy
      obtain ⟨hsafe, data, hmiscounts, ⟨rfl, hshows⟩ | ⟨active, rfl, hactive, hpage⟩⟩ := hbody exit w hexit
      · rcases hend with ⟨hexit, -⟩ | ⟨-, habort⟩
        · cases hexit
        · obtain ⟨hw, -⟩ := hsafe hbegun
          obtain ⟨-, -, hall⟩ := hw.shows_of_abort habort
          exact hwrong hsrc hb₁ hcarries ((hall b₁ data).mpr hshows) hmiscounts
      · rcases hend with ⟨-, result, hcommit⟩ | ⟨hexit, -⟩
        · obtain ⟨hw, -⟩ := hsafe hbegun
          have hshows := hw.toCalm.shows_last hactive hcommit (hw.plain hsrc.low hb₁) hpage
          exact hwrong hsrc hb₁ hcarries hshows hmiscounts
        · cases hexit

end Calls

/-- **Block counts.**  A call that returned keeps the counts of its files, unless it takes the last
extent of one of them; where no page of the files was cached, that is the only exception. -/
theorem FileCall.counted_unless_takesLast (call : FileCall) (hi : ℕ) (v v' : Volume)
    (hsound : v.Sound hi call.files) (hcounted : ∀ ino ∈ call.files, v.Counted hi ino)
    (hrun : call.run v = .ok () v') :
    (¬ call.TakesLast v → ∀ ino ∈ call.files, v'.Counted hi ino) ∧
      ((∀ ino ∈ call.files, ∀ b, v.pageCache.peek (ino, b) = none) →
        ((∀ ino ∈ call.files, v'.Counted hi ino) ↔ ¬ call.TakesLast v)) := by
  have hkeeps : ¬ call.TakesLast v → ∀ ino ∈ call.files, v'.Counted hi ino := fun hnot ino hino =>
    (call.carries hsound hcounted hrun hnot).counted (hcounted ino hino)
  refine ⟨hkeeps, fun hcold => ⟨fun hall htakes => ?_, hkeeps⟩⟩
  obtain ⟨ino, hino, hmiscounts⟩ := call.not_counted hsound hcounted hrun hcold htakes
  exact hmiscounts (hall ino hino)

section OneFile

variable (xtree : Xtree) (size : ℕ) (content : ℕ → UInt8)

theorem sound_oneFile (hblocks : 4 ∉ xtree.blocks) : (oneFile xtree size content).Sound 4 [19] where
  guarded := (ait2_oneFile xtree size content).symm ▸ guarded_oneFile xtree size content
  spared := (ait2_oneFile xtree size content).symm ▸ spared_oneFile xtree size content
  extents := by
    intro ino hino b j hplaced root hroot a ha hrange
    cases List.mem_singleton.mp hino
    obtain ⟨rfl, rfl⟩ := (placed_oneFile xtree size content).unique hplaced
    rw [inodeAt_oneFile] at hroot
    cases (xtree_fileInode xtree size).symm.trans hroot
    rw [ait2_oneFile] at hrange
    rw [Xtree.blocks_stored, le_antisymm hrange.2 hrange.1] at ha
    exact hblocks ha

theorem counted_oneFile : (oneFile xtree size content).Counted 4 19 := by
  refine ⟨4, 0, placed_oneFile xtree size content, le_rfl, fun data hshows => ?_⟩
  rw [← (shows_oneFile_iff ..).mp hshows, slotOf_oneFile]
  exact counts_fileInode xtree size

end OneFile

/-- A file of three blocks, 12288 bytes long. -/
def threeBlockFile : Volume :=
  oneFile Xtree.threeBlocks 12288 fun _ => 0

theorem settled_threeBlockFile : threeBlockFile.Settled :=
  settled_oneFile ..

theorem placed_threeBlockFile : threeBlockFile.Placed 19 4 0 :=
  placed_oneFile ..

theorem size_threeBlockFile : (threeBlockFile.inodeAt 19 4 0).size = 12288 := by
  unfold threeBlockFile
  rw [inodeAt_oneFile]
  exact size_fileInode ..

theorem xtree_threeBlockFile : (threeBlockFile.inodeAt 19 4 0).xtree = .ok Xtree.threeBlocks.stored := by
  unfold threeBlockFile
  rw [inodeAt_oneFile]
  exact xtree_fileInode ..

theorem exists_truncate_threeBlockFile (newSize : ℕ) :
    ∃ v', truncate 19 newSize threeBlockFile = .ok () v' ∧ v'.Settled ∧ v'.txMgr.active = none := by
  have hguarded : threeBlockFile.Guarded 4 4 := guarded_oneFile ..
  refine settled_threeBlockFile.exists_truncate hguarded (ait2_oneFile ..).ge rfl placed_threeBlockFile
    le_rfl newSize xtree_threeBlockFile fun hgrows => hgrows.2 ?_
  rw [size_threeBlockFile]
  rfl

theorem sound_threeBlockFile : threeBlockFile.Sound 4 [19] :=
  sound_oneFile Xtree.threeBlocks 12288 _ (by decide)

theorem counted_threeBlockFile : ∀ ino ∈ [(19 : UInt32)], threeBlockFile.Counted 4 ino :=
  fun _ hino => List.mem_singleton.mp hino ▸ counted_oneFile ..

/-- A file that keeps its first block keeps the count. -/
theorem FileCall.counted_unless_takesLast_shorter :
    ∃ v', (FileCall.truncate 19 4096).run threeBlockFile = .ok () v' ∧ v'.Counted 4 19 := by
  obtain ⟨v', hrun, -⟩ := exists_truncate_threeBlockFile 4096
  refine ⟨v', hrun, (FileCall.counted_unless_takesLast (.truncate 19 4096) 4 threeBlockFile v'
    sound_threeBlockFile counted_threeBlockFile hrun).1 ?_ 19 (List.mem_singleton_self 19)⟩
  rintro ⟨inode, xtree, hread, hxtree, -, hall⟩
  obtain ⟨-, rfl⟩ := settled_threeBlockFile.toCalm.readInode_of_placed placed_threeBlockFile hread
  cases hxtree.symm.trans xtree_threeBlockFile
  rw [Xtree.slots_stored, Xtree.slots_threeBlocks] at hall
  exact absurd (hall _ (List.mem_singleton_self _) (by decide)).2 (by decide)

/-- A file that is cut off completely keeps its old number of blocks. -/
theorem truncate_to_zero_miscounts :
    threeBlockFile.Counted 4 19 ∧
      ∃ v', truncate 19 0 threeBlockFile = .ok () v' ∧ ¬ v'.Counted 4 19 := by
  have htakes : (FileCall.truncate 19 0).TakesLast threeBlockFile := by
    refine ⟨_, _, settled_threeBlockFile.toCalm.readInode_of_foundAt placed_threeBlockFile.foundAt,
      xtree_threeBlockFile, by decide, fun xad _ _ => ⟨?_, Nat.zero_le _⟩⟩
    rw [size_threeBlockFile]
    decide
  obtain ⟨v', hrun, -⟩ := exists_truncate_threeBlockFile 0
  obtain ⟨ino, hino, hmiscounts⟩ := FileCall.not_counted (.truncate 19 0) sound_threeBlockFile
    counted_threeBlockFile hrun (fun _ _ _ => PageCache.peek_new ..) htakes
  cases List.mem_singleton.mp hino
  exact ⟨counted_threeBlockFile 19 hino, v', hrun, hmiscounts⟩

end Volume

end JfsFuse
