import JfsFuse.Journal.Restart
import JfsFuse.Volume.Overwrite

/-!
# Files whose blocks are there

A file all of whose blocks are allocated keeps them under writes below its size, and so reads as an array of
bytes does: after any run of such writes, and of calls on other inodes in between, a read returns what was
written last.  A write that fails may have stored a first part of its data.
-/

namespace JfsFuse

open ByteBuf Program

/-- A byte that can be read is that of the block. -/
theorem Storage.blockByte_eq_some {s : Storage} {block j : ℕ} {x : UInt8} (h : s.blockByte block j = some x) :
    s.blockByte block j = some ((s.block block).getD j 0) := by
  unfold blockByte at h ⊢
  cases hread : s.readResult (block * blockSize) blockSize with
  | error e =>
      rw [hread] at h
      cases h
  | ok data =>
      rw [hread] at h
      simp only at h ⊢
      have hdata : data = s.block block := readResult_inv hread
      rw [hdata] at h ⊢
      rw [h, List.getD_eq_getElem?_getD, h, Option.getD_some]

instance : IsPreorder Storage Storage.Later where
  refl := Storage.Later.refl
  trans _ _ _ := Storage.Later.trans

namespace Xtree

/-! ## What a read does -/

theorem later_readRun (block count : ℕ) (st : ReadState) : Within Storage.Later (readRun block count st) := by
  induction count generalizing block st with
  | zero => exact Within.pure _
  | succ count ih =>
      unfold readRun
      refine Within.ite (Within.pure _) (Within.bind (fun s => ?_) fun data => ?_)
      · exact StorageM.final_readBytes (block * blockSize) blockSize s
      · exact Within.bind (Within.returnExcept _) fun bytes => ih _ _

theorem later_readParts (parts : List (ℕ × ℕ)) (st : ReadState) : Within Storage.Later (readParts parts st) := by
  induction parts generalizing st with
  | nil => exact Within.pure _
  | cons part rest ih =>
      obtain ⟨blockAddr, blockCount⟩ := part
      unfold readParts
      refine Within.ite (Within.ite (Within.pure _) (ih _)) ?_
      exact Within.bind (later_readRun _ _ _) fun st' => ih st'

/-- **A read** asks the device for its decisions, and does nothing else. -/
theorem later_readData (xt : Xtree) (offset length : ℕ) : Within Storage.Later (xt.readData offset length) :=
  Within.bind (later_readParts _ _) fun _ => Within.pure _

/-- Each block below the size has a block of the volume to itself. -/
structure Solid (xt : Xtree) (size : ℕ) : Prop extends xt.OneToOne where
  mapped : ∀ block, block * blockSize < size → xt.physical block ≠ none

theorem card_spans (l : List Run) : Multiset.card (Runs.spans l) = (l.map Run.length).sum := by
  induction l with
  | nil => rfl
  | cons r rest ih =>
      rw [Runs.spans_cons, Multiset.card_add, ih, List.map_cons, List.sum_cons]
      unfold Run.span addressSpan
      rw [Multiset.coe_card, List.length_range']

/-- The extents of a root hold no more than `2 ^ 28` blocks. -/
theorem card_blocks_le (xt : Xtree) : Multiset.card xt.blocks ≤ 2 ^ 28 := by
  have hlengths : (xt.runs.map Run.length).sum ≤ xt.slots.length * 2 ^ 24 := by
    have hsum := List.sum_le_card_nsmul (xt.runs.map Run.length) (2 ^ 24) fun n hn => by
      obtain ⟨run, hrun, rfl⟩ := List.mem_map.mp hn
      obtain ⟨xad, -, rfl⟩ := List.mem_map.mp hrun
      exact xad.length_lt.le
    unfold runs at hsum ⊢
    rwa [List.length_map, List.length_map, smul_eq_mul] at hsum
  have hslots : xt.slots.length ≤ 16 := by
    rw [length_slots]
    unfold xtRootMaxSlot xtEntryStart
    omega
  unfold blocks
  rw [card_spans]
  calc (xt.runs.map Run.length).sum ≤ xt.slots.length * 2 ^ 24 := hlengths
    _ ≤ 16 * 2 ^ 24 := Nat.mul_le_mul_right _ hslots
    _ = 2 ^ 28 := by norm_num

/-- **A root maps few blocks.** -/
theorem Solid.size_le {xt : Xtree} {size : ℕ} (h : xt.Solid size) : size ≤ 2 ^ 28 * blockSize := by
  by_contra hlarge
  have hbelow : ∀ block < 2 ^ 28 + 1, ∃ a, xt.physical block = some a := by
    intro block hblock
    refine Option.ne_none_iff_exists'.mp (h.mapped block ?_)
    have hle := Nat.mul_le_mul_right blockSize (Nat.lt_succ_iff.mp hblock)
    omega
  choose! address haddress using hbelow
  have hcard := Finset.card_le_card_of_injOn (s := Finset.range (2 ^ 28 + 1)) (t := xt.blocks.toFinset) address
    (fun block hblock => Finset.mem_coe.mpr (Multiset.mem_toFinset.mpr
      (mem_blocks_of_physical (haddress block (Finset.mem_range.mp hblock)))))
    fun block hblock block' hblock' hsame => by
      have hfirst := haddress block (Finset.mem_range.mp hblock)
      have hsecond := haddress block' (Finset.mem_range.mp hblock')
      exact h.injective _ _ _ hfirst (hsame ▸ hsecond)
  rw [Finset.card_range] at hcard
  have hle := hcard.trans ((Multiset.toFinset_card_le _).trans xt.card_blocks_le)
  omega

theorem Solid.address_ne_zero {xt : Xtree} {size : ℕ} (h : xt.Solid size) :
    ∀ xad ∈ xt.slots, xad.length ≠ 0 → xad.address ≠ 0 := by
  intro xad hmem hlength hnull
  have hstop : xad.stop = xad.offset + xad.length := rfl
  have hfirst := h.physical_of_mem hmem le_rfl (by omega)
  rw [Nat.sub_self, Nat.add_zero, hnull] at hfirst
  exact h.nonzero _ hfirst

/-- Below the size a read finds the bytes of the blocks. -/
theorem Solid.scanByte_eq {xt : Xtree} {size : ℕ} (h : xt.Solid size) {s s' : Storage} {offset length : ℕ}
    {data : List UInt8} (hread : xt.readData offset length s = .ok data s') {i : ℕ} (hi : i < length)
    (hbelow : offset + i < size) :
    xt.scanByte s (offset / blockSize) (offset % blockSize + i) = some (xt.byteAt s (offset + i)) := by
  obtain ⟨hlength, hbytes⟩ := readData_eq_scan h.address_ne_zero hread
  obtain ⟨x, hfound⟩ : ∃ x, data[i]? = some x := ⟨_, List.getElem?_eq_getElem (hlength ▸ hi)⟩
  rw [hbytes i hi, scanByte_position] at hfound
  rw [scanByte_position]
  have hle : offset / blockSize ≤ (offset + i) / blockSize := Nat.div_le_div_right (by omega)
  cases hscan : xt.scan (offset / blockSize) ((offset + i) / blockSize - offset / blockSize) with
  | none =>
      -- a block in front of the byte would not be mapped
      obtain ⟨k, hk, hnone⟩ := scan_eq_none_iff.mp hscan
      refine absurd ?_ (h.mapped (offset / blockSize + k) ?_)
      · unfold physical
        rw [hnone, Option.map_none]
      · have hblock : offset / blockSize + k ≤ (offset + i) / blockSize := by omega
        exact (Nat.mul_le_mul_right _ hblock).trans_lt ((Nat.div_mul_le_self _ _).trans_lt hbelow)
  | some xad =>
      obtain ⟨hmem, hlow, hhigh⟩ := scan_holds hscan
      rw [Nat.add_sub_cancel' hle] at hlow hhigh
      rw [hscan] at hfound
      simp only at hfound ⊢
      unfold byteAt
      rw [h.physical_of_mem hmem hlow hhigh, Option.map_some, Option.getD_some]
      exact Storage.blockByte_eq_some hfound

/-- A root whose extents do not share blocks. -/
theorem Unshared.solid_stored {xt : Xtree} (h : xt.Unshared) {size : ℕ} (hdisjoint : xt.runs.Pairwise Run.Disjoint)
    (hnonzero : 0 ∉ xt.blocks) (hmapped : ∀ block, block * blockSize < size → xt.physical block ≠ none) :
    xt.stored.Solid size where
  disjoint := by
    unfold runs
    rw [slots_stored]
    exact hdisjoint
  injective := by
    intro block block' a hblock hblock'
    rw [physical_stored] at hblock hblock'
    exact h.injective hblock hblock'
  nonzero block hblock := by
    apply hnonzero
    rw [← blocks_stored]
    exact mem_blocks_of_physical hblock
  mapped block hblock := by
    rw [physical_stored]
    exact hmapped block hblock

theorem solid_threeBlocks : threeBlocks.stored.Solid 12288 := by
  have hdisjoint : threeBlocks.runs.Pairwise Run.Disjoint := by
    unfold runs
    rw [slots_threeBlocks]
    exact List.pairwise_singleton _ _
  refine unshared_threeBlocks.solid_stored hdisjoint (by decide) fun block h => ?_
  have hlt : block = 0 ∨ block = 1 ∨ block = 2 := by
    unfold blockSize at h
    omega
  rcases hlt with rfl | rfl | rfl <;> decide

theorem solid_twoBlocks : twoBlocks.stored.Solid 8192 := by
  have hslots : twoBlocks.slots = [{ loc := { lenAddr := 2, addr2 := 105 } }] := by decide
  have hunshared : twoBlocks.Unshared := by
    unfold Unshared
    rw [hslots]
    exact List.pairwise_singleton _ _
  have hdisjoint : twoBlocks.runs.Pairwise Run.Disjoint := by
    unfold runs
    rw [hslots]
    exact List.pairwise_singleton _ _
  refine hunshared.solid_stored hdisjoint (by decide) fun block h => ?_
  have hlt : block = 0 ∨ block = 1 := by
    unfold blockSize at h
    omega
  rcases hlt with rfl | rfl <;> decide

end Xtree

namespace Volume

theorem ReadSteps.readFile {R : Volume → Volume → Prop} [IsPreorder Volume R] (h : ReadSteps R) (ino : UInt32)
    (offset length : ℕ) : Within R (FuseFs.readFile ino offset length) := by
  refine Within.bind (h.readInode ino) fun inode => Within.ite (Within.pure _) ?_
  refine Within.bind (Within.returnExcept _) fun xtree v => ?_
  unfold onStorage
  rw [final_zoom]
  obtain ⟨faults, hfinal⟩ := xtree.later_readData offset (min length (inode.size - offset)) v.storage
  rw [hfinal]
  exact h.faults v faults

variable {lo hi : ℕ} {v w : Volume} {ino : UInt32} {b j : ℕ} {d : List UInt8} {xtree : Xtree}

/-! ## One write -/

/-- The file is in place and shows the bytes `M`, and nothing else of the volume lies in its blocks. -/
def HoldsFile (xtree : Xtree) (ino : UInt32) (b j : ℕ) (d : List UInt8) (lo hi : ℕ) (M : ℕ → UInt8) (v : Volume) : Prop :=
  ∃ content, v.Undisturbed (· ∈ xtree.blocks) content (KeptIn ino b j d) lo hi ∧ xtree.byteAt v.storage = M

variable {M : ℕ → UInt8}

theorem Undisturbed.holdsFile {content : ℕ → List UInt8}
    (h : v.Undisturbed (· ∈ xtree.blocks) content (KeptIn ino b j d) lo hi) :
    v.HoldsFile xtree ino b j d lo hi (xtree.byteAt v.storage) :=
  ⟨content, h, rfl⟩

/-- A step that leaves the blocks of the file alone. -/
theorem HoldsFile.of_leavesAlone (h : v.HoldsFile xtree ino b j d lo hi M)
    (hstep : ∀ content, LeavesAlone (· ∈ xtree.blocks) content (KeptIn ino b j d) lo hi v w) :
    w.HoldsFile xtree ino b j d lo hi M := by
  obtain ⟨content, hv, rfl⟩ := h
  have hw := hstep content hv
  refine ⟨content, hw, funext fun i => Xtree.byteAt_congr rfl fun a ha => ?_⟩
  have hmem := Xtree.mem_blocks_of_physical ha
  rw [hw.blocks a hmem, hv.blocks a hmem]

/-- A data phase may write the blocks of the file. -/
theorem HoldsFile.dataPhase (h : v.HoldsFile xtree ino b j d lo hi M)
    (hphase : DataPhase (InTable lo hi) v w) (hmap : w.bmap = v.bmap) :
    w.HoldsFile xtree ino b j d lo hi (xtree.byteAt w.storage) := by
  obtain ⟨content, hv, -⟩ := h
  obtain ⟨m, hm, hholds⟩ := id hv.map
  have hapart : MapApart lo hi v := fun m' hm' page hpage htable => by
    cases hm.symm.trans hm'
    exact hholds.apart page hpage (.inr htable)
  have hrest := hphase.rest
  refine ⟨w.storage.block, ⟨keeps_dataPhase hapart hphase hv.slots, hv.table, fun key page hpeek => ?_, ?_, ?_,
    fun _ _ => rfl⟩, rfl⟩
  · rw [hrest] at hpeek
    exact hv.cached key page hpeek
  · have hlog : w.log = v.log := by rw [hrest]
    rw [inLog_congr (congrArg (Option.map LogManager.logBase) hlog)]
    exact hv.journal
  · unfold HoldsMap
    rw [hmap]
    exact hv.map

/-- How a call on the file ends that is to write `data` at `offset` and then to answer `answer`. -/
def WritesOver {α : Type} (xtree : Xtree) (ino : UInt32) (b j : ℕ) (d : List UInt8) (lo hi : ℕ) (M : ℕ → UInt8) (offset : ℕ)
    (data : List UInt8) (answer : α) (result : EStateM.Result StorageError Volume α) : Prop :=
  (∃ M', (final result).HoldsFile xtree ino b j d lo hi M' ∧
    Memory.Overwrote (∃ a w, result = .ok a w) M offset data M') ∧
  ∀ a w, result = .ok a w → a = answer

section WritesOver

variable {α β : Type} {offset : ℕ} {data : List UInt8}

/-- An error before anything was written. -/
theorem writesOver_error (h : v.HoldsFile xtree ino b j d lo hi M) (e : StorageError) (answer : α) :
    WritesOver xtree ino b j d lo hi M offset data answer (.error e v) := by
  refine ⟨⟨M, h, Memory.Overwrote.nothing ?_ _ _ _⟩, fun a w hrun => ?_⟩
  · rintro ⟨a, w, hrun⟩
    cases hrun
  · cases hrun

/-- What follows on the write leaves the file alone. -/
theorem WritesOver.close {x : VolM α} {f : α → VolM β} {answer : α}
    (hx : WritesOver xtree ino b j d lo hi M offset data answer (x v))
    (hf : ∀ content, Within (LeavesAlone (· ∈ xtree.blocks) content (KeptIn ino b j d) lo hi) (f answer)) {answer' : β}
    (hanswer : ∀ w b w', f answer w = .ok b w' → b = answer') :
    WritesOver xtree ino b j d lo hi M offset data answer' ((x >>= f) v) := by
  obtain ⟨⟨M', hfile, hover⟩, hsame⟩ := hx
  cases hrun : x v with
  | error e w =>
      rw [hrun] at hfile hover
      rw [bind_error hrun]
      refine ⟨⟨M', hfile, hover.imp ?_⟩, fun a w' h => ?_⟩
      · rintro ⟨a, w', h⟩
        cases h
      · cases h
  | ok a w =>
      cases hsame a w hrun
      rw [hrun] at hfile hover
      rw [bind_ok hrun]
      exact ⟨⟨M', hfile.of_leavesAlone fun content => hf content w, hover.imp fun _ => ⟨_, _, rfl⟩⟩, hanswer w⟩

/-- A step that leaves the file alone comes before the write. -/
theorem writesOver_bind (h : v.HoldsFile xtree ino b j d lo hi M) {x : VolM α} {f : α → VolM β} {answer : β}
    (hx : ∀ content, LeavesAlone (· ∈ xtree.blocks) content (KeptIn ino b j d) lo hi v (final (x v)))
    (hf : ∀ a w, x v = .ok a w → w.HoldsFile xtree ino b j d lo hi M →
      WritesOver xtree ino b j d lo hi M offset data answer (f a w)) :
    WritesOver xtree ino b j d lo hi M offset data answer ((x >>= f) v) := by
  have hfile := h.of_leavesAlone hx
  cases hrun : x v with
  | error e w =>
      rw [hrun, final_error] at hfile
      rw [bind_error hrun]
      exact writesOver_error hfile e answer
  | ok a w =>
      rw [hrun, final_ok] at hfile
      rw [bind_ok hrun]
      exact hf a w hrun hfile

/-- The count of blocks of a write below the size does not overflow. -/
theorem fsbCount_eq {size : ℕ} (hsolid : xtree.Solid size) (hfits : offset + data.length ≤ size) :
    fsbCount data.length (offset % blockSize) = (data.length + offset % blockSize + blockSize - 1) / blockSize := by
  have hsize := hsolid.size_le
  unfold fsbCount
  unfold blockSize at hsize ⊢
  exact Nat.mod_eq_of_lt (by omega)

/-- **The loop of a write below the size**, and what follows on it. -/
theorem HoldsFile.writeParts (h : v.HoldsFile xtree ino b j d lo hi M) (hsolid : xtree.Solid (Dinode.size d))
    (hfits : offset + data.length ≤ Dinode.size d) (token : List Bool) {f : WriteState → VolM β} {answer : β}
    (hf : ∀ s w, s.written = data.length → s.modified = false →
      w.HoldsFile xtree ino b j d lo hi (Memory.write M offset data) →
      WritesOver xtree ino b j d lo hi (Memory.write M offset data) 0 [] answer (f s w)) :
    WritesOver xtree ino b j d lo hi M offset data answer ((do
      let s ← Volume.writeParts data (xtree.mapBlocks (offset / blockSize) (fsbCount data.length (offset % blockSize)))
        { xtree, remaining := data.length, byteOffset := offset % blockSize, nextLogical := offset / blockSize, token }
      f s) v) := by
  obtain ⟨content, hv, rfl⟩ := id h
  have hcount := fsbCount_eq hsolid hfits
  have hmod : offset % blockSize < blockSize := Nat.mod_lt _ (by decide)
  -- the blocks of the range lie below the size
  have hmapped : ∀ block, offset / blockSize ≤ block →
      block < offset / blockSize + fsbCount data.length (offset % blockSize) → xtree.physical block ≠ none := by
    intro block hlow hhigh
    refine hsolid.mapped block ?_
    rw [hcount] at hhigh
    unfold blockSize at hhigh hlow ⊢
    omega
  have hroom : offset % blockSize + data.length ≤
      (offset / blockSize + fsbCount data.length (offset % blockSize) - offset / blockSize) * blockSize := by
    rw [hcount, Nat.add_sub_cancel_left]
    unfold blockSize
    omega
  have hloop := @writeParts_movesOn xtree hsolid.toOneToOne data _ _ _
    { xtree, remaining := data.length, byteOffset := offset % blockSize, nextLogical := offset / blockSize, token } v
    (Nat.add_sub_cancel_left ..).le (fun _ => hmod) (Nat.zero_add _).le hmapped
  have hphase : DataPhase (InTable lo hi) v (final (Volume.writeParts data
      (xtree.mapBlocks (offset / blockSize) (fsbCount data.length (offset % blockSize)))
      { xtree, remaining := data.length, byteOffset := offset % blockSize, nextLogical := offset / blockSize, token } v)) := by
    have hspared : Spared (InTable lo hi) v := by
      obtain ⟨m, hm, hsize, hfree⟩ := hv.map.spared
      exact ⟨m, hm, hsize, fun a ha => hfree a (.inr ha)⟩
    refine (writes_writeParts data (fun addr count hmem haddr a hlow hhigh htable => ?_) hmod.le v hspared).2
    exact hv.table a (Xtree.mem_blocks_of_mapBlocks hmem haddr a hlow hhigh) htable
  have hslice : slice data 0 data.length = data := slice_zero_length data
  have hpos : offset / blockSize * blockSize + offset % blockSize = offset := Nat.div_add_mod' offset blockSize
  unfold Xtree.mapBlocks at hphase ⊢
  dsimp only at hloop
  rw [hpos, Nat.min_eq_left (by omega)] at hloop
  cases hrun : Volume.writeParts data (xtree.mapBlocksFrom (offset / blockSize + fsbCount data.length (offset % blockSize))
      (fsbCount data.length (offset % blockSize)) (offset / blockSize))
      { xtree, remaining := data.length, byteOffset := offset % blockSize, nextLogical := offset / blockSize, token } v with
  | error e w =>
      rw [hrun] at hloop hphase
      obtain ⟨⟨storage, rfl⟩, hover⟩ := hloop
      dsimp only at hover
      rw [hslice, ← Xtree.byteAt_eq_seen, ← Xtree.byteAt_eq_seen] at hover
      rw [bind_error hrun]
      refine ⟨⟨_, h.dataPhase hphase rfl, hover.imp ?_⟩, fun a w hend => by cases hend⟩
      rintro ⟨a, w, hend⟩
      cases hend
  | ok s w =>
      rw [hrun] at hloop hphase
      obtain ⟨⟨⟨storage, rfl⟩, hover⟩, hprogress⟩ := hloop
      dsimp only at hover
      rw [hslice, ← Xtree.byteAt_eq_seen, ← Xtree.byteAt_eq_seen] at hover
      have hwhole := hover.eq_write trivial
      have hfile := h.dataPhase hphase rfl
      rw [final_ok, hwhole] at hfile
      rw [bind_ok hrun]
      obtain ⟨⟨M', hend, k, -, -, rfl⟩, hanswer⟩ :=
        hf s { v with storage } (hprogress.written.trans (Nat.zero_add _)) hprogress.modified hfile
      rw [List.take_nil, Memory.write_nil] at hend
      exact ⟨⟨_, hend, Memory.Overwrote.whole rfl⟩, hanswer⟩

theorem HoldsFile.writeAtBody (h : v.HoldsFile xtree ino b j d lo hi M) (hkey : Dinode.HasKey (inodeKey ino) d)
    (hxtree : Xtree.fromInodeData (Dinode.root d) = .ok xtree) (hsolid : xtree.Solid (Dinode.size d))
    (hfits : offset + data.length ≤ Dinode.size d) (token : List Bool) :
    WritesOver xtree ino b j d lo hi M offset data (.commit data.length) (Volume.writeAtBody ino offset data token v) := by
  refine writesOver_bind h (fun content => readSteps_leavesAlone.readInode ino v) fun inode w hread hfile => ?_
  have hinode : inode.dinode = d := by
    obtain ⟨content, hv, -⟩ := h
    exact (hv.found hkey hread).kept rfl
  unfold Inode.xtree
  rw [hinode, hxtree, bind_ok (returnExcept_ok xtree w)]
  refine hfile.writeParts hsolid hfits token fun s w' hwritten hmodified hend => ?_
  refine writesOver_bind hend (fun content => within_checkToken s.token w') fun _ w₁ _ h₁ => ?_
  refine writesOver_bind h₁ (fun content => leavesAlone_flush _ w₁) fun _ w₂ _ h₂ => ?_
  -- the size and the tree stay as they are
  have hsize : ¬ inode.size < addU64 offset s.written := by
    have hlt : Dinode.size d < 2 ^ 64 := readLE_lt ..
    unfold Inode.size addU64
    rw [hinode, hwritten, Nat.mod_eq_of_lt (by omega)]
    omega
  simp only [if_neg hsize, hmodified, Bool.false_eq_true, if_false]
  refine writesOver_bind h₂ (fun content => leavesAlone_markPageDirty _ _ w₂) fun _ w₃ _ h₃ => ?_
  rw [hwritten]
  refine ⟨⟨_, h₃, Memory.Overwrote.whole (Memory.write_nil _ _).symm⟩, fun a w hrun => ?_⟩
  cases hrun
  rfl

/-- **A write below the size** of a file. -/
theorem HoldsFile.writeAtWithInterrupt (h : v.HoldsFile xtree ino b j d lo hi M) (hkey : Dinode.HasKey (inodeKey ino) d)
    (hxtree : Xtree.fromInodeData (Dinode.root d) = .ok xtree) (hsolid : xtree.Solid (Dinode.size d))
    (hfits : offset + data.length ≤ Dinode.size d) (token : List Bool) :
    WritesOver xtree ino b j d lo hi M offset data data.length (Volume.writeAtWithInterrupt ino offset data token v) := by
  unfold Volume.writeAtWithInterrupt
  cases hactive : v.txMgr.active with
  | some active =>
      have hbegin : beginTransaction v = .error (.other "transaction already in progress") v := by
        unfold beginTransaction
        rw [bind_ok (get_apply v), hactive]
        rfl
      rw [bind_error hbegin]
      exact writesOver_error h _ _
  | none =>
      rw [bind_ok (beginTransaction_of_idle hactive)]
      have hbegun := h.of_leavesAlone fun content => leavesAlone_begun v
      refine (hbegun.writeAtBody hkey hxtree hsolid hfits token).close (fun content => ?_) fun w n w' hrun => ?_
      · refine Within.bind (Within.tryCatch ?_ fun e => ?_) fun _ => Within.pure _
        · exact Within.bind leavesAlone_commitTransaction fun _ => Within.pure _
        · exact Within.bind leavesAlone_abortTransaction fun _ => Within.throw _
      · obtain ⟨_, _, -, hrun⟩ := of_bind_ok hrun
        cases hrun
        rfl

end WritesOver

/-! ## One read -/

/-- **A read** of a file whose blocks are there. -/
theorem HoldsFile.of_readFile (h : v.HoldsFile xtree ino b j d lo hi M) (hkey : Dinode.HasKey (inodeKey ino) d)
    (hxtree : Xtree.fromInodeData (Dinode.root d) = .ok xtree) (hsolid : xtree.Solid (Dinode.size d)) {offset length : ℕ}
    {data : List UInt8} (hrun : FuseFs.readFile ino offset length v = .ok data w) :
    data = Memory.read M offset (min length (Dinode.size d - offset)) := by
  obtain ⟨inode, w₁, hread, hrun⟩ := of_bind_ok hrun
  have hinode : inode.dinode = d := by
    obtain ⟨content, hv, -⟩ := h
    exact (hv.found hkey hread).kept rfl
  have hfile := h.of_leavesAlone fun content => readSteps_leavesAlone.readInode ino v
  rw [hread, final_ok] at hfile
  obtain ⟨content, -, rfl⟩ := hfile
  unfold Inode.size Inode.xtree at hrun
  rw [hinode, hxtree] at hrun
  split at hrun
  · next hend =>
      cases hrun
      rw [Nat.sub_eq_zero_of_le hend, Nat.min_zero]
      rfl
  · rw [bind_ok (returnExcept_ok xtree w₁)] at hrun
    obtain ⟨storage, hdata, -⟩ := of_zoom_ok hrun
    obtain ⟨hlength, hbytes⟩ := Xtree.readData_eq_scan hsolid.address_ne_zero hdata
    refine List.ext_getElem? fun i => ?_
    rw [Memory.getElem?_read]
    split
    · next hi => exact (hbytes i hi).trans (hsolid.scanByte_eq hdata hi (by omega))
    · next hi => exact List.getElem?_eq_none (by omega)

end Volume

/-! ## Runs -/

namespace Operation

/-- Every call of the run is beside the file, or writes to it below its size. -/
def AllAround (keep : ℕ → Prop) (ino : UInt32) (size : ℕ) : List Operation → Volume → Prop
  | [], _ => True
  | op :: rest, v => (op.Beside keep ino v ∨
      ∃ offset data token, op = .writeAtWithInterrupt ino offset data token ∧ offset + data.length ≤ size) ∧
        AllAround keep ino size rest (op.after v)

/-- What a run of calls makes of the bytes of a file: calls beside it leave them alone, a write that returns
has stored all its data and says how much it was, and one that fails a first part of it. -/
inductive Stores (keep : ℕ → Prop) (ino : UInt32) : List Operation → Volume → (ℕ → UInt8) → (ℕ → UInt8) → Prop
  | nil (v : Volume) (M : ℕ → UInt8) : Stores keep ino [] v M M
  | beside {op : Operation} {rest : List Operation} {v : Volume} {M M' : ℕ → UInt8} (hop : op.Beside keep ino v)
      (hrest : Stores keep ino rest (op.after v) M M') : Stores keep ino (op :: rest) v M M'
  | write {offset : ℕ} {data : List UInt8} {token : List Bool} {rest : List Operation} {v : Volume} {M M₁ M' : ℕ → UInt8}
      (hover : Memory.Overwrote (∃ n w, Volume.writeAtWithInterrupt ino offset data token v = .ok n w) M offset data M₁)
      (hanswer : ∀ n w, Volume.writeAtWithInterrupt ino offset data token v = .ok n w → n = data.length)
      (hrest : Stores keep ino rest ((writeAtWithInterrupt ino offset data token).after v) M₁ M') :
      Stores keep ino (.writeAtWithInterrupt ino offset data token :: rest) v M M'

end Operation

namespace Volume

section Runs

variable {lo hi : ℕ} {v w : Volume} {ino : UInt32} {b j : ℕ} {d : List UInt8} {xtree : Xtree} {M : ℕ → UInt8}

/-- **A run of calls** stores what its writes say. -/
theorem HoldsFile.afterAll (h : v.HoldsFile xtree ino b j d lo hi M) (hfile : v.KeptFile ino b j d)
    (hxtree : Xtree.fromInodeData (Dinode.root d) = .ok xtree) (hsolid : xtree.Solid (Dinode.size d))
    {ops : List Operation}
    (hops : Operation.AllAround (fun a => a ∈ xtree.blocks ∨ InTable lo hi a) ino (Dinode.size d) ops v) :
    ∃ M', Operation.Stores (fun a => a ∈ xtree.blocks ∨ InTable lo hi a) ino ops v M M' ∧
      (Operation.afterAll ops v).HoldsFile xtree ino b j d lo hi M' := by
  induction ops generalizing v M with
  | nil => exact ⟨M, .nil v M, h⟩
  | cons op rest ih =>
      obtain ⟨hop, hrest⟩ := hops
      rcases hop with hbeside | ⟨offset, data, token, rfl, hfits⟩
      · have hafter := h.of_leavesAlone fun content => leavesAlone_after hfile hbeside
        obtain ⟨M', hstores, hend⟩ := ih hafter (hfile.after op) hrest
        exact ⟨M', .beside hbeside hstores, hend⟩
      · obtain ⟨⟨M₁, hwritten, hover⟩, hanswer⟩ := h.writeAtWithInterrupt hfile.key hxtree hsolid hfits token
        rw [← Operation.final_forget] at hwritten
        change ((Operation.writeAtWithInterrupt ino offset data token).after v).HoldsFile xtree ino b j d lo hi M₁ at hwritten
        obtain ⟨M', hstores, hend⟩ := ih hwritten (hfile.after _) hrest
        exact ⟨M', .write hover hanswer hstores, hend⟩

end Runs

end Volume

end JfsFuse
