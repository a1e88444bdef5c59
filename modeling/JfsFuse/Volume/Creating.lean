import JfsFuse.Btree.DtreeSlots
import JfsFuse.Volume.AtRest

/-!
# Making files and directories

A volume at rest in whose inode table the parent directory is found in one block, and the first free
slot lies in another one.  There `create_file` and `mkdir` succeed when the name can be entered
into the directory root, and change these two slots of the table.
-/

namespace JfsFuse

open ByteBuf Program

namespace Volume

/-! ## The first free slot -/

/-- The slot can be given to a new inode. -/
def FreeSlot (blockOffset : ℕ) (data : List UInt8) (j : ℕ) : Prop :=
  Dinode.mode (slotOf data j) = 0 ∧ inoAt blockOffset j ≠ filesystemI + rootI

instance (blockOffset : ℕ) (data : List UInt8) (j : ℕ) : Decidable (FreeSlot blockOffset data j) :=
  inferInstanceAs (Decidable (_ ∧ _))

/-- The search for a free slot ends at slot `j` of block `b`. -/
structure FreeAt (v : Volume) (b j : ℕ) : Prop where
  low : v.ait2.address ≤ b
  high : b < v.ait2.address + (v.ait2.length + scanSlack)
  inside : b < v.aggSize
  slot : j < inosPerPage
  free : FreeSlot (b - v.ait2.address) (v.shown b) j
  first : ∀ b' j', v.ait2.address ≤ b' → b' < b ∨ b' = b ∧ j' < j → j' < inosPerPage →
    ¬ FreeSlot (b' - v.ait2.address) (v.shown b') j'

theorem freeSlot_eq {data : List UInt8} (hlen : data.length = blockSize) {blockOffset i count j : ℕ}
    (hin : i + count ≤ inosPerPage) (hlow : i ≤ j) (hhigh : j < i + count) (hfree : FreeSlot blockOffset data j)
    (hfirst : ∀ k, i ≤ k → k < j → ¬ FreeSlot blockOffset data k) : freeSlot data blockOffset i count = some j := by
  induction count generalizing i with
  | zero => omega
  | succ count ih =>
      have hfits : ¬ data.length < i * disize + disize := by
        rw [hlen]
        unfold inosPerPage at hin
        unfold disize blockSize
        omega
      have hstep : freeSlot data blockOffset i (count + 1) =
          if FreeSlot blockOffset data i then some i else freeSlot data blockOffset (i + 1) count := by
        rw [freeSlot, if_neg hfits]
        rfl
      rw [hstep]
      rcases Nat.eq_or_lt_of_le hlow with rfl | hlt
      · exact if_pos hfree
      · rw [if_neg (hfirst i le_rfl hlt)]
        exact ih (by omega) hlt (by omega) fun k hk => hfirst k (by omega)

theorem freeSlot_eq_none {data : List UInt8} (hlen : data.length = blockSize) {blockOffset i count : ℕ}
    (hin : i + count ≤ inosPerPage) (hnone : ∀ k, i ≤ k → k < i + count → ¬ FreeSlot blockOffset data k) :
    freeSlot data blockOffset i count = none := by
  induction count generalizing i with
  | zero => rfl
  | succ count ih =>
      have hfits : ¬ data.length < i * disize + disize := by
        rw [hlen]
        unfold inosPerPage at hin
        unfold disize blockSize
        omega
      have hstep : freeSlot data blockOffset i (count + 1) =
          if FreeSlot blockOffset data i then some i else freeSlot data blockOffset (i + 1) count := by
        rw [freeSlot, if_neg hfits]
        rfl
      rw [hstep, if_neg (hnone i le_rfl (by omega))]
      exact ih (by omega) fun k hk hk' => hnone k (by omega) (by omega)

/-- A slot that is found is free. -/
theorem of_freeSlot_eq {data : List UInt8} {blockOffset i count j : ℕ}
    (h : freeSlot data blockOffset i count = some j) : j < i + count ∧ FreeSlot blockOffset data j := by
  induction count generalizing i with
  | zero => cases h
  | succ count ih =>
      unfold freeSlot at h
      split at h
      · cases h
      · split at h
        · next hfree =>
            cases h
            exact ⟨by omega, hfree⟩
        · obtain ⟨hlt, hfree⟩ := ih h
          exact ⟨by omega, hfree⟩

/-- The volume with a table block noted as allocated. -/
def noted (v : Volume) (active : ActiveTxn) (block : ℕ) : Volume :=
  { v with txMgr := { v.txMgr with active := some { active with allocated := active.allocated ++ [block] } } }

theorem recordAllocation_of_active {v : Volume} {active : ActiveTxn} (hactive : v.txMgr.active = some active)
    (block : ℕ) : tryCatch (recordAllocation block) (fun _ => (return () : VolM Unit)) v =
      .ok () (v.noted active block) := by
  apply tryCatch_ok
  unfold recordAllocation
  rw [bind_ok (get_apply v), hactive]
  rfl

theorem Calm.allocateFrom_eq {v : Volume} (h : v.Calm) {b j : ℕ} (hfree : v.FreeAt b j) {active : ActiveTxn}
    (hactive : v.txMgr.active = some active) {off count : ℕ} (hlow : v.ait2.address + off ≤ b)
    (hhigh : b < v.ait2.address + off + count) :
    allocateFrom v.ait2.address off count v =
      .ok (UInt32.ofNat (inoAt (b - v.ait2.address) j), b, j * disize) (v.noted active b) := by
  induction count generalizing off with
  | zero => omega
  | succ count ih =>
      have hinside := hfree.inside
      unfold allocateFrom
      simp only
      rw [bind_ok (get_apply v), if_neg (by omega), bind_ok (h.tablePage (by omega))]
      have hoff : off = v.ait2.address + off - v.ait2.address := by omega
      rcases Nat.eq_or_lt_of_le hlow with heq | hlt
      · have hslot : freeSlot (v.shown (v.ait2.address + off)) off 0 inosPerPage = some j := by
          refine freeSlot_eq (h.length_shown _) (by omega) (Nat.zero_le _) (by have := hfree.slot; omega) ?_
            fun k _ hk => ?_
          · have hself := hfree.free
            rwa [← heq, ← hoff] at hself
          · have hbefore := hfree.first b k hfree.low (Or.inr ⟨rfl, hk⟩) (hk.trans hfree.slot)
            rwa [← heq, ← hoff] at hbefore
        rw [hslot]
        simp only
        have hsub : b - v.ait2.address = off := by omega
        rw [bind_ok (recordAllocation_of_active hactive _), heq, hsub]
        rfl
      · have hslot : freeSlot (v.shown (v.ait2.address + off)) off 0 inosPerPage = none := by
          refine freeSlot_eq_none (h.length_shown _) (by omega) fun k _ hk => ?_
          have hbefore := hfree.first (v.ait2.address + off) k (Nat.le_add_right _ _) (Or.inl hlt) (by omega)
          rwa [← hoff] at hbefore
        rw [hslot]
        exact ih (by omega) (by omega)

/-- **An inode is allocated** in the first free slot. -/
theorem Calm.allocateInode_eq {v : Volume} (h : v.Calm) {b j : ℕ} (hfree : v.FreeAt b j) {active : ActiveTxn}
    (hactive : v.txMgr.active = some active) : allocateInode v =
      .ok (UInt32.ofNat (inoAt (b - v.ait2.address) j), b, j * disize) (v.noted active b) := by
  unfold allocateInode
  rw [bind_ok (get_apply v)]
  have hlow := hfree.low
  have hhigh := hfree.high
  exact h.allocateFrom_eq hfree hactive (by omega) (by omega)

theorem Calm.of_allocateFrom_ok {v w : Volume} (h : v.Calm) {active : ActiveTxn}
    (hactive : v.txMgr.active = some active) {child : UInt32} {b off blockOffset count : ℕ}
    (hrun : allocateFrom v.ait2.address blockOffset count v = .ok (child, b, off) w) :
    ∃ j, off = j * disize ∧ j < inosPerPage ∧ v.ait2.address + blockOffset ≤ b ∧
      b < v.ait2.address + blockOffset + count ∧ b < v.aggSize ∧ child = UInt32.ofNat (inoAt (b - v.ait2.address) j) ∧
      FreeSlot (b - v.ait2.address) (v.shown b) j ∧ w = v.noted active b := by
  induction count generalizing blockOffset with
  | zero => cases hrun
  | succ count ih =>
      unfold allocateFrom at hrun
      simp only at hrun
      rw [bind_ok (get_apply v)] at hrun
      split at hrun
      · obtain ⟨j, hoff, hj, hlow, hhigh, hrest⟩ := ih hrun
        exact ⟨j, hoff, hj, by omega, by omega, hrest⟩
      · next hinside =>
          rw [bind_ok (h.tablePage (by omega))] at hrun
          cases hslot : freeSlot (v.shown (v.ait2.address + blockOffset)) blockOffset 0 inosPerPage with
          | none =>
              rw [hslot] at hrun
              obtain ⟨j, hoff, hj, hlow, hhigh, hrest⟩ := ih hrun
              exact ⟨j, hoff, hj, by omega, by omega, hrest⟩
          | some j =>
              rw [hslot] at hrun
              obtain ⟨hj, hfree⟩ := of_freeSlot_eq hslot
              simp only at hrun
              rw [bind_ok (recordAllocation_of_active hactive _)] at hrun
              cases hrun
              rw [Nat.add_sub_cancel_left]
              exact ⟨j, rfl, by omega, le_rfl, by omega, by omega, rfl, hfree, rfl⟩

/-- An inode that was allocated lies in a free slot. -/
theorem Calm.of_allocateInode_ok {v w : Volume} (h : v.Calm) {active : ActiveTxn}
    (hactive : v.txMgr.active = some active) {child : UInt32} {b off : ℕ}
    (hrun : allocateInode v = .ok (child, b, off) w) :
    ∃ j, off = j * disize ∧ j < inosPerPage ∧ v.ait2.address ≤ b ∧ b < v.ait2.address + (v.ait2.length + scanSlack) ∧
      b < v.aggSize ∧ child = UInt32.ofNat (inoAt (b - v.ait2.address) j) ∧
      FreeSlot (b - v.ait2.address) (v.shown b) j ∧ w = v.noted active b := by
  unfold allocateInode at hrun
  rw [bind_ok (get_apply v)] at hrun
  obtain ⟨j, hoff, hj, hlow, hhigh, hrest⟩ := h.of_allocateFrom_ok hactive hrun
  exact ⟨j, hoff, hj, by omega, by omega, hrest⟩

theorem AtRest.allocateInode_begun {n : ℕ} {v : Volume} (h : v.AtRest n) {child : UInt32} {b j : ℕ}
    (hfree : v.FreeAt b j) (hchild : child = UInt32.ofNat (inoAt (b - v.ait2.address) j)) :
    allocateInode v.begun = .ok (child, b, j * disize) (v.begun.noted { txid := v.txMgr.nextTxid } b) := by
  have hcalm := (h.begun.working h.toWorking).toCalm
  rw [hchild]
  exact hcalm.allocateInode_eq
    ⟨hfree.low, hfree.high, hfree.inside, hfree.slot, hfree.free, hfree.first⟩ rfl

/-! ## Reading in a call -/

namespace InCall

variable {n : ℕ} {v w : Volume} {pages : List ((UInt32 × ℕ) × List UInt8)} {marks : List (UInt32 × ℕ)}

/-- **An inode is found where it was** when the cached pages have its key in the same slots, as far
as the search goes. -/
theorem foundAt (h : InCall v pages marks w) (hv : v.Resting) {ino : UInt32} {b j : ℕ} (hfound : v.FoundAt ino b j)
    (hkeys : ∀ p ∈ pages, ∀ j' < inosPerPage, p.1.2 < b ∨ p.1.2 = b ∧ j' ≤ j →
      (Dinode.HasKey (inodeKey ino) (slotOf p.2 j') ↔
        Dinode.HasKey (inodeKey ino) (slotOf (v.storage.block p.1.2) j'))) : w.FoundAt ino b j := by
  have hsame : ∀ b' j', j' < inosPerPage → b' < b ∨ b' = b ∧ j' ≤ j →
      (Dinode.HasKey (inodeKey ino) (slotOf (w.shown b') j') ↔
        Dinode.HasKey (inodeKey ino) (slotOf (v.shown b') j')) := by
    intro b' j' hj' hbefore
    rw [h.caches.shown, h.storage, hv.shown]
    cases hfind : pages.find? (fun e => e.1.2 == b') with
    | none => rw [Option.map_none, Option.getD_none]
    | some p =>
        have hblock : p.1.2 = b' := by simpa using List.find?_some hfind
        rw [Option.map_some, Option.getD_some, ← hblock]
        exact hkeys p (List.mem_of_find?_eq_some hfind) j' hj' (hblock ▸ hbefore)
  refine ⟨h.ait2 ▸ hfound.low, h.ait2 ▸ hfound.high, h.aggSize ▸ hfound.inside, hfound.slot,
    (hsame b j hfound.slot (Or.inr ⟨rfl, le_rfl⟩)).mpr hfound.key, fun b' j' hlow hbefore hj' hkey => ?_⟩
  rw [h.ait2] at hlow
  refine hfound.first b' j' hlow hbefore hj' ((hsame b' j' hj' ?_).mp hkey)
  exact hbefore.imp_right fun heq => ⟨heq.1, heq.2.le⟩

theorem noted (h : InCall v pages marks w) {active : ActiveTxn} (hactive : w.txMgr.active = some active) (block : ℕ) :
    InCall v pages marks (w.noted active block) := by
  obtain ⟨active', hactive', hdirty⟩ := h.active
  refine ⟨?_, h.cap, ⟨h.caches.keys, h.caches.data⟩, h.length, _, rfl, ?_⟩
  · unfold Volume.noted
    rw [h.rest]
  · rw [Option.some.inj (hactive.symm.trans hactive')]
    exact hdirty

end InCall

/-! ## Entering a new inode -/

/-- The key of an inode in the fileset of files. -/
theorem inodeKey_ne {ino ino' : UInt32} (h : ino ≠ ino') : inodeKey ino ≠ inodeKey ino' := by
  intro heq
  apply h
  unfold inodeKey filesystemI at heq
  apply UInt32.toNat_inj.mp
  split at heq <;> split at heq <;> simp only [Prod.mk.injEq] at heq <;> omega

/-! ## New inodes -/

theorem length_write {dinode : List UInt8} (h : dinode.length = disize) (off width : ℕ) (hfits : off + width ≤ disize)
    (n : ℕ) : (writeLE dinode off width n).length = disize :=
  (length_writeLE n (by rwa [h])).trans h

theorem readLE_write {dinode : List UInt8} (h : dinode.length = disize) {off width off' width' : ℕ}
    (hfits : off + width ≤ disize) (hdisj : off' + width' ≤ off ∨ off + width ≤ off') (n : ℕ) :
    readLE (writeLE dinode off width n) off' width' = readLE dinode off' width' :=
  readLE_writeLE_of_disjoint n (by rwa [h]) hdisj

theorem readLE_write_self {dinode : List UInt8} (h : dinode.length = disize) {off width : ℕ}
    (hfits : off + width ≤ disize) (n : ℕ) : readLE (writeLE dinode off width n) off width = n % 256 ^ width :=
  readLE_writeLE_self n (by omega)

theorem slice_write {dinode : List UInt8} (h : dinode.length = disize) {off width off' n' : ℕ}
    (hfits : off + width ≤ disize) (hdisj : off' + n' ≤ off ∨ off + width ≤ off') (n : ℕ) :
    slice (writeLE dinode off width n) off' n' = slice dinode off' n' :=
  slice_writeLE_of_disjoint n (by rwa [h]) hdisj

/-- The fields of a new inode; the union area and the root are those of the slot. -/
theorem newDinode_spec {dinode : List UInt8} (h : dinode.length = disize) (mode size nlink : ℕ) {ino : UInt32}
    (hino : filesystemI ≤ ino.toNat) :
    (newDinode mode size nlink ino dinode).length = disize ∧
      Dinode.HasKey (inodeKey ino) (newDinode mode size nlink ino dinode) ∧
      Dinode.mode (newDinode mode size nlink ino dinode) = mode % 2 ^ 32 ∧
      Dinode.nlink (newDinode mode size nlink ino dinode) = nlink % 2 ^ 32 ∧
      slice (newDinode mode size nlink ino dinode) Dinode.unionOff (disize - Dinode.unionOff) =
        slice dinode Dinode.unionOff (disize - Dinode.unionOff) := by
  have hkey : inodeKey ino = (filesystemI, ino.toNat - filesystemI) := if_pos hino
  have hlt := ino.toNat_lt
  have h₁ := length_write h 52 4 (by decide) mode
  have h₂ := length_write h₁ 24 8 (by decide) size
  have h₃ := length_write h₂ 32 8 (by decide) 0
  have h₄ := length_write h₃ 40 4 (by decide) nlink
  have h₅ := length_write h₄ 4 4 (by decide) filesystemI
  have h₆ := length_write h₅ 8 4 (by decide) (ino.toNat - filesystemI)
  refine ⟨h₆, ?_, ?_, ?_, ?_⟩
  · rw [hkey]
    refine ⟨?_, ?_⟩
    · refine (readLE_write h₅ (by decide) (by decide) _).trans ?_
      exact readLE_write_self h₄ (by decide) _
    · refine (readLE_write_self h₅ (by decide) _).trans (Nat.mod_eq_of_lt ?_)
      omega
  · refine (readLE_write h₅ (by decide) (by decide) _).trans ?_
    refine (readLE_write h₄ (by decide) (by decide) _).trans ?_
    refine (readLE_write h₃ (by decide) (by decide) _).trans ?_
    refine (readLE_write h₂ (by decide) (by decide) _).trans ?_
    refine (readLE_write h₁ (by decide) (by decide) _).trans ?_
    exact readLE_write_self h (by decide) _
  · refine (readLE_write h₅ (by decide) (by decide) _).trans ?_
    refine (readLE_write h₄ (by decide) (by decide) _).trans ?_
    exact readLE_write_self h₃ (by decide) _
  · refine (slice_write h₅ (by decide) (by decide) _).trans ?_
    refine (slice_write h₄ (by decide) (by decide) _).trans ?_
    refine (slice_write h₃ (by decide) (by decide) _).trans ?_
    refine (slice_write h₂ (by decide) (by decide) _).trans ?_
    refine (slice_write h₁ (by decide) (by decide) _).trans ?_
    exact slice_write h (by decide) (by decide) _

/-- A new directory has the key and the fields of a new inode, and `.` and `..` in its root. -/
theorem newDirectory_spec {dinode : List UInt8} (h : dinode.length = disize) (parentIno : UInt32) {ino : UInt32}
    (hino : filesystemI ≤ ino.toNat) :
    (newDirectory ino parentIno dinode).length = disize ∧
      Dinode.HasKey (inodeKey ino) (newDirectory ino parentIno dinode) ∧
      Dinode.mode (newDirectory ino parentIno dinode) = 0x41ED ∧
      Dinode.root (newDirectory ino parentIno dinode) = initDtroot ino parentIno (Dinode.root dinode) := by
  obtain ⟨hlen, ⟨hfileset, hnumber⟩, hmode, -, hunion⟩ := newDinode_spec h 0x41ED 0 2 hino
  have hroot : Dinode.root (newDinode 0x41ED 0 2 ino dinode) = Dinode.root dinode := by
    have hpart := congrArg (fun bytes => slice bytes 96 288) hunion
    rwa [slice_slice _ (by decide), slice_slice _ (by decide)] at hpart
  have hlenRoot : (Dinode.root dinode).length = 288 := length_slice_of_le (by rw [h]; decide)
  have hinit : (initDtroot ino parentIno (Dinode.root dinode)).length = 288 := by
    rw [← hlenRoot]
    apply length_spliceAll
    rw [hlenRoot]
    simp
  have heq : newDirectory ino parentIno dinode = splice (newDinode 0x41ED 0 2 ino dinode) Dinode.rootOff
      (initDtroot ino parentIno (Dinode.root dinode)) := by
    unfold newDirectory
    simp only [hroot]
  rw [heq]
  refine ⟨?_, ⟨?_, ?_⟩, ?_, ?_⟩
  · rw [length_splice (by rw [hinit, hlen]; decide), hlen]
  · refine (readLE_splice_of_disjoint (by rw [hinit, hlen]; decide) (Or.inl (by decide))).trans hfileset
  · refine (readLE_splice_of_disjoint (by rw [hinit, hlen]; decide) (Or.inl (by decide))).trans hnumber
  · refine (readLE_splice_of_disjoint (by rw [hinit, hlen]; decide) (Or.inl (by decide))).trans hmode
  · have hself := slice_splice_self (initDtroot ino parentIno (Dinode.root dinode))
      (show Dinode.rootOff ≤ (newDinode 0x41ED 0 2 ino dinode).length by rw [hlen]; decide)
    rwa [hinit] at hself

/-- A root of a directory that is written back. -/
theorem isEdit_setRoot_bytes {bytes : List UInt8} (hlen : bytes.length = 288) :
    Dinode.IsEdit (Dinode.setRoot bytes) where
  length dinode h := by
    refine (length_splice ?_).trans h
    rw [hlen, h]
    decide
  key key dinode h := by
    have hread : ∀ off width, off + width ≤ 224 →
        readLE (Dinode.setRoot bytes dinode) off width = readLE dinode off width := by
      intro off width hoff
      refine readLE_splice_of_disjoint ?_ (Or.inl ?_)
      · rw [hlen, h]
        decide
      · rw [hlen]
        show off + width ≤ 512 - 288
        omega
    unfold Dinode.HasKey Dinode.fileset Dinode.number
    rw [hread 4 4 (by decide), hread 8 4 (by decide)]

theorem root_setRoot_bytes {bytes : List UInt8} (hlen : bytes.length = 288) {dinode : List UInt8}
    (h : dinode.length = disize) : Dinode.root (Dinode.setRoot bytes dinode) = bytes := by
  have hself := slice_splice_self bytes (show disize - 288 ≤ dinode.length by rw [h]; decide)
  rw [hlen] at hself
  unfold Dinode.setRoot
  rw [hlen]
  exact hself

/-- The volume after a call: at rest again, with these blocks in the place of those it had. -/
structure Becomes (n : ℕ) (v : Volume) (blocks : ℕ → List UInt8) (v' : Volume) : Prop extends AtRest n v' where
  ait2 : v'.ait2 = v.ait2
  aggSize : v'.aggSize = v.aggSize
  handles : v'.openHandles = v.openHandles
  plain : ∀ block, v.IsPlain block → v'.IsPlain block
  blocks : ∀ block, v.IsPlain block → v'.storage.block block = blocks block

section Entering

variable {n : ℕ} {v : Volume} (h : v.AtRest (n + 1)) {parent child : UInt32} {b j cb cj : ℕ}
  (hparent : v.FoundAt parent b j) (hfree : v.FreeAt cb cj) (hblocks : cb ≠ b)
  (hchild : child = UInt32.ofNat (inoAt (cb - v.ait2.address) cj)) (hne : child ≠ parent)
  {init : List UInt8 → List UInt8}
  (hinit : ∀ dinode, dinode.length = disize → (init dinode).length = disize ∧
    Dinode.HasKey (inodeKey child) (init dinode))
  {d : Dtree} {live : List (ℕ × DirEntry)} (hroot : (v.inodeAt parent b j).dtree = .ok d) (hshows : d.Shows live)
  {name : List UInt16} (hname : name.length ≤ 11)
  (habsent : (live.map Prod.snd).find? (fun e => e.name = name) = none) (hroom : live.length < 8)

include h hparent hfree hblocks hne hinit hroot hshows hname habsent hroom

/-- The new inode is initialised and entered into its directory. -/
theorem exists_entered {w : Volume} (hw : InCall v [] [] w) :
    ∃ w₁ w₂ w₃ d', updateInodePage child cb (cj * disize) init w = .ok () w₁ ∧
      markPageDirty child cb w₁ = .ok () w₂ ∧
      nextEntryIndex parent w₂ = .ok (UInt32.ofNat live.length) w₂ ∧
      insertDirEntry parent name child (UInt32.ofNat live.length) w₂ = .ok true w₃ ∧
      Dtree.insert name child (UInt32.ofNat live.length) d = .ok true d' ∧
      d'.Shows (Dtree.placed live (live.length + 1) ⟨child, name, UInt32.ofNat live.length⟩) ∧
      w₃.FoundAt parent b j ∧
      InCall v [((parent, b), updateAt (j * disize) (Dinode.setRoot d'.toBytes) (v.storage.block b)),
        ((child, cb), updateAt (cj * disize) init (v.storage.block cb))] [(child, cb)] w₃ := by
  have hlen := v.storage.length_block cb
  have hslot := hinit _ (length_slotOf hlen hfree.slot)
  -- the page of the new inode
  have hloaded : w.loaded child cb = v.storage.block cb := by
    rw [hw.caches.loaded_of_fresh child fun p hp => absurd hp List.not_mem_nil, hw.storage]
  obtain ⟨w₁, hupdate, hw₁⟩ := hw.exists_update h.toCalm h.room (by decide) child (cj * disize)
    init hfree.inside (by rw [hloaded]; exact length_updateAt_of_length hlen hfree.slot hslot.1)
  rw [hloaded, List.filter_nil] at hw₁
  obtain ⟨w₂, hmark, hw₂⟩ := hw₁.exists_mark (List.mem_singleton_self _)
  rw [List.filter_cons_of_neg (by simp), List.filter_nil, if_neg List.not_mem_nil, List.nil_append] at hw₂
  have hkeys : ∀ j' < inosPerPage, cb < b ∨ cb = b ∧ j' ≤ j →
      (Dinode.HasKey (inodeKey parent) (slotOf (updateAt (cj * disize) init (v.storage.block cb)) j') ↔
        Dinode.HasKey (inodeKey parent) (slotOf (v.storage.block cb) j')) := by
    intro j' hj' hbefore
    rw [slotOf_updateAt_of_length hlen hfree.slot hslot.1]
    split
    · -- neither the new inode nor what was in its slot has the key of the directory
      refine iff_of_false (fun hkey => ?_) fun hkey => ?_
      · exact inodeKey_ne hne (Prod.ext (hslot.2.1.symm.trans hkey.1) (hslot.2.2.symm.trans hkey.2))
      · rw [← h.shown] at hkey
        exact hparent.first cb j' hfree.low (Or.inl (hbefore.resolve_right fun hb => hblocks hb.1)) hj' hkey
    · exact Iff.rfl
  have hfound₂ : w₂.FoundAt parent b j := by
    refine hw₂.foundAt h.toResting hparent fun p hp => ?_
    rw [List.mem_singleton.mp hp]
    dsimp only
    exact hkeys
  have hread : readInode parent w₂ = .ok (v.inodeAt parent b j) w₂ := by
    rw [(hw₂.working h.toWorking).toCalm.readInode_of_foundAt hfound₂]
    unfold inodeAt
    rw [hw₂.caches.own_of_not_mem fun p hp heq => ?_, hw₂.storage, h.own]
    cases List.mem_singleton.mp hp
    exact hblocks (congrArg Prod.snd heq)
  have hdtree : readDtree (v.inodeAt parent b j) w₂ = .ok d w₂ := by
    unfold readDtree
    rw [hroot]
    rfl
  obtain ⟨d', hinsert, hshows'⟩ := hshows.insert_absent child (UInt32.ofNat live.length) hname habsent hroom
  have hsize : d'.toBytes.length = 288 := hshows'.size
  have hedit := isEdit_setRoot_bytes hsize
  have hloaded₂ : w₂.loaded parent b = v.storage.block b := by
    rw [hw₂.caches.loaded_of_fresh parent fun p hp => ?_, hw₂.storage]
    cases List.mem_singleton.mp hp
    exact hblocks
  obtain ⟨w₃, hwrite, hw₃⟩ := hw₂.exists_update h.toCalm h.room (show 1 < 4 by decide) parent
    (j * disize) (Dinode.setRoot d'.toBytes) hparent.inside (by
      rw [hloaded₂]
      exact length_updateAt_slot (v.storage.length_block b) hparent.slot hedit)
  have hkeep : [((child, cb), updateAt (cj * disize) init (v.storage.block cb))].filter
      (fun p => decide (p.1 ≠ (parent, b))) = [((child, cb), updateAt (cj * disize) init (v.storage.block cb))] := by
    simp [hblocks]
  rw [hloaded₂, hkeep] at hw₃
  refine ⟨w₁, w₂, w₃, d', hupdate, hmark, ?_, ?_, hinsert, hshows', ?_, hw₃⟩
  · unfold nextEntryIndex numEntries
    rw [bind_ok hread, bind_ok hdtree, hshows.entries]
    show EStateM.Result.ok (UInt32.ofNat (live.map Prod.snd).length) w₂ = _
    rw [List.length_map]
  · unfold insertDirEntry
    have hrun : runDtree (Dtree.insert name child (UInt32.ofNat live.length)) d w₂ = .ok (true, d') w₂ := by
      unfold runDtree
      rw [hinsert]
      rfl
    rw [bind_ok hread, bind_ok hdtree, bind_ok hrun]
    exact bind_ok hwrite
  · refine hw₃.foundAt h.toResting hparent fun p hp j' hj' hbefore => ?_
    rcases List.mem_cons.mp hp with rfl | hp
    · rw [slotOf_updateAt (v.storage.length_block b) hparent.slot hedit]
      split
      · next heq =>
          rw [heq]
          exact hedit.key _ _ (length_slotOf (v.storage.length_block b) hparent.slot)
      · exact Iff.rfl
    · rw [List.mem_singleton.mp hp] at hbefore ⊢
      dsimp only at hbefore ⊢
      exact hkeys j' hj' hbefore

end Entering

/-- The last pages of a call that changed two blocks. -/
theorem lastPage_two {cache : PageCache} {key key' : UInt32 × ℕ} {data data' : List UInt8}
    (hpage : (cache.peek key).map CachedPage.data = some data)
    (hpage' : (cache.peek key').map CachedPage.data = some data') (block : ℕ) :
    lastPage (cachedPages cache [key, key']) block =
      if key'.2 = block then some data' else if key.2 = block then some data else none := by
  obtain ⟨page, hpeek, rfl⟩ := Option.map_eq_some_iff.mp hpage
  obtain ⟨page', hpeek', rfl⟩ := Option.map_eq_some_iff.mp hpage'
  have hpages : cachedPages cache [key, key'] = [(key.2, page.data)] ++ [(key'.2, page'.data)] := by
    simp [cachedPages, hpeek, hpeek']
  have hone : lastPage [(key.2, page.data)] block = if key.2 = block then some page.data else none := by
    have happend := lastPage_append [] (key.2, page.data) block
    rwa [List.nil_append] at happend
  rw [hpages, lastPage_append, hone]

/-- **The end of a call that changed two blocks.** -/
theorem InCall.becomes_two {α : Type} {n : ℕ} {v w : Volume} {body : VolM (Exit α α)} {a : α}
    {key key' : UInt32 × ℕ} {data data' : List UInt8} (hw : InCall v [(key', data'), (key, data)] [key, key'] w)
    (h : v.AtRest (n + 1)) (hbody : body v.begun = .ok (.commit a) w) (hin : key.2 < v.aggSize)
    (hin' : key'.2 < v.aggSize) :
    ∃ v', transaction body v = .ok a v' ∧ v'.bmap = v.bmap.map flushedMap ∧ Becomes n v
      (Function.update (Function.update v.storage.block key.2 data) key'.2 data') v' := by
  have hkeys : ∀ k ∈ [key, key'], k.2 < v.aggSize := by
    intro k hk
    rcases List.mem_cons.mp hk with rfl | hk
    · exact hin
    · rwa [List.mem_singleton.mp hk]
  have hmarked : ∀ p ∈ [(key', data'), (key, data)], p.1 ∈ [key, key'] := by
    intro p hp
    rcases List.mem_cons.mp hp with rfl | hp
    · exact List.mem_cons_of_mem _ (List.mem_singleton_self _)
    · rw [List.mem_singleton.mp hp]
      exact List.mem_cons_self ..
  obtain ⟨v', hrun, hrest, hait2, hagg, hhandles, hbmap, hblocks⟩ := hw.exists_transaction h hbody
    (show 2 ≤ 4 by decide) hkeys hmarked
  refine ⟨v', hrun, hbmap, hrest, hait2, hagg, hhandles, fun block hplain => (hblocks block hplain).1,
    fun block hplain => ?_⟩
  rw [(hblocks block hplain).2, lastPage_two (hw.caches.data _ (List.mem_cons_of_mem _ (List.mem_singleton_self _)))
    (hw.caches.data _ (List.mem_cons_self ..)), Function.update_apply, Function.update_apply]
  by_cases hkey' : block = key'.2
  · rw [if_pos hkey'.symm, if_pos hkey', Option.getD_some]
  · rw [if_neg (Ne.symm hkey'), if_neg hkey']
    by_cases hkey : block = key.2
    · rw [if_pos hkey.symm, if_pos hkey, Option.getD_some]
    · rw [if_neg (Ne.symm hkey), if_neg hkey, Option.getD_none]

/-- The page of the directory is marked after that of the new inode. -/
theorem exists_marked {v w : Volume} {parent child : UInt32} {b cb : ℕ} (hblocks : cb ≠ b) {data data' : List UInt8}
    (hw : InCall v [((parent, b), data'), ((child, cb), data)] [(child, cb)] w) :
    ∃ w', markPageDirty parent b w = .ok () w' ∧
      InCall v [((parent, b), data'), ((child, cb), data)] [(child, cb), (parent, b)] w' := by
  obtain ⟨w', hrun, hw'⟩ := hw.exists_mark (List.mem_cons_self ..)
  refine ⟨w', hrun, ?_⟩
  have hnew : (parent, b) ∉ [(child, cb)] := by
    simp [Ne.symm hblocks]
  have hkeep : [((parent, b), data'), ((child, cb), data)].filter (fun p => decide (p.1 ≠ (parent, b))) =
      [((child, cb), data)] := by
    simp [hblocks]
  rwa [hkeep, if_neg hnew] at hw'

/-- The change of a link count. -/
def relinked (f : ℕ → ℕ) (dinode : List UInt8) : List UInt8 :=
  Dinode.setNlink (f (Dinode.nlink dinode)) dinode

theorem isEdit_relinked (f : ℕ → ℕ) : Dinode.IsEdit (relinked f) where
  length dinode h := (Dinode.isEdit_writeLE (show 12 ≤ 40 by decide) (show 40 + 4 ≤ disize by decide) _).length dinode h
  key key dinode h := (Dinode.isEdit_writeLE (show 12 ≤ 40 by decide) (show 40 + 4 ≤ disize by decide) _).key key dinode h

/-- The link count of the directory is changed after its root. -/
theorem exists_relinked {n : ℕ} {v w : Volume} (h : v.AtRest n) {parent child : UInt32} {b j cb : ℕ}
    (hblocks : cb ≠ b) {data data' : List UInt8}
    (hw : InCall v [((parent, b), data'), ((child, cb), data)] [(child, cb)] w) (hfound : w.FoundAt parent b j)
    (f : ℕ → ℕ) :
    ∃ w', changeNlink parent f w = .ok () w' ∧ InCall v
      [((parent, b), updateAt (j * disize) (relinked f) data'), ((child, cb), data)] [(child, cb), (parent, b)] w' := by
  have hread : readInode parent w = .ok (w.inodeAt parent b j) w :=
    (hw.working h.toWorking).toCalm.readInode_of_foundAt hfound
  have hloaded : w.loaded parent b = data' := hw.caches.loaded_of_mem (List.mem_cons_self ..)
  have hlen : data'.length = blockSize := hw.length _ (List.mem_cons_self ..)
  obtain ⟨w₁, hupdate, hw₁⟩ := hw.exists_update h.toCalm h.room (show 2 < 4 by decide) parent
    (j * disize) (relinked f) (hw.aggSize ▸ hfound.inside) (by
      rw [hloaded]
      exact length_updateAt_slot hlen hfound.slot (isEdit_relinked f))
  have hkeep : [((parent, b), data'), ((child, cb), data)].filter (fun p => decide (p.1 ≠ (parent, b))) =
      [((child, cb), data)] := by
    simp [hblocks]
  rw [hloaded, hkeep] at hw₁
  obtain ⟨w₂, hmark, hw₂⟩ := exists_marked hblocks hw₁
  refine ⟨w₂, ?_, hw₂⟩
  unfold changeNlink
  rw [bind_ok hread]
  exact (bind_ok hupdate).trans hmark

section Made

variable {n : ℕ} {v : Volume} (h : v.AtRest (n + 1)) {parent child : UInt32} {b j cb cj : ℕ}
  (hparent : v.FoundAt parent b j) (hfree : v.FreeAt cb cj) (hblocks : cb ≠ b)
  (hchild : child = UInt32.ofNat (inoAt (cb - v.ait2.address) cj)) (hino : filesystemI ≤ child.toNat)
  (hne : child ≠ parent) {d : Dtree} {live : List (ℕ × DirEntry)}
  (hroot : (v.inodeAt parent b j).dtree = .ok d) (hshows : d.Shows live) {name : String}
  (hname : validName (encodeUtf16 name) = true)
  (habsent : (live.map Prod.snd).find? (fun e => e.name = encodeUtf16 name) = none) (hroom : live.length < 8)

include h hparent hfree hblocks hchild hino hne hroot hshows hname habsent hroom

/-- **A file is made.** -/
theorem exists_createFile :
    ∃ v' d', createFile parent name v = .ok child v' ∧ v'.bmap = v.bmap.map flushedMap ∧
      Dtree.insert (encodeUtf16 name) child (UInt32.ofNat live.length) d = .ok true d' ∧
      d'.Shows (Dtree.placed live (live.length + 1) ⟨child, encodeUtf16 name, UInt32.ofNat live.length⟩) ∧
      Becomes n v (Function.update (Function.update v.storage.block cb
          (updateAt (cj * disize) (newDinode 0x81a4 0 1 child) (v.storage.block cb)))
        b (updateAt (j * disize) (Dinode.setRoot d'.toBytes) (v.storage.block b))) v' := by
  have hvalid : (encodeUtf16 name).length ≤ 11 := by
    unfold validName at hname
    simpa using (Bool.and_eq_true_iff.mp hname).2
  have halloc := h.allocateInode_begun hfree hchild
  obtain ⟨w₁, w₂, w₃, d', hupdate, hmark, hindex, hinsert, hroot', hshows', hfound, hw₃⟩ :=
    exists_entered h hparent hfree hblocks hne (fun dinode hlen =>
      ⟨(newDinode_spec hlen 0x81a4 0 1 hino).1, (newDinode_spec hlen 0x81a4 0 1 hino).2.1⟩)
      hroot hshows hvalid habsent hroom (h.begun.noted rfl cb)
  obtain ⟨w₄, hmarked, hw₄⟩ := exists_marked hblocks hw₃
  have hread : readInode parent w₃ = .ok (w₃.inodeAt parent b j) w₃ :=
    (hw₃.working h.toWorking).toCalm.readInode_of_foundAt hfound
  have hbody : createFileBody parent (encodeUtf16 name) v.begun = .ok (.commit child) w₄ := by
    unfold createFileBody enterInode markInodeDirty
    rw [bind_ok halloc, if_neg (by rw [hname]; decide)]
    simp only
    rw [bind_ok hupdate, bind_ok hmark, bind_ok hindex, bind_ok hinsert, if_neg (by decide)]
    exact bind_ok ((bind_ok hread).trans hmarked)
  obtain ⟨v', hrun, hbmap, hbecomes⟩ := hw₄.becomes_two h hbody hfree.inside hparent.inside
  exact ⟨v', d', hrun, hbmap, hroot', hshows', hbecomes⟩

/-- **A directory is made.** -/
theorem exists_mkdir :
    ∃ v' d', mkdir parent name v = .ok child v' ∧
      Dtree.insert (encodeUtf16 name) child (UInt32.ofNat live.length) d = .ok true d' ∧
      d'.Shows (Dtree.placed live (live.length + 1) ⟨child, encodeUtf16 name, UInt32.ofNat live.length⟩) ∧
      Becomes n v (Function.update (Function.update v.storage.block cb
          (updateAt (cj * disize) (newDirectory child parent) (v.storage.block cb)))
        b (updateAt (j * disize) (relinked addLink)
          (updateAt (j * disize) (Dinode.setRoot d'.toBytes) (v.storage.block b)))) v' := by
  have hvalid : (encodeUtf16 name).length ≤ 11 := by
    unfold validName at hname
    simpa using (Bool.and_eq_true_iff.mp hname).2
  have halloc := h.allocateInode_begun hfree hchild
  obtain ⟨w₁, w₂, w₃, d', hupdate, hmark, hindex, hinsert, hroot', hshows', hfound, hw₃⟩ :=
    exists_entered h hparent hfree hblocks hne (fun dinode hlen =>
      ⟨(newDirectory_spec hlen parent hino).1, (newDirectory_spec hlen parent hino).2.1⟩)
      hroot hshows hvalid habsent hroom (h.begun.noted rfl cb)
  obtain ⟨w₄, hlinked, hw₄⟩ := exists_relinked h hblocks hw₃ hfound addLink
  have hbody : mkdirBody parent (encodeUtf16 name) v.begun = .ok (.commit child) w₄ := by
    unfold mkdirBody
    rw [bind_ok halloc]
    simp only
    rw [if_neg (by rw [hname]; decide), bind_ok hupdate, bind_ok hmark, bind_ok hindex, bind_ok hinsert,
      if_neg (by decide)]
    exact bind_ok hlinked
  obtain ⟨v', hrun, -, hbecomes⟩ := hw₄.becomes_two h hbody hfree.inside hparent.inside
  exact ⟨v', d', hrun, hroot', hshows', hbecomes⟩

end Made

end Volume

end JfsFuse
