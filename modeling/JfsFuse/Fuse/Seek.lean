import JfsFuse.Btree.XtreeInsert
import JfsFuse.Fuse.Resume
import JfsFuse.Lib.Segments

/-!
# Seeking data and holes

`lseek_data_or_hole` goes through the extents of the root and stops at the first one that ends
behind the offset.  This finds the next data, and answers with a position behind the end of the
file when the next data was allocated there.  For a hole it does not look at what follows the
extent, and behind the last extent it answers with the size of the file.
-/

namespace JfsFuse

open ByteBuf Program

namespace Extent

/-- The bytes of an extent. -/
def segment (ext : Extent) : ℕ × ℕ :=
  (ext.offset * blockSize, ext.offset * blockSize + ext.length * blockSize)

end Extent

namespace FuseFs

/-- `SEEK_DATA` and `SEEK_HOLE`, as the source has them. -/
def seekDataType : ℤ := 3
def seekHoleType : ℤ := 4

/-- The loop of `lseek_data_or_hole` for data. -/
def seekData (offset : ℕ) : List Extent → Option ℕ
  | [] => none
  | ext :: rest =>
      if offset < ext.segment.2 then
        if ext.segment.1 ≤ offset then some offset else some ext.segment.1
      else seekData offset rest

/-- The loop for a hole. -/
def seekHole (offset size : ℕ) : List Extent → ℕ
  | [] => size
  | ext :: rest =>
      let extEnd := min ext.segment.2 size
      if offset < ext.segment.1 then offset
      else if offset < extEnd then extEnd
      else seekHole offset size rest

/-- `lseek_data_or_hole`. -/
def lseekDataOrHole (ino : UInt32) (offset : ℕ) (seekType : ℤ) : FuseM (Option ℕ) := do
  match ← readInode? ino with
  | none => return none
  | some inode =>
      let size := inode.size
      if size ≤ offset then return none
      else if seekType = seekDataType then
        match inode.xtree with
        | .error _ => return none
        | .ok xtree => return seekData offset xtree.iterExtents
      else if seekType = seekHoleType then
        match inode.xtree with
        | .error _ => return none
        | .ok xtree => return some (seekHole offset size xtree.iterExtents)
      else return none

/-! ## The loops -/

theorem seekData_eq (offset : ℕ) (extents : List Extent) :
    seekData offset extents =
      (Segments.next (extents.map Extent.segment) offset).map fun s => max offset s.1 := by
  induction extents with
  | nil => rfl
  | cons ext rest ih =>
      unfold seekData
      rw [List.map_cons, Segments.next_cons, ih]
      split
      · rw [Option.map_some]
        split
        · next hstart => rw [max_eq_left hstart]
        · next hstart => rw [max_eq_right (Nat.le_of_not_le hstart)]
      · rfl

theorem seekHole_eq {offset size : ℕ} (hoffset : offset < size) (extents : List Extent)
    (hpos : ∀ ext ∈ extents, ext.segment.1 < ext.segment.2) :
    seekHole offset size extents =
      match Segments.next (extents.map Extent.segment) offset with
      | none => size
      | some s => if offset < s.1 then offset else min s.2 size := by
  induction extents with
  | nil => rfl
  | cons ext rest ih =>
      have hrest := ih fun other hother => hpos other (List.mem_cons_of_mem _ hother)
      have hfirst := hpos ext (List.mem_cons_self ..)
      unfold seekHole
      rw [List.map_cons, Segments.next_cons]
      by_cases hend : offset < ext.segment.2
      · simp only [hend, if_true, lt_min hend hoffset]
      · have hstart : ¬ offset < ext.segment.1 := fun h => hend (h.trans hfirst)
        have hmin : ¬ offset < min ext.segment.2 size := fun h => hend (h.trans_le (min_le_left ..))
        simp only [hend, hstart, hmin, if_false, hrest]

/-! ## What the extents cover -/

variable {xtree : Xtree}

theorem mem_segments {s : ℕ × ℕ} :
    s ∈ xtree.iterExtents.map Extent.segment ↔
      ∃ xad ∈ xtree.slots, xad.length ≠ 0 ∧ (xad.offset * blockSize, xad.stop * blockSize) = s := by
  unfold Xtree.iterExtents Extent.segment Xad.stop
  simp only [List.map_map, List.mem_map, List.mem_filter, Function.comp_apply, decide_eq_true_eq, Nat.add_mul,
    and_assoc]

theorem sorted_iterExtents (hvalid : xtree.validate = .ok ()) :
    Segments.Sorted (xtree.iterExtents.map Extent.segment) where
  order := by
    have hordered := xtree.validate_ok_iff.mp hvalid
    unfold Runs.Ordered Xtree.runs at hordered
    unfold Xtree.iterExtents
    rw [List.pairwise_map] at hordered
    rw [List.map_map, List.pairwise_map, List.pairwise_filter]
    refine hordered.imp fun hbefore hne hne' => ?_
    have hle := hbefore (of_decide_eq_true hne) (of_decide_eq_true hne')
    change _ * blockSize + _ * blockSize ≤ _ * blockSize
    rw [← Nat.add_mul]
    exact Nat.mul_le_mul_right blockSize hle
  pos s hs := by
    obtain ⟨xad, -, hne, rfl⟩ := mem_segments.mp hs
    exact Nat.mul_lt_mul_of_pos_right (Nat.lt_add_of_pos_right (Nat.pos_of_ne_zero hne)) (by decide)

/-- The byte lies in a block that the extents map. -/
def Mapped (xtree : Xtree) (o : ℕ) : Prop :=
  (xtree.physical (o / blockSize)).isSome

theorem mapped_iff_covered (o : ℕ) :
    Mapped xtree o ↔ Segments.Covered (xtree.iterExtents.map Extent.segment) o := by
  have hpos : 0 < blockSize := by decide
  unfold Mapped Xtree.physical Xtree.lookup Segments.Covered
  rw [Option.isSome_map, List.find?_isSome]
  constructor
  · rintro ⟨xad, hxad, hholds⟩
    simp only [Bool.and_eq_true, decide_eq_true_eq] at hholds
    have hne : xad.length ≠ 0 := by
      intro hzero
      unfold Xad.stop at hholds
      omega
    refine ⟨_, mem_segments.mpr ⟨xad, hxad, hne, rfl⟩, ?_, ?_⟩
    · exact (Nat.le_div_iff_mul_le hpos).mp hholds.1
    · exact (Nat.div_lt_iff_lt_mul hpos).mp hholds.2
  · rintro ⟨s, hs, hstart, hstop⟩
    obtain ⟨xad, hxad, -, rfl⟩ := mem_segments.mp hs
    refine ⟨xad, hxad, ?_⟩
    simp only [Bool.and_eq_true, decide_eq_true_eq]
    exact ⟨(Nat.le_div_iff_mul_le hpos).mpr hstart, (Nat.div_lt_iff_lt_mul hpos).mpr hstop⟩

/-! ## What is found -/

/-- The least position of data from `offset` on. -/
def IsNextData (xtree : Xtree) (size offset : ℕ) : Option ℕ → Prop
  | some o => IsLeast {o | offset ≤ o ∧ o < size ∧ Mapped xtree o} o
  | none => ∀ o, offset ≤ o → o < size → ¬ Mapped xtree o

/-- The least position of a hole from `offset` on; the end of the file counts as one. -/
def IsNextHole (xtree : Xtree) (size offset : ℕ) : Option ℕ → Prop
  | some o => IsLeast {o | offset ≤ o ∧ (¬ Mapped xtree o ∨ o = size)} o
  | none => False

/-- Data from `offset` on begins before the end of the file, if there is any. -/
def DataBeforeEnd (xtree : Xtree) (size offset : ℕ) : Prop :=
  (∃ ext ∈ xtree.iterExtents, offset < ext.segment.2) →
    ∃ ext ∈ xtree.iterExtents, offset < ext.segment.2 ∧ ext.segment.1 < size

/-- Some extent ends behind `offset`, and no other one begins right at the end of the extent that
holds `offset`, if this end lies in the file. -/
def HoleBehind (xtree : Xtree) (size offset : ℕ) : Prop :=
  (∃ ext ∈ xtree.iterExtents, offset < ext.segment.2) ∧
    ∀ ext ∈ xtree.iterExtents, ext.segment.1 ≤ offset → offset < ext.segment.2 → ext.segment.2 < size →
      ∀ other ∈ xtree.iterExtents, other.segment.1 ≠ ext.segment.2

section Found

variable (hvalid : xtree.validate = .ok ()) {offset size : ℕ} (hoffset : offset < size)

include hvalid hoffset

theorem isNextData_seekData_iff :
    IsNextData xtree size offset (seekData offset xtree.iterExtents) ↔ DataBeforeEnd xtree size offset := by
  have hsorted := sorted_iterExtents hvalid
  rw [seekData_eq]
  cases hnext : Segments.next (xtree.iterExtents.map Extent.segment) offset with
  | none =>
      refine iff_of_true (fun o hlow _ => ?_) ?_
      · rw [mapped_iff_covered]
        exact Segments.not_covered_of_next_none hnext hlow
      · rintro ⟨ext, hext, hlt⟩
        exact absurd hlt (not_lt.mpr (Segments.le_of_next_none hnext (List.mem_map_of_mem hext)))
  | some s =>
      obtain ⟨⟨hlow, hcovered⟩, hleast⟩ := Segments.isLeast_covered hsorted hnext
      obtain ⟨ext, hext, rfl⟩ := List.mem_map.mp (Segments.mem_of_next hnext)
      rw [Option.map_some]
      constructor
      · rintro ⟨⟨-, hsize, -⟩, -⟩ -
        exact ⟨ext, hext, Segments.lt_of_next hnext, (le_max_right ..).trans_lt hsize⟩
      · intro hdata
        obtain ⟨other, hother, hlt, hstart⟩ := hdata ⟨ext, hext, Segments.lt_of_next hnext⟩
        have hbefore : ext.segment.1 < size := by
          by_cases hsame : other.segment = ext.segment
          · rwa [hsame] at hstart
          · have hbehind := Segments.le_start_of_ne hsorted hnext (List.mem_map_of_mem hother) hlt hsame
            have hpos := hsorted.pos _ (List.mem_map_of_mem hext)
            omega
        refine ⟨⟨hlow, max_lt hoffset hbefore, (mapped_iff_covered _).mpr hcovered⟩, ?_⟩
        rintro o ⟨hlow', -, hmapped⟩
        exact hleast ⟨hlow', (mapped_iff_covered o).mp hmapped⟩

theorem isNextHole_seekHole_iff :
    IsNextHole xtree size offset (some (seekHole offset size xtree.iterExtents)) ↔ HoleBehind xtree size offset := by
  have hsorted := sorted_iterExtents hvalid
  rw [seekHole_eq hoffset _ fun ext hext => hsorted.pos _ (List.mem_map_of_mem hext)]
  cases hnext : Segments.next (xtree.iterExtents.map Extent.segment) offset with
  | none =>
      -- the offset lies in a hole, and the answer is the size
      refine iff_of_false (fun hleast => ?_) fun ⟨⟨ext, hext, hlt⟩, _⟩ =>
        absurd hlt (not_lt.mpr (Segments.le_of_next_none hnext (List.mem_map_of_mem hext)))
      have hhole : ¬ Mapped xtree offset := by
        rw [mapped_iff_covered]
        exact Segments.not_covered_of_next_none hnext le_rfl
      exact absurd (hleast.2 ⟨le_rfl, .inl hhole⟩) (not_le.mpr hoffset)
  | some s =>
      obtain ⟨ext, hext, rfl⟩ := List.mem_map.mp (Segments.mem_of_next hnext)
      have hlt := Segments.lt_of_next hnext
      by_cases hstart : offset < ext.segment.1
      · have hhole : ¬ Mapped xtree offset := by
          rw [mapped_iff_covered]
          exact Segments.not_covered_of_lt hsorted hnext hstart
        simp only [if_pos hstart]
        refine iff_of_true ⟨⟨le_rfl, .inl hhole⟩, fun o ho => ho.1⟩ ⟨⟨ext, hext, hlt⟩, ?_⟩
        intro other hother hlow hhigh
        exact absurd ((mapped_iff_covered _).mpr ⟨_, List.mem_map_of_mem hother, hlow, hhigh⟩) hhole
      · have hlow : ext.segment.1 ≤ offset := Nat.not_lt.mp hstart
        simp only [if_neg hstart]
        have hbound : ∀ o, offset ≤ o → ¬ Mapped xtree o ∨ o = size → min ext.segment.2 size ≤ o := by
          rintro o ho (hhole | rfl)
          · rw [mapped_iff_covered] at hhole
            exact (min_le_left ..).trans (Segments.le_of_not_covered hnext hlow ho hhole)
          · exact min_le_right ..
        have hends : ∀ other ∈ xtree.iterExtents, other.segment.1 ≤ offset → offset < other.segment.2 →
            other.segment = ext.segment := by
          intro other hother hlow' hhigh'
          by_contra hne
          have hbehind := Segments.le_start_of_ne hsorted hnext (List.mem_map_of_mem hother) hhigh' hne
          omega
        by_cases hsize : size ≤ ext.segment.2
        · rw [min_eq_right hsize] at hbound ⊢
          refine iff_of_true ⟨⟨hoffset.le, .inr rfl⟩, fun o ho => hbound o ho.1 ho.2⟩ ⟨⟨ext, hext, hlt⟩, ?_⟩
          intro other hother hlow' hhigh' hbefore
          rw [hends other hother hlow' hhigh'] at hbefore
          exact absurd hbefore (not_lt.mpr hsize)
        · have hinside : ext.segment.2 < size := Nat.not_le.mp hsize
          rw [min_eq_left hinside.le] at hbound ⊢
          have hcovered := Segments.covered_stop_iff hsorted hnext
          rw [← mapped_iff_covered] at hcovered
          constructor
          · rintro ⟨⟨-, hhole⟩, -⟩
            refine ⟨⟨ext, hext, hlt⟩, fun other hother hlow' hhigh' _ third hthird heq => ?_⟩
            rw [hends other hother hlow' hhigh'] at heq
            exact hhole.resolve_right hinside.ne (hcovered.mpr ⟨_, List.mem_map_of_mem hthird, heq⟩)
          · rintro ⟨-, hfree⟩
            refine ⟨⟨hlt.le, .inl fun hmapped => ?_⟩, fun o ho => hbound o ho.1 ho.2⟩
            obtain ⟨s', hs', heq⟩ := hcovered.mp hmapped
            obtain ⟨third, hthird, rfl⟩ := List.mem_map.mp hs'
            exact hfree ext hext hlow hlt hinside third hthird heq

end Found

/-! ## The request -/

section Request

variable {fs fs₁ : FuseFs} {ino : UInt32} {inode : Inode} {offset : ℕ}
  (hread : onVolume Errno.enoent (Volume.readInode ino) fs = .ok inode fs₁)
  (hxtree : inode.xtree = .ok xtree) (hoffset : offset < inode.size)

include hread hxtree hoffset

theorem lseekDataOrHole_data :
    lseekDataOrHole ino offset seekDataType fs = .ok (seekData offset xtree.iterExtents) fs₁ := by
  have hfound : readInode? ino fs = .ok (some inode) fs₁ := tryCatch_ok ((bind_ok hread).trans rfl)
  unfold lseekDataOrHole
  rw [bind_ok hfound]
  simp only [if_neg (Nat.not_le.mpr hoffset), hxtree]
  rfl

theorem lseekDataOrHole_hole :
    lseekDataOrHole ino offset seekHoleType fs = .ok (some (seekHole offset inode.size xtree.iterExtents)) fs₁ := by
  have hfound : readInode? ino fs = .ok (some inode) fs₁ := tryCatch_ok ((bind_ok hread).trans rfl)
  unfold lseekDataOrHole
  rw [bind_ok hfound]
  simp only [if_neg (Nat.not_le.mpr hoffset), hxtree]
  rfl

/-- **Data is found exactly** if it begins before the end of the file, **a hole** if an extent ends behind
the offset and the one that holds it is not followed by another one. -/
theorem lseekDataOrHole_iff (hvalid : xtree.validate = .ok ()) :
    ((∃ result, lseekDataOrHole ino offset seekDataType fs = .ok result fs₁ ∧
        IsNextData xtree inode.size offset result) ↔ DataBeforeEnd xtree inode.size offset) ∧
      ((∃ result, lseekDataOrHole ino offset seekHoleType fs = .ok result fs₁ ∧
        IsNextHole xtree inode.size offset result) ↔ HoleBehind xtree inode.size offset) := by
  rw [lseekDataOrHole_data hread hxtree hoffset, lseekDataOrHole_hole hread hxtree hoffset,
    ← isNextData_seekData_iff hvalid hoffset, ← isNextHole_seekHole_iff hvalid hoffset]
  constructor
  · constructor
    · rintro ⟨result, heq, hnext⟩
      rwa [← (EStateM.Result.ok.inj heq).1] at hnext
    · exact fun hnext => ⟨_, rfl, hnext⟩
  · constructor
    · rintro ⟨result, heq, hnext⟩
      rwa [← (EStateM.Result.ok.inj heq).1] at hnext
    · exact fun hnext => ⟨_, rfl, hnext⟩

end Request

/-! ### A file of three blocks in five -/

/-- File 19 with an extent of three blocks, and of the given size. -/
def threeBlockFile (size : ℕ) : FuseFs where
  volume := Volume.oneFile Xtree.threeBlocks size fun _ => 0

theorem read_threeBlockFile (size : ℕ) (hsize : size < 2 ^ 64) : ∃ inode,
    onVolume Errno.enoent (Volume.readInode 19) (threeBlockFile size) = .ok inode (threeBlockFile size) ∧
      inode.xtree = .ok Xtree.threeBlocks.stored ∧ inode.size = size := by
  have hread := Volume.readInode_oneInode (fun _ => 0) (Volume.length_fileInode Xtree.threeBlocks size)
    (Volume.hasKey_fileInode Xtree.threeBlocks size)
  refine ⟨{ dinode := Volume.fileInode Xtree.threeBlocks size, ino := 19, pageBlock := 4, pageOffset := 0 }, ?_,
    Volume.xtree_fileInode .., ?_⟩
  · unfold onVolume
    rw [show (threeBlockFile size).volume = Volume.oneInode (Volume.fileInode Xtree.threeBlocks size) fun _ => 0 from rfl,
      hread]
    rfl
  · exact (Volume.size_fileInode ..).trans (Nat.mod_eq_of_lt hsize)

/-- The fourth block of five is a hole, and the answer is the end of the file. -/
theorem seek_hole_answers_size :
    ∃ fs ino inode xtree offset, onVolume Errno.enoent (Volume.readInode ino) fs = .ok inode fs ∧
      inode.xtree = .ok xtree ∧ xtree.validate = .ok () ∧ offset < inode.size ∧
      ¬ ∃ result, lseekDataOrHole ino offset seekHoleType fs = .ok result fs ∧
        IsNextHole xtree inode.size offset result := by
  obtain ⟨inode, hread, hxtree, hsize⟩ := read_threeBlockFile 20480 (by decide)
  have hoffset : 12288 < inode.size := by
    rw [hsize]
    decide
  have hvalid : Xtree.threeBlocks.stored.validate = .ok () := by decide
  refine ⟨threeBlockFile 20480, 19, inode, _, 12288, hread, hxtree, hvalid, hoffset, ?_⟩
  rintro ⟨result, hrun, hnext⟩
  rw [lseekDataOrHole_hole hread hxtree hoffset] at hrun
  rw [← (EStateM.Result.ok.inj hrun).1, isNextHole_seekHole_iff hvalid hoffset] at hnext
  exact absurd hnext.1 (by decide)

/-- From the start of the file, the data and the hole behind it are found. -/
theorem lseekDataOrHole_iff_front : ∃ inode,
    onVolume Errno.enoent (Volume.readInode 19) (threeBlockFile 20480) = .ok inode (threeBlockFile 20480) ∧
      (∃ result, lseekDataOrHole 19 0 seekDataType (threeBlockFile 20480) = .ok result (threeBlockFile 20480) ∧
        IsNextData Xtree.threeBlocks.stored inode.size 0 result) ∧
      ∃ result, lseekDataOrHole 19 0 seekHoleType (threeBlockFile 20480) = .ok result (threeBlockFile 20480) ∧
        IsNextHole Xtree.threeBlocks.stored inode.size 0 result := by
  obtain ⟨inode, hread, hxtree, hsize⟩ := read_threeBlockFile 20480 (by decide)
  have hoffset : 0 < inode.size := by
    rw [hsize]
    decide
  obtain ⟨hdata, hhole⟩ := lseekDataOrHole_iff hread hxtree hoffset (by decide)
  refine ⟨inode, hread, hdata.mpr ?_, hhole.mpr ?_⟩
  · rw [hsize]
    exact fun _ => by decide
  · rw [hsize]
    unfold HoleBehind
    decide

end FuseFs

end JfsFuse
