import JfsFuse.Btree.XtreeMapping

/-!
# The bytes of an extent root

An extent root that was written to an inode is read back with the extents it had: only the
two slots in front of the descriptors, which are not stored, come back empty.
-/

namespace JfsFuse

open ByteBuf

namespace Xad

@[simp] theorem length_toBytes (xad : Xad) : xad.toBytes.length = 16 := by
  unfold toBytes Pxd.toBytes
  simp

theorem read_of_slice {data : List UInt8} {off : ℕ} {xad : Xad} (h : slice data off 16 = xad.toBytes) :
    read data off = xad := by
  have hbyte : ∀ i < 16, data.getD (off + i) 0 = xad.toBytes.getD i 0 := by
    intro i hi
    rw [← h, getD_slice data off 16 i 0 hi]
  have hfield : ∀ i n, i + n ≤ 16 → slice data (off + i) n = slice xad.toBytes i n := by
    intro i n hn
    rw [← h, slice_slice data hn]
  have hrsvrd : xad.rsvrd.toNat < 256 ^ 2 := xad.rsvrd.toNat_lt
  have hoff2 : xad.off2.toNat < 256 ^ 4 := xad.off2.toNat_lt
  have hflag : data.getD off 0 = xad.flag := hbyte 0 (by decide)
  have hoff1 : data.getD (off + 3) 0 = xad.off1 := (hbyte 3 (by decide)).trans rfl
  have hread₁ : readLE data (off + 1) 2 = xad.rsvrd.toNat := by
    rw [readLE, hfield 1 2 (by decide)]
    exact (readLE_leBytes 2 _).trans (Nat.mod_eq_of_lt hrsvrd)
  have hread₂ : readLE data (off + 4) 4 = xad.off2.toNat := by
    rw [readLE, hfield 4 4 (by decide)]
    exact (readLE_leBytes 4 _).trans (Nat.mod_eq_of_lt hoff2)
  have hloc : Pxd.read data (off + 8) = xad.loc := Pxd.read_of_slice (hfield 8 8 (by decide))
  rw [read, hflag, hoff1, hread₁, hread₂, hloc, UInt16.ofNat_toNat, UInt32.ofNat_toNat]

/-- The bytes of a descriptor are those it was read from. -/
theorem toBytes_read {data : List UInt8} {off : ℕ} (h : off + 16 ≤ data.length) :
    (read data off).toBytes = slice data off 16 := by
  have hbyte : ∀ i, i < data.length → [data.getD i 0] = slice data i 1 := by
    intro i hi
    rw [slice, List.drop_eq_getElem_cons hi, List.take_succ_cons, List.take_zero, List.getD_eq_getElem _ _ hi]
  have hrsvrd : readLE data (off + 1) 2 < 2 ^ 16 := readLE_lt data (off + 1) 2
  have hoff2 : readLE data (off + 4) 4 < 2 ^ 32 := readLE_lt data (off + 4) 4
  unfold read toBytes
  simp only
  rw [UInt16.toNat_ofNat_of_lt' hrsvrd, UInt32.toNat_ofNat_of_lt' hoff2, leBytes_readLE (by omega),
    leBytes_readLE (by omega), Pxd.toBytes_read (by omega), hbyte off (by omega), hbyte (off + 3) (by omega),
    slice_append_slice, slice_append_slice, slice_append_slice, slice_append_slice]

end Xad

namespace Xtree

/-- The root as it is read back. -/
def stored (xt : Xtree) : Xtree :=
  { xt with xad := Vector.ofFn fun i => if xtEntryStart ≤ i.1 then xt.xad.get i else {} }

theorem slots_stored (xt : Xtree) : xt.stored.slots = xt.slots := by
  refine List.ext_getElem? fun i => ?_
  rw [getElem?_slots, getElem?_slots]
  have hslot : xt.stored.xad.toList[xtEntryStart + i]? = xt.xad.toList[xtEntryStart + i]? := by
    by_cases hi : xtEntryStart + i < xtRootMaxSlot
    · simp [stored, hi, Vector.get]
    · rw [List.getElem?_eq_none (by rw [Vector.length_toList]; omega),
        List.getElem?_eq_none (by rw [Vector.length_toList]; omega)]
  rw [hslot]
  rfl

theorem blocks_stored (xt : Xtree) : xt.stored.blocks = xt.blocks := by
  unfold blocks runs
  rw [slots_stored]

/-- The header of the root. -/
def headerBytes (header : XtHeader) : List UInt8 :=
  leBytes 8 header.next.toNat ++ leBytes 8 header.prev.toNat ++
    [header.flag, header.rsrvd1] ++ leBytes 2 header.nextindex.toNat ++
    leBytes 2 header.maxentry.toNat ++ leBytes 2 header.rsrvd2.toNat ++ header.selfPxd.toBytes

theorem length_headerBytes (header : XtHeader) : (headerBytes header).length = 32 := by
  unfold headerBytes Pxd.toBytes
  simp

theorem toBytes_eq (xt : Xtree) :
    xt.toBytes = headerBytes xt.header ++ (xt.xad.toList.drop xtEntryStart).flatMap Xad.toBytes := rfl

theorem length_toBytes (xt : Xtree) : xt.toBytes.length = 288 := by
  have hslots : xt.xad.toList.length = 18 := Vector.length_toList
  rw [toBytes_eq, List.length_append, length_headerBytes, List.length_flatMap]
  simp [hslots, xtEntryStart]

theorem slice_toBytes (xt : Xtree) {i : ℕ} (hlow : xtEntryStart ≤ i) (hhigh : i < xtRootMaxSlot) :
    slice xt.toBytes (32 + (i - xtEntryStart) * 16) 16 = (xt.xad.get ⟨i, hhigh⟩).toBytes := by
  rw [toBytes_eq, slice_append_right _ _ (by rw [length_headerBytes]; omega), length_headerBytes,
    Nat.add_sub_cancel_left, slice_flatMap Xad.length_toBytes (by simp; omega)]
  simp only [List.getElem_drop, Vector.getElem_toList, Nat.add_sub_cancel' hlow]
  rfl

theorem xad_toBytes (xt : Xtree) : (Vector.ofFn fun i : Fin xtRootMaxSlot =>
    if xtEntryStart ≤ i.1 ∧ 32 + (i.1 - xtEntryStart) * 16 + 16 ≤ xt.toBytes.length then
      Xad.read xt.toBytes (32 + (i.1 - xtEntryStart) * 16)
    else {}) = xt.stored.xad := by
  refine congrArg Vector.ofFn (funext fun i => ?_)
  by_cases hi : xtEntryStart ≤ i.1
  · have hfits : 32 + (i.1 - xtEntryStart) * 16 + 16 ≤ xt.toBytes.length := by
      have hlt := i.2
      unfold xtEntryStart xtRootMaxSlot at *
      rw [xt.length_toBytes]
      omega
    rw [if_pos ⟨hi, hfits⟩, if_pos hi]
    exact Xad.read_of_slice (xt.slice_toBytes hi i.2)
  · rw [if_neg fun h => hi h.1, if_neg hi]

/-- **The round trip** of an extent root. -/
theorem fromInodeData_toBytes (xt : Xtree) : fromInodeData xt.toBytes = .ok xt.stored := by
  have hread : ∀ off width, off + width ≤ 32 →
      readLE xt.toBytes off width = readLE (headerBytes xt.header) off width := by
    intro off width hfits
    rw [toBytes_eq, readLE_append_left _ (by rw [length_headerBytes]; exact hfits)]
  have hbyte : ∀ i < 32, xt.toBytes.getD i 0 = (headerBytes xt.header).getD i 0 := by
    intro i hi
    rw [toBytes_eq, List.getD_append _ _ _ _ (by rw [length_headerBytes]; exact hi)]
  -- the fields of the header, in their order
  have hnext : readLE xt.toBytes 0 8 = xt.header.next.toNat % 256 ^ 8 := by
    rw [hread 0 8 (by decide)]
    simp (disch := simp) only [headerBytes, readLE_append_left, readLE_leBytes]
  have hprev : readLE xt.toBytes 8 8 = xt.header.prev.toNat % 256 ^ 8 := by
    rw [hread 8 8 (by decide)]
    simp (disch := simp) only [headerBytes, readLE_append_left, readLE_append_right]
    simp [readLE_leBytes]
  have hindex : readLE xt.toBytes 18 2 = xt.header.nextindex.toNat % 256 ^ 2 := by
    rw [hread 18 2 (by decide)]
    simp (disch := simp) only [headerBytes, readLE_append_left, readLE_append_right]
    simp [readLE_leBytes]
  have hmax : readLE xt.toBytes 20 2 = xt.header.maxentry.toNat % 256 ^ 2 := by
    rw [hread 20 2 (by decide)]
    simp (disch := simp) only [headerBytes, readLE_append_left, readLE_append_right]
    simp [readLE_leBytes]
  have hrest : readLE xt.toBytes 22 2 = xt.header.rsrvd2.toNat % 256 ^ 2 := by
    rw [hread 22 2 (by decide)]
    simp (disch := simp) only [headerBytes, readLE_append_left, readLE_append_right]
    simp [readLE_leBytes]
  have hself : Pxd.read xt.toBytes 24 = xt.header.selfPxd := by
    apply Pxd.read_of_slice
    rw [toBytes_eq, slice_append_left _ (by rw [length_headerBytes])]
    simp (disch := simp) only [headerBytes, slice_append_right]
    have hall := slice_zero_length xt.header.selfPxd.toBytes
    simpa [Pxd.toBytes] using hall
  have hflag : xt.toBytes.getD 16 0 = xt.header.flag := by
    rw [hbyte 16 (by decide)]
    rfl
  have hrsrvd : xt.toBytes.getD 17 0 = xt.header.rsrvd1 := by
    rw [hbyte 17 (by decide)]
    rfl
  unfold fromInodeData
  rw [if_neg (by rw [xt.length_toBytes]; decide), xad_toBytes, hnext, hprev, hindex, hmax, hrest, hself, hflag, hrsrvd]
  have hword : ∀ n : UInt16, UInt16.ofNat (n.toNat % 256 ^ 2) = n := by
    intro n
    have hlt : n.toNat < 256 ^ 2 := n.toNat_lt
    rw [Nat.mod_eq_of_lt hlt, UInt16.ofNat_toNat]
  have hlong : ∀ n : UInt64, UInt64.ofNat (n.toNat % 256 ^ 8) = n := by
    intro n
    have hlt : n.toNat < 256 ^ 8 := n.toNat_lt
    rw [Nat.mod_eq_of_lt hlt, UInt64.ofNat_toNat]
  rw [hword, hword, hword, hlong, hlong]
  rfl

theorem headerBytes_of_fromInodeData {data : List UInt8} {xt : Xtree} (hlen : data.length = 288)
    (h : fromInodeData data = .ok xt) : headerBytes xt.header = slice data 0 32 := by
  unfold fromInodeData at h
  rw [if_neg (by rw [hlen]; decide)] at h
  obtain rfl := Except.ok.inj h
  have hword : ∀ off, off + 2 ≤ 32 → leBytes 2 (UInt16.ofNat (readLE data off 2)).toNat = slice data off 2 := by
    intro off hoff
    have hlt : readLE data off 2 < 2 ^ 16 := readLE_lt data off 2
    rw [UInt16.toNat_ofNat_of_lt' hlt, leBytes_readLE (by omega)]
  have hlong : ∀ off, off + 8 ≤ 32 → leBytes 8 (UInt64.ofNat (readLE data off 8)).toNat = slice data off 8 := by
    intro off hoff
    have hlt : readLE data off 8 < 2 ^ 64 := readLE_lt data off 8
    rw [UInt64.toNat_ofNat_of_lt' hlt, leBytes_readLE (by omega)]
  have hflags : [data.getD 16 0, data.getD 17 0] = slice data 16 2 := by
    rw [slice, List.drop_eq_getElem_cons (by omega), List.drop_eq_getElem_cons (by omega), List.take_succ_cons,
      List.take_succ_cons, List.take_zero, List.getD_eq_getElem _ _ (by omega), List.getD_eq_getElem _ _ (by omega)]
  unfold headerBytes
  simp only
  rw [hlong 0 (by decide), hlong 8 (by decide), hflags, hword 18 (by decide), hword 20 (by decide),
    hword 22 (by decide), Pxd.toBytes_read (by omega)]
  -- the fields meet
  have hmeet := fun off n n' => slice_append_slice data off n n'
  rw [hmeet 0 8 8, hmeet 0 16 2, hmeet 0 18 2, hmeet 0 20 2, hmeet 0 22 2, hmeet 0 24 8]

theorem descriptors_of_fromInodeData {data : List UInt8} {xt : Xtree} (hlen : data.length = 288)
    (h : fromInodeData data = .ok xt) :
    xt.xad.toList.drop xtEntryStart = (List.range 16).map fun k => Xad.read data (32 + k * 16) := by
  unfold fromInodeData at h
  rw [if_neg (by rw [hlen]; decide)] at h
  obtain rfl := Except.ok.inj h
  refine List.ext_getElem (by simp [xtEntryStart, xtRootMaxSlot]) fun k hk hk' => ?_
  rw [List.length_map, List.length_range] at hk'
  have hback : xtEntryStart + k - xtEntryStart = k := Nat.add_sub_cancel_left ..
  have hfits : 32 + (xtEntryStart + k - xtEntryStart) * 16 + 16 ≤ data.length := by omega
  rw [List.getElem_drop, Vector.getElem_toList, Vector.getElem_ofFn, if_pos ⟨Nat.le_add_right .., hfits⟩,
    hback, List.getElem_map, List.getElem_range]

/-- The header and the descriptors of a root that was read give the bytes back. -/
theorem toBytes_of_fromInodeData {data : List UInt8} {xt : Xtree} (hlen : data.length = 288)
    (h : fromInodeData data = .ok xt) : xt.toBytes = data := by
  have hpieces : ((List.range 16).flatMap fun k => (Xad.read data (32 + k * 16)).toBytes) =
      slice data 32 (16 * 16) := by
    rw [← flatMap_slice]
    refine List.flatMap_congr fun k hk => ?_
    have hlt := List.mem_range.mp hk
    exact Xad.toBytes_read (by omega)
  have hall := slice_zero_length data
  rw [hlen] at hall
  rw [toBytes_eq, headerBytes_of_fromInodeData hlen h, descriptors_of_fromInodeData hlen h, List.flatMap_map,
    hpieces, slice_append_slice data 0 32 (16 * 16), hall]

/-- The two slots in front of the descriptors are not stored. -/
theorem stored_of_default {xt : Xtree} (h : ∀ i, i.1 < xtEntryStart → xt.xad.get i = {}) : xt.stored = xt := by
  have hxad : xt.stored.xad = xt.xad := by
    refine Vector.ext fun i hi => ?_
    show (Vector.ofFn _)[i] = xt.xad[i]
    rw [Vector.getElem_ofFn]
    by_cases hlow : xtEntryStart ≤ i
    · rw [if_pos hlow]
      rfl
    · rw [if_neg hlow]
      exact (h ⟨i, hi⟩ (Nat.lt_of_not_le hlow)).symm
  show ({ xt with xad := xt.stored.xad } : Xtree) = xt
  rw [hxad]

/-- The extents of a root that is written to an inode are those that are read back. -/
theorem slots_fromInodeData_toBytes {xt xt' : Xtree} (h : fromInodeData xt.toBytes = .ok xt') :
    xt'.slots = xt.slots := by
  rw [fromInodeData_toBytes] at h
  cases h
  exact xt.slots_stored

end Xtree

end JfsFuse
