import JfsFuse.Btree.XtreeMapping

/-!
# Reading through the block map

`read_data` walks over the parts that `map_blocks` lists, and `map_blocks` looks a block up
only where the extent before it ends.  `scan` is the extent the walk is in when it comes to a
block.  It is not always the extent that `lookup` finds there: behind the first block that is
not mapped the walk is in no extent at all, and where extents overlap it stays in the one it is
in.

So the bytes read are those of the scan (`readData_eq_scan`), and they are the bytes of the
block map exactly when nothing but zeros lies behind a hole.
-/

namespace JfsFuse

open ByteBuf Program

namespace Storage

/-- Byte `j` of a block, if the block can be read. -/
def blockByte (s : Storage) (block j : ℕ) : Option UInt8 :=
  match s.readResult (block * blockSize) blockSize with
  | .ok data => data[j]?
  | .error _ => none

theorem blockByte_of_readResult {s : Storage} {block : ℕ} {data : List UInt8}
    (h : s.readResult (block * blockSize) blockSize = .ok data) (j : ℕ) : s.blockByte block j = data[j]? := by
  rw [blockByte, h]

/-- The device is further on in its decisions. -/
def Later (s s' : Storage) : Prop :=
  ∃ faults, s' = { s with faults }

theorem Later.refl (s : Storage) : s.Later s :=
  ⟨s.faults, rfl⟩

theorem Later.trans {s s' s'' : Storage} (h : s.Later s') (h' : s'.Later s'') : s.Later s'' := by
  obtain ⟨faults, rfl⟩ := h
  obtain ⟨faults', rfl⟩ := h'
  exact ⟨faults', rfl⟩

theorem Later.blockByte_eq {s s' : Storage} (h : s.Later s') (block j : ℕ) :
    s'.blockByte block j = s.blockByte block j := by
  obtain ⟨faults, rfl⟩ := h
  rfl

theorem length_of_readResult {s : Storage} {offset n : ℕ} {data : List UInt8}
    (h : s.readResult offset n = .ok data) : data.length = n := by
  unfold readResult at h
  cases hbackend : s.backend with
  | memory =>
      rw [hbackend] at h
      simp only at h
      split at h
      · cases h
      · rw [← Except.ok.inj h, Memory.length_read]
  | file readOnly =>
      rw [hbackend] at h
      simp only at h
      split at h
      · rw [← Except.ok.inj h, Memory.length_read]
      · cases h

end Storage

theorem StorageM.of_readBlock_ok {block : ℕ} {s s' : Storage} {data : List UInt8}
    (h : StorageM.readBlock block s = .ok data s') :
    s.Later s' ∧ s.readResult (block * blockSize) blockSize = .ok data := by
  have hlater : s.Later s' := by
    obtain ⟨faults, hfinal⟩ := StorageM.final_readBytes (block * blockSize) blockSize s
    unfold StorageM.readBlock at h
    rw [h] at hfinal
    exact ⟨faults, hfinal⟩
  refine ⟨hlater, ?_⟩
  unfold StorageM.readBlock StorageM.readBytes at h
  obtain ⟨_, s₁, -, hrest⟩ := of_bind_ok h
  rw [bind_ok (get_apply s₁)] at hrest
  obtain ⟨hread, rfl⟩ := of_returnExcept_ok hrest
  obtain ⟨faults, rfl⟩ := hlater
  exact hread

namespace Xtree

/-! ## Reading a part -/

/-- `n` bytes were read, byte `k` of them being `byte k`. -/
structure Advances (st st' : ReadState) (n : ℕ) (byte : ℕ → Option UInt8) : Prop where
  remaining : st'.remaining + n = st.remaining
  result : ∃ bytes : List UInt8, st'.result = st.result ++ bytes ∧ bytes.length = n ∧
    ∀ k < n, bytes[k]? = byte k

theorem Advances.zero (st : ReadState) (byte : ℕ → Option UInt8) : Advances st st 0 byte :=
  ⟨rfl, [], (List.append_nil _).symm, rfl, fun _ h => by omega⟩

theorem Advances.congr {st st' : ReadState} {n : ℕ} {byte byte' : ℕ → Option UInt8}
    (h : Advances st st' n byte) (heq : ∀ k < n, byte k = byte' k) : Advances st st' n byte' := by
  obtain ⟨hremaining, bytes, hresult, hlength, hbytes⟩ := h
  exact ⟨hremaining, bytes, hresult, hlength, fun k hk => (hbytes k hk).trans (heq k hk)⟩

theorem Advances.trans {st st' st'' : ReadState} {n m : ℕ} {byte byte' : ℕ → Option UInt8}
    (h : Advances st st' n byte) (h' : Advances st' st'' m byte') :
    Advances st st'' (n + m) fun k => if k < n then byte k else byte' (k - n) := by
  obtain ⟨hremaining, bytes, hresult, hlength, hbytes⟩ := h
  obtain ⟨hremaining', bytes', hresult', hlength', hbytes'⟩ := h'
  refine ⟨by omega, bytes ++ bytes', ?_, ?_, fun k hk => ?_⟩
  · rw [hresult', hresult, List.append_assoc]
  · rw [List.length_append, hlength, hlength']
  · by_cases hfirst : k < n
    · rw [if_pos hfirst, List.getElem?_append_left (by omega), hbytes k hfirst]
    · rw [if_neg hfirst, List.getElem?_append_right (by omega), hlength, hbytes' _ (by omega)]

/-- The bytes of the blocks from `block` on. -/
def runByte (s : Storage) (block k : ℕ) : Option UInt8 :=
  s.blockByte (block + k / blockSize) (k % blockSize)

theorem runByte_succ (s : Storage) (block k : ℕ) : runByte s (block + 1) k = runByte s block (k + blockSize) := by
  unfold runByte
  rw [Nat.add_div_right k (by decide), Nat.add_mod_right]
  congr 1
  omega

/-- One block. -/
theorem advances_of_slice {block : ℕ} {st : ReadState} {s : Storage} {data bytes : List UInt8}
    (hoffset : st.bufOffset < blockSize) (hdata : s.readResult (block * blockSize) blockSize = .ok data)
    (hbytes : sliceOrPanic data st.bufOffset (min (blockSize - st.bufOffset) st.remaining) = .ok bytes) :
    Advances st
      { result := st.result ++ bytes
        remaining := st.remaining - min (blockSize - st.bufOffset) st.remaining
        bufOffset := 0 }
      (min (blockSize - st.bufOffset) st.remaining) (fun k => runByte s block (st.bufOffset + k)) := by
  have hlength := Storage.length_of_readResult hdata
  rw [sliceOrPanic_of_le (by omega)] at hbytes
  obtain rfl := Except.ok.inj hbytes
  refine ⟨by simp only; omega, _, rfl, ?_, fun k hk => ?_⟩
  · rw [length_slice]
    omega
  · have hlow : st.bufOffset + k < blockSize := by omega
    unfold runByte
    rw [getElem?_slice, if_pos hk, Nat.div_eq_of_lt hlow, Nat.mod_eq_of_lt hlow, Nat.add_zero,
      Storage.blockByte_of_readResult hdata]

/-- The blocks of a part are read from the first byte asked for to the last. -/
theorem readRun_ok {block count : ℕ} {st st' : ReadState} {s s' : Storage} (hoffset : st.bufOffset < blockSize)
    (h : readRun block count st s = .ok st' s') :
    s.Later s' ∧ Advances st st' (min st.remaining (count * blockSize - st.bufOffset))
        (fun k => runByte s block (st.bufOffset + k)) ∧
      (0 < st'.remaining → 0 < count ∨ st.bufOffset = 0 → st'.bufOffset = 0) := by
  induction count generalizing block st s with
  | zero =>
      unfold readRun at h
      rw [pure_apply] at h
      injection h with hst hs
      subst hst hs
      refine ⟨Storage.Later.refl s, ?_, fun _ h => h.resolve_left (by omega)⟩
      have hnone : min st.remaining (0 * blockSize - st.bufOffset) = 0 := by omega
      rw [hnone]
      exact Advances.zero st _
  | succ count ih =>
      unfold readRun at h
      by_cases hdone : st.remaining = 0
      · rw [if_pos hdone, pure_apply] at h
        injection h with hst hs
        subst hst hs
        refine ⟨Storage.Later.refl s, ?_, fun hpos => by omega⟩
        rw [hdone, Nat.zero_min]
        exact Advances.zero st _
      · rw [if_neg hdone] at h
        obtain ⟨data, s₁, hread, hrest⟩ := of_bind_ok h
        obtain ⟨bytes, s₂, hslice, hothers⟩ := of_bind_ok hrest
        obtain ⟨hbytes, rfl⟩ := of_returnExcept_ok hslice
        obtain ⟨hlater, hdata⟩ := StorageM.of_readBlock_ok hread
        have hfirst := advances_of_slice hoffset hdata hbytes
        obtain ⟨hlater', hothers, hoffset'⟩ := ih (show 0 < blockSize by decide) hothers
        refine ⟨hlater.trans hlater', ?_, fun hpos _ => hoffset' hpos (.inr rfl)⟩
        have htotal := hfirst.trans hothers
        have hlength : min (blockSize - st.bufOffset) st.remaining +
            min (st.remaining - min (blockSize - st.bufOffset) st.remaining) (count * blockSize - 0) =
              min st.remaining ((count + 1) * blockSize - st.bufOffset) := by
          rw [Nat.succ_mul]
          omega
        rw [← hlength]
        refine htotal.congr fun k hk => ?_
        by_cases hk' : k < min (blockSize - st.bufOffset) st.remaining
        · rw [if_pos hk']
        · have hnext : st.bufOffset + k =
              0 + (k - min (blockSize - st.bufOffset) st.remaining) + blockSize := by
            simp only at hk
            omega
          rw [if_neg hk', hnext, ← runByte_succ]
          unfold runByte
          rw [hlater.blockByte_eq]

/-! ## The scan -/

/-- The extent the walk from `first` is in when it comes to block `first + k`. -/
def scan (xt : Xtree) (first : ℕ) : ℕ → Option Xad
  | 0 => xt.lookup first
  | k + 1 => (xt.scan first k).bind fun xad =>
      if first + (k + 1) < xad.stop then some xad else xt.lookup (first + (k + 1))

/-- The byte `k` bytes behind the start of block `first`, as the walk finds it. -/
def scanByte (xt : Xtree) (s : Storage) (first k : ℕ) : Option UInt8 :=
  match xt.scan first (k / blockSize) with
  | some xad => s.blockByte (xad.address + (first + k / blockSize - xad.offset)) (k % blockSize)
  | none => some 0

theorem lookup_eq_some {xt : Xtree} {block : ℕ} {xad : Xad} (h : xt.lookup block = some xad) :
    xad ∈ xt.slots ∧ xad.offset ≤ block ∧ block < xad.stop := by
  have hholds := List.find?_some h
  simp only [Bool.and_eq_true, decide_eq_true_eq] at hholds
  exact ⟨List.mem_of_find?_eq_some h, hholds⟩

theorem scan_of_lookup_none {xt : Xtree} {first : ℕ} (h : xt.lookup first = none) (k : ℕ) :
    xt.scan first k = none := by
  induction k with
  | zero => exact h
  | succ k ih => rw [scan, ih, Option.bind_none]

section Scan

variable {xt : Xtree} {first : ℕ} {xad : Xad}

theorem scan_within (h : xt.lookup first = some xad) {k : ℕ} (hk : first + k < xad.stop) :
    xt.scan first k = some xad := by
  induction k with
  | zero => exact h
  | succ k ih => rw [scan, ih (by omega), Option.bind_some, if_pos hk]

/-- Behind the end of an extent the walk goes on as if it had started there. -/
theorem scan_add (h : xt.lookup first = some xad) {n : ℕ} (hn : first + n = xad.stop) (k : ℕ) :
    xt.scan first (n + k) = xt.scan (first + n) k := by
  induction k with
  | zero =>
      have hlow := (lookup_eq_some h).2.2
      obtain ⟨m, rfl⟩ : ∃ m, n = m + 1 := ⟨n - 1, by omega⟩
      rw [Nat.add_zero, scan, scan, scan_within (k := m) h (by omega), Option.bind_some,
        if_neg (by omega)]
  | succ k ih =>
      rw [← Nat.add_assoc, scan, ih, scan]
      simp only [Nat.add_assoc]

end Scan

theorem mapBlocksFrom_of_none {xt : Xtree} {current stop : ℕ} (h : xt.lookup current = none) (hlt : current < stop)
    (fuel : ℕ) : xt.mapBlocksFrom stop (fuel + 1) current = [(0, stop - current)] := by
  unfold mapBlocksFrom
  rw [if_neg (Nat.not_le.mpr hlt), h]

theorem mapBlocksFrom_of_some {xt : Xtree} {current stop : ℕ} {xad : Xad} (h : xt.lookup current = some xad)
    (hlt : current < stop) (fuel : ℕ) :
    xt.mapBlocksFrom stop (fuel + 1) current =
      (xad.address + (current - xad.offset), min (xad.length - (current - xad.offset)) (stop - current)) ::
        xt.mapBlocksFrom stop fuel (current + min (xad.length - (current - xad.offset)) (stop - current)) := by
  rw [mapBlocksFrom, if_neg (Nat.not_le.mpr hlt), h]

/-- One block is one part. -/
theorem mapBlocks_one (xt : Xtree) (block : ℕ) : xt.mapBlocks block 1 = [((xt.physical block).getD 0, 1)] := by
  unfold mapBlocks physical
  cases hlookup : xt.lookup block with
  | none =>
      rw [mapBlocksFrom_of_none hlookup (Nat.lt_add_one block), Nat.add_sub_cancel_left, Option.map_none,
        Option.getD_none]
  | some xad =>
      obtain ⟨-, hlow, hhigh⟩ := lookup_eq_some hlookup
      unfold Xad.stop at hhigh
      have htake : min (xad.length - (block - xad.offset)) (block + 1 - block) = 1 := by omega
      rw [mapBlocksFrom_of_some hlookup (Nat.lt_add_one block), htake, Option.map_some, Option.getD_some]
      rfl

/-! ## Reading all parts -/

theorem readRun_done {block count : ℕ} {st : ReadState} (hdone : st.remaining = 0) (s : Storage) :
    readRun block count st s = .ok st s := by
  cases count with
  | zero => rfl
  | succ count =>
      unfold readRun
      rw [if_pos hdone]
      rfl

/-- A hole that is long enough ends the loop. -/
theorem readParts_hole {count : ℕ} {rest : List (ℕ × ℕ)} {st : ReadState}
    (hlong : st.remaining ≤ count * blockSize) (s : Storage) :
    readParts ((0, count) :: rest) st s =
      .ok { result := st.result ++ zeros st.remaining, remaining := 0, bufOffset := 0 } s := by
  unfold readParts
  simp only [if_pos, Nat.min_eq_right hlong, Nat.sub_self]
  rfl

theorem advances_zeros (st : ReadState) {byte : ℕ → Option UInt8} (hbyte : ∀ k < st.remaining, byte k = some 0) :
    Advances st { result := st.result ++ zeros st.remaining, remaining := 0, bufOffset := 0 } st.remaining byte := by
  refine ⟨Nat.zero_add _, _, rfl, length_zeros _, fun k hk => ?_⟩
  unfold zeros
  rw [hbyte k hk, List.getElem?_replicate, if_pos hk]

theorem readParts_done {parts : List (ℕ × ℕ)} {st st' : ReadState} {s s' : Storage}
    (hdone : st.remaining = 0) (h : readParts parts st s = .ok st' s') (byte : ℕ → Option UInt8) :
    s.Later s' ∧ Advances st st' 0 byte := by
  induction parts with
  | nil =>
      unfold readParts at h
      injection h with hst hs
      subst hst hs
      exact ⟨Storage.Later.refl s, Advances.zero st byte⟩
  | cons part rest ih =>
      obtain ⟨block, count⟩ := part
      by_cases hhole : block = 0
      · subst hhole
        rw [readParts_hole (by omega) s] at h
        injection h with hst hs
        subst hst hs
        rw [hdone]
        have hzeros := advances_zeros st (fun k hk => by omega : ∀ k < st.remaining, byte k = some 0)
        rw [hdone] at hzeros
        exact ⟨Storage.Later.refl s, hzeros⟩
      · unfold readParts at h
        rw [if_neg hhole, bind_ok (readRun_done hdone s)] at h
        exact ih h

theorem scanByte_within {xt : Xtree} {first : ℕ} {xad : Xad} (h : xt.lookup first = some xad) (s : Storage)
    {k : ℕ} (hk : first + k / blockSize < xad.stop) :
    xt.scanByte s first k = runByte s (xad.address + (first - xad.offset)) k := by
  have hlow := (lookup_eq_some h).2.1
  have hblock : xad.address + (first + k / blockSize - xad.offset) =
      xad.address + (first - xad.offset) + k / blockSize := by
    rw [Nat.sub_add_comm hlow, Nat.add_assoc]
  unfold scanByte runByte
  simp only [scan_within h hk, hblock]

theorem scanByte_later (xt : Xtree) {s s' : Storage} (h : s.Later s') (first k : ℕ) :
    xt.scanByte s' first k = xt.scanByte s first k := by
  unfold scanByte
  split
  · exact h.blockByte_eq _ _
  · rfl

theorem scanByte_add {xt : Xtree} {first : ℕ} {xad : Xad} (h : xt.lookup first = some xad) (s : Storage)
    {n : ℕ} (hn : first + n = xad.stop) (k : ℕ) :
    xt.scanByte s first (n * blockSize + k) = xt.scanByte s (first + n) k := by
  have hdiv : (n * blockSize + k) / blockSize = n + k / blockSize := by
    rw [Nat.add_comm, Nat.add_mul_div_right k n (by decide), Nat.add_comm]
  have hmod : (n * blockSize + k) % blockSize = k % blockSize := by
    rw [Nat.add_comm, Nat.add_mul_mod_self_right]
  unfold scanByte
  rw [hdiv, hmod, scan_add h hn, ← Nat.add_assoc]

/-- How many blocks of an extent the walk takes. -/
theorem take_bounds {xad : Xad} {current stop : ℕ} (hlow : xad.offset ≤ current) (hhigh : current < xad.stop)
    (hstop : current < stop) :
    0 < min (xad.length - (current - xad.offset)) (stop - current) ∧
      min (xad.length - (current - xad.offset)) (stop - current) ≤ stop - current ∧
      (current + min (xad.length - (current - xad.offset)) (stop - current) ≤ xad.stop ∧
        (min (xad.length - (current - xad.offset)) (stop - current) < stop - current →
          current + min (xad.length - (current - xad.offset)) (stop - current) = xad.stop)) := by
  unfold Xad.stop at *
  omega

/-- **The bytes read are those of the scan.** -/
theorem readParts_ok {xt : Xtree} (hzero : ∀ xad ∈ xt.slots, xad.length ≠ 0 → xad.address ≠ 0) {stop fuel : ℕ} :
    ∀ {current : ℕ} {st st' : ReadState} {s s' : Storage}, stop - current ≤ fuel →
      (0 < st.remaining → st.bufOffset < blockSize) →
      (0 < st.remaining → st.bufOffset + st.remaining ≤ (stop - current) * blockSize) →
      readParts (xt.mapBlocksFrom stop fuel current) st s = .ok st' s' →
      s.Later s' ∧ Advances st st' st.remaining (fun k => xt.scanByte s current (st.bufOffset + k)) := by
  induction fuel with
  | zero =>
      intro current st st' s s' hfuel _ hroom h
      have hdone : st.remaining = 0 := by
        by_contra hpos
        have := hroom (by omega)
        rw [show stop - current = 0 by omega] at this
        omega
      rw [hdone]
      exact readParts_done hdone h _
  | succ fuel ih =>
      intro current st st' s s' hfuel hoffset hroom h
      rcases Nat.eq_zero_or_pos st.remaining with hdone | hpos
      · rw [hdone]
        exact readParts_done hdone h _
      have hoffset := hoffset hpos
      have hroom := hroom hpos
      have hmore : ¬ stop ≤ current := by
        intro hle
        rw [show stop - current = 0 by omega] at hroom
        omega
      unfold mapBlocksFrom at h
      rw [if_neg hmore] at h
      cases hlookup : xt.lookup current with
      | none =>
          simp only [hlookup] at h
          rw [readParts_hole (by omega)] at h
          injection h with hst hs
          subst hst hs
          refine ⟨Storage.Later.refl s, advances_zeros st fun k _ => ?_⟩
          unfold scanByte
          rw [scan_of_lookup_none hlookup]
      | some xad =>
          simp only [hlookup] at h
          obtain ⟨hmem, hlow, hhigh⟩ := lookup_eq_some hlookup
          have hstop : xad.stop = xad.offset + xad.length := rfl
          have haddress := hzero xad hmem (by omega)
          unfold readParts at h
          rw [if_neg (by omega)] at h
          obtain ⟨st₁, s₁, hrun, hrest⟩ := of_bind_ok h
          obtain ⟨hlater, hfirst, hbuf⟩ := readRun_ok hoffset hrun
          obtain ⟨hpositive, htake_le, hend⟩ := take_bounds hlow hhigh (by omega : current < stop)
          generalize min (xad.length - (current - xad.offset)) (stop - current) = take at *
          have hremaining := hfirst.remaining
          clear hstop haddress hlow hhigh hmem
          -- what is left is asked for behind the extent
          have hleft : 0 < st₁.remaining →
              st₁.bufOffset = 0 ∧ st₁.remaining ≤ (stop - (current + take)) * blockSize ∧
                min st.remaining (take * blockSize - st.bufOffset) + st.bufOffset = take * blockSize := by
            intro hpos₁
            rw [← Nat.sub_sub, Nat.sub_mul]
            have htakes : blockSize ≤ take * blockSize := Nat.le_mul_of_pos_left _ (by omega)
            exact ⟨hbuf hpos₁ (.inl (by omega)), by omega, by omega⟩
          obtain ⟨hlater', hothers⟩ := ih (by omega) (fun hpos₁ => by rw [(hleft hpos₁).1]; decide)
            (fun hpos₁ => by rw [(hleft hpos₁).1, Nat.zero_add]; exact (hleft hpos₁).2.1) hrest
          refine ⟨hlater.trans hlater', ?_⟩
          have htotal := hfirst.trans hothers
          rw [Nat.add_comm, hremaining] at htotal
          refine htotal.congr fun k hk => ?_
          by_cases hk' : k < min st.remaining (take * blockSize - st.bufOffset)
          · have hblock : (st.bufOffset + k) / blockSize < take :=
              Nat.div_lt_of_lt_mul (by rw [Nat.mul_comm]; omega)
            rw [if_pos hk', scanByte_within hlookup s (lt_of_lt_of_le (Nat.add_lt_add_left hblock _) hend.1)]
          · obtain ⟨hbuf₁, hroom₁, hwhole⟩ := hleft (by omega)
            have hnext : current + take = xad.stop := by
              refine hend.2 ?_
              by_contra hzero
              rw [show stop - (current + take) = 0 by omega] at hroom₁
              omega
            have hbyte : st.bufOffset + k =
                take * blockSize + (k - min st.remaining (take * blockSize - st.bufOffset)) := by omega
            rw [if_neg hk', hbuf₁, Nat.zero_add, scanByte_later xt hlater, hbyte, scanByte_add hlookup s hnext]

/-- **What `read_data` returns.** -/
theorem readData_eq_scan {xt : Xtree} (hzero : ∀ xad ∈ xt.slots, xad.length ≠ 0 → xad.address ≠ 0)
    {offset length : ℕ} {s s' : Storage} {v : List UInt8} (h : xt.readData offset length s = .ok v s') :
    v.length = length ∧
      ∀ i < length, v[i]? = xt.scanByte s (offset / blockSize) (offset % blockSize + i) := by
  unfold readData mapBlocks at h
  obtain ⟨st, s₁, hread, hrest⟩ := of_bind_ok h
  injection hrest with hv _
  have hcount : offset % blockSize + length ≤
      (offset / blockSize + (length + offset % blockSize + blockSize - 1) / blockSize - offset / blockSize) *
        blockSize := by
    rw [Nat.add_sub_cancel_left]
    unfold blockSize
    omega
  obtain ⟨-, -, bytes, hresult, hlength, hbytes⟩ :=
    readParts_ok hzero (Nat.add_sub_cancel_left ..).le (fun _ => Nat.mod_lt _ (by decide)) (fun _ => hcount) hread
  have hbytes_eq : v = bytes := by
    rw [← hv, hresult, List.nil_append, List.take_of_length_le hlength.le]
  subst hbytes_eq
  exact ⟨hlength, hbytes⟩

/-! ## Agreement with the block map -/

/-- The byte at a position of the file, block by block. -/
def mapByte (xt : Xtree) (s : Storage) (position : ℕ) : Option UInt8 :=
  match xt.physical (position / blockSize) with
  | some address => s.blockByte address (position % blockSize)
  | none => some 0

/-- The bytes are those of the block map. -/
def Agrees (xt : Xtree) (s : Storage) (offset length : ℕ) (v : List UInt8) : Prop :=
  v.length = length ∧ ∀ i < length, v[i]? = xt.mapByte s (offset + i)

/-- Behind a block of the range that is not mapped, the blocks that are mapped hold zeros. -/
def BlankBehindHoles (xt : Xtree) (s : Storage) (offset length : ℕ) : Prop :=
  ∀ i < length, ∀ hole < (offset + i) / blockSize, offset / blockSize ≤ hole → xt.lookup hole = none →
    xt.mapByte s (offset + i) = some 0

/-- Where the walk is in an extent, it finds the byte of the block map. -/
def SameUnderOverlaps (xt : Xtree) (s : Storage) (offset length : ℕ) : Prop :=
  ∀ i < length, ∀ xad,
    xt.scan (offset / blockSize) ((offset + i) / blockSize - offset / blockSize) = some xad →
      s.blockByte (xad.address + ((offset + i) / blockSize - xad.offset)) ((offset + i) % blockSize) =
        xt.mapByte s (offset + i)

/-- The extent of the walk holds the block. -/
theorem scan_holds {xt : Xtree} {first k : ℕ} {xad : Xad} (h : xt.scan first k = some xad) :
    xad ∈ xt.slots ∧ xad.offset ≤ first + k ∧ first + k < xad.stop := by
  induction k generalizing xad with
  | zero => exact lookup_eq_some h
  | succ k ih =>
      rw [scan, Option.bind_eq_some_iff] at h
      obtain ⟨before, hbefore, hnext⟩ := h
      obtain ⟨hmem, hlow, -⟩ := ih hbefore
      split at hnext
      · obtain rfl := Option.some.inj hnext
        exact ⟨hmem, by omega, by assumption⟩
      · exact lookup_eq_some hnext

theorem lookup_ne_none {xt : Xtree} {block : ℕ} {xad : Xad} (hmem : xad ∈ xt.slots)
    (hlow : xad.offset ≤ block) (hhigh : block < xad.stop) : xt.lookup block ≠ none := by
  intro hnone
  have hnot := List.find?_eq_none.mp hnone xad hmem
  simp only [Bool.and_eq_true, decide_eq_true_eq] at hnot
  exact hnot ⟨hlow, hhigh⟩

/-- The walk is in no extent behind the first block that is not mapped. -/
theorem scan_eq_none_iff {xt : Xtree} {first k : ℕ} :
    xt.scan first k = none ↔ ∃ j ≤ k, xt.lookup (first + j) = none := by
  constructor
  · intro h
    induction k with
    | zero => exact ⟨0, le_rfl, h⟩
    | succ k ih =>
        rw [scan, Option.bind_eq_none_iff] at h
        cases hscan : xt.scan first k with
        | none =>
            obtain ⟨j, hj, hnone⟩ := ih hscan
            exact ⟨j, by omega, hnone⟩
        | some xad =>
            have hnext := h xad hscan
            split at hnext
            · cases hnext
            · exact ⟨k + 1, le_rfl, hnext⟩
  · rintro ⟨j, hj, hnone⟩
    have hscan : xt.scan first j = none := by
      cases hscan : xt.scan first j with
      | none => rfl
      | some xad =>
          obtain ⟨hmem, hlow, hhigh⟩ := scan_holds hscan
          exact absurd hnone (lookup_ne_none hmem hlow hhigh)
    obtain ⟨m, rfl⟩ := Nat.exists_eq_add_of_le hj
    induction m with
    | zero => exact hscan
    | succ m ih => rw [← Nat.add_assoc, scan, ih (by omega), Option.bind_none]

theorem scanByte_position (xt : Xtree) (s : Storage) (offset i : ℕ) :
    xt.scanByte s (offset / blockSize) (offset % blockSize + i) =
      match xt.scan (offset / blockSize) ((offset + i) / blockSize - offset / blockSize) with
      | some xad =>
          s.blockByte (xad.address + ((offset + i) / blockSize - xad.offset)) ((offset + i) % blockSize)
      | none => some 0 := by
  have hblock : (offset % blockSize + i) / blockSize = (offset + i) / blockSize - offset / blockSize := by
    unfold blockSize
    omega
  have hbyte : (offset % blockSize + i) % blockSize = (offset + i) % blockSize := by
    rw [Nat.mod_add_mod]
  have hle : offset / blockSize ≤ (offset + i) / blockSize := Nat.div_le_div_right (by omega)
  unfold scanByte
  rw [hblock, hbyte, Nat.add_sub_cancel' hle]

theorem sameUnderOverlaps_of_disjoint {xt : Xtree}
    (hdisj : xt.slots.Pairwise fun xad other => xad.run.Disjoint other.run) (s : Storage) (offset length : ℕ) :
    xt.SameUnderOverlaps s offset length := by
  intro i _ xad hscan
  have hle : offset / blockSize ≤ (offset + i) / blockSize := Nat.div_le_div_right (by omega)
  obtain ⟨hmem, hlow, hhigh⟩ := scan_holds hscan
  rw [Nat.add_sub_cancel' hle] at hlow hhigh
  have hholds : xad.run.Holds ((offset + i) / blockSize) := ⟨hlow, hhigh⟩
  have hphysical : xt.physical ((offset + i) / blockSize) =
      some (xad.address + ((offset + i) / blockSize - xad.offset)) := by
    rw [physical_eq_locate, runs, Runs.locate_of_mem (List.pairwise_map.mpr hdisj) (List.mem_map_of_mem hmem)
      hholds, Run.locate_of_holds hholds]
    rfl
  unfold mapByte
  rw [hphysical]

/-- **Reading agrees with the block map exactly when nothing but zeros lies behind a hole**, and,
where extents overlap, both ways to the byte give the same. -/
theorem readData_agrees_iff (xt : Xtree) (hzero : ∀ xad ∈ xt.slots, xad.length ≠ 0 → xad.address ≠ 0)
    (s s' : Storage) (offset length : ℕ) (v : List UInt8) (h : xt.readData offset length s = .ok v s') :
    (xt.Agrees s offset length v ↔
        xt.BlankBehindHoles s offset length ∧ xt.SameUnderOverlaps s offset length) ∧
      (xt.slots.Pairwise (fun xad other => xad.run.Disjoint other.run) →
        xt.SameUnderOverlaps s offset length) := by
  refine ⟨?_, fun hdisj => sameUnderOverlaps_of_disjoint hdisj s offset length⟩
  obtain ⟨hlength, hbytes⟩ := readData_eq_scan hzero h
  simp only [scanByte_position] at hbytes
  constructor
  · rintro ⟨-, hagrees⟩
    refine ⟨fun i hi hole hbefore hfirst hnone => ?_, fun i hi xad hscan => ?_⟩
    · have hscan : xt.scan (offset / blockSize) ((offset + i) / blockSize - offset / blockSize) = none :=
        scan_eq_none_iff.mpr ⟨hole - offset / blockSize, by omega, by rwa [Nat.add_sub_cancel' hfirst]⟩
      rw [← hagrees i hi, hbytes i hi, hscan]
    · rw [← hagrees i hi, hbytes i hi, hscan]
  · rintro ⟨hblank, hsame⟩
    refine ⟨hlength, fun i hi => ?_⟩
    have hle : offset / blockSize ≤ (offset + i) / blockSize := Nat.div_le_div_right (by omega)
    rw [hbytes i hi]
    cases hscan : xt.scan (offset / blockSize) ((offset + i) / blockSize - offset / blockSize) with
    | some xad => exact hsame i hi xad hscan
    | none =>
        obtain ⟨j, hj, hnone⟩ := scan_eq_none_iff.mp hscan
        rcases Nat.lt_or_ge (offset / blockSize + j) ((offset + i) / blockSize) with hbefore | hlast
        · exact (hblank i hi _ hbefore (by omega) hnone).symm
        · -- the block itself is not mapped
          have hblock : offset / blockSize + j = (offset + i) / blockSize := by omega
          unfold mapByte physical
          rw [← hblock, hnone]
          rfl

/-- A root whose first block is not mapped, and whose second is block 1. -/
def holeFirst : Xtree where
  header := { nextindex := 3 }
  xad := (Vector.replicate xtRootMaxSlot {}).set 2 { off2 := 1, loc := { lenAddr := 1, addr2 := 1 } } entryStart_lt

theorem slots_holeFirst : holeFirst.slots = [{ off2 := 1, loc := { lenAddr := 1, addr2 := 1 } }] := by
  decide

/-- Two bytes on both sides of the end of the hole are read as zeros, from any storage. -/
theorem readData_holeFirst (s : Storage) : holeFirst.readData 4095 2 s = .ok [0, 0] s := by
  have hparts : holeFirst.mapBlocks 0 2 = [(0, 2)] := by decide
  unfold readData
  rw [show (4095 : ℕ) / blockSize = 0 by decide, show (4095 : ℕ) % blockSize = 4095 by decide,
    show (2 + 4095 + blockSize - 1) / blockSize = 2 by decide, hparts]
  rw [bind_ok (readParts_hole (by decide) s)]
  rfl

theorem blockByte_memory {s : Storage} (hbackend : s.backend = .memory) {block j : ℕ}
    (hsize : block * blockSize + blockSize ≤ s.size) (hj : j < blockSize) :
    s.blockByte block j = some (s.data (block * blockSize + j)) := by
  have hread : s.readResult (block * blockSize) blockSize =
      .ok (Memory.read s.data (block * blockSize) blockSize) := by
    unfold Storage.readResult
    rw [hbackend]
    exact if_neg (by omega)
  rw [Storage.blockByte_of_readResult hread, Memory.getElem?_read, if_pos hj]

theorem mapByte_holeFirst (s : Storage) : holeFirst.mapByte s 4096 = s.blockByte 1 0 := by
  unfold mapByte
  rw [show (4096 : ℕ) / blockSize = 1 by decide, show (4096 : ℕ) % blockSize = 0 by decide,
    show holeFirst.physical 1 = some 1 by decide]

theorem readData_agrees_holeFirst :
    holeFirst.readData 4095 2 (Storage.newMemory 2) = .ok [0, 0] (Storage.newMemory 2) ∧
      holeFirst.Agrees (Storage.newMemory 2) 4095 2 [0, 0] := by
  have hread := readData_holeFirst (Storage.newMemory 2)
  have hiff := readData_agrees_iff holeFirst (by rw [slots_holeFirst]; decide) _ _ 4095 2 [0, 0] hread
  refine ⟨hread, hiff.1.mpr ⟨?_, hiff.2 (by rw [slots_holeFirst]; exact List.pairwise_singleton _ _)⟩⟩
  intro i hi hole hbefore _ _
  obtain rfl : i = 1 := by
    by_contra hne
    rw [show i = 0 by omega, show (4095 + 0) / blockSize = 0 by decide] at hbefore
    omega
  rw [show 4095 + 1 = 4096 from rfl, mapByte_holeFirst, blockByte_memory rfl le_rfl (by decide)]
  rfl

/-- Read from a storage full of sevens, the byte behind the hole is still a zero. -/
theorem not_agrees_holeFirst :
    (∀ xad ∈ holeFirst.slots, xad.length ≠ 0 → xad.address ≠ 0) ∧
      holeFirst.readData 4095 2 { Storage.newMemory 2 with data := fun _ => 7 } =
        .ok [0, 0] { Storage.newMemory 2 with data := fun _ => 7 } ∧
      holeFirst.physical 1 = some 1 ∧
      ({ Storage.newMemory 2 with data := fun _ => 7 } : Storage).blockByte 1 0 = some 7 ∧
      ¬ holeFirst.Agrees { Storage.newMemory 2 with data := fun _ => 7 } 4095 2 [0, 0] := by
  have hseven : ({ Storage.newMemory 2 with data := fun _ => 7 } : Storage).blockByte 1 0 = some 7 :=
    blockByte_memory rfl le_rfl (by decide)
  refine ⟨by rw [slots_holeFirst]; decide, readData_holeFirst _, by decide, hseven, ?_⟩
  rintro ⟨-, hagrees⟩
  have hbyte := hagrees 1 (by decide)
  rw [show 4095 + 1 = 4096 from rfl, mapByte_holeFirst, hseven] at hbyte
  exact absurd hbyte (by decide)

end Xtree

end JfsFuse
