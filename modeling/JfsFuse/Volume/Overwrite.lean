import JfsFuse.Btree.XtreeTotal
import JfsFuse.Lib.Windows
import JfsFuse.Volume.OtherNames

/-!
# Writing over a file

A write to blocks that a file has already goes part by part over its extents.  Where no extent overlaps
another, and all blocks of the range are mapped, what the file shows afterwards is the old content with a
first part of the data in its range; it is all of the data when the call returns, and the call then says so.
-/

namespace JfsFuse

open ByteBuf Program

/-- A write that fails changes no byte. -/
theorem StorageM.of_writeBlock_error {b : ℕ} {data : List UInt8} {s s' : Storage} {e : StorageError}
    (h : writeBlock b data s = .error e s') : s'.data = s.data := by
  have hattempt : (final (attempt s)).data = s.data := by
    unfold attempt
    split <;> rfl
  unfold writeBlock at h
  cases hfirst : attempt s with
  | error e₁ s₁ =>
      rw [bind_error hfirst] at h
      rw [hfirst] at hattempt
      cases h
      exact hattempt
  | ok _ s₁ =>
      rw [bind_ok hfirst, bind_ok (get_apply s₁)] at h
      rw [hfirst] at hattempt
      cases hrefused : s₁.writeBlockRefused b data with
      | none =>
          rw [hrefused] at h
          cases h
      | some e₂ =>
          rw [hrefused] at h
          cases h
          exact hattempt

theorem StorageM.data_final_readBlock (b : ℕ) (s : Storage) : (final (readBlock b s)).data = s.data := by
  obtain ⟨faults, hfinal⟩ := final_readBytes (b * blockSize) blockSize s
  unfold readBlock
  rw [hfinal]

namespace Volume

/-! ## The loop over blocks -/

/-- Only the device has changed; what `view` shows of it has a first part of the bytes at `pos`. -/
def Wrote (view : (ℕ → UInt8) → ℕ → UInt8) (done : Prop) (v w : Volume) (pos : ℕ) (bytes : List UInt8) : Prop :=
  (∃ storage, w = { v with storage }) ∧ Memory.Overwrote done (view v.storage.data) pos bytes (view w.storage.data)

/-- Only the device has changed, and none of its bytes. -/
def SameBytes (v w : Volume) : Prop :=
  ∃ storage, w = { v with storage } ∧ storage.data = v.storage.data

theorem SameBytes.wrote {v w : Volume} (h : SameBytes v w) (view : (ℕ → UInt8) → ℕ → UInt8) (pos : ℕ)
    (bytes : List UInt8) : Wrote view False v w pos bytes := by
  obtain ⟨storage, rfl, hdata⟩ := h
  refine ⟨⟨storage, rfl⟩, ?_⟩
  rw [hdata]
  exact Memory.Overwrote.nothing not_false _ pos bytes

theorem sameBytes_checkToken (token : List Bool) (v : Volume) : SameBytes v (final (checkToken token v)) := by
  unfold checkToken
  split <;> exact ⟨v.storage, rfl, rfl⟩

/-- A block that was read holds what was read. -/
theorem of_readBlock_ok {block : ℕ} {v w : Volume} {data : List UInt8}
    (h : onStorage (StorageM.readBlock block) v = .ok data w) : data = v.storage.block block := by
  obtain ⟨_, hrun, -⟩ := of_zoom_ok h
  exact (StorageM.of_readBlock hrun).1

theorem sameBytes_readBlock (block : ℕ) (v : Volume) :
    SameBytes v (final (onStorage (StorageM.readBlock block) v)) := by
  unfold onStorage
  rw [final_zoom]
  exact ⟨_, rfl, StorageM.data_final_readBlock block v.storage⟩

/-- The state of a write after `n` more bytes. -/
structure Progress (s s' : WriteState) (n : ℕ) : Prop where
  xtree : s'.xtree = s.xtree
  modified : s'.modified = s.modified
  written : s'.written = s.written + n
  dataPos : s'.dataPos = s.dataPos + n
  remaining : s'.remaining + n = s.remaining
  byteOffset : 0 < s'.remaining → s'.byteOffset = if n = 0 then s.byteOffset else 0

theorem Progress.trans {s s' s'' : WriteState} {n m : ℕ} (h : Progress s s' n) (h' : Progress s' s'' m) :
    Progress s s'' (n + m) where
  xtree := h'.xtree.trans h.xtree
  modified := h'.modified.trans h.modified
  written := by rw [h'.written, h.written, Nat.add_assoc]
  dataPos := by rw [h'.dataPos, h.dataPos, Nat.add_assoc]
  remaining := by rw [← h.remaining, ← h'.remaining, Nat.add_assoc, Nat.add_comm n m]
  byteOffset hmore := by
    have hmid : 0 < s'.remaining := by
      have hleft := h'.remaining
      omega
    rw [h'.byteOffset hmore, h.byteOffset hmid]
    split_ifs <;> first | rfl | omega

/-- How a loop of a write ends that has `n` bytes to write at `pos`. -/
def MovesOn (view : (ℕ → UInt8) → ℕ → UInt8) (data : List UInt8) (v : Volume) (s : WriteState) (pos n : ℕ) :
    EStateM.Result StorageError Volume WriteState → Prop
  | .ok s' w => Wrote view True v w pos (slice data s.dataPos n) ∧ Progress s s' n
  | .error _ w => Wrote view False v w pos (slice data s.dataPos n)

section MovesOn

variable {view : (ℕ → UInt8) → ℕ → UInt8} {data : List UInt8} {v w : Volume} {s s' : WriteState} {pos n m : ℕ}

theorem movesOn_nothing (hn : n = 0) (hprogress : Progress s s' 0) (pos : ℕ) :
    MovesOn view data v s pos n (.ok s' v) := by
  subst hn
  refine ⟨⟨⟨v.storage, rfl⟩, Memory.Overwrote.whole ?_⟩, hprogress⟩
  rw [slice, List.take_zero, Memory.write_nil]

/-- A step that changes no byte comes first. -/
theorem movesOn_bind_same {α : Type} {x : VolM α} {f : α → VolM WriteState} (hx : SameBytes v (final (x v)))
    (hf : ∀ a storage, storage.data = v.storage.data → x v = .ok a { v with storage } →
      MovesOn view data { v with storage } s pos n (f a { v with storage })) :
    MovesOn view data v s pos n ((x >>= f) v) := by
  obtain ⟨storage, hfinal, hdata⟩ := hx
  cases hrun : x v with
  | error e w =>
      rw [hrun, final_error] at hfinal
      rw [bind_error hrun]
      exact SameBytes.wrote ⟨storage, hfinal, hdata⟩ view _ _
  | ok a w =>
      rw [hrun, final_ok] at hfinal
      subst hfinal
      rw [bind_ok hrun]
      have hrest := hf a storage hdata hrun
      unfold MovesOn Wrote at hrest ⊢
      rw [← hdata]
      cases hend : f a { v with storage } with
      | error e w =>
          rw [hend] at hrest
          obtain ⟨⟨storage', rfl⟩, hover⟩ := hrest
          exact ⟨⟨storage', rfl⟩, hover⟩
      | ok s' w =>
          rw [hend] at hrest
          obtain ⟨⟨⟨storage', rfl⟩, hover⟩, hprogress⟩ := hrest
          exact ⟨⟨⟨storage', rfl⟩, hover⟩, hprogress⟩

/-- What is left of a loop, behind a part that is done. -/
theorem MovesOn.after (hpos : s.dataPos + n ≤ data.length) (hfirst : Wrote view True v w pos (slice data s.dataPos n))
    (hprogress : Progress s s' n) {pos' : ℕ} (hnext : 0 < m → pos' = pos + n)
    {result : EStateM.Result StorageError Volume WriteState} (hrest : MovesOn view data w s' pos' m result) :
    MovesOn view data v s pos (n + m) result := by
  obtain ⟨⟨storage, rfl⟩, hwhole⟩ := hfirst
  have hfirst := hwhole.eq_write trivial
  have hlen : (slice data s.dataPos n).length = n := length_slice_of_le hpos
  have hrest_at : ∀ {done : Prop} {m' : ℕ → UInt8},
      Memory.Overwrote done (view storage.data) pos' (slice data s'.dataPos m) m' →
        Memory.Overwrote done (view v.storage.data) pos (slice data s.dataPos (n + m)) m' := by
    intro done m' hover
    rw [← slice_append_slice, ← hprogress.dataPos]
    refine Memory.Overwrote.append hfirst ?_
    rw [hlen]
    rcases Nat.eq_zero_or_pos m with rfl | hm
    · obtain ⟨k, hk, hall, rfl⟩ := hover
      have hnil : slice data s'.dataPos 0 = [] := List.take_zero
      rw [hnil] at hk hall ⊢
      exact ⟨k, hk, hall, by rw [List.take_nil, Memory.write_nil, Memory.write_nil]⟩
    · rwa [← hnext hm]
  cases result with
  | ok s'' w' =>
      obtain ⟨⟨⟨storage', rfl⟩, hover⟩, hprogress'⟩ := hrest
      exact ⟨⟨⟨storage', rfl⟩, hrest_at hover⟩, hprogress.trans hprogress'⟩
  | error e w' =>
      obtain ⟨⟨storage', rfl⟩, hover⟩ := hrest
      exact ⟨⟨storage', rfl⟩, hrest_at hover⟩

/-- **The rule of loops**: a part is followed by the rest. -/
theorem MovesOn.bind (hpos : s.dataPos + n ≤ data.length) {total : ℕ} (htotal : total = n + m) {x : VolM WriteState}
    {f : WriteState → VolM WriteState} (hx : MovesOn view data v s pos n (x v))
    (hf : ∀ s' w, Progress s s' n → ∃ pos', (0 < m → pos' = pos + n) ∧ MovesOn view data w s' pos' m (f s' w)) :
    MovesOn view data v s pos total ((x >>= f) v) := by
  subst htotal
  cases hrun : x v with
  | error e w =>
      rw [hrun] at hx
      rw [bind_error hrun]
      obtain ⟨hstorage, hover⟩ := hx
      refine ⟨hstorage, ?_⟩
      rw [← slice_append_slice]
      exact hover.left _
  | ok s' w =>
      rw [hrun] at hx
      rw [bind_ok hrun]
      obtain ⟨pos', hnext, hrest⟩ := hf s' w hx.2
      exact hrest.after hpos hx.1 hx.2 hnext

/-- The next piece is written into a block of the device. -/
theorem movesOn_writeBlock {block off : ℕ} {bytes : List UInt8} (hbytes : bytes = slice data s.dataPos n)
    (hpos : s.dataPos + n ≤ data.length) (hfits : off + n ≤ blockSize) (hprogress : Progress s s' n) {pos' : ℕ}
    (hnext : 0 < m → pos' = block * blockSize + off + n) {f : VolM WriteState}
    (hrest : ∀ w, MovesOn id data w s' pos' m (f w)) :
    MovesOn id data v s (block * blockSize + off) (n + m) ((do
      onStorage (StorageM.writeBlock block (splice (v.storage.block block) off bytes))
      f) v) := by
  subst hbytes
  have hlen : (slice data s.dataPos n).length = n := length_slice_of_le hpos
  cases hwrite : StorageM.writeBlock block (splice (v.storage.block block) off (slice data s.dataPos n)) v.storage with
  | error e storage =>
      have hrun : onStorage (StorageM.writeBlock block (splice (v.storage.block block) off (slice data s.dataPos n))) v =
          .error e { v with storage } := zoom_error hwrite
      rw [bind_error hrun]
      exact SameBytes.wrote ⟨storage, rfl, StorageM.of_writeBlock_error hwrite⟩ id _ _
  | ok _ storage =>
      have hrun : onStorage (StorageM.writeBlock block (splice (v.storage.block block) off (slice data s.dataPos n))) v =
          .ok () { v with storage } := zoom_ok hwrite
      rw [bind_ok hrun]
      refine (hrest _).after hpos ⟨⟨storage, rfl⟩, Memory.Overwrote.whole ?_⟩ hprogress hnext
      show storage.data = _
      rw [(StorageM.of_writeBlock hwrite).1]
      exact Memory.write_splice_read _ (by rw [hlen]; exact hfits)

/-- The answers of the interrupt token do not matter here. -/
theorem MovesOn.of_token {token : List Bool} {result : EStateM.Result StorageError Volume WriteState}
    (h : MovesOn view data v { s with token } pos n result) : MovesOn view data v s pos n result := by
  cases result with
  | error e w => exact h
  | ok s' w =>
      obtain ⟨hwrote, hprogress⟩ := h
      exact ⟨hwrote, hprogress.xtree, hprogress.modified, hprogress.written, hprogress.dataPos, hprogress.remaining,
        hprogress.byteOffset⟩

/-- A loop that writes a range of the device, seen through a window. -/
theorem MovesOn.seen {place : ℕ → Option ℕ} {p : ℕ} {result : EStateM.Result StorageError Volume WriteState}
    (h : MovesOn id data v s pos n result) (hinj : ∀ i j a, place i = some a → place j = some a → i = j)
    (hplace : ∀ k < n, place (p + k) = some (pos + k)) : MovesOn (Memory.seen place 0) data v s p n result := by
  have hat : ∀ k < (slice data s.dataPos n).length, place (p + k) = some (pos + k) := by
    intro k hk
    rw [length_slice] at hk
    exact hplace k (by omega)
  cases result with
  | ok s' w =>
      obtain ⟨⟨hstorage, hover⟩, hprogress⟩ := h
      exact ⟨⟨hstorage, hover.seen hinj hat⟩, hprogress⟩
  | error e w =>
      obtain ⟨hstorage, hover⟩ := h
      exact ⟨hstorage, hover.seen hinj hat⟩

end MovesOn

/-- **The loop over mapped blocks** writes the next bytes of the data behind one another. -/
theorem writeBlocks_movesOn {data : List UInt8} {block count : ℕ} {s : WriteState} (v : Volume)
    (hoffset : s.byteOffset < blockSize) (hleft : s.dataPos + s.remaining ≤ data.length) :
    MovesOn id data v s (block * blockSize + s.byteOffset) (min s.remaining (count * blockSize - s.byteOffset))
      (writeBlocks data block count s v) := by
  induction count generalizing block s v with
  | zero => exact movesOn_nothing (by omega) ⟨rfl, rfl, rfl, rfl, rfl, fun _ => (if_pos rfl).symm⟩ _
  | succ count ih =>
      unfold writeBlocks
      refine movesOn_bind_same (sameBytes_checkToken s.token v) fun token storage _ _ => ?_
      split
      · next hdone =>
          have hnone : min s.remaining ((count + 1) * blockSize - s.byteOffset) = 0 := by omega
          have hprogress : Progress s { s with token } 0 :=
            ⟨rfl, rfl, rfl, rfl, rfl, fun hmore => absurd hdone (Nat.pos_iff_ne_zero.mp hmore)⟩
          exact movesOn_nothing hnone hprogress _
      · next hmore =>
          refine movesOn_bind_same (sameBytes_readBlock block _) fun blockData storage' hdata hread => ?_
          -- the piece of this block
          obtain ⟨n, hn⟩ : ∃ n, min (blockSize - s.byteOffset) s.remaining = n := ⟨_, rfl⟩
          simp only [hn]
          rw [of_readBlock_ok hread, ← Storage.block_of_data hdata, sliceOrPanic_of_le (by omega),
            bind_ok (returnExcept_ok _ _)]
          have htotal : min s.remaining ((count + 1) * blockSize - s.byteOffset) =
              n + min (s.remaining - n) (count * blockSize - 0) := by
            rw [Nat.succ_mul]
            omega
          rw [htotal]
          refine movesOn_writeBlock rfl (by omega) (by omega) ?_ (fun hrest => ?_) fun w =>
            ih w (show 0 < blockSize by decide) (by simp only; omega)
          · refine ⟨rfl, rfl, rfl, rfl, Nat.sub_add_cancel (by omega), fun _ => (if_neg ?_).symm⟩
            omega
          · simp only
            rw [Nat.succ_mul]
            omega

end Volume

/-! ## The loop over extents -/

namespace Xtree

/-- The address on the device of a position of the file. -/
def place (xt : Xtree) (i : ℕ) : Option ℕ :=
  (xt.physical (i / blockSize)).map fun a => a * blockSize + i % blockSize

/-- The bytes of a file are the device behind a window. -/
theorem byteAt_eq_seen (xt : Xtree) (s : Storage) : xt.byteAt s = Memory.seen xt.place 0 s.data := by
  funext i
  have hmod : i % blockSize < blockSize := Nat.mod_lt _ (by decide)
  unfold byteAt Memory.seen place Storage.block
  cases xt.physical (i / blockSize) with
  | none => rw [Option.map_none, Option.map_none, Option.map_none]
  | some a => rw [Option.map_some, Option.map_some, Option.map_some, Memory.getD_read _ _ hmod]

theorem place_of_physical {xt : Xtree} {block a : ℕ} (h : xt.physical block = some a) {k : ℕ} (hk : k < blockSize) :
    xt.place (block * blockSize + k) = some (a * blockSize + k) := by
  have hdiv : (block * blockSize + k) / blockSize = block := by
    rw [Nat.mul_comm, Nat.mul_add_div (by decide), Nat.div_eq_of_lt hk, Nat.add_zero]
  have hmod : (block * blockSize + k) % blockSize = k := by
    rw [Nat.mul_comm, Nat.mul_add_mod, Nat.mod_eq_of_lt hk]
  rw [place, hdiv, hmod, h, Option.map_some]

/-- The bytes of blocks that follow one another. -/
theorem place_of_run {xt : Xtree} {block a n : ℕ} (h : ∀ k < n, xt.physical (block + k) = some (a + k)) {k : ℕ}
    (hk : k < n * blockSize) : xt.place (block * blockSize + k) = some (a * blockSize + k) := by
  have hblock : k / blockSize < n := Nat.div_lt_of_lt_mul (by rwa [Nat.mul_comm])
  have hbyte := place_of_physical (h _ hblock) (Nat.mod_lt k (by decide))
  have hsplit : ∀ m, (m + k / blockSize) * blockSize + k % blockSize = m * blockSize + k := by
    intro m
    rw [Nat.add_mul, Nat.add_assoc, Nat.mul_comm (k / blockSize), Nat.div_add_mod]
  rwa [hsplit, hsplit] at hbyte

/-- A window that shows no block twice shows no byte twice. -/
theorem place_injective {xt : Xtree}
    (h : ∀ block block' a, xt.physical block = some a → xt.physical block' = some a → block = block') :
    ∀ i j a, xt.place i = some a → xt.place j = some a → i = j := by
  intro i j a hi hj
  obtain ⟨p, hp, rfl⟩ := Option.map_eq_some_iff.mp hi
  obtain ⟨q, hq, hsame⟩ := Option.map_eq_some_iff.mp hj
  have himod : i % blockSize < blockSize := Nat.mod_lt _ (by decide)
  have hjmod : j % blockSize < blockSize := Nat.mod_lt _ (by decide)
  have hblock := congrArg (· / blockSize) hsame
  have hbyte := congrArg (· % blockSize) hsame
  simp only [Nat.mul_comm _ blockSize, Nat.mul_add_mod, Nat.mul_add_div (show 0 < blockSize by decide),
    Nat.div_eq_of_lt himod, Nat.div_eq_of_lt hjmod, Nat.mod_mod, Nat.add_zero] at hblock hbyte
  subst hblock
  have hdiv := h _ _ _ hq hp
  rw [← Nat.div_add_mod i blockSize, ← Nat.div_add_mod j blockSize, hdiv, hbyte]

/-- No extent overlaps another, no two blocks of the file have one place, and none is at block 0. -/
structure OneToOne (xt : Xtree) : Prop where
  disjoint : xt.runs.Pairwise Run.Disjoint
  injective : ∀ block block' a, xt.physical block = some a → xt.physical block' = some a → block = block'
  nonzero : ∀ block, xt.physical block ≠ some 0

/-- Where no two extents overlap, an extent decides about all its blocks. -/
theorem OneToOne.physical_of_mem {xt : Xtree} (h : xt.OneToOne) {xad : Xad} (hmem : xad ∈ xt.slots) {block : ℕ}
    (hlow : xad.offset ≤ block) (hhigh : block < xad.stop) :
    xt.physical block = some (xad.address + (block - xad.offset)) := by
  have hholds : xad.run.Holds block := ⟨hlow, hhigh⟩
  rw [physical_eq_locate, Runs.locate_of_mem h.disjoint (List.mem_map_of_mem hmem) hholds]
  exact Run.locate_of_holds hholds

end Xtree

namespace Volume

theorem writeMapped_movesOn {data : List UInt8} {block count : ℕ} {s : WriteState} (v : Volume)
    (hoffset : s.byteOffset < blockSize) (hleft : s.dataPos + s.remaining ≤ data.length) :
    MovesOn id data v s (block * blockSize + s.byteOffset) (min s.remaining (count * blockSize - s.byteOffset))
      (writeMapped data block count s v) := by
  have hloop := @writeBlocks_movesOn data block count s v hoffset hleft
  unfold writeMapped
  cases hrun : writeBlocks data block count s v with
  | error e w =>
      rw [hrun] at hloop
      rw [bind_error hrun]
      exact hloop
  | ok s' w =>
      rw [hrun] at hloop
      rw [bind_ok hrun]
      obtain ⟨hwrote, hprogress⟩ := hloop
      exact ⟨hwrote, hprogress.xtree, hprogress.modified, hprogress.written, hprogress.dataPos, hprogress.remaining,
        hprogress.byteOffset⟩

/-- **The loop over the parts of a write**, where all blocks of the range are mapped: it writes as much as there is
room for. -/
theorem writeParts_movesOn {xt : Xtree} (h : xt.OneToOne) {data : List UInt8} {stop fuel current : ℕ} {s : WriteState}
    (v : Volume) (hfuel : stop - current ≤ fuel) (hoffset : 0 < s.remaining → s.byteOffset < blockSize)
    (hleft : s.dataPos + s.remaining ≤ data.length)
    (hmapped : ∀ block, current ≤ block → block < stop → xt.physical block ≠ none) :
    MovesOn (Memory.seen xt.place 0) data v s (current * blockSize + s.byteOffset)
      (min s.remaining ((stop - current) * blockSize - s.byteOffset))
      (writeParts data (xt.mapBlocksFrom stop fuel current) s v) := by
  have hnone : stop ≤ current → min s.remaining ((stop - current) * blockSize - s.byteOffset) = 0 := by
    intro hend
    rw [Nat.sub_eq_zero_of_le hend, Nat.zero_mul, Nat.zero_sub, Nat.min_zero]
  induction fuel generalizing current s v with
  | zero => exact movesOn_nothing (hnone (by omega)) ⟨rfl, rfl, rfl, rfl, rfl, fun _ => (if_pos rfl).symm⟩ _
  | succ fuel ih =>
      rw [Xtree.mapBlocksFrom]
      split
      · next hend => exact movesOn_nothing (hnone hend) ⟨rfl, rfl, rfl, rfl, rfl, fun _ => (if_pos rfl).symm⟩ _
      · next hlt =>
          cases hlookup : xt.lookup current with
          | none =>
              have hnowhere := hmapped current le_rfl (Nat.lt_of_not_le hlt)
              unfold Xtree.physical at hnowhere
              rw [hlookup] at hnowhere
              exact (hnowhere rfl).elim
          | some xad =>
              obtain ⟨hmem, hlow, hhigh⟩ := Xtree.lookup_eq_some hlookup
              obtain ⟨hpositive, htake_le, hstop, hwhole⟩ := Xtree.take_bounds hlow hhigh (Nat.lt_of_not_le hlt)
              simp only
              generalize min (xad.length - (current - xad.offset)) (stop - current) = take at *
              have hat : ∀ k < take, xt.physical (current + k) = some (xad.address + (current - xad.offset) + k) := by
                intro k hk
                rw [h.physical_of_mem hmem (by omega) (by omega)]
                exact congrArg some (by omega)
              have haddr : xad.address + (current - xad.offset) ≠ 0 := by
                intro hnull
                have hfirst := hat 0 hpositive
                rw [hnull] at hfirst
                exact h.nonzero _ hfirst
              generalize xad.address + (current - xad.offset) = addr at *
              unfold writeParts
              refine movesOn_bind_same (sameBytes_checkToken s.token v) fun token storage _ _ => ?_
              split
              · next hdone =>
                  have hprogress : Progress s { s with token } 0 :=
                    ⟨rfl, rfl, rfl, rfl, rfl, fun hmore => absurd hdone (Nat.pos_iff_ne_zero.mp hmore)⟩
                  exact movesOn_nothing (by rw [hdone, Nat.zero_min]) hprogress _
              · next hmore =>
                  have hbyte := hoffset (Nat.pos_of_ne_zero hmore)
                  have htakes : blockSize ≤ take * blockSize := Nat.le_mul_of_pos_left _ hpositive
                  have hrest : (stop - current) * blockSize = take * blockSize + (stop - (current + take)) * blockSize := by
                    rw [← Nat.add_mul]
                    congr 1
                    omega
                  -- the part of this extent, and what is left behind it
                  have hsplit : min s.remaining ((stop - current) * blockSize - s.byteOffset) =
                      min s.remaining (take * blockSize - s.byteOffset) +
                        min (s.remaining - min s.remaining (take * blockSize - s.byteOffset))
                          ((stop - (current + take)) * blockSize) := by
                    rw [hrest]
                    omega
                  refine MovesOn.bind (by omega) hsplit ?_ fun s' w hprogress => ?_
                  · have hrange : ∀ k < min s.remaining (take * blockSize - s.byteOffset),
                        xt.place (current * blockSize + s.byteOffset + k) = some (addr * blockSize + s.byteOffset + k) := by
                      intro k hk
                      rw [Nat.add_assoc, Nat.add_assoc]
                      exact Xtree.place_of_run hat (by omega)
                    unfold writePart
                    rw [if_neg haddr]
                    have hblocks := @writeMapped_movesOn data addr take { s with token } { v with storage } hbyte hleft
                    exact (hblocks.seen (Xtree.place_injective h.injective) hrange).of_token
                  · have hleft' := hprogress.remaining
                    have hpos' := hprogress.dataPos
                    have hclear : 0 < s'.remaining → s'.byteOffset = 0 := fun hpos => by
                      rw [hprogress.byteOffset hpos, if_neg (by omega)]
                    have hloop := @ih (current + take) s' w (by omega)
                      (fun hpos => by rw [hclear hpos]; decide) (by omega)
                      (fun block hlow' hhigh' => hmapped block (by omega) hhigh')
                      fun hend => by rw [Nat.sub_eq_zero_of_le hend, Nat.zero_mul, Nat.zero_sub, Nat.min_zero]
                    refine ⟨(current + take) * blockSize + s'.byteOffset, fun hpos => ?_, ?_⟩
                    · rw [hclear (by omega), Nat.add_mul]
                      omega
                    · have hsame : min (s.remaining - min s.remaining (take * blockSize - s.byteOffset))
                          ((stop - (current + take)) * blockSize) =
                            min s'.remaining ((stop - (current + take)) * blockSize - s'.byteOffset) := by
                        rcases Nat.eq_zero_or_pos s'.remaining with hdone | hpos
                        · rw [hdone, Nat.zero_min]
                          omega
                        · rw [hclear hpos, Nat.sub_zero]
                          omega
                      rw [hsame]
                      exact hloop

end Volume

end JfsFuse
