import JfsFuse.Fuse.Interruptible
import JfsFuse.Fuse.XattrNames
import JfsFuse.Volume.Preallocated

/-!
# Copying a range

`copy_file_range` goes over the range in chunks.  With `FUSE_COPY_FILE_RANGE_MOVE` it first tries to move the
extents of a chunk; without, or where that fails, it reads the chunk and writes it to the destination.  A
write that fails counts as nothing copied and ends the loop, although it may have stored a part of its chunk.

Between two files whose blocks are there the destination ends with a first part of the source in its range,
at least as long as the number that is returned.  Within one file this is so when the ranges lie apart, when
the destination lies in front, or when a single chunk does it.
-/

namespace JfsFuse

open ByteBuf Program

namespace FuseFs

/-- `CHUNK_SIZE`. -/
def copyChunkSize : ℕ := 65536

/-- A call of the volume whose error is dropped. -/
def attempt {α : Type} (x : VolM α) : FuseM (Option α) := fun fs =>
  match x fs.volume with
  | .ok a volume => .ok (some a) { fs with volume }
  | .error _ volume => .ok none { fs with volume }

/-- Read a chunk and write it; a write that fails has written nothing. -/
def copyByReading (srcIno : UInt32) (curSrc : ℕ) (dstIno : UInt32) (curDst chunk : ℕ) : FuseM ℕ := do
  match ← read srcIno curSrc chunk with
  | none => throw Errno.eio
  | some data => return (← write dstIno curDst data).getD 0

/-- Copy one chunk.  What was moved by reading and writing is punched out of the source. -/
def copyChunk (isMove : Bool) (srcIno : UInt32) (curSrc : ℕ) (dstIno : UInt32) (curDst chunk : ℕ) : FuseM ℕ := do
  if isMove && srcIno != dstIno then
    match ← attempt (Volume.copyFileRangeExtent srcIno curSrc dstIno curDst chunk) with
    | some (some n) => return n
    | _ =>
        let written ← copyByReading srcIno curSrc dstIno curDst chunk
        if 0 < written then
          -- `FALLOC_FL_PUNCH_HOLE | FALLOC_FL_KEEP_SIZE`
          let _ ← attempt (Volume.fallocate srcIno curSrc written 3)
        return written
  else copyByReading srcIno curSrc dstIno curDst chunk

/-- The loop of `copy_file_range`.  Each step but the last copies a byte at least, so `len` steps are enough. -/
def copyChunks (isMove : Bool) (srcIno dstIno : UInt32) (len : ℕ) : ℕ → ℕ → ℕ → ℕ → FuseM ℕ
  | 0, totalCopied, _, _ => return totalCopied
  | fuel + 1, totalCopied, curSrc, curDst =>
      if len ≤ totalCopied then return totalCopied
      else do
        let copied ← copyChunk isMove srcIno curSrc dstIno curDst (min (len - totalCopied) copyChunkSize)
        if copied = 0 then return totalCopied
        else copyChunks isMove srcIno dstIno len fuel (totalCopied + copied) (addU64 curSrc copied) (addU64 curDst copied)

/-- `copy_file_range`; bit 0 of the flags is `FUSE_COPY_FILE_RANGE_MOVE`. -/
def copyFileRange (srcIno : UInt32) (srcOffset : ℕ) (dstIno : UInt32) (dstOffset len flags : ℕ) : FuseM ℕ :=
  whenWritable do
    if srcIno = dstIno ∧ srcOffset = dstOffset then throw Errno.einval
    else
      let totalCopied ← copyChunks (flags.testBit 0) srcIno dstIno len len 0 srcOffset dstOffset
      if totalCopied = 0 then throw Errno.eio else return totalCopied

/-! ## The loop -/

section Loop

variable {srcIno dstIno : UInt32} {srcOffset dstOffset len limit : ℕ} {I J : ℕ → FuseFs → Prop}

/-- One chunk is copied behind the `t` bytes that are there.  Afterwards the first `k` bytes are there; these are
those that were counted if the loop goes on. -/
def Copies (I J : ℕ → FuseFs → Prop) (limit t : ℕ) (result : EStateM.Result ℤ FuseFs ℕ) : Prop :=
  ∃ k ≤ limit, t ≤ k ∧ J k (final result) ∧
    ∀ copied fs, result = .ok copied fs → copied = 0 ∨ t + copied = k ∧ I k fs

/-- **The rule of the loop**: what is there at its end is at least what it says. -/
theorem copyChunks_run {isMove : Bool} (hsrc : srcOffset + limit < 2 ^ 64) (hdst : dstOffset + limit < 2 ^ 64)
    (hIJ : ∀ t fs, I t fs → J t fs)
    (hchunk : ∀ t fs, t < len → t ≤ limit → I t fs → Copies I J limit t
      (copyChunk isMove srcIno (srcOffset + t) dstIno (dstOffset + t) (min (len - t) copyChunkSize) fs))
    {fuel t : ℕ} {fs : FuseFs} (ht : t ≤ limit) (h : I t fs) :
    ∃ k ≤ limit, J k (final (copyChunks isMove srcIno dstIno len fuel t (srcOffset + t) (dstOffset + t) fs)) ∧
      ∀ n fs', copyChunks isMove srcIno dstIno len fuel t (srcOffset + t) (dstOffset + t) fs = .ok n fs' →
        n ≤ k ∧ t ≤ n := by
  induction fuel generalizing t fs with
  | zero =>
      refine ⟨t, ht, hIJ t fs h, fun n fs' hrun => ?_⟩
      cases hrun
      exact ⟨le_rfl, le_rfl⟩
  | succ fuel ih =>
      unfold copyChunks
      by_cases hdone : len ≤ t
      · rw [if_pos hdone]
        refine ⟨t, ht, hIJ t fs h, fun n fs' hrun => ?_⟩
        cases hrun
        exact ⟨le_rfl, le_rfl⟩
      · rw [if_neg hdone]
        obtain ⟨k, hk, htk, hend, hcopied⟩ := hchunk t fs (Nat.lt_of_not_le hdone) ht h
        cases hrun : copyChunk isMove srcIno (srcOffset + t) dstIno (dstOffset + t) (min (len - t) copyChunkSize) fs with
        | error e fs₁ =>
            rw [hrun] at hend
            rw [bind_error hrun]
            exact ⟨k, hk, hend, fun n fs' hrun => by cases hrun⟩
        | ok copied fs₁ =>
            rw [hrun, final_ok] at hend
            rw [bind_ok hrun]
            by_cases hnone : copied = 0
            · rw [if_pos hnone]
              refine ⟨k, hk, hend, fun n fs' hrun => ?_⟩
              cases hrun
              exact ⟨htk, le_rfl⟩
            · rw [if_neg hnone]
              obtain ⟨hsum, hnext⟩ := (hcopied copied fs₁ hrun).resolve_left hnone
              have hsrc' : addU64 (srcOffset + t) copied = srcOffset + (t + copied) := by
                unfold addU64
                rw [Nat.mod_eq_of_lt (by omega), Nat.add_assoc]
              have hdst' : addU64 (dstOffset + t) copied = dstOffset + (t + copied) := by
                unfold addU64
                rw [Nat.mod_eq_of_lt (by omega), Nat.add_assoc]
              rw [hsrc', hdst', hsum]
              obtain ⟨k', hk', hend', hn⟩ := ih hk hnext
              exact ⟨k', hk', hend', fun n fs' hrun => ⟨(hn n fs' hrun).1, htk.trans (hn n fs' hrun).2⟩⟩

end Loop

/-! ## One chunk -/

open Volume

section Chunk

variable {lo hi : ℕ} {srcIno dstIno : UInt32} {bs js bd jd : ℕ} {ds dd : List UInt8} {sx dx : Xtree} {S M : ℕ → UInt8}
  {srcOffset dstOffset len : ℕ}

/-! ### Its three ends -/

section Ends

variable {fs : FuseFs} {curSrc curDst chunk : ℕ} {data : List UInt8} {volume volume' : Volume} {e : StorageError}

theorem copyByReading_unread (hrun : readFile srcIno curSrc chunk fs.volume = .error e volume) :
    copyByReading srcIno curSrc dstIno curDst chunk fs = .error Errno.eio { fs with volume } := by
  have hread : read srcIno curSrc chunk fs = .ok none { fs with volume } := by
    unfold read
    rw [hrun]
  unfold copyByReading
  rw [bind_ok hread]
  rfl

theorem copyByReading_unwritten (hwritable : fs.writable = true)
    (hrun : readFile srcIno curSrc chunk fs.volume = .ok data volume)
    (hwrite : Volume.writeAtWithInterrupt dstIno curDst data [] volume = .error e volume') :
    copyByReading srcIno curSrc dstIno curDst chunk fs = .ok 0 { fs with volume := volume' } := by
  have hread : read srcIno curSrc chunk fs = .ok (some data) { fs with volume } := by
    unfold read
    rw [hrun]
  have hnone : write dstIno curDst data { fs with volume } = .ok none { fs with volume := volume' } := by
    unfold write Volume.writeAt
    rw [if_pos hwritable, hwrite]
  unfold copyByReading
  rw [bind_ok hread]
  dsimp only
  rw [bind_ok hnone]
  rfl

theorem copyByReading_written (hwritable : fs.writable = true) {written : ℕ}
    (hrun : readFile srcIno curSrc chunk fs.volume = .ok data volume)
    (hwrite : Volume.writeAtWithInterrupt dstIno curDst data [] volume = .ok written volume') :
    copyByReading srcIno curSrc dstIno curDst chunk fs = .ok written { fs with volume := volume' } := by
  have hread : read srcIno curSrc chunk fs = .ok (some data) { fs with volume } := by
    unfold read
    rw [hrun]
  have hsome : write dstIno curDst data { fs with volume } = .ok (some written) { fs with volume := volume' } := by
    unfold write Volume.writeAt
    rw [if_pos hwritable, hwrite]
  unfold copyByReading
  rw [bind_ok hread]
  dsimp only
  rw [bind_ok hsome]
  rfl

end Ends

/-- How far a copy can come. -/
def copyLimit (size srcOffset len : ℕ) : ℕ :=
  min len (size - srcOffset)

/-- The chunk that is read at `t`. -/
theorem read_append (S : ℕ → UInt8) (offset t n : ℕ) :
    Memory.read S offset t ++ Memory.read S (offset + t) n = Memory.read S offset (t + n) := by
  unfold Memory.read
  rw [List.range_add, List.map_append, List.map_map]
  congr 1
  refine List.map_congr_left fun i _ => ?_
  exact congrArg S (Nat.add_assoc ..)

/-- The bytes that a chunk adds to those that are there. -/
theorem write_chunk {done : Prop} {t n : ℕ} {M' : ℕ → UInt8}
    (h : Memory.Overwrote done (Memory.write M dstOffset (Memory.read S srcOffset t)) (dstOffset + t)
      (Memory.read S (srcOffset + t) n) M') :
    ∃ k, t ≤ k ∧ k ≤ t + n ∧ (done → k = t + n) ∧ M' = Memory.write M dstOffset (Memory.read S srcOffset k) := by
  obtain ⟨j, hj, hall, rfl⟩ := h
  rw [Memory.length_read] at hj hall
  refine ⟨t + j, Nat.le_add_right .., Nat.add_le_add_left hj t, fun hdone => by rw [hall hdone], ?_⟩
  have htake : (Memory.read S (srcOffset + t) n).take j = Memory.read S (srcOffset + t) j :=
    Memory.slice_read S (show 0 + j ≤ n by omega)
  have happend := Memory.write_append M dstOffset (Memory.read S srcOffset t) (Memory.read S (srcOffset + t) j)
  rw [Memory.length_read, read_append] at happend
  rw [htake, happend]

/-- The tree of a file that is in place. -/
theorem HoldsFile.treeClear {v : Volume} (h : v.HoldsFile dx dstIno bd jd dd lo hi M)
    (hkey : Dinode.HasKey (inodeKey dstIno) dd) (hxtree : Xtree.fromInodeData (Dinode.root dd) = .ok dx)
    {keep : ℕ → Prop} (hclear : ClearOf keep dx) : TreeClear keep dstIno v.begun := by
  intro inode w xtree hread hx
  obtain ⟨content, hv, -⟩ := h
  have hinode := ((leavesAlone_begun v hv).found hkey hread).kept rfl
  unfold Inode.xtree at hx
  rw [hinode, hxtree] at hx
  cases hx
  exact hclear

/-- Both files are in place, and the first `t` bytes are copied. -/
structure Between (lo hi : ℕ) (srcIno : UInt32) (bs js : ℕ) (ds : List UInt8) (sx : Xtree) (S : ℕ → UInt8)
    (dstIno : UInt32) (bd jd : ℕ) (dd : List UInt8) (dx : Xtree) (M : ℕ → UInt8) (srcOffset dstOffset t : ℕ)
    (fs : FuseFs) : Prop where
  writable : fs.writable = true
  source : fs.volume.HoldsFile sx srcIno bs js ds lo hi S
  target : fs.volume.HoldsFile dx dstIno bd jd dd lo hi (Memory.write M dstOffset (Memory.read S srcOffset t))

/-- A file that can be read and written below its size. -/
structure Steady (ino : UInt32) (d : List UInt8) (xtree : Xtree) : Prop where
  key : Dinode.HasKey (inodeKey ino) d
  tree : Xtree.fromInodeData (Dinode.root d) = .ok xtree
  solid : xtree.Solid (Dinode.size d)

variable (hsrc : Steady srcIno ds sx) (hdst : Steady dstIno dd dx) (hne : dstIno ≠ srcIno)
  (hclear : ClearOf (fun a => a ∈ sx.blocks ∨ InTable lo hi a) dx) (hfits : dstOffset + len ≤ Dinode.size dd)

include hsrc hdst hne hclear hfits

/-- **A chunk between two files.** -/
theorem copies_between {t chunk : ℕ} (ht : t ≤ copyLimit (Dinode.size ds) srcOffset len) (hchunk : chunk ≤ len - t)
    {fs : FuseFs} (h : Between lo hi srcIno bs js ds sx S dstIno bd jd dd dx M srcOffset dstOffset t fs) :
    Copies (Between lo hi srcIno bs js ds sx S dstIno bd jd dd dx M srcOffset dstOffset)
      (Between lo hi srcIno bs js ds sx S dstIno bd jd dd dx M srcOffset dstOffset)
      (copyLimit (Dinode.size ds) srcOffset len) t
      (copyByReading srcIno (srcOffset + t) dstIno (dstOffset + t) chunk fs) := by
  have hsource := h.source.of_leavesAlone fun content => readSteps_leavesAlone.readFile srcIno (srcOffset + t) chunk fs.volume
  have htarget := h.target.of_leavesAlone fun content => readSteps_leavesAlone.readFile srcIno (srcOffset + t) chunk fs.volume
  cases hrun : readFile srcIno (srcOffset + t) chunk fs.volume with
  | error e volume =>
      rw [hrun, final_error] at hsource htarget
      rw [copyByReading_unread hrun]
      exact ⟨t, ht, le_rfl, ⟨h.writable, hsource, htarget⟩, fun copied fs' hend => by cases hend⟩
  | ok data volume =>
      rw [hrun, final_ok] at hsource htarget
      have hdata := h.source.of_readFile hsrc.key hsrc.tree hsrc.solid hrun
      obtain ⟨n, hn⟩ : ∃ n, min chunk (Dinode.size ds - (srcOffset + t)) = n := ⟨_, rfl⟩
      rw [hn] at hdata
      have hlimit : t + n ≤ copyLimit (Dinode.size ds) srcOffset len := by
        unfold copyLimit at ht ⊢
        omega
      have hlen : data.length = n := by rw [hdata, Memory.length_read]
      obtain ⟨⟨M', hend, hover⟩, hanswer⟩ := htarget.writeAtWithInterrupt hdst.key hdst.tree hdst.solid
        (show dstOffset + t + data.length ≤ Dinode.size dd by unfold copyLimit at hlimit; omega) []
      -- the write stays away from the source
      have htree : TreeClear (fun a => a ∈ sx.blocks ∨ InTable lo hi a) dstIno volume.begun :=
        HoldsFile.treeClear htarget hdst.key hdst.tree hclear
      have hbeside := hsource.of_leavesAlone fun content =>
        leavesAlone_writeAtWithInterrupt (leavesAlone_writeAtBody hsrc.key hne (dstOffset + t) data [] htree)
      obtain ⟨k, htk, hk, hall, rfl⟩ := write_chunk (hdata ▸ hover)
      cases hwrite : Volume.writeAtWithInterrupt dstIno (dstOffset + t) data [] volume with
      | error e volume' =>
          rw [hwrite] at hend hbeside
          rw [copyByReading_unwritten h.writable hrun hwrite]
          refine ⟨k, hk.trans hlimit, htk, ⟨h.writable, hbeside, hend⟩, fun copied fs' hdone => .inl ?_⟩
          cases hdone
          rfl
      | ok written volume' =>
          have hwritten := hanswer written volume' hwrite
          rw [hwrite] at hend hbeside
          rw [copyByReading_written h.writable hrun hwrite]
          refine ⟨k, hk.trans hlimit, htk, ⟨h.writable, hbeside, hend⟩, fun copied fs' hdone => .inr ?_⟩
          cases hdone
          exact ⟨by rw [hall (hdata ▸ ⟨written, volume', hwrite⟩), hwritten, hlen], ⟨h.writable, hbeside, hend⟩⟩

end Chunk

theorem steady_keptInode : Steady 16 keptInode Xtree.threeBlocks.stored := by
  obtain ⟨-, hkey, -, hsize, hxtree⟩ := numberedInode_spec Xtree.threeBlocks 12288 (show 0 < 2 ^ 32 by decide)
  have hsize : Dinode.size keptInode = 12288 := hsize
  exact ⟨hkey, hxtree, hsize.symm ▸ Xtree.solid_threeBlocks⟩

theorem steady_besideInode : Steady 24 besideInode Xtree.twoBlocks.stored := by
  obtain ⟨-, hkey, -, hsize, hxtree⟩ := numberedInode_spec Xtree.twoBlocks 8192 (show 8 < 2 ^ 32 by decide)
  have hsize : Dinode.size besideInode = 8192 := hsize
  exact ⟨hkey, hxtree, hsize.symm ▸ Xtree.solid_twoBlocks⟩

section Within

variable {lo hi : ℕ} {ino : UInt32} {b j : ℕ} {d : List UInt8} {xtree : Xtree} {M : ℕ → UInt8}
  {srcOffset dstOffset len : ℕ}

/-- The file is in place, and its first `t` bytes from `srcOffset` on are copied. -/
structure Moved (lo hi : ℕ) (ino : UInt32) (b j : ℕ) (d : List UInt8) (xtree : Xtree) (M : ℕ → UInt8)
    (srcOffset dstOffset t : ℕ) (fs : FuseFs) : Prop where
  writable : fs.writable = true
  file : fs.volume.HoldsFile xtree ino b j d lo hi (Memory.write M dstOffset (Memory.read M srcOffset t))

/-- The bytes of the next chunk are still those of the beginning. -/
def Untouched (srcOffset dstOffset len limit t : ℕ) : Prop :=
  dstOffset ≤ srcOffset ∨ srcOffset + len ≤ dstOffset ∨ len ≤ copyChunkSize ∧ (t = 0 ∨ t = limit)

variable (hsteady : Steady ino d xtree) (hfits : dstOffset + len ≤ Dinode.size d)

include hsteady hfits

/-- **A chunk within a file.** -/
theorem copies_within {t : ℕ} (ht : t ≤ copyLimit (Dinode.size d) srcOffset len) (hlt : t < len)
    (hrange : Untouched srcOffset dstOffset len (copyLimit (Dinode.size d) srcOffset len) t) {fs : FuseFs}
    (h : Moved lo hi ino b j d xtree M srcOffset dstOffset t fs) :
    Copies (fun t fs => Untouched srcOffset dstOffset len (copyLimit (Dinode.size d) srcOffset len) t ∧
        Moved lo hi ino b j d xtree M srcOffset dstOffset t fs)
      (Moved lo hi ino b j d xtree M srcOffset dstOffset) (copyLimit (Dinode.size d) srcOffset len) t
      (copyByReading ino (srcOffset + t) ino (dstOffset + t) (min (len - t) copyChunkSize) fs) := by
  have hread := h.file.of_leavesAlone fun content =>
    readSteps_leavesAlone.readFile ino (srcOffset + t) (min (len - t) copyChunkSize) fs.volume
  cases hrun : readFile ino (srcOffset + t) (min (len - t) copyChunkSize) fs.volume with
  | error e volume =>
      rw [hrun, final_error] at hread
      rw [copyByReading_unread hrun]
      exact ⟨t, ht, le_rfl, ⟨h.writable, hread⟩, fun copied fs' hend => by cases hend⟩
  | ok data volume =>
      rw [hrun, final_ok] at hread
      obtain ⟨n, hn⟩ : ∃ n, min (min (len - t) copyChunkSize) (Dinode.size d - (srcOffset + t)) = n := ⟨_, rfl⟩
      have hlimit : t + n ≤ copyLimit (Dinode.size d) srcOffset len := by
        unfold copyLimit at ht ⊢
        omega
      have hdata : data = Memory.read M (srcOffset + t) n := by
        rw [h.file.of_readFile hsteady.key hsteady.tree hsteady.solid hrun, hn]
        rcases Nat.eq_zero_or_pos n with hnone | hsome
        · rw [hnone]
          rfl
        · rcases Nat.eq_zero_or_pos t with hfirst | hlater
          · have hnil : Memory.read M srcOffset t = [] := by rw [hfirst]; rfl
            rw [hnil, Memory.write_nil]
          · apply Memory.read_write_of_disjoint
            rw [Memory.length_read]
            unfold Untouched at hrange
            unfold copyLimit at hrange hlimit
            omega
      have hlen : data.length = n := by rw [hdata, Memory.length_read]
      obtain ⟨⟨M', hend, hover⟩, hanswer⟩ := hread.writeAtWithInterrupt hsteady.key hsteady.tree hsteady.solid
        (show dstOffset + t + data.length ≤ Dinode.size d by unfold copyLimit at hlimit; omega) []
      obtain ⟨k, htk, hk, hall, rfl⟩ := write_chunk (hdata ▸ hover)
      cases hwrite : Volume.writeAtWithInterrupt ino (dstOffset + t) data [] volume with
      | error e volume' =>
          rw [hwrite] at hend
          rw [copyByReading_unwritten h.writable hrun hwrite]
          refine ⟨k, hk.trans hlimit, htk, ⟨h.writable, hend⟩, fun copied fs' hdone => .inl ?_⟩
          cases hdone
          rfl
      | ok written volume' =>
          have hwritten := hanswer written volume' hwrite
          have hwhole : k = t + n := hall (hdata ▸ ⟨written, volume', hwrite⟩)
          rw [hwrite] at hend
          rw [copyByReading_written h.writable hrun hwrite]
          refine ⟨k, hk.trans hlimit, htk, ⟨h.writable, hend⟩, fun copied fs' hdone => .inr ?_⟩
          cases hdone
          refine ⟨by rw [hwhole, hwritten, hlen], ?_, ⟨h.writable, hend⟩⟩
          -- a single chunk comes as far as the copy can
          unfold Untouched at hrange ⊢
          unfold copyLimit at hrange ⊢
          omega

end Within

end FuseFs

end JfsFuse
