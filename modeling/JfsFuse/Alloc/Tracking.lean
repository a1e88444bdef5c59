import JfsFuse.Alloc.Persistence

/-!
# The pages that a commit writes back

Every call of the allocator notes one page, the one that its extent begins in, and a commit
writes the working map of the noted pages.  So the map on the disk follows the map in memory as
long as no extent reaches into the next page.
-/

namespace JfsFuse

open ByteBuf Program

namespace BlockAllocMap

/-! ## One page -/

/-- The bits of a word of the map. -/
theorem testBit_mapWord (m : BlockAllocMap) (blkOffset : ℕ) {bit : ℕ} (hbit : bit < 32) :
    (m.mapWord blkOffset).testBit bit = (decide (blkOffset + bit < m.mapsize) && m.freeMap (blkOffset + bit)) := by
  have hagree : ∀ n, ((List.range n).foldl (fun word bit =>
      if blkOffset + bit < m.mapsize ∧ m.freeMap (blkOffset + bit) then word ||| 2 ^ bit else word) 0).testBit bit =
        (decide (bit < n) && (decide (blkOffset + bit < m.mapsize) && m.freeMap (blkOffset + bit))) := by
    intro n
    induction n with
    | zero => simp
    | succ n ih =>
        rw [List.range_succ, List.foldl_append, List.foldl_cons, List.foldl_nil]
        by_cases hsame : bit = n
        · subst hsame
          have hfree : (decide (bit < bit) && (decide (blkOffset + bit < m.mapsize) &&
              m.freeMap (blkOffset + bit))) = false := by simp
          rw [hfree] at ih
          split
          · next hset => simp [Nat.testBit_or, Nat.testBit_two_pow_self, hset.1, hset.2]
          · next hunset =>
              rw [ih]
              by_cases hlt : blkOffset + bit < m.mapsize
              · simp [hlt, not_and.mp hunset hlt]
              · simp [hlt]
        · have hlt : bit < n + 1 ↔ bit < n := by omega
          simp only [hlt, ← ih]
          split
          · rw [Nat.testBit_or, Nat.testBit_two_pow_of_ne (Ne.symm hsame), Bool.or_false]
          · rfl
  unfold mapWord
  rw [hagree 32, decide_eq_true hbit, Bool.true_and]

/-- The loop over the first `n` words of a page. -/
def writeWords (m : BlockAllocMap) (dmapPage n : ℕ) (page : List UInt8) : List UInt8 :=
  (List.range n).foldl (fun page wordIdx =>
    writeLE page (wmapOff + wordIdx * 4) 4 (m.mapWord ((dmapPage - 1) * blocksPerDmap + wordIdx * 32))) page

section Words

variable (m : BlockAllocMap) (dmapPage : ℕ) {page : List UInt8} (hlen : page.length = blockSize)

include hlen

/-- **Writing words** changes these words of the working map only. -/
theorem writeWords_spec {n : ℕ} (hn : n ≤ 256) :
    (m.writeWords dmapPage n page).length = blockSize ∧
      (∀ k < n, readLE (m.writeWords dmapPage n page) (wmapOff + k * 4) 4 =
        m.mapWord ((dmapPage - 1) * blocksPerDmap + k * 32) % 256 ^ 4) ∧
      ∀ i, i < wmapOff ∨ pmapOff ≤ i → (m.writeWords dmapPage n page).getD i 0 = page.getD i 0 := by
  induction n with
  | zero => exact ⟨hlen, fun _ hk => absurd hk (Nat.not_lt_zero _), fun _ _ => rfl⟩
  | succ n ih =>
      obtain ⟨hlen', hwords, houtside⟩ := ih (Nat.le_of_succ_le hn)
      have hstep : m.writeWords dmapPage (n + 1) page = writeLE (m.writeWords dmapPage n page) (wmapOff + n * 4) 4
          (m.mapWord ((dmapPage - 1) * blocksPerDmap + n * 32)) := by
        unfold writeWords
        rw [List.range_succ, List.foldl_append, List.foldl_cons, List.foldl_nil]
      have hfits : wmapOff + n * 4 + 4 ≤ (m.writeWords dmapPage n page).length := by
        rw [hlen']
        unfold wmapOff blockSize
        omega
      rw [hstep]
      refine ⟨(length_writeLE _ hfits).trans hlen', fun k hk => ?_, fun i hi => ?_⟩
      · rcases Nat.eq_or_lt_of_le (Nat.le_of_lt_succ hk) with rfl | hlt
        · rw [readLE_writeLE_self _ (by omega)]
        · rw [readLE_writeLE_of_disjoint _ hfits (by omega), hwords k hlt]
      · rw [← houtside i hi]
        unfold writeLE
        rw [getD_splice i 0 (by rwa [length_leBytes]), length_leBytes, if_neg]
        unfold wmapOff pmapOff at hi
        unfold wmapOff
        omega

theorem length_updatePage : (m.updatePage dmapPage page).length = blockSize :=
  (m.writeWords_spec dmapPage hlen (n := 256) le_rfl).1

theorem getD_updatePage {i : ℕ} (hi : i < wmapOff ∨ pmapOff ≤ i) :
    (m.updatePage dmapPage page).getD i 0 = page.getD i 0 :=
  (m.writeWords_spec dmapPage hlen (n := 256) le_rfl).2.2 i hi

/-- **The working map of a page** is the map in memory. -/
theorem testBit_updatePage {blk : ℕ} (hblk : blk < blocksPerDmap) :
    testBit (m.updatePage dmapPage page) wmapOff blk =
      (decide ((dmapPage - 1) * blocksPerDmap + blk < m.mapsize) &&
        m.freeMap ((dmapPage - 1) * blocksPerDmap + blk)) := by
  have hword : blk / 32 < 256 := by
    unfold blocksPerDmap at hblk
    omega
  have hbit : blk % 32 < 32 := Nat.mod_lt _ (by decide)
  have hread := (m.writeWords_spec dmapPage hlen (n := 256) le_rfl).2.1 (blk / 32) hword
  have hsum : (dmapPage - 1) * blocksPerDmap + blk / 32 * 32 + blk % 32 = (dmapPage - 1) * blocksPerDmap + blk := by
    omega
  unfold testBit
  rw [show m.updatePage dmapPage page = m.writeWords dmapPage 256 page from rfl, hread,
    show (256 : ℕ) ^ 4 = 2 ^ 32 by norm_num, Nat.testBit_mod_two_pow, decide_eq_true hbit, Bool.true_and,
    testBit_mapWord m _ hbit, hsum]

end Words

/-! ## The commit -/

/-- **Writing pages back** that returned. -/
theorem of_commitPages {m : BlockAllocMap} {pages : List ℕ} {s s' : Storage} {u : Unit}
    (h : m.commitPages pages s = .ok u s') :
    s'.size = s.size ∧
      (∀ b, (∀ page ∈ pages, m.dmapStart + page ≠ b) → s'.block b = s.block b) ∧
      (∀ b i, i < wmapOff ∨ pmapOff ≤ i → (s'.block b).getD i 0 = (s.block b).getD i 0) ∧
      ∀ page ∈ pages, m.dmapStart + page < s.sizeBlocks → ∀ blk < blocksPerDmap,
        testBit (s'.block (m.dmapStart + page)) wmapOff blk =
          (decide ((page - 1) * blocksPerDmap + blk < m.mapsize) && m.freeMap ((page - 1) * blocksPerDmap + blk)) := by
  induction pages generalizing s with
  | nil =>
      cases h
      exact ⟨rfl, fun _ _ => rfl, fun _ _ _ => rfl, fun _ hpage => absurd hpage List.not_mem_nil⟩
  | cons page rest ih =>
      unfold commitPages at h
      rw [bind_ok (get_apply s)] at h
      split at h
      · next hbeyond =>
          obtain ⟨hsize, hother, hbytes, hbits⟩ := ih h
          refine ⟨hsize, fun b hb => hother b fun p hp => hb p (List.mem_cons_of_mem _ hp), hbytes,
            fun p hp hin => ?_⟩
          rcases List.mem_cons.mp hp with rfl | hp
          · exact absurd hin (Nat.not_lt.mpr hbeyond)
          · exact hbits p hp hin
      · obtain ⟨data, s₁, hread, h⟩ := of_bind_ok h
        obtain ⟨_, s₂, hwrite, h⟩ := of_bind_ok h
        obtain ⟨hsame, hsize₁⟩ := StorageM.of_readBlock_frame hread
        rw [(StorageM.of_readBlock hread).1] at hwrite
        have hlen := m.length_updatePage page (s.length_block (m.dmapStart + page))
        obtain ⟨hwritten, hkept⟩ := StorageM.of_writeBlock_ok hlen hwrite
        have hsize₂ : s₂.size = s.size := (StorageM.of_writeBlock hwrite).2.1.trans hsize₁
        obtain ⟨hsize, hother, hbytes, hbits⟩ := ih h
        refine ⟨hsize.trans hsize₂, fun b hb => ?_, fun b i hi => ?_, fun p hp hin blk hblk => ?_⟩
        · rw [hother b fun p hp => hb p (List.mem_cons_of_mem _ hp),
            hkept b (Ne.symm (hb page (List.mem_cons_self ..))), hsame]
        · rw [hbytes b i hi]
          by_cases heq : b = m.dmapStart + page
          · rw [heq, hwritten, m.getD_updatePage page (s.length_block _) hi]
          · rw [hkept b heq, hsame]
        · by_cases hrest : p ∈ rest
          · refine hbits p hrest ?_ blk hblk
            unfold Storage.sizeBlocks
            rwa [hsize₂]
          · obtain rfl := (List.mem_cons.mp hp).resolve_right hrest
            rw [hother _ fun q hq heq => hrest (by rwa [Nat.add_left_cancel heq] at hq), hwritten]
            exact m.testBit_updatePage p (s.length_block _) hblk

theorem exists_commitPages (m : BlockAllocMap) (pages : List ℕ) {s : Storage} (h : s.Steady) :
    ∃ s', commitPages m pages s = .ok () s' ∧ s'.Steady ∧ s'.size = s.size := by
  induction pages generalizing s with
  | nil => exact ⟨s, rfl, h, rfl⟩
  | cons page rest ih =>
      unfold commitPages
      rw [bind_ok (get_apply s)]
      split
      · exact ih h
      · next hin =>
          have hblock : (m.dmapStart + page + 1) * blockSize ≤ s.size := by
            unfold Storage.sizeBlocks at hin
            exact (Nat.le_div_iff_mul_le (by decide)).mp (Nat.not_le.mp hin)
          have hlen := (m.updatePage_pmap page (s.length_block (m.dmapStart + page))).1
          obtain ⟨s₁, hwrite, h₁, hsize⟩ := h.writeBlock hblock hlen
          obtain ⟨s', hrun, h', hsize'⟩ := ih h₁
          exact ⟨s', by rw [bind_ok (h.readBlock hblock), bind_ok hwrite, hrun], h', hsize'.trans hsize⟩

/-- **A commit of the map returns** when its descriptor lies in the device. -/
theorem exists_commit (m : BlockAllocMap) {s : Storage} (h : s.Steady)
    (hdesc : (m.dmapStart + 1) * blockSize ≤ s.size) : ∃ m' s', m.commit s = .ok m' s' := by
  obtain ⟨s₁, hpages, h₁, hsize⟩ := m.exists_commitPages m.dirtyPages h
  have hdesc₁ : (m.dmapStart + 1) * blockSize ≤ s₁.size := by rwa [hsize]
  have hlen : (writeLE (s₁.block m.dmapStart) 8 8 m.nfree.toNat).length = blockSize := by
    rw [length_writeLE _ (by rw [s₁.length_block]; decide), s₁.length_block]
  obtain ⟨s₂, hwrite, -, -⟩ := h₁.writeBlock hdesc₁ hlen
  refine ⟨{ m with dirtyPages := [], allocated := [], freed := [] }, s₂, ?_⟩
  unfold commit
  rw [bind_ok hpages, bind_ok (h₁.readBlock hdesc₁), bind_ok hwrite]
  rfl

/-- **A commit that returned** writes the working maps of the noted pages, and the count. -/
theorem of_commit {m m' : BlockAllocMap} {s s' : Storage} (h : m.commit s = .ok m' s') :
    m' = { m with dirtyPages := [], allocated := [], freed := [] } ∧
      (∀ b, (∀ page ∈ m.dirtyPages, m.dmapStart + page ≠ b) → b ≠ m.dmapStart → s'.block b = s.block b) ∧
      (∀ b i, ¬ ((∃ page ∈ m.dirtyPages, m.dmapStart + page = b) ∧ wmapOff ≤ i ∧ i < pmapOff) →
        ¬ (b = m.dmapStart ∧ 8 ≤ i ∧ i < 16) → (s'.block b).getD i 0 = (s.block b).getD i 0) ∧
      ∀ page ∈ m.dirtyPages, 0 < page → m.dmapStart + page < s.sizeBlocks → ∀ blk < blocksPerDmap,
        testBit (s'.block (m.dmapStart + page)) wmapOff blk =
          (decide ((page - 1) * blocksPerDmap + blk < m.mapsize) && m.freeMap ((page - 1) * blocksPerDmap + blk)) := by
  obtain ⟨_, s₁, hpages, h⟩ := of_bind_ok h
  obtain ⟨desc, s₂, hread, h⟩ := of_bind_ok h
  obtain ⟨_, s₃, hwrite, h⟩ := of_bind_ok h
  cases h
  obtain ⟨-, hother, hbytes, hbits⟩ := of_commitPages hpages
  have hsame := (StorageM.of_readBlock_frame hread).1
  rw [(StorageM.of_readBlock hread).1] at hwrite
  have hfits : 8 + 8 ≤ (s₁.block m.dmapStart).length := by
    rw [s₁.length_block]
    decide
  have hlen : (writeLE (s₁.block m.dmapStart) 8 8 m.nfree.toNat).length = blockSize := by
    rw [length_writeLE _ hfits, s₁.length_block]
  obtain ⟨hwritten, hkept⟩ := StorageM.of_writeBlock_ok hlen hwrite
  refine ⟨rfl, fun b hb hne => ?_, fun b i hpage hcount => ?_, fun page hpage hpos hin blk hblk => ?_⟩
  · rw [hkept b hne, hsame, hother b hb]
  · have hpages : (s₁.block b).getD i 0 = (s.block b).getD i 0 := by
      by_cases hnoted : ∃ page ∈ m.dirtyPages, m.dmapStart + page = b
      · exact hbytes b i (by by_contra hin; exact hpage ⟨hnoted, by omega⟩)
      · rw [hother b fun page hpage heq => hnoted ⟨page, hpage, heq⟩]
    rw [← hpages]
    by_cases heq : b = m.dmapStart
    · rw [heq, hwritten]
      unfold writeLE
      rw [getD_splice i 0 (by rwa [length_leBytes]), length_leBytes, if_neg fun hin => hcount ⟨heq, hin⟩]
    · rw [hkept b heq, hsame]
  · rw [hkept _ (by omega), hsame]
    exact hbits page hpage hin blk hblk

/-! ## The calls between two commits -/

/-- A call that changes the map. -/
inductive MapCall
  | alloc (nblocks hint : ℕ)
  | free (pxd : Pxd)

namespace MapCall

def run : MapCall → BlockAllocMap → Except StorageError BlockAllocMap
  | alloc nblocks hint, m => (m.allocExtent nblocks hint).map Prod.snd
  | free pxd, m => m.freeExtent pxd

/-- Start and length of the extent: of the run that is found, or the one that is given. -/
def extent (m : BlockAllocMap) : MapCall → ℕ × ℕ
  | alloc nblocks hint =>
      (((m.findFreeRun nblocks hint).orElse fun _ => m.findFreeRun nblocks 0).getD 0, nblocks)
  | free pxd => (pxd.address, pxd.length)

/-- **One call** marks its extent, and notes the page that the extent begins in. -/
theorem of_run {call : MapCall} {m m' : BlockAllocMap} (h : call.run m = .ok m') :
    m'.mapsize = m.mapsize ∧ m'.dmapStart = m.dmapStart ∧
      m'.dirtyPages = insertDirty m.dirtyPages (call.extent m).1 ∧
      ∃ free, m'.freeMap = mark m.freeMap (call.extent m).1 (call.extent m).2 free := by
  cases call with
  | alloc nblocks hint =>
      change (m.allocExtent nblocks hint).map Prod.snd = .ok m' at h
      unfold allocExtent at h
      by_cases hcount : nblocks = 0 ∨ m.mapsize < nblocks
      · rw [if_pos hcount] at h
        cases h
      · rw [if_neg hcount] at h
        cases hfound : (m.findFreeRun nblocks hint).orElse fun _ => m.findFreeRun nblocks 0 with
        | none =>
            rw [hfound] at h
            cases h
        | some start =>
            have hextent : (alloc nblocks hint).extent m = (start, nblocks) := by
              simp only [extent, hfound, Option.getD_some]
            rw [hfound] at h
            cases h
            rw [hextent]
            exact ⟨rfl, rfl, rfl, false, rfl⟩
  | free pxd =>
      obtain ⟨-, rfl⟩ := freeExtent_ok h
      exact ⟨rfl, rfl, rfl, true, rfl⟩

end MapCall

/-- Requests that all succeed lead from one map to another; the extents are those of the calls. -/
inductive Requests : BlockAllocMap → List (ℕ × ℕ) → BlockAllocMap → Prop
  | nil (m : BlockAllocMap) : Requests m [] m
  | cons {m m₁ m' : BlockAllocMap} {extents : List (ℕ × ℕ)} (call : MapCall) (hcall : call.run m = .ok m₁)
      (hrest : Requests m₁ extents m') : Requests m (call.extent m :: extents) m'

/-- **A run of calls** notes the pages that the extents begin in, and changes blocks of the extents only. -/
theorem Requests.spec {m m' : BlockAllocMap} {extents : List (ℕ × ℕ)} (h : Requests m extents m') :
    m'.mapsize = m.mapsize ∧ m'.dmapStart = m.dmapStart ∧
      (∀ page, page ∈ m'.dirtyPages ↔ page ∈ m.dirtyPages ∨ ∃ e ∈ extents, page = 1 + e.1 / blocksPerDmap) ∧
      ∀ blk, (∀ e ∈ extents, ¬ (e.1 ≤ blk ∧ blk < e.1 + e.2)) → m'.freeMap blk = m.freeMap blk := by
  induction h with
  | nil m => exact ⟨rfl, rfl, fun page => by simp, fun _ _ => rfl⟩
  | @cons m m₁ m' extents call hcall _ ih =>
      obtain ⟨hmapsize, hstart, hdirty, free, hfree⟩ := MapCall.of_run hcall
      obtain ⟨hmapsize', hstart', hdirty', hfree'⟩ := ih
      refine ⟨hmapsize'.trans hmapsize, hstart'.trans hstart, fun page => ?_, fun blk hblk => ?_⟩
      · rw [hdirty' page, hdirty]
        unfold insertDirty
        simp only [List.mem_insert_iff, List.mem_cons, exists_eq_or_imp]
        tauto
      · rw [hfree' blk fun e he => hblk e (List.mem_cons_of_mem _ he), hfree]
        exact if_neg (hblk _ (List.mem_cons_self ..))

/-! ## Following the map -/

/-- Block of the page that has the bit of `blk`. -/
def pageBlock (m : BlockAllocMap) (blk : ℕ) : ℕ :=
  m.dmapStart + (1 + blk / blocksPerDmap)

/-- The working maps on the disk are the map in memory. -/
def Tracked (m : BlockAllocMap) (s : Storage) : Prop :=
  ∀ blk < m.mapsize, testBit (s.block (m.pageBlock blk)) wmapOff (blk % blocksPerDmap) = m.freeMap blk

/-- Byte `i` of block `b` is in the working map of a page, or in the count of free blocks. -/
def InWorkingMap (m : BlockAllocMap) (b i : ℕ) : Prop :=
  (∃ blk < m.mapsize, b = m.pageBlock blk ∧ wmapOff ≤ i ∧ i < pmapOff) ∨ b = m.dmapStart ∧ 8 ≤ i ∧ i < 16

/-- The pages of the map are on the storage. -/
def OnStorage (m : BlockAllocMap) (s : Storage) : Prop :=
  ∀ blk < m.mapsize, m.pageBlock blk < s.sizeBlocks

/-- Every noted page is a page of the map. -/
def NotesPages (m : BlockAllocMap) : Prop :=
  ∀ page ∈ m.dirtyPages, ∃ blk < m.mapsize, page = 1 + blk / blocksPerDmap

/-- Every extent begins in a page of the map, and every page that it reaches into is noted, by
this extent or by another one. -/
structure NotesReach (m : BlockAllocMap) (extents : List (ℕ × ℕ)) : Prop where
  begins : ∀ e ∈ extents, ∃ blk < m.mapsize, e.1 / blocksPerDmap = blk / blocksPerDmap
  reaches : ∀ e ∈ extents, ∀ blk, e.1 ≤ blk → blk < e.1 + e.2 →
    1 + blk / blocksPerDmap ∈ m.dirtyPages ∨ ∃ e' ∈ extents, blk / blocksPerDmap = e'.1 / blocksPerDmap

/-- **After a commit** the disk follows the map again, and nothing but the working maps and the
count has changed, as long as the pages of all extents were noted. -/
theorem Requests.tracked {m m' m'' : BlockAllocMap} {s s' : Storage} {extents : List (ℕ × ℕ)} (hon : m.OnStorage s)
    (htracked : m.Tracked s) (hpages : m.NotesPages) (hcalls : Requests m extents m') (hreach : m.NotesReach extents)
    (hcommit : m'.commit s = .ok m'' s') :
    m''.Tracked s' ∧
      ∀ b i, ¬ m.InWorkingMap b i → (s'.block b).getD i 0 = (s.block b).getD i 0 := by
  obtain ⟨hmapsize, hstart, hdirty, hfree⟩ := hcalls.spec
  obtain ⟨hm'', hother, hbytes, hbits⟩ := of_commit hcommit
  have hsame : m''.mapsize = m.mapsize ∧ m''.dmapStart = m.dmapStart ∧ m''.freeMap = m'.freeMap := by
    rw [hm'']
    exact ⟨hmapsize, hstart, rfl⟩
  have hnoted : ∀ page ∈ m'.dirtyPages, ∃ blk < m.mapsize, page = 1 + blk / blocksPerDmap := by
    intro page hpage
    rcases (hdirty page).mp hpage with hold | ⟨e, he, rfl⟩
    · exact hpages page hold
    · obtain ⟨blk, hblk, heq⟩ := hreach.begins e he
      exact ⟨blk, hblk, by rw [heq]⟩
  refine ⟨fun blk hblk => ?_, fun b i hi => ?_⟩
  · rw [hsame.1] at hblk
    have hblock : m''.pageBlock blk = m'.dmapStart + (1 + blk / blocksPerDmap) := by
      unfold pageBlock
      rw [hsame.2.1, hstart]
    rw [hsame.2.2, hblock]
    by_cases hin : 1 + blk / blocksPerDmap ∈ m'.dirtyPages
    · have hon' : m'.dmapStart + (1 + blk / blocksPerDmap) < s.sizeBlocks := by
        rw [hstart]
        exact hon blk hblk
      have hblk' : (1 + blk / blocksPerDmap - 1) * blocksPerDmap + blk % blocksPerDmap = blk := by
        rw [Nat.add_sub_cancel_left, Nat.div_add_mod']
      rw [hbits _ hin (Nat.succ_le_of_lt (Nat.lt_add_right _ Nat.one_pos)) hon' _ (Nat.mod_lt _ (by decide)), hblk', hmapsize,
        decide_eq_true hblk, Bool.true_and]
    · -- no extent holds the block, since its page was not noted
      have hkept : m'.freeMap blk = m.freeMap blk := by
        refine hfree blk fun e he hmem => hin ?_
        rw [hdirty]
        refine (hreach.reaches e he blk hmem.1 hmem.2).imp id fun ⟨e', he', heq⟩ => ⟨e', he', by rw [heq]⟩
      have hpast : m'.dmapStart + (1 + blk / blocksPerDmap) ≠ m'.dmapStart :=
        (Nat.lt_add_of_pos_right (Nat.add_pos_left Nat.one_pos _)).ne'
      rw [hother _ (fun page hpage heq => hin (by rwa [Nat.add_left_cancel heq] at hpage)) hpast, hkept, hstart]
      exact htracked blk hblk
  · refine hbytes b i (fun ⟨⟨page, hpage, heq⟩, hrange⟩ => hi (.inl ?_)) fun hcount => hi (.inr ?_)
    · obtain ⟨blk, hblk, rfl⟩ := hnoted page hpage
      refine ⟨blk, hblk, ?_, hrange⟩
      unfold pageBlock
      rw [← heq, hstart]
    · rwa [← hstart]

/-! ### A map of two pages -/

/-- A map of two pages without a free block. -/
def fullMap : BlockAllocMap where
  mapsize := 16384
  nfree := 0
  freeMap := fun _ => false
  ndmap := 2
  dmapStart := 0
  dmapLen := 3

/-- The descriptor and the two pages, all zero. -/
def zeroDisk : Storage where
  backend := .memory
  size := 3 * blockSize
  data := fun _ => 0

theorem testBit_zeroDisk (b off i : ℕ) : testBit (zeroDisk.block b) off i = false := by
  have hzeros : zeroDisk.block b = zeros blockSize := by
    refine List.ext_getElem? fun i => ?_
    unfold Storage.block zeros
    rw [Memory.getElem?_read, List.getElem?_replicate]
    rfl
  rw [hzeros, testBit_zeros]

theorem onStorage_fullMap : fullMap.OnStorage zeroDisk := by
  intro blk hblk
  have hsize : zeroDisk.sizeBlocks = 3 := Nat.mul_div_cancel 3 (by decide)
  have hpage : blk / blocksPerDmap < 2 := Nat.div_lt_of_lt_mul hblk
  have hblock : fullMap.pageBlock blk = 0 + (1 + blk / blocksPerDmap) := rfl
  omega

theorem tracked_fullMap : fullMap.Tracked zeroDisk :=
  fun _ _ => testBit_zeroDisk ..

theorem notesPages_fullMap : fullMap.NotesPages :=
  fun _ hpage => absurd hpage List.not_mem_nil

/-- Freeing an extent of the full map, and a commit. -/
theorem exists_free_fullMap (pxd : Pxd) (hin : pxd.address + pxd.length ≤ 16384) :
    ∃ m' m'' s', Requests fullMap [(pxd.address, pxd.length)] m' ∧
      m'.freeMap = mark fullMap.freeMap pxd.address pxd.length true ∧ m'.commit zeroDisk = .ok m'' s' := by
  have hfree : ∃ m', fullMap.freeExtent pxd = .ok m' := ⟨_, if_neg (Nat.not_lt.mpr hin)⟩
  obtain ⟨m', hfree⟩ := hfree
  have hm' := (freeExtent_ok hfree).2
  have hdesc : (m'.dmapStart + 1) * blockSize ≤ zeroDisk.size := by
    rw [hm']
    exact Nat.mul_le_mul_right blockSize (show 0 + 1 ≤ 3 by decide)
  obtain ⟨m'', s', hcommit⟩ := m'.exists_commit (s := zeroDisk) ⟨rfl, rfl⟩ hdesc
  exact ⟨m', m'', s', .cons (.free pxd) hfree (.nil m'), by rw [hm'], hcommit⟩

/-- The extent of four blocks from block 3 on. -/
theorem Requests.tracked_free :
    ∃ m' m'' s', Requests fullMap [(3, 4)] m' ∧ m'.commit zeroDisk = .ok m'' s' ∧ m''.Tracked s' ∧
      ∀ b i, ¬ fullMap.InWorkingMap b i → (s'.block b).getD i 0 = (zeroDisk.block b).getD i 0 := by
  have hpxd : ((Pxd.setAddress {} 3).setLength 4).address = 3 ∧ ((Pxd.setAddress {} 3).setLength 4).length = 4 := by
    decide
  obtain ⟨m', m'', s', hcalls, -, hcommit⟩ := exists_free_fullMap ((Pxd.setAddress {} 3).setLength 4) (by
    rw [hpxd.1, hpxd.2]
    decide)
  rw [hpxd.1, hpxd.2] at hcalls
  refine ⟨m', m'', s', hcalls, hcommit, Requests.tracked onStorage_fullMap tracked_fullMap notesPages_fullMap hcalls
    ⟨fun e he => ?_, fun e he blk hlow hhigh => ?_⟩ hcommit⟩
  · rw [List.mem_singleton.mp he]
    exact ⟨3, by decide, rfl⟩
  · rw [List.mem_singleton.mp he] at hlow hhigh
    refine .inr ⟨(3, 4), List.mem_singleton.mpr rfl, ?_⟩
    unfold blocksPerDmap
    simp only at hhigh ⊢
    omega

/-- **The second page of an extent is missed**: blocks 8190 to 8193 are freed, and the working map
of the page of block 8192 is not written. -/
theorem commit_misses_second_page :
    ∃ m m' m'' s s' extents, m.OnStorage s ∧ m.Tracked s ∧ m.dirtyPages = [] ∧ Requests m extents m' ∧
      m'.commit s = .ok m'' s' ∧ ¬ m''.Tracked s' := by
  have hpxd : ((Pxd.setAddress {} 8190).setLength 4).address = 8190 ∧
      ((Pxd.setAddress {} 8190).setLength 4).length = 4 := by
    decide
  obtain ⟨m', m'', s', hcalls, hfree, hcommit⟩ := exists_free_fullMap ((Pxd.setAddress {} 8190).setLength 4) (by
    rw [hpxd.1, hpxd.2]
    decide)
  rw [hpxd.1, hpxd.2] at hcalls hfree
  refine ⟨fullMap, m', m'', zeroDisk, s', [(8190, 4)], onStorage_fullMap, tracked_fullMap, rfl, hcalls, hcommit,
    fun htracked => ?_⟩
  obtain ⟨hmapsize, hstart, hdirty, -⟩ := hcalls.spec
  obtain ⟨rfl, hother, -⟩ := of_commit hcommit
  -- the page of block 8192 is block 2, and only page 1 was noted
  have hkept : s'.block 2 = zeroDisk.block 2 := by
    refine hother 2 (fun page hpage heq => ?_) (by rw [hstart]; decide)
    rw [hstart] at heq
    have hpage := (hdirty page).mp hpage
    obtain ⟨e, he, rfl⟩ := hpage.resolve_left List.not_mem_nil
    rw [List.mem_singleton.mp he] at heq
    exact absurd heq (by decide)
  have hbit := htracked 8192 (by show 8192 < m'.mapsize; rw [hmapsize]; decide)
  have hblock : BlockAllocMap.pageBlock { m' with dirtyPages := [], allocated := [], freed := [] } 8192 = 2 := by
    unfold pageBlock
    rw [hstart]
    decide
  rw [hblock, hkept, testBit_zeroDisk] at hbit
  rw [hfree] at hbit
  exact absurd hbit (by decide)

end BlockAllocMap

end JfsFuse
