import JfsFuse.Alloc.Persistence
import JfsFuse.Volume.File

/-!
# The search of the allocator

`alloc_extent` walks over the map once from the hint on, and once more from the start if that
walk finds nothing.  Each walk carries the run of free blocks that ends where it stands; a
block in use drops the run.  So a walk finds the first place where the extent fits.
-/

namespace JfsFuse

open Program

namespace BlockAllocMap

/-- The count of free blocks is that of the map. -/
def CountsFree (m : BlockAllocMap) : Prop :=
  m.nfree.toNat = (List.range m.mapsize).countP m.freeMap

/-- The extent lies in the map and all its blocks are free. -/
def IsFreeRun (m : BlockAllocMap) (start n : ℕ) : Prop :=
  start + n ≤ m.mapsize ∧ ∀ b, start ≤ b → b < start + n → m.freeMap b = true

/-- The extent is the first one that fits from the hint on, or the first of all if none does. -/
def IsFirstFit (m : BlockAllocMap) (n hint start : ℕ) : Prop :=
  m.IsFreeRun start n ∧
    ((hint ≤ start ∧ ∀ s, hint ≤ s → m.IsFreeRun s n → start ≤ s) ∨
      (∀ s, hint ≤ s → ¬ m.IsFreeRun s n) ∧ ∀ s, m.IsFreeRun s n → start ≤ s)

/-! ## Counting -/

/-- A change of `n` blocks from `start` on, all of which were set and are cleared. -/
theorem countP_mark {f g : ℕ → Bool} {start n size : ℕ} (hsize : start + n ≤ size)
    (hset : ∀ b, start ≤ b → b < start + n → f b = true ∧ g b = false)
    (hsame : ∀ b, ¬ (start ≤ b ∧ b < start + n) → g b = f b) :
    (List.range size).countP g + n = (List.range size).countP f := by
  obtain ⟨rest, rfl⟩ := Nat.exists_eq_add_of_le hsize
  have hfirst : (List.range start).countP g = (List.range start).countP f := by
    refine List.countP_congr fun b hb => ?_
    rw [hsame b fun hin => absurd (List.mem_range.mp hb) (Nat.not_lt.mpr hin.1)]
  have hlast : (List.range rest).countP (g ∘ fun b => start + n + b) =
      (List.range rest).countP (f ∘ fun b => start + n + b) := by
    refine List.countP_congr fun b _ => ?_
    have hout : ¬ (start ≤ start + n + b ∧ start + n + b < start + n) := by omega
    simp only [Function.comp_apply, hsame _ hout]
  have hcleared : (List.range n).countP (g ∘ fun b => start + b) = 0 := by
    refine List.countP_eq_zero.mpr fun b hb => ?_
    have hlt := List.mem_range.mp hb
    rw [Function.comp_apply, (hset (start + b) (by omega) (by omega)).2]
    exact Bool.false_ne_true
  have hfull : (List.range n).countP (f ∘ fun b => start + b) = n := by
    have hall : ∀ b ∈ List.range n, (f ∘ fun b => start + b) b = true := fun b hb => by
      have hlt := List.mem_range.mp hb
      exact (hset (start + b) (by omega) (by omega)).1
    rw [List.countP_eq_length.mpr hall, List.length_range]
  rw [List.range_add, List.range_add, List.countP_append, List.countP_append, List.countP_append,
    List.countP_append]
  simp only [List.countP_map]
  rw [hfirst, hlast, hcleared, hfull]
  omega

/-- There are as many free blocks as a free extent has. -/
theorem CountsFree.le {m : BlockAllocMap} (h : m.CountsFree) {start n : ℕ} (hrun : m.IsFreeRun start n) :
    n ≤ m.nfree.toNat := by
  have hcount := countP_mark (f := m.freeMap) (g := mark m.freeMap start n false) hrun.1
    (fun b hlow hhigh => ⟨hrun.2 b hlow hhigh, if_pos ⟨hlow, hhigh⟩⟩) fun b hout => if_neg hout
  rw [h]
  omega

/-! ## The walk -/

/-- `n` blocks from `start` on are free. -/
def AllFree (freeMap : ℕ → Bool) (n start : ℕ) : Prop :=
  ∀ b, start ≤ b → b < start + n → freeMap b = true

/-- What a walk over the blocks from `low` up to `high` is to find: the first place, if there is
one. -/
def FindsFirst (freeMap : ℕ → Bool) (n low high : ℕ) : Option ℕ → Prop
  | some start => low ≤ start ∧ start + n ≤ high ∧ AllFree freeMap n start ∧
      ∀ s, low ≤ s → AllFree freeMap n s → start ≤ s
  | none => ∀ s, low ≤ s → s + n ≤ high → ¬ AllFree freeMap n s

/-- A walk that stands at `blk`, behind a run of `runLen` free blocks, finds the first place from
the start of that run on. -/
theorem findFreeRunFrom_first (freeMap : ℕ → Bool) {n : ℕ} (blk count runStart runLen : ℕ)
    (hrunLen : runLen < n) (hle : runLen ≤ blk) (hstart : runLen = 0 ∨ runStart = blk - runLen)
    (hrun : ∀ b, blk - runLen ≤ b → b < blk → freeMap b = true) :
    FindsFirst freeMap n (blk - runLen) (blk + count)
      (findFreeRunFrom freeMap n blk count runStart runLen) := by
  induction count generalizing blk runStart runLen with
  | zero =>
      intro s hlow hhigh
      omega
  | succ count ih =>
      unfold findFreeRunFrom
      by_cases hfree : freeMap blk = true
      · have hnewStart : (if runLen = 0 then blk else runStart) = blk - runLen := by
          rcases hstart with rfl | rfl
          · rw [if_pos rfl, Nat.sub_zero]
          · split
            · omega
            · rfl
        rw [if_pos hfree]
        simp only [hnewStart]
        have hlonger : ∀ b, blk - runLen ≤ b → b < blk + 1 → freeMap b = true := by
          intro b hlow hhigh
          rcases Nat.lt_or_ge b blk with hlt | hge
          · exact hrun b hlow hlt
          · rwa [show b = blk by omega]
        by_cases hdone : n ≤ runLen + 1
        · rw [if_pos hdone]
          refine ⟨le_rfl, by omega, fun b hlow hhigh => hlonger b hlow (by omega), fun s hlow _ => hlow⟩
        · -- the run grows by this block
          rw [if_neg hdone]
          have hnext := ih (blk + 1) (blk - runLen) (runLen + 1) (by omega)
            (by omega) (Or.inr (by omega)) fun b hlow hhigh => hlonger b (by omega) hhigh
          rwa [show blk + 1 - (runLen + 1) = blk - runLen by omega,
            show blk + 1 + count = blk + (count + 1) by omega] at hnext
      · -- no place before the next block has this one behind it
        rw [if_neg hfree]
        have hmeets : ∀ s, blk - runLen ≤ s → AllFree freeMap n s → blk + 1 ≤ s := by
          intro s hlow hall
          by_contra hbefore
          exact hfree (hall blk (by omega) (by omega))
        have hnext := ih (blk + 1) runStart 0 (by omega) (by omega)
          (Or.inl rfl) fun b hlow hhigh => by omega
        rw [Nat.sub_zero, show blk + 1 + count = blk + (count + 1) by omega] at hnext
        cases hresult : findFreeRunFrom freeMap n (blk + 1) count runStart 0 with
        | some start =>
            rw [hresult] at hnext
            obtain ⟨hlow, hhigh, hall, hfirst⟩ := hnext
            exact ⟨by omega, hhigh, hall, fun s hs hfit => hfirst s (hmeets s hs hfit) hfit⟩
        | none =>
            rw [hresult] at hnext
            intro s hlow hhigh hall
            exact hnext s (hmeets s hlow hall) hhigh hall

theorem findFreeRun_first (m : BlockAllocMap) {n : ℕ} (hpos : 0 < n) (hint : ℕ) :
    (∃ start, m.findFreeRun n hint = some start ∧ hint ≤ start ∧ m.IsFreeRun start n ∧
      ∀ s, hint ≤ s → m.IsFreeRun s n → start ≤ s) ∨
    m.findFreeRun n hint = none ∧ ∀ s, hint ≤ s → ¬ m.IsFreeRun s n := by
  have hwalk := findFreeRunFrom_first m.freeMap hint (m.mapsize - hint) hint 0 hpos (Nat.zero_le _) (Or.inl rfl) fun b hlow hhigh => by omega
  rw [Nat.sub_zero] at hwalk
  unfold findFreeRun
  cases hresult : findFreeRunFrom m.freeMap n hint (m.mapsize - hint) hint 0 with
  | some start =>
      rw [hresult] at hwalk
      obtain ⟨hlow, hhigh, hall, hfirst⟩ := hwalk
      have hfits : start + n ≤ m.mapsize := by omega
      exact Or.inl ⟨start, rfl, hlow, ⟨hfits, hall⟩, fun s hs hrun => hfirst s hs hrun.2⟩
  | none =>
      rw [hresult] at hwalk
      refine Or.inr ⟨rfl, fun s hs hrun => hwalk s hs ?_ hrun.2⟩
      have hfits := hrun.1
      omega

/-- The two walks of `alloc_extent`. -/
theorem search_cases (m : BlockAllocMap) {n : ℕ} (hpos : 0 < n) (hint : ℕ) :
    (∃ start, ((m.findFreeRun n hint).orElse fun _ => m.findFreeRun n 0) = some start ∧
      m.IsFirstFit n hint start) ∨
    ((m.findFreeRun n hint).orElse fun _ => m.findFreeRun n 0) = none ∧ ∀ s, ¬ m.IsFreeRun s n := by
  rcases m.findFreeRun_first hpos hint with ⟨start, hfound, hlow, hrun, hfirst⟩ | ⟨hnone, hbehind⟩
  · exact Or.inl ⟨start, by rw [hfound]; rfl, hrun, Or.inl ⟨hlow, hfirst⟩⟩
  · rw [hnone, Option.orElse_none]
    rcases m.findFreeRun_first hpos 0 with ⟨start, hfound, -, hrun, hfirst⟩ | ⟨hnone', hnowhere⟩
    · exact Or.inl ⟨start, hfound, hrun, Or.inr ⟨hbehind, fun s => hfirst s (Nat.zero_le s)⟩⟩
    · exact Or.inr ⟨hnone', fun s => hnowhere s (Nat.zero_le s)⟩

/-- There is one first fit. -/
theorem IsFirstFit.unique {m : BlockAllocMap} {n hint start start' : ℕ} (h : m.IsFirstFit n hint start)
    (h' : m.IsFirstFit n hint start') : start' = start := by
  obtain ⟨hrun, ⟨hlow, hleast⟩ | ⟨hbehind, hleast⟩⟩ := h
  · obtain ⟨hrun', ⟨hlow', hleast'⟩ | ⟨hbehind', -⟩⟩ := h'
    · exact Nat.le_antisymm (hleast' start hlow hrun) (hleast start' hlow' hrun')
    · exact absurd hrun (hbehind' start hlow)
  · obtain ⟨hrun', ⟨hlow', -⟩ | ⟨-, hleast'⟩⟩ := h'
    · exact absurd hrun' (hbehind start' hlow')
    · exact Nat.le_antisymm (hleast' start hrun) (hleast start' hrun')

/-- The extent of `n` blocks from `start` on, as the allocator describes it. -/
def extentAt (start n : ℕ) : Pxd :=
  (Pxd.setAddress {} start).setLength n

/-- The extent that is returned lies at the first fit. -/
theorem exists_firstFit {m m' : BlockAllocMap} {n hint : ℕ} {pxd : Pxd}
    (h : m.allocExtent n hint = .ok (pxd, m')) :
    ∃ start, m.IsFirstFit n hint start ∧ pxd = extentAt start n := by
  obtain ⟨-, hpos, -⟩ := allocExtent_ok h
  unfold allocExtent at h
  split at h
  · cases h
  · rcases m.search_cases hpos hint with ⟨start, hfound, hfirst⟩ | ⟨hnone, -⟩
    · rw [hfound] at h
      cases h
      exact ⟨start, hfirst, rfl⟩
    · rw [hnone] at h
      cases h

/-! ## `alloc_extent` -/

/-- What a call of `alloc_extent` for `n` blocks has returned and changed. -/
structure Allocates (m : BlockAllocMap) (n hint : ℕ) (pxd : Pxd) (m' : BlockAllocMap) : Prop where
  length : pxd.length = n
  firstFit : m.IsFirstFit n hint pxd.address
  freeMap : ∀ b, m'.freeMap b =
    if pxd.address ≤ b ∧ b < pxd.address + n then false else m.freeMap b
  nfree : m'.nfree.toNat + n = m.nfree.toNat
  countsFree : m'.CountsFree

theorem allocates_of_ok {m m' : BlockAllocMap} {n hint : ℕ} {pxd : Pxd} (hmax : n < 2 ^ 24)
    (hsize : m.mapsize ≤ 2 ^ 40) (hcount : m.CountsFree) (h : m.allocExtent n hint = .ok (pxd, m')) :
    m.Allocates n hint pxd m' := by
  obtain ⟨start, hpos, hfits, hall, rfl, rfl⟩ := allocExtent_ok h
  have hlength : ((Pxd.setAddress {} start).setLength n).length = n := by
    rw [Pxd.length_setLength, Nat.mod_eq_of_lt hmax]
  have haddress : ((Pxd.setAddress {} start).setLength n).address = start := by
    rw [Pxd.address_setLength, Pxd.address_setAddress, Nat.mod_eq_of_lt (by omega)]
  have hle := hcount.le ⟨hfits, hall⟩
  have hnfree : (saturatingSub m.nfree n).toNat = m.nfree.toNat - n := by
    have hbound := m.nfree.toNat_lt
    unfold saturatingSub
    rw [UInt64.toNat_ofNat', Nat.mod_eq_of_lt (by omega)]
  refine ⟨hlength, ?_, fun b => ?_, ?_, ?_⟩
  · rw [haddress]
    unfold allocExtent at h
    rw [if_neg (by omega)] at h
    rcases m.search_cases hpos hint with ⟨first, hfound, hfirst⟩ | ⟨hnone, -⟩
    · rw [hfound] at h
      injection h with hpair
      have hstart := congrArg (fun pair => Pxd.address pair.1) hpair
      simp only [Pxd.address_setLength, Pxd.address_setAddress] at hstart
      have hfirstFits := hfirst.1.1
      rw [Nat.mod_eq_of_lt (by omega), Nat.mod_eq_of_lt (by omega)] at hstart
      rwa [← hstart]
    · rw [hnone] at h
      cases h
  · rw [haddress]
    rfl
  · simp only
    omega
  · unfold CountsFree at hcount ⊢
    have hmarked := countP_mark (f := m.freeMap) (g := mark m.freeMap start n false) hfits
      (fun b hlow hhigh => ⟨hall b hlow hhigh, if_pos ⟨hlow, hhigh⟩⟩) fun b hout => if_neg hout
    simp only
    omega

/-- A request is served if it fits somewhere. -/
theorem allocExtent_of_run {m : BlockAllocMap} {n s : ℕ} (hpos : 0 < n) (hrun : m.IsFreeRun s n)
    (hint : ℕ) : ∃ pxd m', m.allocExtent n hint = .ok (pxd, m') := by
  have hle : n ≤ m.mapsize := by
    have hfits := hrun.1
    omega
  unfold allocExtent
  rw [if_neg (by omega)]
  rcases m.search_cases hpos hint with ⟨start, hfound, -⟩ | ⟨-, hnone⟩
  · rw [hfound]
    exact ⟨_, _, rfl⟩
  · exact absurd hrun (hnone s)

/-- **The allocator takes exactly the first fit.** -/
theorem allocExtent_exact (m : BlockAllocMap) (n hint : ℕ) (hpos : 1 ≤ n) (hmax : n < 2 ^ 24)
    (hsize : m.mapsize ≤ 2 ^ 40) (hcount : m.CountsFree) :
    ((∃ pxd m', m.allocExtent n hint = .ok (pxd, m')) ↔ n ≤ m.mapsize ∧ ∃ s, m.IsFreeRun s n) ∧
      (∀ pxd m', m.allocExtent n hint = .ok (pxd, m') → m.Allocates n hint pxd m') ∧
      ∀ (v v' : Volume) (e : StorageError), v.bmap = some m →
        Volume.allocExtent n hint v = .error e v' → v' = v := by
  refine ⟨⟨?_, ?_⟩, fun pxd m' => allocates_of_ok hmax hsize hcount, ?_⟩
  · rintro ⟨pxd, m', h⟩
    obtain ⟨start, -, hfits, hall, -⟩ := allocExtent_ok h
    exact ⟨by omega, start, hfits, hall⟩
  · rintro ⟨-, s, hrun⟩
    exact allocExtent_of_run hpos hrun hint
  · intro v v' e hbmap h
    unfold Volume.allocExtent at h
    rw [bind_ok (get_apply v), hbmap] at h
    cases hresult : m.allocExtent n hint with
    | ok result =>
        simp only [hresult] at h
        cases h
    | error _ =>
        simp only [hresult] at h
        cases h
        rfl

/-- Blocks 2 and 4 to 6 of eight are free: from hint 3 on, two blocks are found at block 4. -/
theorem allocExtent_exact_behindHint :
    let m : BlockAllocMap :=
      { mapsize := 8, nfree := 4, freeMap := fun b => b == 2 || (4 ≤ b && b < 7), ndmap := 1,
        dmapStart := 17, dmapLen := 2 }
    1 ≤ 2 ∧ 2 < 2 ^ 24 ∧ m.mapsize ≤ 2 ^ 40 ∧ m.CountsFree ∧
      ∃ pxd m', m.allocExtent 2 3 = .ok (pxd, m') ∧ m.Allocates 2 3 pxd m' := by
  intro m
  have hsize : m.mapsize ≤ 2 ^ 40 := by decide
  have hcount : m.CountsFree := show _ = _ by decide
  refine ⟨by decide, by decide, hsize, hcount, _, _, rfl, ?_⟩
  exact (allocExtent_exact m 2 3 (by decide) (by decide) hsize hcount).2.1 _ _ rfl

end BlockAllocMap

end JfsFuse
