import JfsFuse.Alloc.FirstFit
import Mathlib.Data.List.Induction

/-!
# Rolling the allocator back

`rollback` has two logs to go by, the extents allocated and the extents freed since the last
commit.  It frees all of the first and then takes all of the second, in whatever order the calls
came.  A block that was allocated and then freed again is in both logs, and is taken.
-/

namespace JfsFuse

open Program

namespace BlockAllocMap

/-- The blocks of the extent are in use. -/
def WhollyAllocated (m : BlockAllocMap) (pxd : Pxd) : Prop :=
  ∀ b, pxd.address ≤ b → b < pxd.address + pxd.length → b < m.mapsize ∧ m.freeMap b = false

/-- A call that a transaction makes: an allocation that succeeds, or a free of an extent that is in
use.  A free of no blocks behind the end of the map is refused and changes nothing. -/
inductive Call : BlockAllocMap → AllocOp → BlockAllocMap → Prop
  | alloc {m m' : BlockAllocMap} {nblocks hint : ℕ} {pxd : Pxd} (hwidth : nblocks < 2 ^ 32)
      (hrun : m.allocExtent nblocks hint = .ok (pxd, m')) : Call m (.alloc nblocks hint) m'
  | free {m : BlockAllocMap} {pxd : Pxd} (hused : m.WhollyAllocated pxd) :
      Call m (.free pxd) (m.afterCall (m.freeExtent pxd))

/-- A sequence of such calls. -/
inductive Calls : BlockAllocMap → List AllocOp → BlockAllocMap → Prop
  | nil (m : BlockAllocMap) : Calls m [] m
  | snoc {m m' m'' : BlockAllocMap} {ops : List AllocOp} {op : AllocOp} (hcalls : Calls m ops m')
      (hcall : Call m' op m'') : Calls m (ops ++ [op]) m''

/-! ## What a rollback leaves -/

/-- The block lies in one of the extents. -/
def Covers (extents : List (ℕ × ℕ)) (b : ℕ) : Prop :=
  ∃ e ∈ extents, e.1 ≤ b ∧ b < e.1 + e.2

/-- The number of blocks of the extents. -/
def blocksOf (extents : List (ℕ × ℕ)) : ℕ :=
  (extents.map Prod.snd).sum

theorem covers_snoc {extents : List (ℕ × ℕ)} {start n b : ℕ} :
    Covers (extents ++ [(start, n)]) b ↔ Covers extents b ∨ start ≤ b ∧ b < start + n := by
  unfold Covers
  simp only [List.mem_append, List.mem_singleton, or_and_right, exists_or, exists_eq_left]

theorem blocksOf_snoc (extents : List (ℕ × ℕ)) (start n : ℕ) :
    blocksOf (extents ++ [(start, n)]) = blocksOf extents + n := by
  simp [blocksOf]

instance (extents : List (ℕ × ℕ)) (b : ℕ) : Decidable (Covers extents b) :=
  inferInstanceAs (Decidable (∃ e ∈ extents, _))

/-- The map after one of the two loops of `rollback`. -/
theorem freeMap_foldl_mark (extents : List (ℕ × ℕ)) (free : Bool) (change : UInt64 → ℕ → UInt64)
    (freeMap : ℕ → Bool) (nfree : UInt64) (b : ℕ) :
    (extents.foldl (fun (map : (ℕ → Bool) × UInt64) e =>
      (mark map.1 e.1 e.2 free, change map.2 e.2)) (freeMap, nfree)).1 b =
      if Covers extents b then free else freeMap b := by
  induction extents using List.reverseRecOn with
  | nil => rfl
  | append_singleton extents e ih =>
      obtain ⟨start, n⟩ := e
      rw [List.foldl_append, List.foldl_cons, List.foldl_nil]
      simp only [mark, ih, covers_snoc]
      by_cases hin : start ≤ b ∧ b < start + n
      · rw [if_pos hin, if_pos (Or.inr hin)]
      · simp only [hin, or_false, if_false]

theorem nfree_foldl_add (extents : List (ℕ × ℕ)) (free : Bool) (map : (ℕ → Bool) × UInt64) :
    (extents.foldl (fun (map : (ℕ → Bool) × UInt64) e =>
      (mark map.1 e.1 e.2 free, map.2 + UInt64.ofNat e.2)) map).2 =
      map.2 + UInt64.ofNat (blocksOf extents) := by
  induction extents using List.reverseRecOn with
  | nil => exact (UInt64.add_zero _).symm
  | append_singleton extents e ih =>
      rw [List.foldl_append, List.foldl_cons, List.foldl_nil, blocksOf_snoc, UInt64.ofNat_add,
        ← UInt64.add_assoc, ← ih]

theorem nfree_foldl_sub (extents : List (ℕ × ℕ)) (free : Bool) (map : (ℕ → Bool) × UInt64) :
    (extents.foldl (fun (map : (ℕ → Bool) × UInt64) e =>
      (mark map.1 e.1 e.2 free, map.2 - UInt64.ofNat e.2)) map).2 =
      map.2 - UInt64.ofNat (blocksOf extents) := by
  induction extents using List.reverseRecOn with
  | nil => exact (UInt64.sub_zero _).symm
  | append_singleton extents e ih =>
      rw [List.foldl_append, List.foldl_cons, List.foldl_nil, blocksOf_snoc, UInt64.ofNat_add, ih]
      grind

/-- A block in the log of frees is taken, another one in the log of allocations is freed. -/
theorem freeMap_rollback (m : BlockAllocMap) (b : ℕ) :
    m.rollback.freeMap b =
      if Covers m.freed b then false else if Covers m.allocated b then true else m.freeMap b := by
  unfold rollback
  simp only
  rw [freeMap_foldl_mark m.freed false fun nfree n => nfree - UInt64.ofNat n,
    freeMap_foldl_mark m.allocated true fun nfree n => nfree + UInt64.ofNat n]

theorem nfree_rollback (m : BlockAllocMap) :
    m.rollback.nfree =
      m.nfree + UInt64.ofNat (blocksOf m.allocated) - UInt64.ofNat (blocksOf m.freed) := by
  unfold rollback
  simp only
  rw [nfree_foldl_sub, nfree_foldl_add]

/-! ## The logs of a transaction -/

/-- The block lies in an extent that one of the calls frees. -/
def FreedBy (ops : List AllocOp) (b : ℕ) : Prop :=
  ∃ pxd, AllocOp.free pxd ∈ ops ∧ pxd.address ≤ b ∧ b < pxd.address + pxd.length

/-- What the logs of `w` say about the committed map `m`, after the calls `ops`. -/
structure Logged (m w : BlockAllocMap) (ops : List AllocOp) : Prop where
  mapsize : w.mapsize = m.mapsize
  countsFree : w.CountsFree
  untouched : ∀ b, ¬ Covers w.allocated b → ¬ Covers w.freed b → w.freeMap b = m.freeMap b
  taken : ∀ b, Covers w.allocated b → ¬ Covers w.freed b → m.freeMap b = true
  freed : ∀ b, Covers w.freed b ↔ FreedBy ops b
  nfree : w.nfree + UInt64.ofNat (blocksOf w.allocated) - UInt64.ofNat (blocksOf w.freed) = m.nfree

namespace Logged

variable {m w : BlockAllocMap} {ops : List AllocOp}

theorem start (hcount : m.CountsFree) (hallocated : m.allocated = []) (hfreed : m.freed = []) :
    Logged m m [] := by
  have hnone : ∀ b, ¬ Covers [] b := fun b hcovers => by
    obtain ⟨e, he, -⟩ := hcovers
    cases he
  refine ⟨rfl, hcount, fun _ _ _ => rfl, fun b hcovers => ?_, fun b => ?_, ?_⟩
  · rw [hallocated] at hcovers
    exact absurd hcovers (hnone b)
  · rw [hfreed]
    refine ⟨fun hcovers => absurd hcovers (hnone b), ?_⟩
    rintro ⟨pxd, hmem, -⟩
    cases hmem
  · rw [hallocated, hfreed]
    exact UInt64.add_sub_cancel ..

theorem freedBy_alloc (nblocks hint b : ℕ) : FreedBy (ops ++ [.alloc nblocks hint]) b ↔ FreedBy ops b := by
  unfold FreedBy
  simp

theorem freedBy_free (pxd : Pxd) (b : ℕ) :
    FreedBy (ops ++ [.free pxd]) b ↔
      FreedBy ops b ∨ pxd.address ≤ b ∧ b < pxd.address + pxd.length := by
  unfold FreedBy
  simp only [List.mem_append, List.mem_singleton, AllocOp.free.injEq, or_and_right, exists_or,
    exists_eq_left]

theorem alloc (h : Logged m w ops) {nblocks hint : ℕ} (hwidth : nblocks < 2 ^ 32) {w' : BlockAllocMap}
    {pxd : Pxd} (hrun : w.allocExtent nblocks hint = .ok (pxd, w')) :
    Logged m w' (ops ++ [.alloc nblocks hint]) := by
  obtain ⟨start, -, hfits, hall, -, rfl⟩ := allocExtent_ok hrun
  have hle := h.countsFree.le ⟨hfits, hall⟩
  have hnfree : saturatingSub w.nfree nblocks = w.nfree - UInt64.ofNat nblocks := by
    unfold saturatingSub
    rw [UInt64.ofNat_sub hle, UInt64.ofNat_toNat]
  have hentry : nblocks % 2 ^ 32 = nblocks := Nat.mod_eq_of_lt hwidth
  refine ⟨h.mapsize, ?_, fun b hnot hfreed => ?_, fun b hcovers hfreed => ?_, fun b => ?_, ?_⟩ <;>
    simp only [hentry, covers_snoc, not_or] at *
  · have hmarked := countP_mark (f := w.freeMap) (g := mark w.freeMap start nblocks false) hfits
      (fun b hlow hhigh => ⟨hall b hlow hhigh, if_pos ⟨hlow, hhigh⟩⟩) fun b hout => if_neg hout
    have hcount := h.countsFree
    have hbound := w.nfree.toNat_lt
    unfold CountsFree saturatingSub at *
    rw [UInt64.toNat_ofNat', Nat.mod_eq_of_lt (by omega)]
    simp only
    omega
  · exact (if_neg hnot.2).trans (h.untouched b hnot.1 hfreed)
  · -- a block that is taken here has either been taken before or was free all the time
    by_cases hold : Covers w.allocated b
    · exact h.taken b hold hfreed
    · have hin := hcovers.resolve_left hold
      rw [← h.untouched b hold hfreed]
      exact hall b hin.1 hin.2
  · rw [freedBy_alloc]
    exact h.freed b
  · have hnfree' := h.nfree
    rw [hnfree, blocksOf_snoc, UInt64.ofNat_add]
    grind

theorem free (h : Logged m w ops) (hsize : m.mapsize < 2 ^ 64) {pxd : Pxd} (hused : w.WhollyAllocated pxd) :
    Logged m (w.afterCall (w.freeExtent pxd)) (ops ++ [.free pxd]) := by
  cases hrun : w.freeExtent pxd with
  | error e =>
      -- only an extent without blocks is refused
      have hempty : pxd.length = 0 := by
        by_contra hlength
        have hlast := (hused (pxd.address + pxd.length - 1) (by omega) (by omega)).1
        unfold freeExtent at hrun
        simp only at hrun
        rw [if_neg (by omega)] at hrun
        cases hrun
      refine ⟨h.mapsize, h.countsFree, h.untouched, h.taken, fun b => ?_, h.nfree⟩
      rw [freedBy_free, hempty]
      have hnone : ¬ (pxd.address ≤ b ∧ b < pxd.address + 0) := by omega
      simp only [hnone, or_false]
      exact h.freed b
  | ok w' =>
      obtain ⟨hfits, rfl⟩ := freeExtent_ok hrun
      refine ⟨h.mapsize, ?_, fun b hnot hfreed => ?_, fun b hcovers hfreed => ?_, fun b => ?_, ?_⟩ <;>
        simp only [afterCall, covers_snoc, not_or] at *
      · have hmarked := countP_mark (f := mark w.freeMap pxd.address pxd.length true) (g := w.freeMap) hfits
          (fun b hlow hhigh => ⟨if_pos ⟨hlow, hhigh⟩, (hused b hlow hhigh).2⟩) fun b hout => (if_neg hout).symm
        have hle := List.countP_le_length (p := mark w.freeMap pxd.address pxd.length true)
          (l := List.range w.mapsize)
        have hcount := h.countsFree
        have hmapsize := h.mapsize
        have hlength := pxd.length_lt
        rw [List.length_range] at hle
        unfold CountsFree at *
        rw [UInt64.toNat_add, UInt64.toNat_ofNat']
        simp only
        omega
      · exact (if_neg hfreed.2).trans (h.untouched b hnot hfreed.1)
      · exact h.taken b hcovers hfreed.1
      · rw [freedBy_free, h.freed b]
      · have hnfree := h.nfree
        rw [blocksOf_snoc, UInt64.ofNat_add]
        grind

end Logged

theorem Calls.logged {m w : BlockAllocMap} {ops : List AllocOp} (hcalls : Calls m ops w)
    (hsize : m.mapsize < 2 ^ 64) (hcount : m.CountsFree) (hallocated : m.allocated = [])
    (hfreed : m.freed = []) : Logged m w ops := by
  induction hcalls with
  | nil => exact .start hcount hallocated hfreed
  | snoc _ hcall ih =>
      cases hcall with
      | alloc hwidth hrun => exact ih.alloc hwidth hrun
      | free hused => exact ih.free hsize hused

/-- **A rollback restores the map exactly when no call has freed a block that was free before.** -/
theorem rollback_restores_iff {m w : BlockAllocMap} {ops : List AllocOp} (hsize : m.mapsize < 2 ^ 64)
    (hcount : m.CountsFree) (hallocated : m.allocated = []) (hfreed : m.freed = [])
    (hcalls : Calls m ops w) :
    (w.rollback.freeMap = m.freeMap ∧ w.rollback.nfree = m.nfree) ↔
      ∀ b, FreedBy ops b → m.freeMap b = false := by
  have h := hcalls.logged hsize hcount hallocated hfreed
  have hnfree : w.rollback.nfree = m.nfree := by rw [nfree_rollback, h.nfree]
  constructor
  · rintro ⟨hmap, -⟩ b hfreedBy
    rw [← hmap, freeMap_rollback, if_pos ((h.freed b).mpr hfreedBy)]
  · intro hfresh
    refine ⟨funext fun b => ?_, hnfree⟩
    rw [freeMap_rollback]
    split
    next hcovers => exact (hfresh b ((h.freed b).mp hcovers)).symm
    next hcovers =>
      split
      next htaken => exact (h.taken b htaken hcovers).symm
      next huntouched => exact h.untouched b huntouched hcovers

/-- A map of eight blocks of which the first four are in use. -/
def halfUsed : BlockAllocMap where
  mapsize := 8
  nfree := 4
  freeMap := fun b => 4 ≤ b && b < 8
  ndmap := 1
  dmapStart := 17
  dmapLen := 2

theorem countsFree_halfUsed : halfUsed.CountsFree := by
  unfold CountsFree
  decide

/-- The first block is freed, and a free one is taken. -/
theorem rollback_restores_iff_freeThenAlloc :
    halfUsed.mapsize < 2 ^ 64 ∧ halfUsed.CountsFree ∧ halfUsed.allocated = [] ∧ halfUsed.freed = [] ∧
      ∃ w, Calls halfUsed [.free { lenAddr := 1 }, .alloc 1 4] w ∧
        w.rollback.freeMap = halfUsed.freeMap ∧ w.rollback.nfree = halfUsed.nfree := by
  have hsize : halfUsed.mapsize < 2 ^ 64 := by decide
  have hused : halfUsed.WhollyAllocated { lenAddr := 1 } := by
    intro b _ hhigh
    have hfirst : b < 1 := hhigh
    rw [Nat.lt_one_iff.mp hfirst]
    decide
  have hfree : (halfUsed.afterCall (halfUsed.freeExtent { lenAddr := 1 })).IsFreeRun 4 1 := by
    refine ⟨by decide, fun b hlow hhigh => ?_⟩
    rw [Nat.le_antisymm (Nat.le_of_lt_succ hhigh) hlow]
    decide
  obtain ⟨pxd, w, hrun⟩ := allocExtent_of_run Nat.one_pos hfree 4
  have hcalls : Calls halfUsed [.free { lenAddr := 1 }, .alloc 1 4] w :=
    .snoc (.snoc (.nil _) (.free hused)) (.alloc (by decide) hrun)
  refine ⟨hsize, countsFree_halfUsed, rfl, rfl, w, hcalls, ?_⟩
  refine (rollback_restores_iff hsize countsFree_halfUsed rfl rfl hcalls).mpr ?_
  rintro b ⟨pxd, hmem, -, hhigh⟩
  have hpxd : pxd = { lenAddr := 1 } := by simpa using hmem
  rw [hpxd] at hhigh
  have hfirst : b < 1 := hhigh
  rw [Nat.lt_one_iff.mp hfirst]
  rfl

/-- **A block that is allocated and freed again is taken by the rollback.** -/
theorem rollback_takes_freed_block :
    halfUsed.CountsFree ∧ halfUsed.allocated = [] ∧ halfUsed.freed = [] ∧
      ∃ pxd w, Calls halfUsed [.alloc 1 4, .free pxd] w ∧ w.rollback.freeMap 4 = false ∧
        halfUsed.freeMap 4 = true := by
  have hused : (halfUsed.perform (.alloc 1 4)).WhollyAllocated { lenAddr := 1, addr2 := 4 } := by
    intro b hlow hhigh
    have hfour : b = 4 := Nat.le_antisymm (Nat.le_of_lt_succ hhigh) hlow
    rw [hfour]
    decide
  exact ⟨countsFree_halfUsed, rfl, rfl, _, _, .snoc (.snoc (.nil _) (.alloc (by decide) rfl)) (.free hused),
    by decide, by decide⟩

end BlockAllocMap

end JfsFuse
