import JfsFuse.Journal.Scan
import Mathlib.Data.List.TakeWhile

/-!
# Both scanners stop at the same place

`next_forward` and `find_end` walk over the log separately.  Both go from descriptor to
descriptor, whatever the log contains, and each step passes a whole descriptor, so that the walk
ends soon after the end of the area (`walk_finished`).  The one difference is that
`next_forward` also reads the payload.  Where that succeeds, the two stop at the same position.
-/

namespace JfsFuse

open ByteBuf Program

namespace LogReader

/-- How a walk over the log ends. -/
inductive WalkEnd
  /-- `next_forward` returned nothing at `pos`. -/
  | stopped (pos : ℕ)
  | failed (e : StorageError)
  /-- The steps were used up. -/
  | unfinished
  deriving DecidableEq

/-- `next_forward` again and again: the records it returns, each with the position after it,
and how the walk ends. -/
def walk (areaEnd : ℕ) : ℕ → ℕ → Storage → List (LogRecord × ℕ) × WalkEnd
  | 0, _, _ => ([], .unfinished)
  | steps + 1, pos, s =>
      match nextForward areaEnd pos s with
      | .ok none _ => ([], .stopped pos)
      | .ok (some (record, pos')) s' =>
          ((record, pos') :: (walk areaEnd steps pos' s').1, (walk areaEnd steps pos' s').2)
      | .error e _ => ([], .failed e)

/-- `find_end`, over the whole area. -/
def findEnd (logsuper : LogSuper) (dataStart : ℕ) : StorageM ℕ :=
  let areaSize := logsuper.size.toNat * logPSize
  findEndFrom (dataStart + areaSize) areaSize dataStart

/-! ## Every step passes a descriptor -/

/-- A returned record lies behind `pos`, on a failing device as well. -/
theorem nextForward_advances {s s' : Storage} {areaEnd pos pos' : ℕ} {record : LogRecord}
    (h : nextForward areaEnd pos s = .ok (some (record, pos')) s') :
    pos < areaEnd ∧ pos + lrdSize ≤ pos' := by
  unfold nextForward at h
  by_cases hend : areaEnd ≤ pos
  · rw [if_pos hend] at h
    cases h
  rw [if_neg hend] at h
  obtain ⟨peek, s₁, -, h⟩ := of_bind_ok h
  by_cases hzero : peek = zeros 4
  · rw [if_pos hzero] at h
    cases h
  rw [if_neg hzero] at h
  obtain ⟨bytes, s₂, -, h⟩ := of_bind_ok h
  obtain ⟨data, s₃, -, h⟩ := of_bind_ok h
  cases h
  have htotal := lrdSize_le_recordTotal (parseLrd bytes).length.toNat
  exact ⟨by omega, by omega⟩

theorem walk_of_areaEnd_le {areaEnd pos : ℕ} (h : areaEnd ≤ pos) (steps : ℕ) (s : Storage) :
    walk areaEnd (steps + 1) pos s = ([], .stopped pos) := by
  have hnone : nextForward areaEnd pos s = .ok none s := by
    unfold nextForward
    rw [if_pos h]
    rfl
  rw [walk, hnone]

/-- A walk of enough steps comes to an end. -/
theorem walk_finished {areaEnd steps pos : ℕ} (hsteps : areaEnd ≤ pos + lrdSize * steps) (s : Storage) :
    (walk areaEnd (steps + 1) pos s).2 ≠ .unfinished := by
  induction steps generalizing pos s with
  | zero =>
      rw [walk_of_areaEnd_le (by omega)]
      simp
  | succ steps ih =>
      rw [walk]
      cases hnext : nextForward areaEnd pos s with
      | error e s' => simp
      | ok next s' =>
          cases next with
          | none => simp
          | some found =>
              obtain ⟨record, pos'⟩ := found
              have hpos' := (nextForward_advances hnext).2
              exact ih (by rw [Nat.mul_succ] at hsteps; omega) s'

/-! ## On a storage that does not fail -/

section

variable {s : Storage} (hfaults : s.faults = []) {areaEnd dataStart logEnd fuel pos : ℕ}

include hfaults

theorem walk_succ (steps : ℕ) :
    walk areaEnd (steps + 1) pos s =
      match nextResult s areaEnd pos with
      | .error e => ([], .failed e)
      | .ok none => ([], .stopped pos)
      | .ok (some (record, pos')) =>
          ((record, pos') :: (walk areaEnd steps pos' s).1, (walk areaEnd steps pos' s).2) := by
  have hnext := nextForward_eq hfaults areaEnd pos
  rw [walk]
  cases hresult : nextResult s areaEnd pos with
  | error e =>
      rw [hresult, returnExcept_error] at hnext
      rw [hnext]
  | ok next =>
      rw [hresult, returnExcept_ok] at hnext
      rw [hnext]
      cases next <;> rfl

/-- The position a walk stops at is the one `find_end` finds. -/
theorem findEndFrom_of_stopped {steps last : ℕ} (hfuel : areaEnd ≤ pos + lrdSize * fuel)
    (hwalk : (walk areaEnd steps pos s).2 = .stopped last) :
    findEndFrom areaEnd fuel pos s = .ok last s := by
  induction steps generalizing pos fuel with
  | zero => cases hwalk
  | succ steps ih =>
      rw [walk_succ hfaults] at hwalk
      cases hnext : nextResult s areaEnd pos with
      | error e =>
          rw [hnext] at hwalk
          cases hwalk
      | ok next =>
          rw [hnext] at hwalk
          cases next with
          | none =>
              cases hwalk
              exact findEndFrom_of_none hfaults hnext fuel
          | some found =>
              obtain ⟨record, pos'⟩ := found
              have hadvance := nextForward_advances ((nextForward_eq hfaults areaEnd pos).trans
                (by rw [hnext, returnExcept_ok]))
              cases fuel with
              | zero => omega
              | succ fuel =>
                  rw [findEndFrom_of_some hfaults hnext]
                  exact ih (by rw [Nat.mul_succ] at hfuel; omega) hwalk

/-- What `find_end` returns lies at or behind every record of a walk. -/
theorem le_findEndFrom {s' : Storage} {steps stop : ℕ} (hfuel : areaEnd ≤ pos + lrdSize * fuel)
    (hfind : findEndFrom areaEnd fuel pos s = .ok stop s') :
    ∀ found ∈ (walk areaEnd steps pos s).1, found.2 ≤ stop := by
  induction steps generalizing pos fuel with
  | zero => exact fun found hfound => absurd hfound List.not_mem_nil
  | succ steps ih =>
      rw [walk_succ hfaults]
      cases hnext : nextResult s areaEnd pos with
      | error e => exact fun found hfound => absurd hfound List.not_mem_nil
      | ok next =>
          cases next with
          | none => exact fun found hfound => absurd hfound List.not_mem_nil
          | some found =>
              obtain ⟨record, pos'⟩ := found
              have hadvance := nextForward_advances ((nextForward_eq hfaults areaEnd pos).trans
                (by rw [hnext, returnExcept_ok]))
              cases fuel with
              | zero => omega
              | succ fuel =>
                  rw [findEndFrom_of_some hfaults hnext] at hfind
                  have hstop := (findEndFrom_advances hfaults hfind).2
                  have hrest := ih (by rw [Nat.mul_succ] at hfuel; omega) hfind
                  intro found hfound
                  rcases List.mem_cons.mp hfound with rfl | hfound
                  · exact hstop
                  · exact hrest found hfound

/-- The records collected are those of the walk, up to the first that ends behind `logEnd`. -/
theorem collect_eq_takeWhile {s' : Storage} {steps last : ℕ} {records : List LogRecord}
    (hsteps : areaEnd ≤ pos + lrdSize * steps) (hfuel : areaEnd ≤ pos + lrdSize * fuel)
    (hcollect : collect areaEnd dataStart logEnd fuel pos s = .ok (records, last) s') :
    records = ((walk areaEnd (steps + 1) pos s).1.takeWhile
      fun found => found.2 - dataStart ≤ logEnd).map Prod.fst := by
  induction fuel generalizing pos steps records with
  | zero =>
      rw [walk_of_areaEnd_le (by omega)]
      cases hcollect
      rfl
  | succ fuel ih =>
      rw [collect_succ hfaults] at hcollect
      rw [walk_succ hfaults]
      cases hnext : nextResult s areaEnd pos with
      | error e =>
          rw [hnext] at hcollect
          cases hcollect
      | ok next =>
          rw [hnext] at hcollect
          cases next with
          | none =>
              cases hcollect
              rfl
          | some found =>
              obtain ⟨record, pos'⟩ := found
              have hadvance := nextForward_advances ((nextForward_eq hfaults areaEnd pos).trans
                (by rw [hnext, returnExcept_ok]))
              simp only [List.takeWhile_cons] at hcollect ⊢
              by_cases hend : logEnd < pos' - dataStart
              · rw [if_pos hend] at hcollect
                cases hcollect
                rw [if_neg (by rw [decide_eq_true_eq]; omega)]
                rfl
              · rw [if_neg hend] at hcollect
                rw [if_pos (by rw [decide_eq_true_eq]; omega), List.map_cons]
                cases hrest : collect areaEnd dataStart logEnd fuel pos' s with
                | error e s₁ =>
                    rw [hrest] at hcollect
                    cases hcollect
                | ok result s₁ =>
                    rw [hrest] at hcollect
                    cases hcollect
                    cases steps with
                    | zero => omega
                    | succ steps =>
                        rw [← ih (by rw [Nat.mul_succ] at hsteps; omega)
                          (by rw [Nat.mul_succ] at hfuel; omega) hrest]

/-- Where the walk stops, the records are collected without an error. -/
theorem exists_collect_of_stopped {steps last : ℕ} (hwalk : (walk areaEnd steps pos s).2 = .stopped last)
    (fuel : ℕ) :
    ∃ collected, collect areaEnd dataStart logEnd fuel pos s = .ok collected s := by
  induction fuel generalizing pos steps with
  | zero => exact ⟨_, rfl⟩
  | succ fuel ih =>
      cases steps with
      | zero => cases hwalk
      | succ steps =>
          rw [walk_succ hfaults] at hwalk
          rw [collect_succ hfaults]
          cases hnext : nextResult s areaEnd pos with
          | error e =>
              rw [hnext] at hwalk
              cases hwalk
          | ok next =>
              rw [hnext] at hwalk
              cases next with
              | none => exact ⟨_, rfl⟩
              | some found =>
                  obtain ⟨record, pos'⟩ := found
                  simp only
                  by_cases hend : logEnd < pos' - dataStart
                  · exact ⟨_, if_pos hend⟩
                  · obtain ⟨collected, hcollected⟩ := ih hwalk
                    rw [if_neg hend, hcollected]
                    exact ⟨_, rfl⟩

end

/-! ## The scan of a replay -/

/-- **The forward scan comes to an end, where `find_end` ends, and it collects what ends inside the
log.** -/
theorem walk_consistent (logsuper : LogSuper) (dataStart steps : ℕ) (s : Storage) (hfaults : s.faults = [])
    (hsteps : logsuper.size.toNat * logPSize ≤ lrdSize * steps) :
    let areaEnd := dataStart + logsuper.size.toNat * logPSize
    let found := walk areaEnd (steps + 1) dataStart s
    (∀ pos record pos' (t t' : Storage), nextForward areaEnd pos t = .ok (some (record, pos')) t' →
        pos + lrdSize ≤ pos') ∧
      (∀ t, (walk areaEnd (steps + 1) dataStart t).2 ≠ .unfinished) ∧
      (∀ last, found.2 = .stopped last → findEnd logsuper dataStart s = .ok last s ∧
        ∃ collected, scan logsuper dataStart s = .ok collected s) ∧
      ∀ records last s', scan logsuper dataStart s = .ok (records, last) s' →
        records = (found.1.takeWhile fun record =>
          logsuper.logEnd.toNat = 0 ∨ record.2 - dataStart ≤ logsuper.logEnd.toNat).map Prod.fst := by
  intro areaEnd found
  have hfuel : areaEnd ≤ dataStart + lrdSize * (logsuper.size.toNat * logPSize) := by
    have hle := Nat.le_mul_of_pos_left (logsuper.size.toNat * logPSize) (show 0 < lrdSize by decide)
    omega
  have hlast : areaEnd ≤ dataStart + lrdSize * steps := by omega
  refine ⟨fun pos record pos' t t' hnext => (nextForward_advances hnext).2, walk_finished hlast,
    fun last hstopped => ?_, fun records last s' hscan => ?_⟩
  · have hfind : findEndFrom areaEnd (logsuper.size.toNat * logPSize) dataStart s = .ok last s :=
      findEndFrom_of_stopped hfaults hfuel hstopped
    refine ⟨hfind, ?_⟩
    unfold scan
    by_cases hend : 0 < logsuper.logEnd.toNat
    · rw [if_pos hend]
      exact exists_collect_of_stopped hfaults hstopped _
    · rw [if_neg hend, bind_ok hfind]
      exact exists_collect_of_stopped hfaults hstopped _
  · unfold scan at hscan
    by_cases hend : 0 < logsuper.logEnd.toNat
    · rw [if_pos hend] at hscan
      have hnonzero : logsuper.logEnd.toNat ≠ 0 := by omega
      simp only [hnonzero, false_or]
      exact collect_eq_takeWhile hfaults hlast hfuel hscan
    · rw [if_neg hend] at hscan
      obtain ⟨stop, s₁, hfind, hcollect⟩ := of_bind_ok hscan
      obtain ⟨rfl, -⟩ := findEndFrom_advances hfaults hfind
      -- the end found is an absolute position, so no record ends behind it
      have hall : ∀ record ∈ found.1, record.2 ≤ stop := le_findEndFrom hfaults hfuel hfind
      rw [collect_eq_takeWhile hfaults hlast hfuel hcollect]
      congr 1
      have hzero : logsuper.logEnd.toNat = 0 := by omega
      rw [List.takeWhile_eq_self_iff.mpr, List.takeWhile_eq_self_iff.mpr]
      · exact fun record _ => decide_eq_true (.inl hzero)
      · intro record hrecord
        have hle := hall record hrecord
        exact decide_eq_true (by omega)

/-- A log of one page with a commit record in it. -/
def oneCommit : Storage where
  backend := .memory
  size := 4096
  data := fun i => (lrdBytes { logtid := 1, type := logCommit }).getD i 0

theorem walk_consistent_oneCommit :
    oneCommit.faults = [] ∧ findEnd { size := 1 } 0 oneCommit = .ok 36 oneCommit :=
  ⟨rfl, ((walk_consistent { size := 1 } 0 114 oneCommit rfl (by decide)).2.2.1 36 (by decide)).1⟩

end LogReader

end JfsFuse
