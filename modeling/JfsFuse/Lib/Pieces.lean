import JfsFuse.Lib.Program

/-!
# Transfers in pieces

A transfer of `total` units is made by calls that each move some of the units that are left, until all
are moved.  A call that moves none ends the transfer with an error.  Every other call moves at least
one, so `total` calls are enough.
-/

namespace Pieces

open Program

variable {ε σ : Type}

/-- `piece` moves some of the units from the `done` first ones on, and returns their number; `stalled` is the
error when it moves none. -/
def transfer (piece : ℕ → EStateM ε σ ℕ) (stalled : ℕ → ε) (total : ℕ) : ℕ → ℕ → EStateM ε σ Unit
  | 0, _ => return ()
  | fuel + 1, done =>
      if total ≤ done then return ()
      else do
        let n ← piece done
        if n = 0 then throw (stalled done) else transfer piece stalled total fuel (done + n)

/-- How a transfer ends: with all units moved, or with an error behind a part of them.  `I done` holds of the
states in which the `done` first units are moved. -/
def Ends (piece : ℕ → EStateM ε σ ℕ) (stalled : ℕ → ε) (total : ℕ) (I : ℕ → σ → Prop) :
    EStateM.Result ε σ Unit → Prop
  | .ok _ s' => I total s'
  | .error e s' => ∃ done < total, ∃ s, I done s ∧ (piece done s = .ok 0 s' ∧ e = stalled done ∨ piece done s = .error e s')

variable {piece : ℕ → EStateM ε σ ℕ} {stalled : ℕ → ε} {total : ℕ} {I : ℕ → σ → Prop}

variable (stalled) in
/-- **The rule of transfers.**  If each call that returns `n` moves `n` of the units that are left, then the
transfer ends as it should. -/
theorem transfer_ends (hpiece : ∀ done s n s', done < total → I done s → piece done s = .ok n s' →
      done + n ≤ total ∧ I (done + n) s') {fuel done : ℕ} (hfuel : total - done ≤ fuel) (hdone : done ≤ total) {s : σ}
    (hstart : I done s) : Ends piece stalled total I (transfer piece stalled total fuel done s) := by
  induction fuel generalizing done s with
  | zero =>
      have hall : done = total := by omega
      rw [hall] at hstart
      exact hstart
  | succ fuel ih =>
      unfold transfer
      by_cases hall : total ≤ done
      · rw [if_pos hall]
        rw [Nat.le_antisymm hdone hall] at hstart
        exact hstart
      · rw [if_neg hall]
        have hlt : done < total := Nat.lt_of_not_le hall
        cases hrun : piece done s with
        | error e s' =>
            rw [bind_error hrun]
            exact ⟨done, hlt, s, hstart, .inr hrun⟩
        | ok n s' =>
            rw [bind_ok hrun]
            obtain ⟨hle, hnext⟩ := hpiece done s n s' hlt hstart hrun
            by_cases hnone : n = 0
            · rw [if_pos hnone]
              rw [hnone] at hrun
              exact ⟨done, hlt, s, hstart, .inl ⟨hrun, rfl⟩⟩
            · rw [if_neg hnone]
              exact ih (by omega) hle hnext

end Pieces
