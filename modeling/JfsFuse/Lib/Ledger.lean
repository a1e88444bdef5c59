import Mathlib.Data.Finmap

/-!
# Tables with a history

A table holds one value under each key.  A run of entries puts values under keys and drops keys; what
the table holds under a key is what was put there last, unless the key was dropped since.
-/

section Lookup

variable {K V : Type} [DecidableEq K] (m : Finmap fun _ : K => V) (key key' : K)

theorem Finmap.lookup_insert_eq_ite (value : V) :
    (m.insert key value).lookup key' = if key' = key then some value else m.lookup key' := by
  split
  · next heq =>
      subst heq
      exact Finmap.lookup_insert m
  · next hne => exact Finmap.lookup_insert_of_ne m hne

theorem Finmap.lookup_erase_eq_ite : (m.erase key).lookup key' = if key' = key then none else m.lookup key' := by
  split
  · next heq =>
      subst heq
      exact Finmap.lookup_erase _ m
  · next hne => exact Finmap.lookup_erase_ne hne

end Lookup

/-- An entry in the history of a table. -/
inductive LedgerStep (K V : Type)
  | put (key : K) (value : V)
  | drop (key : K)
  deriving DecidableEq

namespace LedgerStep

variable {K V : Type}

def key : LedgerStep K V → K
  | .put key _ | .drop key => key

variable [DecidableEq K]

def apply (m : Finmap fun _ : K => V) : LedgerStep K V → Finmap fun _ : K => V
  | .put key value => m.insert key value
  | .drop key => m.erase key

def applyAll (m : Finmap fun _ : K => V) (steps : List (LedgerStep K V)) : Finmap fun _ : K => V :=
  steps.foldl apply m

theorem applyAll_concat (m : Finmap fun _ : K => V) (steps : List (LedgerStep K V)) (st : LedgerStep K V) :
    applyAll m (steps ++ [st]) = st.apply (applyAll m steps) :=
  List.foldl_append ..

theorem lookup_apply_of_ne (m : Finmap fun _ : K => V) {st : LedgerStep K V} {key : K} (h : st.key ≠ key) :
    (st.apply m).lookup key = m.lookup key := by
  cases st with
  | put key' value => exact Finmap.lookup_insert_of_ne m h.symm
  | drop key' => exact Finmap.lookup_erase_ne h.symm

/-- **What a table holds** was put there, and nothing was entered under the key since. -/
theorem lookup_applyAll_iff (steps : List (LedgerStep K V)) (key : K) (value : V) :
    (applyAll ∅ steps).lookup key = some value ↔
      ∃ before after, steps = before ++ .put key value :: after ∧ ∀ st ∈ after, st.key ≠ key := by
  induction steps using List.reverseRecOn with
  | nil =>
      constructor
      · intro h
        cases h
      · rintro ⟨before, after, heq, -⟩
        cases before <;> cases heq
  | append_singleton steps st ih =>
      rw [applyAll_concat]
      by_cases hkey : st.key = key
      · -- the last entry decides
        constructor
        · intro h
          cases st with
          | put key' value' =>
              cases hkey
              have hvalue := (Finmap.lookup_insert _).symm.trans h
              cases hvalue
              exact ⟨steps, [], rfl, fun _ hnone => absurd hnone List.not_mem_nil⟩
          | drop key' =>
              cases hkey
              cases (Finmap.lookup_erase _ _).symm.trans h
        · rintro ⟨before, after, heq, hafter⟩
          rcases List.eq_nil_or_concat after with rfl | ⟨after, last, rfl⟩
          · obtain ⟨-, hlast⟩ := List.append_inj' heq rfl
            rw [(List.cons.inj hlast).1]
            exact Finmap.lookup_insert _
          · rw [List.concat_eq_append, ← List.cons_append, ← List.append_assoc] at heq
            obtain ⟨-, hlast⟩ := List.append_inj' heq rfl
            rw [(List.cons.inj hlast).1] at hkey
            exact absurd hkey (hafter last (by simp))
      · rw [lookup_apply_of_ne _ hkey, ih]
        constructor
        · rintro ⟨before, after, rfl, hafter⟩
          refine ⟨before, after ++ [st], by simp, fun st' hmem => ?_⟩
          rcases List.mem_append.mp hmem with hold | hlast
          · exact hafter st' hold
          · rwa [List.mem_singleton.mp hlast]
        · rintro ⟨before, after, heq, hafter⟩
          rcases List.eq_nil_or_concat after with rfl | ⟨after, last, rfl⟩
          · obtain ⟨-, hlast⟩ := List.append_inj' heq rfl
            rw [(List.cons.inj hlast).1] at hkey
            exact absurd rfl hkey
          · rw [List.concat_eq_append] at heq hafter
            rw [← List.cons_append, ← List.append_assoc] at heq
            obtain ⟨hsteps, -⟩ := List.append_inj' heq rfl
            exact ⟨before, after, hsteps, fun st' hmem => hafter st' (List.mem_append_left _ hmem)⟩

end LedgerStep
