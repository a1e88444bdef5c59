import JfsFuse.Lib.Ledger

/-!
# Flags under keys

Parties share flags that are raised once and never lowered.  A table holds the flag that belongs to
a key now: a key is given a new flag when it is bound, whoever raises a key reaches the flag that the
key has then, and a party keeps the flag that it was given when the key is bound again.  So a flag is
raised exactly when its key is raised before it is bound again or released.
-/

/-- The table of flags, and all flags that were ever made.  No two keys have the same flag. -/
structure Signals (K : Type) [DecidableEq K] where
  flags : Finmap fun _ : K => ℕ
  cells : List Bool
  made : ∀ key cell, flags.lookup key = some cell → cell < cells.length
  apart : ∀ key key' cell, flags.lookup key = some cell → flags.lookup key' = some cell → key = key'

namespace Signals

variable {K : Type} [DecidableEq K]

def empty : Signals K where
  flags := ∅
  cells := []
  made _ _ h := by cases h
  apart _ _ _ h := by cases h

/-- Whether a flag is raised. -/
def raised (s : Signals K) (cell : ℕ) : Bool :=
  s.cells.getD cell false

/-- Give a key a new flag. -/
def bind (s : Signals K) (key : K) : Signals K where
  flags := s.flags.insert key s.cells.length
  cells := s.cells ++ [false]
  made key' cell h := by
    rw [Finmap.lookup_insert_eq_ite] at h
    rw [List.length_append, List.length_singleton]
    split at h
    · cases h
      exact Nat.lt_succ_self _
    · exact Nat.lt_succ_of_lt (s.made key' cell h)
  apart key₁ key₂ cell h₁ h₂ := by
    have hnew : ∀ other, s.flags.lookup other ≠ some s.cells.length :=
      fun other hother => lt_irrefl _ (s.made other _ hother)
    rw [Finmap.lookup_insert_eq_ite] at h₁ h₂
    split at h₁ <;> split at h₂
    · next heq₁ heq₂ => rw [heq₁, heq₂]
    · cases h₁
      exact absurd h₂ (hnew key₂)
    · cases h₂
      exact absurd h₁ (hnew key₁)
    · exact s.apart key₁ key₂ cell h₁ h₂

/-- Raise the flag of a key, if it has one. -/
def raise (s : Signals K) (key : K) : Bool × Signals K :=
  match s.flags.lookup key with
  | some cell =>
      (true, { s with
        cells := s.cells.set cell true
        made := fun key' cell' h => by
          rw [List.length_set]
          exact s.made key' cell' h })
  | none => (false, s)

/-- Take the flag from a key. -/
def release (s : Signals K) (key : K) : Signals K where
  flags := s.flags.erase key
  cells := s.cells
  made key' cell h := by
    rw [Finmap.lookup_erase_eq_ite] at h
    split at h
    · cases h
    · exact s.made key' cell h
  apart key₁ key₂ cell h₁ h₂ := by
    rw [Finmap.lookup_erase_eq_ite] at h₁ h₂
    split at h₁ <;> split at h₂ <;> try contradiction
    exact s.apart key₁ key₂ cell h₁ h₂

/-- What a party does with the table. -/
inductive Step (K : Type)
  | bind (key : K)
  | raise (key : K)
  | release (key : K)
  deriving DecidableEq

def step (s : Signals K) : Step K → Signals K
  | .bind key => s.bind key
  | .raise key => (s.raise key).2
  | .release key => s.release key

def run (s : Signals K) (steps : List (Step K)) : Signals K :=
  steps.foldl step s

/-- The step takes from a key the flag that it has. -/
def Step.Rebinds (key : K) : Step K → Prop
  | .bind key' | .release key' => key' = key
  | .raise _ => False

/-! ## What a step does -/

section Steps

variable (s : Signals K) {key : K} {cell : ℕ}

theorem lookup_bind (key key' : K) :
    (s.bind key).flags.lookup key' = if key' = key then some s.cells.length else s.flags.lookup key' :=
  Finmap.lookup_insert_eq_ite _ _ _ _

theorem lookup_release (key key' : K) :
    (s.release key).flags.lookup key' = if key' = key then none else s.flags.lookup key' :=
  Finmap.lookup_erase_eq_ite _ _ _

theorem flags_raise (key : K) : (s.raise key).2.flags = s.flags := by
  unfold raise
  split <;> rfl

theorem raised_bind (hcell : cell < s.cells.length) (key : K) : (s.bind key).raised cell = s.raised cell := by
  unfold raised bind
  rw [List.getD_eq_getElem?_getD, List.getD_eq_getElem?_getD, List.getElem?_append_left hcell]

theorem raised_raise (hcell : cell < s.cells.length) (key : K) :
    (s.raise key).2.raised cell = (s.raised cell || decide (s.flags.lookup key = some cell)) := by
  unfold raise
  cases hlookup : s.flags.lookup key with
  | none => simp
  | some cell' =>
      unfold raised
      simp only [List.getD_eq_getElem?_getD, List.getElem?_set]
      by_cases heq : cell' = cell
      · subst heq
        simp [hcell]
      · simp [heq]

theorem length_cells_step (st : Step K) : s.cells.length ≤ (s.step st).cells.length := by
  cases st with
  | bind key =>
      show s.cells.length ≤ (s.cells ++ [false]).length
      rw [List.length_append]
      exact Nat.le_add_right _ _
  | raise key =>
      show s.cells.length ≤ (s.raise key).2.cells.length
      unfold raise
      split
      · exact (List.length_set ..).ge
      · exact le_rfl
  | release key => exact le_rfl

/-- Where a key gets its flag from. -/
theorem of_lookup_step {st : Step K} (hcell : cell < s.cells.length) (h : (s.step st).flags.lookup key = some cell) :
    s.flags.lookup key = some cell ∧ ¬ st.Rebinds key := by
  cases st with
  | bind key' =>
      rw [show (s.step (.bind key')).flags.lookup key = _ from s.lookup_bind key' key] at h
      split at h
      · cases h
        exact absurd hcell (lt_irrefl _)
      · next hne => exact ⟨h, fun heq => hne heq.symm⟩
  | raise key' => exact ⟨(congrArg (Finmap.lookup key) (s.flags_raise key')).symm.trans h, id⟩
  | release key' =>
      rw [show (s.step (.release key')).flags.lookup key = _ from s.lookup_release key' key] at h
      split at h
      · cases h
      · next hne => exact ⟨h, fun heq => hne heq.symm⟩

/-- A step that leaves a key its flag. -/
theorem lookup_step {st : Step K} (hst : ¬ st.Rebinds key) : (s.step st).flags.lookup key = s.flags.lookup key := by
  cases st with
  | bind key' => exact (s.lookup_bind key' key).trans (if_neg fun heq => hst heq.symm)
  | raise key' => exact congrArg (Finmap.lookup key) (s.flags_raise key')
  | release key' => exact (s.lookup_release key' key).trans (if_neg fun heq => hst heq.symm)

/-- **A step raises a flag** by the key that has the flag, and in no other way. -/
theorem raised_step (hcell : cell < s.cells.length) (st : Step K) : (s.step st).raised cell = true ↔
    s.raised cell = true ∨ ∃ key, st = .raise key ∧ s.flags.lookup key = some cell := by
  cases st with
  | bind key =>
      rw [show (s.step (.bind key)).raised cell = _ from s.raised_bind hcell key]
      simp
  | raise key =>
      rw [show (s.step (.raise key)).raised cell = _ from s.raised_raise hcell key]
      simp
  | release key =>
      rw [show (s.step (.release key)).raised cell = s.raised cell from rfl]
      simp

end Steps

/-! ## What a run does -/

variable {s : Signals K} {key : K} {cell : ℕ}

/-- A flag that no key has stays as it is. -/
theorem raised_run_of_lost (hcell : cell < s.cells.length) (hlost : ∀ key, s.flags.lookup key ≠ some cell)
    (steps : List (Step K)) : (s.run steps).raised cell = true ↔ s.raised cell = true := by
  induction steps generalizing s with
  | nil => exact Iff.rfl
  | cons st rest ih =>
      have hrest := ih (hcell.trans_le (s.length_cells_step st)) fun key hkey => hlost key (s.of_lookup_step hcell hkey).1
      refine hrest.trans ((s.raised_step hcell st).trans (or_iff_left ?_))
      rintro ⟨key, -, hkey⟩
      exact hlost key hkey

/-- Among the steps, the key is raised before it is bound or released. -/
def RaisedFirst (key : K) (steps : List (Step K)) : Prop :=
  ∃ before after, steps = before ++ .raise key :: after ∧ ∀ st ∈ before, ¬ st.Rebinds key

omit [DecidableEq K] in
theorem raisedFirst_cons (key : K) (st : Step K) (rest : List (Step K)) :
    RaisedFirst key (st :: rest) ↔ st = .raise key ∨ ¬ st.Rebinds key ∧ RaisedFirst key rest := by
  constructor
  · rintro ⟨before, after, heq, hbefore⟩
    cases before with
    | nil =>
        injection heq with hst _
        exact .inl hst
    | cons first before =>
        injection heq with hst hrest
        subst hst
        exact .inr ⟨hbefore st (List.mem_cons_self ..), before, after, hrest,
          fun st' hst' => hbefore st' (List.mem_cons_of_mem _ hst')⟩
  · rintro (rfl | ⟨hst, before, after, rfl, hbefore⟩)
    · exact ⟨[], rest, rfl, fun _ hnone => absurd hnone List.not_mem_nil⟩
    · refine ⟨st :: before, after, rfl, fun st' hst' => ?_⟩
      rcases List.mem_cons.mp hst' with rfl | hmem
      · exact hst
      · exact hbefore st' hmem

/-- **A flag is raised** by its key, before the key is bound again or released. -/
theorem raised_run_iff (hlookup : s.flags.lookup key = some cell) (steps : List (Step K)) :
    (s.run steps).raised cell = true ↔ s.raised cell = true ∨ RaisedFirst key steps := by
  have hcell := s.made key cell hlookup
  induction steps generalizing s with
  | nil =>
      refine ⟨.inl, ?_⟩
      rintro (hraised | ⟨before, after, heq, -⟩)
      · exact hraised
      · cases before <;> cases heq
  | cons st rest ih =>
      have hlonger := hcell.trans_le (s.length_cells_step st)
      have hstep := s.raised_step hcell st
      have hown : (∃ other, st = .raise other ∧ s.flags.lookup other = some cell) ↔ st = .raise key := by
        constructor
        · rintro ⟨other, rfl, hother⟩
          rw [s.apart other key cell hother hlookup]
        · rintro rfl
          exact ⟨key, rfl, hlookup⟩
      rw [hown] at hstep
      rw [raisedFirst_cons]
      by_cases hst : st.Rebinds key
      · -- the flag belongs to no key any more
        have hlost : ∀ other, (s.step st).flags.lookup other ≠ some cell := fun other hother => by
          obtain ⟨hold, hkept⟩ := s.of_lookup_step hcell hother
          rw [s.apart other key cell hold hlookup] at hkept
          exact hkept hst
        refine (raised_run_of_lost hlonger hlost rest).trans (hstep.trans (or_congr_right ?_))
        exact ⟨.inl, fun h => h.elim id fun h => absurd hst h.1⟩
      · refine (ih ((s.lookup_step hst).trans hlookup) hlonger).trans ?_
        rw [hstep, or_assoc]
        exact or_congr_right (or_congr_right ⟨fun h => ⟨hst, h⟩, fun h => h.2⟩)

/-- The key was bound, and not bound or released since. -/
def BoundLast (key : K) (steps : List (Step K)) : Prop :=
  ∃ before after, steps = before ++ .bind key :: after ∧ ∀ st ∈ after, ¬ st.Rebinds key

omit [DecidableEq K] in
theorem boundLast_snoc (key : K) (st : Step K) (steps : List (Step K)) :
    BoundLast key (steps ++ [st]) ↔ st = .bind key ∨ ¬ st.Rebinds key ∧ BoundLast key steps := by
  constructor
  · rintro ⟨before, after, heq, hafter⟩
    rcases List.eq_nil_or_concat after with rfl | ⟨after, last, rfl⟩
    · obtain ⟨-, hst⟩ := List.append_inj' heq rfl
      exact .inl (List.cons.inj hst).1
    · rw [List.concat_eq_append] at heq hafter
      rw [← List.cons_append, ← List.append_assoc] at heq
      obtain ⟨hrest, hst⟩ := List.append_inj' heq rfl
      cases hst
      exact .inr ⟨hafter st (List.mem_append_right _ (List.mem_singleton_self _)), before, after, hrest,
        fun st' hst' => hafter st' (List.mem_append_left _ hst')⟩
  · rintro (rfl | ⟨hst, before, after, rfl, hafter⟩)
    · exact ⟨steps, [], rfl, fun _ hnone => absurd hnone List.not_mem_nil⟩
    · refine ⟨before, after ++ [st], by simp, fun st' hst' => ?_⟩
      rcases List.mem_append.mp hst' with hmem | hmem
      · exact hafter st' hmem
      · rwa [List.mem_singleton.mp hmem]

/-- **A key has a flag** while it is bound. -/
theorem isSome_lookup_run_iff (key : K) (steps : List (Step K)) :
    ((empty.run steps).flags.lookup key).isSome = true ↔ BoundLast key steps := by
  induction steps using List.reverseRecOn with
  | nil =>
      refine iff_of_false (fun hsome => by cases hsome) ?_
      rintro ⟨before, after, heq, -⟩
      cases before <;> cases heq
  | append_singleton steps st ih =>
      have hstep : empty.run (steps ++ [st]) = (empty.run steps).step st := List.foldl_append ..
      rw [boundLast_snoc, hstep, ← ih]
      by_cases hst : st.Rebinds key
      · cases st with
        | bind key' =>
            cases hst
            rw [show ((empty.run steps).step (.bind key)).flags.lookup key = _ from lookup_bind _ key key, if_pos rfl]
            simp
        | raise key' => exact hst.elim
        | release key' =>
            cases hst
            rw [show ((empty.run steps).step (.release key)).flags.lookup key = _ from lookup_release _ key key,
              if_pos rfl]
            simp [Step.Rebinds]
      · rw [lookup_step _ hst]
        have hother : st ≠ .bind key := by
          rintro rfl
          exact hst rfl
        simp [hst, hother]

end Signals
