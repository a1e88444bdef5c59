import Mathlib.Algebra.Order.Ring.Int
import Mathlib.Data.List.GetD
import Mathlib.Data.Int.Notation
import Mathlib.Data.Nat.Notation
import Mathlib.Tactic.Common

/-!
# Checked computations

A program over machine integers stops at an addition or a subtraction whose result does not
fit, and at an index that is out of range; a loop may go on for ever.  Here each of these is a
fault, so that a program that returns a result has run without one.

A loop over a range of indices that reads one element of a list in each step and does not fail
is a walk over the list (`loop_eq_walk`).
-/

/-- Why a computation stops without a result. -/
inductive Fault
  | overflow
  | index
  | unfinished
  deriving DecidableEq, Repr

abbrev Checked (α : Type) :=
  Except Fault α

namespace Checked

variable {α σ : Type}

-- not by `rfl`, so that a rewrite with it is recorded in the proof
@[simp] theorem ok_bind {β : Type} (a : α) (f : α → Checked β) : (Except.ok a >>= f : Checked β) = f a := by
  cases h : f a <;> exact h

@[simp] theorem pure_eq (a : α) : (pure a : Checked α) = .ok a := rfl

/-! ## Machine integers -/

/-- An unsigned sum. -/
def add (bits a b : ℕ) : Checked ℕ :=
  if a + b < 2 ^ bits then .ok (a + b) else .error .overflow

/-- An unsigned difference. -/
def sub (a b : ℕ) : Checked ℕ :=
  if b ≤ a then .ok (a - b) else .error .overflow

/-- The number is one of `bits` bits in two's complement. -/
def FitsSigned (bits : ℕ) (z : ℤ) : Prop :=
  -2 ^ (bits - 1) ≤ z ∧ z < 2 ^ (bits - 1)

instance (bits : ℕ) (z : ℤ) : Decidable (FitsSigned bits z) :=
  inferInstanceAs (Decidable (_ ∧ _))

/-- A signed sum. -/
def addSigned (bits : ℕ) (a b : ℤ) : Checked ℤ :=
  if FitsSigned bits (a + b) then .ok (a + b) else .error .overflow

/-- A signed difference. -/
def subSigned (bits : ℕ) (a b : ℤ) : Checked ℤ :=
  if FitsSigned bits (a - b) then .ok (a - b) else .error .overflow

/-- A conversion to an unsigned type keeps the low bits. -/
def toUnsigned (bits : ℕ) (z : ℤ) : ℕ :=
  (z % 2 ^ bits).toNat

theorem add_of_lt {bits a b : ℕ} (h : a + b < 2 ^ bits) : add bits a b = .ok (a + b) :=
  if_pos h

theorem sub_of_le {a b : ℕ} (h : b ≤ a) : sub a b = .ok (a - b) :=
  if_pos h

theorem addSigned_of_fits {bits : ℕ} {a b : ℤ} (h : FitsSigned bits (a + b)) :
    addSigned bits a b = .ok (a + b) :=
  if_pos h

theorem subSigned_of_fits {bits : ℕ} {a b : ℤ} (h : FitsSigned bits (a - b)) :
    subSigned bits a b = .ok (a - b) :=
  if_pos h

theorem toUnsigned_of_lt {bits : ℕ} {z : ℤ} (hlow : 0 ≤ z) (hhigh : z < 2 ^ bits) :
    toUnsigned bits z = z.toNat := by
  rw [toUnsigned, Int.emod_eq_of_lt hlow hhigh]

/-! ## Indices -/

/-- `v[i]`. -/
def get {n : ℕ} (v : Vector α n) (i : ℕ) : Checked α :=
  if h : i < n then .ok v[i] else .error .index

/-- `v[i] = a`. -/
def set {n : ℕ} (v : Vector α n) (i : ℕ) (a : α) : Checked (Vector α n) :=
  if i < n then .ok (v.setIfInBounds i a) else .error .index

/-- `data[off..off + n]`. -/
def slice (data : List α) (off n : ℕ) : Checked (List α) :=
  if off + n ≤ data.length then .ok ((data.drop off).take n) else .error .index

theorem get_of_getElem? {n : ℕ} {v : Vector α n} {i : ℕ} {a : α} (h : v.toList[i]? = some a) :
    get v i = .ok a := by
  obtain ⟨hlt, rfl⟩ := List.getElem?_eq_some_iff.mp h
  rw [get, dif_pos (by rwa [Vector.length_toList] at hlt), Vector.getElem_toList]

theorem get_of_lt {n : ℕ} {v : Vector α n} {i : ℕ} (h : i < n) (d : α) :
    get v i = .ok (v.toList.getD i d) := by
  have hlt : i < v.toList.length := by rwa [Vector.length_toList]
  rw [List.getD_eq_getElem _ _ hlt]
  exact get_of_getElem? (List.getElem?_eq_getElem hlt)

theorem set_of_lt {n : ℕ} {v : Vector α n} {i : ℕ} (h : i < n) (a : α) :
    set v i a = .ok (v.setIfInBounds i a) :=
  if_pos h

theorem slice_of_le {data : List α} {off n : ℕ} (h : off + n ≤ data.length) :
    slice data off n = .ok ((data.drop off).take n) :=
  if_pos h

/-! ## Loops -/

/-- `for i in first..first + count`; the body may end the loop. -/
def loop (body : ℕ → σ → Checked (ForInStep σ)) : ℕ → ℕ → σ → Checked σ
  | _, 0, s => .ok s
  | i, count + 1, s => do
      match ← body i s with
      | .done s => return s
      | .yield s => loop body (i + 1) count s

/-- A loop without a bound, for at most `fuel` steps. -/
def whileLoop (body : σ → Checked (ForInStep σ)) : ℕ → σ → Checked σ
  | 0, _ => .error .unfinished
  | fuel + 1, s => do
      match ← body s with
      | .done s => return s
      | .yield s => whileLoop body fuel s

theorem whileLoop_of_done {body : σ → Checked (ForInStep σ)} {s s' : σ} (h : body s = .ok (.done s')) (fuel : ℕ) :
    whileLoop body (fuel + 1) s = .ok s' := by
  rw [whileLoop, h, ok_bind]
  rfl

theorem whileLoop_of_yield {body : σ → Checked (ForInStep σ)} {s s' : σ} (h : body s = .ok (.yield s')) (fuel : ℕ) :
    whileLoop body (fuel + 1) s = whileLoop body fuel s' := by
  rw [whileLoop, h, ok_bind]

/-- A pass over a list that may end early; the elements are numbered from `i` on. -/
def walk (step : ℕ → α → σ → ForInStep σ) : ℕ → List α → σ → σ
  | _, [], s => s
  | i, a :: rest, s =>
      match step i a s with
      | .done s => s
      | .yield s => walk step (i + 1) rest s

theorem loop_of_done {body : ℕ → σ → Checked (ForInStep σ)} {i : ℕ} {s s' : σ} (h : body i s = .ok (.done s'))
    (count : ℕ) : loop body i (count + 1) s = .ok s' := by
  rw [loop, h, ok_bind]
  rfl

theorem loop_of_yield {body : ℕ → σ → Checked (ForInStep σ)} {i : ℕ} {s s' : σ} (h : body i s = .ok (.yield s'))
    (count : ℕ) : loop body i (count + 1) s = loop body (i + 1) count s' := by
  rw [loop, h, ok_bind]

/-- Steps that do nothing. -/
theorem loop_of_idle {body : ℕ → σ → Checked (ForInStep σ)} {i count : ℕ} {s : σ}
    (h : ∀ k, body (i + k) s = .ok (.done s) ∨ body (i + k) s = .ok (.yield s)) :
    loop body i count s = .ok s := by
  induction count generalizing i with
  | zero => rfl
  | succ count ih =>
      have hrest : ∀ k, body (i + 1 + k) s = .ok (.done s) ∨ body (i + 1 + k) s = .ok (.yield s) := by
        intro k
        rw [Nat.add_assoc]
        exact h (1 + k)
      rcases h 0 with hdone | hyield
      · exact loop_of_done hdone count
      · exact (loop_of_yield hyield count).trans (ih hrest)

/-- **A loop that reads a list** and does nothing behind it walks over the list. -/
theorem loop_eq_walk {body : ℕ → σ → Checked (ForInStep σ)} {step : ℕ → α → σ → ForInStep σ} {l : List α}
    {i count : ℕ} (hcount : l.length ≤ count)
    (hin : ∀ k a s, l[k]? = some a → body (i + k) s = .ok (step (i + k) a s))
    (hout : l.length < count → ∀ k s, body (i + l.length + k) s = .ok (.done s) ∨
      body (i + l.length + k) s = .ok (.yield s)) (s : σ) :
    loop body i count s = .ok (walk step i l s) := by
  induction l generalizing i count s with
  | nil =>
      cases count with
      | zero => rfl
      | succ count => exact loop_of_idle fun k => hout (Nat.succ_pos count) k s
  | cons a rest ih =>
      obtain ⟨count, rfl⟩ : ∃ rest, count = rest + 1 := Nat.exists_eq_add_one.mpr (by
        rw [List.length_cons] at hcount
        omega)
      have hfirst := hin 0 a s rfl
      rw [Nat.add_zero] at hfirst
      unfold loop walk
      rw [hfirst]
      cases step i a s with
      | done s' => rfl
      | yield s' =>
          refine ih (Nat.le_of_succ_le_succ hcount) (fun k b t hb => ?_) (fun hlt k t => ?_) s'
          · rw [Nat.add_assoc, Nat.add_comm 1 k]
            exact hin (k + 1) b t hb
          · have hidle := hout (Nat.succ_lt_succ hlt) k t
            rwa [List.length_cons, Nat.add_comm rest.length 1, ← Nat.add_assoc] at hidle

/-! ## Walks -/

theorem walk_of_done {step : ℕ → α → σ → ForInStep σ} {i : ℕ} {a : α} {s s' : σ} (h : step i a s = .done s')
    (rest : List α) : walk step i (a :: rest) s = s' := by
  rw [walk, h]

theorem walk_of_yield {step : ℕ → α → σ → ForInStep σ} {i : ℕ} {a : α} {s s' : σ} (h : step i a s = .yield s')
    (rest : List α) : walk step i (a :: rest) s = walk step (i + 1) rest s' := by
  rw [walk, h]

/-- A walk that appends to a list. -/
theorem walk_append {β : Type} {step : ℕ → α → List β → ForInStep (List β)} {f : α → List β}
    (h : ∀ i a s, step i a s = .yield (s ++ f a)) (i : ℕ) (l : List α) (s : List β) :
    walk step i l s = s ++ l.flatMap f := by
  induction l generalizing i s with
  | nil => simp [walk]
  | cons a rest ih =>
      rw [walk_of_yield (h i a s), ih, List.flatMap_cons, List.append_assoc]

/-- A walk that appends to two lists. -/
theorem walk_append₂ {β γ : Type} {step : ℕ → α → List β × List γ → ForInStep (List β × List γ)}
    {f : α → List β × List γ} (h : ∀ i a s, step i a s = .yield (s.1 ++ (f a).1, s.2 ++ (f a).2))
    (i : ℕ) (l : List α) (s : List β × List γ) :
    walk step i l s = (s.1 ++ (l.map f).flatMap Prod.fst, s.2 ++ (l.map f).flatMap Prod.snd) := by
  induction l generalizing i s with
  | nil => simp [walk]
  | cons a rest ih =>
      rw [walk_of_yield (h i a s), ih, List.map_cons, List.flatMap_cons, List.flatMap_cons, List.append_assoc,
        List.append_assoc]

/-- A walk that looks for an element. -/
theorem walk_find {p : α → Bool} {step : ℕ → α → Option α → ForInStep (Option α)}
    (h : ∀ i a, step i a none = if p a then .done (some a) else .yield none) (i : ℕ) (l : List α) :
    walk step i l none = l.find? p := by
  induction l generalizing i with
  | nil => rfl
  | cons a rest ih =>
      by_cases ha : p a = true
      · rw [walk_of_done ((h i a).trans (if_pos ha)), List.find?_cons_of_pos ha]
      · rw [walk_of_yield ((h i a).trans (if_neg ha)), List.find?_cons_of_neg ha]
        exact ih (i + 1)

/-- A walk that looks for the number of an element. -/
theorem walk_findIdx {p : α → Bool} {step : ℕ → α → Option ℕ → ForInStep (Option ℕ)}
    (h : ∀ i a, step i a none = if p a then .done (some i) else .yield none) (i : ℕ) (l : List α) :
    walk step i l none = (l.findIdx? p).map (i + ·) := by
  induction l generalizing i with
  | nil => rfl
  | cons a rest ih =>
      rw [List.findIdx?_cons]
      by_cases ha : p a = true
      · rw [walk_of_done ((h i a).trans (if_pos ha)), if_pos ha]
        rfl
      · rw [walk_of_yield ((h i a).trans (if_neg ha)), if_neg ha]
        refine (ih (i + 1)).trans ?_
        cases rest.findIdx? p with
        | none => rfl
        | some k => exact congrArg some (by simp only; omega)

end Checked
