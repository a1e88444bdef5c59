import Mathlib.Order.Defs.Unbundled
import Mathlib.Tactic.Common

/-!
# Programs with a state that survives errors

`EStateM ε σ` is the monad of programs that change a state and may stop with an
error; the state reached when the error was raised is part of the result.  This
is the meaning of Rust code on `&mut self` that returns early through `?`.

* `final` is the state a run ends in, whether it returned or stopped.
* `zoom` runs a program on a part of the state.
* `Within R` says that every run relates its start to its final state by `R`.
  For a reflexive and transitive `R` this is closed under sequencing
  (`Within.bind`), so frame conditions are proved program by program.
* `Returns R` says the same of the runs that return.
-/

namespace Program

open EStateM

variable {ε σ τ α β : Type}

/-- The state a run ends in. -/
def final : Result ε σ α → σ
  | .ok _ s => s
  | .error _ s => s

/-- The run stopped with an error. -/
def failed : Result ε σ α → Bool
  | .ok _ _ => false
  | .error _ _ => true

@[simp] theorem final_ok (a : α) (s : σ) : final (.ok a s : Result ε σ α) = s := rfl

@[simp] theorem final_error (e : ε) (s : σ) : final (.error e s : Result ε σ α) = s := rfl

@[simp] theorem failed_ok (a : α) (s : σ) : failed (.ok a s : Result ε σ α) = false := rfl

@[simp] theorem failed_error (e : ε) (s : σ) : failed (.error e s : Result ε σ α) = true := rfl

/-! ## Running sequences -/

theorem bind_ok {x : EStateM ε σ α} {f : α → EStateM ε σ β} {s s' : σ} {a : α}
    (h : x s = .ok a s') : (x >>= f) s = f a s' := by
  change EStateM.bind x f s = _
  rw [EStateM.bind, h]

theorem bind_error {x : EStateM ε σ α} {f : α → EStateM ε σ β} {s s' : σ} {e : ε}
    (h : x s = .error e s') : (x >>= f) s = .error e s' := by
  change EStateM.bind x f s = _
  rw [EStateM.bind, h]

/-- A sequence returned, so both of its parts did. -/
theorem of_bind_ok {x : EStateM ε σ α} {f : α → EStateM ε σ β} {s s'' : σ} {b : β}
    (h : (x >>= f) s = .ok b s'') : ∃ a s', x s = .ok a s' ∧ f a s' = .ok b s'' := by
  cases hx : x s with
  | ok a s' => exact ⟨a, s', rfl, by rwa [bind_ok hx] at h⟩
  | error e s' => rw [bind_error hx] at h; cases h

@[simp] theorem pure_apply (a : α) (s : σ) : (pure a : EStateM ε σ α) s = .ok a s := rfl

@[simp] theorem throw_apply (e : ε) (s : σ) : (throw e : EStateM ε σ α) s = .error e s := rfl

@[simp] theorem get_apply (s : σ) : (get : EStateM ε σ σ) s = .ok s s := rfl

@[simp] theorem set_apply (s s' : σ) : (set s' : EStateM ε σ PUnit) s = .ok ⟨⟩ s' := rfl

@[simp] theorem modify_apply (f : σ → σ) (s : σ) :
    (modify f : EStateM ε σ PUnit) s = .ok ⟨⟩ (f s) := rfl

theorem tryCatch_ok {x : EStateM ε σ α} {handle : ε → EStateM ε σ α} {s s' : σ} {a : α}
    (h : x s = .ok a s') : tryCatch x handle s = .ok a s' := by
  change EStateM.tryCatch x handle s = _
  rw [EStateM.tryCatch, h]

theorem tryCatch_error {x : EStateM ε σ α} {handle : ε → EStateM ε σ α} {s s' : σ} {e : ε}
    (h : x s = .error e s') : tryCatch x handle s = handle e s' := by
  change EStateM.tryCatch x handle s = _
  rw [EStateM.tryCatch, h]
  rfl

/-- Return the value or raise the error of `result`. -/
def returnExcept : Except ε α → EStateM ε σ α
  | .ok a => pure a
  | .error e => throw e

@[simp] theorem returnExcept_ok (a : α) (s : σ) : (returnExcept (.ok a) : EStateM ε σ α) s = .ok a s := rfl

@[simp] theorem returnExcept_error (e : ε) (s : σ) :
    (returnExcept (.error e) : EStateM ε σ α) s = .error e s := rfl

theorem of_returnExcept_ok {result : Except ε α} {s s' : σ} {a : α}
    (h : (returnExcept result : EStateM ε σ α) s = .ok a s') : result = .ok a ∧ s' = s := by
  cases result with
  | ok b =>
      injection h with hvalue hstate
      exact ⟨congrArg _ hvalue, hstate.symm⟩
  | error e => cases h

/-! ## Running on a part of the state -/

/-- Run `x` on the part `get s` of the state and put the changed part back. -/
def zoom (get : σ → τ) (put : τ → σ → σ) (x : EStateM ε τ α) : EStateM ε σ α := fun s =>
  match x (get s) with
  | .ok a t => .ok a (put t s)
  | .error e t => .error e (put t s)

theorem zoom_ok {get : σ → τ} {put : τ → σ → σ} {x : EStateM ε τ α} {s : σ} {t : τ} {a : α}
    (h : x (get s) = .ok a t) : zoom get put x s = .ok a (put t s) := by
  rw [zoom, h]

theorem zoom_error {get : σ → τ} {put : τ → σ → σ} {x : EStateM ε τ α} {s : σ} {t : τ} {e : ε}
    (h : x (get s) = .error e t) : zoom get put x s = .error e (put t s) := by
  rw [zoom, h]

theorem of_zoom_ok {get : σ → τ} {put : τ → σ → σ} {x : EStateM ε τ α} {s s' : σ} {a : α}
    (h : zoom get put x s = .ok a s') : ∃ t, x (get s) = .ok a t ∧ s' = put t s := by
  cases hx : x (get s) with
  | ok b t =>
      rw [zoom_ok hx] at h
      cases h
      exact ⟨t, rfl, rfl⟩
  | error e t =>
      rw [zoom_error hx] at h
      cases h

theorem final_zoom (get : σ → τ) (put : τ → σ → σ) (x : EStateM ε τ α) (s : σ) :
    final (zoom get put x s) = put (final (x (get s))) s := by
  cases h : x (get s) with
  | ok a t => rw [zoom_ok h, final_ok, final_ok]
  | error e t => rw [zoom_error h, final_error, final_error]

/-! ## Frame conditions -/

/-- Every run of `x` relates its start to its final state by `R`. -/
def Within (R : σ → σ → Prop) (x : EStateM ε σ α) : Prop :=
  ∀ s, R s (final (x s))

section Within

variable {R : σ → σ → Prop} [IsPreorder σ R]

theorem Within.pure (a : α) : Within R (pure a : EStateM ε σ α) := fun s => refl_of R s

theorem Within.throw (e : ε) : Within R (throw e : EStateM ε σ α) := fun s => refl_of R s

theorem Within.get : Within R (get : EStateM ε σ σ) := fun s => refl_of R s

theorem Within.returnExcept (result : Except ε α) : Within R (returnExcept result : EStateM ε σ α) := by
  intro s
  cases result <;> exact refl_of R s

/-- A sequence that is run from `s`. -/
theorem Within.bind_at {x : EStateM ε σ α} {f : α → EStateM ε σ β} {s : σ} (hfirst : R s (final (x s)))
    (hf : ∀ a s', x s = .ok a s' → R s' (final (f a s'))) : R s (final ((x >>= f) s)) := by
  cases h : x s with
  | ok a s' =>
      rw [h, final_ok] at hfirst
      rw [bind_ok h]
      exact trans_of R hfirst (hf a s' h)
  | error e s' =>
      rw [h, final_error] at hfirst
      rw [bind_error h]
      exact hfirst

/-- A sequence whose second part relies on what the first one returned. -/
theorem Within.bind_of_ok {x : EStateM ε σ α} {f : α → EStateM ε σ β} (hx : Within R x)
    (hf : ∀ s a s', x s = .ok a s' → R s' (final (f a s'))) : Within R (x >>= f) :=
  fun s => Within.bind_at (hx s) (hf s)

theorem Within.bind {x : EStateM ε σ α} {f : α → EStateM ε σ β} (hx : Within R x)
    (hf : ∀ a, Within R (f a)) : Within R (x >>= f) :=
  Within.bind_of_ok hx fun _ a s' _ => hf a s'

/-- A sequence whose first part has passed through a state. -/
theorem Within.bind_from {x : EStateM ε σ α} {f : α → EStateM ε σ β} {s₀ s : σ} (hfirst : R s₀ (final (x s)))
    (hf : ∀ a, Within R (f a)) : R s₀ (final ((x >>= f) s)) := by
  cases h : x s with
  | ok a s' =>
      rw [h, final_ok] at hfirst
      rw [bind_ok h]
      exact trans_of R hfirst (hf a s')
  | error e s' =>
      rw [h, final_error] at hfirst
      rw [bind_error h]
      exact hfirst

theorem Within.tryCatch {x : EStateM ε σ α} {handle : ε → EStateM ε σ α} (hx : Within R x)
    (hhandle : ∀ e, Within R (handle e)) : Within R (tryCatch x handle) := by
  intro s
  have hfirst := hx s
  cases h : x s with
  | ok a s' =>
      rw [h, final_ok] at hfirst
      rw [tryCatch_ok h]
      exact hfirst
  | error e s' =>
      rw [h, final_error] at hfirst
      rw [tryCatch_error h]
      exact trans_of R hfirst (hhandle e s')

end Within

/-- Every run of `x` that returns relates its start to its final state by `R`. -/
def Returns (R : σ → σ → Prop) (x : EStateM ε σ α) : Prop :=
  ∀ s a s', x s = .ok a s' → R s s'

section Returns

variable {R : σ → σ → Prop}

theorem Returns.of_run {x : EStateM ε σ α} {s s' : σ} {a : α} (hrun : x s = .ok a s')
    (hx : Returns R x) : R s s' :=
  hx s a s' hrun

theorem Within.returns {x : EStateM ε σ α} (hx : Within R x) : Returns R x := by
  intro s a s' h
  have hfinal := hx s
  rwa [h] at hfinal

theorem Returns.throw (e : ε) : Returns R (throw e : EStateM ε σ α) := by
  intro s a s' h
  cases h

variable [IsPreorder σ R]

theorem Returns.pure (a : α) : Returns R (pure a : EStateM ε σ α) :=
  (Within.pure a).returns

theorem Returns.bind_of_ok {x : EStateM ε σ α} {f : α → EStateM ε σ β} (hx : Returns R x)
    (hf : ∀ s a s', x s = .ok a s' → Returns R (f a)) : Returns R (x >>= f) := by
  intro s b s'' h
  obtain ⟨a, s', hfirst, hrest⟩ := of_bind_ok h
  exact trans_of R (hx s a s' hfirst) (hf s a s' hfirst s' b s'' hrest)

theorem Returns.bind {x : EStateM ε σ α} {f : α → EStateM ε σ β} (hx : Returns R x)
    (hf : ∀ a, Returns R (f a)) : Returns R (x >>= f) :=
  Returns.bind_of_ok hx fun _ a _ _ => hf a

end Returns

theorem Returns.ite {R : σ → σ → Prop} {c : Prop} [Decidable c] {x y : EStateM ε σ α}
    (hx : Returns R x) (hy : Returns R y) : Returns R (if c then x else y) := by
  split
  · exact hx
  · exact hy

/-- A program that reads the state first. -/
theorem Within.get_bind {R : σ → σ → Prop} {f : σ → EStateM ε σ α}
    (h : ∀ s, R s (final (f s s))) : Within R (MonadState.get >>= f) := by
  intro s
  rw [bind_ok (get_apply s)]
  exact h s

theorem Within.zoom {R : σ → σ → Prop} {Q : τ → τ → Prop} {get : σ → τ} {put : τ → σ → σ}
    {x : EStateM ε τ α} (hx : Within Q x) (hput : ∀ s t, Q (get s) t → R s (put t s)) :
    Within R (zoom get put x) := by
  intro s
  rw [final_zoom]
  exact hput s _ (hx (get s))

theorem Within.ite {R : σ → σ → Prop} {c : Prop} [Decidable c] {x y : EStateM ε σ α}
    (hx : Within R x) (hy : Within R y) : Within R (if c then x else y) := by
  split
  · exact hx
  · exact hy

/-! ## Errors -/

/-- Every error that `x` stops with satisfies `S`. -/
def Raises (S : ε → Prop) (x : EStateM ε σ α) : Prop :=
  ∀ s e s', x s = .error e s' → S e

section Raises

variable {S : ε → Prop}

theorem Raises.of_ok {x : EStateM ε σ α} (h : ∀ s, ∃ a s', x s = .ok a s') : Raises S x := by
  intro s e s' hrun
  obtain ⟨a, t, hok⟩ := h s
  cases hok.symm.trans hrun

theorem Raises.pure (a : α) : Raises S (pure a : EStateM ε σ α) :=
  Raises.of_ok fun s => ⟨a, s, rfl⟩

theorem Raises.get : Raises S (get : EStateM ε σ σ) :=
  Raises.of_ok fun s => ⟨s, s, rfl⟩

theorem Raises.set (t : σ) : Raises S (set t : EStateM ε σ PUnit) :=
  Raises.of_ok fun _ => ⟨⟨⟩, t, rfl⟩

theorem Raises.modify (f : σ → σ) : Raises S (modify f : EStateM ε σ PUnit) :=
  Raises.of_ok fun s => ⟨⟨⟩, f s, rfl⟩

theorem Raises.throw {e : ε} (h : S e) : Raises S (throw e : EStateM ε σ α) := by
  intro s e' s' hrun
  cases hrun
  exact h

theorem Raises.returnExcept {result : Except ε α} (h : ∀ e, result = .error e → S e) :
    Raises S (returnExcept result : EStateM ε σ α) := by
  cases result with
  | ok a => exact Raises.pure a
  | error e => exact Raises.throw (h e rfl)

theorem Raises.bind {x : EStateM ε σ α} {f : α → EStateM ε σ β} (hx : Raises S x) (hf : ∀ a, Raises S (f a)) :
    Raises S (x >>= f) := by
  intro s e s' hrun
  cases h : x s with
  | ok a t =>
      rw [bind_ok h] at hrun
      exact hf a t e s' hrun
  | error e' t =>
      rw [bind_error h] at hrun
      cases hrun
      exact hx s _ _ h

theorem Raises.get_bind {f : σ → EStateM ε σ α} (hf : ∀ s, Raises S (f s)) : Raises S (MonadState.get >>= f) :=
  Raises.bind Raises.get hf

theorem Raises.tryCatch {x : EStateM ε σ α} {handle : ε → EStateM ε σ α} (hhandle : ∀ e, Raises S x → Raises S (handle e))
    (hx : Raises S x) : Raises S (tryCatch x handle) := by
  intro s e s' hrun
  cases h : x s with
  | ok a t =>
      rw [tryCatch_ok h] at hrun
      cases hrun
  | error e' t =>
      rw [tryCatch_error h] at hrun
      exact hhandle e' hx t e s' hrun

theorem Raises.ite {c : Prop} [Decidable c] {x y : EStateM ε σ α} (hx : Raises S x) (hy : Raises S y) :
    Raises S (if c then x else y) := by
  split
  · exact hx
  · exact hy

theorem Raises.zoom {get : σ → τ} {put : τ → σ → σ} {x : EStateM ε τ α} (hx : Raises S x) :
    Raises S (zoom get put x) := by
  intro s e s' hrun
  cases h : x (get s) with
  | ok a t =>
      rw [zoom_ok h] at hrun
      cases hrun
  | error e' t =>
      rw [zoom_error h] at hrun
      cases hrun
      exact hx _ _ _ h

end Raises

/-! ## Results -/

/-- Every result of `x` satisfies `Q`. -/
def Yields (Q : α → Prop) (x : EStateM ε σ α) : Prop :=
  ∀ s a s', x s = .ok a s' → Q a

section Yields

variable {Q : β → Prop}

theorem Yields.pure {b : β} (h : Q b) : Yields Q (pure b : EStateM ε σ β) := by
  intro s a s' hrun
  cases hrun
  exact h

theorem Yields.bind (x : EStateM ε σ α) {f : α → EStateM ε σ β} (hf : ∀ a, Yields Q (f a)) :
    Yields Q (x >>= f) := by
  intro s b s'' hrun
  obtain ⟨a, s', -, hrest⟩ := of_bind_ok hrun
  exact hf a s' b s'' hrest

theorem Yields.ite {c : Prop} [Decidable c] {x y : EStateM ε σ β} (hx : Yields Q x) (hy : Yields Q y) :
    Yields Q (if c then x else y) := by
  split
  · exact hx
  · exact hy

end Yields

end Program
