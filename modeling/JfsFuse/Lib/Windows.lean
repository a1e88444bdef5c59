import JfsFuse.Lib.Memory

/-!
# Memories behind a translation of addresses

A window shows some addresses of a memory under other names: `seen place blank m` is what it shows, where
`place` finds the address behind a name and `blank` stands where there is none.  A window that shows no
address twice turns a write to the memory into a write to what it shows.

A write that may stop on its way leaves a first part of its data behind; such writes follow one another
as plain ones do.
-/

namespace Memory

open ByteBuf

variable {α : Type*}

/-! ## Windows -/

/-- What the window shows under each name. -/
def seen (place : ℕ → Option ℕ) (blank : α) (m : ℕ → α) : ℕ → α :=
  fun i => ((place i).map m).getD blank

section Seen

variable {place : ℕ → Option ℕ} {blank : α} {m m' : ℕ → α} {p q : ℕ} {data : List α}

theorem seen_congr (h : ∀ i a, place i = some a → m' a = m a) : seen place blank m' = seen place blank m := by
  funext i
  unfold seen
  cases hplace : place i with
  | none => rw [Option.map_none, Option.map_none]
  | some a => rw [Option.map_some, Option.map_some, h i a hplace]

/-- **A write behind a window**: the range at `q` of the memory is shown at `p`. -/
theorem seen_write (hinj : ∀ i j a, place i = some a → place j = some a → i = j)
    (hplace : ∀ k < data.length, place (p + k) = some (q + k)) (m : ℕ → α) :
    seen place blank (write m q data) = write (seen place blank m) p data := by
  funext i
  by_cases hin : p ≤ i ∧ i < p + data.length
  · have hat := hplace (i - p) (by omega)
    rw [Nat.add_sub_cancel' hin.1] at hat
    rw [write_inside blank hin, seen, hat, Option.map_some, Option.getD_some, write_inside blank (by omega),
      Nat.add_sub_cancel_left]
  · rw [write_outside hin]
    unfold seen
    cases hplace' : place i with
    | none => rw [Option.map_none, Option.map_none]
    | some a =>
        rw [Option.map_some, Option.map_some, Option.getD_some, Option.getD_some]
        refine write_outside fun hrange => hin ?_
        have hat := hplace (a - q) (by omega)
        rw [Nat.add_sub_cancel' hrange.1] at hat
        have hsame := hinj _ _ a hat hplace'
        omega

end Seen

/-- Overwriting a part of a range is splicing it into what was read. -/
theorem write_splice_read (m : ℕ → α) {base n off : ℕ} {data : List α} (h : off + data.length ≤ n) :
    write m base (splice (read m base n) off data) = write m (base + off) data := by
  have hfits : off + data.length ≤ (read m base n).length := by rwa [length_read]
  funext i
  by_cases hin : base ≤ i ∧ i < base + n
  · rw [write_inside (m i) (by rw [length_splice hfits, length_read]; exact hin), getD_splice _ _ hfits]
    by_cases hdata : base + off ≤ i ∧ i < base + off + data.length
    · rw [if_pos (by omega), write_inside (m i) hdata, Nat.sub_sub]
    · rw [if_neg (by omega), write_outside hdata, getD_read m (m i) (by omega), Nat.add_sub_cancel' hin.1]
  · rw [write_outside (by rwa [length_splice hfits, length_read]), write_outside (by omega)]

/-! ## Writes that may stop on their way -/

/-- A first part of the data was written, and all of it if the write is `done`. -/
def Overwrote (done : Prop) (m : ℕ → α) (off : ℕ) (data : List α) (m' : ℕ → α) : Prop :=
  ∃ k ≤ data.length, (done → k = data.length) ∧ m' = write m off (data.take k)

namespace Overwrote

variable {done : Prop} {m m' m'' : ℕ → α} {off : ℕ} {data : List α}

theorem whole (hm : m' = write m off data) : Overwrote done m off data m' :=
  ⟨data.length, le_rfl, fun _ => rfl, by rw [List.take_length, hm]⟩

theorem nothing (h : ¬ done) (m : ℕ → α) (off : ℕ) (data : List α) : Overwrote done m off data m :=
  ⟨0, Nat.zero_le _, fun hdone => absurd hdone h, by rw [List.take_zero, write_nil]⟩

theorem eq_write (h : Overwrote done m off data m') (hdone : done) : m' = write m off data := by
  obtain ⟨k, -, hall, rfl⟩ := h
  rw [hall hdone, List.take_length]

theorem imp (h : Overwrote done m off data m') {done' : Prop} (hdone : done' → done) :
    Overwrote done' m off data m' := by
  obtain ⟨k, hk, hall, hm⟩ := h
  exact ⟨k, hk, hall ∘ hdone, hm⟩

/-- **The rest is written** behind a part that is done. -/
theorem append {first rest : List α} (hfirst : m' = write m off first)
    (hrest : Overwrote done m' (off + first.length) rest m'') : Overwrote done m off (first ++ rest) m'' := by
  obtain ⟨k, hk, hall, rfl⟩ := hrest
  refine ⟨first.length + k, ?_, fun hdone => ?_, ?_⟩
  · rw [List.length_append]
    omega
  · rw [hall hdone, List.length_append]
  · have htake : (first ++ rest).take (first.length + k) = first ++ rest.take k := by
      rw [List.take_append, Nat.add_sub_cancel_left, List.take_of_length_le (Nat.le_add_right ..)]
    rw [hfirst, write_append, htake]

/-- Only the beginning is written. -/
theorem left {first : List α} (h : Overwrote False m off first m') (rest : List α) :
    Overwrote False m off (first ++ rest) m' := by
  obtain ⟨k, hk, -, rfl⟩ := h
  refine ⟨k, ?_, False.elim, ?_⟩
  · rw [List.length_append]
    omega
  · rw [List.take_append_of_le_length hk]

/-- The write is shown by a window. -/
theorem seen {place : ℕ → Option ℕ} {blank : α} {p : ℕ} (h : Overwrote done m off data m')
    (hinj : ∀ i j a, place i = some a → place j = some a → i = j)
    (hplace : ∀ k < data.length, place (p + k) = some (off + k)) :
    Overwrote done (Memory.seen place blank m) p data (Memory.seen place blank m') := by
  obtain ⟨k, hk, hall, rfl⟩ := h
  refine ⟨k, hk, hall, seen_write hinj (fun j hj => hplace j ?_) m⟩
  exact hj.trans_le (List.length_take_le' _ _)

end Overwrote

end Memory
