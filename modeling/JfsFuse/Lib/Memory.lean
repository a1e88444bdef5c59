import JfsFuse.Lib.Bytes

/-!
# Sequences of range writes on a memory

A memory is a function from addresses to values.  `write` overwrites a range,
`writeAll` performs a list of such writes in order, and `read` lists a range.

The last write that covers an address decides its value, so what `writeAll`
leaves at an address depends on the memory it starts from only when no write
covers that address (`writeAll_congr`).  Running a sequence of writes again
after any part of it therefore gives what running it once gives
(`writeAll_absorb`), which is the argument behind a restartable redo log.
-/

namespace Memory

open ByteBuf

variable {α : Type*}

/-- The memory `m` with the range starting at `off` overwritten by `data`. -/
def write (m : ℕ → α) (off : ℕ) (data : List α) : ℕ → α :=
  fun i => if off ≤ i ∧ i < off + data.length then data.getD (i - off) (m i) else m i

/-- The `n` values from `off` on. -/
def read (m : ℕ → α) (off n : ℕ) : List α :=
  (List.range n).map fun i => m (off + i)

/-- Perform the writes `(offset, data)` in order. -/
def writeAll (writes : List (ℕ × List α)) (m : ℕ → α) : ℕ → α :=
  writes.foldl (fun current entry => write current entry.1 entry.2) m

/-- Address `i` lies in the range of the write `entry`. -/
def Covers (entry : ℕ × List α) (i : ℕ) : Prop :=
  entry.1 ≤ i ∧ i < entry.1 + entry.2.length

instance (entry : ℕ × List α) (i : ℕ) : Decidable (Covers entry i) :=
  inferInstanceAs (Decidable (_ ∧ _))

/-! ## One write -/

theorem write_outside {m : ℕ → α} {off i : ℕ} {data : List α}
    (h : ¬ (off ≤ i ∧ i < off + data.length)) : write m off data i = m i := by
  rw [write, if_neg h]

theorem write_inside {m : ℕ → α} {off i : ℕ} {data : List α} (d : α)
    (h : off ≤ i ∧ i < off + data.length) : write m off data i = data.getD (i - off) d := by
  have hi : i - off < data.length := by omega
  rw [write, if_pos h]
  simp [List.getD_eq_getElem?_getD, hi]

@[simp] theorem write_nil (m : ℕ → α) (off : ℕ) : write m off [] = m := by
  funext i
  exact write_outside (by simp)

/-- A write that continues where another one ended. -/
theorem write_append (m : ℕ → α) (off : ℕ) (first second : List α) :
    write (write m off first) (off + first.length) second = write m off (first ++ second) := by
  funext i
  by_cases hfirst : off ≤ i ∧ i < off + first.length
  · have hlt : i - off < first.length := by omega
    rw [write_outside (by omega), write_inside (m i) hfirst,
      write_inside (m i) (by rw [List.length_append]; omega), List.getD_append _ _ _ _ hlt]
  by_cases hsecond : off + first.length ≤ i ∧ i < off + first.length + second.length
  · have hsub : i - off - first.length = i - (off + first.length) := by omega
    rw [write_inside (m i) hsecond, write_inside (m i) (by rw [List.length_append]; omega),
      List.getD_append_right _ _ _ _ (by omega), hsub]
  · rw [write_outside hsecond, write_outside hfirst,
      write_outside (by rw [List.length_append]; omega)]

@[simp] theorem length_read (m : ℕ → α) (off n : ℕ) : (read m off n).length = n := by
  simp [read]

theorem getElem?_read (m : ℕ → α) (off n i : ℕ) :
    (read m off n)[i]? = if i < n then some (m (off + i)) else none := by
  rw [read, List.getElem?_map]
  split
  · next hi => rw [List.getElem?_range hi, Option.map_some]
  · next hi => rw [List.getElem?_eq_none (by simpa using hi), Option.map_none]

theorem getD_read (m : ℕ → α) {off n i : ℕ} (d : α) (hi : i < n) :
    (read m off n).getD i d = m (off + i) := by
  rw [List.getD_eq_getElem?_getD, getElem?_read, if_pos hi, Option.getD_some]

theorem read_congr {m m' : ℕ → α} {off n : ℕ} (h : ∀ i, off ≤ i → i < off + n → m i = m' i) :
    read m off n = read m' off n := by
  refine List.ext_getElem? fun i => ?_
  rw [getElem?_read, getElem?_read]
  split
  · rw [h _ (by omega) (by omega)]
  · rfl

theorem slice_read (m : ℕ → α) {off n off' n' : ℕ} (h : off' + n' ≤ n) :
    slice (read m off n) off' n' = read m (off + off') n' := by
  refine List.ext_getElem? fun i => ?_
  rw [getElem?_slice, getElem?_read, getElem?_read]
  split
  · rw [if_pos (by omega), Nat.add_assoc]
  · rfl

theorem read_write_self (m : ℕ → α) (off : ℕ) (data : List α) :
    read (write m off data) off data.length = data := by
  refine List.ext_getElem? fun i => ?_
  rw [getElem?_read]
  split
  · next hi => simp [write, hi]
  · next hi => simp [List.getElem?_eq_none (by omega : data.length ≤ i)]

theorem read_write_of_disjoint {m : ℕ → α} {off off' n : ℕ} {data : List α}
    (h : off' + n ≤ off ∨ off + data.length ≤ off') :
    read (write m off data) off' n = read m off' n :=
  read_congr fun i _ _ => write_outside (by omega)

/-- Reading a window around a write is splicing the data into the window. -/
theorem read_write_window {m : ℕ → α} {base off n : ℕ} {data : List α} (hbase : base ≤ off)
    (hend : off + data.length ≤ base + n) :
    read (write m off data) base n = splice (read m base n) (off - base) data := by
  refine List.ext_getElem? fun i => ?_
  rw [getElem?_splice _ (by rw [length_read]; omega), getElem?_read, getElem?_read]
  by_cases hin : off - base ≤ i ∧ i < off - base + data.length
  · have hlt : i - (off - base) < data.length := by omega
    have hsub : base + i - off = i - (off - base) := by omega
    rw [if_pos hin, if_pos (by omega), write_inside (m (base + i)) (by omega), hsub]
    simp [List.getD_eq_getElem?_getD, hlt]
  · rw [if_neg hin]
    split
    · rw [write_outside (by omega)]
    · rfl

/-! ## Sequences of writes -/

@[simp] theorem writeAll_nil (m : ℕ → α) : writeAll [] m = m := rfl

@[simp] theorem writeAll_cons (entry : ℕ × List α) (rest : List (ℕ × List α)) (m : ℕ → α) :
    writeAll (entry :: rest) m = writeAll rest (write m entry.1 entry.2) := rfl

theorem writeAll_append (first second : List (ℕ × List α)) (m : ℕ → α) :
    writeAll (first ++ second) m = writeAll second (writeAll first m) :=
  List.foldl_append ..

/-- An address that no write covers keeps its value. -/
theorem writeAll_of_not_covered {writes : List (ℕ × List α)} {m : ℕ → α} {i : ℕ}
    (h : ∀ entry ∈ writes, ¬ Covers entry i) : writeAll writes m i = m i := by
  induction writes generalizing m with
  | nil => rfl
  | cons entry rest ih =>
      rw [writeAll_cons, ih fun candidate hmem => h candidate (List.mem_cons_of_mem _ hmem)]
      exact write_outside (h entry (List.mem_cons_self ..))

/-- What a sequence of writes leaves at an address depends on the start only
where no write covers the address. -/
theorem writeAll_congr {writes : List (ℕ × List α)} {m m' : ℕ → α} {i : ℕ}
    (h : (∃ entry ∈ writes, Covers entry i) ∨ m i = m' i) :
    writeAll writes m i = writeAll writes m' i := by
  induction writes generalizing m m' with
  | nil =>
      rcases h with ⟨entry, hmem, _⟩ | h
      · simp at hmem
      · exact h
  | cons entry rest ih =>
      rw [writeAll_cons, writeAll_cons]
      refine ih ?_
      by_cases hcov : Covers entry i
      · right
        rw [write_inside (m i) hcov, write_inside (m i) hcov]
      · rcases h with ⟨candidate, hmem, hcand⟩ | h
        · rcases List.mem_cons.mp hmem with rfl | hmem
          · exact absurd hcand hcov
          · exact Or.inl ⟨candidate, hmem, hcand⟩
        · right
          rw [write_outside hcov, write_outside hcov, h]

/-- Running a sequence of writes absorbs any writes that only touch addresses
the sequence covers. -/
theorem writeAll_absorb {part writes : List (ℕ × List α)} (m : ℕ → α)
    (h : ∀ entry ∈ part, ∀ i, Covers entry i → ∃ later ∈ writes, Covers later i) :
    writeAll writes (writeAll part m) = writeAll writes m := by
  funext i
  apply writeAll_congr
  by_cases hcov : ∃ later ∈ writes, Covers later i
  · exact Or.inl hcov
  · refine Or.inr (writeAll_of_not_covered fun entry hmem hentry => hcov ?_)
    exact h entry hmem i hentry

/-- In particular it absorbs any part of itself, and itself. -/
theorem writeAll_absorb_subset {part writes : List (ℕ × List α)} (m : ℕ → α)
    (h : part ⊆ writes) : writeAll writes (writeAll part m) = writeAll writes m :=
  writeAll_absorb m fun entry hmem _ hcov => ⟨entry, h hmem, hcov⟩

/-- The value a covered address ends with comes from the last covering write. -/
theorem writeAll_of_last {before after : List (ℕ × List α)} {entry : ℕ × List α} {m : ℕ → α}
    {i : ℕ} (d : α) (hcov : Covers entry i) (hafter : ∀ later ∈ after, ¬ Covers later i) :
    writeAll (before ++ entry :: after) m i = entry.2.getD (i - entry.1) d := by
  rw [writeAll_append, writeAll_cons, writeAll_of_not_covered hafter, write_inside d hcov]

theorem read_write_inside {m : ℕ → α} {off base n : ℕ} {data : List α} (hlow : off ≤ base)
    (hhigh : base + n ≤ off + data.length) :
    read (write m off data) base n = slice data (base - off) n := by
  refine List.ext_getElem? fun i => ?_
  rw [getElem?_read, getElem?_slice]
  split
  · have hlt : base - off + i < data.length := by omega
    have hsub : base + i - off = base - off + i := by omega
    rw [write_inside (m (base + i)) (by omega), hsub, List.getElem?_eq_getElem hlt]
    simp [List.getD_eq_getElem?_getD, hlt]
  · rfl

theorem read_writeAll_of_disjoint {writes : List (ℕ × List α)} {m : ℕ → α} {base n : ℕ}
    (h : ∀ entry ∈ writes, entry.1 + entry.2.length ≤ base ∨ base + n ≤ entry.1) :
    read (writeAll writes m) base n = read m base n := by
  refine read_congr fun i hlow hhigh => writeAll_of_not_covered fun entry hmem hcov => ?_
  obtain ⟨hfrom, hto⟩ := hcov
  have hdisj := h entry hmem
  omega

end Memory
