import Mathlib.Algebra.Order.Group.Nat
import Mathlib.Algebra.Order.Ring.Nat
import Mathlib.Data.List.GetD
import Mathlib.Tactic.Common
import Mathlib.Tactic.NormNum

/-!
# Byte buffers: slices, in-place writes and little-endian integers

A buffer is a list.  `slice` reads a range, `splice` overwrites one, and
`readLE` / `writeLE` do the same with an unsigned little-endian integer of a
given width.  A splice that stays inside the buffer keeps its length
(`length_splice`), and every byte of the result is either a byte of the new
data or the old byte (`getD_splice`); all commutation and framing facts below
follow from that one description.
-/

namespace ByteBuf

variable {α : Type*}

/-- The `n` elements of `buffer` from offset `off` on. -/
def slice (buffer : List α) (off n : ℕ) : List α :=
  (buffer.drop off).take n

/-- `buffer` with the range starting at `off` overwritten by `data`. -/
def splice (buffer : List α) (off : ℕ) (data : List α) : List α :=
  buffer.take off ++ data ++ buffer.drop (off + data.length)

/-! ## Slices -/

@[simp] theorem length_slice (buffer : List α) (off n : ℕ) :
    (slice buffer off n).length = min n (buffer.length - off) := by
  simp [slice]

theorem length_slice_of_le {buffer : List α} {off n : ℕ} (h : off + n ≤ buffer.length) :
    (slice buffer off n).length = n := by
  rw [length_slice]
  omega

theorem getElem?_slice (buffer : List α) (off n i : ℕ) :
    (slice buffer off n)[i]? = if i < n then buffer[off + i]? else none := by
  simp [slice, List.getElem?_take, List.getElem?_drop]

theorem getD_slice (buffer : List α) (off n i : ℕ) (d : α) (hi : i < n) :
    (slice buffer off n).getD i d = buffer.getD (off + i) d := by
  simp [List.getD_eq_getElem?_getD, getElem?_slice, hi]

theorem slice_slice (buffer : List α) {off n off' n' : ℕ} (h : off' + n' ≤ n) :
    slice (slice buffer off n) off' n' = slice buffer (off + off') n' := by
  simp only [slice, List.drop_take, List.take_take, List.drop_drop]
  congr 1
  omega

/-- Two slices that meet. -/
theorem slice_append_slice (buffer : List α) (off n n' : ℕ) :
    slice buffer off n ++ slice buffer (off + n) n' = slice buffer off (n + n') := by
  unfold slice
  rw [List.take_add, List.drop_drop]

/-- The pieces of one length, from `off` on. -/
theorem flatMap_slice (buffer : List α) (off n count : ℕ) :
    ((List.range count).flatMap fun k => slice buffer (off + k * n) n) = slice buffer off (count * n) := by
  induction count with
  | zero => simp [slice]
  | succ count ih =>
      rw [List.range_succ, List.flatMap_append, List.flatMap_singleton, ih, slice_append_slice, Nat.succ_mul]

@[simp] theorem slice_zero_length (buffer : List α) : slice buffer 0 buffer.length = buffer := by
  simp [slice]

/-- Two buffers of the same length that agree on every offset are equal. -/
theorem ext_getD {a b : List α} (d : α) (hlen : a.length = b.length)
    (h : ∀ i < a.length, a.getD i d = b.getD i d) : a = b := by
  refine List.ext_getElem hlen fun i hi hi' => ?_
  simpa [List.getD_eq_getElem?_getD, hi, hi'] using h i hi

/-! ## Splices -/

theorem length_splice {buffer data : List α} {off : ℕ}
    (h : off + data.length ≤ buffer.length) : (splice buffer off data).length = buffer.length := by
  simp only [splice, List.length_append, List.length_take, List.length_drop]
  omega

/-- What a splice that stays inside the buffer leaves at every offset. -/
theorem getElem?_splice {buffer data : List α} {off : ℕ} (i : ℕ)
    (h : off + data.length ≤ buffer.length) :
    (splice buffer off data)[i]? =
      if off ≤ i ∧ i < off + data.length then data[i - off]? else buffer[i]? := by
  have htake : (buffer.take off).length = off := by
    rw [List.length_take]
    omega
  rw [splice, List.append_assoc]
  rcases Nat.lt_or_ge i off with hlt | hge
  · rw [if_neg (by omega), List.getElem?_append_left (by omega), List.getElem?_take, if_pos hlt]
  · rw [List.getElem?_append_right (by omega), htake]
    rcases Nat.lt_or_ge i (off + data.length) with hin | hout
    · rw [if_pos ⟨hge, hin⟩, List.getElem?_append_left (by omega)]
    · rw [if_neg (by omega), List.getElem?_append_right (by omega), List.getElem?_drop]
      congr 1
      omega

theorem getD_splice {buffer data : List α} {off : ℕ} (i : ℕ) (d : α)
    (h : off + data.length ≤ buffer.length) :
    (splice buffer off data).getD i d =
      if off ≤ i ∧ i < off + data.length then data.getD (i - off) d else buffer.getD i d := by
  simp only [List.getD_eq_getElem?_getD, getElem?_splice i h]
  split <;> rfl

/-- Reading back the spliced range gives the new data. -/
theorem slice_splice_self {buffer : List α} (data : List α) {off : ℕ} (hoff : off ≤ buffer.length) :
    slice (splice buffer off data) off data.length = data := by
  have htake : (buffer.take off).length = off := by
    rw [List.length_take]
    omega
  rw [slice, splice, List.append_assoc, List.drop_left' htake]
  exact List.take_left' rfl

/-- A slice that does not meet the spliced range is unchanged. -/
theorem slice_splice_of_disjoint {buffer data : List α} {off off' n : ℕ}
    (h : off + data.length ≤ buffer.length)
    (hdisj : off' + n ≤ off ∨ off + data.length ≤ off') :
    slice (splice buffer off data) off' n = slice buffer off' n := by
  refine List.ext_getElem? fun i => ?_
  rw [getElem?_slice, getElem?_slice]
  split
  · rw [getElem?_splice _ h, if_neg (by omega)]
  · rfl

/-- A slice inside the spliced range reads the new data. -/
theorem slice_splice_inside {buffer data : List α} {off off' n : ℕ} (hoff : off ≤ buffer.length)
    (hin : off' + n ≤ data.length) :
    slice (splice buffer off data) (off + off') n = slice data off' n := by
  have hread := slice_splice_self data hoff
  rw [← slice_slice _ hin, hread]

/-- Splicing a range that contains the splice of a part of it. -/
theorem splice_slice_splice {buffer data : List α} {off off' n : ℕ}
    (hbuf : off + n ≤ buffer.length) (hin : off' + data.length ≤ n) :
    splice buffer off (splice (slice buffer off n) off' data) =
      splice buffer (off + off') data := by
  have hslice : (slice buffer off n).length = n := length_slice_of_le hbuf
  have hinner : (splice (slice buffer off n) off' data).length = n := by
    rw [length_splice (by omega), hslice]
  refine List.ext_getElem? fun i => ?_
  rw [getElem?_splice i (by omega), getElem?_splice i (by omega), hinner,
    getElem?_splice _ (by omega), getElem?_slice]
  by_cases hi : off ≤ i ∧ i < off + n
  · have hback : off + (i - off) = i := by omega
    have hsub : i - off - off' = i - (off + off') := by omega
    rw [if_pos hi, if_pos (by omega : i - off < n), hback, hsub]
    by_cases hj : off' ≤ i - off ∧ i - off < off' + data.length
    · rw [if_pos hj, if_pos (by omega)]
    · rw [if_neg hj, if_neg (by omega)]
  · rw [if_neg hi, if_neg (by omega)]

/-- Splices of disjoint ranges commute. -/
theorem splice_comm {buffer data data' : List α} {off off' : ℕ}
    (h : off + data.length ≤ buffer.length) (h' : off' + data'.length ≤ buffer.length)
    (hdisj : off + data.length ≤ off' ∨ off' + data'.length ≤ off) :
    splice (splice buffer off data) off' data' = splice (splice buffer off' data') off data := by
  have hl := length_splice h
  have hl' := length_splice h'
  refine List.ext_getElem? fun i => ?_
  rw [getElem?_splice i (by omega), getElem?_splice i h, getElem?_splice i (by omega),
    getElem?_splice i h']
  split <;> split <;> first | rfl | omega

/-- A splice that continues where another one ended. -/
theorem splice_append {buffer first second : List α} {off : ℕ}
    (h : off + first.length + second.length ≤ buffer.length) :
    splice (splice buffer off first) (off + first.length) second =
      splice buffer off (first ++ second) := by
  refine List.ext_getElem? fun i => ?_
  rw [getElem?_splice i (by rw [length_splice (by omega)]; omega), getElem?_splice i (by omega),
    getElem?_splice i (by rw [List.length_append]; omega), List.length_append]
  by_cases hfirst : off ≤ i ∧ i < off + first.length
  · rw [if_neg (by omega), if_pos hfirst, if_pos (by omega),
      List.getElem?_append_left (by omega)]
  by_cases hsecond : off + first.length ≤ i ∧ i < off + first.length + second.length
  · have hsub : i - off - first.length = i - (off + first.length) := by omega
    rw [if_pos hsecond, if_pos (by omega), List.getElem?_append_right (by omega), hsub]
  · rw [if_neg hsecond, if_neg hfirst, if_neg (by omega)]

/-- A second splice of the same range replaces the first. -/
theorem splice_splice_self {buffer data data' : List α} {off : ℕ}
    (hlen : data.length = data'.length) (h : off + data.length ≤ buffer.length) :
    splice (splice buffer off data) off data' = splice buffer off data' := by
  have hl := length_splice h
  refine List.ext_getElem? fun i => ?_
  rw [getElem?_splice i (by omega), getElem?_splice i h, getElem?_splice i (by omega), hlen]
  split <;> rfl

/-- Splicing twice at one place: of the first data, what goes beyond the second one stays. -/
theorem splice_splice_at {buffer first second : List α} {off : ℕ} (hfirst : off + first.length ≤ buffer.length)
    (hsecond : off + second.length ≤ buffer.length) :
    splice (splice buffer off first) off second = splice buffer off (second ++ first.drop second.length) := by
  have hlen := length_splice hfirst
  have hboth : off + (second ++ first.drop second.length).length ≤ buffer.length := by
    rw [List.length_append, List.length_drop]
    omega
  refine List.ext_getElem? fun i => ?_
  rw [getElem?_splice i (by omega), getElem?_splice i hfirst, getElem?_splice i hboth, List.length_append,
    List.length_drop]
  by_cases hin : off ≤ i ∧ i < off + second.length
  · rw [if_pos hin, if_pos (by omega), List.getElem?_append_left (by omega)]
  · rw [if_neg hin]
    by_cases hold : off ≤ i ∧ i < off + first.length
    · rw [if_pos hold, if_pos (by omega), List.getElem?_append_right (by omega), List.getElem?_drop]
      congr 1
      omega
    · rw [if_neg hold, if_neg (by omega)]

/-- A range that a splice ends in is as it was exactly when the data agree with its first part. -/
theorem slice_splice_eq_iff {buffer data : List α} {off start n : ℕ} (hlow : off ≤ start)
    (hmid : start ≤ off + data.length) (hhigh : off + data.length ≤ start + n) (hlen : start + n ≤ buffer.length) :
    slice (splice buffer off data) start n = slice buffer start n ↔
      data.drop (start - off) = slice buffer start (off + data.length - start) := by
  have hinside : slice (splice buffer off data) start (off + data.length - start) = data.drop (start - off) := by
    have hpart : slice (splice buffer off data) (off + (start - off)) (off + data.length - start) =
        slice data (start - off) (off + data.length - start) := slice_splice_inside (by omega) (by omega)
    rw [show off + (start - off) = start by omega] at hpart
    rw [hpart]
    unfold slice
    exact List.take_of_length_le (by rw [List.length_drop]; omega)
  have hrest : slice (splice buffer off data) (off + data.length) (start + n - (off + data.length)) =
      slice buffer (off + data.length) (start + n - (off + data.length)) :=
    slice_splice_of_disjoint (by omega) (Or.inr le_rfl)
  have hparts : ∀ whole : List α, slice whole start n = slice whole start (off + data.length - start) ++
      slice whole (off + data.length) (start + n - (off + data.length)) := by
    intro whole
    have hmeet := slice_append_slice whole start (off + data.length - start) (start + n - (off + data.length))
    rw [show start + (off + data.length - start) = off + data.length by omega] at hmeet
    rw [hmeet]
    congr 1
    omega
  rw [hparts, hparts buffer, hinside, hrest]
  exact List.append_left_inj _

/-- Splicing the bytes that are already there changes nothing. -/
theorem splice_slice_self {buffer : List α} {off n : ℕ} (h : off + n ≤ buffer.length) :
    splice buffer off (slice buffer off n) = buffer := by
  have hlen : (slice buffer off n).length = n := length_slice_of_le h
  rw [splice, hlen, slice, List.append_assoc, ← List.drop_drop, List.take_append_drop,
    List.take_append_drop]

/-- Splice fields, given as offset and bytes, one after the other. -/
def spliceAll (fields : List (ℕ × List α)) (buffer : List α) : List α :=
  fields.foldl (fun buffer field => splice buffer field.1 field.2) buffer

theorem length_spliceAll {fields : List (ℕ × List α)} {buffer : List α}
    (h : ∀ field ∈ fields, field.1 + field.2.length ≤ buffer.length) :
    (spliceAll fields buffer).length = buffer.length := by
  unfold spliceAll
  induction fields generalizing buffer with
  | nil => rfl
  | cons field rest ih =>
      have hlen := length_splice (h field (List.mem_cons_self ..))
      rw [List.foldl_cons, ih, hlen]
      intro field' hmem
      rw [hlen]
      exact h field' (List.mem_cons_of_mem _ hmem)

/-- A range that no field meets is unchanged. -/
theorem slice_spliceAll_of_disjoint {fields : List (ℕ × List α)} {buffer : List α} {off n : ℕ}
    (h : ∀ field ∈ fields, field.1 + field.2.length ≤ buffer.length)
    (hdisj : ∀ field ∈ fields, off + n ≤ field.1 ∨ field.1 + field.2.length ≤ off) :
    slice (spliceAll fields buffer) off n = slice buffer off n := by
  unfold spliceAll
  induction fields generalizing buffer with
  | nil => rfl
  | cons field rest ih =>
      have hlen := length_splice (h field (List.mem_cons_self ..))
      rw [List.foldl_cons, ih, slice_splice_of_disjoint (h field (List.mem_cons_self ..))
        (hdisj field (List.mem_cons_self ..))]
      · intro field' hmem
        rw [hlen]
        exact h field' (List.mem_cons_of_mem _ hmem)
      · exact fun field' hmem => hdisj field' (List.mem_cons_of_mem _ hmem)

/-- The field at position `k`, if no later one meets it, is read back. -/
theorem slice_spliceAll {fields : List (ℕ × List α)} {buffer : List α} (k : ℕ)
    (hk : k < fields.length)
    (h : ∀ field ∈ fields, field.1 + field.2.length ≤ buffer.length)
    (hdisj : ∀ later ∈ fields.drop (k + 1), fields[k].1 + fields[k].2.length ≤ later.1 ∨
      later.1 + later.2.length ≤ fields[k].1) :
    slice (spliceAll fields buffer) fields[k].1 fields[k].2.length = fields[k].2 := by
  have hfirst : (spliceAll (fields.take k) buffer).length = buffer.length :=
    length_spliceAll fun field hmem => h field (List.mem_of_mem_take hmem)
  have hfield : fields[k].1 + fields[k].2.length ≤ buffer.length := h _ (List.getElem_mem hk)
  have hsplit : spliceAll fields buffer = spliceAll (fields.drop (k + 1))
      (splice (spliceAll (fields.take k) buffer) fields[k].1 fields[k].2) := by
    conv_lhs => rw [← List.take_append_drop k fields, List.drop_eq_getElem_cons hk]
    unfold spliceAll
    rw [List.foldl_append, List.foldl_cons]
  rw [hsplit, slice_spliceAll_of_disjoint _ hdisj, slice_splice_self _ (by omega)]
  intro field hmem
  rw [length_splice (by omega), hfirst]
  exact h field (List.mem_of_mem_drop hmem)

/-! ## Little-endian integers -/

/-- The unsigned integer of a little-endian byte sequence. -/
def leNat : List UInt8 → ℕ
  | [] => 0
  | byte :: rest => byte.toNat + 256 * leNat rest

/-- The `width` low bytes of `n`, least significant first. -/
def leBytes : ℕ → ℕ → List UInt8
  | 0, _ => []
  | width + 1, n => UInt8.ofNat n :: leBytes width (n / 256)

/-- The `width`-byte integer stored at `off`. -/
def readLE (buffer : List UInt8) (off width : ℕ) : ℕ :=
  leNat (slice buffer off width)

/-- Store the `width`-byte integer `n` at `off`. -/
def writeLE (buffer : List UInt8) (off width n : ℕ) : List UInt8 :=
  splice buffer off (leBytes width n)

@[simp] theorem length_leBytes (width n : ℕ) : (leBytes width n).length = width := by
  induction width generalizing n with
  | zero => rfl
  | succ width ih => simp [leBytes, ih]

theorem leNat_lt (bytes : List UInt8) : leNat bytes < 256 ^ bytes.length := by
  induction bytes with
  | nil => simp [leNat]
  | cons byte rest ih =>
      have hbyte := byte.toNat_lt
      simp only [leNat, List.length_cons, pow_succ]
      omega

theorem readLE_lt (buffer : List UInt8) (off width : ℕ) : readLE buffer off width < 256 ^ width := by
  refine lt_of_lt_of_le (leNat_lt _) (Nat.pow_le_pow_right (by norm_num) ?_)
  rw [length_slice]
  exact min_le_left _ _

theorem leNat_leBytes (width n : ℕ) : leNat (leBytes width n) = n % 256 ^ width := by
  induction width generalizing n with
  | zero => simp [leBytes, leNat, Nat.mod_one]
  | succ width ih =>
      have hbyte : (UInt8.ofNat n).toNat = n % 256 := by simp
      rw [leBytes, leNat, ih, hbyte, pow_succ, Nat.mul_comm _ 256, Nat.mod_mul]

theorem leBytes_leNat (bytes : List UInt8) : leBytes bytes.length (leNat bytes) = bytes := by
  induction bytes with
  | nil => rfl
  | cons byte rest ih =>
      have hbyte := byte.toNat_lt
      have hdiv : (byte.toNat + 256 * leNat rest) / 256 = leNat rest := by omega
      have hmod : UInt8.ofNat (byte.toNat + 256 * leNat rest) = byte := by
        apply UInt8.toNat_inj.mp
        simp only [UInt8.toNat_ofNat', Nat.reducePow]
        omega
      rw [List.length_cons, leNat, leBytes, hdiv, hmod, ih]

/-- Writing an integer that was read gives its bytes. -/
theorem leBytes_readLE {buffer : List UInt8} {off width : ℕ} (h : off + width ≤ buffer.length) :
    leBytes width (readLE buffer off width) = slice buffer off width := by
  have hslice := leBytes_leNat (slice buffer off width)
  rwa [length_slice_of_le h] at hslice

theorem length_writeLE {buffer : List UInt8} {off width : ℕ} (n : ℕ)
    (h : off + width ≤ buffer.length) : (writeLE buffer off width n).length = buffer.length :=
  length_splice (by simpa using h)

theorem readLE_writeLE_self {buffer : List UInt8} {off width : ℕ} (n : ℕ)
    (h : off ≤ buffer.length) : readLE (writeLE buffer off width n) off width = n % 256 ^ width := by
  have := slice_splice_self (leBytes width n) h
  rw [length_leBytes] at this
  rw [readLE, writeLE, this, leNat_leBytes]

theorem readLE_splice_of_disjoint {buffer data : List UInt8} {off off' width : ℕ}
    (h : off + data.length ≤ buffer.length)
    (hdisj : off' + width ≤ off ∨ off + data.length ≤ off') :
    readLE (splice buffer off data) off' width = readLE buffer off' width := by
  rw [readLE, slice_splice_of_disjoint h hdisj, readLE]

theorem readLE_splice_inside {buffer data : List UInt8} {off off' width : ℕ}
    (hoff : off ≤ buffer.length) (hlow : off ≤ off') (hin : off' - off + width ≤ data.length) :
    readLE (splice buffer off data) off' width = readLE data (off' - off) width := by
  have hadd : off + (off' - off) = off' := by omega
  have hslice := slice_splice_inside hoff hin
  rw [hadd] at hslice
  rw [readLE, readLE, hslice]

theorem readLE_writeLE_of_disjoint {buffer : List UInt8} {off off' width width' : ℕ} (n : ℕ)
    (h : off + width ≤ buffer.length)
    (hdisj : off' + width' ≤ off ∨ off + width ≤ off') :
    readLE (writeLE buffer off width n) off' width' = readLE buffer off' width' :=
  readLE_splice_of_disjoint (by simpa using h) (by simpa using hdisj)

theorem slice_writeLE_of_disjoint {buffer : List UInt8} {off off' width n' : ℕ} (n : ℕ)
    (h : off + width ≤ buffer.length)
    (hdisj : off' + n' ≤ off ∨ off + width ≤ off') :
    slice (writeLE buffer off width n) off' n' = slice buffer off' n' :=
  slice_splice_of_disjoint (by simpa using h) (by simpa using hdisj)

theorem readLE_slice (buffer : List UInt8) (off : ℕ) {n off' width : ℕ} (h : off' + width ≤ n) :
    readLE (slice buffer off n) off' width = readLE buffer (off + off') width := by
  rw [readLE, slice_slice _ h, readLE]

theorem slice_append_left {a : List α} (b : List α) {off n : ℕ} (h : off + n ≤ a.length) :
    slice (a ++ b) off n = slice a off n := by
  rw [slice, List.drop_append_of_le_length (by omega), List.take_append_of_le_length, slice]
  rw [List.length_drop]
  omega

theorem slice_append_right {a : List α} (b : List α) {off : ℕ} (n : ℕ) (h : a.length ≤ off) :
    slice (a ++ b) off n = slice b (off - a.length) n := by
  rw [slice, List.drop_append, List.drop_of_length_le h, List.nil_append, slice]

/-- A piece of a sequence of pieces of one length. -/
theorem slice_flatMap {β : Type*} {f : β → List α} {n : ℕ} (hlen : ∀ b, (f b).length = n) {l : List β}
    {i : ℕ} (hi : i < l.length) : slice (l.flatMap f) (i * n) n = f l[i] := by
  induction l generalizing i with
  | nil => exact absurd hi (Nat.not_lt_zero _)
  | cons b rest ih =>
      rw [List.flatMap_cons]
      cases i with
      | zero =>
          have hself := slice_zero_length (f b)
          rw [hlen] at hself
          rw [Nat.zero_mul, slice_append_left _ (by rw [hlen, Nat.zero_add]), hself, List.getElem_cons_zero]
      | succ i =>
          have hoff : (i + 1) * n - n = i * n := by
            rw [Nat.succ_mul, Nat.add_sub_cancel]
          rw [slice_append_right _ _ (by rw [hlen, Nat.succ_mul]; omega), hlen, hoff,
            ih (Nat.lt_of_succ_lt_succ hi), List.getElem_cons_succ]

theorem readLE_append_left {a : List UInt8} (b : List UInt8) {off width : ℕ}
    (h : off + width ≤ a.length) : readLE (a ++ b) off width = readLE a off width := by
  rw [readLE, slice_append_left b h, readLE]

theorem readLE_append_right {a : List UInt8} (b : List UInt8) {off : ℕ} (width : ℕ)
    (h : a.length ≤ off) : readLE (a ++ b) off width = readLE b (off - a.length) width := by
  rw [readLE, slice_append_right b width h, readLE]

theorem readLE_leBytes (width n : ℕ) : readLE (leBytes width n) 0 width = n % 256 ^ width := by
  have hslice := slice_zero_length (leBytes width n)
  rw [length_leBytes] at hslice
  rw [readLE, hslice, leNat_leBytes]

/-- An integer of width one is a byte. -/
theorem readLE_one (buffer : List UInt8) (off : ℕ) :
    readLE buffer off 1 = (buffer.getD off 0).toNat := by
  have hhead : (buffer.drop off)[0]? = buffer[off]? := by
    rw [List.getElem?_drop, Nat.add_zero]
  rw [List.getD_eq_getElem?_getD, ← hhead, readLE, slice]
  cases buffer.drop off with
  | nil => rfl
  | cons byte rest => simp [leNat]

/-- A zero-filled buffer. -/
def zeros (n : ℕ) : List UInt8 :=
  List.replicate n 0

@[simp] theorem length_zeros (n : ℕ) : (zeros n).length = n := by
  simp [zeros]

/-- Splicing at the start of trailing zeros. -/
theorem splice_append_zeros (written data : List UInt8) (n : ℕ) :
    splice (written ++ zeros n) written.length data =
      written ++ data ++ zeros (n - data.length) := by
  unfold splice zeros
  rw [List.take_left' rfl, ← List.drop_drop, List.drop_left' rfl, List.drop_replicate]

@[simp] theorem getD_zeros (n i : ℕ) : (zeros n).getD i 0 = 0 := by
  simp only [zeros, List.getD_eq_getElem?_getD, List.getElem?_replicate]
  split <;> rfl

end ByteBuf
