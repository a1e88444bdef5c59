import JfsFuse.Lib.Bytes

/-!
# Bitmaps in byte buffers

A bitmap at offset `off` of a buffer is a sequence of little-endian 32-bit words;
bit `i` is bit `i % 32` of word `i / 32`.
-/

namespace ByteBuf

/-- Bit `i` of the bitmap at `off`. -/
def testBit (buffer : List UInt8) (off i : ℕ) : Bool :=
  (readLE buffer (off + i / 32 * 4) 4).testBit (i % 32)

/-- Set bit `i` of the bitmap at `off`. -/
def setBit (buffer : List UInt8) (off i : ℕ) : List UInt8 :=
  writeLE buffer (off + i / 32 * 4) 4 (readLE buffer (off + i / 32 * 4) 4 ||| 2 ^ (i % 32))

theorem length_setBit {buffer : List UInt8} {off i : ℕ}
    (h : off + i / 32 * 4 + 4 ≤ buffer.length) : (setBit buffer off i).length = buffer.length :=
  length_writeLE _ h

theorem testBit_setBit {buffer : List UInt8} {off i j : ℕ}
    (h : off + i / 32 * 4 + 4 ≤ buffer.length) :
    testBit (setBit buffer off i) off j = (testBit buffer off j || decide (i = j)) := by
  have hbit : i % 32 < 32 := Nat.mod_lt _ (by decide)
  unfold testBit setBit
  by_cases hword : i / 32 = j / 32
  · rw [← hword, readLE_writeLE_self _ (by omega)]
    have hfits : readLE buffer (off + i / 32 * 4) 4 ||| 2 ^ (i % 32) < 256 ^ 4 := by
      have hpow : (256 : ℕ) ^ 4 = 2 ^ 32 := by norm_num
      rw [hpow]
      refine Nat.or_lt_two_pow ?_ (Nat.pow_lt_pow_right (by norm_num) hbit)
      rw [← hpow]
      exact readLE_lt ..
    have hsame : i % 32 = j % 32 ↔ i = j := by omega
    rw [Nat.mod_eq_of_lt hfits, Nat.testBit_or, Nat.testBit_two_pow]
    simp only [hsame]
  · have hne : i ≠ j := fun heq => hword (by rw [heq])
    rw [readLE_writeLE_of_disjoint _ h (by omega), decide_eq_false hne, Bool.or_false]

/-- A bit outside a spliced range is unchanged. -/
theorem testBit_splice_of_disjoint {buffer data : List UInt8} {off off' i : ℕ}
    (h : off' + data.length ≤ buffer.length)
    (hdisj : off + i / 32 * 4 + 4 ≤ off' ∨ off' + data.length ≤ off + i / 32 * 4) :
    testBit (splice buffer off' data) off i = testBit buffer off i := by
  unfold testBit
  rw [readLE_splice_of_disjoint h hdisj]

@[simp] theorem testBit_zeros (n off i : ℕ) : testBit (zeros n) off i = false := by
  have hzero : ∀ k, leNat (List.replicate k 0) = 0 := by
    intro k
    induction k with
    | zero => rfl
    | succ k ih => rw [List.replicate_succ, leNat, ih]; rfl
  unfold testBit readLE slice zeros
  rw [List.drop_replicate, List.take_replicate, hzero, Nat.zero_testBit]

end ByteBuf
