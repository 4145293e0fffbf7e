import HocusPocus.Machine.Blocks

/-!
# The bits of a byte string

Bit `i` is bit `i % 8` of byte `i / 8`, as `BitVector` and the little-endian reading of a block have
it.

* `testBit_leValue`: the bits of a block are those of its number.
* `bitAt_lane`: the bits of a 64-bit lane.
* `eq_of_bitAt`: a block is determined by its bits.
* `testBit_orBits`, `bitAt_ofBits`: numbers and blocks made of given bits.
-/

namespace Machine

variable {n : Nat}

/-- Bit `i` of a block. -/
def bitAt (b : Vector UInt8 n) (i : Nat) : Bool := (b.toList.getD (i / 8) 0).toNat.testBit (i % 8)

theorem bitAt_eq {b : Vector UInt8 n} {i : Nat} (hi : i / 8 < n) :
    bitAt b i = (b[i / 8]).toNat.testBit (i % 8) := by
  simp [bitAt, List.getD_eq_getElem?_getD, hi]

theorem bitAt_of_ge {b : Vector UInt8 n} {i : Nat} (hi : n ≤ i / 8) : bitAt b i = false := by
  rw [bitAt, List.getD_eq_default _ _ (by simpa using hi)]
  exact Nat.zero_testBit _

/-- The bytes of a block are the digits of its number. -/
theorem toNat_getElem_eq (b : Vector UInt8 n) {i : Nat} (hi : i < n) :
    (b[i]).toNat = leValue b / 256 ^ i % 256 := by
  have hb : leBytes n (leValue b) = b := by
    refine leValue_injective ?_
    rw [leValue_leBytes, Nat.mod_eq_of_lt (leValue_lt b)]
  have h := toNat_leBytes (leValue b) hi
  simp only [hb] at h
  exact h

/-- **The bits of a block are those of its number.** -/
theorem testBit_leValue (b : Vector UInt8 n) (i : Nat) : (leValue b).testBit i = bitAt b i := by
  have hpow : (256 : Nat) ^ (i / 8) = 2 ^ (8 * (i / 8)) := by
    rw [Nat.pow_mul]
  by_cases hi : i / 8 < n
  · have hsum : 8 * (i / 8) + i % 8 = i := Nat.div_add_mod i 8
    rw [bitAt_eq hi, toNat_getElem_eq b hi, show (256 : Nat) = 2 ^ 8 from rfl,
      Nat.testBit_mod_two_pow, decide_eq_true (Nat.mod_lt i (by decide)), Bool.true_and,
      ← Nat.pow_mul, Nat.testBit_div_two_pow, Nat.add_comm (i % 8), hsum]
  · have hle : 256 ^ n ≤ 2 ^ i := by
      rw [show (256 : Nat) = 2 ^ 8 from rfl, ← Nat.pow_mul]
      exact Nat.pow_le_pow_right (by decide) (by omega)
    rw [bitAt_of_ge (Nat.le_of_not_lt hi),
      Nat.testBit_lt_two_pow ((leValue_lt b).trans_le hle)]

/-- **A block is determined by its bits.** -/
theorem eq_of_bitAt {a b : Vector UInt8 n} (h : ∀ i < 8 * n, bitAt a i = bitAt b i) : a = b := by
  refine leValue_injective (Nat.eq_of_testBit_eq fun i => ?_)
  rw [testBit_leValue, testBit_leValue]
  rcases Nat.lt_or_ge i (8 * n) with hi | hi
  · exact h i hi
  · rw [bitAt_of_ge (by omega), bitAt_of_ge (by omega)]

@[simp] theorem bitAt_xor (a b : Vector UInt8 n) (i : Nat) :
    bitAt (a ^^^ b) i = (bitAt a i ^^ bitAt b i) := by
  by_cases hi : i / 8 < n
  · rw [bitAt_eq hi, bitAt_eq hi, bitAt_eq hi, getElem_xor, UInt8.toNat_xor, Nat.testBit_xor]
  · rw [bitAt_of_ge (Nat.le_of_not_lt hi), bitAt_of_ge (Nat.le_of_not_lt hi),
      bitAt_of_ge (Nat.le_of_not_lt hi)]
    rfl

/-! ## Blocks made of bits -/

/-- The loop `x |= bit[k] << k` over `k < n`. -/
def orBits (bit : Nat → Bool) (n : Nat) : Nat :=
  (List.range n).foldl (fun x k => x ||| (bit k).toNat <<< k) 0

theorem testBit_orBits (bit : Nat → Bool) (n k : Nat) :
    (orBits bit n).testBit k = (decide (k < n) && bit k) := by
  unfold orBits
  induction n with
  | zero => simp
  | succ n ih =>
    rw [List.range_succ, List.foldl_append, List.foldl_cons, List.foldl_nil, Nat.testBit_or, ih,
      Nat.testBit_shiftLeft]
    rcases Nat.lt_trichotomy k n with hlt | rfl | hgt
    · have hle : ¬ n ≤ k := by omega
      simp [hlt, hle, Nat.lt_succ_of_lt hlt]
    · cases bit k <;> simp
    · have hlt : ¬ k < n := by omega
      have hsucc : ¬ k < n + 1 := by omega
      have hone : (bit n).toNat.testBit (k - n) = false := by
        refine Nat.testBit_lt_two_pow ((Bool.toNat_lt (bit n)).trans_le ?_)
        exact Nat.pow_le_pow_right Nat.zero_lt_two (by omega : 1 ≤ k - n)
      simp [hlt, hsucc, hone]

/-- The block with the given bits. -/
def ofBits (n : Nat) (bit : Nat → Bool) : Vector UInt8 n :=
  Vector.ofFn fun i => UInt8.ofNat (orBits (fun k => bit (8 * i + k)) 8)

@[simp] theorem bitAt_ofBits (bit : Nat → Bool) {i : Nat} (hi : i < 8 * n) :
    bitAt (ofBits n bit) i = bit i := by
  have hsum : 8 * (i / 8) + i % 8 = i := Nat.div_add_mod i 8
  have hmod : i % 8 < 8 := Nat.mod_lt i (by decide)
  rw [bitAt_eq (by omega), ofBits, Vector.getElem_ofFn, UInt8.toNat_ofNat',
    Nat.testBit_mod_two_pow, testBit_orBits, decide_eq_true hmod, Bool.true_and, Bool.true_and,
    hsum]

/-! ## Lanes -/

/-- **The bits of a lane.** -/
theorem bitAt_lane (b : Vector UInt8 16) (k : Nat) {j : Nat} (hj : j < 64) :
    (lane b k).testBit j = bitAt b (64 * k + j) := by
  have hbyte : (64 * k + j) / 8 = 8 * k + j / 8 := by omega
  have hbit : (64 * k + j) % 8 = j % 8 := by omega
  rw [lane, testBit_leValue, bitAt_eq (by omega), block, Vector.getElem_ofFn, bitAt, hbyte, hbit]

end Machine
