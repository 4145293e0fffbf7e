import Mathlib.Algebra.BigOperators.Intervals
import Mathlib.Algebra.Order.BigOperators.Group.Finset
import Mathlib.Algebra.BigOperators.Ring.Finset
import Mathlib.Data.Nat.ModEq
import Mathlib.Tactic.Ring

/-!
# Numbers in a radix

A sequence of limbs `a : ℕ → ℕ` in radix `b` stands for `value b n a = Σ_{i < n} a i * b ^ i`. The
limbs need not be below `b`. Carrying a number to digits is the recursion of `carry`: position
`n` holds `carry b a n = a n + carry b a (n - 1) / b`.

* `value_lt`: digits below `b` give a value below `b ^ n`.
* `value_digits`: the digits of a number give it back.
* `digits_unique`: digits below the radix are determined by the value.
* `value_carried`: a carry chain keeps the value.
* `value_conv`: the schoolbook product multiplies the values.
* `value_conv_digits`: the lower limbs of the product of two numbers.
-/

namespace Arith

open Finset

/-- The number with limbs `a 0, …, a (n - 1)` in radix `b`. -/
def value (b n : Nat) (a : Nat → Nat) : Nat := ∑ i ∈ range n, a i * b ^ i

@[simp] theorem value_zero (b : Nat) (a : Nat → Nat) : value b 0 a = 0 := rfl

theorem value_succ (b n : Nat) (a : Nat → Nat) :
    value b (n + 1) a = value b n a + a n * b ^ n := sum_range_succ _ _

/-- A number is zero when its digits are. -/
theorem value_eq_zero_iff {b : Nat} (hb : 0 < b) {n : Nat} {a : Nat → Nat} :
    value b n a = 0 ↔ ∀ i < n, a i = 0 := by
  rw [value, sum_eq_zero_iff]
  refine forall_congr' fun i => ⟨fun h hi => ?_, fun h hi => ?_⟩
  · exact (Nat.mul_eq_zero.mp (h (mem_range.mpr hi))).resolve_right (Nat.pow_pos hb).ne'
  · rw [h (mem_range.mp hi), zero_mul]

theorem value_congr {b n : Nat} {a a' : Nat → Nat} (h : ∀ i < n, a i = a' i) :
    value b n a = value b n a' :=
  sum_congr rfl fun i hi => by rw [h i (mem_range.mp hi)]

theorem value_add (b n : Nat) (a a' : Nat → Nat) :
    value b n (fun i => a i + a' i) = value b n a + value b n a' := by
  simp only [value, add_mul, sum_add_distrib]

theorem value_mul_left (b n c : Nat) (a : Nat → Nat) :
    value b n (fun i => c * a i) = c * value b n a := by
  simp only [value, mul_sum, mul_assoc]

theorem value_mono {b n : Nat} {a a' : Nat → Nat} (h : ∀ i < n, a i ≤ a' i) :
    value b n a ≤ value b n a' :=
  sum_le_sum fun i hi => Nat.mul_le_mul_right _ (h i (mem_range.mp hi))

/-- A value, low limb first. -/
theorem value_head (b n : Nat) (a : Nat → Nat) :
    value b (n + 1) a = a 0 + b * value b n fun i => a (i + 1) := by
  simp only [value, sum_range_succ', mul_sum, pow_succ, pow_zero, mul_one]
  rw [add_comm]
  congr 1
  exact sum_congr rfl fun i _ => by ring

/-- A value, split after `n` limbs. -/
theorem value_split (b n m : Nat) (a : Nat → Nat) :
    value b (n + m) a = value b n a + b ^ n * value b m fun i => a (n + i) := by
  rw [value, sum_range_add, value, value, mul_sum]
  congr 1
  exact sum_congr rfl fun i _ => by rw [pow_add]; ring

/-- A value, with the limbs taken in groups of `k`. -/
theorem value_group (b k n : Nat) (a : Nat → Nat) :
    value b (k * n) a = value (b ^ k) n fun i => value b k fun j => a (k * i + j) := by
  induction n with
  | zero => rfl
  | succ n ih =>
    rw [Nat.mul_succ, value_split, ih, value_succ, ← pow_mul]
    ring

/-- A sum of values, limb by limb. -/
theorem value_sum {ι : Type} (b n : Nat) (s : Finset ι) (c : ι → Nat) (a : ι → Nat → Nat) :
    value b n (fun l => ∑ i ∈ s, c i * a i l) = ∑ i ∈ s, c i * value b n (a i) := by
  simp only [value, sum_mul, mul_sum]
  rw [sum_comm]
  exact sum_congr rfl fun i _ => sum_congr rfl fun l _ => by ring

/-- Nothing but the largest digit. -/
theorem value_maxDigits {b : Nat} (n : Nat) : value (b + 1) n (fun _ => b) = (b + 1) ^ n - 1 := by
  induction n with
  | zero => rfl
  | succ n ih =>
    have hpos : 0 < (b + 1) ^ n := Nat.pow_pos (Nat.succ_pos b)
    have hstep : (b + 1) ^ (n + 1) = (b + 1) ^ n + b * (b + 1) ^ n := by ring
    rw [value_succ, ih, hstep]
    omega

/-- Digits below the radix give a value below its power. -/
theorem value_lt {b n : Nat} {a : Nat → Nat} (h : ∀ i < n, a i < b) : value b n a < b ^ n := by
  induction n with
  | zero => exact Nat.one_pos
  | succ n ih =>
    have hn := ih fun i hi => h i (by omega)
    calc value b (n + 1) a = value b n a + a n * b ^ n := value_succ b n a
      _ < b ^ n + a n * b ^ n := Nat.add_lt_add_right hn _
      _ = (a n + 1) * b ^ n := by ring
      _ ≤ b * b ^ n := Nat.mul_le_mul_right _ (h n (by omega))
      _ = b ^ (n + 1) := by ring

/-- The digits of a number below `b ^ n` give it back. -/
theorem value_digits (b n x : Nat) : value b n (fun i => x / b ^ i % b) = x % b ^ n := by
  induction n with
  | zero => simp [Nat.mod_one]
  | succ n ih => rw [value_succ, ih, Nat.mod_pow_succ, mul_comm]

/-- A digit of a number written with digits below the radix. -/
theorem value_div_mod {b n : Nat} {a : Nat → Nat} (h : ∀ i < n, a i < b) {i : Nat} (hi : i < n) :
    value b n a / b ^ i % b = a i := by
  induction n with
  | zero => omega
  | succ n ih =>
    have hb : 0 < b := lt_of_le_of_lt (Nat.zero_le _) (h 0 (by omega))
    rw [value_succ]
    rcases Nat.lt_succ_iff_lt_or_eq.mp hi with hlt | rfl
    · have hsplit : b ^ n = b ^ i * (b * b ^ (n - i - 1)) := by
        rw [← pow_succ', ← pow_add]
        congr 1
        omega
      have hrw : a n * b ^ n = b ^ i * (b * (a n * b ^ (n - i - 1))) := by rw [hsplit]; ring
      rw [hrw, Nat.add_mul_div_left _ _ (Nat.pow_pos hb), Nat.add_mul_mod_self_left]
      exact ih (fun j hj => h j (by omega)) hlt
    · have hlow : value b i a < b ^ i := value_lt fun j hj => h j (by omega)
      rw [Nat.add_mul_div_right _ _ (Nat.pow_pos hb), Nat.div_eq_of_lt hlow, zero_add]
      exact Nat.mod_eq_of_lt (h i (by omega))

/-- **Digits below the radix are determined by the value.** -/
theorem digits_unique {b n : Nat} {a a' : Nat → Nat} (h : ∀ i < n, a i < b)
    (h' : ∀ i < n, a' i < b) (heq : value b n a = value b n a') : ∀ i < n, a i = a' i := by
  intro i hi
  rw [← value_div_mod h hi, heq, value_div_mod h' hi]

/-! ## Carry chains -/

/-- What position `n` holds once the positions below it have been carried. -/
def carry (b : Nat) (a : Nat → Nat) : Nat → Nat
  | 0 => a 0
  | n + 1 => a (n + 1) + carry b a n / b

theorem carry_congr {b : Nat} {a a' : Nat → Nat} (n : Nat) (h : ∀ i ≤ n, a i = a' i) :
    carry b a n = carry b a' n := by
  induction n with
  | zero => exact h 0 le_rfl
  | succ n ih => rw [carry, carry, h _ le_rfl, ih fun i hi => h i (by omega)]

/-- The limbs once the positions below `n` have been carried. -/
def carried (b : Nat) (a : Nat → Nat) (n i : Nat) : Nat :=
  if i < n then carry b a i % b else if i = n then carry b a n else a i

theorem carried_zero (b : Nat) (a : Nat → Nat) : carried b a 0 = a := by
  funext i
  unfold carried
  split_ifs with h h'
  · exact absurd h (Nat.not_lt_zero i)
  · rw [h', carry]
  · rfl

theorem carried_of_lt {b : Nat} (a : Nat → Nat) {n i : Nat} (h : i < n) :
    carried b a n i = carry b a i % b := if_pos h

theorem carried_self (b : Nat) (a : Nat → Nat) (n : Nat) : carried b a n n = carry b a n := by
  unfold carried
  rw [if_neg (lt_irrefl n), if_pos rfl]

theorem carried_of_gt {b : Nat} (a : Nat → Nat) {n i : Nat} (h : n < i) :
    carried b a n i = a i := by
  unfold carried
  rw [if_neg (by omega), if_neg (by omega)]

/-- **A carry chain keeps the value.** -/
theorem value_carried (b : Nat) (a : Nat → Nat) {n N : Nat} (h : n < N) :
    value b N (carried b a n) = value b N a := by
  have hlow : ∀ m, value b m (fun i => carry b a i % b) + carry b a m * b ^ m
      = value b (m + 1) a := by
    intro m
    induction m with
    | zero => simp [carry, value]
    | succ m ih =>
      rw [value_succ b (m + 1) a, ← ih, value_succ, carry, pow_succ]
      have := Nat.mod_add_div (carry b a m) b
      calc _ = value b m (fun i => carry b a i % b) + (carry b a m % b + b * (carry b a m / b))
            * b ^ m + a (m + 1) * (b ^ m * b) := by ring
        _ = _ := by rw [this]
  induction N, h using Nat.le_induction with
  | base =>
    rw [value_succ, ← hlow n, carried_self]
    congr 1
    exact value_congr fun i hi => carried_of_lt a hi
  | succ N hN ih => rw [value_succ, ih, value_succ b N a, carried_of_gt a hN]

/-! ## Products -/

/-- Limb `m` of the schoolbook product of two numbers of `n` limbs. -/
def conv (n : Nat) (a a' : Nat → Nat) (m : Nat) : Nat :=
  ∑ i ∈ range n, if i ≤ m ∧ m - i < n then a i * a' (m - i) else 0

theorem conv_congr {n : Nat} {a a' c c' : Nat → Nat} (h : ∀ i < n, a i = c i)
    (h' : ∀ i < n, a' i = c' i) (m : Nat) : conv n a a' m = conv n c c' m := by
  refine sum_congr rfl fun i hi => ?_
  by_cases hm : i ≤ m ∧ m - i < n
  · rw [if_pos hm, if_pos hm, h i (mem_range.mp hi), h' _ hm.2]
  · rw [if_neg hm, if_neg hm]

/-- Bounded limbs give bounded limbs of the product. -/
theorem conv_le {n B C : Nat} {a a' : Nat → Nat} (h : ∀ i < n, a i ≤ B) (h' : ∀ i < n, a' i ≤ C)
    (m : Nat) : conv n a a' m ≤ n * (B * C) := by
  calc conv n a a' m ≤ ∑ _i ∈ range n, B * C := by
        refine sum_le_sum fun i hi => ?_
        split_ifs with hm
        · exact Nat.mul_le_mul (h i (mem_range.mp hi)) (h' _ hm.2)
        · exact Nat.zero_le _
    _ = n * (B * C) := by rw [sum_const_nat fun _ _ => rfl, card_range]

/-- The lower limbs of a schoolbook product: each limb of one factor times the limbs of the other
that it meets there. -/
theorem value_conv_low (b n k : Nat) (a a' : Nat → Nat) :
    value b k (conv n a a') = ∑ i ∈ range n, a i * b ^ i * value b (min n (k - i)) a' := by
  have hrow : ∀ i ∈ range n,
      (∑ m ∈ range k, if i ≤ m ∧ m - i < n then a i * a' (m - i) * b ^ m else 0)
        = a i * b ^ i * value b (min n (k - i)) a' := by
    intro i _
    have hmeet : {m ∈ range k | i ≤ m ∧ m - i < n} = Ico i (i + min n (k - i)) := by
      ext m
      rw [mem_filter, mem_range, mem_Ico]
      omega
    rw [← sum_filter, hmeet, sum_Ico_eq_sum_range, Nat.add_sub_cancel_left, value, mul_sum]
    refine sum_congr rfl fun m _ => ?_
    rw [Nat.add_sub_cancel_left, pow_add]
    ring
  calc value b k (conv n a a')
      = ∑ m ∈ range k, ∑ i ∈ range n,
          if i ≤ m ∧ m - i < n then a i * a' (m - i) * b ^ m else 0 := by
        refine sum_congr rfl fun m _ => ?_
        rw [conv, sum_mul]
        exact sum_congr rfl fun i _ => by rw [ite_mul, zero_mul]
    _ = ∑ i ∈ range n, a i * b ^ i * value b (min n (k - i)) a' := by
        rw [sum_comm]
        exact sum_congr rfl hrow

/-- **The schoolbook product has the product of the values.** -/
theorem value_conv (b n : Nat) (a a' : Nat → Nat) :
    value b (2 * n - 1) (conv n a a') = value b n a * value b n a' := by
  rw [value_conv_low, value, sum_mul]
  refine sum_congr rfl fun i hi => ?_
  have hin := mem_range.mp hi
  rw [show min n (2 * n - 1 - i) = n by omega]

/-- The schoolbook product of a multiple. -/
theorem conv_mul_left (n c : Nat) (a a' : Nat → Nat) (m : Nat) :
    conv n (fun i => c * a i) a' m = c * conv n a a' m := by
  rw [conv, conv, mul_sum]
  exact sum_congr rfl fun i _ => by rw [mul_ite, mul_zero, Nat.mul_assoc]

/-- The `k` lower limbs of the schoolbook product of two numbers, as a number. -/
def lowProduct (b : Nat) : (k x y : Nat) → Nat
  | 0, _, _ => 0
  | k + 1, x, y => x % b * (y % b ^ (k + 1)) + b * lowProduct b k (x / b) y

theorem lowProduct_eq (b k x y : Nat) :
    lowProduct b k x y = ∑ i ∈ range k, x / b ^ i % b * b ^ i * (y % b ^ (k - i)) := by
  induction k generalizing x with
  | zero => rfl
  | succ k ih =>
    rw [lowProduct, ih, sum_range_succ', mul_sum, pow_zero, Nat.div_one, mul_one, Nat.sub_zero,
      Nat.add_comm]
    congr 1
    refine sum_congr rfl fun i _ => ?_
    rw [Nat.div_div_eq_div_mul, ← pow_succ', Nat.add_sub_add_right, pow_succ]
    ring

/-- **The lower limbs of the product of two numbers' digits.** -/
theorem value_conv_digits {b n k : Nat} (hk : k ≤ n) (x y : Nat) :
    value b k (conv n (fun i => x / b ^ i % b) fun i => y / b ^ i % b) = lowProduct b k x y := by
  rw [value_conv_low, lowProduct_eq]
  refine (sum_subset_zero_on_sdiff (range_subset_range.mpr hk) (fun i hi => ?_)
    fun i _ => ?_).symm
  · have hki : k - i = 0 := by
      have := mem_sdiff.mp hi
      simp only [mem_range] at this
      omega
    rw [hki, Nat.min_zero, value_zero, mul_zero]
  · rw [value_digits, show min n (k - i) = k - i by omega]

end Arith
