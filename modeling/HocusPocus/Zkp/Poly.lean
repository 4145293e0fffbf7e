import HocusPocus.VoleUtils
import Mathlib.Tactic.LinearCombination

/-!
# Low-degree polynomials (`ZKP.h`)

`poly<D>` and its operators. A polynomial is related to a field element by its homogeneous
evaluation `heval x z p = Σ p_i x ^ i z ^ (D - i)`: at `(Δ, 1)` it is the value at `Δ`, at `(1, 0)`
the top coefficient. Under `heval` a product is a product, a sum of one degree a sum, `shift_up`
a power of `x` and a shorter right operand of `+=` a power of `z`.

* `heval_mul`, `heval_addAssign`, `heval_subAssign`, `heval_shiftUp`: the four rules.
* `heval_one_zero`, `heval_one`: the top coefficient and the value at a point.
-/

namespace HocusPocus

open Machine FieldOps

/-- `poly<D>`: the coefficients 0 to `D`. Nothing reads past them. -/
structure Poly (F : Type) (D : Nat) where
  coefs : Nat → F

namespace Poly

variable {F : Type} [FieldOps F] {D D1 D2 : Nat}

/-- `reduce_poly`. -/
def reduce (p : Poly F D) : Poly F D := ⟨fun i => freeze (reduceAddSub (p.coefs i))⟩

/-- `set_zero_poly`. -/
def setZero : Poly F D := ⟨fun _ => FieldOps.setZero⟩

/-- `poly<0>` with the given coefficient. -/
def const (s : F) : Poly F 0 := ⟨fun _ => s⟩

/-- `operator +=`. -/
def addAssign (lhs : Poly F D1) (rhs : Poly F D2) : Poly F D1 :=
  ⟨fun i => if i ≤ D2 then lhs.coefs i + rhs.coefs i else lhs.coefs i⟩

/-- `operator -=`. -/
def subAssign (lhs : Poly F D1) (rhs : Poly F D2) : Poly F D1 :=
  ⟨fun i => if i ≤ D2 then lhs.coefs i - rhs.coefs i else lhs.coefs i⟩

/-- `shift_up`. -/
def shiftUp (D1 : Nat) (p : Poly F D2) : Poly F D1 :=
  ⟨fun i => if i < D1 - D2 then FieldOps.setZero else p.coefs (i - (D1 - D2))⟩

/-- The accumulator `out.coefs[n]` of `operator *`: the products `lhs[i] * rhs[j]` with
`i + j = n`, added in the order of the loops. -/
def mulCoef (lhs : Poly F D1) (rhs : Poly F D2) (n : Nat) : F :=
  (List.range (D1 + 1)).foldl
    (fun acc i => if i ≤ n ∧ n - i ≤ D2 then acc + lhs.coefs i * rhs.coefs (n - i) else acc)
    FieldOps.setZero

/-- `operator *`. -/
def mul (lhs : Poly F D1) (rhs : Poly F D2) : Poly F (D1 + D2) := reduce ⟨mulCoef lhs rhs⟩

instance : HMul (Poly F D1) (Poly F D2) (Poly F (D1 + D2)) := ⟨mul⟩

/-! ## Homogeneous evaluation -/

section

open Finset

/-- `Σ p_i x ^ i z ^ (D - i)`. -/
def heval (x z : Fp) (p : Poly Fp D) : Fp := ∑ i ∈ range (D + 1), p.coefs i * x ^ i * z ^ (D - i)

variable {x z : Fp} {lhs : Poly Fp D1} {rhs : Poly Fp D2}

/-- Indexing a double sum by the sum of its indices. -/
theorem sum_diagonals {M : Type} [AddCommMonoid M] (m n : Nat) (f : Nat → Nat → M) :
    ∑ k ∈ range (m + n + 1), ∑ i ∈ range (m + 1), (if i ≤ k ∧ k - i ≤ n then f i (k - i) else 0)
      = ∑ i ∈ range (m + 1), ∑ j ∈ range (n + 1), f i j := by
  rw [sum_comm]
  refine sum_congr rfl fun i hi => ?_
  have him := mem_range.mp hi
  obtain ⟨r, hr⟩ : ∃ r, m + n + 1 = i + (n + 1 + r) := ⟨m - i, by omega⟩
  rw [hr, sum_range_add, sum_range_add]
  have hbefore : ∑ k ∈ range i, (if i ≤ k ∧ k - i ≤ n then f i (k - i) else 0) = 0 :=
    sum_eq_zero fun k hk => if_neg fun h => absurd (mem_range.mp hk) (by omega)
  have hafter : ∑ k ∈ range r, (if i ≤ i + (n + 1 + k) ∧ i + (n + 1 + k) - i ≤ n then
      f i (i + (n + 1 + k) - i) else 0) = 0 :=
    sum_eq_zero fun k _ => if_neg fun h => by omega
  rw [hbefore, hafter, zero_add, add_zero]
  refine sum_congr rfl fun j hj => ?_
  have hjn := mem_range.mp hj
  rw [if_pos (by omega), Nat.add_sub_cancel_left]

theorem mulCoef_eq (lhs : Poly Fp D1) (rhs : Poly Fp D2) (n : Nat) :
    mulCoef lhs rhs n
      = ∑ i ∈ range (D1 + 1),
        if i ≤ n ∧ n - i ≤ D2 then lhs.coefs i * rhs.coefs (n - i) else 0 := by
  have hfold : ∀ m, (List.range m).foldl
      (fun acc i => if i ≤ n ∧ n - i ≤ D2 then acc + lhs.coefs i * rhs.coefs (n - i) else acc)
      (FieldOps.setZero : Fp)
      = ∑ i ∈ range m, if i ≤ n ∧ n - i ≤ D2 then lhs.coefs i * rhs.coefs (n - i) else 0 := by
    intro m
    induction m with
    | zero => exact Exact.setZero_eq
    | succ m ih =>
      rw [List.range_succ, List.foldl_append, List.foldl_cons, List.foldl_nil, ih, sum_range_succ]
      split_ifs
      · rfl
      · rw [add_zero]
  exact hfold (D1 + 1)

@[simp] theorem heval_reduce (p : Poly Fp D) : heval x z p.reduce = heval x z p := rfl

/-- **A product evaluates to the product.** -/
@[simp] theorem heval_mul : heval x z (lhs * rhs) = heval x z lhs * heval x z rhs := by
  have hterm : ∀ k ∈ range (D1 + D2 + 1), mulCoef lhs rhs k * x ^ k * z ^ (D1 + D2 - k)
      = ∑ i ∈ range (D1 + 1), if i ≤ k ∧ k - i ≤ D2 then
          lhs.coefs i * rhs.coefs (k - i) * x ^ (i + (k - i)) * z ^ (D1 + D2 - (i + (k - i)))
        else 0 := by
    intro k _
    rw [mulCoef_eq, sum_mul, sum_mul]
    refine sum_congr rfl fun i _ => ?_
    split_ifs with h
    · rw [show i + (k - i) = k by omega]
    · rw [zero_mul, zero_mul]
  calc heval x z (lhs * rhs)
      = ∑ k ∈ range (D1 + D2 + 1), mulCoef lhs rhs k * x ^ k * z ^ (D1 + D2 - k) := rfl
    _ = ∑ i ∈ range (D1 + 1), ∑ j ∈ range (D2 + 1),
          lhs.coefs i * rhs.coefs j * x ^ (i + j) * z ^ (D1 + D2 - (i + j)) := by
        rw [sum_congr rfl hterm, sum_diagonals D1 D2 fun i j =>
          lhs.coefs i * rhs.coefs j * x ^ (i + j) * z ^ (D1 + D2 - (i + j))]
    _ = heval x z lhs * heval x z rhs := by
        rw [heval, heval, sum_mul_sum]
        refine sum_congr rfl fun i hi => sum_congr rfl fun j hj => ?_
        have hi := mem_range.mp hi
        have hj := mem_range.mp hj
        rw [show D1 + D2 - (i + j) = D1 - i + (D2 - j) by omega, pow_add, pow_add]
        ring

/-- The part of a sum that a shorter operand fills. -/
theorem sum_low (h : D2 ≤ D1) (f : Nat → Fp) :
    ∑ i ∈ range (D1 + 1), (if i ≤ D2 then f i * x ^ i * z ^ (D1 - i) else 0)
      = z ^ (D1 - D2) * ∑ i ∈ range (D2 + 1), f i * x ^ i * z ^ (D2 - i) := by
  obtain ⟨r, rfl⟩ : ∃ r, D1 = D2 + r := ⟨D1 - D2, by omega⟩
  rw [show D2 + r + 1 = D2 + 1 + r by omega, sum_range_add, mul_sum]
  have hhigh : ∑ k ∈ range r, (if D2 + 1 + k ≤ D2 then
      f (D2 + 1 + k) * x ^ (D2 + 1 + k) * z ^ (D2 + r - (D2 + 1 + k)) else 0) = 0 :=
    sum_eq_zero fun k _ => if_neg (by omega)
  rw [hhigh, add_zero]
  refine sum_congr rfl fun i hi => ?_
  have hi := mem_range.mp hi
  rw [if_pos (by omega), show D2 + r - i = D2 + r - D2 + (D2 - i) by omega, pow_add]
  ring

/-- **A shorter right operand is multiplied by the missing powers of `z`.** -/
theorem heval_addAssign (h : D2 ≤ D1) :
    heval x z (addAssign lhs rhs) = heval x z lhs + z ^ (D1 - D2) * heval x z rhs := by
  rw [heval, heval, heval, ← sum_low h, ← sum_add_distrib]
  refine sum_congr rfl fun i _ => ?_
  have hcoef : (addAssign lhs rhs).coefs i
      = if i ≤ D2 then lhs.coefs i + rhs.coefs i else lhs.coefs i := rfl
  rw [hcoef]
  by_cases hi : i ≤ D2
  · rw [if_pos hi, if_pos hi]
    ring
  · rw [if_neg hi, if_neg hi, add_zero]

theorem heval_subAssign (h : D2 ≤ D1) :
    heval x z (subAssign lhs rhs) = heval x z lhs - z ^ (D1 - D2) * heval x z rhs := by
  rw [heval, heval, heval, ← sum_low h, ← sum_sub_distrib]
  refine sum_congr rfl fun i _ => ?_
  have hcoef : (subAssign lhs rhs).coefs i
      = if i ≤ D2 then lhs.coefs i - rhs.coefs i else lhs.coefs i := rfl
  rw [hcoef]
  by_cases hi : i ≤ D2
  · rw [if_pos hi, if_pos hi]
    ring
  · rw [if_neg hi, if_neg hi, sub_zero]

/-- Operands of one degree. -/
theorem heval_addAssign_self (lhs rhs : Poly Fp D) :
    heval x z (addAssign lhs rhs) = heval x z lhs + heval x z rhs := by
  rw [heval_addAssign le_rfl, Nat.sub_self, pow_zero, one_mul]

theorem heval_subAssign_self (lhs rhs : Poly Fp D) :
    heval x z (subAssign lhs rhs) = heval x z lhs - heval x z rhs := by
  rw [heval_subAssign le_rfl, Nat.sub_self, pow_zero, one_mul]

/-- **`shift_up` multiplies by a power of `x`.** -/
theorem heval_shiftUp (h : D2 ≤ D1) :
    heval x z (shiftUp D1 rhs) = x ^ (D1 - D2) * heval x z rhs := by
  obtain ⟨r, rfl⟩ : ∃ r, D1 = r + D2 := ⟨D1 - D2, by omega⟩
  unfold heval shiftUp
  rw [show r + D2 + 1 = r + (D2 + 1) by omega, sum_range_add, mul_sum]
  have hlow : ∑ i ∈ range r, (if i < r + D2 - D2 then FieldOps.setZero
      else rhs.coefs (i - (r + D2 - D2))) * x ^ i * z ^ (r + D2 - i) = 0 := by
    refine sum_eq_zero fun i hi => ?_
    have hi := mem_range.mp hi
    rw [if_pos (by omega), Exact.setZero_eq, zero_mul, zero_mul]
  rw [hlow, zero_add]
  refine sum_congr rfl fun i hi => ?_
  have hi := mem_range.mp hi
  simp only
  rw [if_neg (by omega), show r + i - (r + D2 - D2) = i by omega,
    show r + D2 - (r + i) = D2 - i by omega, show r + D2 - D2 = r by omega, pow_add]
  ring

@[simp] theorem heval_setZero : heval x z (setZero : Poly Fp D) = 0 := by
  unfold heval setZero
  refine sum_eq_zero fun i _ => ?_
  rw [Exact.setZero_eq, zero_mul, zero_mul]

@[simp] theorem heval_const (s : Fp) : heval x z (const s) = s := by
  simp only [heval, const, zero_add, sum_range_one, pow_zero, mul_one, Nat.sub_self]

theorem heval_degree_one (p : Poly Fp 1) : heval x z p = p.coefs 0 * z + p.coefs 1 * x := by
  simp only [heval, sum_range_succ, sum_range_zero, zero_add]
  ring

/-- **The top coefficient.** -/
theorem heval_one_zero (p : Poly Fp D) : heval 1 0 p = p.coefs D := by
  unfold heval
  rw [sum_range_succ, sum_eq_zero fun i hi => ?_, Nat.sub_self, pow_zero, one_pow, mul_one, mul_one,
    zero_add]
  have hi := mem_range.mp hi
  rw [zero_pow (by omega), mul_zero]

/-- **The value at a point.** -/
theorem heval_one (x : Fp) (p : Poly Fp D) : heval x 1 p = ∑ i ∈ range (D + 1), p.coefs i * x ^ i :=
  sum_congr rfl fun i _ => by rw [one_pow, mul_one]

end

end Poly

end HocusPocus
