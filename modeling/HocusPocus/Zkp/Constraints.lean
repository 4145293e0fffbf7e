import HocusPocus.Zkp.Model

/-!
# The constraints of the proof system

`C[1]` to `C[68]` of the comments of `ZKP.h`, and their homogenised forms of degree 5, as the two
programs fold them. At `x = 1` the homogenised form is the constraint, with the sign of the
verifier: `C[1]` and `C[2]` enter negated.

* `homogenised_one`: the homogenised form at `x = 1`.
* `homogenised_split`: only `x ^ 5` times a constant is public.
-/

namespace HocusPocus

open Machine FieldOps Finset

/-- `C[56]` to `C[68]`, numbered from 0. -/
def lateConstraint (w : Nat → Fp) (n : Nat) : Fp :=
  if n = 0 then
    w c0Pos - w vOffset * w (vOffset + 1) * w (vOffset + 2) * w (vOffset + 3) * w (vOffset + 4)
  else if n = 1 then
    w c1Pos - w (vOffset + 5) * w (vOffset + 6) * w (vOffset + 7) * w (vOffset + 8)
      * w (vOffset + 9)
  else if n < 10 then w (yOffset + (n - 1)) - w (yOffset + (n - 2)) ^ 5
  else if n = 10 then w a0Pos - w (yOffset + 8) ^ 2 * w (yOffset + 4) * w (yOffset + 1) ^ 2
  else if n = 11 then
    w (yOffset + 1) * w a0Pos - w yOffset ^ 2 * w (yOffset + 3) * w a1Pos
  else w c0Pos * w c1Pos * w yOffset * w a1Pos - 1

/-- The homogenised forms of `C[56]` to `C[68]`, with `one` for the constant of the last. -/
def lateHomogenised (one x : Fp) (s : Nat → Fp) (n : Nat) : Fp :=
  if n = 0 then
    x ^ 4 * s c0Pos
      - s vOffset * s (vOffset + 1) * s (vOffset + 2) * s (vOffset + 3) * s (vOffset + 4)
  else if n = 1 then
    x ^ 4 * s c1Pos
      - s (vOffset + 5) * s (vOffset + 6) * s (vOffset + 7) * s (vOffset + 8) * s (vOffset + 9)
  else if n < 10 then x ^ 4 * s (yOffset + (n - 1)) - s (yOffset + (n - 2)) ^ 5
  else if n = 10 then
    x ^ 4 * s a0Pos - s (yOffset + 8) ^ 2 * s (yOffset + 4) * s (yOffset + 1) ^ 2
  else if n = 11 then
    x ^ 3 * (s (yOffset + 1) * s a0Pos) - x * (s yOffset ^ 2 * s (yOffset + 3) * s a1Pos)
  else x * (s c0Pos * s c1Pos * s yOffset * s a1Pos - x ^ 4 * one)

namespace ZkParams

variable (zk : ZkParams) (stmt : Statement Fp)

/-- `C[i]` of the comments, for `i` from 1 to `k + 15`. -/
def constraint (w : Nat → Fp) (i : Nat) : Fp :=
  if i = 1 then
    stmt.cu - w ruPos
      - ∑ j ∈ range zk.leval, stmt.gamma j * (w kPos + lPrime stmt j) * w (vOffset + j)
  else if i = 2 then
    stmt.cv - w rvPos - ∑ j ∈ range zk.leval, stmt.gamma j * w (vOffset + j)
  else if i ≤ zk.k + 2 then
    stmt.mm (i - 3) - w (bOffset + (i - 3)) * (w kPos + zk.lc stmt (i - 3))
  else lateConstraint w (i - (zk.k + 3))

/-- The verifier's sign. -/
def sign (i : Nat) : Fp := if i = 1 ∨ i = 2 then -1 else 1

/-- The number of scalars: the constraints from `C[2]` on. -/
def scalars : Nat := zk.k + 14

/-- The constraints folded as the verifier does: `C[1]` has weight 1, `C[i + 2]` the scalar `i`. -/
def foldedSum (w s : Nat → Fp) : Fp :=
  sign 1 * zk.constraint stmt w 1
    + ∑ i ∈ range zk.scalars, s i * (sign (i + 2) * zk.constraint stmt w (i + 2))

/-- The homogenised form of `C[i]`. -/
def homogenised (one x : Fp) (s : Nat → Fp) (i : Nat) : Fp :=
  if i = 1 then
    x ^ 3 * (∑ j ∈ range zk.leval, stmt.gamma j * s (vOffset + j) * (s kPos + x * lPrime stmt j)
      + x * s ruPos - x ^ 2 * stmt.cu)
  else if i = 2 then
    x ^ 4 * (∑ j ∈ range zk.leval, stmt.gamma j * s (vOffset + j) + s rvPos - x * stmt.cv)
  else if i ≤ zk.k + 2 then
    x ^ 3 * (x ^ 2 * stmt.mm (i - 3) - s (bOffset + (i - 3)) * (s kPos + x * zk.lc stmt (i - 3)))
  else lateHomogenised one x s (i - (zk.k + 3))

theorem lateHomogenised_one (w : Nat → Fp) (n : Nat) :
    lateHomogenised 1 1 w n = lateConstraint w n := by
  unfold lateHomogenised lateConstraint
  split_ifs <;> ring

/-- **At 1 the homogenised form is the constraint**, with the verifier's sign. -/
theorem homogenised_one (w : Nat → Fp) (i : Nat) :
    zk.homogenised stmt 1 1 w i = sign i * zk.constraint stmt w i := by
  unfold homogenised constraint sign
  by_cases h1 : i = 1
  · have hsum : ∑ j ∈ range zk.leval, stmt.gamma j * w (vOffset + j) * (w kPos + 1 * lPrime stmt j)
        = ∑ j ∈ range zk.leval, stmt.gamma j * (w kPos + lPrime stmt j) * w (vOffset + j) :=
      sum_congr rfl fun j _ => by ring
    rw [if_pos h1, if_pos h1, if_pos (Or.inl h1), hsum]
    ring
  by_cases h2 : i = 2
  · rw [if_neg h1, if_pos h2, if_neg h1, if_pos h2, if_pos (Or.inr h2)]
    ring
  rw [if_neg h1, if_neg h2, if_neg h1, if_neg h2, if_neg (not_or_intro h1 h2)]
  by_cases h3 : i ≤ zk.k + 2
  · rw [if_pos h3, if_pos h3]
    ring
  · rw [if_neg h3, if_neg h3, lateHomogenised_one, one_mul]

theorem lateHomogenised_congr {one x : Fp} {s s' : Nat → Fp} (h : ∀ j < maskPos, s j = s' j)
    (n : Nat) : lateHomogenised one x s n = lateHomogenised one x s' n := by
  have hv : ∀ j ≤ 9, s (vOffset + j) = s' (vOffset + j) := fun j hj =>
    h _ (by unfold vOffset maskPos; omega)
  have hy : ∀ j ≤ 8, s (yOffset + j) = s' (yOffset + j) := fun j hj =>
    h _ (by unfold yOffset maskPos; omega)
  have h0 := hv 0 (by norm_num)
  have hy0 := hy 0 (by norm_num)
  rw [Nat.add_zero] at h0 hy0
  unfold lateHomogenised
  split_ifs
  · rw [h c0Pos (by decide), h0, hv 1 (by norm_num), hv 2 (by norm_num), hv 3 (by norm_num),
      hv 4 (by norm_num)]
  · rw [h c1Pos (by decide), hv 5 (by norm_num), hv 6 (by norm_num), hv 7 (by norm_num),
      hv 8 (by norm_num), hv 9 (by norm_num)]
  · rw [hy (n - 1) (by omega), hy (n - 2) (by omega)]
  · rw [h a0Pos (by decide), hy 8 (by norm_num), hy 4 (by norm_num), hy 1 (by norm_num)]
  · rw [h a0Pos (by decide), h a1Pos (by decide), hy0, hy 1 (by norm_num), hy 3 (by norm_num)]
  · rw [h c0Pos (by decide), h c1Pos (by decide), h a1Pos (by decide), hy0]

/-- The folded forms read the witness positions only. -/
theorem homogenised_congr (hleval : zk.leval = 10) (hk : zk.k = 53) {one x : Fp} {s s' : Nat → Fp}
    (h : ∀ j < maskPos, s j = s' j) (i : Nat) :
    zk.homogenised stmt one x s i = zk.homogenised stmt one x s' i := by
  have hv : ∀ j < zk.leval, s (vOffset + j) = s' (vOffset + j) := fun j hj =>
    h _ (by unfold vOffset maskPos; omega)
  unfold homogenised
  by_cases h1 : i = 1
  · have hsum : ∑ j ∈ range zk.leval, stmt.gamma j * s (vOffset + j) * (s kPos + x * lPrime stmt j)
        = ∑ j ∈ range zk.leval,
            stmt.gamma j * s' (vOffset + j) * (s' kPos + x * lPrime stmt j) :=
      sum_congr rfl fun j hj => by rw [hv j (mem_range.mp hj), h kPos (by decide)]
    rw [if_pos h1, if_pos h1, hsum, h ruPos (by decide)]
  by_cases h2 : i = 2
  · have hsum : ∑ j ∈ range zk.leval, stmt.gamma j * s (vOffset + j)
        = ∑ j ∈ range zk.leval, stmt.gamma j * s' (vOffset + j) :=
      sum_congr rfl fun j hj => by rw [hv j (mem_range.mp hj)]
    rw [if_neg h1, if_pos h2, if_neg h1, if_pos h2, hsum, h rvPos (by decide)]
  rw [if_neg h1, if_neg h2, if_neg h1, if_neg h2]
  by_cases h3 : i ≤ zk.k + 2
  · rw [if_pos h3, if_pos h3, h kPos (by decide),
      h (bOffset + (i - 3)) (by unfold bOffset maskPos; omega)]
  · rw [if_neg h3, if_neg h3, lateHomogenised_congr h]

/-- The constraints read the witness positions only. -/
theorem constraint_congr (hleval : zk.leval = 10) (hk : zk.k = 53) {w w' : Nat → Fp}
    (h : ∀ j < maskPos, w j = w' j) (i : Nat) :
    zk.constraint stmt w i = zk.constraint stmt w' i := by
  have hone : zk.homogenised stmt 1 1 w i = zk.homogenised stmt 1 1 w' i :=
    zk.homogenised_congr stmt hleval hk h i
  have hsign : sign i ≠ 0 := by
    unfold sign
    split_ifs
    · exact neg_ne_zero.mpr one_ne_zero
    · exact one_ne_zero
  rw [homogenised_one, homogenised_one] at hone
  exact mul_left_cancel₀ hsign hone

/-! ## The public constants -/

/-- The statement without the public constants, as the prover folds it. -/
def withoutConstants (stmt : Statement Fp) : Statement Fp :=
  { stmt with mm := fun _ => 0, cu := 0, cv := 0 }

@[simp] theorem withoutConstants_gamma : (withoutConstants stmt).gamma = stmt.gamma := rfl

@[simp] theorem withoutConstants_mm (i : Nat) : (withoutConstants stmt).mm i = 0 := rfl

@[simp] theorem withoutConstants_cu : (withoutConstants stmt).cu = 0 := rfl

@[simp] theorem withoutConstants_cv : (withoutConstants stmt).cv = 0 := rfl

@[simp] theorem lPrime_withoutConstants (i : Nat) :
    lPrime (withoutConstants stmt) i = lPrime stmt i := rfl

@[simp] theorem lc_withoutConstants (i : Nat) :
    zk.lc (withoutConstants stmt) i = zk.lc stmt i := rfl

/-- The public constant of `C[i]`, with the verifier's sign. -/
def publicConstant (i : Nat) : Fp :=
  if i = 1 then -stmt.cu
  else if i = 2 then -stmt.cv
  else if i ≤ zk.k + 2 then stmt.mm (i - 3)
  else if i = zk.k + 15 then -1
  else 0

/-- The public constants folded as the constraints are. -/
def publicConstants (s : Nat → Fp) : Fp :=
  zk.publicConstant stmt 1 + ∑ i ∈ range zk.scalars, s i * zk.publicConstant stmt (i + 2)

theorem lateHomogenised_split (x : Fp) (s : Nat → Fp) {n : Nat} (hn : n < 13) :
    lateHomogenised 1 x s n = lateHomogenised 0 x s n + x ^ 5 * if n = 12 then -1 else 0 := by
  unfold lateHomogenised
  by_cases h12 : n = 12
  · subst h12
    simp only [if_true, if_false, OfNat.ofNat_ne_zero, OfNat.ofNat_ne_one]
    norm_num
    ring
  · rw [if_neg h12, mul_zero (x ^ 5), add_zero]
    split_ifs <;> first | rfl | omega

/-- **Only a multiple of `x ^ 5` is public.** -/
theorem homogenised_split (x : Fp) (s : Nat → Fp) {i : Nat} (hi : i < zk.k + 16) :
    zk.homogenised stmt 1 x s i
      = zk.homogenised (withoutConstants stmt) 0 x s i + x ^ 5 * zk.publicConstant stmt i := by
  unfold homogenised publicConstant
  simp only [withoutConstants_gamma, withoutConstants_mm, withoutConstants_cu, withoutConstants_cv,
    lPrime_withoutConstants, lc_withoutConstants]
  by_cases h1 : i = 1
  · rw [if_pos h1, if_pos h1, if_pos h1]
    ring
  by_cases h2 : i = 2
  · rw [if_neg h1, if_pos h2, if_neg h1, if_pos h2, if_neg h1, if_pos h2]
    ring
  rw [if_neg h1, if_neg h2, if_neg h1, if_neg h2, if_neg h1, if_neg h2]
  by_cases h3 : i ≤ zk.k + 2
  · rw [if_pos h3, if_pos h3, if_pos h3]
    ring
  · rw [if_neg h3, if_neg h3, if_neg h3, lateHomogenised_split x s (by omega)]
    by_cases hlast : i = zk.k + 15
    · rw [if_pos hlast, if_pos (by omega)]
    · rw [if_neg hlast, if_neg (by omega)]

end ZkParams

end HocusPocus
