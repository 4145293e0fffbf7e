import HocusPocus.Zkp.Poly

/-!
# Polynomials on limbs

The operators of `poly<D>` in both readings at once, coefficient by coefficient: `PolyRep B p q`
says that the limbs of `p` stand for the coefficients of `q`, unwrapped and up to `B`, and
`PolyReduced p q` that they are reduced besides.

* `PolyRep.addAssign`, `PolyRep.subAssign`, `PolyRep.mul`, …: one rule for each operator.
* `exact_addAssign`, `exact_mul`, …: an exact result has exact operands, and every product of
  coefficients has room.
-/

namespace HocusPocus.Poly

open Machine FieldOps Fe25519

variable {D D1 D2 B C : Nat}

/-- The limbs stand for the coefficients, nothing wrapped, and no limb exceeds `B`. -/
def PolyRep (B : Nat) (p : Poly Fe25519 D) (q : Poly Fp D) : Prop :=
  ∀ n ≤ D, Rep B (p.coefs n) (q.coefs n)

/-- The limbs stand for the coefficients and are reduced. -/
def PolyReduced (p : Poly Fe25519 D) (q : Poly Fp D) : Prop :=
  ∀ n ≤ D, Reduced (p.coefs n) (q.coefs n)

/-- Nothing wrapped on the way to any coefficient. -/
def AllExact (p : Poly Fe25519 D) : Prop := ∀ n ≤ D, Exact (p.coefs n).v

/-! ## Both readings side by side -/

section

variable {p : Poly Fe25519 D} {q : Poly Fp D} {l : Poly Fe25519 D1} {l' : Poly Fp D1}
  {r : Poly Fe25519 D2} {r' : Poly Fp D2}

theorem PolyRep.mono (h : PolyRep B p q) (hle : B ≤ C) : PolyRep C p q :=
  fun n hn => (h n hn).mono hle

theorem PolyReduced.toRep (h : PolyReduced p q) : PolyRep 255 p q := fun n hn => (h n hn).toRep

theorem PolyRep.exact (h : PolyRep B p q) : AllExact p := fun n hn => (h n hn).exact

theorem polyRep_setZero : PolyRep 0 (setZero : Poly Fe25519 D) (setZero : Poly Fp D) :=
  fun _ _ => rep_setZero

theorem polyReduced_const {s : Fe25519} {s' : Fp} (h : Reduced s s') :
    PolyReduced (const s) (const s') := fun _ _ => h

theorem PolyRep.addAssign (h : PolyRep B l l') (h' : PolyRep C r r') (hfit : B + C < 2 ^ 32) :
    PolyRep (B + C) (l.addAssign r) (l'.addAssign r') := by
  intro n hn
  unfold Poly.addAssign
  by_cases h2 : n ≤ D2
  · simp only [if_pos h2]
    exact (h n hn).add (h' n h2) hfit
  · simp only [if_neg h2]
    exact (h n hn).mono (Nat.le_add_right B C)

theorem PolyRep.subAssign (h : PolyRep B l l') (h' : PolyReduced r r') (hfit : B + 510 < 2 ^ 32) :
    PolyRep (B + 510) (l.subAssign r) (l'.subAssign r') := by
  intro n hn
  unfold Poly.subAssign
  by_cases h2 : n ≤ D2
  · simp only [if_pos h2]
    exact (h n hn).sub (h' n h2) hfit
  · simp only [if_neg h2]
    exact (h n hn).mono (Nat.le_add_right B 510)

theorem PolyRep.shiftUp (h : PolyRep B r r') (D1 : Nat) :
    PolyRep B (shiftUp D1 r) (shiftUp D1 r') := by
  intro n hn
  unfold Poly.shiftUp
  by_cases hlow : n < D1 - D2
  · simp only [if_pos hlow]
    exact rep_setZero.mono (Nat.zero_le B)
  · simp only [if_neg hlow]
    exact h _ (by omega)

theorem PolyReduced.shiftUp (h : PolyReduced r r') (D1 : Nat) :
    PolyReduced (shiftUp D1 r) (shiftUp D1 r') := by
  intro n hn
  unfold Poly.shiftUp
  by_cases hlow : n < D1 - D2
  · simp only [if_pos hlow]
    exact reduced_setZero
  · simp only [if_neg hlow]
    exact h _ (by omega)

theorem PolyRep.reduce (h : PolyRep B p q) (hB : B ≤ 3700000000) :
    PolyReduced p.reduce q.reduce := fun n hn => ((h n hn).reduce hB).freeze

/-- The accumulator of a product, when every product of coefficients has room. -/
theorem rep_mulCoef
    (hprod : ∀ i ≤ D1, ∀ j ≤ D2,
      Rep 255 (l.coefs i * r.coefs j) (FieldOps.mul (l'.coefs i) (r'.coefs j)))
    (hD : D1 ≤ 9) (n : Nat) : Rep ((D1 + 1) * 255) (mulCoef l r n) (mulCoef l' r' n) := by
  have hfold : ∀ m ≤ D1 + 1, Rep (m * 255)
      ((List.range m).foldl
        (fun acc i => if i ≤ n ∧ n - i ≤ D2 then acc + l.coefs i * r.coefs (n - i) else acc)
        FieldOps.setZero)
      ((List.range m).foldl
        (fun acc i => if i ≤ n ∧ n - i ≤ D2 then
          FieldOps.add acc (FieldOps.mul (l'.coefs i) (r'.coefs (n - i))) else acc)
        FieldOps.setZero) := by
    intro m
    induction m with
    | zero => exact fun _ => rep_setZero
    | succ m ih =>
      intro hm
      have ih := ih (by omega)
      have hsucc : m * 255 + 255 = (m + 1) * 255 := by ring
      simp only [List.range_succ, List.foldl_append, List.foldl_cons, List.foldl_nil]
      by_cases hin : m ≤ n ∧ n - m ≤ D2
      · rw [if_pos hin, if_pos hin, ← hsucc]
        exact ih.add (hprod m (by omega) _ hin.2) (by omega)
      · rw [if_neg hin, if_neg hin]
        exact ih.mono (by omega)
  exact hfold (D1 + 1) le_rfl

/-- **A product of polynomials** when every product of coefficients has room. -/
theorem polyReduced_mul
    (hprod : ∀ i ≤ D1, ∀ j ≤ D2,
      Rep 255 (l.coefs i * r.coefs j) (FieldOps.mul (l'.coefs i) (r'.coefs j)))
    (hD : D1 ≤ 9) : PolyReduced (l * r) (l' * r') := by
  have hrep : PolyRep ((D1 + 1) * 255) (⟨mulCoef l r⟩ : Poly Fe25519 (D1 + D2))
      (⟨mulCoef l' r'⟩ : Poly Fp (D1 + D2)) := fun n _ => rep_mulCoef hprod hD n
  exact hrep.reduce (by omega)

theorem PolyRep.mul (h : PolyRep B l l') (h' : PolyRep C r r') (hBC : B * C ≤ 3400000)
    (hD : D1 ≤ 9) : PolyReduced (l * r) (l' * r') :=
  polyReduced_mul (fun i hi j hj => (h i hi).mul (h' j hj) hBC) hD

end

/-! ## Exact results have exact operands -/

section

variable {p : Poly Fe25519 D} {l : Poly Fe25519 D1} {r : Poly Fe25519 D2}

theorem exact_addAssign (hD : D2 ≤ D1) (h : AllExact (l.addAssign r)) :
    AllExact l ∧ AllExact r := by
  unfold AllExact Poly.addAssign at h
  constructor
  · intro n hn
    have hn' := h n hn
    by_cases h2 : n ≤ D2
    · simp only [if_pos h2] at hn'
      exact (exact_add hn').1
    · simpa only [if_neg h2] using hn'
  · intro n hn
    have hn' := h n (hn.trans hD)
    simp only [if_pos hn] at hn'
    exact (exact_add hn').2

theorem exact_subAssign (hD : D2 ≤ D1) (h : AllExact (l.subAssign r)) :
    AllExact l ∧ AllExact r := by
  unfold AllExact Poly.subAssign at h
  constructor
  · intro n hn
    have hn' := h n hn
    by_cases h2 : n ≤ D2
    · simp only [if_pos h2] at hn'
      exact (exact_sub hn').1
    · simpa only [if_neg h2] using hn'
  · intro n hn
    have hn' := h n (hn.trans hD)
    simp only [if_pos hn] at hn'
    exact (exact_sub hn').2

theorem exact_shiftUp (hD : D2 ≤ D1) (h : AllExact (shiftUp D1 r)) : AllExact r := by
  intro n hn
  have hn' := h (n + (D1 - D2)) (by omega)
  unfold Poly.shiftUp at hn'
  simpa only [if_neg (show ¬ n + (D1 - D2) < D1 - D2 by omega), Nat.add_sub_cancel] using hn'

theorem exact_reduce (h : AllExact p.reduce) : AllExact p :=
  fun n hn => exact_reduceAddSub (exact_freeze (h n hn))

/-- **Every product of coefficients is exact.** -/
theorem exact_mul (h : AllExact (l * r)) {i j : Nat} (hi : i ≤ D1) (hj : j ≤ D2) :
    Exact (l.coefs i * r.coefs j).v := by
  have hfold : ∀ n m, Exact ((List.range m).foldl
      (fun acc i => if i ≤ n ∧ n - i ≤ D2 then acc + l.coefs i * r.coefs (n - i) else acc)
      FieldOps.setZero).v →
        ∀ i < m, i ≤ n → n - i ≤ D2 → Exact (l.coefs i * r.coefs (n - i)).v := by
    intro n m
    induction m with
    | zero => exact fun _ i hi => absurd hi (Nat.not_lt_zero i)
    | succ m ih =>
      intro hm i hi hin hjn
      simp only [List.range_succ, List.foldl_append, List.foldl_cons, List.foldl_nil] at hm
      rcases Nat.lt_succ_iff_lt_or_eq.mp hi with hlt | rfl
      · refine ih ?_ i hlt hin hjn
        by_cases hmn : m ≤ n ∧ n - m ≤ D2
        · rw [if_pos hmn] at hm
          exact (exact_add hm).1
        · rwa [if_neg hmn] at hm
      · rw [if_pos ⟨hin, hjn⟩] at hm
        exact (exact_add hm).2
  have hcoefs : AllExact (⟨mulCoef l r⟩ : Poly Fe25519 (D1 + D2)) := exact_reduce h
  have hprod :=
    hfold (i + j) (D1 + 1) (hcoefs (i + j) (by omega)) i (by omega) (by omega) (by omega)
  rwa [Nat.add_sub_cancel_left] at hprod

theorem exact_mul_left (h : AllExact (l * r)) : AllExact l :=
  fun _ hi => (exact_mul_op (exact_mul h hi (Nat.zero_le _))).1

theorem exact_mul_right (h : AllExact (l * r)) : AllExact r :=
  fun _ hj => (exact_mul_op (exact_mul h (Nat.zero_le _) hj)).2.1

/-- **The product of the low coefficients has room.** -/
theorem mulFits_of_exact (h : AllExact (l * r)) :
    MulFits (limb (l.coefs 0).v) (limb (r.coefs 0).v) :=
  (exact_mul_op (exact_mul h (Nat.zero_le _) (Nat.zero_le _))).2.2

end

end HocusPocus.Poly
