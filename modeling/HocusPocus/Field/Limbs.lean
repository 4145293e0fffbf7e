import HocusPocus.Field.Fe25519
import HocusPocus.Field.Exact

/-!
# Carries and products of limbs

What `fe25519.cpp` does to 32 limbs, on natural numbers. `Holds v a` says that nothing wrapped on
the way to the array `v` and that its limbs are `a`; every loop of the source has a rule that
carries `Holds` from its input to its output under the condition that its intermediates fit, and
the conditions are exact: an array is `Exact` only if they held.

* `exact_carryPass`, `exact_mul`: a pass and a multiplication are exact when `PassFits`, `MulFits`
  say so, and only then.
* `value_pass`, `value_product`: a pass keeps the number modulo the prime, a multiplication
  multiplies.
* `pass_pass_le`, `pass4_le`: the limbs after two and after four passes.
-/

namespace HocusPocus.Fe25519

open Machine Arith

/-- The limb `i` as a number, zero past the array. -/
def limb (v : Vector U32 32) (i : Nat) : Nat := if h : i < 32 then v[i].toNat else 0

theorem limb_eq (v : Vector U32 32) {i : Nat} (h : i < 32) : limb v i = v[i].toNat := dif_pos h

theorem toNat_v0 (x : Fe25519) : x.v0.toNat = limb x.v 0 := (limb_eq x.v (by norm_num)).symm

/-- Nothing wrapped on the way to any limb. -/
def Exact (v : Vector U32 32) : Prop := ∀ (i : Nat) (h : i < 32), v[i].exact = true

/-- Nothing wrapped on the way to any limb, and the limbs are `a`. -/
def Holds (v : Vector U32 32) (a : Nat → Nat) : Prop := ∀ (i : Nat) (h : i < 32), v[i].Is (a i)

variable {v : Vector U32 32} {a : Nat → Nat}

theorem Holds.exact (h : Holds v a) : Exact v := fun i hi => (h i hi).exact

theorem Exact.holds (h : Exact v) : Holds v (limb v) := fun i hi =>
  ⟨h i hi, (limb_eq v hi).symm⟩

theorem Holds.limb_eq (h : Holds v a) {i : Nat} (hi : i < 32) : limb v i = a i := by
  rw [Fe25519.limb_eq v hi, (h i hi).toNat_eq]

theorem Holds.congr {a' : Nat → Nat} (h : Holds v a) (e : ∀ i < 32, a i = a' i) : Holds v a' :=
  fun i hi => (h i hi).congr (e i hi)

/-! ## A carry pass -/

theorem carryStep_holds {k : Fin 31} (h : Holds v (carried 256 a k))
    (hlt : carry 256 a (k + 1) < 2 ^ 32) : Holds (carryStep v k) (carried 256 a (k + 1)) := by
  obtain ⟨k, hk⟩ := k
  have hself : v[k].Is (carry 256 a k) := (h k (by omega)).congr (carried_self 256 a k)
  have hne : ¬ k + 1 = k := by omega
  intro i hi
  unfold carryStep
  simp only [Vector.getElem_set, if_neg hne]
  by_cases h1 : k = i
  · subst h1
    rw [if_pos rfl, carried_of_lt a (Nat.lt_succ_self _)]
    exact hself.low 8 (by norm_num)
  by_cases h2 : k + 1 = i
  · subst h2
    rw [if_neg h1, if_pos rfl, carried_self]
    have hnext : v[k + 1].Is (a (k + 1)) :=
      (h (k + 1) hi).congr (carried_of_gt a (Nat.lt_succ_self k))
    exact hnext.add (hself.shr 8) hlt
  · rw [if_neg h1, if_neg h2]
    refine (h i hi).congr ?_
    simp only
    unfold carried
    split_ifs <;> first | rfl | omega

/-- The first `k` rounds of the inner loop. -/
def carrySteps (k : Nat) (hk : k ≤ 31) (v : Vector U32 32) : Vector U32 32 :=
  Fin.foldl k (fun v i => carryStep v (i.castLE hk)) v

theorem carrySteps_succ (k : Nat) (hk : k + 1 ≤ 31) (v : Vector U32 32) :
    carrySteps (k + 1) hk v = carryStep (carrySteps k (by omega) v) ⟨k, hk⟩ := by
  rw [carrySteps, Fin.foldl_succ_last]
  rfl

theorem carrySteps_holds (h : Holds v a) {k : Nat} (hk : k ≤ 31)
    (hlt : ∀ n ≤ k, carry 256 a n < 2 ^ 32) :
    Holds (carrySteps k hk v) (carried 256 a k) := by
  induction k with
  | zero =>
    rw [carried_zero]
    exact h
  | succ k ih =>
    rw [carrySteps_succ]
    exact carryStep_holds (k := ⟨k, hk⟩) (ih (by omega) fun n hn => hlt n (by omega)) (hlt _ le_rfl)

/-- An exact step had exact limbs before it and did not wrap. -/
theorem exact_carryStep {k : Fin 31} (h : Exact (carryStep v k)) :
    Exact v ∧ limb v (k + 1) + limb v k / 256 < 2 ^ 32 := by
  obtain ⟨k, hk⟩ := k
  have hne : ¬ k + 1 = k := by omega
  have hsum := h (k + 1) (by omega)
  unfold carryStep at hsum
  simp only [Vector.getElem_set, if_neg hne, if_neg (Ne.symm hne), if_true] at hsum
  obtain ⟨hnext, hself, hlt⟩ := Word.exact_add.mp hsum
  refine ⟨fun i hi => ?_, ?_⟩
  · by_cases h1 : k = i
    · subst h1
      exact hself
    by_cases h2 : k + 1 = i
    · subst h2
      exact hnext
    · have hi' := h i hi
      unfold carryStep at hi'
      simpa only [Vector.getElem_set, if_neg hne, if_neg h1, if_neg h2] using hi'
  · rw [limb_eq v (by omega), limb_eq v (by omega)]
    have hk8 : v[k].exact = true := hself
    rwa [((Word.is_toNat hk8).shr 8).toNat_eq] at hlt

theorem exact_carrySteps {k : Nat} (hk : k ≤ 31) (h : Exact (carrySteps k hk v)) :
    Exact v ∧ ∀ n ≤ k, carry 256 (limb v) n < 2 ^ 32 := by
  induction k with
  | zero =>
    have h0 : Exact v := h
    refine ⟨h0, fun n hn => ?_⟩
    obtain rfl : n = 0 := by omega
    rw [carry, limb_eq v (by norm_num)]
    exact v[0].toNat_lt
  | succ k ih =>
    rw [carrySteps_succ] at h
    obtain ⟨hprev, hlt⟩ := exact_carryStep h
    obtain ⟨hv, hcarry⟩ := ih (by omega) hprev
    refine ⟨hv, fun n hn => ?_⟩
    rcases Nat.lt_succ_iff_lt_or_eq.mp (Nat.lt_succ_of_le hn) with hlt' | rfl
    · exact hcarry n (by omega)
    · have hsteps := carrySteps_holds hv.holds (by omega : k ≤ 31) hcarry
      rw [hsteps.limb_eq (by simp only; omega), hsteps.limb_eq (by simp only; omega),
        carried_self, carried_of_gt _ (Nat.lt_succ_self _)] at hlt
      exact hlt

/-! ### The head of a pass -/

/-- The limbs a pass starts its chain with: the bits of limb 31 above 7 are back in limb 0. -/
def passIn (a : Nat → Nat) (i : Nat) : Nat :=
  if i = 0 then a 0 + a 31 / 128 * 19 else if i = 31 then a 31 % 128 else a i

theorem carryTop_holds (h : Holds v a) (hlt : a 0 + a 31 / 128 * 19 < 2 ^ 32) :
    Holds (carryTop v) (passIn a) := by
  have htop : (v[31].shr 7 * 19).Is (a 31 / 128 * 19) :=
    ((h 31 (by norm_num)).shr 7).mul (Word.is_ofNat 19 (by norm_num)) (by omega)
  intro i hi
  unfold carryTop passIn
  simp only [Vector.getElem_set]
  by_cases h0 : i = 0
  · subst h0
    simp only [if_true]
    exact (h 0 (by norm_num)).add htop hlt
  · rw [if_neg (Ne.symm h0), if_neg h0]
    by_cases h31 : i = 31
    · subst h31
      simp only [if_true]
      exact (h 31 (by norm_num)).low 7 (by norm_num)
    · rw [if_neg (Ne.symm h31), if_neg h31]
      exact h i hi

theorem exact_carryTop (h : Exact (carryTop v)) :
    Exact v ∧ limb v 0 + limb v 31 / 128 * 19 < 2 ^ 32 := by
  have h0 := h 0 (by norm_num)
  unfold carryTop at h0
  simp only [Vector.getElem_set, if_true, if_neg (by norm_num : ¬ (31 : Nat) = 0)] at h0
  obtain ⟨hlow, htop, hlt⟩ := Word.exact_add.mp h0
  obtain ⟨h31, -, -⟩ := Word.exact_mul.mp htop
  have h31 : v[31].exact = true := h31
  refine ⟨fun i hi => ?_, ?_⟩
  · by_cases hi0 : 0 = i
    · subst hi0
      exact hlow
    by_cases hi31 : 31 = i
    · subst hi31
      exact h31
    · have hi' := h i hi
      unfold carryTop at hi'
      simpa only [Vector.getElem_set, if_neg hi0, if_neg hi31] using hi'
  · have hshr := (Word.is_toNat h31).shr 7
    have hmul := hshr.mul (Word.is_ofNat 19 (by norm_num)) (by
      have := v[31].toNat_lt
      omega)
    rw [limb_eq v (by norm_num), limb_eq v (by norm_num)]
    rwa [hmul.toNat_eq] at hlt

/-! ### The whole pass -/

/-- The limbs after a pass. -/
def pass (a : Nat → Nat) : Nat → Nat := carried 256 (passIn a) 31

/-- Every intermediate of a pass over the limbs `a` fits its word. -/
def PassFits (a : Nat → Nat) : Prop := ∀ n ≤ 31, carry 256 (passIn a) n < 2 ^ 32

theorem passIn_congr {a' : Nat → Nat} (h : ∀ i < 32, a i = a' i) {i : Nat} (hi : i < 32) :
    passIn a i = passIn a' i := by
  unfold passIn
  rw [h 0 (by norm_num), h 31 (by norm_num), h i hi]

theorem passFits_congr {a' : Nat → Nat} (h : ∀ i < 32, a i = a' i) (hfits : PassFits a) :
    PassFits a' := fun n hn => by
  rw [← carry_congr n fun i hi => passIn_congr h (by omega)]
  exact hfits n hn

theorem carryPass_holds (h : Holds v a) (hfits : PassFits a) : Holds (carryPass v) (pass a) :=
  carrySteps_holds (carryTop_holds h (hfits 0 (by norm_num))) le_rfl hfits

/-- **A pass is exact when its intermediates fit, and only then.** -/
theorem exact_carryPass : Exact (carryPass v) ↔ Exact v ∧ PassFits (limb v) := by
  constructor
  · intro h
    obtain ⟨htop, hcarry⟩ := exact_carrySteps le_rfl h
    obtain ⟨hv, h0⟩ := exact_carryTop htop
    refine ⟨hv, fun n hn => ?_⟩
    have hlimbs : carry 256 (limb (carryTop v)) n = carry 256 (passIn (limb v)) n :=
      carry_congr n fun i hi => (carryTop_holds hv.holds h0).limb_eq (by omega)
    rw [← hlimbs]
    exact hcarry n hn
  · rintro ⟨hv, hfits⟩
    exact (carryPass_holds hv.holds hfits).exact

/-- **A pass keeps the number modulo the prime.** -/
theorem value_pass (a : Nat → Nat) :
    value 256 32 a = value 256 32 (pass a) + a 31 / 128 * prime := by
  have hmid : value 256 30 (fun i => a (i + 1)) = value 256 30 (fun i => passIn a (i + 1)) := by
    refine value_congr fun i hi => ?_
    unfold passIn
    rw [if_neg (by omega), if_neg (by omega)]
  have h0 : passIn a 0 = a 0 + a 31 / 128 * 19 := rfl
  have h31 : passIn a 31 = a 31 % 128 := rfl
  have hprime : prime + 19 = 128 * 256 ^ 31 := prime_add.trans (by norm_num)
  have hdiv := Nat.div_add_mod (a 31) 128
  rw [pass, value_carried 256 (passIn a) (by norm_num), value_succ 256 31 a, value_head 256 30 a,
    value_succ 256 31 (passIn a), value_head 256 30 (passIn a), hmid, h0, h31]
  calc a 0 + 256 * value 256 30 (fun i => passIn a (i + 1)) + a 31 * 256 ^ 31
      = a 0 + 256 * value 256 30 (fun i => passIn a (i + 1))
          + (128 * (a 31 / 128) + a 31 % 128) * 256 ^ 31 := by rw [hdiv]
    _ = a 0 + 256 * value 256 30 (fun i => passIn a (i + 1)) + a 31 % 128 * 256 ^ 31
          + a 31 / 128 * (128 * 256 ^ 31) := by ring
    _ = _ := by rw [← hprime]; ring

theorem cast_value_pass (a : Nat → Nat) :
    (value 256 32 (pass a) : Fp) = (value 256 32 a : Fp) := by
  rw [value_pass a]
  push_cast
  rw [ZMod.natCast_self, mul_zero, add_zero]

theorem pass_lt (a : Nat → Nat) {i : Nat} (h : i < 31) : pass a i < 256 := by
  rw [pass, carried_of_lt _ h]
  exact Nat.mod_lt _ (by norm_num)

/-! ### Bounds -/

/-- A carry chain adds at most one part in 255 to the largest limb. -/
theorem carry_le {a : Nat → Nat} {B n : Nat} (h : ∀ i ≤ n, a i ≤ B) :
    255 * carry 256 a n ≤ 256 * B := by
  induction n with
  | zero =>
    have h0 : carry 256 a 0 ≤ B := h 0 le_rfl
    omega
  | succ n ih =>
    have hn := ih fun i hi => h i (by omega)
    have hs := h (n + 1) le_rfl
    rw [carry]
    omega

theorem passIn_le {a : Nat → Nat} {B T : Nat} (h : ∀ i < 32, a i ≤ B) (h31 : a 31 ≤ T) {i : Nat}
    (hi : i < 32) : passIn a i ≤ B + T / 128 * 19 := by
  have h0 := h 0 (by norm_num)
  have hself := h i hi
  have htop := h 31 (by norm_num)
  unfold passIn
  split_ifs <;> omega

/-- Limbs well below the word size leave room for a pass. -/
theorem passFits_of_le {a : Nat → Nat} {B T : Nat} (h : ∀ i < 32, a i ≤ B) (h31 : a 31 ≤ T)
    (hB : 256 * (B + T / 128 * 19) < 255 * 2 ^ 32) : PassFits a := by
  intro n hn
  have hle : 255 * carry 256 (passIn a) n ≤ 256 * (B + T / 128 * 19) :=
    carry_le fun i hi => passIn_le h h31 (by omega)
  omega

/-- The top limb after a pass is the whole number's, so the pass reduces the number once. -/
theorem value_pass_of_lt {a : Nat → Nat} (h : ∀ i < 31, a i < 256) :
    value 256 32 (pass a) = value 256 32 a % 2 ^ 255 + value 256 32 a / 2 ^ 255 * 19 := by
  have hlow : value 256 31 a < 256 ^ 31 := value_lt h
  have hval := value_pass a
  have hprime := prime_add
  have hsplit : value 256 32 a = value 256 31 a + a 31 * 256 ^ 31 := value_succ 256 31 a
  have hdiv : value 256 32 a / 2 ^ 255 = a 31 / 128 := by omega
  have hmod := Nat.div_add_mod (value 256 32 a) (2 ^ 255)
  rw [hdiv, ← hprime] at hmod
  rw [hdiv, ← hprime]
  have : (prime + 19) * (a 31 / 128) = a 31 / 128 * prime + a 31 / 128 * 19 := by ring
  omega

theorem value_le_of_limbs {a : Nat → Nat} {B : Nat} (h : ∀ i < 32, a i ≤ B) :
    value 256 32 a ≤ B * 2 ^ 249 := by
  calc value 256 32 a ≤ value 256 32 (fun _ => B * 1) :=
        value_mono fun i hi => by rw [mul_one]; exact h i hi
    _ = B * value 256 32 (fun _ => 1) := value_mul_left 256 32 B _
    _ ≤ B * 2 ^ 249 := Nat.mul_le_mul_left _ (by decide +kernel)

theorem limb_top_le {a : Nat → Nat} {B : Nat} (h : value 256 32 a < (B + 1) * 256 ^ 31) :
    a 31 ≤ B := by
  have hsplit : value 256 32 a = value 256 31 a + a 31 * 256 ^ 31 := value_succ 256 31 a
  by_contra hlt
  have : (B + 1) * 256 ^ 31 ≤ a 31 * 256 ^ 31 := Nat.mul_le_mul_right _ (by omega)
  omega

/-- After two passes the number is below `2 ^ 255` plus a small remainder. -/
theorem value_pass_pass_lt {a : Nat → Nat} (h : value 256 32 a < 2 ^ 281) :
    value 256 32 (pass (pass a)) < 2 ^ 255 + 2 ^ 31 := by
  have h1 := value_pass a
  have h2 := value_pass_of_lt (a := pass a) fun i hi => pass_lt a hi
  have hmod : value 256 32 (pass a) % 2 ^ 255 < 2 ^ 255 := Nat.mod_lt _ (by norm_num)
  omega

/-- Two passes leave byte limbs, with at most the lowest bit above position 254. -/
theorem pass_pass_le {a : Nat → Nat} (h : value 256 32 a < 2 ^ 281) {i : Nat} (hi : i < 32) :
    pass (pass a) i ≤ if i = 31 then 128 else 255 := by
  split_ifs with h31
  · subst h31
    exact limb_top_le ((value_pass_pass_lt h).trans (by norm_num))
  · exact Nat.le_of_lt_succ (pass_lt _ (by omega))

/-- Four passes leave a number below `2 ^ 255`. -/
theorem value_pass4_lt {a : Nat → Nat} (h : value 256 32 a < 2 ^ 281) :
    value 256 32 (pass (pass (pass (pass a)))) < 2 ^ 255 := by
  have h2 := value_pass_pass_lt h
  have h3 := value_pass_of_lt (a := pass (pass a)) fun i hi => pass_lt _ hi
  have h4 := value_pass_of_lt (a := pass (pass (pass a))) fun i hi => pass_lt _ hi
  omega

/-- Four passes leave limbs of a number below `2 ^ 255`. -/
theorem pass4_le {a : Nat → Nat} (h : value 256 32 a < 2 ^ 281) {i : Nat} (hi : i < 32) :
    pass (pass (pass (pass a))) i ≤ if i = 31 then 127 else 255 := by
  split_ifs with h31
  · subst h31
    exact limb_top_le ((value_pass4_lt h).trans_le (by norm_num))
  · exact Nat.le_of_lt_succ (pass_lt _ (by omega))

/-- The second pass of a pair always fits. -/
theorem passFits_pass {a : Nat → Nat} (h : PassFits a) : PassFits (pass a) := by
  have htop : pass a 31 < 2 ^ 32 := by
    rw [pass, carried_self]
    exact h 31 le_rfl
  have hin : ∀ i < 32, passIn (pass a) i ≤ 700000000 := by
    intro i hi
    have h0 := pass_lt a (by norm_num : 0 < 31)
    unfold passIn
    split_ifs with h1 h2
    · omega
    · omega
    · have := pass_lt a (by omega : i < 31)
      omega
  intro n hn
  have hle : 255 * carry 256 (passIn (pass a)) n ≤ 256 * 700000000 :=
    carry_le fun i hi => hin i (by omega)
  omega

/-! ## Multiplication -/

section

open Finset

variable {w : Vector U32 32} {c : Nat → Nat}

/-- The accumulator after the rows below `k`. -/
def mulAccTo (k : Nat) (hk : k ≤ 32) (x y : Vector U32 32) (n : Nat) : U32 :=
  Fin.foldl k (fun t i => if h : i.val ≤ n ∧ n - i < 32 then t + x[i.val] * y[n - i] else t) 0

theorem mulAcc_eq (x y : Vector U32 32) (n : Nat) : mulAcc x y n = mulAccTo 32 le_rfl x y n := rfl

theorem mulAccTo_succ (k : Nat) (hk : k + 1 ≤ 32) (x y : Vector U32 32) (n : Nat) :
    mulAccTo (k + 1) hk x y n
      = if h : k ≤ n ∧ n - k < 32 then mulAccTo k (by omega) x y n + x[k] * y[n - k]
        else mulAccTo k (by omega) x y n := by
  rw [mulAccTo, Fin.foldl_succ_last]
  rfl

/-- The accumulator of a square after the rows below `k`. -/
def squareAccTo (k : Nat) (hk : k ≤ 32) (x : Vector U32 32) (n : Nat) : U32 :=
  Fin.foldl k (fun t i =>
    if 2 * i.val = n then t + x[i.val] * x[i.val]
    else if h : i.val < n - i ∧ n - i < 32 then t + 2 * x[i.val] * x[n - i]
    else t) 0

theorem squareAccTo_succ (k : Nat) (hk : k + 1 ≤ 32) (x : Vector U32 32) (n : Nat) :
    squareAccTo (k + 1) hk x n
      = if 2 * k = n then squareAccTo k (by omega) x n + x[k] * x[k]
        else if h : k < n - k ∧ n - k < 32 then
          squareAccTo k (by omega) x n + 2 * x[k] * x[n - k]
        else squareAccTo k (by omega) x n := by
  rw [squareAccTo, Fin.foldl_succ_last]
  rfl

/-- The sum of `mulAccTo` on numbers. -/
def convTo (k : Nat) (a c : Nat → Nat) (n : Nat) : Nat :=
  ∑ i ∈ range k, if i ≤ n ∧ n - i < 32 then a i * c (n - i) else 0

theorem convTo_succ (k : Nat) (a c : Nat → Nat) (n : Nat) :
    convTo (k + 1) a c n
      = convTo k a c n + if k ≤ n ∧ n - k < 32 then a k * c (n - k) else 0 := sum_range_succ _ _

theorem mulAccTo_is (hv : Holds v a) (hw : Holds w c) {k n : Nat} (hk : k ≤ 32)
    (hlt : convTo k a c n < 2 ^ 32) : (mulAccTo k hk v w n).Is (convTo k a c n) := by
  induction k with
  | zero => exact Word.is_ofNat 0 (by norm_num)
  | succ k ih =>
    rw [convTo_succ] at hlt ⊢
    have ih := ih (by omega) (by omega)
    rw [mulAccTo_succ]
    split_ifs at hlt ⊢ with h
    · exact ih.add ((hv k (by omega)).mul (hw (n - k) h.2) (by omega)) hlt
    · exact ih

theorem exact_mulAccTo {k n : Nat} (hk : k ≤ 32) (h : (mulAccTo k hk v w n).exact = true) :
    (∀ (i : Nat) (_ : i < k) (hn : i ≤ n ∧ n - i < 32), v[i].exact = true ∧ w[n - i].exact = true)
      ∧ (mulAccTo k hk v w n).toNat = convTo k (limb v) (limb w) n := by
  induction k with
  | zero => exact ⟨fun i hi => absurd hi (Nat.not_lt_zero i), rfl⟩
  | succ k ih =>
    rw [mulAccTo_succ] at h ⊢
    rw [convTo_succ]
    split_ifs at h ⊢ with hn
    · obtain ⟨hacc, hprod, hlt⟩ := Word.exact_add.mp h
      obtain ⟨hx, hy, hplt⟩ := Word.exact_mul.mp hprod
      obtain ⟨hall, hval⟩ := ih (by omega) hacc
      have hmul := (Word.is_toNat hx).mul (Word.is_toNat hy) hplt
      rw [hmul.toNat_eq] at hlt
      refine ⟨fun i hi hin => ?_, ?_⟩
      · rcases Nat.lt_succ_iff_lt_or_eq.mp hi with hlt' | rfl
        · exact hall i hlt' hin
        · exact ⟨hx, hy⟩
      · rw [((Word.is_toNat hacc).add hmul hlt).toNat_eq, hval, limb_eq v (by omega),
          limb_eq w hn.2]
    · obtain ⟨hall, hval⟩ := ih (by omega) h
      refine ⟨fun i hi hin => ?_, hval⟩
      rcases Nat.lt_succ_iff_lt_or_eq.mp hi with hlt' | rfl
      · exact hall i hlt' hin
      · exact absurd hin hn

theorem mulAcc_is (hv : Holds v a) (hw : Holds w c) {n : Nat} (hlt : conv 32 a c n < 2 ^ 32) :
    (mulAcc v w n).Is (conv 32 a c n) := mulAccTo_is hv hw le_rfl hlt

/-- The limbs of a folded product. -/
def mulLimbs (a c : Nat → Nat) (i : Nat) : Nat :=
  if i = 31 then conv 32 a c 31 else conv 32 a c i + 38 * conv 32 a c (i + 32)

/-- Every intermediate of a multiplication of limbs `a` and `c` fits its word. -/
def MulFits (a c : Nat → Nat) : Prop :=
  (∀ i < 32, mulLimbs a c i < 2 ^ 32) ∧ PassFits (mulLimbs a c)

theorem mulFits_congr {a' c' : Nat → Nat} (ha : ∀ i < 32, a i = a' i) (hc : ∀ i < 32, c i = c' i)
    (h : MulFits a c) : MulFits a' c' := by
  have hlimbs : ∀ i, mulLimbs a c i = mulLimbs a' c' i := by
    intro i
    unfold mulLimbs
    rw [conv_congr ha hc, conv_congr ha hc, conv_congr ha hc]
  rw [MulFits, funext hlimbs] at h
  exact h

/-- The limbs `fe25519_mul` ends with. -/
def product (a c : Nat → Nat) : Nat → Nat := pass (pass (mulLimbs a c))

/-- `mulFold` of any accumulators that hold a product. -/
theorem mulFold_is {t : Nat → U32}
    (ht : ∀ n, conv 32 a c n < 2 ^ 32 → (t n).Is (conv 32 a c n))
    (hlt : ∀ i < 32, mulLimbs a c i < 2 ^ 32) : Holds (mulFold t).v (mulLimbs a c) := by
  intro i hi
  have hi' := hlt i hi
  unfold mulFold
  rw [Vector.getElem_ofFn]
  unfold mulLimbs at hi' ⊢
  split_ifs at hi' ⊢ with h31
  · exact ht 31 hi'
  · exact (ht i (by omega)).add
      ((Word.is_ofNat 38 (by norm_num)).mul (ht (i + 32) (by omega)) (by omega)) hi'

theorem mulFold_holds (hv : Holds v a) (hw : Holds w c) (hlt : ∀ i < 32, mulLimbs a c i < 2 ^ 32) :
    Holds (mulFold (mulAcc v w)).v (mulLimbs a c) :=
  mulFold_is (fun _ hn => mulAcc_is hv hw hn) hlt

theorem mulLimbs_le {B C : Nat} (ha : ∀ i < 32, a i ≤ B) (hc : ∀ i < 32, c i ≤ C) (i : Nat) :
    mulLimbs a c i ≤ 1248 * (B * C) := by
  have h1 := conv_le ha hc i
  have h2 := conv_le ha hc (i + 32)
  unfold mulLimbs
  split_ifs with h31
  · subst h31
    omega
  · omega

/-- Limbs with a small product leave room for a multiplication. -/
theorem mulFits_of_le {B C : Nat} (ha : ∀ i < 32, a i ≤ B) (hc : ∀ i < 32, c i ≤ C)
    (hBC : B * C ≤ 3400000) : MulFits a c := by
  refine ⟨fun i _ => ?_, passFits_of_le (fun i _ => mulLimbs_le ha hc i) (conv_le ha hc 31) ?_⟩
  · have := mulLimbs_le ha hc i
    omega
  · omega

theorem mul_holds {x y : Fe25519} (hx : Holds x.v a) (hy : Holds y.v c) (hfits : MulFits a c) :
    Holds (mul x y).v (product a c) :=
  carryPass_holds (carryPass_holds (mulFold_holds hx hy hfits.1) hfits.2) (passFits_pass hfits.2)

/-- An exact folded product has exact factors, and its limbs did not wrap. -/
theorem exact_mulFold (h : Exact (mulFold (mulAcc v w)).v) :
    Exact v ∧ Exact w ∧ ∀ i < 32, mulLimbs (limb v) (limb w) i < 2 ^ 32 := by
  have hlimb : ∀ (i : Nat) (hi : i < 31),
      (mulAcc v w i + 38 * mulAcc v w (i + 32)).exact = true := by
    intro i hi
    have hi' := h i (by omega)
    unfold mulFold at hi'
    rw [Vector.getElem_ofFn] at hi'
    simpa only [if_neg (show ¬ i = 31 by omega)] using hi'
  have hfactors : Exact v ∧ Exact w := by
    -- limb 0 collects `v[0] * w[0]` and, in the upper half, every `v[i] * w[32 - i]`
    obtain ⟨hlow, hhigh, -⟩ := Word.exact_add.mp (hlimb 0 (by norm_num))
    obtain ⟨-, hhigh, -⟩ := Word.exact_mul.mp hhigh
    obtain ⟨h0, -⟩ := exact_mulAccTo le_rfl hlow
    obtain ⟨h32, -⟩ := exact_mulAccTo le_rfl hhigh
    constructor
    · intro i hi
      rcases Nat.eq_zero_or_pos i with rfl | hpos
      · exact (h0 0 (by norm_num) (by norm_num)).1
      · exact (h32 i hi (by omega)).1
    · intro i hi
      rcases Nat.eq_zero_or_pos i with rfl | hpos
      · exact (h0 0 (by norm_num) (by norm_num)).2
      · have := (h32 (32 - i) (by omega) (by omega)).2
        simpa only [show 0 + 32 - (32 - i) = i by omega] using this
  refine ⟨hfactors.1, hfactors.2, fun i hi => ?_⟩
  unfold mulLimbs
  split_ifs with h31
  · subst h31
    have h31' := h 31 (by norm_num)
    unfold mulFold at h31'
    rw [Vector.getElem_ofFn] at h31'
    have h31' : (mulAcc v w 31).exact = true := h31'
    have hlt := (mulAccTo 32 le_rfl v w 31).toNat_lt
    rw [(exact_mulAccTo le_rfl h31').2] at hlt
    exact hlt
  · obtain ⟨hlow, hhigh, hlt⟩ := Word.exact_add.mp (hlimb i (by omega))
    obtain ⟨-, hhigh, hlt38⟩ := Word.exact_mul.mp hhigh
    have hlowval := (exact_mulAccTo le_rfl hlow).2
    have hhighval := (exact_mulAccTo le_rfl hhigh).2
    have hmul := (Word.is_ofNat 38 (by norm_num)).mul (Word.is_toNat hhigh) hlt38
    rw [hmul.toNat_eq] at hlt
    rw [mulAcc_eq, mulAcc_eq, hlowval, hhighval] at hlt
    exact hlt

/-- **A multiplication is exact when its intermediates fit, and only then.** -/
theorem exact_mul {x y : Fe25519} :
    Exact (mul x y).v ↔ Exact x.v ∧ Exact y.v ∧ MulFits (limb x.v) (limb y.v) := by
  constructor
  · intro h
    obtain ⟨hpass, -⟩ := exact_carryPass.mp h
    obtain ⟨hfold, hfits⟩ := exact_carryPass.mp hpass
    obtain ⟨hx, hy, hlt⟩ := exact_mulFold hfold
    have hlimbs : ∀ i < 32, limb (mulFold (mulAcc x.v y.v)).v i
        = mulLimbs (limb x.v) (limb y.v) i :=
      fun i hi => (mulFold_holds hx.holds hy.holds hlt).limb_eq hi
    exact ⟨hx, hy, hlt, passFits_congr hlimbs hfits⟩
  · rintro ⟨hx, hy, hfits⟩
    exact (mul_holds hx.holds hy.holds hfits).exact

/-- The folding keeps the number modulo the prime, since `256 ^ 32` is twice the prime plus 38. -/
theorem value_mulLimbs (a c : Nat → Nat) :
    value 256 32 a * value 256 32 c
      = value 256 32 (mulLimbs a c)
        + 2 * prime * value 256 31 fun i => conv 32 a c (32 + i) := by
  have hpow : 256 ^ 32 = 2 * prime + 38 := by
    have := prime_add
    omega
  have hlow : value 256 31 (mulLimbs a c)
      = value 256 31 (conv 32 a c) + 38 * value 256 31 fun i => conv 32 a c (32 + i) := by
    rw [← value_mul_left, ← value_add]
    refine value_congr fun i hi => ?_
    unfold mulLimbs
    rw [if_neg (by omega), add_comm i 32]
  rw [← value_conv, show 2 * 32 - 1 = 32 + 31 from rfl, value_split, hpow, value_succ 256 31,
    value_succ 256 31 (mulLimbs a c), hlow, show mulLimbs a c 31 = conv 32 a c 31 from rfl]
  ring

/-- **A multiplication multiplies modulo the prime.** -/
theorem value_product (a c : Nat → Nat) :
    (value 256 32 (product a c) : Fp) = (value 256 32 a : Fp) * (value 256 32 c : Fp) := by
  rw [product, cast_value_pass, cast_value_pass, ← Nat.cast_mul, value_mulLimbs]
  push_cast
  rw [ZMod.natCast_self]
  ring

end

end HocusPocus.Fe25519
