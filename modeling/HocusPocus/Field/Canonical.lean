import HocusPocus.Field.Wire

/-!
# Canonical limbs

`fe25519_freeze` subtracts the prime at most once, and only from limbs of a number below
`2 ^ 255`. After `fe25519_reduce_add_sub` that is enough: `isZero` then decides whether the element
is zero. After the two passes of `reduce_mul` the number can still be `2 ^ 255` or a little more,
and the freeze leaves it as it is.

* `Reduced.canonical_freeze`, `isZero_freeze_iff`: a freeze of reduced limbs is canonical.
* `eq_iff_value`: `operator==` freezes an unreduced difference; it holds of two numbers only when
  the second is larger by the prime.
* `canonical_mul_iff`: a freeze of a product is canonical exactly when the quotient left for the
  second pass does not carry the residue over `2 ^ 255`.
-/

namespace HocusPocus.Fe25519

open Machine Arith FieldOps

/-- The limbs are bytes, and those of the residue of `n` below the prime. -/
structure Canonical (x : Fe25519) (n : Nat) : Prop where
  le : ∀ i < 32, limb x.v i ≤ 255
  value_eq : value 256 32 (limb x.v) = n % prime

section

variable {x y : Fe25519} {e : Fp} {a : Nat → Nat} {n : Nat}

theorem Canonical.lt (h : Canonical x n) : value 256 32 (limb x.v) < prime := by
  rw [h.value_eq]
  exact Nat.mod_lt _ prime_prime.pos

/-- There is one canonical array for each element. -/
theorem Canonical.unique (hx : Canonical x n) (hy : Canonical y n) :
    ∀ i < 32, limb x.v i = limb y.v i :=
  digits_unique (fun i hi => Nat.lt_succ_of_le (hx.le i hi))
    (fun i hi => Nat.lt_succ_of_le (hy.le i hi)) (hx.value_eq.trans hy.value_eq.symm)

/-! ## The freeze -/

theorem atLeastPrime_iff : AtLeastPrime a = true
    ↔ a 31 = 127 ∧ (∀ i, 1 ≤ i → i ≤ 30 → a i = 255) ∧ 237 ≤ a 0 := by
  simp only [AtLeastPrime, Bool.and_eq_true, beq_iff_eq, List.all_eq_true, List.mem_range,
    decide_eq_true_eq, and_assoc]
  refine and_congr_right fun _ => and_congr_left fun _ => ⟨fun h i h1 h30 => ?_, fun h j hj => ?_⟩
  · have := h (30 - i) (by omega)
    rwa [show 30 - (30 - i) = i by omega] at this
  · exact h (30 - j) (by omega) (by omega)

/-- A freeze reduces a number below `2 ^ 255`. -/
theorem value_frozen_of_le (h : ∀ i < 32, a i ≤ maxLimb i) :
    value 256 32 (frozen a) = value 256 32 a % prime := by
  have hfrozen := value_frozen a
  have hle := value_le_of_maxLimb h
  have hbig : 18 < prime := lt_prime_of_le (by norm_num)
  have hge := (prime_le_value_iff h).trans atLeastPrime_iff.symm
  cases hc : AtLeastPrime a with
  | false =>
    have hlt : value 256 32 a < prime := by
      by_contra hlt
      rw [hge.mp (by omega)] at hc
      exact absurd hc (by simp)
    rw [hc, Bool.toNat_false, zero_mul, add_zero] at hfrozen
    rw [Nat.mod_eq_of_lt hlt, hfrozen]
  | true =>
    have hle' := hge.mpr hc
    rw [hc, Bool.toNat_true, one_mul] at hfrozen
    rw [Nat.mod_eq_sub_mod hle', Nat.mod_eq_of_lt (by omega)]
    exact Nat.eq_sub_of_add_eq hfrozen

/-- A freeze leaves a number as it is when its top limb is not 127. -/
theorem value_frozen_of_ne (h : a 31 ≠ 127) : value 256 32 (frozen a) = value 256 32 a := by
  have hfrozen := value_frozen a
  have hc : AtLeastPrime a = false := by
    by_contra hc
    exact h (atLeastPrime_iff.mp (by simpa using hc)).1
  rw [hc, Bool.toNat_false, zero_mul, add_zero] at hfrozen
  exact hfrozen

/-- A freeze leaves bytes of a number from `2 ^ 255` on as they are: their top one is 128 or
more. -/
theorem value_frozen_of_ge (h : ∀ i < 31, a i ≤ 255) (hge : 2 ^ 255 ≤ value 256 32 a) :
    value 256 32 (frozen a) = value 256 32 a := by
  refine value_frozen_of_ne fun htop => ?_
  have hsplit : value 256 32 a = value 256 31 a + a 31 * 256 ^ 31 := value_succ 256 31 _
  have hlow : value 256 31 a < 256 ^ 31 := value_lt fun i hi => Nat.lt_succ_of_le (h i hi)
  omega

/-- **A freeze of reduced limbs is canonical.** -/
theorem Reduced.canonical_freeze (h : Reduced x e) :
    Canonical (FieldOps.freeze x) (value 256 32 (limb x.v)) where
  le := h.freeze.le
  value_eq := by
    rw [value_congr fun i hi => (freeze_holds h.holds).limb_eq hi]
    exact value_frozen_of_le h.byteLimbs

/-- The number a freeze of reduced limbs ends with. -/
theorem Reduced.value_freeze (h : Reduced x e) :
    value 256 32 (limb (FieldOps.freeze x).v) = e.val := by
  rw [h.canonical_freeze.value_eq, ← h.residue_eq, residue, ZMod.val_natCast]

theorem isZero_iff : isZero x = true ↔ value 256 32 (limb x.v) = 0 := by
  have hlimbs : isZero x = true ↔ ∀ i < 32, limb x.v i = 0 := by
    unfold isZero
    simp only [List.all_eq_true, List.mem_finRange, forall_const, beq_iff_eq, Fin.forall_iff]
    exact forall₂_congr fun i hi => by rw [limb_eq x.v hi]; rfl
  rw [hlimbs, value_eq_zero_iff (by norm_num)]

/-- **After a reduction, `isZero` of the freeze decides whether the element is zero.** -/
theorem isZero_freeze_iff (h : Reduced x e) :
    FieldOps.isZero (FieldOps.freeze x) = true ↔ e = 0 := by
  have hzero : FieldOps.isZero (FieldOps.freeze x) = true
      ↔ value 256 32 (limb (FieldOps.freeze x).v) = 0 := isZero_iff
  rw [hzero, h.canonical_freeze.value_eq, ← h.residue_eq, residue, ZMod.natCast_eq_zero_iff,
    Nat.dvd_iff_mod_eq_zero]

end

/-! ## `operator==` -/

section

variable {x y : Fe25519}

theorem IsReduced.le_maxLimb (h : x.IsReduced) : ∀ i < 32, limb x.v i ≤ maxLimb i :=
  Reduced.byteLimbs h

theorem IsReduced.value_le (h : x.IsReduced) : value 256 32 (limb x.v) ≤ prime + 18 :=
  value_le_of_maxLimb h.le_maxLimb

/-- When the second number is larger by the prime, the limbs of the difference are the prime's. -/
theorem differenceLimb_eq_primeLimb (hx : x.IsReduced) (hy : y.IsReduced)
    (h : value 256 32 (limb y.v) = value 256 32 (limb x.v) + prime) {i : Nat} (hi : i < 32) :
    differenceLimb (limb x.v) (limb y.v) i = primeLimb i := by
  obtain ⟨h31, hmid, -⟩ := (prime_le_value_iff hy.le_maxLimb).mp (by omega)
  have hyle := hy.value_le
  have hsmall : value 256 32 (limb x.v) < 256 := by omega
  have hlimb : ∀ i < 32, limb x.v i = value 256 32 (limb x.v) / 256 ^ i % 256 := fun i hi =>
    (value_div_mod (fun j hj => Nat.lt_succ_of_le (hx.le j hj)) hi).symm
  have hyvalue : value 256 32 (limb y.v)
      = limb y.v 0 + 256 * value 256 31 fun i => limb y.v (i + 1) := value_head 256 31 _
  have hpvalue : value 256 32 primeLimb
      = primeLimb 0 + 256 * value 256 31 fun i => primeLimb (i + 1) := value_head 256 31 _
  have hrest : value 256 31 (fun i => limb y.v (i + 1))
      = value 256 31 fun i => primeLimb (i + 1) := by
    refine value_congr fun i hi => ?_
    unfold primeLimb
    by_cases hlast : i + 1 = 31
    · rw [if_pos hlast, hlast, h31]
    · rw [if_neg hlast, if_neg (by omega), hmid (i + 1) (by omega) (by omega)]
  rw [value_primeLimb, show primeLimb 0 = 237 from rfl, ← hrest] at hpvalue
  unfold differenceLimb
  rw [hlimb i hi]
  rcases Nat.eq_zero_or_pos i with rfl | hpos
  · rw [show subPad 0 = 474 from rfl, show primeLimb 0 = 237 from rfl, pow_zero, Nat.div_one,
      Nat.mod_eq_of_lt hsmall]
    omega
  · rw [Nat.div_eq_of_lt (hsmall.trans_le (Nat.le_self_pow (by omega) 256)), Nat.zero_mod, zero_add]
    unfold subPad primeLimb
    rw [if_neg (by omega)]
    by_cases hlast : i = 31
    · rw [if_pos hlast, if_pos hlast, hlast, h31]
    · rw [if_neg hlast, if_neg hlast, if_neg (by omega), hmid i (by omega) (by omega)]

/-- **What `operator==` decides**: the difference has twice the prime added and is not reduced, so
the freeze only reaches zero when the second number is larger by the prime. -/
theorem eq_iff_value (hx : x.IsReduced) (hy : y.IsReduced) :
    FieldOps.eq x y = true ↔ value 256 32 (limb y.v) = value 256 32 (limb x.v) + prime := by
  have hpad : ∀ i < 32, limb y.v i ≤ subPad i := fun _ => hy.le_subPad
  have hle : ∀ i < 32, limb x.v i + 510 < 2 ^ 32 := fun i hi => by
    have := hx.le i hi
    omega
  have hholds : Holds (x - y).v (differenceLimb (limb x.v) (limb y.v)) :=
    sub_holds hx.holds hy.holds hle hpad
  have hdiff := value_differenceLimb (a := limb x.v) hpad
  have hfrozen := value_frozen (differenceLimb (limb x.v) (limb y.v))
  have hzero : FieldOps.eq x y = true
      ↔ value 256 32 (frozen (differenceLimb (limb x.v) (limb y.v))) = 0 := by
    rw [← value_congr fun i hi => (freeze_holds hholds).limb_eq hi]
    unfold FieldOps.eq
    exact isZero_iff
  rw [hzero]
  constructor
  · intro h
    rw [h, zero_add] at hfrozen
    have hyle := hy.value_le
    have hbig : 18 < prime := lt_prime_of_le (by norm_num)
    cases hc : AtLeastPrime (differenceLimb (limb x.v) (limb y.v)) with
    | false =>
      rw [hc, Bool.toNat_false, zero_mul] at hfrozen
      omega
    | true =>
      rw [hc, Bool.toNat_true, one_mul] at hfrozen
      omega
  · intro h
    have hlimbs := fun i hi => differenceLimb_eq_primeLimb hx hy h (i := i) hi
    have hc : AtLeastPrime (differenceLimb (limb x.v) (limb y.v)) = true := by
      rw [atLeastPrime_iff, hlimbs 31 (by norm_num), hlimbs 0 (by norm_num)]
      refine ⟨rfl, fun i h1 h30 => ?_, le_rfl⟩
      rw [hlimbs i (by omega)]
      unfold primeLimb
      rw [if_neg (by omega), if_neg (by omega)]
    rw [hc, Bool.toNat_true, one_mul] at hfrozen
    omega

theorem residue_eq_iff (hx : x.IsReduced) (hy : y.IsReduced) :
    x.residue = y.residue ↔
      value 256 32 (limb x.v) = value 256 32 (limb y.v) ∨
        value 256 32 (limb y.v) = value 256 32 (limb x.v) + prime ∨
        value 256 32 (limb x.v) = value 256 32 (limb y.v) + prime := by
  have hxle := hx.value_le
  have hyle := hy.value_le
  have hbig : 18 < prime := lt_prime_of_le (by norm_num)
  rw [residue, residue, ZMod.natCast_eq_natCast_iff]
  constructor
  · intro h
    rcases Nat.le_total (value 256 32 (limb x.v)) (value 256 32 (limb y.v)) with hle | hle
    · obtain ⟨q, hq⟩ := (Nat.modEq_iff_dvd' hle).mp h
      have hq2 : q < 2 := by
        by_contra hge
        have := Nat.mul_le_mul_left prime (not_lt.mp hge)
        omega
      interval_cases q <;> omega
    · obtain ⟨q, hq⟩ := (Nat.modEq_iff_dvd' hle).mp h.symm
      have hq2 : q < 2 := by
        by_contra hge
        have := Nat.mul_le_mul_left prime (not_lt.mp hge)
        omega
      interval_cases q <;> omega
  · rintro (h | h | h)
    · rw [h]
    · rw [h]
      exact (Nat.add_modEq_right).symm
    · rw [h]
      exact Nat.add_modEq_right

end

/-! ## The freeze of a product -/

/-- What two carry passes make of a number stays below `2 ^ 255` unless the residue is at least 19
and below 19 times the quotient. -/
theorem two_passes_lt_iff {n : Nat} (h : n < 2 ^ 281) :
    n % 2 ^ 255 + n / 2 ^ 255 * 19 < 2 ^ 255 ↔ n % prime < 19 ∨ 19 * (n / prime) ≤ n % prime := by
  have hprime := prime_add
  have hbits := Nat.div_add_mod n (2 ^ 255)
  have hbitslt := Nat.mod_lt n (Nat.two_pow_pos 255)
  have hdiv := Nat.div_add_mod n prime
  have hdivlt := Nat.mod_lt n prime_prime.pos
  have hp : prime
      = 57896044618658097711785492504343953926634992332820282019728792003956564819949 := rfl
  rw [hp] at *
  omega

/-- The multiple of the prime that is left in a product after the folding and the first pass. -/
def quotientLeft (a c : Nat → Nat) : Nat :=
  value 256 32 a * value 256 32 c / prime
    - (conv 32 a c 31 / 128 + 2 * value 256 31 fun i => conv 32 a c (32 + i))

/-- The second pass does not carry into bit 255: the residue is too small to be seen there, or the
multiples of 19 that come back for the quotient do not exceed it. -/
def NoRipple (a c : Nat → Nat) : Prop :=
  value 256 32 a * value 256 32 c % prime < 19 ∨
    19 * quotientLeft a c ≤ value 256 32 a * value 256 32 c % prime

instance (a c : Nat → Nat) : Decidable (NoRipple a c) := inferInstanceAs (Decidable (_ ∨ _))

section

variable {a c : Nat → Nat}

/-- The product, as the number after the first pass and multiples of the prime. -/
theorem value_pass_mulLimbs (a c : Nat → Nat) :
    value 256 32 a * value 256 32 c
      = value 256 32 (pass (mulLimbs a c))
        + (conv 32 a c 31 / 128 + 2 * value 256 31 fun i => conv 32 a c (32 + i)) * prime := by
  have htop : mulLimbs a c 31 = conv 32 a c 31 := rfl
  rw [value_mulLimbs, value_pass (mulLimbs a c), htop]
  ring

theorem quotientLeft_eq (a c : Nat → Nat) :
    quotientLeft a c = value 256 32 (pass (mulLimbs a c)) / prime := by
  rw [quotientLeft, value_pass_mulLimbs, Nat.add_mul_div_right _ _ prime_prime.pos,
    Nat.add_sub_cancel]

theorem mod_prime_eq (a c : Nat → Nat) :
    value 256 32 a * value 256 32 c % prime = value 256 32 (pass (mulLimbs a c)) % prime := by
  rw [value_pass_mulLimbs, Nat.add_mul_mod_self_right]

/-- The quotient, from the lower limbs of the product. -/
theorem quotientLeft_eq_sub (a c : Nat → Nat) :
    quotientLeft a c = value 256 32 a * value 256 32 c / prime
      - (value 256 32 a * value 256 32 c - value 256 31 (conv 32 a c)) / 2 ^ 255 := by
  have hprod : value 256 63 (conv 32 a c) = value 256 32 a * value 256 32 c := value_conv 256 32 a c
  have hsplit : value 256 63 (conv 32 a c) = value 256 31 (conv 32 a c)
      + 256 ^ 31 * value 256 32 fun i => conv 32 a c (31 + i) := value_split 256 31 32 _
  have hhead : value 256 32 (fun i => conv 32 a c (31 + i)) = conv 32 a c 31
      + 256 * value 256 31 fun i => conv 32 a c (32 + i) := by
    have hshift : value 256 31 (fun i => conv 32 a c (31 + (i + 1)))
        = value 256 31 fun i => conv 32 a c (32 + i) :=
      value_congr fun i _ => by rw [show 31 + (i + 1) = 32 + i by omega]
    rw [value_head, hshift, Nat.add_zero]
  have htop : (value 256 32 a * value 256 32 c - value 256 31 (conv 32 a c)) / 2 ^ 255
      = conv 32 a c 31 / 128 + 2 * value 256 31 fun i => conv 32 a c (32 + i) := by
    rw [← hprod, hsplit, hhead]
    omega
  rw [htop, quotientLeft]

open Finset in
/-- The multiples of the prime that are left are few when the limbs of one factor are small. -/
theorem quotientLeft_mul_le (hc : ∀ i < 32, c i ≤ 255) :
    quotientLeft a c * prime ≤ (∑ i ∈ range 31, a i) * 256 ^ 31 + 2 ^ 255
      + 19 * (value 256 32 a * value 256 32 c / 2 ^ 255) := by
  have hlow : value 256 31 (conv 32 a c) ≤ (∑ i ∈ range 31, a i) * 256 ^ 31 := by
    rw [value_conv_low, sum_range_succ, show min 32 (31 - 31) = 0 from rfl, value_zero, mul_zero,
      add_zero, sum_mul]
    refine sum_le_sum fun i hi => ?_
    have hi31 := mem_range.mp hi
    have hlt : value 256 (min 32 (31 - i)) c < 256 ^ (31 - i) := by
      rw [show min 32 (31 - i) = 31 - i by omega]
      exact value_lt fun j hj => Nat.lt_succ_of_le (hc j (by omega))
    calc a i * 256 ^ i * value 256 (min 32 (31 - i)) c
        ≤ a i * 256 ^ i * 256 ^ (31 - i) := Nat.mul_le_mul_left _ hlt.le
      _ = a i * 256 ^ 31 := by rw [Nat.mul_assoc, ← pow_add, show i + (31 - i) = 31 by omega]
  rw [quotientLeft_eq_sub]
  generalize value 256 32 a * value 256 32 c = n at *
  have hprime := prime_add
  have hquot := Nat.div_mul_le_self n prime
  have hrest := Nat.div_add_mod (n - value 256 31 (conv 32 a c)) (2 ^ 255)
  have hrestlt := Nat.mod_lt (n - value 256 31 (conv 32 a c)) (Nat.two_pow_pos 255)
  have hle : (n - value 256 31 (conv 32 a c)) / 2 ^ 255 ≤ n / 2 ^ 255 :=
    Nat.div_le_div_right (Nat.sub_le _ _)
  rw [Nat.sub_mul]
  have hp : prime
      = 57896044618658097711785492504343953926634992332820282019728792003956564819949 := rfl
  rw [hp] at *
  omega

/-- The factors as the digits of two numbers, the first of them times `m`. -/
theorem quotientLeft_digits {m x y : Nat} (hx : x < 256 ^ 32) (hy : y < 256 ^ 32) :
    quotientLeft (fun i => m * (x / 256 ^ i % 256)) (fun i => y / 256 ^ i % 256)
      = m * x * y / prime - (m * x * y - m * lowProduct 256 31 x y) / 2 ^ 255 := by
  rw [quotientLeft_eq_sub, value_mul_left, value_digits, value_digits, Nat.mod_eq_of_lt hx,
    Nat.mod_eq_of_lt hy, funext (conv_mul_left 32 m _ _), value_mul_left,
    value_conv_digits (by norm_num)]

/-- **A product stays below `2 ^ 255` exactly when nothing ripples into bit 255.** -/
theorem value_product_lt_iff (h : value 256 32 (mulLimbs a c) < 2 ^ 281) :
    value 256 32 (product a c) < 2 ^ 255 ↔ NoRipple a c := by
  have hfirst := value_pass (mulLimbs a c)
  have hsecond := value_pass_of_lt (a := pass (mulLimbs a c)) fun i hi => pass_lt _ hi
  rw [product, hsecond, NoRipple, mod_prime_eq, quotientLeft_eq]
  exact two_passes_lt_iff (by omega)

/-- **The freeze of a product is canonical exactly when nothing ripples into bit 255.** -/
theorem canonical_freeze_iff {x : Fe25519} (hfits : MulFits a c) (h : Holds x.v (product a c)) :
    Canonical (FieldOps.freeze x) (value 256 32 a * value 256 32 c) ↔ NoRipple a c := by
  have hlt := value_mulLimbs_lt hfits
  have hle : ∀ i < 32, product a c i ≤ if i = 31 then 128 else 255 :=
    fun i hi => pass_pass_le hlt hi
  have hfrozen : value 256 32 (limb (FieldOps.freeze x).v) = value 256 32 (frozen (product a c)) :=
    value_congr fun i hi => (freeze_holds h).limb_eq hi
  have hmod : value 256 32 (product a c) % prime = value 256 32 a * value 256 32 c % prime := by
    have := value_product a c
    rwa [← Nat.cast_mul, ZMod.natCast_eq_natCast_iff'] at this
  rw [← value_product_lt_iff hlt]
  constructor
  · -- a limb 31 of 128 is not touched by the freeze, and is too large for a residue
    intro hcanonical
    by_contra hge
    have hbyte : ∀ i < 31, product a c i ≤ 255 := by
      intro i hi
      have := hle i (by omega)
      rwa [if_neg (by omega)] at this
    have hval := hcanonical.lt
    rw [hfrozen, value_frozen_of_ge hbyte (by omega)] at hval
    have hp := prime_add
    omega
  · intro hsmall
    have htop : product a c 31 ≤ 127 := limb_top_le (hsmall.trans_le (by norm_num))
    have hmax : ∀ i < 32, product a c i ≤ maxLimb i := by
      intro i hi
      have := hle i hi
      unfold maxLimb
      split_ifs at this ⊢ with h31
      · rw [h31]
        exact htop
      · exact this
    refine ⟨fun i hi => ?_, ?_⟩
    · rw [(freeze_holds h).limb_eq hi]
      refine (Nat.sub_le _ _).trans ((hmax i hi).trans ?_)
      unfold maxLimb
      split_ifs <;> omega
    · rw [hfrozen, value_frozen_of_le hmax, hmod]

end

/-! ## Squares -/

section

open Finset

variable {v : Vector U32 32} {x : Fe25519} {a : Nat → Nat}

/-- The products with both factors at one distance from the middle are taken twice. -/
def squareTo (k : Nat) (a : Nat → Nat) (n : Nat) : Nat :=
  ∑ i ∈ range k, if 2 * i = n then a i * a i
    else if i < n - i ∧ n - i < 32 then 2 * a i * a (n - i) else 0

theorem squareTo_succ (k : Nat) (a : Nat → Nat) (n : Nat) :
    squareTo (k + 1) a n
      = squareTo k a n + if 2 * k = n then a k * a k
        else if k < n - k ∧ n - k < 32 then 2 * a k * a (n - k) else 0 := sum_range_succ _ _

/-- The later factors of the schoolbook square are the earlier ones. -/
theorem sum_later_eq (a : Nat → Nat) (n : Nat) :
    (∑ i ∈ range 32, if n - i < i ∧ i ≤ n then a i * a (n - i) else 0)
      = ∑ i ∈ range 32, if i < n - i ∧ n - i < 32 then a i * a (n - i) else 0 := by
  rw [← sum_filter, ← sum_filter]
  refine sum_nbij' (fun i => n - i) (fun i => n - i) ?_ ?_ ?_ ?_ ?_
  · intro i hi
    simp only [mem_filter, mem_range] at hi ⊢
    omega
  · intro i hi
    simp only [mem_filter, mem_range] at hi ⊢
    omega
  · intro i hi
    simp only [mem_filter, mem_range] at hi
    omega
  · intro i hi
    simp only [mem_filter, mem_range] at hi
    omega
  · intro i hi
    simp only [mem_filter, mem_range] at hi
    rw [show n - (n - i) = i by omega, Nat.mul_comm]

/-- **The accumulator of the square is that of the product with itself.** -/
theorem squareTo_eq_conv (a : Nat → Nat) (n : Nat) : squareTo 32 a n = conv 32 a a n := by
  have hsplit : conv 32 a a n
      = (∑ i ∈ range 32, if 2 * i = n then a i * a i else 0)
        + (∑ i ∈ range 32, if i < n - i ∧ n - i < 32 then a i * a (n - i) else 0)
        + ∑ i ∈ range 32, if n - i < i ∧ i ≤ n then a i * a (n - i) else 0 := by
    rw [conv, ← sum_add_distrib, ← sum_add_distrib]
    refine sum_congr rfl fun i hi => ?_
    have hi := mem_range.mp hi
    rcases lt_trichotomy (2 * i) n with hlt | heq | hgt
    · rw [if_neg (by omega : ¬ 2 * i = n), if_neg (by omega : ¬ (n - i < i ∧ i ≤ n)), zero_add,
        add_zero]
      exact if_congr (by omega) rfl rfl
    · rw [if_pos heq, if_neg (by omega : ¬ (i < n - i ∧ n - i < 32)),
        if_neg (by omega : ¬ (n - i < i ∧ i ≤ n)), if_pos (by omega), add_zero, add_zero,
        show n - i = i by omega]
    · rw [if_neg (by omega : ¬ 2 * i = n), if_neg (by omega : ¬ (i < n - i ∧ n - i < 32)), zero_add,
        zero_add]
      exact if_congr (by omega) rfl rfl
  rw [hsplit, sum_later_eq, squareTo, ← sum_add_distrib, ← sum_add_distrib]
  refine sum_congr rfl fun i hi => ?_
  split_ifs with h1 h2 h3
  · omega
  · rfl
  · ring
  · rfl

theorem squareAccTo_is (hv : Holds v a) (htwice : ∀ i < 32, 2 * a i < 2 ^ 32) {k n : Nat}
    (hk : k ≤ 32) (hlt : squareTo k a n < 2 ^ 32) : (squareAccTo k hk v n).Is (squareTo k a n) := by
  induction k with
  | zero => exact Word.is_ofNat 0 (by norm_num)
  | succ k ih =>
    rw [squareTo_succ] at hlt ⊢
    have ih := ih (by omega) (by omega)
    have hself := hv k (by omega)
    rw [squareAccTo_succ]
    split_ifs at hlt ⊢ with hmid hlow
    · exact ih.add (hself.mul hself (by omega)) hlt
    · have hdouble := (Word.is_ofNat 2 (by norm_num)).mul hself (htwice k (by omega))
      exact ih.add (hdouble.mul (hv (n - k) hlow.2) (by omega)) hlt
    · exact ih

theorem squareAcc_is (hv : Holds v a) (htwice : ∀ i < 32, 2 * a i < 2 ^ 32) {n : Nat}
    (hlt : conv 32 a a n < 2 ^ 32) : (squareAcc v n).Is (conv 32 a a n) := by
  rw [← squareTo_eq_conv] at hlt ⊢
  exact squareAccTo_is hv htwice le_rfl hlt

/-- **`fe25519_square` computes the limbs of `fe25519_mul`.** -/
theorem square_holds (hx : Holds x.v a) (htwice : ∀ i < 32, 2 * a i < 2 ^ 32)
    (hfits : MulFits a a) : Holds (square x).v (product a a) :=
  carryPass_holds (carryPass_holds
    (mulFold_is (fun _ hlt => squareAcc_is hx htwice hlt) hfits.1) hfits.2) (passFits_pass hfits.2)

/-- The square of limbs that leave room for it. -/
theorem Rep.squared {B : Nat} {e : Fp} (hx : Rep B x e) (h : B * B ≤ 3400000) :
    Multiplied (FieldOps.square x) (FieldOps.square e) := by
  have hfits : MulFits (limb x.v) (limb x.v) := mulFits_of_le hx.le hx.le h
  have htwice : ∀ i < 32, 2 * limb x.v i < 2 ^ 32 := by
    intro i hi
    have hle := hx.le i hi
    have hB : B ≤ 3400000 := by
      rcases Nat.eq_zero_or_pos B with rfl | hpos
      · exact Nat.zero_le _
      · exact (Nat.le_mul_of_pos_left B hpos).trans h
    omega
  exact multiplied_of_holds hx hx hfits (square_holds hx.holds htwice hfits)

end

/-! ## The normal form after a multiplication -/

/-- **`freeze` after `mul` or `square` is canonical exactly when nothing ripples into bit 255.** -/
theorem canonical_mul_iff (x y : Fe25519) (hx : x.IsReduced) (hy : y.IsReduced) :
    (Canonical (freeze (mul x y)) (value 256 32 (limb x.v) * value 256 32 (limb y.v))
        ↔ NoRipple (limb x.v) (limb y.v)) ∧
      (Canonical (freeze (square x)) (value 256 32 (limb x.v) * value 256 32 (limb x.v))
        ↔ NoRipple (limb x.v) (limb x.v)) := by
  have hmul : MulFits (limb x.v) (limb y.v) := mulFits_of_le hx.le hy.le (by norm_num)
  have hsquare : MulFits (limb x.v) (limb x.v) := mulFits_of_le hx.le hx.le (by norm_num)
  refine ⟨canonical_freeze_iff hmul (mul_holds hx.holds hy.holds hmul),
    canonical_freeze_iff hsquare (square_holds hx.holds (fun i hi => ?_) hsquare)⟩
  have := hx.le i hi
  omega

/-- A product and a square of numbers where nothing ripples. -/
theorem canonical_mul_iff_example :
    let x : Fe25519 := unpack (leBytes 32 (3 ^ 150))
    let y : Fe25519 := unpack (leBytes 32 (3 * 2 ^ 250 + 11))
    Canonical (freeze (mul x y)) (value 256 32 (limb x.v) * value 256 32 (limb y.v)) ∧
      Canonical (freeze (square x)) (value 256 32 (limb x.v) * value 256 32 (limb x.v)) := by
  intro x y
  obtain ⟨hmul, hsquare⟩ := canonical_mul_iff x y (isReduced_of_reduced (reduced_unpack _))
    (isReduced_of_reduced (reduced_unpack _))
  exact ⟨hmul.mpr (by decide +kernel), hsquare.mpr (by decide +kernel)⟩

/-- **A carry into bit 255**: `-1` times `-19` and the square of `-5` end with a limb 31 of 128, and
the freeze leaves `2 ^ 255` and `2 ^ 255 + 6`. -/
theorem mul_ripples :
    let x : Fe25519 := unpack (leBytes 32 (prime - 1))
    let y : Fe25519 := unpack (leBytes 32 (prime - 19))
    let z : Fe25519 := unpack (leBytes 32 (prime - 5))
    x.IsReduced ∧ y.IsReduced ∧ z.IsReduced ∧
      value 256 32 (limb (freeze (mul x y)).v) = 2 ^ 255 ∧
      ¬ Canonical (freeze (mul x y)) (value 256 32 (limb x.v) * value 256 32 (limb y.v)) ∧
      value 256 32 (limb (freeze (square z)).v) = 2 ^ 255 + 6 ∧
      ¬ Canonical (freeze (square z)) (value 256 32 (limb z.v) * value 256 32 (limb z.v)) := by
  intro x y z
  have hprime : prime < 2 ^ 255 := by
    have := prime_add
    omega
  have hmul : value 256 32 (limb (freeze (mul x y)).v) = 2 ^ 255 := by decide +kernel
  have hsquare : value 256 32 (limb (freeze (square z)).v) = 2 ^ 255 + 6 := by decide +kernel
  refine ⟨isReduced_of_reduced (reduced_unpack _), isReduced_of_reduced (reduced_unpack _),
    isReduced_of_reduced (reduced_unpack _), hmul, fun h => ?_, hsquare, fun h => ?_⟩
  · have hlt := h.lt
    rw [hmul] at hlt
    exact absurd hlt hprime.not_gt
  · have hlt := h.lt
    rw [hsquare] at hlt
    omega

end HocusPocus.Fe25519
