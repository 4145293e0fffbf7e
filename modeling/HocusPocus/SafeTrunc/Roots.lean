import HocusPocus.FastResidue
import HocusPocus.SafeTrunc.Keys
import Mathlib.RingTheory.RootsOfUnity.PrimitiveRoots

/-!
# Truncation of the roots of unity

A root of unity is a power of `omega` from the half of the powers, or its negative. The key of the
root is the power's, and it depends on the bytes that truncation keeps alone: two roots with the
same low bytes are equal or opposite, and opposite elements differ in parity.

* `truncate_injOn`: no two of the roots of unity and zero have the same low bytes.
* `root_large`: all but `1` and `-1` are far from zero.
-/

namespace HocusPocus.SafeTrunc

open Arith FastResidue

variable {z w : Fp}

/-! ## The powers -/

/-- The prime factors of `epsilon`. -/
def primeFactors : List Nat := [2, 3, 65147]

theorem cast_omega : (omega : Fp) = 2 ^ powDExp := by
  rw [omega, powMod_eq _ _ _ _ (by decide +kernel), ZMod.natCast_mod, Nat.cast_pow, Nat.cast_ofNat]

theorem val_omega_pow (i : Nat) : ((omega : Fp) ^ i).val = omega ^ i % prime := by
  rw [← Nat.cast_pow, ZMod.val_natCast]

theorem omega_pow_eps : (omega : Fp) ^ eps = 1 := by
  rw [cast_omega, pow_right_comm]
  exact pow_eps_pow_D fp_two_ne_zero

/-- The check of `find_primitive_root`. -/
theorem powMod_omega_ne_one : ∀ q ∈ primeFactors, powMod prime 20 omega (eps / q) ≠ 1 := by
  decide +kernel

theorem omega_pow_ne_one {q : Nat} (hq : q ∈ primeFactors) : (omega : Fp) ^ (eps / q) ≠ 1 := by
  intro h
  refine powMod_omega_ne_one q hq ?_
  have hexp : eps / q < 2 ^ 20 := (Nat.div_le_self _ _).trans_lt (by decide)
  rw [powMod_eq _ _ _ _ hexp, ← val_omega_pow, h, ZMod.val_one]

/-- **`find_primitive_root` accepts `omega`, and it is right to.** -/
theorem omega_isPrimitiveRoot : IsPrimitiveRoot (omega : Fp) eps := by
  rw [IsPrimitiveRoot.iff_orderOf]
  refine orderOf_eq_of_pow_and_pow_div_prime (by decide) omega_pow_eps fun q hq hdvd => ?_
  have hprimes : ∀ r ∈ primeFactors, Nat.Prime r := by
    simp only [primeFactors, List.forall_mem_cons, List.not_mem_nil, false_implies, implies_true,
      and_true]
    norm_num
  have hfactor : eps = 2 * primeFactors.prod := by decide
  have hmem : q ∈ primeFactors := by
    rw [hfactor, hq.dvd_mul] at hdvd
    rcases hdvd with hdvd | hdvd
    · rw [(Nat.prime_dvd_prime_iff_eq hq Nat.prime_two).mp hdvd]
      exact List.mem_cons_self
    · exact mem_list_primes_of_dvd_prod hq.prime (fun r hr => (hprimes r hr).prime) hdvd
  exact omega_pow_ne_one hmem

theorem omega_pow_half : (omega : Fp) ^ 390882 = -1 := by
  have hsq : (omega : Fp) ^ 390882 * (omega : Fp) ^ 390882 = 1 := by
    rw [← pow_add]
    exact omega_pow_eps
  have hne : (omega : Fp) ^ 390882 ≠ 1 := omega_pow_ne_one (q := 2) (by decide)
  exact (mul_self_eq_one_iff.mp hsq).resolve_left hne

/-- **Each root of unity is one of half of the powers, or its negative.** -/
theorem exists_power (hz : z ^ eps = 1) :
    ∃ i < 390882, z = (omega : Fp) ^ i ∨ z = -(omega : Fp) ^ i := by
  have : NeZero eps := ⟨by decide⟩
  obtain ⟨i, hi, rfl⟩ := omega_isPrimitiveRoot.eq_pow_of_pow_eq_one hz
  rcases Nat.lt_or_ge i 390882 with hlow | hhigh
  · exact ⟨i, hlow, Or.inl rfl⟩
  · have hi : i < 781764 := hi
    refine ⟨i - 390882, by omega, Or.inr ?_⟩
    rw [← neg_one_mul, ← omega_pow_half, ← pow_add, Nat.add_sub_cancel' hhigh]

/-! ## The keys of the roots -/

/-- A residue and its negative have the same product with what the prime leaves of them. -/
theorem neg_mul_sub (z : Fp) : (-z).val * (prime - (-z).val) = z.val * (prime - z.val) := by
  have hlt := ZMod.val_lt z
  rw [ZMod.neg_val]
  split_ifs with h
  · rw [h, ZMod.val_zero, Nat.zero_mul]
  · rw [Nat.sub_sub_self hlt.le, Nat.mul_comm]

/-- The key depends on the low bytes alone. -/
theorem key_congr {y y' : Nat} (hy : y ≤ prime) (hy' : y' ≤ prime) (h : y ≡ y' [MOD 2 ^ 40]) :
    key y = key y' := by
  have hsum : y + (prime - y) ≡ y' + (prime - y') [MOD 2 ^ 40] := by
    rw [Nat.add_sub_cancel' hy, Nat.add_sub_cancel' hy']
  exact h.mul (h.add_left_cancel hsum)

/-- A power and its negative have one key. -/
theorem key_of_power {i : Nat} (hz : z = (omega : Fp) ^ i ∨ z = -(omega : Fp) ^ i) :
    z.val * (prime - z.val) = (omega ^ i % prime) * (prime - omega ^ i % prime) := by
  rcases hz with rfl | rfl
  · rw [val_omega_pow]
  · rw [neg_mul_sub, val_omega_pow]

/-- The key of a root. -/
theorem exists_powerKey (hz : z ^ eps = 1) :
    ∃ i < 390882, (z = (omega : Fp) ^ i ∨ z = -(omega : Fp) ^ i) ∧ key z.val = powerKey i := by
  obtain ⟨i, hi, hcases⟩ := exists_power hz
  exact ⟨i, hi, hcases, congrArg (· % 1099511627776) (key_of_power hcases)⟩

/-- No root of unity has the low bytes of zero. -/
theorem val_mod_ne_zero (hz : z ^ eps = 1) : z.val % 2 ^ 40 ≠ 0 := by
  intro h
  obtain ⟨i, hi, -, hkey⟩ := exists_powerKey hz
  have hzero : key z.val = key 0 := key_congr (ZMod.val_lt z).le (Nat.zero_le _) h
  refine powerKey_ne_zero hi (hkey.symm.trans (hzero.trans ?_))
  exact (congrArg (· % 1099511627776) (Nat.zero_mul _)).trans (Nat.zero_mod _)

/-- Opposite elements differ in parity. -/
theorem eq_zero_of_neg (h : z.val % 2 ^ 40 = (-z).val % 2 ^ 40) : z = 0 := by
  by_contra hz
  have hlt := ZMod.val_lt z
  have hodd := prime_odd
  rw [ZMod.neg_val, if_neg hz] at h
  omega

/-- **Equal roots of unity are those with equal low bytes.** -/
theorem eq_of_val_mod (hz : z ^ eps = 1) (hw : w ^ eps = 1) (h : z.val % 2 ^ 40 = w.val % 2 ^ 40) :
    z = w := by
  obtain ⟨i, hi, hzi, hzkey⟩ := exists_powerKey hz
  obtain ⟨j, hj, hwj, hwkey⟩ := exists_powerKey hw
  have hkeys : powerKey i = powerKey j := by
    rw [← hzkey, ← hwkey]
    exact key_congr (ZMod.val_lt z).le (ZMod.val_lt w).le h
  obtain rfl := powerKey_injOn hi hj hkeys
  have hopposite : ∀ {a b : Fp}, a = -b → a.val % 2 ^ 40 = b.val % 2 ^ 40 → a = b := by
    rintro a b rfl h
    rw [eq_zero_of_neg h.symm, neg_zero]
  rcases hzi with rfl | rfl
  · rcases hwj with rfl | rfl
    · rfl
    · exact (hopposite rfl h.symm).symm
  · rcases hwj with rfl | rfl
    · exact hopposite rfl h
    · rfl

/-- **`test_truncation_injectivity` for five bytes**: truncation loses nothing on the roots of unity
and zero. -/
theorem truncate_injOn : Set.InjOn truncate {z : Fp | z = 0 ∨ z ^ eps = 1} := by
  intro z hz w hw h
  have hval : z.val % 2 ^ 40 = w.val % 2 ^ 40 := by rw [← toNat_truncate, h, toNat_truncate]
  rcases hz with rfl | hz
  · rcases hw with rfl | hw
    · rfl
    · rw [ZMod.val_zero, Nat.zero_mod] at hval
      exact absurd hval.symm (val_mod_ne_zero hw)
  · rcases hw with rfl | hw
    · rw [ZMod.val_zero, Nat.zero_mod] at hval
      exact absurd hval (val_mod_ne_zero hz)
    · exact eq_of_val_mod hz hw hval

/-! ## Roots far from zero -/

/-- **A root of unity other than `1` and `-1` is far from zero on both sides.** -/
theorem root_large (hz : z ^ eps = 1) :
    z.val = 1 ∨ z.val + 1 = prime ∨ 2 ^ 35 ≤ z.val ∧ z.val + 2 ^ 35 ≤ prime := by
  have hprime := prime_add
  obtain ⟨i, hi, hcases⟩ := exists_power hz
  rcases Nat.eq_zero_or_pos i with rfl | hpos
  · rw [pow_zero] at hcases
    rcases hcases with rfl | rfl
    · exact Or.inl (ZMod.val_one _)
    · rw [ZMod.neg_val, if_neg one_ne_zero, ZMod.val_one]
      exact Or.inr (Or.inl (by omega))
  · have hlarge := large_power hpos hi
    rw [← key_of_power hcases] at hlarge
    have hlt := ZMod.val_lt z
    have hbound : ∀ {a b : Nat}, b ≤ prime → 2 ^ 255 * 2 ^ 35 ≤ a * b → 2 ^ 35 ≤ a := by
      intro a b hb hab
      by_contra ha
      have hmul : a * b ≤ 2 ^ 35 * b := Nat.mul_le_mul_right b (by omega)
      omega
    have hleft := hbound (Nat.sub_le _ _) hlarge
    rw [Nat.mul_comm z.val] at hlarge
    have hright := hbound hlt.le hlarge
    exact Or.inr (Or.inr ⟨hleft, by omega⟩)

end HocusPocus.SafeTrunc
