import HocusPocus.Field.Pow
import HocusPocus.Field.Wire
import HocusPocus.SafeTrunc.Roots
import HocusPocus.SymbolLimbs

/-!
# Symbols separate the power residue classes

The power `D` of an element is a root of unity or zero, and truncation keeps these apart. On limbs
the last product of `pow_D` can carry into bit 255, where `fe25519_freeze` does not reduce it, and
`fe25519_pack` writes some numbers next to the prime wrongly; roots of unity are too far from zero
for either to happen.

* `presidueEps_limbs`: limbs have the symbol of the element they stand for.
* `presidueEps_separates`: two symbols are equal exactly when the powers are.
-/

namespace HocusPocus.SafeTrunc

open Machine Arith FastResidue Fe25519

variable {x y : Fe25519} {a b : Fp}

theorem pow_powDExp_cases (a : Fp) : a ^ powDExp = 0 ∧ a = 0 ∨ (a ^ powDExp) ^ eps = 1 := by
  by_cases ha : a = 0
  · rw [ha, zero_pow (by decide)]
    exact Or.inl ⟨rfl, rfl⟩
  · rw [← pow_mul, mul_comm, pow_mul]
    exact Or.inr (pow_eps_pow_D ha)

/-- The symbols of two elements of the field. -/
theorem presidueEps_eq_iff (a b : Fp) :
    presidueEps a = presidueEps b ↔ a ^ powDExp = b ^ powDExp := by
  rw [presidueEps_eq, presidueEps_eq]
  refine truncate_injOn.eq_iff ?_ ?_
  · exact (pow_powDExp_cases a).imp_left And.left
  · exact (pow_powDExp_cases b).imp_left And.left

theorem presidueEps_eq_zero_iff (a : Fp) : presidueEps a = 0 ↔ a = 0 := by
  have hzero : presidueEps (0 : Fp) = 0 := by
    rw [presidueEps_eq, zero_pow (by decide)]
    rfl
  rw [← hzero, presidueEps_eq_iff, zero_pow (by decide), pow_eq_zero_iff (by decide)]

/-! ## Symbols on limbs -/

/-- The power `D` of an element is zero, `1`, `-1`, or far from zero on both sides. -/
theorem val_pow_powDExp (a : Fp) :
    (a ^ powDExp).val ≤ 1 ∨ (a ^ powDExp).val + 1 = prime ∨
      2 ^ 35 ≤ (a ^ powDExp).val ∧ (a ^ powDExp).val + 2 ^ 35 ≤ prime := by
  rcases pow_powDExp_cases a with ⟨hzero, -⟩ | hroot
  · rw [hzero, ZMod.val_zero]
    exact Or.inl (Nat.zero_le 1)
  · exact (root_large hroot).imp_left Eq.le

/-- The power on limbs is below `2 ^ 255`. -/
theorem powD_reduced (hx : Rep 510 x a) : Reduced (powD x) (a ^ powDExp) := by
  have hmul := powD_multiplied hx
  rcases hmul.value_cases with hlow | ⟨h19, hsmall, -⟩
  · exact hmul.reduced_of_lt hlow
  · -- a residue that a carry hides is too small for a root of unity
    have hprime := prime_add
    have hcases := val_pow_powDExp a
    omega

/-- `fe25519_pack` compares the bytes of a frozen power rightly. -/
theorem not_missedByte (hx : Rep 510 x a) : ¬ MissedByte (FieldOps.freeze (powD x)) := by
  intro hmissed
  have hreduced := powD_reduced hx
  have hvalue := hmissed.value_eq
  rw [hreduced.value_freeze] at hvalue
  have h0 := hreduced.freeze.le 0 (by norm_num)
  have h1 := hreduced.freeze.le 1 (by norm_num)
  obtain ⟨-, -, hlow, hne⟩ := hmissed
  -- such a number is next to the prime, and `-1` has 236 in limb 0
  have hprime := prime_add
  have hcases := val_pow_powDExp a
  omega

/-- **Limbs have the symbol of the element they stand for.** -/
theorem presidueEps_limbs (hx : Rep 510 x a) : presidueEps x = presidueEps a := by
  have hreduced := powD_reduced hx
  have hpack : leValue (FieldOps.pack (FieldOps.freeze (powD x))) = (a ^ powDExp).val := by
    have hwire : leValue (Fe25519.pack (FieldOps.freeze (powD x))) = _ :=
      leValue_pack_of_not_missed hreduced.freeze.byteLimbs (not_missedByte hx)
    rw [hreduced.value_freeze, Nat.mod_eq_of_lt (ZMod.val_lt _)] at hwire
    exact hwire
  have hbytes : FieldOps.pack (FieldOps.freeze (powD x))
      = FieldOps.pack (FieldOps.freeze (powD a)) := by
    refine leValue_injective ?_
    rw [hpack, Exact.freeze_eq, Exact.pack_eq, leValue_leBytes, powD_eq,
      Nat.mod_eq_of_lt ((ZMod.val_lt _).trans prime_lt)]
  exact congrArg (fun packed : Bytes32 => assemble fun i => packed.toList.getD i 0) hbytes

theorem powDExp_eq : (prime - 1) / 781764 = powDExp := by decide +kernel

/-- **Symbols separate the power residue classes**, on the limbs of a sum of two reduced elements
and in the field: two symbols are equal exactly when the powers `(p - 1) / 781764` are, and a symbol
is zero exactly for zero. -/
theorem presidueEps_separates (hx : Rep 510 x a) (hy : Rep 510 y b) :
    (presidueEps x = presidueEps y ↔
        a ^ ((prime - 1) / 781764) = b ^ ((prime - 1) / 781764)) ∧
      (presidueEps x = 0 ↔ a = 0) ∧ presidueEps x = presidueEps a := by
  rw [powDExp_eq, presidueEps_limbs hx, presidueEps_limbs hy]
  exact ⟨presidueEps_eq_iff a b, presidueEps_eq_zero_iff a, rfl⟩

/-- The symbols of 1 and 2. -/
theorem presidueEps_separates_example :
    let one : Fe25519 := FieldOps.unpack (leBytes 32 1)
    let two : Fe25519 := FieldOps.unpack (leBytes 32 2)
    presidueEps one ≠ presidueEps two ∧ presidueEps one ≠ 0 := by
  intro one two
  have hrep : ∀ n < 2 ^ 255, Rep 510 (FieldOps.unpack (leBytes 32 n) : Fe25519) (n : Fp) := by
    intro n hn
    have hvalue : leValue (leBytes 32 n) = n := by
      rw [leValue_leBytes, Nat.mod_eq_of_lt (hn.trans (by norm_num))]
    have hreduced := reduced_unpack_of_lt (b := leBytes 32 n) (by rwa [hvalue])
    rw [hvalue] at hreduced
    exact hreduced.toRep.mono (by norm_num)
  obtain ⟨heq, hzero, -⟩ := presidueEps_separates (hrep 1 (by norm_num)) (hrep 2 (by norm_num))
  rw [Nat.cast_one] at heq hzero
  refine ⟨fun h => ?_, fun h => one_ne_zero (hzero.mp h)⟩
  have hpow := heq.mp h
  rw [powDExp_eq, one_pow, Nat.cast_ofNat, ← cast_omega] at hpow
  exact omega_isPrimitiveRoot.ne_one (by decide) hpow.symm

end HocusPocus.SafeTrunc
