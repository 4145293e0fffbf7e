import HocusPocus.Arith.Lucas
import HocusPocus.Field.Ops
import Mathlib.Algebra.BigOperators.Fin
import Mathlib.Algebra.Field.ZMod
import Mathlib.FieldTheory.Finite.Basic
import Mathlib.Tactic.NormNum.Prime

/-!
# Exact arithmetic modulo `2 ^ 255 - 19`

The reading of `FieldOps` in which `fe25519` is the field `Fp`: the lazy operations, the
reductions and the freeze do nothing, and the wire format is the canonical little-endian
encoding. The prime comes with its tower of certificates.
-/

namespace HocusPocus

open Machine Arith FieldOps

/-- The prime of `voleUtils.h`, `2 ^ PRIME_BITS - PRIME_X`. -/
def prime : Nat := 2 ^ 255 - 19

/-! ## The prime -/

theorem prime_2773320623 : Nat.Prime 2773320623 :=
  LucasCert.isPrime
    { base := 5
      factors := [2, 2437, 569003]
      prime := by simp only [List.forall_mem_cons, List.not_mem_nil]; norm_num
      prod_eq := by decide +kernel
      lt := by decide +kernel
      full := by decide +kernel
      proper := by decide +kernel }

theorem prime_72106336199 : Nat.Prime 72106336199 :=
  LucasCert.isPrime
    { base := 7
      factors := [2, 13, 2773320623]
      prime := by
        simp only [List.forall_mem_cons, List.not_mem_nil, prime_2773320623]
        norm_num
      prod_eq := by decide +kernel
      lt := by decide +kernel
      full := by decide +kernel
      proper := by decide +kernel }

theorem prime_1919519569386763 : Nat.Prime 1919519569386763 :=
  LucasCert.isPrime
    { base := 2
      factors := [2, 3, 7, 19, 47, 47, 127, 8574133]
      prime := by simp only [List.forall_mem_cons, List.not_mem_nil]; norm_num
      prod_eq := by decide +kernel
      lt := by decide +kernel
      full := by decide +kernel
      proper := by decide +kernel }

theorem prime_75445702479781427272750846543864801 :
    Nat.Prime 75445702479781427272750846543864801 :=
  LucasCert.isPrime
    { base := 7
      factors := [2, 2, 2, 2, 2, 3, 3, 5, 5, 75707, 72106336199, 1919519569386763]
      prime := by
        simp only [List.forall_mem_cons, List.not_mem_nil, prime_72106336199,
          prime_1919519569386763]
        norm_num
      prod_eq := by decide +kernel
      lt := by decide +kernel
      full := by decide +kernel
      proper := by decide +kernel }

theorem prime_31757755568855353 : Nat.Prime 31757755568855353 :=
  LucasCert.isPrime
    { base := 10
      factors := [2, 2, 2, 3, 31, 107, 223, 4153, 430751]
      prime := by simp only [List.forall_mem_cons, List.not_mem_nil]; norm_num
      prod_eq := by decide +kernel
      lt := by decide +kernel
      full := by decide +kernel
      proper := by decide +kernel }

/-- `D = (p - 1) / 781764`, the exponent of `pow_D`. -/
def powDExp : Nat := 74058212732561358302231226437062788676166966415465897661863160754340907

/-- The exponent of `pow_D` is itself prime. -/
theorem powDExp_prime : Nat.Prime powDExp :=
  LucasCert.isPrime
    { base := 2
      factors := [2, 3, 353, 57467, 132049, 1923133, 31757755568855353,
        75445702479781427272750846543864801]
      prime := by
        simp only [List.forall_mem_cons, List.not_mem_nil, prime_31757755568855353,
          prime_75445702479781427272750846543864801]
        norm_num
      prod_eq := by decide +kernel
      lt := by decide +kernel
      full := by decide +kernel
      proper := by decide +kernel }

/-- **`2 ^ 255 - 19` is prime.** -/
theorem prime_prime : Nat.Prime prime :=
  LucasCert.isPrime
    { base := 2
      factors := [2, 2, 3, 65147, powDExp]
      prime := by
        simp only [List.forall_mem_cons, List.not_mem_nil, powDExp_prime]
        norm_num
      prod_eq := by decide +kernel
      lt := by decide +kernel
      full := by decide +kernel
      proper := by decide +kernel }

instance : Fact (Nat.Prime prime) := ⟨prime_prime⟩

instance : NeZero prime := ⟨prime_prime.ne_zero⟩

/-- The field with `2 ^ 255 - 19` elements. -/
abbrev Fp := ZMod prime

/-- `2 ^ PRIME_BITS` exceeds the prime by `PRIME_X`. -/
theorem prime_add : prime + 19 = 2 ^ 255 := by norm_num [prime]

theorem prime_odd : prime % 2 = 1 := by norm_num [prime]

theorem lt_prime_of_le {n : Nat} (h : n ≤ 2 ^ 254) : n < prime := by
  have := prime_add
  omega

theorem prime_lt : prime < 256 ^ 32 := by
  have := prime_add
  omega

theorem prime_sub_one : prime - 1 = 781764 * powDExp := by decide +kernel

/-- The prime is odd. -/
theorem fp_two_ne_zero : (2 : Fp) ≠ 0 := by
  intro h
  have hcast : ((2 : Nat) : Fp) = 0 := h
  rw [ZMod.natCast_eq_zero_iff] at hcast
  exact absurd (Nat.le_of_dvd (by norm_num) hcast) (by decide +kernel)

/-! ## The exact reading of the interface -/

/-- The number a limb array stands for, as an element of the field. -/
def limbsValue (v : Fin 32 → U32) : Fp := ∑ i, ((v i).toNat : Fp) * 256 ^ i.val

theorem limbsValue_eq (v : Fin 32 → U32) : limbsValue v = (limbsNat v : Fp) := by
  simp only [limbsValue, limbsNat, value, Finset.sum_range, limbNat_val, Nat.cast_sum,
    Nat.cast_mul, Nat.cast_pow, Nat.cast_ofNat]

instance : FieldOps Fp where
  add x y := x + y
  sub x y := x - y
  mul x y := x * y
  ofLimbs := limbsValue
  scaleLimbs c x := (c.toNat : Fp) * x
  neg x := -x
  square x := x * x
  invert x := x⁻¹
  reduceAddSub x := x
  freeze x := x
  isZero x := decide (x = 0)
  pack x := leBytes 32 x.val

namespace Exact

@[simp] theorem add_eq (x y : Fp) : FieldOps.add x y = x + y := rfl

@[simp] theorem sub_eq (x y : Fp) : FieldOps.sub x y = x - y := rfl

@[simp] theorem mul_eq (x y : Fp) : FieldOps.mul x y = x * y := rfl

@[simp] theorem ofLimbs_eq (v : Fin 32 → U32) : (ofLimbs v : Fp) = limbsValue v := rfl

@[simp] theorem scaleLimbs_eq (c : U64) (x : Fp) : scaleLimbs c x = (c.toNat : Fp) * x := rfl

@[simp] theorem neg_eq (x : Fp) : FieldOps.neg x = -x := rfl

@[simp] theorem square_eq (x : Fp) : square x = x * x := rfl

@[simp] theorem invert_eq (x : Fp) : invert x = x⁻¹ := rfl

@[simp] theorem reduceAddSub_eq (x : Fp) : reduceAddSub x = x := rfl

@[simp] theorem freeze_eq (x : Fp) : freeze x = x := rfl

@[simp] theorem isZero_eq (x : Fp) : isZero x = decide (x = 0) := rfl

theorem pack_eq (x : Fp) : pack x = leBytes 32 x.val := rfl

@[simp] theorem div_eq (x y : Fp) : FieldOps.div x y = x / y := (div_eq_mul_inv x y).symm

@[simp] theorem eq_eq (x y : Fp) : FieldOps.eq x y = decide (x = y) := by
  simp [FieldOps.eq, sub_eq_zero]

@[simp] theorem pow5_eq (x : Fp) : pow5 x = x ^ 5 := by
  simp only [pow5]
  ring

@[simp] theorem setZero_eq : (setZero : Fp) = 0 := by
  have h : ((0 : U32)).toNat = 0 := rfl
  simp [setZero, limbsValue, h]

/-- A single limb `x` at position `i` stands for `x * 256 ^ i`. -/
theorem ofLimb_eq {i : Nat} (hi : i < 32) (x : U32) :
    (ofLimb i x : Fp) = (x.toNat : Fp) * 256 ^ i := by
  have h : ((0 : U32)).toNat = 0 := rfl
  rw [ofLimb, ofLimbs_eq, limbsValue, Finset.sum_eq_single ⟨i, hi⟩]
  · rw [if_pos rfl]
  · intro j _ hj
    rw [if_neg (fun e => hj (Fin.ext e)), h, Nat.cast_zero, zero_mul]
  · exact fun h => absurd (Finset.mem_univ _) h

@[simp] theorem setOne_eq : (setOne : Fp) = 1 := by
  have h : (setOne : Fp) = ofLimb 0 1 := by
    simp only [setOne, ofLimb, Fin.ext_iff, Fin.val_zero]
  have h1 : ((1 : U32)).toNat = 1 := rfl
  rw [h, ofLimb_eq (by norm_num), h1]
  simp

/-- The number `unpack` reads: the encoded one, with bit 255 dropped. -/
theorem unpack_eq (b : Bytes32) : (unpack b : Fp) = ((leValue b % 2 ^ 255 : Nat) : Fp) := by
  rw [unpack, ofLimbs_eq, limbsValue_eq, limbsNat_unpackLimbs]

/-- **`unpack` undoes `pack`.** -/
@[simp] theorem unpack_pack (x : Fp) : (unpack (pack x) : Fp) = x := by
  have hlt : x.val < prime := ZMod.val_lt x
  rw [unpack_eq, pack_eq, leValue_leBytes, Nat.mod_eq_of_lt (hlt.trans prime_lt),
    Nat.mod_eq_of_lt (hlt.trans (by decide +kernel)), ZMod.natCast_zmod_val]

end Exact

end HocusPocus
