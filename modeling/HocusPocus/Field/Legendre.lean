import HocusPocus.Field.Pow
import Mathlib.NumberTheory.LegendreSymbol.QuadraticReciprocity

/-!
# Legendre symbols

The functions of `fe25519.cpp` that decide whether an element is a square. They read the answer off
the lowest limb of a frozen product. For a residue of 0, 1 or -1 that limb is the one of the
residue.

* `Multiplied.toNat_zero`: the lowest limb of a frozen product with a small or a large residue.
* `legendre`: `legendre_symbol` and `legendre_symbol_with_s`, for every reduced element.
-/

namespace HocusPocus.Fe25519

open Machine Arith
open FieldOps (setZero setOne ofLimbs unpack)

/-! ## The source -/

/-- A constant `{{…}}`, given by its limbs. -/
def constant (l : List Nat) : Fe25519 := ofLimbs fun i => Word.lit 32 (l.getD i.val 0)

/-- `half_to_the_power_e`. -/
def halfToThePowerE : Fe25519 := constant
  [62, 95, 241, 181, 216, 228, 17, 59, 135, 27, 208, 82, 249, 231, 188, 208, 88, 40, 4, 194, 102,
    255, 178, 212, 244, 32, 62, 176, 127, 219, 124, 84]

/-- `primitive_fourth_root`. -/
def primitiveFourthRoot : Fe25519 := constant
  [61, 95, 241, 181, 216, 228, 17, 59, 135, 27, 208, 82, 249, 231, 188, 208, 88, 40, 4, 194, 102,
    255, 178, 212, 244, 32, 62, 176, 127, 219, 124, 84]

/-- `legendre_symbol`; a `char` is signed. -/
def legendreSymbol (x : Fe25519) : Int8 :=
  let ch := chain x
  let t1 := square ch.z2_250_0
  let t0 := square t1
  let t1 := square t0
  let t0 := mul (mul t1 x) ch.z2
  let t := freeze (square t0)
  if t.v0.toNat = 236 then -1 else Int8.ofNat t.v0.toNat

/-- `legendre |= ((legendre >> 7) & 1) * 255`. -/
def spreadTop (legendre : UInt8) : UInt8 := legendre ||| (legendre >>> 7 &&& 1) * 255

/-- `legendre_symbol_with_s`: the byte it returns, and `s`. -/
def legendreSymbolWithS (x : Fe25519) : UInt8 × Fe25519 :=
  let t1 := square (chain x).z2_250_0
  let t0 := square t1
  let s := mul t0 x
  let sSquared := square s
  let root := mul sSquared x
  let symbol := freeze (mul root root)
  let legendre := spreadTop (UInt8.ofNat symbol.v0.toNat)
  let maybeNewS := mul s halfToThePowerE
  let maybeNewRoot := mul root primitiveFourthRoot
  let s := cmov s maybeNewS (if legendre = 255 then 1 else 0)
  let root := cmov root maybeNewRoot (if legendre = 255 then 1 else 0)
  let root := freeze root
  let maybeNewS := mul s primitiveFourthRoot
  let s := cmov s maybeNewS (if root.v0.toNat ≠ 1 then 1 else 0)
  (legendre, freeze s)

/-! ## The lowest limb of a frozen product -/

variable {B : Nat} {x y r : Fe25519} {a : Fp}

theorem Multiplied.freeze (h : Multiplied x a) : Multiplied (Fe25519.freeze x) a := by
  have hholds : Holds (Fe25519.freeze x).v (frozen (limb x.v)) := freeze_holds h.holds
  refine ⟨h.toRep.freeze, lt_of_le_of_lt ?_ h.lt⟩
  rw [value_congr fun i hi => hholds.limb_eq hi]
  exact value_mono fun i _ => Nat.sub_le _ _

theorem Rep.toNat_zero (h : Rep 255 x a) : x.v0.toNat = value 256 32 (limb x.v) % 256 := by
  have hhead : value 256 32 (limb x.v)
      = limb x.v 0 + 256 * value 256 31 fun i => limb x.v (i + 1) := value_head 256 31 _
  have hle := h.le 0 (by norm_num)
  rw [toNat_v0]
  omega

/-- The lowest limb of a frozen product with a small or a large residue. -/
theorem Multiplied.toNat_zero (h : Multiplied x a) (ha : a.val < 19 ∨ 2 ^ 32 ≤ a.val) :
    (Fe25519.freeze x).v0.toNat = a.val % 256 := by
  rw [h.freeze.toRep.toNat_zero, h.value_freeze ha]

theorem val_neg_one : (-1 : Fp).val = prime - 1 := by
  rw [ZMod.neg_val, if_neg one_ne_zero, ZMod.val_one]

/-- **The three answers** of a test on a frozen product. -/
theorem Multiplied.toNat_zero_of_sign (h : Multiplied x a) :
    (a = 0 → (Fe25519.freeze x).v0.toNat = 0) ∧ (a = 1 → (Fe25519.freeze x).v0.toNat = 1) ∧
      (a = -1 → (Fe25519.freeze x).v0.toNat = 236) := by
  refine ⟨?_, ?_, ?_⟩
  · rintro rfl
    rw [h.toNat_zero (Or.inl (by rw [ZMod.val_zero]; norm_num)), ZMod.val_zero]
  · rintro rfl
    rw [h.toNat_zero (Or.inl (by rw [ZMod.val_one]; norm_num)), ZMod.val_one]
  · rintro rfl
    have hp := prime_add
    have hbig : 2 ^ 32 ≤ (-1 : Fp).val := by
      rw [val_neg_one]
      omega
    rw [h.toNat_zero (Or.inr hbig), val_neg_one]
    omega

/-! ## Euler's criterion -/

theorem two_mul_half : 2 * (2 ^ 253 - 5) = prime / 2 := by
  have := prime_add
  omega

theorem pow_half_cases (ha : a ≠ 0) : a ^ (prime / 2) = 1 ∨ a ^ (prime / 2) = -1 :=
  ZMod.pow_div_two_eq_neg_one_or_one prime ha

theorem pow_half_of_not_isSquare (ha : ¬ IsSquare a) : a ^ (prime / 2) = -1 := by
  have hne : a ≠ 0 := by
    rintro rfl
    exact ha IsSquare.zero
  exact (pow_half_cases hne).resolve_left fun h => ha ((ZMod.euler_criterion prime hne).mpr h)

theorem not_isSquare_two : ¬ IsSquare (2 : Fp) := by
  have hp := prime_add
  rw [ZMod.exists_sq_eq_two_iff (by omega)]
  omega

/-! ## Legendre symbols -/

section

variable (hx : Rep 255 x a)

include hx

theorem legendre_root_rep : Multiplied (square (mul (mul (square (square (square
    (chain x).z2_250_0))) x) (chain x).z2)) (a ^ (prime / 2)) := by
  have hch := chain_rep (hx.mono (by norm_num))
  have h1 : Rep 255 x (a ^ 1) := hx.congr (pow_one a).symm
  have hthree := ((hch.z2_250_0.doubled rfl).doubled rfl).doubled rfl
  have hquarter : Rep 255 _ (a ^ (2 ^ 253 - 5)) := (hthree.added h1 rfl).added hch.z2 (by norm_num)
  have h := hquarter.square_pow (by norm_num)
  rwa [two_mul_half] at h

/-- **`legendre_symbol`** of a byte array. -/
theorem legendreSymbol_eq :
    (a = 0 → legendreSymbol x = 0) ∧ (a ≠ 0 → IsSquare a → legendreSymbol x = 1) ∧
      (¬ IsSquare a → legendreSymbol x = -1) := by
  obtain ⟨hzero, hone, hminus⟩ := (legendre_root_rep hx).toNat_zero_of_sign
  refine ⟨fun ha => ?_, fun ha hsq => ?_, fun hsq => ?_⟩
  · have hlow := hzero (by rw [ha, zero_pow half_ne_zero])
    unfold legendreSymbol
    simp only [hlow]
    rfl
  · have hlow := hone ((ZMod.euler_criterion prime ha).mp hsq)
    unfold legendreSymbol
    simp only [hlow]
    rfl
  · have hlow := hminus (pow_half_of_not_isSquare hsq)
    unfold legendreSymbol
    simp only [hlow, if_true]

end

/-! ### The witness `s` -/

theorem constant_rep {l : List Nat} (hl : ∀ i < 32, l.getD i 0 ≤ 255) :
    Rep 255 (constant l) (constant l).residue :=
  (rep_ofLimbs (a := fun i => l.getD i 0)
    (fun i => Word.is_lit ((hl i i.isLt).trans_lt (by norm_num))) hl).atMost

theorem rep_halfToThePowerE : Rep 255 halfToThePowerE halfToThePowerE.residue :=
  constant_rep (by decide)

theorem rep_primitiveFourthRoot : Rep 255 primitiveFourthRoot primitiveFourthRoot.residue :=
  constant_rep (by decide)

/-- `primitive_fourth_root` is a root of -1. -/
theorem fourthRoot_mul_self :
    primitiveFourthRoot.residue * primitiveFourthRoot.residue = -1 := by
  have hval : value 256 32 (limb primitiveFourthRoot.v)
      * value 256 32 (limb primitiveFourthRoot.v) % prime = prime - 1 := by decide +kernel
  rw [residue, ← Nat.cast_mul, ← ZMod.natCast_mod, hval, Nat.cast_sub prime_prime.one_le,
    ZMod.natCast_self, Nat.cast_one, zero_sub]

/-- `half_to_the_power_e` is larger by one. -/
theorem half_eq : halfToThePowerE.residue = primitiveFourthRoot.residue + 1 := by
  have hval : value 256 32 (limb halfToThePowerE.v)
      = value 256 32 (limb primitiveFourthRoot.v) + 1 := by decide +kernel
  rw [residue, residue, hval, Nat.cast_add, Nat.cast_one]

/-- The second conditional move multiplies the square of `s` by a sign. -/
theorem rotate_rep {s root : Fe25519} {t w : Fp} (hs : Rep 255 s t) (hroot : Multiplied root w)
    (hw : w * w = 1) :
    ∃ u, Rep 255 (freeze (cmov s (mul s primitiveFourthRoot)
      (if (freeze root).v0.toNat ≠ 1 then 1 else 0))) u ∧ u * u = w * (t * t) := by
  have hnew : Rep 255 (mul s primitiveFourthRoot) (t * primitiveFourthRoot.residue) :=
    (hs.times rep_primitiveFourthRoot).toRep
  refine ⟨_, (cmov_rep hs hnew _).freeze, ?_⟩
  obtain ⟨-, hone, hminus⟩ := hroot.toNat_zero_of_sign
  rcases mul_self_eq_one_iff.mp hw with h1 | h1
  · rw [Exact.freeze_eq, if_neg (fun h => h (hone h1)), h1, one_mul]
  · rw [Exact.freeze_eq, if_pos (by rw [hminus h1]; norm_num), h1, mul_mul_mul_comm,
      fourthRoot_mul_self, mul_comm]

/-- **`legendre_symbol_with_s`** of a byte array: 255 stands for -1. -/
theorem legendreSymbolWithS_eq (hx : Rep 255 x a) :
    (a = 0 → (legendreSymbolWithS x).1 = 0) ∧
      (a ≠ 0 → IsSquare a → (legendreSymbolWithS x).1 = 1 ∧
        a * residue (legendreSymbolWithS x).2 ^ 2 = 1) ∧
      (¬ IsSquare a → (legendreSymbolWithS x).1 = 255 ∧
        a * residue (legendreSymbolWithS x).2 ^ 2 = 2) := by
  have hch := chain_rep (hx.mono (by norm_num))
  have h1 : Rep 255 x (a ^ 1) := hx.congr (pow_one a).symm
  unfold legendreSymbolWithS
  extract_lets t1 t0 s sSquared root symbol legendre maybe_s maybe_root s' root' root''
    maybe_s' s''
  have hs : Rep 255 s (a ^ (2 ^ 252 - 3)) :=
    ((hch.z2_250_0.doubled rfl).doubled rfl).added h1 (by norm_num)
  generalize hσ : a ^ (2 ^ 252 - 3) = σ at hs
  have hroot : Multiplied root (σ * σ * a) := (hs.squared (by norm_num)).toRep.times hx
  have hsign : σ * σ * a * (σ * σ * a) = a ^ (prime / 2) := by
    rw [← two_mul_half, ← hσ]
    ring
  have hsymbol := (hroot.toRep.times hroot.toRep).toNat_zero_of_sign
  rw [Exact.mul_eq, hsign] at hsymbol
  obtain ⟨hzero, hone, hminus⟩ := hsymbol
  have hs' : Rep 255 s' (if legendre = 255 then σ * halfToThePowerE.residue else σ) :=
    cmov_rep hs (hs.times rep_halfToThePowerE).toRep _
  have hroot' : Multiplied root' (if legendre = 255 then
      σ * σ * a * primitiveFourthRoot.residue else σ * σ * a) :=
    hroot.cmov (hroot.toRep.times rep_primitiveFourthRoot) _
  refine ⟨fun ha => ?_, fun ha hsq => ?_, fun hsq => ?_⟩
  · have hlow := hzero (by rw [ha, zero_pow half_ne_zero])
    exact congrArg (fun n => spreadTop (UInt8.ofNat n)) hlow
  · have hhalf := (ZMod.euler_criterion prime ha).mp hsq
    have hlegendre : legendre = 1 := congrArg (fun n => spreadTop (UInt8.ofNat n)) (hone hhalf)
    rw [hlegendre, if_neg (by decide)] at hs' hroot'
    obtain ⟨u, hu, hsquare⟩ := rotate_rep hs' hroot' (hsign.trans hhalf)
    refine ⟨hlegendre, ?_⟩
    rw [hu.residue_eq, sq, hsquare]
    linear_combination hsign.trans hhalf
  · have hhalf := pow_half_of_not_isSquare hsq
    have hlegendre : legendre = 255 := congrArg (fun n => spreadTop (UInt8.ofNat n)) (hminus hhalf)
    rw [hlegendre, if_pos rfl] at hs' hroot'
    have hfour := fourthRoot_mul_self
    rw [half_eq] at hs'
    generalize primitiveFourthRoot.residue = i at *
    have hw : σ * σ * a * i * (σ * σ * a * i) = 1 := by
      linear_combination i * i * hsign.trans hhalf - hfour
    obtain ⟨u, hu, hsquare⟩ := rotate_rep hs' hroot' hw
    refine ⟨hlegendre, ?_⟩
    rw [hu.residue_eq, sq, hsquare]
    linear_combination (2 * i * i + i * (i * i + 1)) * hsign.trans hhalf - (2 + i) * hfour

/-- **The Legendre symbol and its witness**, for every reduced element. -/
theorem legendre (x : Fe25519) (hx : x.IsReduced) :
    (x.residue = 0 → legendreSymbol x = 0) ∧
      (x.residue ≠ 0 → IsSquare x.residue → legendreSymbol x = 1 ∧
        x.residue * residue (legendreSymbolWithS x).2 ^ 2 = 1) ∧
      (¬ IsSquare x.residue → legendreSymbol x = -1 ∧
        x.residue * residue (legendreSymbolWithS x).2 ^ 2 = 2) ∧
      (x.residue = 0 → x.residue * residue (legendreSymbolWithS x).2 ^ 2 = 0) ∧
      (legendreSymbolWithS x).1.toInt8 = legendreSymbol x ∧
      (legendreSymbolWithS x).1 ∈ ([0, 1, 255] : List UInt8) := by
  obtain ⟨hzero, hone, hminus⟩ := legendreSymbol_eq hx.toRep
  obtain ⟨hzero', hone', hminus'⟩ := legendreSymbolWithS_eq hx.toRep
  refine ⟨hzero, fun ha hsq => ⟨hone ha hsq, (hone' ha hsq).2⟩,
    fun hsq => ⟨hminus hsq, (hminus' hsq).2⟩, fun ha => by rw [ha, zero_mul], ?_⟩
  by_cases ha : x.residue = 0
  · rw [hzero ha, hzero' ha]
    decide
  · by_cases hsq : IsSquare x.residue
    · rw [hone ha hsq, (hone' ha hsq).1]
      decide
    · rw [hminus hsq, (hminus' hsq).1]
      decide

/-- The square 4 of 2. -/
theorem legendre_example :
    let x : Fe25519 := unpack (leBytes 32 4)
    legendreSymbol x = 1 ∧ x.residue * residue (legendreSymbolWithS x).2 ^ 2 = 1 := by
  intro x
  have hx : x.IsReduced := isReduced_of_reduced (reduced_unpack _)
  have hfour : x.residue = 2 * 2 := by
    rw [(reduced_unpack (leBytes 32 4)).residue_eq, Exact.unpack_eq, leValue_leBytes]
    norm_num
  have hne : x.residue ≠ 0 := by
    rw [hfour]
    exact mul_ne_zero fp_two_ne_zero fp_two_ne_zero
  exact (legendre x hx).2.1 hne ⟨2, hfour⟩

end HocusPocus.Fe25519
