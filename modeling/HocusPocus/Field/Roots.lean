import HocusPocus.Field.Legendre

/-!
# Square roots

`fe25519_sqrt_vartime` (`fe25519.cpp`, lines 276 to 307) takes the sign of a root by the lowest bit
of a frozen product. A product that carries into bit 255 is left as it is by the freeze, and is the
residue plus the prime, of the other parity. Only a root below 1539 can be hidden so, and for a root
`n` the factors of the last product are known: with `n` a fourth power they are the powers -27 and
28 of `n`, from the last window of `fe25519_pow`, and otherwise `2 * n ^ 2` and the inverse of
`2 * n`. Whether it carries is computed from `n` alone.

* `rootCandidate_rep`: the candidate is a root of every square.
* `sqrtOk_iff_noRipple`: the root has the parity asked for exactly when the last product does not
  carry into bit 255.
* `fourthPower_checked`, `double_checked`, `rippledRoots_checked`: the roots for which it does, 53
  numbers up to 675, computed by the kernel.
* `sqrtVartime_iff`: `fe25519_sqrt_vartime` does what it is meant to exactly when `x` is not the
  square of one of them.
-/

namespace HocusPocus.Fe25519

open Machine Arith Finset
open FieldOps (setZero setOne ofLimbs unpack)

/-! ## The source -/

/-- `c * x->v[i]` for every limb. -/
def scale (c : U32) (x : Fe25519) : Fe25519 := ⟨Vector.ofFn fun i : Fin 32 => c * x.v.get i⟩

/-- The candidate `r` of `fe25519_sqrt_vartime`, before it is frozen. -/
def rootCandidate (x : Fe25519) : Fe25519 :=
  if isOne (freeze (pow x (exponentBytes 0xfb 0x1f))) then pow x (exponentBytes 0xfe 0x0f)
  else mul (scale 2 x) (pow (scale 4 x) (exponentBytes 0xfd 0x0f))

/-- `fe25519_sqrt_vartime`: the code it returns, and what it leaves in `r`. -/
def sqrtVartime (r x : Fe25519) (parity : UInt8) : Int × Fe25519 :=
  if isSquare x then
    let r := freeze (rootCandidate x)
    if (r.v0.low 1).toNat ≠ (parity &&& 1).toNat then (0, sub setZero r) else (0, r)
  else (-1, r)

/-! ## The candidate -/

variable {B : Nat} {x y r : Fe25519} {a : Fp}

theorem scale_holds {n : Nat} {w : U32} (hx : Rep B x a) (hw : w.Is n) (h : n * B < 2 ^ 32) :
    Holds (scale w x).v fun i => n * limb x.v i := by
  intro i hi
  have hle : n * limb x.v i ≤ n * B := Nat.mul_le_mul_left n (hx.le i hi)
  have hget : (scale w x).v[i] = w * x.v[i] := Vector.getElem_ofFn hi
  rw [hget]
  exact hw.mul (hx.holds i hi) (by omega)

theorem scale_rep {n : Nat} {w : U32} (hx : Rep B x a) (hw : w.Is n) (h : n * B < 2 ^ 32) :
    Rep (n * B) (scale w x) ((n : Fp) * a) := by
  refine rep_of_holds (scale_holds hx hw h) (fun i hi => Nat.mul_le_mul_left n (hx.le i hi)) ?_
  rw [value_mul_left, Nat.cast_mul]
  exact congrArg ((n : Fp) * ·) hx.residue_eq

/-- The root of a square by its quartic character. -/
theorem root_of_quarter_one (hquarter : a ^ (2 ^ 253 - 5) = 1) :
    a ^ (2 ^ 252 - 2) * a ^ (2 ^ 252 - 2) = a := by
  have hexp : a ^ (2 ^ 252 - 2) * a ^ (2 ^ 252 - 2) = a ^ (2 ^ 253 - 5) * a := by ring
  rw [hexp, hquarter, one_mul]

theorem root_of_quarter_ne (hsq : IsSquare a) (hquarter : a ^ (2 ^ 253 - 5) ≠ 1) :
    2 * a * (4 * a) ^ (2 ^ 252 - 3) * (2 * a * (4 * a) ^ (2 ^ 252 - 3)) = a := by
  by_cases ha : a = 0
  · rw [ha, mul_zero, zero_mul, zero_mul]
  · have hhalf := (ZMod.euler_criterion prime ha).mp hsq
    have htwo : (2 : Fp) ^ (prime / 2) = -1 := pow_half_of_not_isSquare not_isSquare_two
    have hminus : a ^ (2 ^ 253 - 5) = -1 := by
      refine (mul_self_eq_one_iff.mp ?_).resolve_left hquarter
      rw [← hhalf, ← two_mul_half]
      ring
    have hfour : (4 : Fp) ^ (2 ^ 253 - 5) = -1 := by
      rw [← htwo, ← two_mul_half, pow_mul]
      norm_num
    have hpow : ∀ b : Fp, b * (b ^ (2 ^ 252 - 3) * b ^ (2 ^ 252 - 3)) = b ^ (2 ^ 253 - 5) := by
      intro b
      ring
    calc 2 * a * (4 * a) ^ (2 ^ 252 - 3) * (2 * a * (4 * a) ^ (2 ^ 252 - 3))
        = a * (4 * a * ((4 * a) ^ (2 ^ 252 - 3) * (4 * a) ^ (2 ^ 252 - 3))) := by
          generalize (4 * a) ^ (2 ^ 252 - 3) = z
          ring
      _ = a := by
          rw [hpow, mul_pow, hfour, hminus, neg_mul_neg, mul_one, mul_one]

/-- The factors of the last product before the parity is read. -/
def rootFactors (x : Fe25519) : Fe25519 × Fe25519 :=
  if isOne (freeze (pow x (exponentBytes 0xfb 0x1f))) then powFactors x (exponentBytes 0xfe 0x0f)
  else (scale 2 x, pow (scale 4 x) (exponentBytes 0xfd 0x0f))

theorem rootCandidate_eq (x : Fe25519) :
    rootCandidate x = mul (rootFactors x).1 (rootFactors x).2 := by
  unfold rootCandidate rootFactors
  split_ifs
  · exact pow_eq_mul x _
  · rfl

section

variable (hx : Rep 255 x a)

include hx

theorem quarter_rep : Multiplied (pow x (exponentBytes 0xfb 0x1f)) (a ^ (2 ^ 253 - 5)) := by
  have hexp : leValue (exponentBytes 0xfb 0x1f) = 2 ^ 253 - 5 := leValue_exponentBytes 0xfb 0x1f
  have h := pow_rep (hx.mono (by norm_num)) (exponentBytes 0xfb 0x1f)
  rwa [hexp] at h

theorem scaled_rep : Rep 510 (scale 2 x) (2 * a) ∧
    Multiplied (pow (scale 4 x) (exponentBytes 0xfd 0x0f)) ((4 * a) ^ (2 ^ 252 - 3)) := by
  have hexp : leValue (exponentBytes 0xfd 0x0f) = 2 ^ 252 - 3 := leValue_exponentBytes 0xfd 0x0f
  have hfour := scale_rep hx (Word.is_ofNat 4 (by norm_num)) (by norm_num)
  have h := pow_rep hfour (exponentBytes 0xfd 0x0f)
  rw [hexp] at h
  exact ⟨scale_rep hx (Word.is_ofNat 2 (by norm_num)) (by norm_num), h⟩

theorem rootCandidate_of_quarter_one (hquarter : a ^ (2 ^ 253 - 5) = 1) :
    Multiplied (rootCandidate x) (a ^ (2 ^ 252 - 2)) := by
  have hexp : leValue (exponentBytes 0xfe 0x0f) = 2 ^ 252 - 2 := leValue_exponentBytes 0xfe 0x0f
  have hpow := pow_rep (hx.mono (by norm_num)) (exponentBytes 0xfe 0x0f)
  rw [hexp] at hpow
  unfold rootCandidate
  rwa [if_pos ((isOne_freeze_iff (quarter_rep hx)).mpr hquarter)]

theorem rootFactors_of_quarter_ne (hquarter : a ^ (2 ^ 253 - 5) ≠ 1) :
    rootFactors x = (scale 2 x, pow (scale 4 x) (exponentBytes 0xfd 0x0f)) :=
  if_neg fun h => hquarter ((isOne_freeze_iff (quarter_rep hx)).mp h)

theorem rootCandidate_of_quarter_ne (hquarter : a ^ (2 ^ 253 - 5) ≠ 1) :
    Multiplied (rootCandidate x) (2 * a * (4 * a) ^ (2 ^ 252 - 3)) := by
  obtain ⟨htwo, hpow⟩ := scaled_rep hx
  rw [rootCandidate_eq, rootFactors_of_quarter_ne hx hquarter]
  exact htwo.multiplied hpow.toRep (by norm_num)

/-- **The candidate is a root** of a square. -/
theorem rootCandidate_rep (hsq : IsSquare a) :
    ∃ b, Multiplied (rootCandidate x) b ∧ b * b = a := by
  by_cases hquarter : a ^ (2 ^ 253 - 5) = 1
  · exact ⟨_, rootCandidate_of_quarter_one hx hquarter, root_of_quarter_one hquarter⟩
  · exact ⟨_, rootCandidate_of_quarter_ne hx hquarter, root_of_quarter_ne hsq hquarter⟩

end

section

variable (hx : Multiplied x a)

include hx

theorem rootFactors_of_quarter_one (hquarter : a ^ (2 ^ 253 - 5) = 1) :
    (∃ c, Multiplied (rootFactors x).1 c) ∧ Multiplied (rootFactors x).2 (a ^ 14) := by
  have hfactors : rootFactors x = powFactors x (exponentBytes 0xfe 0x0f) :=
    if_pos ((isOne_freeze_iff (quarter_rep hx.toRep)).mpr hquarter)
  rw [hfactors]
  exact ⟨powFactors_fst (hx.toRep.mono (by norm_num)) _, powFactors_snd hx _⟩

theorem rootFactors_rep :
    ∃ c d, Rep 510 (rootFactors x).1 c ∧ Multiplied (rootFactors x).2 d := by
  by_cases hquarter : a ^ (2 ^ 253 - 5) = 1
  · obtain ⟨⟨c, hc⟩, hd⟩ := rootFactors_of_quarter_one hx hquarter
    exact ⟨c, _, hc.toRep.mono (by norm_num), hd⟩
  · rw [rootFactors_of_quarter_ne hx.toRep hquarter]
    obtain ⟨htwo, hpow⟩ := scaled_rep hx.toRep
    exact ⟨_, _, htwo, hpow⟩

/-- **The candidate stays below `2 ^ 255`** exactly when nothing ripples into bit 255. -/
theorem rootCandidate_lt_iff : value 256 32 (limb (rootCandidate x).v) < 2 ^ 255 ↔
    NoRipple (limb (rootFactors x).1.v) (limb (rootFactors x).2.v) := by
  obtain ⟨c, d, hc, hd⟩ := rootFactors_rep hx
  have hfits := mulFits_of_le hc.le hd.le (by norm_num)
  have hholds := mul_holds hc.holds hd.holds hfits
  rw [rootCandidate_eq, value_congr fun i hi => hholds.limb_eq hi]
  exact value_product_lt_iff (value_mulLimbs_lt hfits)

end

/-! ## The parity -/

/-- **The parity of a frozen product** is that of its residue unless the product is `2 ^ 255` or
more. -/
theorem parity_freeze_iff (h : Multiplied x a) :
    (freeze x).v0.toNat % 2 = a.val % 2 ↔ value 256 32 (limb x.v) < 2 ^ 255 := by
  have hodd := prime_odd
  rw [h.freeze.toRep.toNat_zero, Nat.mod_mod_of_dvd _ (by norm_num)]
  constructor
  · intro hparity
    rcases h.value_cases with hlt | ⟨h19, hsmall, hvalue⟩
    · exact hlt
    · by_contra hge
      have hholds : Holds (freeze x).v (frozen (limb x.v)) := freeze_holds h.holds
      rw [value_congr fun i hi => hholds.limb_eq hi,
        value_frozen_of_ge (fun i hi => h.le i (by omega)) (by omega), hvalue] at hparity
      omega
  · intro hlt
    have hcanonical : Canonical (freeze x) (value 256 32 (limb x.v)) :=
      (h.reduced_of_lt hlt).canonical_freeze
    rw [hcanonical.value_eq, ← h.residue_eq, residue, ZMod.val_natCast]

/-- What `fe25519_sqrt_vartime` is meant to return. -/
structure SqrtOk (r x : Fe25519) (parity : UInt8) : Prop where
  code : (sqrtVartime r x parity).1 = 0 ↔ IsSquare x.residue
  root : IsSquare x.residue → residue (sqrtVartime r x parity).2 ^ 2 = x.residue
  parity_eq : IsSquare x.residue → x.residue ≠ 0 →
    (residue (sqrtVartime r x parity).2).val % 2 = (parity &&& 1).toNat
  unchanged : ¬ IsSquare x.residue → (sqrtVartime r x parity).2 = r

theorem toNat_low_one {w : U32} {n : Nat} (h : w.Is n) : (w.low 1).toNat = n % 2 :=
  (h.low 1 (by norm_num)).toNat_eq

/-- The root of the sign the code chooses. -/
theorem sqrtVartime_of_isSquare (hx : Rep 255 x a) (hsq : IsSquare a) (parity : UInt8) :
    ∃ b, Multiplied (rootCandidate x) b ∧ b * b = a ∧ (sqrtVartime r x parity).1 = 0 ∧
      residue (sqrtVartime r x parity).2
        = if (freeze (rootCandidate x)).v0.toNat % 2 ≠ (parity &&& 1).toNat then -b else b := by
  obtain ⟨b, hb, hroot⟩ := rootCandidate_rep hx hsq
  have hlow : ((freeze (rootCandidate x)).v0.low 1).toNat
      = (freeze (rootCandidate x)).v0.toNat % 2 := by
    rw [toNat_v0]
    exact toNat_low_one (hb.freeze.holds 0 (by norm_num))
  have htest : isSquare x = true := (isSquare_iff (hx.mono (by norm_num))).mpr hsq
  refine ⟨b, hb, hroot, ?_⟩
  unfold sqrtVartime
  rw [if_pos htest]
  simp only [hlow]
  split_ifs
  · refine ⟨rfl, ?_⟩
    have hsub := (rep_setZero.sub_product hb.freeze (by norm_num)).reduce (by norm_num)
    rw [Exact.setZero_eq] at hsub
    exact hsub.residue_eq.trans (zero_sub b)
  · exact ⟨rfl, hb.freeze.residue_eq⟩

theorem toNat_and_one_lt (parity : UInt8) : (parity &&& 1).toNat < 2 := by
  rw [UInt8.toNat_and, show (1 : UInt8).toNat = 2 ^ 1 - 1 from rfl, Nat.and_two_pow_sub_one_eq_mod]
  exact Nat.mod_lt _ (by norm_num)

/-- The sign chosen by a bit gives the parity asked for when the bit is the parity of the root: of
`b` and `-b` one is odd. -/
theorem sign_parity_iff {b : Fp} (hb : b ≠ 0) {low bit : Nat} (hlow : low < 2) (hbit : bit < 2) :
    (if low ≠ bit then -b else b).val % 2 = bit ↔ low = b.val % 2 := by
  have hodd := prime_odd
  have hlt := ZMod.val_lt b
  have hneg : (-b).val = prime - b.val := by rw [ZMod.neg_val, if_neg hb]
  split_ifs with hchoice
  · rw [hneg]
    omega
  · omega

/-- **When the square root has the parity asked for**: the last product must not carry into bit
255. -/
theorem sqrtOk_iff_noRipple (r x : Fe25519) (parity : UInt8) (hx : x.IsReduced) :
    SqrtOk r x parity ↔ (IsSquare x.residue →
      NoRipple (limb (rootFactors x).1.v) (limb (rootFactors x).2.v)) := by
  have htest := isSquare_iff (hx.toRep.mono (by norm_num : 255 ≤ 1020))
  by_cases hsq : IsSquare x.residue
  · obtain ⟨b, hb, hroot, hcode, hresidue⟩ := sqrtVartime_of_isSquare (r := r) hx.toRep hsq parity
    have hripple := rootCandidate_lt_iff hx.multiplied
    have hzero : x.residue = 0 ↔ b = 0 := by rw [← hroot, mul_self_eq_zero]
    have hsquare : residue (sqrtVartime r x parity).2 ^ 2 = x.residue := by
      rw [hresidue]
      split_ifs
      · rw [neg_sq, sq, hroot]
      · rw [sq, hroot]
    have hsign : b ≠ 0 → ((residue (sqrtVartime r x parity).2).val % 2 = (parity &&& 1).toNat ↔
        NoRipple (limb (rootFactors x).1.v) (limb (rootFactors x).2.v)) := by
      intro hne
      rw [hresidue, sign_parity_iff hne (Nat.mod_lt _ (by norm_num)) (toNat_and_one_lt parity),
        parity_freeze_iff hb, hripple]
    constructor
    · intro hok _
      by_cases hb0 : b = 0
      · rw [← hripple]
        rcases hb.value_cases with hlt | ⟨h19, -, -⟩
        · exact hlt
        · rw [hb0, ZMod.val_zero] at h19
          omega
      · exact (hsign hb0).mp (hok.parity_eq hsq (hzero.not.mpr hb0))
    · intro hgood
      exact ⟨⟨fun _ => hsq, fun _ => hcode⟩, fun _ => hsquare,
        fun _ hne => (hsign (hzero.not.mp hne)).mpr (hgood hsq), fun h => absurd hsq h⟩
  · have hout : sqrtVartime r x parity = (-1, r) := if_neg fun h => hsq (htest.mp h)
    refine ⟨fun _ h => absurd h hsq, fun _ => ⟨?_, fun h => absurd h hsq,
      fun h => absurd h hsq, fun _ => by rw [hout]⟩⟩
    rw [hout]
    exact ⟨fun h => absurd h (by norm_num), fun h => absurd h hsq⟩

/-! ## Roots that a carry hides -/

/-- The digits of a number. -/
def digits (n i : Nat) : Nat := n / 256 ^ i % 256

/-- The product of `m * x` and `y`, with `x` and `y` in digits, carries into bit 255. -/
def ripples (m x y : Nat) : Bool :=
  let n := m * x * y
  let quotient := n / prime - (n - m * lowProduct 256 31 x y) / 2 ^ 255
  decide (19 ≤ n % prime ∧ n % prime < 19 * quotient)

theorem noRipple_digits_iff {m x y : Nat} (hx : x < 256 ^ 32) (hy : y < 256 ^ 32) :
    NoRipple (fun i => m * digits x i) (digits y) ↔ ripples m x y = false := by
  have hquotient := quotientLeft_digits (m := m) hx hy
  have hvalue : ∀ {n : Nat}, n < 256 ^ 32 → value 256 32 (digits n) = n := fun hn =>
    (value_digits 256 32 _).trans (Nat.mod_eq_of_lt hn)
  unfold NoRipple ripples
  rw [value_mul_left, hvalue hx, hvalue hy, decide_eq_false_iff_not]
  unfold digits
  rw [hquotient]
  omega

theorem noRipple_congr {a c a' c' : Nat → Nat} (ha : ∀ i < 32, a i = a' i)
    (hc : ∀ i < 32, c i = c' i) : NoRipple a c ↔ NoRipple a' c' := by
  unfold NoRipple quotientLeft
  rw [value_congr ha, value_congr hc, funext (conv_congr ha hc)]

/-- Limbs of a number that is less than the prime above their residue. -/
theorem Rep.value_eq (h : Rep B x a) {n : Nat} (hn : a = (n : Fp)) (hlt : n < prime)
    (hvalue : value 256 32 (limb x.v) < n + prime) : value 256 32 (limb x.v) = n := by
  have hmod : value 256 32 (limb x.v) % prime = n := by
    rw [← ZMod.val_natCast, ← residue, h.residue_eq, hn, ZMod.val_natCast, Nat.mod_eq_of_lt hlt]
  rcases Nat.lt_or_ge (value 256 32 (limb x.v)) prime with hltp | hge
  · rw [← hmod, Nat.mod_eq_of_lt hltp]
  · rw [Nat.mod_eq_sub_mod hge, Nat.mod_eq_of_lt (by omega)] at hmod
    omega

/-- A product with a large residue holds its digits. -/
theorem Multiplied.limb_eq (h : Multiplied x a) {n : Nat} (hn : a = (n : Fp)) (hlt : n < prime)
    (hlarge : 2 ^ 32 ≤ n) {i : Nat} (hi : i < 32) : limb x.v i = digits n i := by
  have hp := prime_add
  have hbound := h.lt
  rw [digits, ← h.toRep.value_eq hn hlt (by omega)]
  exact (value_div_mod (fun j hj => Nat.lt_succ_of_le (h.le j hj)) hi).symm

/-- The inverse of `n` modulo the prime, by Euclid's algorithm in `fuel` rounds. Nothing is proved
about it in general: each value that is used is multiplied back. -/
def inverseMod : (fuel n : Nat) → Nat
  | 0, _ => 1
  | fuel + 1, n => if n ≤ 1 then 1 else prime - prime / n * inverseMod fuel (prime % n) % prime

/-- The number is a fourth power modulo the prime. -/
def FourthPower (n : Nat) : Prop := powMod prime 253 n (2 ^ 253 - 5) = 1

instance (n : Nat) : Decidable (FourthPower n) := inferInstanceAs (Decidable (_ = _))

theorem powMod_eq_one_iff {bits n e : Nat} (he : e < 2 ^ bits) :
    powMod prime bits n e = 1 ↔ (n : Fp) ^ e = 1 := by
  have hcast : (n : Fp) ^ e = ((n ^ e : Nat) : Fp) := (Nat.cast_pow n e).symm
  have hone : 1 % prime = 1 := Nat.mod_eq_of_lt prime_prime.one_lt
  rw [powMod_eq prime bits n e he, hcast, ← Nat.cast_one (R := Fp), ZMod.natCast_eq_natCast_iff',
    hone]

theorem fourthPower_iff {n : Nat} : FourthPower n ↔ (n : Fp) ^ (2 ^ 253 - 5) = 1 :=
  powMod_eq_one_iff (by norm_num)

/-- The last product for a root `n` that is a fourth power: the powers -27 and 28 of `n`. -/
def fourthPowerRipples (n : Nat) : Bool := ripples 1 (inverseMod 20 n ^ 27 % prime) (n ^ 28 % prime)

/-- The last product for a root `n` with `2 * n` a fourth power. -/
def doubleRipples (n : Nat) : Bool := ripples 2 (n ^ 2) (inverseMod 20 (2 * n) % prime)

/-- The factors of the first of these products are what they stand for, and no carry hides them. -/
def FourthPowerOk (n : Nat) : Prop :=
  n * inverseMod 20 n % prime = 1 ∧ 2 ^ 32 ≤ inverseMod 20 n ^ 27 % prime ∧
    (2 ^ 32 ≤ n ^ 28 % prime ∨ ¬ FourthPower n)

instance (n : Nat) : Decidable (FourthPowerOk n) := inferInstanceAs (Decidable (_ ∧ _))

/-- The same for the second. -/
def DoubleOk (n : Nat) : Prop :=
  2 * n * inverseMod 20 (2 * n) % prime = 1 ∧ 2 ^ 32 ≤ inverseMod 20 (2 * n) % prime

instance (n : Nat) : Decidable (DoubleOk n) := inferInstanceAs (Decidable (_ ∧ _))

/-- The roots for which the last product carries into bit 255. -/
def rippledRoots : List Nat :=
  [25, 27, 38, 42, 45, 53, 62, 70, 75, 77, 80, 81, 83, 86, 88, 91, 92, 106, 113, 114, 119, 125, 126,
    135, 142, 146, 148, 157, 158, 164, 181, 186, 190, 197, 203, 209, 211, 214, 223, 225, 227, 233,
    236, 239, 243, 247, 273, 278, 293, 347, 543, 564, 675]

/-- **The fourth powers that a carry hides**, computed. -/
theorem fourthPower_checked : ∀ n < 1539, 19 ≤ n →
    FourthPowerOk n ∧ (fourthPowerRipples n = false ∨ ¬ FourthPower n ∨ n ∈ rippledRoots) := by
  decide +kernel

/-- **The other roots that a carry hides**, computed. -/
theorem double_checked : ∀ n < 228, 19 ≤ n →
    DoubleOk n ∧ (doubleRipples n = false ∨ ¬ FourthPower (2 * n) ∨ n ∈ rippledRoots) := by
  decide +kernel

/-- **A carry does hide them.** -/
theorem rippledRoots_checked : ∀ n ∈ rippledRoots, 19 ≤ n ∧ n < 1539 ∧
    ((FourthPower n ∧ fourthPowerRipples n = true) ∨ n < 228 ∧ FourthPower (2 * n) ∧
      powMod prime 254 n (2 ^ 254 - 10) ≠ 1 ∧ doubleRipples n = true) := by
  decide +kernel

/-! ## The condition on the input -/

theorem inverse_cast {n : Nat} (h : n * inverseMod 20 n % prime = 1) :
    (n : Fp) * (inverseMod 20 n : Nat) = 1 := by
  have hone : 1 % prime = 1 := Nat.mod_eq_of_lt prime_prime.one_lt
  rw [← Nat.cast_mul, ← Nat.cast_one (R := Fp), ZMod.natCast_eq_natCast_iff', h, hone]

/-- A square that is not tiny is held in its digits. -/
theorem value_of_square {n : Nat} (hx : x.IsReduced) (hres : x.residue = (n : Fp) ^ 2)
    (h19 : 19 ≤ n) (hlt : n < 2 ^ 12) : value 256 32 (limb x.v) = n ^ 2 := by
  have hp := prime_add
  have hsmall : n ^ 2 < (2 ^ 12) ^ 2 := Nat.pow_lt_pow_left hlt (by norm_num)
  have hlarge : 19 ^ 2 ≤ n ^ 2 := Nat.pow_le_pow_left h19 2
  have hle := hx.value_le
  exact hx.toRep.value_eq (hres.trans (Nat.cast_pow n 2).symm) (by omega) (by omega)

/-- **The last product for a fourth power.** -/
theorem noRipple_fourthPower {n : Nat} (hx : Multiplied x ((n : Fp) ^ 2)) (hpow : FourthPower n)
    (hok : FourthPowerOk n) :
    NoRipple (limb (rootFactors x).1.v) (limb (rootFactors x).2.v)
      ↔ fourthPowerRipples n = false := by
  obtain ⟨hinv, hfst, hsnd⟩ := hok
  have hsnd := hsnd.resolve_right (not_not_intro hpow)
  rw [fourthPower_iff] at hpow
  have hquarter : ((n : Fp) ^ 2) ^ (2 ^ 253 - 5) = 1 := by
    rw [← pow_mul, Nat.mul_comm, pow_mul, hpow, one_pow]
  obtain ⟨⟨c, hc⟩, hd⟩ := rootFactors_of_quarter_one hx hquarter
  have hroot : c * ((n : Fp) ^ 2) ^ 14 = n := by
    have hcandidate := rootCandidate_of_quarter_one hx.toRep hquarter
    rw [rootCandidate_eq] at hcandidate
    have hprod : c * ((n : Fp) ^ 2) ^ 14 = ((n : Fp) ^ 2) ^ (2 ^ 252 - 2) :=
      (hc.toRep.times hd.toRep).residue_eq.symm.trans hcandidate.residue_eq
    calc c * ((n : Fp) ^ 2) ^ 14 = ((n : Fp) ^ 2) ^ (2 ^ 252 - 2) := hprod
      _ = n * (n : Fp) ^ (2 ^ 253 - 5) := by ring
      _ = n := by rw [hpow, mul_one]
  have hinverse := inverse_cast hinv
  have hfirst : c = ((inverseMod 20 n ^ 27 % prime : Nat) : Fp) := by
    rw [ZMod.natCast_mod, Nat.cast_pow]
    generalize ((inverseMod 20 n : Nat) : Fp) = y at hinverse
    calc c = c * (n * y) ^ 28 := by rw [hinverse, one_pow, mul_one]
      _ = c * ((n : Fp) ^ 2) ^ 14 * y * y ^ 27 := by ring
      _ = y ^ 27 := by rw [hroot, hinverse, one_mul]
  have hsecond : ((n : Fp) ^ 2) ^ 14 = ((n ^ 28 % prime : Nat) : Fp) := by
    rw [ZMod.natCast_mod, Nat.cast_pow, ← pow_mul]
  have hlt : ∀ k, k % prime < prime := fun k => Nat.mod_lt k prime_prime.pos
  have hsize : prime < 256 ^ 32 := by
    have := prime_add
    omega
  refine (noRipple_congr (fun i hi => ?_) fun i hi => hd.limb_eq hsecond (hlt _) hsnd hi).trans
    (noRipple_digits_iff ((hlt _).trans hsize) ((hlt _).trans hsize))
  rw [one_mul]
  exact hc.limb_eq hfirst (hlt _) hfst hi

/-- The first factor for a small square. -/
theorem limb_scaled {n : Nat} (hx : x.IsReduced) (hvalue : value 256 32 (limb x.v) = n ^ 2)
    {i : Nat} (hi : i < 32) : limb (scale 2 x).v i = 2 * digits (n ^ 2) i := by
  have hholds := scale_holds hx.toRep (Word.is_ofNat 2 (by norm_num)) (by norm_num)
  rw [hholds.limb_eq hi, digits, ← hvalue]
  exact congrArg (2 * ·) (value_div_mod (fun j hj => Nat.lt_succ_of_le (hx.le j hj)) hi).symm

/-- **The last product for half a fourth power.** -/
theorem noRipple_double {n : Nat} (hx : x.IsReduced) (hres : x.residue = (n : Fp) ^ 2)
    (h19 : 19 ≤ n) (hlt : n < 2 ^ 12) (hne : ((n : Fp) ^ 2) ^ (2 ^ 253 - 5) ≠ 1)
    (hpow : FourthPower (2 * n)) (hok : DoubleOk n) :
    NoRipple (limb (rootFactors x).1.v) (limb (rootFactors x).2.v) ↔ doubleRipples n = false := by
  obtain ⟨hinv, hlarge⟩ := hok
  rw [fourthPower_iff, Nat.cast_mul, Nat.cast_ofNat] at hpow
  have hrep : Rep 255 x ((n : Fp) ^ 2) := hx.toRep.congr hres
  have hvalue := value_of_square hx hres h19 hlt
  have hinverse := inverse_cast hinv
  have hsecond : (4 * (n : Fp) ^ 2) ^ (2 ^ 252 - 3)
      = ((inverseMod 20 (2 * n) % prime : Nat) : Fp) := by
    rw [ZMod.natCast_mod]
    rw [Nat.cast_mul, Nat.cast_ofNat] at hinverse
    have hsquare : 4 * (n : Fp) ^ 2 = (2 * (n : Fp)) ^ 2 := by ring
    rw [hsquare]
    generalize 2 * (n : Fp) = w at hinverse hpow
    generalize ((inverseMod 20 (2 * n) : Nat) : Fp) = y at hinverse
    calc (w ^ 2) ^ (2 ^ 252 - 3) = (w ^ 2) ^ (2 ^ 252 - 3) * (w * y) := by rw [hinverse, mul_one]
      _ = w ^ (2 ^ 253 - 5) * y := by ring
      _ = y := by rw [hpow, one_mul]
  have hmod : inverseMod 20 (2 * n) % prime < prime := Nat.mod_lt _ prime_prime.pos
  have hp := prime_add
  have hsmall : n ^ 2 < (2 ^ 12) ^ 2 := Nat.pow_lt_pow_left hlt (by norm_num)
  rw [rootFactors_of_quarter_ne hrep hne]
  exact (noRipple_congr (fun i hi => limb_scaled hx hvalue hi)
    fun i hi => (scaled_rep hrep).2.limb_eq hsecond hmod hlarge hi).trans
    (noRipple_digits_iff (by omega) (by omega))

/-! ### The bound on a hidden root -/

theorem sum_le_of_le {f : Nat → Nat} {K n : Nat} (h : ∀ i < n, f i ≤ K) :
    ∑ i ∈ range n, f i ≤ n * K := by
  refine (sum_le_card_nsmul (range n) f K fun i hi => h i (mem_range.mp hi)).trans ?_
  rw [card_range, smul_eq_mul]

/-- A carry hides a residue only if it is below 19 times the quotient. -/
theorem lt_of_ripple {f g : Fe25519} {c d : Fp} {K S V : Nat} (hf : Rep B f c)
    (hg : Multiplied g d) (hripple : ¬ NoRipple (limb f.v) (limb g.v))
    (hsum : ∑ i ∈ range 31, limb f.v i ≤ S) (hvalue : value 256 32 (limb f.v) ≤ V)
    (hK : S * 256 ^ 31 + 2 ^ 255 + 19 * (V * (2 ^ 255 + 2 ^ 31) / 2 ^ 255) < (K + 1) * prime) :
    19 ≤ (c * d).val ∧ (c * d).val < 19 * K := by
  have hmod : value 256 32 (limb f.v) * value 256 32 (limb g.v) % prime = (c * d).val := by
    rw [← ZMod.val_natCast, Nat.cast_mul]
    exact congrArg₂ (fun u w : Fp => (u * w).val) hf.residue_eq hg.residue_eq
  have hquotient : quotientLeft (limb f.v) (limb g.v) ≤ K := by
    have hbound := quotientLeft_mul_le (a := limb f.v) fun i hi => hg.le i hi
    have hprod : value 256 32 (limb f.v) * value 256 32 (limb g.v) / 2 ^ 255
        ≤ V * (2 ^ 255 + 2 ^ 31) / 2 ^ 255 :=
      Nat.div_le_div_right (Nat.mul_le_mul hvalue hg.lt.le)
    have hscaled := Nat.mul_le_mul_right (256 ^ 31) hsum
    have hlt : quotientLeft (limb f.v) (limb g.v) * prime < (K + 1) * prime := by omega
    exact Nat.lt_add_one_iff.mp (lt_of_mul_lt_mul_right hlt (Nat.zero_le _))
  unfold NoRipple at hripple
  rw [hmod] at hripple
  omega

/-- The root of a fourth power that a carry hides. -/
theorem lt_of_ripple_fourthPower (hx : Multiplied x a) (hquarter : a ^ (2 ^ 253 - 5) = 1)
    (hripple : ¬ NoRipple (limb (rootFactors x).1.v) (limb (rootFactors x).2.v)) :
    19 ≤ (a ^ (2 ^ 252 - 2)).val ∧ (a ^ (2 ^ 252 - 2)).val < 1539 := by
  obtain ⟨⟨c, hc⟩, hd⟩ := rootFactors_of_quarter_one hx hquarter
  have hcandidate := rootCandidate_of_quarter_one hx.toRep hquarter
  rw [rootCandidate_eq] at hcandidate
  have hprod : c * a ^ 14 = a ^ (2 ^ 252 - 2) :=
    (hc.toRep.times hd.toRep).residue_eq.symm.trans hcandidate.residue_eq
  rw [← hprod]
  exact lt_of_ripple (K := 81) hc.toRep hd hripple (sum_le_of_le fun i hi => hc.le i (by omega))
    hc.lt.le (by decide +kernel)

/-- The residue of the last product when the quartic character is -1. -/
theorem lt_of_ripple_double {K S V : Nat} (hx : Rep 255 x a) (hquarter : a ^ (2 ^ 253 - 5) ≠ 1)
    (hripple : ¬ NoRipple (limb (rootFactors x).1.v) (limb (rootFactors x).2.v))
    (hsum : ∑ i ∈ range 31, limb (scale 2 x).v i ≤ S)
    (hvalue : value 256 32 (limb (scale 2 x).v) ≤ V)
    (hK : S * 256 ^ 31 + 2 ^ 255 + 19 * (V * (2 ^ 255 + 2 ^ 31) / 2 ^ 255) < (K + 1) * prime) :
    19 ≤ (2 * a * (4 * a) ^ (2 ^ 252 - 3)).val ∧
      (2 * a * (4 * a) ^ (2 ^ 252 - 3)).val < 19 * K := by
  obtain ⟨htwo, hpow⟩ := scaled_rep hx
  rw [rootFactors_of_quarter_ne hx hquarter] at hripple
  exact lt_of_ripple htwo hpow hripple hsum hvalue hK

theorem ne_zero_of_le_val {b : Fp} (h : 19 ≤ b.val) : b ≠ 0 := by
  rintro rfl
  rw [ZMod.val_zero] at h
  omega

/-- A fourth power that a carry hides is one of the list. -/
theorem mem_rippledRoots_of_fourthPower (hx : x.IsReduced)
    (hquarter : x.residue ^ (2 ^ 253 - 5) = 1)
    (hripple : ¬ NoRipple (limb (rootFactors x).1.v) (limb (rootFactors x).2.v)) :
    ∃ n ∈ rippledRoots, value 256 32 (limb x.v) = n ^ 2 := by
  obtain ⟨h19, hlt⟩ := lt_of_ripple_fourthPower hx.multiplied hquarter hripple
  have hroot := root_of_quarter_one hquarter
  generalize hb : x.residue ^ (2 ^ 252 - 2) = b at h19 hlt hroot
  have hcast : ((b.val : Nat) : Fp) = b := ZMod.natCast_zmod_val b
  have hres : x.residue = ((b.val : Nat) : Fp) ^ 2 := by rw [hcast, sq, hroot]
  have hpow : FourthPower b.val := by
    refine fourthPower_iff.mpr (mul_left_cancel₀ (ne_zero_of_le_val h19) ?_)
    calc b * ((b.val : Nat) : Fp) ^ (2 ^ 253 - 5) = (b * b) ^ (2 ^ 252 - 2) := by
          rw [hcast]
          ring
      _ = b * 1 := by rw [hroot, hb, mul_one]
  obtain ⟨hok, hchecked⟩ := fourthPower_checked b.val hlt h19
  have hproduct := noRipple_fourthPower ⟨hx.toRep.congr hres, hx.multiplied.lt⟩ hpow hok
  have hripples : fourthPowerRipples b.val ≠ false := fun h => hripple (hproduct.mpr h)
  exact ⟨b.val, (hchecked.resolve_left hripples).resolve_left (not_not_intro hpow),
    value_of_square hx hres h19 (by omega)⟩

/-- The digits of a small square are few. -/
theorem sum_scaled_le {n : Nat} (hx : x.IsReduced) (hvalue : value 256 32 (limb x.v) = n ^ 2)
    (hlt : n < 2 ^ 12) : ∑ i ∈ range 31, limb (scale 2 x).v i ≤ 3 * 510 := by
  have hsmall : n ^ 2 < (2 ^ 12) ^ 2 := Nat.pow_lt_pow_left hlt (by norm_num)
  have hlow : ∑ i ∈ range 3, limb (scale 2 x).v i ≤ 3 * 510 := by
    refine sum_le_of_le fun i hi => ?_
    rw [limb_scaled hx hvalue (by omega), digits]
    omega
  have hhigh : ∑ i ∈ range 28, limb (scale 2 x).v (3 + i) = 0 := by
    refine sum_eq_zero fun i hi => ?_
    have hi28 := mem_range.mp hi
    have hpow : 256 ^ 3 ≤ 256 ^ (3 + i) := Nat.pow_le_pow_right (by norm_num) (by omega)
    rw [limb_scaled hx hvalue (by omega), digits, Nat.div_eq_of_lt (by omega), Nat.zero_mod,
      mul_zero]
  rw [show 31 = 3 + 28 from rfl, sum_range_add, hhigh, add_zero]
  exact hlow

/-- The same for half a fourth power: first it is small, and so is its square. -/
theorem mem_rippledRoots_of_double (hx : x.IsReduced) (hsq : IsSquare x.residue)
    (hquarter : x.residue ^ (2 ^ 253 - 5) ≠ 1)
    (hripple : ¬ NoRipple (limb (rootFactors x).1.v) (limb (rootFactors x).2.v)) :
    ∃ n ∈ rippledRoots, value 256 32 (limb x.v) = n ^ 2 := by
  have hscaled : ∀ i < 32, limb (scale 2 x).v i = 2 * limb x.v i := fun i hi =>
    (scale_holds hx.toRep (Word.is_ofNat 2 (by norm_num)) (by norm_num)).limb_eq hi
  have hdouble : value 256 32 (limb (scale 2 x).v) = 2 * value 256 32 (limb x.v) := by
    rw [value_congr hscaled, value_mul_left]
  have hroot := root_of_quarter_ne hsq hquarter
  have hbound := fun {K S V : Nat} => lt_of_ripple_double (K := K) (S := S) (V := V) hx.toRep
    hquarter hripple
  generalize hb : 2 * x.residue * (4 * x.residue) ^ (2 ^ 252 - 3) = b at hroot hbound
  have hcast : ((b.val : Nat) : Fp) = b := ZMod.natCast_zmod_val b
  have hres : x.residue = ((b.val : Nat) : Fp) ^ 2 := by rw [hcast, sq, hroot]
  have hlimb : ∀ i < 31, limb (scale 2 x).v i ≤ 510 := by
    intro i hi
    have hle := hx.le i (by omega)
    rw [hscaled i (by omega)]
    omega
  obtain ⟨h19, hlt⟩ := hbound (K := 162) (S := 31 * 510) (V := 2 * (prime + 18))
    (sum_le_of_le hlimb) (hdouble.trans_le (Nat.mul_le_mul_left 2 hx.value_le)) (by decide +kernel)
  have hvalue := value_of_square hx hres h19 (by omega)
  have hsmall : b.val ^ 2 < (2 ^ 12) ^ 2 := Nat.pow_lt_pow_left (by omega) (by norm_num)
  obtain ⟨-, hlt'⟩ := hbound (K := 12) (S := 3 * 510) (V := 2 * (2 ^ 12) ^ 2)
    (sum_scaled_le hx hvalue (by omega)) (by omega) (by decide +kernel)
  have hpow : FourthPower (2 * b.val) := by
    have htwo : 2 * (b * b) = b * (2 * b) := by ring
    have hfour : 4 * (b * b) = (2 * b) ^ 2 := by ring
    rw [fourthPower_iff, Nat.cast_mul, Nat.cast_ofNat, hcast]
    refine mul_left_cancel₀ (ne_zero_of_le_val h19) ?_
    calc b * (2 * b) ^ (2 ^ 253 - 5) = 2 * (b * b) * (4 * (b * b)) ^ (2 ^ 252 - 3) := by
          rw [htwo, hfour]
          generalize 2 * b = w
          ring
      _ = b * 1 := by rw [hroot, hb, mul_one]
  obtain ⟨hok, hchecked⟩ := double_checked b.val hlt' h19
  have hproduct := noRipple_double hx hres h19 (by omega) (by rwa [← hres]) hpow hok
  have hripples : doubleRipples b.val ≠ false := fun h => hripple (hproduct.mpr h)
  exact ⟨b.val, (hchecked.resolve_left hripples).resolve_left (not_not_intro hpow), hvalue⟩

/-- **A carry hides these roots.** -/
theorem ripple_of_mem {n : Nat} (hn : n ∈ rippledRoots) (hx : x.IsReduced)
    (hvalue : value 256 32 (limb x.v) = n ^ 2) :
    ¬ NoRipple (limb (rootFactors x).1.v) (limb (rootFactors x).2.v) := by
  have hres : x.residue = (n : Fp) ^ 2 := by rw [residue, hvalue, Nat.cast_pow]
  obtain ⟨h19, hlt, ⟨hpow, hripples⟩ | ⟨hlt', hpow, hquarter, hripples⟩⟩ :=
    rippledRoots_checked n hn
  · have hmul : Multiplied x ((n : Fp) ^ 2) := ⟨hx.toRep.congr hres, hx.multiplied.lt⟩
    rw [noRipple_fourthPower hmul hpow (fourthPower_checked n hlt h19).1, hripples]
    exact Bool.noConfusion
  · rw [Ne, powMod_eq_one_iff (by norm_num)] at hquarter
    have hne : ((n : Fp) ^ 2) ^ (2 ^ 253 - 5) ≠ 1 := by rwa [← pow_mul]
    rw [noRipple_double hx hres h19 (by omega) hne hpow (double_checked n hlt' h19).1, hripples]
    exact Bool.noConfusion

/-! ## The square root -/

/-- **When `fe25519_sqrt_vartime` does what it is meant to**: for every element but the squares of
the 53 roots that a carry hides. -/
theorem sqrtVartime_iff (r x : Fe25519) (parity : UInt8) (hx : x.IsReduced) :
    SqrtOk r x parity ↔ ∀ n ∈ rippledRoots, value 256 32 (limb x.v) ≠ n ^ 2 := by
  rw [sqrtOk_iff_noRipple r x parity hx]
  constructor
  · intro hgood n hn hvalue
    refine ripple_of_mem hn hx hvalue (hgood ⟨n, ?_⟩)
    rw [residue, hvalue, Nat.cast_pow, sq]
  · intro hvalues hsq
    by_contra hripple
    obtain ⟨n, hn, hvalue⟩ : ∃ n ∈ rippledRoots, value 256 32 (limb x.v) = n ^ 2 := by
      by_cases hquarter : x.residue ^ (2 ^ 253 - 5) = 1
      · exact mem_rippledRoots_of_fourthPower hx hquarter hripple
      · exact mem_rippledRoots_of_double hx hsq hquarter hripple
    exact hvalues n hn hvalue

theorem value_unpack_small {n : Nat} (h : n < 2 ^ 255) :
    value 256 32 (limb (unpack (leBytes 32 n) : Fe25519).v) = n := by
  rw [value_limb_unpack, leValue_leBytes]
  omega

/-- The odd root of 10000. -/
theorem sqrtVartime_iff_example :
    let x : Fe25519 := unpack (leBytes 32 10000)
    SqrtOk setZero x 1 ∧ (sqrtVartime setZero x 1).1 = 0 ∧
      residue (sqrtVartime setZero x 1).2 ^ 2 = 10000 ∧
      (residue (sqrtVartime setZero x 1).2).val % 2 = 1 := by
  intro x
  have hvalue : value 256 32 (limb x.v) = 10000 := value_unpack_small (by norm_num)
  have hres : x.residue = 10000 := by
    rw [residue, hvalue]
    norm_num
  have hsq : IsSquare x.residue := ⟨100, by rw [hres]; norm_num⟩
  have hne : x.residue ≠ 0 := by
    rw [residue, hvalue, Ne, ZMod.natCast_eq_zero_iff]
    exact Nat.not_dvd_of_pos_of_lt (by norm_num) (by decide)
  have hok : SqrtOk setZero x 1 := by
    refine (sqrtVartime_iff setZero x 1 (isReduced_of_reduced (reduced_unpack _))).mpr ?_
    rw [hvalue]
    decide
  exact ⟨hok, hok.code.mpr hsq, (hok.root hsq).trans hres, hok.parity_eq hsq hne⟩

/-- **The root of 2809**: the candidate is `2 ^ 255 + 34`, which is taken for an even root, but its
residue is 53. -/
theorem sqrtVartime_fails :
    (unpack (leBytes 32 2809) : Fe25519).IsReduced ∧
      IsSquare (residue (unpack (leBytes 32 2809))) ∧
      ¬ SqrtOk setZero (unpack (leBytes 32 2809)) 0 := by
  have hx : (unpack (leBytes 32 2809) : Fe25519).IsReduced :=
    isReduced_of_reduced (reduced_unpack _)
  have hvalue : value 256 32 (limb (unpack (leBytes 32 2809) : Fe25519).v) = 53 ^ 2 :=
    value_unpack_small (by norm_num)
  have hsq : IsSquare (residue (unpack (leBytes 32 2809))) :=
    ⟨53, by rw [residue, hvalue, sq, Nat.cast_mul]; rfl⟩
  exact ⟨hx, hsq, fun hok =>
    ripple_of_mem (n := 53) (by decide) hx hvalue ((sqrtOk_iff_noRipple setZero _ 0 hx).mp hok hsq)⟩

end HocusPocus.Fe25519
