import HocusPocus.Arith.LeftoverHash
import HocusPocus.Oprf.Honest

/-!
# What the client's message about its input reveals (`VolePlus.h`)

In VOLE+ the client sends `Delta_prime`, its hashed input `h` less the combination of the small
values `h_i` with the coefficients it sends along. The `h_i` are the points of the trees, which the
server does not learn; the constructor makes so many of them that the combination hides `h`.

The points are uniform here, and so are the coefficients, which the source expands from a seed.

* `deltaPrime_points`: the message for given points and coefficients.
* `size_points`: the number of points is what the leftover hash lemma asks for.
* `client_privacy`: the messages for two inputs are within `2 ^ -statistical_security_bits`.
-/

namespace HocusPocus.OPRF

open Finset Arith

variable (o : OPRF Fp)

/-- The number of rows of VOLE+. -/
abbrev Rows : Type := Fin o.volePlus.kVole

/-- The points of the trees of VOLE+, which come after those of the proof system. -/
def plusPoints (points : o.Rows → Fin (2 ^ o.smallSetBits)) (j : Nat) : Nat :=
  if h : j - o.zk.kVole < o.volePlus.kVole then (points ⟨j - o.zk.kVole, h⟩).val else 0

/-- The coefficients as `VolePlus::receive` indexes them. -/
def coefficients (lambda : o.Rows → Fp) (i : Nat) : Fp :=
  if h : i < o.volePlus.kVole then lambda ⟨i, h⟩ else 0

/-- The number of points for which the client sends `t`, for the input `h` and the coefficients
`lambda`. -/
noncomputable def sending (expand : Block → Nat → UInt8) (a : Nat → Block) (h : Fp)
    (lambda : o.Rows → Fp) (t : Fp) : ℕ :=
  #{points : o.Rows → Fin (2 ^ o.smallSetBits) |
    o.volePlus.deltaPrime h (o.coefficients lambda)
      (o.clientVole expand a (o.plusPoints points)).h = t}

/-- The statistical distance of what the client sends, coefficients and `Delta_prime`, for two
inputs. -/
noncomputable def messageDistance (expand : Block → Nat → UInt8) (a : Nat → Block) (h h' : Fp) :
    ℝ :=
  (∑ lambda, ∑ t, |(o.sending expand a h lambda t : ℝ) - o.sending expand a h' lambda t|)
    / (2 * (Fintype.card (o.Rows → Fin (2 ^ o.smallSetBits)) * Fintype.card (o.Rows → Fp)) : ℕ)

variable {o} {expand : Block → Nat → UInt8} {a : Nat → Block}

/-- The points as elements of the field. -/
def pointValues (points : o.Rows → Fin (2 ^ o.smallSetBits)) (i : o.Rows) : Fp := (points i).val

theorem pointValues_injective (h12 : o.smallSetBits ≤ 12) :
    Function.Injective (pointValues (o := o)) := by
  intro points points' heq
  have hpow : 2 ^ o.smallSetBits ≤ 2 ^ 12 := Nat.pow_le_pow_right Nat.zero_lt_two h12
  have hprime : 2 ^ 12 < prime := by decide
  refine funext fun i => Fin.ext ?_
  have hcast : ((points i).val : Fp) = ((points' i).val : Fp) := congrFun heq i
  have hlt := (points i).isLt
  have hlt' := (points' i).isLt
  rw [ZMod.natCast_eq_natCast_iff'] at hcast
  rwa [Nat.mod_eq_of_lt (by omega), Nat.mod_eq_of_lt (by omega)] at hcast

/-- The value of the client for a row is its point. -/
theorem clientVole_h (h12 : o.smallSetBits ≤ 12)
    (points : o.Rows → Fin (2 ^ o.smallSetBits)) (i : o.Rows) :
    (o.clientVole expand a (o.plusPoints points)).h i = pointValues points i := by
  have hindex : o.plusPoints points (o.zk.kVole + i) = points i := by
    have hsub : o.zk.kVole + i.val - o.zk.kVole = i.val := Nat.add_sub_cancel_left ..
    simp only [plusPoints, hsub, dif_pos i.isLt]
  obtain ⟨-, h32, -⟩ := SmallSetVole.point_is h12
    (show o.plusPoints points (o.zk.kVole + i) < 2 ^ o.smallSetBits from
      hindex ▸ (points i).isLt)
  rw [clientVole, SmallSetVole.receive_h, Exact.ofLimb_eq (by norm_num), h32.toNat_eq, hindex,
    pow_zero, mul_one]
  rfl

/-- **The message for given points and coefficients.** -/
theorem deltaPrime_points (h12 : o.smallSetBits ≤ 12) (h : Fp) (lambda : o.Rows → Fp)
    (points : o.Rows → Fin (2 ^ o.smallSetBits)) :
    o.volePlus.deltaPrime h (o.coefficients lambda)
        (o.clientVole expand a (o.plusPoints points)).h
      = h - ∑ i, lambda i * pointValues points i := by
  rw [VolePlus.deltaPrime, Exact.reduceAddSub_eq, Exact.sumReduceLoop_eq, Exact.setZero_eq,
    zero_add, ← Fin.sum_univ_eq_sum_range (fun i => o.coefficients lambda i
      * (o.clientVole expand a (o.plusPoints points)).h i)]
  refine congrArg (h - ·) (sum_congr rfl fun i _ => ?_)
  rw [clientVole_h h12, coefficients, dif_pos i.isLt]

/-- The points that send `t` are those with one hash. -/
theorem sending_eq (h12 : o.smallSetBits ≤ 12) (h : Fp) (lambda : o.Rows → Fp) (t : Fp) :
    o.sending expand a h lambda t = hits (univ.image pointValues) lambda (h - t) := by
  rw [sending, hits, filter_image, card_image_of_injective _ (pointValues_injective h12)]
  refine congrArg card (filter_congr fun points _ => ?_)
  rw [deltaPrime_points h12]
  constructor
  · rintro rfl
    rw [sub_sub_cancel]
  · intro heq
    rw [heq, sub_sub_cancel]

/-- **The constructor's `k_vole`** gives as many points as the leftover hash lemma asks for. -/
theorem size_points (hbits : 1 ≤ o.smallSetBits) :
    prime * (2 ^ o.statisticalSecurityBits) ^ 2
      ≤ Fintype.card (o.Rows → Fin (2 ^ o.smallSetBits)) := by
  have hrows : 2 * o.statisticalSecurityBits + primeBits
      ≤ o.smallSetBits * o.volePlus.kVole := by
    have hceil := Nat.lt_div_mul_add
      (a := 2 * o.statisticalSecurityBits + primeBits + o.smallSetBits - 1) hbits
    have hnew : o.volePlus.kVole
        = (2 * o.statisticalSecurityBits + primeBits + o.smallSetBits - 1)
          / o.smallSetBits := rfl
    rw [hnew, Nat.mul_comm o.smallSetBits]
    omega
  have hprime : prime ≤ 2 ^ primeBits := by decide
  rw [Fintype.card_fun, Fintype.card_fin, Fintype.card_fin]
  calc prime * (2 ^ o.statisticalSecurityBits) ^ 2
      ≤ 2 ^ primeBits * (2 ^ o.statisticalSecurityBits) ^ 2 := Nat.mul_le_mul_right _ hprime
    _ = 2 ^ (2 * o.statisticalSecurityBits + primeBits) := by ring
    _ ≤ 2 ^ (o.smallSetBits * o.volePlus.kVole) := Nat.pow_le_pow_right Nat.zero_lt_two hrows
    _ = (2 ^ o.smallSetBits) ^ o.volePlus.kVole := by rw [pow_mul]

/-- **Client privacy in VOLE+**: for any two inputs the messages of the client, over its points and
coefficients, are within `2 ^ -statistical_security_bits` of each other. -/
theorem client_privacy (o : OPRF Fp) (expand : Block → Nat → UInt8) (a : Nat → Block)
    (hbits : 1 ≤ o.smallSetBits) (h12 : o.smallSetBits ≤ 12) (h h' : Fp) :
    o.messageDistance expand a h h' ≤ 1 / 2 ^ o.statisticalSecurityBits := by
  have hcard : #(univ.image (pointValues (o := o)))
      = Fintype.card (o.Rows → Fin (2 ^ o.smallSetBits)) := by
    rw [card_image_of_injective _ (pointValues_injective h12), card_univ]
  have hsize : (Fintype.card Fp : ℝ) * (2 ^ o.statisticalSecurityBits) ^ 2
      ≤ #(univ.image (pointValues (o := o))) := by
    rw [hcard, ZMod.card]
    exact_mod_cast size_points hbits
  have hclose :=
    leftover_hash_shift (c := 2 ^ o.statisticalSecurityBits) (by positivity) hsize h h'
  rw [hcard] at hclose
  have hpoints : (0 : ℝ) < Fintype.card (o.Rows → Fin (2 ^ o.smallSetBits)) := by
    have hprime : 0 < prime * (2 ^ o.statisticalSecurityBits) ^ 2 := by
      have : 0 < prime := by decide
      positivity
    exact Nat.cast_pos.mpr (hprime.trans_le (size_points hbits))
  have hkeys : (0 : ℝ) < Fintype.card (o.Rows → Fp) := Nat.cast_pos.mpr Fintype.card_pos
  rw [messageDistance, Nat.cast_mul, Nat.cast_mul, Nat.cast_two,
    div_le_div_iff₀ (by positivity) (by positivity)]
  simp only [sending_eq h12]
  linarith

/-- The sample, with 8 bits to a point. -/
theorem client_privacy_example :
    sample.messageDistance shiftedSeed (fun _ => Vector.replicate 16 0) 3 4
      ≤ 1 / 2 ^ sample.statisticalSecurityBits :=
  client_privacy sample shiftedSeed _ (by decide) (by decide) 3 4

end HocusPocus.OPRF
