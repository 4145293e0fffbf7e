import HocusPocus.Zkp.Agree

/-!
# Committing to the witness

The prover shifts its small-set rows to the witness, the verifier adds the shift to its own rows,
and both combine the rows with powers of two into one correlation under `Delta`.

* `commit_honest`: every check of the verifier passes, and its state is the prover's at `Delta`.
* `commit_correct`: `Delta` is the row of keys `hi` read in base `2 ^ small_set_bits`, as long as
  the multipliers stay inside their 32 limbs.
-/

namespace HocusPocus.ZkParams

open Machine Duplex FieldOps Finset

variable (expand : Block → Nat → UInt8) {zk : ZkParams} {w : Nat → Fp} {hi checkGamma : Nat → Fp}
  {ui vi oi : Nat → Nat → Fp} {prng : Prng} {state : Nat → Poly Fp 1}

/-- The shift sent for entry `j` of row `i`. -/
def shifts (zk : ZkParams) (state : Nat → Poly Fp 1) (vi : Nat → Nat → Fp) : Bytes :=
  writeVecToBytes (grid zk.kVole zk.voleLen (derandomised state vi))

/-- The values of the consistency check. -/
def checkValues (zk : ZkParams) (state : Nat → Poly Fp 1) (ui : Nat → Nat → Fp)
    (checkGamma : Nat → Fp) : Bytes :=
  writeVecToBytes
    (zk.checkCv state checkGamma :: (List.range zk.kVole).map (zk.checkCu ui checkGamma))

/-- **The verifier's rows after the shift** are correlations of the witness. -/
theorem alignRows_eq
    (hoi : ∀ i < zk.kVole, ∀ j < zk.voleLen, oi i j = ui i j + hi i * vi i j) {i j : Nat}
    (hik : i < zk.kVole) (hj : j < zk.voleLen) :
    zk.alignRows oi hi (zk.shifts state vi) i j = ui i j + hi i * (state j).coefs 1 := by
  have hlen : i * zk.voleLen + j
      < (grid zk.kVole zk.voleLen (derandomised state vi)).length := by
    rw [length_grid]
    calc i * zk.voleLen + j < i * zk.voleLen + zk.voleLen := by omega
      _ = (i + 1) * zk.voleLen := by ring
      _ ≤ zk.kVole * zk.voleLen := Nat.mul_le_mul_right _ hik
  rw [alignRows, shifts, readFe25519_writeVecToBytes _ hlen, getElem_grid _ hik hj, derandomised,
    hoi i hik j hj, Exact.reduceAddSub_eq, Exact.freeze_eq]
  ring

theorem readFe25519_checkValues {i : Nat} (hik : i < zk.kVole) :
    readFe25519 (zk.checkValues state ui checkGamma) (1 + i) = zk.checkCu ui checkGamma i := by
  rw [checkValues, readFe25519_cons_map _ _ hik]

theorem readFe25519_checkValues_zero :
    readFe25519 (zk.checkValues state ui checkGamma) 0 = zk.checkCv state checkGamma := by
  rw [checkValues, readFe25519_writeVecToBytes _ (by simp)]
  rfl

theorem checkCv_eq :
    zk.checkCv state checkGamma
      = (state checkPos).coefs 1
        + ∑ j ∈ range (zk.voleLen - 1), checkGamma j * (state j).coefs 1 := by
  rw [checkCv, Exact.sumLoop_eq, Exact.reduceAddSub_eq, Exact.freeze_eq]

theorem checkCu_eq (i : Nat) :
    zk.checkCu ui checkGamma i
      = ui i checkPos + ∑ j ∈ range (zk.voleLen - 1), ui i j * checkGamma j := by
  rw [checkCu, Exact.dotProduct_eq, Exact.reduceAddSub_eq, Exact.freeze_eq]

/-- Every check passes on the honest values. -/
theorem checkRow_honest (hleval : zk.leval = 10) (hk : zk.k = 53)
    (hoi : ∀ i < zk.kVole, ∀ j < zk.voleLen, oi i j = ui i j + hi i * vi i j) {i : Nat}
    (hik : i < zk.kVole) :
    zk.checkRow checkGamma (zk.alignRows oi hi (zk.shifts state vi)) hi
      (zk.checkValues state ui checkGamma) i = true := by
  have hlen : zk.voleLen = 85 := by
    unfold voleLen
    rw [hleval, hk]
  have hrow : ∑ j ∈ range (zk.voleLen - 1),
        zk.alignRows oi hi (zk.shifts state vi) i j * checkGamma j
      = ∑ j ∈ range (zk.voleLen - 1), ui i j * checkGamma j
        + hi i * ∑ j ∈ range (zk.voleLen - 1), checkGamma j * (state j).coefs 1 := by
    rw [mul_sum, ← sum_add_distrib]
    refine sum_congr rfl fun j hj => ?_
    have hj := mem_range.mp hj
    rw [alignRows_eq hoi hik (by omega)]
    ring
  have hlast : zk.alignRows oi hi (zk.shifts state vi) i checkPos
      = ui i checkPos + hi i * (state checkPos).coefs 1 :=
    alignRows_eq hoi hik (by rw [hlen]; decide)
  unfold checkRow
  simp only [readFe25519_checkValues hik, readFe25519_checkValues_zero, checkCv_eq, checkCu_eq,
    Exact.dotProduct_eq, hrow, hlast, Exact.reduceAddSub_eq, Exact.neg_eq, Exact.freeze_eq,
    Exact.isZero_eq, decide_eq_true_eq]
  ring

/-- **One correlation under `Delta`.** -/
theorem keys_eq
    (hoi : ∀ i < zk.kVole, ∀ j < zk.voleLen, oi i j = ui i j + hi i * vi i j) {j : Nat}
    (hj : j < zk.voleLen) :
    zk.keys (zk.alignRows oi hi (zk.shifts (zk.proverState w ui prng) vi)) j
      = (zk.proverState w ui prng j).coefs 0
        + zk.delta hi * (zk.proverState w ui prng j).coefs 1 := by
  have hmac : (zk.proverState w ui prng j).coefs 0 = zk.macCoef ui j := rfl
  rw [keys, hmac, delta, macCoef, Exact.sumLoop_eq, Exact.sumLoop_eq, Exact.sumLoop_eq,
    Exact.reduceAddSub_eq, Exact.reduceAddSub_eq, Exact.setZero_eq, zero_add, zero_add, zero_add,
    sum_mul, ← sum_add_distrib]
  refine sum_congr rfl fun i hik => ?_
  rw [alignRows_eq hoi (mem_range.mp hik) hj]
  ring

/-- The verifier's members after the honest commitment. -/
def honestVerifier (zk : ZkParams) (w : Nat → Fp) (ui vi oi : Nat → Nat → Fp) (hi : Nat → Fp)
    (prng : Prng) : ZkVerifier Fp :=
  { state := zk.keys (zk.alignRows oi hi (zk.shifts (zk.proverState w ui prng) vi))
    Delta := zk.delta hi }

/-- **The honest commitment**: the checks pass, and nothing throws. -/
theorem commit_honest (thrown : OnThrow ((Nat → Poly Fp 1) × Prng)) (hleval : zk.leval = 10)
    (hk : zk.k = 53) (hfit : zk.multipliersFit = true)
    (hoi : ∀ i < zk.kVole, ∀ j < zk.voleLen, oi i j = ui i j + hi i * vi i j)
    (vprng prng : Prng) :
    Runs (zk.verifierCommit expand oi hi vprng) (zk.proverCommitOr expand thrown w ui vi prng)
      (true, zk.honestVerifier w ui vi oi hi prng, vprng.skip 16)
      (zk.proverState w ui prng, afterDraws prng 5) := by
  have hchecks : ∀ checkGamma : Nat → Fp,
      zk.checks checkGamma
        (zk.alignRows oi hi (zk.shifts (zk.proverState w ui prng) vi)) hi
        (zk.checkValues (zk.proverState w ui prng) ui checkGamma) = true := by
    intro checkGamma
    rw [checks, List.all_eq_true]
    exact fun i hik => checkRow_honest hleval hk hoi (List.mem_range.mp hik)
  unfold verifierCommit proverCommitOr
  rw [hfit]
  simp only [Proc.require_true, Proc.ret_bind]
  refine runs_recv_put ?_ ?_
  · rw [length_writeVecToBytes, length_grid, Nat.mul_comm]
  refine runs_sendBlock_recvBlockOr ?_
  refine runs_recv_put ?_ ?_
  · rw [length_writeVecToBytes, List.length_cons, List.length_map, List.length_range, Nat.mul_comm]
  have hvalue := hchecks (generateF25519VectorFromSeed expand vprng.getBlock.1)
  unfold checkValues shifts at hvalue
  rw [hvalue]
  exact runs_ret _ _

/-! ## The multipliers -/

/-- A multiplier inside its array is a power of two, whatever limb its bit falls into. -/
theorem multiplier_eq {i : Nat} (h : i * zk.smallSetBits / 8 < 32) :
    (zk.multiplier i : Fp) = 2 ^ (i * zk.smallSetBits) := by
  rw [multiplier, Exact.ofLimb_eq h, (zk.multiplier_is i).toNat_eq]
  conv_rhs => rw [← Nat.mod_add_div (i * zk.smallSetBits) 8, pow_add, pow_mul]
  norm_num

theorem multiplier_room (hroom : (zk.kVole - 1) * zk.smallSetBits < 256) {i : Nat}
    (hik : i < zk.kVole) : i * zk.smallSetBits / 8 < 32 := by
  have hle : i * zk.smallSetBits ≤ (zk.kVole - 1) * zk.smallSetBits :=
    Nat.mul_le_mul_right _ (by omega)
  omega

theorem multipliersFit_of_room (hroom : (zk.kVole - 1) * zk.smallSetBits < 256) :
    zk.multipliersFit = true := by
  rw [multipliersFit, List.all_eq_true]
  intro i hik
  exact decide_eq_true (multiplier_room hroom (List.mem_range.mp hik))

/-- `Delta` is the row of keys in base `2 ^ small_set_bits`. -/
theorem delta_eq (hroom : (zk.kVole - 1) * zk.smallSetBits < 256) :
    zk.delta hi = ∑ i ∈ range zk.kVole, 2 ^ (i * zk.smallSetBits) * hi i := by
  rw [delta, Exact.sumLoop_eq, Exact.reduceAddSub_eq, Exact.setZero_eq, zero_add]
  refine sum_congr rfl fun i hik => ?_
  rw [multiplier_eq (multiplier_room hroom (mem_range.mp hik))]

/-- **The commitment is correct**: whatever the schedule, the verifier ends with `good`, and its
state is the prover's polynomial at `Delta`, whose degree-1 coefficients are the witness. -/
theorem commit_correct (zk : ZkParams) (w hi : Nat → Fp) (ui vi oi : Nat → Nat → Fp)
    (vprng prng : Prng) (hleval : zk.leval = 10) (hk : zk.k = 53)
    (hroom : (zk.kVole - 1) * zk.smallSetBits < 256)
    (hoi : ∀ i < zk.kVole, ∀ j < zk.voleLen, oi i j = ui i j + hi i * vi i j) :
    ∃ (ver : ZkVerifier Fp) (state : Nat → Poly Fp 1),
      Completes (zk.verifierCommit expand oi hi vprng) (zk.proverCommit expand w ui vi prng)
          (true, ver, vprng.skip 16) (state, afterDraws prng 5) ∧
        ver.Delta = ∑ i ∈ range zk.kVole, 2 ^ (i * zk.smallSetBits) * hi i ∧
        (∀ j < zk.voleLen, ver.state j = (state j).coefs 0 + ver.Delta * (state j).coefs 1) ∧
        ∀ j < 79, (state j).coefs 1 = w j := by
  have hruns := commit_honest expand (w := w) uncaught hleval hk (multipliersFit_of_room hroom) hoi
    vprng prng
  refine ⟨_, _, hruns.completes, delta_eq hroom, fun j hj => keys_eq hoi hj, fun j hj => ?_⟩
  have hcoef : (zk.proverState w ui prng j).coefs 1 = witnessCoef w prng j := rfl
  rw [hcoef, witnessCoef]
  exact if_pos hj

/-- Windows of 10 bits, which do not start at a limb. -/
theorem commit_correct_example :
    let expand : Block → Nat → UInt8 := shiftedSeed
    let prng : Prng := ⟨fun i => UInt8.ofNat (3 * i), 0⟩
    let vprng : Prng := ⟨fun i => UInt8.ofNat (5 * i + 1), 32⟩
    let zk : ZkParams := ⟨10, 53, 10, 64⟩
    let w : Nat → Fp := fun j => j + 2
    let hi : Nat → Fp := fun i => 3 * i + 1
    let ui : Nat → Nat → Fp := fun i j => i + 2 * j + 1
    let vi : Nat → Nat → Fp := fun i j => i * j + 7
    let oi : Nat → Nat → Fp := fun i j => ui i j + hi i * vi i j
    ∃ (ver : ZkVerifier Fp) (state : Nat → Poly Fp 1),
      Completes (zk.verifierCommit expand oi hi vprng) (zk.proverCommit expand w ui vi prng)
          (true, ver, vprng.skip 16) (state, afterDraws prng 5) ∧
        ver.Delta = ∑ i ∈ range zk.kVole, 2 ^ (i * zk.smallSetBits) * hi i ∧
        (∀ j < zk.voleLen, ver.state j = (state j).coefs 0 + ver.Delta * (state j).coefs 1) ∧
        ∀ j < 79, (state j).coefs 1 = w j := by
  intro expand prng vprng zk w hi ui vi oi
  exact commit_correct expand zk w hi ui vi oi vprng prng rfl rfl (by decide) fun _ _ _ _ => rfl

end HocusPocus.ZkParams
