import HocusPocus.Zkp.Commit
import Mathlib.Algebra.Field.ZMod

/-!
# The masks hide the witness

What the prover sends, for a fixed view of the verifier: its rows, its keys and the shift it was
sent. The rows of the prover are then those of its witness and masks, and each of the five masks is
the only one in one value that is sent.

* `coefs_checkPoly`: the masks in the coefficients of `check_poly`.
* `hidden_bijective`: `cv` and the coefficients 1 to 4 are a bijective image of the masks.
* `messages_eq_iff`: every other value sent is a function of these and the view.
-/

namespace HocusPocus.ZkParams

open Machine FieldOps Finset HocusPocus.Poly

variable {zk : ZkParams}

/-! ## The prover under a view -/

/-- What the verifier holds: its rows, its keys and the shift it was sent. -/
structure View where
  oi : Nat → Nat → Fp
  hi : Nat → Fp
  shift : Nat → Nat → Fp

/-- The degree-1 coefficients: `witnessCoef` with the masks `A`. -/
def maskedCoef (w : Nat → Fp) (A : Fin 5 → Fp) (j : Nat) : Fp :=
  if j < maskPos then w j
  else if j < checkPos then A (Fin.ofNat 5 (j - maskPos))
  else setZero

namespace View

variable (view : View) (f : Nat → Fp)

/-- The rows of the verifier after the shift. -/
def rows (i j : Nat) : Fp := view.oi i j + view.hi i * view.shift i j

/-- The verifier after `commit_to_witness`. -/
def verifier (zk : ZkParams) : ZkVerifier Fp :=
  { state := zk.keys view.rows, Delta := zk.delta view.hi }

/-- `vi` of a prover whose degree-1 coefficients are `f`. -/
def vi (i j : Nat) : Fp := f j - view.shift i j

/-- `ui` of that prover. -/
def ui (i j : Nat) : Fp := view.oi i j - view.hi i * view.vi f i j

/-- `state` of that prover. -/
def state (zk : ZkParams) (j : Nat) : Poly Fp 1 :=
  ⟨fun n => if n = 0 then zk.macCoef (view.ui f) j else f j⟩

end View

section

variable {view : View} {f : Nat → Fp} {w : Nat → Fp} {A : Fin 5 → Fp} {stmt : Statement Fp}
  {checkGamma : Nat → Fp} {rng : Prng}

theorem maskedCoef_of_lt {j : Nat} (hj : j < maskPos) : maskedCoef w A j = w j := if_pos hj

theorem maskedCoef_mask (i : Fin 5) : maskedCoef w A (maskPos + i) = A i := by
  have hlt : maskPos + i.val < checkPos := Nat.add_lt_add_left i.isLt maskPos
  rw [maskedCoef, if_neg (Nat.not_lt.mpr (Nat.le_add_right _ _)), if_pos hlt,
    Nat.add_sub_cancel_left]
  exact congrArg A (Fin.ext (Nat.mod_eq_of_lt i.isLt))

theorem maskedCoef_check : maskedCoef w A checkPos = 0 := by
  rw [maskedCoef, if_neg (by decide), if_neg (lt_irrefl _), Exact.setZero_eq]

/-- The masks of `commit_to_witness` are the next five draws. -/
theorem witnessCoef_eq (w : Nat → Fp) (prng : Prng) :
    witnessCoef w prng = maskedCoef w fun i => draw prng i := by
  funext j
  unfold witnessCoef maskedCoef
  split_ifs with hw hmask
  · rfl
  · have hlt : j - maskPos < 5 := by
      unfold checkPos at hmask
      omega
    exact congrArg (draw prng) (Nat.mod_eq_of_lt hlt).symm
  · rfl

/-- **`state` of `commit_to_witness`** on the rows of the view. -/
theorem proverState_eq (w : Nat → Fp) (prng : Prng) :
    zk.proverState w (view.ui (maskedCoef w fun i => draw prng i)) prng
      = view.state (maskedCoef w fun i => draw prng i) zk := by
  funext j
  rw [proverState, View.state, witnessCoef_eq]

theorem coefs_one_state (j : Nat) : (view.state f zk j).coefs 1 = f j := rfl

theorem ui_eq (i j : Nat) : view.ui f i j = view.rows i j - view.hi i * f j := by
  rw [View.ui, View.vi, View.rows]
  ring

/-- **The MACs of the prover** are the verifier's values less `Delta` times the coefficients. -/
theorem coefs_zero_state (j : Nat) :
    (view.state f zk j).coefs 0
      = (view.verifier zk).state j - (view.verifier zk).Delta * (view.state f zk j).coefs 1 := by
  have hmac : (view.state f zk j).coefs 0 = zk.macCoef (view.ui f) j := rfl
  have hstate : (view.verifier zk).state j = zk.keys view.rows j := rfl
  have hDelta : (view.verifier zk).Delta = zk.delta view.hi := rfl
  rw [hmac, hstate, hDelta, coefs_one_state, macCoef, keys, delta, Exact.sumLoop_eq,
    Exact.sumLoop_eq, Exact.sumLoop_eq, Exact.reduceAddSub_eq, Exact.reduceAddSub_eq,
    Exact.setZero_eq, zero_add, zero_add, zero_add, sum_mul, ← sum_sub_distrib]
  refine sum_congr rfl fun i _ => ?_
  rw [ui_eq]
  ring

/-! ## What is folded does not read the masks -/

section

variable {state state' : Nat → Poly Fp 1}

theorem keyPlus_congr (h : ∀ j < maskPos, state j = state' j) :
    keyPlus state = keyPlus state' := by
  funext l
  unfold keyPlus
  rw [h kPos (by decide)]

theorem proverBlock1_congr (hleval : zk.leval = 10) (h : ∀ j < maskPos, state j = state' j) :
    zk.proverBlock1 state stmt rng = zk.proverBlock1 state' stmt rng := by
  have hinner : zk.proverInner state stmt = zk.proverInner state' stmt := by
    unfold proverInner
    refine List.foldl_ext _ _ _ fun acc i hi => ?_
    have hi := List.mem_range.mp hi
    rw [h (vOffset + i) (by unfold vOffset maskPos; omega), keyPlus_congr h]
  unfold proverBlock1
  rw [hinner, h ruPos (by decide), h rvPos (by decide)]

theorem proverBlock2_congr (hk : zk.k = 53) (h : ∀ j < maskPos, state j = state' j)
    (acc : Poly Fp 5 × Prng) :
    zk.proverBlock2 state stmt acc = zk.proverBlock2 state' stmt acc := by
  unfold proverBlock2
  refine List.foldl_ext _ _ _ fun acc i hi => ?_
  have hi := List.mem_range.mp hi
  rw [h (bOffset + i) (by unfold bOffset maskPos; omega), keyPlus_congr h]

theorem proverProduct_congr (h : ∀ j < maskPos, state j = state' j) {j : Nat} (hj : j ≤ 6) :
    proverProduct state j = proverProduct state' j := by
  have hlt : ∀ i ≤ 10, state i = state' i := fun i hi => h i (by unfold maskPos; omega)
  unfold proverProduct
  rw [hlt j (by omega), hlt (j + 1) (by omega), hlt (j + 2) (by omega), hlt (j + 3) (by omega),
    hlt (j + 4) (by omega)]

/-- **Blocks 1 to 7 read the witness only.** -/
theorem proverFold_congr (hleval : zk.leval = 10) (hk : zk.k = 53)
    (h : ∀ j < maskPos, state j = state' j) :
    zk.proverFold state stmt rng = zk.proverFold state' stmt rng := by
  have hy : ∀ i ≤ 8, state (yOffset + i) = state' (yOffset + i) := fun i hi =>
    h _ (by unfold yOffset maskPos; omega)
  have hblock4 : ∀ acc, proverBlock4 state acc = proverBlock4 state' acc := fun acc => by
    unfold proverBlock4 proverPow5
    refine List.foldl_ext _ _ _ fun acc i hi => ?_
    have hi := List.mem_range.mp hi
    rw [hy (i + 1) (by omega), hy i (by omega)]
  unfold proverFold proverBlock3 proverBlock5 proverBlock6 proverBlock7
  rw [proverBlock1_congr hleval h, proverBlock2_congr hk h, hblock4,
    proverProduct_congr h (by decide), proverProduct_congr h (by decide), h c0Pos (by decide),
    h c1Pos (by decide), h a0Pos (by decide), h a1Pos (by decide), h yOffset (by decide),
    hy 1 (by omega), hy 3 (by omega), hy 4 (by omega), hy 8 (by omega)]

end

/-! ## The masks in what is sent -/

theorem state_congr {f' : Nat → Fp} {j : Nat} (h : f j = f' j) :
    view.state f zk j = view.state f' zk j := by
  unfold View.state macCoef
  simp only [ui_eq, h]

/-- The four masks in the coefficients they are added to. -/
theorem coefs_proverMasks (state : Nat → Poly Fp 1) (p : Poly Fp 5) :
    (proverMasks state p).coefs 1
        = p.coefs 1 + (state maskPos).coefs 1 + (state (maskPos + 1)).coefs 0 ∧
      (proverMasks state p).coefs 2
        = p.coefs 2 + (state (maskPos + 1)).coefs 1 + (state (maskPos + 2)).coefs 0 ∧
      (proverMasks state p).coefs 3
        = p.coefs 3 + (state (maskPos + 2)).coefs 1 + (state (maskPos + 3)).coefs 0 ∧
      (proverMasks state p).coefs 4 = p.coefs 4 + (state (maskPos + 3)).coefs 1 := by
  simp [proverMasks, addAssign, shiftUp, Exact.setZero_eq]

/-- The coefficient 1 to 4 of `check_poly` without the masks of the prover: blocks 1 to 7, and the
verifier's value of the next mask. -/
def unmasked (zk : ZkParams) (view : View) (stmt : Statement Fp) (rng : Prng) (w : Nat → Fp)
    (n : Nat) : Fp :=
  (zk.proverFold (view.state w zk) stmt rng).1.coefs n
    + if n < 4 then (view.verifier zk).state (maskPos + n) else 0

/-- **The masks in the coefficients**: each is added to one coefficient and, times `Delta`, taken
from the coefficient below. -/
theorem coefs_checkPoly (hleval : zk.leval = 10) (hk : zk.k = 53) (view : View)
    (stmt : Statement Fp) (rng : Prng) (w : Nat → Fp) (A : Fin 5 → Fp) :
    let checkPoly := zk.checkPoly (view.state (maskedCoef w A) zk) stmt rng
    let Delta := (view.verifier zk).Delta
    checkPoly.coefs 1 = zk.unmasked view stmt rng w 1 + A 0 - Delta * A 1 ∧
      checkPoly.coefs 2 = zk.unmasked view stmt rng w 2 + A 1 - Delta * A 2 ∧
      checkPoly.coefs 3 = zk.unmasked view stmt rng w 3 + A 2 - Delta * A 3 ∧
      checkPoly.coefs 4 = zk.unmasked view stmt rng w 4 + A 3 := by
  intro checkPoly Delta
  have hfold : zk.proverFold (view.state (maskedCoef w A) zk) stmt rng
      = zk.proverFold (view.state w zk) stmt rng :=
    proverFold_congr hleval hk fun j hj => state_congr (maskedCoef_of_lt hj)
  have hreduce : ∀ n, checkPoly.coefs n
      = (proverMasks (view.state (maskedCoef w A) zk)
          (zk.proverFold (view.state w zk) stmt rng).1).coefs n := fun n => by
    rw [← hfold]
    exact (Exact.freeze_eq _).trans (Exact.reduceAddSub_eq _)
  have h0 : maskedCoef w A maskPos = A 0 := maskedCoef_mask 0
  have h1 : maskedCoef w A (maskPos + 1) = A 1 := maskedCoef_mask 1
  have h2 : maskedCoef w A (maskPos + 2) = A 2 := maskedCoef_mask 2
  have h3 : maskedCoef w A (maskPos + 3) = A 3 := maskedCoef_mask 3
  obtain ⟨hc1, hc2, hc3, hc4⟩ := coefs_proverMasks (view.state (maskedCoef w A) zk)
    (zk.proverFold (view.state w zk) stmt rng).1
  simp only [hreduce, hc1, hc2, hc3, hc4, coefs_zero_state, coefs_one_state, h0, h1, h2, h3,
    unmasked]
  refine ⟨?_, ?_, ?_, ?_⟩
  · rw [if_pos (by norm_num)]
    ring
  · rw [if_pos (by norm_num)]
    ring
  · rw [if_pos (by norm_num)]
    ring
  · rw [if_neg (by norm_num), add_zero]

/-- The masks in `cv`. -/
theorem checkCv_masked (hleval : zk.leval = 10) (hk : zk.k = 53) (w : Nat → Fp)
    (A : Fin 5 → Fp) :
    zk.checkCv (view.state (maskedCoef w A) zk) checkGamma
      = ∑ j ∈ range maskPos, checkGamma j * w j
        + ∑ i : Fin 5, checkGamma (maskPos + i) * A i := by
  have hlen : zk.voleLen - 1 = maskPos + 5 := by
    unfold voleLen maskPos
    omega
  have hwitness : ∑ j ∈ range maskPos, checkGamma j * maskedCoef w A j
      = ∑ j ∈ range maskPos, checkGamma j * w j :=
    sum_congr rfl fun j hj => by rw [maskedCoef_of_lt (mem_range.mp hj)]
  have hmasks : ∑ i ∈ range 5, checkGamma (maskPos + i) * maskedCoef w A (maskPos + i)
      = ∑ i : Fin 5, checkGamma (maskPos + i) * A i := by
    rw [sum_range]
    exact sum_congr rfl fun i _ => by rw [maskedCoef_mask]
  simp only [checkCv_eq, coefs_one_state]
  rw [maskedCoef_check, zero_add, hlen, sum_range_add, hwitness, hmasks]

/-- `cv` and the coefficients 1 to 4 of `check_poly`. -/
def hidden (zk : ZkParams) (view : View) (stmt : Statement Fp) (checkGamma : Nat → Fp)
    (rng : Prng) (w : Nat → Fp) (A : Fin 5 → Fp) : Fin 5 → Fp :=
  let state := view.state (maskedCoef w A) zk
  let checkPoly := zk.checkPoly state stmt rng
  ![zk.checkCv state checkGamma, checkPoly.coefs 1, checkPoly.coefs 2, checkPoly.coefs 3,
    checkPoly.coefs 4]

/-- **The masks are what hides these five values.** -/
theorem hidden_bijective (hleval : zk.leval = 10) (hk : zk.k = 53)
    (hgamma : checkGamma (maskPos + 4) ≠ 0) (w : Nat → Fp) :
    Function.Bijective (zk.hidden view stmt checkGamma rng w) := by
  refine Finite.injective_iff_bijective.mp fun A B hAB => ?_
  obtain ⟨hA1, hA2, hA3, hA4⟩ := coefs_checkPoly hleval hk view stmt rng w A
  obtain ⟨hB1, hB2, hB3, hB4⟩ := coefs_checkPoly hleval hk view stmt rng w B
  -- from the top coefficient down, then the fifth mask from `cv`
  have h3 : A 3 = B 3 := by
    have h := hA4.symm.trans ((congrFun hAB 4).trans hB4)
    linear_combination h
  have h2 : A 2 = B 2 := by
    have h := hA3.symm.trans ((congrFun hAB 3).trans hB3)
    linear_combination h + (view.verifier zk).Delta * h3
  have h1 : A 1 = B 1 := by
    have h := hA2.symm.trans ((congrFun hAB 2).trans hB2)
    linear_combination h + (view.verifier zk).Delta * h2
  have h0 : A 0 = B 0 := by
    have h := hA1.symm.trans ((congrFun hAB 1).trans hB1)
    linear_combination h + (view.verifier zk).Delta * h1
  have h4 : A 4 = B 4 := by
    have h := (checkCv_masked hleval hk w A).symm.trans
      ((congrFun hAB 0).trans (checkCv_masked hleval hk w B))
    rw [Fin.sum_univ_five, Fin.sum_univ_five, h0, h1, h2, h3] at h
    exact mul_left_cancel₀ hgamma (add_left_cancel (add_left_cancel h))
  funext i
  fin_cases i
  · exact h0
  · exact h1
  · exact h2
  · exact h3
  · exact h4

/-! ## Everything that is sent -/

/-- The messages of the prover: the shift, the values of the consistency check, the proof. -/
def messages (zk : ZkParams) (view : View) (stmt : Statement Fp) (checkGamma : Nat → Fp)
    (rng : Prng) (w : Nat → Fp) (A : Fin 5 → Fp) : List Bytes :=
  let f := maskedCoef w A
  let state := view.state f zk
  [zk.shifts state (view.vi f), zk.checkValues state (view.ui f) checkGamma,
    zk.proof state stmt rng]

/-- The shift is that of the view. -/
theorem shifts_state (f : Nat → Fp) :
    zk.shifts (view.state f zk) (view.vi f)
      = writeVecToBytes (grid zk.kVole zk.voleLen view.shift) := by
  have hshift : derandomised (view.state f zk) (view.vi f) = view.shift := by
    funext i j
    rw [derandomised, coefs_one_state, View.vi, Exact.reduceAddSub_eq, Exact.freeze_eq,
      sub_sub_cancel]
  rw [shifts, hshift]

/-- The other values of the consistency check follow from `cv`. -/
theorem checkCu_state (f : Nat → Fp) (i : Nat) :
    zk.checkCu (view.ui f) checkGamma i
      = view.rows i checkPos + ∑ j ∈ range (zk.voleLen - 1), view.rows i j * checkGamma j
        - view.hi i * zk.checkCv (view.state f zk) checkGamma := by
  have hsum : ∑ j ∈ range (zk.voleLen - 1), view.ui f i j * checkGamma j
      = ∑ j ∈ range (zk.voleLen - 1), view.rows i j * checkGamma j
        - view.hi i * ∑ j ∈ range (zk.voleLen - 1), checkGamma j * f j := by
    rw [mul_sum, ← sum_sub_distrib]
    refine sum_congr rfl fun j _ => ?_
    rw [ui_eq]
    ring
  rw [checkCu_eq, checkCv_eq, hsum, ui_eq]
  simp only [coefs_one_state]
  ring

/-- **Coefficient 0** is what the verifier's accumulator leaves for it. -/
theorem coefs_zero_checkPoly (hleval : zk.leval = 10) (hk : zk.k = 53)
    (hw : ∀ i, 1 ≤ i → i ≤ zk.k + 15 → zk.constraint stmt w i = 0) (A : Fin 5 → Fp) :
    (zk.checkPoly (view.state (maskedCoef w A) zk) stmt rng).coefs 0
      = zk.accumulator (view.verifier zk) stmt rng
        - ∑ i ∈ range 4, (zk.checkPoly (view.state (maskedCoef w A) zk) stmt rng).coefs (i + 1)
            * (view.verifier zk).Delta ^ (i + 1) := by
  have hconstraint : ∀ i, 1 ≤ i → i ≤ zk.k + 15 →
      zk.constraint stmt (fun j => (view.state (maskedCoef w A) zk j).coefs 1) i = 0 :=
    fun i h1 hi => by
      rw [← hw i h1 hi]
      exact zk.constraint_congr stmt hleval hk (fun j hj => maskedCoef_of_lt hj) i
  have hstate : ∀ j < zk.voleLen, (view.verifier zk).state j
      = (view.state (maskedCoef w A) zk j).coefs 0
        + (view.verifier zk).Delta * (view.state (maskedCoef w A) zk j).coefs 1 := fun j _ => by
    rw [coefs_zero_state]
    ring
  have htop := zk.checkPoly_top (view.state (maskedCoef w A) zk) stmt rng
  rw [zk.foldedSum_eq_zero _ hconstraint] at htop
  rw [zk.accumulator_eq_heval hleval hk hstate, heval_one, sum_range_succ _ 5, sum_range_succ' _ 4]
  linear_combination (-(view.verifier zk).Delta ^ 5) * htop

/-- **Everything that is sent follows from the five values.** -/
theorem messages_eq_iff (hleval : zk.leval = 10) (hk : zk.k = 53) {w' : Nat → Fp}
    {A' : Fin 5 → Fp} (hw : ∀ i, 1 ≤ i → i ≤ zk.k + 15 → zk.constraint stmt w i = 0)
    (hw' : ∀ i, 1 ≤ i → i ≤ zk.k + 15 → zk.constraint stmt w' i = 0) :
    zk.messages view stmt checkGamma rng w A = zk.messages view stmt checkGamma rng w' A' ↔
      zk.hidden view stmt checkGamma rng w A = zk.hidden view stmt checkGamma rng w' A' := by
  constructor
  · intro h
    simp only [messages, List.cons.injEq, and_true] at h
    obtain ⟨-, hvalues, hproof⟩ := h
    have hcv := congrArg (readFe25519 · 0 : Bytes → Fp) hvalues
    simp only [readFe25519_checkValues_zero] at hcv
    have hcoef : ∀ i < 5, (zk.checkPoly (view.state (maskedCoef w A) zk) stmt rng).coefs i
        = (zk.checkPoly (view.state (maskedCoef w' A') zk) stmt rng).coefs i := fun i hi => by
      have hread := congrArg (readFe25519 · i : Bytes → Fp) hproof
      simp only [zk.readFe25519_proof hi] at hread
      exact hread
    simp only [hidden, hcv, hcoef 1 (by norm_num), hcoef 2 (by norm_num), hcoef 3 (by norm_num),
      hcoef 4 (by norm_num)]
  · intro h
    have hcv : zk.checkCv (view.state (maskedCoef w A) zk) checkGamma
        = zk.checkCv (view.state (maskedCoef w' A') zk) checkGamma := congrFun h 0
    have hcoef : ∀ i < 4, (zk.checkPoly (view.state (maskedCoef w A) zk) stmt rng).coefs (i + 1)
        = (zk.checkPoly (view.state (maskedCoef w' A') zk) stmt rng).coefs (i + 1) := by
      intro i hi
      interval_cases i
      · exact congrFun h 1
      · exact congrFun h 2
      · exact congrFun h 3
      · exact congrFun h 4
    have hzero : (zk.checkPoly (view.state (maskedCoef w A) zk) stmt rng).coefs 0
        = (zk.checkPoly (view.state (maskedCoef w' A') zk) stmt rng).coefs 0 := by
      rw [coefs_zero_checkPoly hleval hk hw, coefs_zero_checkPoly hleval hk hw']
      refine congrArg (_ - ·) (sum_congr rfl fun i hi => ?_)
      rw [hcoef i (mem_range.mp hi)]
    have hproof : (List.range 5).map (zk.checkPoly (view.state (maskedCoef w A) zk) stmt rng).coefs
        = (List.range 5).map (zk.checkPoly (view.state (maskedCoef w' A') zk) stmt rng).coefs := by
      refine List.map_congr_left fun i hi => ?_
      cases i with
      | zero => exact hzero
      | succ i => exact hcoef i (Nat.lt_of_succ_lt_succ (List.mem_range.mp hi))
    have hvalues : (List.range zk.kVole).map (zk.checkCu (view.ui (maskedCoef w A)) checkGamma)
        = (List.range zk.kVole).map (zk.checkCu (view.ui (maskedCoef w' A')) checkGamma) :=
      List.map_congr_left fun i _ => by rw [checkCu_state, checkCu_state, hcv]
    simp only [messages, shifts_state, checkValues, proof, hcv, hvalues, hproof]

end

/-- **Perfect masking**: under one view of the verifier, and for two witnesses of one statement,
`commit_to_witness` leaves the state of the view with the masks it drew, the masks and the five
values are in bijection, coefficient 0 follows from the view, and whatever is sent under one witness
is sent under the other with exactly one choice of the masks. -/
theorem masks_perfect (zk : ZkParams) (hleval : zk.leval = 10) (hk : zk.k = 53) (view : View)
    (stmt : Statement Fp) (checkGamma : Nat → Fp) (hgamma : checkGamma (maskPos + 4) ≠ 0)
    (rng : Prng) (w w' : Nat → Fp)
    (hw : ∀ i, 1 ≤ i → i ≤ zk.k + 15 → zk.constraint stmt w i = 0)
    (hw' : ∀ i, 1 ≤ i → i ≤ zk.k + 15 → zk.constraint stmt w' i = 0) :
    (∀ prng : Prng, zk.proverState w (view.ui (maskedCoef w fun i => draw prng i)) prng
        = view.state (maskedCoef w fun i => draw prng i) zk) ∧
      (∀ A j, (view.state (maskedCoef w A) zk j).coefs 0
        = (view.verifier zk).state j
          - (view.verifier zk).Delta * (view.state (maskedCoef w A) zk j).coefs 1) ∧
      Function.Bijective (zk.hidden view stmt checkGamma rng w) ∧
      (∀ A, (zk.checkPoly (view.state (maskedCoef w A) zk) stmt rng).coefs 0
        = zk.accumulator (view.verifier zk) stmt rng
          - ∑ i ∈ range 4, (zk.checkPoly (view.state (maskedCoef w A) zk) stmt rng).coefs (i + 1)
              * (view.verifier zk).Delta ^ (i + 1)) ∧
      ∀ A, ∃! A', zk.messages view stmt checkGamma rng w' A'
        = zk.messages view stmt checkGamma rng w A := by
  refine ⟨proverState_eq w, fun A j => coefs_zero_state j, hidden_bijective hleval hk hgamma w,
    coefs_zero_checkPoly hleval hk hw, fun A => ?_⟩
  simp only [messages_eq_iff hleval hk hw' hw]
  exact (hidden_bijective hleval hk hgamma w').existsUnique _

/-- Two witnesses: ones, and with a 2 and its inverse among the `v`. -/
theorem masks_perfect_example :
    let zk : ZkParams := ⟨10, 53, 8, 64⟩
    let offsets : List Fp := (List.range 63).map fun i => (i + 2 : Fp)
    let c : Bytes := (List.range 53).map UInt8.ofNat
    let stmt : Statement Fp :=
      { gamma := fun _ => 0, mm := fun i => 1 + offsets.getD (10 + (c.getD i 0).toNat) setZero
        cu := 1, cv := 1, offsets, c }
    let view : View := ⟨fun i j => i + j, fun i => i + 1, fun i j => i * j⟩
    let w' : Nat → Fp := fun j => if j = 1 then 2 else if j = 2 then 2⁻¹ else 1
    (1 : Fp) ≠ 0 ∧ ∀ A, ∃! A',
      zk.messages view stmt (fun _ => 1) ⟨fun i => UInt8.ofNat (3 * i), 0⟩ w' A'
        = zk.messages view stmt (fun _ => 1) ⟨fun i => UInt8.ofNat (3 * i), 0⟩ (fun _ => 1) A := by
  intro zk offsets c stmt view w'
  have hlc : ∀ i, stmt.mm i = 1 + zk.lc stmt i := fun _ => rfl
  have hk : zk.k = 53 := rfl
  have hl : zk.leval = 10 := rfl
  have hgamma : ∀ j, stmt.gamma j = 0 := fun _ => rfl
  have hcu : stmt.cu = 1 := rfl
  have hcv : stmt.cv = 1 := rfl
  refine ⟨one_ne_zero, (masks_perfect zk rfl rfl view stmt (fun _ => 1) one_ne_zero _ (fun _ => 1)
    w' (fun i h1 hi => ?_) fun i h1 hi => ?_).2.2.2.2⟩
  · unfold constraint lateConstraint
    simp only [hk, hl, hlc, hcu, hcv, hgamma, mul_one, one_mul, zero_mul, sum_const_zero, one_pow,
      sub_self, ite_self]
  · have hK : w' kPos = 1 := rfl
    have hv0 : w' vOffset = 2 := rfl
    have hv1 : w' (vOffset + 1) = 2⁻¹ := rfl
    have hone : ∀ j, 3 ≤ j → w' j = 1 := fun j hj => by
      simp only [w']
      rw [if_neg (by omega), if_neg (by omega)]
    have hlate : ∀ pos j, 3 ≤ pos → w' (pos + j) = 1 := fun pos j hpos =>
      hone _ (hpos.trans (Nat.le_add_right _ _))
    unfold constraint lateConstraint
    simp only [hk, hl, hlc, hcu, hcv, hgamma, hK, hv0, hv1, hone ruPos (by decide),
      hone rvPos (by decide), hone c0Pos (by decide), hone c1Pos (by decide),
      hone a0Pos (by decide), hone a1Pos (by decide), hone yOffset (by decide),
      hone (vOffset + 2) (by decide), hone (vOffset + 3) (by decide),
      hone (vOffset + 4) (by decide), hone (vOffset + 5) (by decide),
      hone (vOffset + 6) (by decide), hone (vOffset + 7) (by decide),
      hone (vOffset + 8) (by decide), hone (vOffset + 9) (by decide),
      hlate bOffset _ (by decide), hlate yOffset _ (by decide), mul_inv_cancel₀ fp_two_ne_zero,
      mul_one, one_mul, zero_mul, sum_const_zero, one_pow, sub_self, ite_self]

end HocusPocus.ZkParams
