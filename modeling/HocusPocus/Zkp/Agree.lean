import HocusPocus.Zkp.Constraints

/-!
# Prover and verifier fold the same constraints

Both programs are sums of homogenised constraints under one stream of scalars: the prover's
polynomial under every homogeneous evaluation, the verifier's accumulator at `Delta`. `Folded` says
so for a program that has used `n` scalars, and each block of the source moves it on by its own
constraints.

* `accumulator_eq_heval`: the verifier's accumulator is the prover's polynomial at `Delta`.
* `checkPoly_top`: the prover's top coefficient is the folded constraint sum.
* `verify_complete`: the verifier accepts every witness that satisfies the constraints.
-/

namespace HocusPocus.ZkParams

open Machine Duplex FieldOps Finset HocusPocus.Poly

/-! ## Folding -/

section

variable {A : Type} {φ : A → Fp} {rng : Prng} {base : Fp} {t : Nat → Fp} {n : Nat}
  {acc : A × Prng}

/-- Under `φ` the accumulator is `base` plus the first `n` terms, each with its scalar. -/
structure Folded (φ : A → Fp) (rng : Prng) (base : Fp) (t : Nat → Fp) (n : Nat)
    (acc : A × Prng) : Prop where
  rng_eq : acc.2 = afterDraws rng n
  sum_eq : φ acc.1 = base + ∑ i ∈ range n, draw rng i * t i

theorem folded_start (φ : A → Fp) (t : Nat → Fp) (rng : Prng) (a : A) :
    Folded φ rng (φ a) t 0 (a, rng) where
  rng_eq := rfl
  sum_eq := by rw [sum_range_zero, add_zero]

theorem Folded.base_eq {base' : Fp} (h : Folded φ rng base t n acc) (hb : base = base') :
    Folded φ rng base' t n acc := hb ▸ h

/-- One more scalar. -/
theorem Folded.next (h : Folded φ rng base t n acc) {step : A → Fp → A}
    (hstep : ∀ a s, φ (step a s) = φ a + s * t n) :
    Folded φ rng base t (n + 1) (foldNext acc step) where
  rng_eq := by
    unfold foldNext
    rw [h.rng_eq, randomFe25519_eq, afterDraws_afterDraws]
  sum_eq := by
    unfold foldNext
    rw [h.rng_eq, randomFe25519_eq, hstep, h.sum_eq, draw_afterDraws, sum_range_succ, add_assoc,
      Nat.add_zero]

/-- A loop of scalars. -/
theorem Folded.loop (h : Folded φ rng base t n acc) (m : Nat) {step : Nat → A → Fp → A}
    (hstep : ∀ i < m, ∀ a s, φ (step i a s) = φ a + s * t (n + i)) :
    Folded φ rng base t (n + m)
      ((List.range m).foldl (fun acc i => foldNext acc (step i)) acc) := by
  induction m with
  | zero => exact h
  | succ m ih =>
    rw [List.range_succ, List.foldl_append, List.foldl_cons, List.foldl_nil]
    exact (ih fun i hi => hstep i (by omega)).next (hstep m (by omega))

end

variable (expand : Block → Nat → UInt8) (zk : ZkParams)

/-! ## The prover -/

section

variable {x z : Fp} {state : Nat → Poly Fp 1} {stmt : Statement Fp} {s : Nat → Fp} {rng : Prng}
  {base : Fp} {acc : Poly Fp 5 × Prng} {n : Nat}

theorem heval_keyPlus (l : Fp) :
    heval x z (keyPlus state l) = heval x z (state kPos) + x * l := by
  have h0 : (keyPlus state l).coefs 0 = (state kPos).coefs 0 := rfl
  have h1 : (keyPlus state l).coefs 1 = (state kPos).coefs 1 + l := rfl
  rw [heval_degree_one, heval_degree_one, h0, h1]
  ring

/-- The loop of block 1. -/
theorem heval_proverInner (stmt : Statement Fp) (hs : ∀ j, heval x z (state j) = s j) :
    heval x z (zk.proverInner state stmt).1
        = ∑ j ∈ range zk.leval, stmt.gamma j * s (vOffset + j) * (s kPos + x * lPrime stmt j) ∧
      heval x z (zk.proverInner state stmt).2
        = ∑ j ∈ range zk.leval, stmt.gamma j * s (vOffset + j) := by
  unfold proverInner
  induction zk.leval with
  | zero => exact ⟨heval_setZero, heval_setZero⟩
  | succ m ih =>
    rw [List.range_succ, List.foldl_append, List.foldl_cons, List.foldl_nil, sum_range_succ,
      sum_range_succ]
    constructor
    · rw [heval_addAssign_self, ih.1, heval_mul, heval_mul, heval_const, heval_keyPlus, hs, hs]
    · rw [heval_addAssign_self, ih.2, heval_mul, heval_const, hs]

theorem proverBlock1_folded (stmt : Statement Fp) (rng : Prng)
    (hs : ∀ j, heval x z (state j) = s j) :
    Folded (heval x z) rng (zk.homogenised (withoutConstants stmt) 0 x s 1)
      (fun i => zk.homogenised (withoutConstants stmt) 0 x s (i + 2)) 1
      (zk.proverBlock1 state stmt rng) := by
  obtain ⟨hu, hv⟩ := zk.heval_proverInner stmt hs
  have hfirst : heval x z ((Poly.setZero : Poly Fp 5).addAssign (shiftUp 5
        ((zk.proverInner state stmt).1.addAssign (shiftUp 2 (state ruPos)))))
      = zk.homogenised (withoutConstants stmt) 0 x s 1 := by
    rw [heval_addAssign_self, heval_setZero, heval_shiftUp (by norm_num), heval_addAssign_self,
      heval_shiftUp (by norm_num), hu, hs, homogenised, if_pos rfl]
    simp only [withoutConstants_gamma, withoutConstants_cu, lPrime_withoutConstants]
    ring
  have hstart := folded_start (heval x z)
    (fun i => zk.homogenised (withoutConstants stmt) 0 x s (i + 2)) rng
    ((Poly.setZero : Poly Fp 5).addAssign (shiftUp 5
        ((zk.proverInner state stmt).1.addAssign (shiftUp 2 (state ruPos)))))
  rw [hfirst] at hstart
  unfold proverBlock1
  refine hstart.next fun a c => ?_
  rw [heval_addAssign_self, heval_shiftUp (by norm_num), heval_mul, heval_const,
    heval_addAssign_self, hv, hs, homogenised, if_neg (by norm_num), if_pos rfl]
  simp only [withoutConstants_gamma, withoutConstants_cv]
  ring

theorem proverBlock2_folded (hs : ∀ j, heval x z (state j) = s j)
    (h : Folded (heval x z) rng base
      (fun i => zk.homogenised (withoutConstants stmt) 0 x s (i + 2)) 1 acc) :
    Folded (heval x z) rng base
      (fun i => zk.homogenised (withoutConstants stmt) 0 x s (i + 2)) (1 + zk.k)
      (zk.proverBlock2 state stmt acc) := by
  refine h.loop zk.k fun i hi a c => ?_
  rw [heval_subAssign_self, heval_shiftUp (by norm_num), heval_mul, heval_const, heval_mul,
    heval_keyPlus, hs, hs, homogenised, if_neg (by omega), if_neg (by omega), if_pos (by omega),
    show 1 + i + 2 - 3 = i by omega, withoutConstants_mm, lc_withoutConstants]
  ring

/-- The terms of the prover. -/
def proverTerm (zk : ZkParams) (stmt : Statement Fp) (x : Fp) (s : Nat → Fp) (i : Nat) : Fp :=
  zk.homogenised (withoutConstants stmt) 0 x s (i + 2)

/-- After the first `k + 1` scalars the terms are those of `C[56]` on. -/
theorem proverTerm_late (i : Nat) :
    zk.proverTerm stmt x s (1 + zk.k + i) = lateHomogenised 0 x s i := by
  rw [proverTerm, homogenised, if_neg (by omega), if_neg (by omega), if_neg (by omega),
    show 1 + zk.k + i + 2 - (zk.k + 3) = i by omega]

theorem heval_proverProduct (hs : ∀ j, heval x z (state j) = s j) (j : Nat) :
    heval x z (proverProduct state j) = s j * s (j + 1) * s (j + 2) * s (j + 3) * s (j + 4) := by
  unfold proverProduct
  rw [heval_mul, heval_mul, heval_mul, heval_mul, hs, hs, hs, hs, hs]

theorem heval_proverPow5 (hs : ∀ j, heval x z (state j) = s j) (j : Nat) :
    heval x z (proverPow5 state j) = s j ^ 5 := by
  unfold proverPow5
  rw [heval_mul, heval_mul, heval_mul, hs]
  ring

theorem proverBlock3_folded (hs : ∀ j, heval x z (state j) = s j)
    (h : Folded (heval x z) rng base (zk.proverTerm stmt x s) (1 + zk.k) acc) :
    Folded (heval x z) rng base (zk.proverTerm stmt x s) (1 + zk.k + 2)
      (proverBlock3 state acc) := by
  unfold proverBlock3
  refine (h.next fun a c => ?_).next fun a c => ?_
  · rw [heval_addAssign_self, heval_mul, heval_const, heval_reduce, heval_subAssign_self,
      heval_shiftUp (by norm_num), heval_proverProduct hs, hs, ← Nat.add_zero (1 + zk.k),
      proverTerm_late, lateHomogenised, if_pos rfl]
  · rw [heval_addAssign_self, heval_mul, heval_const, heval_reduce, heval_subAssign_self,
      heval_shiftUp (by norm_num), heval_proverProduct hs, hs, proverTerm_late, lateHomogenised,
      if_neg one_ne_zero, if_pos rfl]

theorem proverBlock4_folded (hs : ∀ j, heval x z (state j) = s j)
    (h : Folded (heval x z) rng base (zk.proverTerm stmt x s) (1 + zk.k + 2) acc) :
    Folded (heval x z) rng base (zk.proverTerm stmt x s) (1 + zk.k + 10)
      (proverBlock4 state acc) := by
  refine h.loop 8 fun i hi a c => ?_
  rw [heval_addAssign_self, heval_mul, heval_const, heval_subAssign_self,
    heval_shiftUp (by norm_num), heval_proverPow5 hs, hs, Nat.add_assoc (1 + zk.k), proverTerm_late,
    lateHomogenised, if_neg (by omega), if_neg (by omega), if_pos (by omega),
    show 2 + i - 1 = i + 1 by omega, show 2 + i - 2 = i by omega]

theorem proverBlock5_folded (hs : ∀ j, heval x z (state j) = s j)
    (h : Folded (heval x z) rng base (zk.proverTerm stmt x s) (1 + zk.k + 10) acc) :
    Folded (heval x z) rng base (zk.proverTerm stmt x s) (1 + zk.k + 11)
      (proverBlock5 state acc) := by
  unfold proverBlock5
  refine h.next fun a c => ?_
  rw [heval_addAssign_self, heval_mul, heval_const, heval_subAssign_self,
    heval_shiftUp (by norm_num), heval_mul, heval_mul, heval_mul, heval_mul, hs, hs, hs, hs,
    proverTerm_late, lateHomogenised, if_neg (by norm_num), if_neg (by norm_num),
    if_neg (by norm_num), if_pos rfl]
  ring

theorem proverBlock6_folded (hs : ∀ j, heval x z (state j) = s j)
    (h : Folded (heval x z) rng base (zk.proverTerm stmt x s) (1 + zk.k + 11) acc) :
    Folded (heval x z) rng base (zk.proverTerm stmt x s) (1 + zk.k + 12)
      (proverBlock6 state acc) := by
  unfold proverBlock6
  refine h.next fun a c => ?_
  rw [heval_addAssign_self, heval_shiftUp (by norm_num), heval_mul, heval_const,
    heval_subAssign_self, heval_shiftUp (by norm_num), heval_mul, heval_mul, heval_mul, heval_mul,
    hs, hs, hs, hs, hs, proverTerm_late, lateHomogenised, if_neg (by norm_num),
    if_neg (by norm_num), if_neg (by norm_num), if_neg (by norm_num), if_pos rfl]
  ring

theorem proverBlock7_folded (hs : ∀ j, heval x z (state j) = s j)
    (h : Folded (heval x z) rng base (zk.proverTerm stmt x s) (1 + zk.k + 12) acc) :
    Folded (heval x z) rng base (zk.proverTerm stmt x s) (1 + zk.k + 13)
      (proverBlock7 state acc) := by
  unfold proverBlock7
  refine h.next fun a c => ?_
  rw [heval_addAssign_self, heval_shiftUp (by norm_num), heval_mul, heval_const, heval_mul,
    heval_mul, heval_mul, hs, hs, hs, hs, proverTerm_late, lateHomogenised, if_neg (by norm_num),
    if_neg (by norm_num), if_neg (by norm_num), if_neg (by norm_num), if_neg (by norm_num)]
  ring

/-- **The prover folds every constraint, without the public constants.** -/
theorem proverFold_folded (hs : ∀ j, heval x z (state j) = s j) :
    Folded (heval x z) rng (zk.homogenised (withoutConstants stmt) 0 x s 1)
      (zk.proverTerm stmt x s) zk.scalars (zk.proverFold state stmt rng) := by
  have h := zk.proverBlock7_folded hs (zk.proverBlock6_folded hs (zk.proverBlock5_folded hs
    (zk.proverBlock4_folded hs (zk.proverBlock3_folded hs (zk.proverBlock2_folded hs
      (zk.proverBlock1_folded stmt rng hs))))))
  rw [show 1 + zk.k + 13 = zk.scalars by unfold scalars; omega] at h
  exact h

/-- The masks of `check_poly`. -/
def maskTerm (x z : Fp) (s : Nat → Fp) : Fp :=
  z ^ 4 * s maskPos + z ^ 3 * (x * s (maskPos + 1)) + z ^ 2 * (x ^ 2 * s (maskPos + 2))
    + z * (x ^ 3 * s (maskPos + 3))

theorem heval_proverMasks (hs : ∀ j, heval x z (state j) = s j) (p : Poly Fp 5) :
    heval x z (proverMasks state p) = heval x z p + maskTerm x z s := by
  unfold proverMasks maskTerm
  rw [heval_addAssign (by norm_num), heval_addAssign (by norm_num), heval_addAssign (by norm_num),
    heval_addAssign (by norm_num), heval_shiftUp (by norm_num), heval_shiftUp (by norm_num),
    heval_shiftUp (by norm_num), hs, hs, hs, hs]
  ring

/-- **`check_poly` under a homogeneous evaluation.** -/
theorem heval_checkPoly (hs : ∀ j, heval x z (state j) = s j) :
    heval x z (zk.checkPoly state stmt rng)
      = zk.homogenised (withoutConstants stmt) 0 x s 1
        + ∑ i ∈ range zk.scalars, draw rng i * zk.proverTerm stmt x s i + maskTerm x z s := by
  rw [checkPoly, heval_reduce, heval_proverMasks hs, (zk.proverFold_folded hs).sum_eq]

end

/-! ## The verifier -/

section

variable {ver : ZkVerifier Fp} {stmt : Statement Fp} {rng : Prng} {base : Fp} {acc : Fp × Prng}

/-- The terms of the verifier. -/
def verifierTerm (zk : ZkParams) (stmt : Statement Fp) (ver : ZkVerifier Fp) (i : Nat) : Fp :=
  zk.homogenised stmt 1 ver.Delta ver.state (i + 2)

theorem verifierTerm_late (i : Nat) :
    zk.verifierTerm stmt ver (1 + zk.k + i) = lateHomogenised 1 ver.Delta ver.state i := by
  rw [verifierTerm, homogenised, if_neg (by omega), if_neg (by omega), if_neg (by omega),
    show 1 + zk.k + i + 2 - (zk.k + 3) = i by omega]

theorem deltaTwo_eq (ver : ZkVerifier Fp) : deltaTwo ver = ver.Delta ^ 2 := by
  unfold deltaTwo
  ring

theorem deltaThree_eq (ver : ZkVerifier Fp) : deltaThree ver = ver.Delta ^ 3 := by
  unfold deltaThree
  rw [deltaTwo_eq]
  ring

theorem deltaFour_eq (ver : ZkVerifier Fp) : deltaFour ver = ver.Delta ^ 4 := by
  unfold deltaFour
  rw [deltaTwo_eq]
  ring

/-- The loop of block 1. -/
theorem verifierInner_eq (ver : ZkVerifier Fp) (stmt : Statement Fp) :
    (zk.verifierInner ver stmt).1
        = ∑ j ∈ range zk.leval, stmt.gamma j * ver.state (vOffset + j)
            * (ver.state kPos + ver.Delta * lPrime stmt j) ∧
      (zk.verifierInner ver stmt).2
        = ∑ j ∈ range zk.leval, stmt.gamma j * ver.state (vOffset + j) := by
  unfold verifierInner
  induction zk.leval with
  | zero => exact ⟨Exact.setZero_eq, Exact.setZero_eq⟩
  | succ m ih =>
    rw [List.range_succ, List.foldl_append, List.foldl_cons, List.foldl_nil, sum_range_succ,
      sum_range_succ, ih.1, ih.2]
    exact ⟨rfl, rfl⟩

theorem verifierBlock1_folded (ver : ZkVerifier Fp) (stmt : Statement Fp) (rng : Prng) :
    Folded id rng (zk.homogenised stmt 1 ver.Delta ver.state 1) (zk.verifierTerm stmt ver) 1
      (zk.verifierBlock1 ver stmt rng) := by
  obtain ⟨hu, hv⟩ := zk.verifierInner_eq ver stmt
  unfold verifierBlock1
  refine ((folded_start id _ rng _).next fun a c => ?_).base_eq ?_
  · rw [hv, deltaFour_eq, verifierTerm, homogenised, if_neg (by norm_num), if_pos rfl]
    simp only [id]
    ring
  · rw [id, hu, deltaTwo_eq, deltaThree_eq, homogenised, if_pos rfl]
    ring

theorem verifierBlock2_folded (h : Folded id rng base (zk.verifierTerm stmt ver) 1 acc) :
    Folded id rng base (zk.verifierTerm stmt ver) (1 + zk.k) (zk.verifierBlock2 ver stmt acc) := by
  refine h.loop zk.k fun i hi a c => ?_
  rw [deltaTwo_eq, deltaThree_eq, verifierTerm, homogenised, if_neg (by omega),
    if_neg (by omega), if_pos (by omega), show 1 + i + 2 - 3 = i by omega]
  simp only [id]
  ring

theorem verifierProduct_eq (j : Nat) :
    verifierProduct ver j = ver.state j * ver.state (j + 1) * ver.state (j + 2)
      * ver.state (j + 3) * ver.state (j + 4) := rfl

theorem verifierBlock3_folded
    (h : Folded id rng base (zk.verifierTerm stmt ver) (1 + zk.k) acc) :
    Folded id rng base (zk.verifierTerm stmt ver) (1 + zk.k + 2) (verifierBlock3 ver acc) := by
  unfold verifierBlock3
  refine (h.next fun a c => ?_).next fun a c => ?_
  · rw [deltaFour_eq, verifierProduct_eq, ← Nat.add_zero (1 + zk.k), verifierTerm_late,
      lateHomogenised, if_pos rfl]
    simp only [id]
    ring
  · rw [deltaFour_eq, verifierProduct_eq, verifierTerm_late, lateHomogenised, if_neg one_ne_zero,
      if_pos rfl]
    simp only [id]
    ring

theorem verifierBlock4_folded
    (h : Folded id rng base (zk.verifierTerm stmt ver) (1 + zk.k + 2) acc) :
    Folded id rng base (zk.verifierTerm stmt ver) (1 + zk.k + 10) (verifierBlock4 ver acc) := by
  refine h.loop 8 fun i hi a c => ?_
  rw [deltaFour_eq, Nat.add_assoc (1 + zk.k), verifierTerm_late, lateHomogenised,
    if_neg (by omega), if_neg (by omega), if_pos (by omega), show 2 + i - 1 = i + 1 by omega,
    show 2 + i - 2 = i by omega]
  simp only [id]
  ring

theorem verifierBlock5_folded
    (h : Folded id rng base (zk.verifierTerm stmt ver) (1 + zk.k + 10) acc) :
    Folded id rng base (zk.verifierTerm stmt ver) (1 + zk.k + 11) (verifierBlock5 ver acc) := by
  unfold verifierBlock5
  refine h.next fun a c => ?_
  rw [deltaFour_eq, verifierTerm_late, lateHomogenised, if_neg (by norm_num),
    if_neg (by norm_num), if_neg (by norm_num), if_pos rfl]
  simp only [id]
  ring

theorem verifierBlock6_folded
    (h : Folded id rng base (zk.verifierTerm stmt ver) (1 + zk.k + 11) acc) :
    Folded id rng base (zk.verifierTerm stmt ver) (1 + zk.k + 12) (verifierBlock6 ver acc) := by
  unfold verifierBlock6
  refine h.next fun a c => ?_
  rw [deltaThree_eq, verifierTerm_late, lateHomogenised, if_neg (by norm_num),
    if_neg (by norm_num), if_neg (by norm_num), if_neg (by norm_num), if_pos rfl]
  simp only [id]
  ring

theorem verifierBlock7_folded
    (h : Folded id rng base (zk.verifierTerm stmt ver) (1 + zk.k + 12) acc) :
    Folded id rng base (zk.verifierTerm stmt ver) (1 + zk.k + 13) (verifierBlock7 ver acc) := by
  unfold verifierBlock7
  refine h.next fun a c => ?_
  rw [deltaFour_eq, verifierTerm_late, lateHomogenised, if_neg (by norm_num),
    if_neg (by norm_num), if_neg (by norm_num), if_neg (by norm_num), if_neg (by norm_num)]
  simp only [id]
  ring

/-- **The verifier folds every constraint, at `Delta`.** -/
theorem verifierFold_folded (ver : ZkVerifier Fp) (stmt : Statement Fp) (rng : Prng) :
    Folded id rng (zk.homogenised stmt 1 ver.Delta ver.state 1) (zk.verifierTerm stmt ver)
      zk.scalars (zk.verifierFold ver stmt rng) := by
  have h := zk.verifierBlock7_folded (zk.verifierBlock6_folded (zk.verifierBlock5_folded
    (zk.verifierBlock4_folded (zk.verifierBlock3_folded (zk.verifierBlock2_folded
      (zk.verifierBlock1_folded ver stmt rng))))))
  rw [show 1 + zk.k + 13 = zk.scalars by unfold scalars; omega] at h
  exact h

/-- **The verifier's accumulator.** -/
theorem accumulator_eq :
    zk.accumulator ver stmt rng
      = zk.homogenised stmt 1 ver.Delta ver.state 1
        + ∑ i ∈ range zk.scalars, draw rng i * zk.verifierTerm stmt ver i
        + maskTerm ver.Delta 1 ver.state := by
  have hfold := (zk.verifierFold_folded ver stmt rng).sum_eq
  unfold accumulator verifierMasks maskTerm
  rw [id] at hfold
  rw [hfold, deltaTwo_eq, deltaThree_eq, Exact.reduceAddSub_eq, Exact.freeze_eq]
  ring

end

/-! ## Agreement -/

section

variable {state : Nat → Poly Fp 1} {ver : ZkVerifier Fp} {stmt : Statement Fp} {rng : Prng}

/-- The terms of the two sides differ in the public constants only. -/
theorem verifierTerm_eq {i : Nat} (hi : i < zk.scalars) :
    zk.verifierTerm stmt ver i
      = zk.proverTerm stmt ver.Delta ver.state i
        + ver.Delta ^ 5 * zk.publicConstant stmt (i + 2) := by
  unfold scalars at hi
  exact zk.homogenised_split stmt ver.Delta ver.state (by omega)

/-- The accumulator for a state that is the value of the prover's everywhere. -/
theorem accumulator_eq_heval_of_eq (hs : ∀ j, heval ver.Delta 1 (state j) = ver.state j) :
    zk.accumulator ver stmt rng
      = heval ver.Delta 1 (zk.checkPoly state stmt rng)
        + ver.Delta ^ 5 * zk.publicConstants stmt (draw rng) := by
  have hsum : ∑ i ∈ range zk.scalars, draw rng i * zk.verifierTerm stmt ver i
      = ∑ i ∈ range zk.scalars, draw rng i * zk.proverTerm stmt ver.Delta ver.state i
        + ver.Delta ^ 5 * ∑ i ∈ range zk.scalars, draw rng i * zk.publicConstant stmt (i + 2) := by
    rw [mul_sum, ← sum_add_distrib]
    refine sum_congr rfl fun i hi => ?_
    rw [zk.verifierTerm_eq (mem_range.mp hi)]
    ring
  rw [accumulator_eq, zk.heval_checkPoly hs, hsum,
    zk.homogenised_split stmt ver.Delta ver.state (by omega), publicConstants]
  ring

/-- The accumulator reads the entries before `check_pos` only. -/
theorem accumulator_congr (hleval : zk.leval = 10) (hk : zk.k = 53) {ver' : ZkVerifier Fp}
    (hstate : ∀ j < checkPos, ver.state j = ver'.state j) (hDelta : ver.Delta = ver'.Delta) :
    zk.accumulator ver stmt rng = zk.accumulator ver' stmt rng := by
  have hlate : ∀ j < maskPos, ver.state j = ver'.state j := fun j hj =>
    hstate j (hj.trans_le (by decide))
  have hterm : ∀ i, zk.verifierTerm stmt ver i = zk.verifierTerm stmt ver' i := fun i => by
    rw [verifierTerm, verifierTerm, hDelta, zk.homogenised_congr stmt hleval hk hlate]
  rw [accumulator_eq, accumulator_eq, sum_congr rfl fun i _ => by rw [hterm i], hDelta,
    zk.homogenised_congr stmt hleval hk hlate]
  unfold maskTerm
  rw [hstate maskPos (by decide), hstate (maskPos + 1) (by decide),
    hstate (maskPos + 2) (by decide), hstate (maskPos + 3) (by decide)]

/-- **The verifier's accumulator is the prover's polynomial at `Delta`**, up to the public
constants. -/
theorem accumulator_eq_heval (hleval : zk.leval = 10) (hk : zk.k = 53)
    (hstate : ∀ j < zk.voleLen, ver.state j = (state j).coefs 0 + ver.Delta * (state j).coefs 1) :
    zk.accumulator ver stmt rng
      = heval ver.Delta 1 (zk.checkPoly state stmt rng)
        + ver.Delta ^ 5 * zk.publicConstants stmt (draw rng) := by
  let ver' : ZkVerifier Fp := ⟨fun j => heval ver.Delta 1 (state j), ver.Delta⟩
  have hlt : ∀ j < checkPos, j < zk.voleLen := fun j hj => by
    unfold checkPos maskPos at hj
    unfold voleLen
    omega
  have hstate' : ∀ j < checkPos, ver.state j = ver'.state j := fun j hj => by
    have hvalue : ver'.state j = heval ver.Delta 1 (state j) := rfl
    rw [hstate j (hlt j hj), hvalue, heval_degree_one]
    ring
  have hcongr : zk.accumulator ver stmt rng = zk.accumulator ver' stmt rng :=
    zk.accumulator_congr hleval hk hstate' rfl
  have hvalue : zk.accumulator ver' stmt rng
      = heval ver.Delta 1 (zk.checkPoly state stmt rng)
        + ver.Delta ^ 5 * zk.publicConstants stmt (draw rng) :=
    zk.accumulator_eq_heval_of_eq fun _ => rfl
  rw [hcongr, hvalue]

/-- **The top coefficient of `check_poly`** is the folded constraint sum, up to the public
constants. -/
theorem checkPoly_top (state : Nat → Poly Fp 1) (stmt : Statement Fp) (rng : Prng) :
    (zk.checkPoly state stmt rng).coefs 5 + zk.publicConstants stmt (draw rng)
      = zk.foldedSum stmt (fun j => (state j).coefs 1) (draw rng) := by
  have hs : ∀ j, heval 1 0 (state j) = (state j).coefs 1 := fun j => heval_one_zero (state j)
  have hterm : ∀ i < zk.k + 16,
      zk.homogenised (withoutConstants stmt) 0 1 (fun j => (state j).coefs 1) i
        + zk.publicConstant stmt i
      = sign i * zk.constraint stmt (fun j => (state j).coefs 1) i := fun i hi => by
    rw [← zk.homogenised_one, zk.homogenised_split stmt 1 _ hi, one_pow, one_mul]
  have hmask : maskTerm 1 0 (fun j => (state j).coefs 1) = 0 := by
    unfold maskTerm
    ring
  have hsum : ∑ i ∈ range zk.scalars,
        draw rng i * zk.proverTerm stmt 1 (fun j => (state j).coefs 1) i
        + ∑ i ∈ range zk.scalars, draw rng i * zk.publicConstant stmt (i + 2)
      = ∑ i ∈ range zk.scalars, draw rng i
          * (sign (i + 2) * zk.constraint stmt (fun j => (state j).coefs 1) (i + 2)) := by
    rw [← sum_add_distrib]
    refine sum_congr rfl fun i hi => ?_
    have hi := mem_range.mp hi
    unfold scalars at hi
    rw [← hterm (i + 2) (by omega), proverTerm, mul_add]
  rw [← heval_one_zero, zk.heval_checkPoly hs, hmask, publicConstants, foldedSum,
    ← hterm 1 (by omega), ← hsum]
  ring

/-- Horner's rule. -/
theorem horner_eq (buffer : Bytes) :
    horner ver buffer = ∑ i ∈ range 5, readFe25519 buffer i * ver.Delta ^ i := by
  unfold horner
  simp only [Exact.reduceAddSub_eq, Exact.freeze_eq, List.range_succ, List.range_zero,
    List.nil_append, List.foldl_append, List.foldl_cons, List.foldl_nil, sum_range_succ,
    sum_range_zero]
  ring

/-- The verifier accepts exactly the polynomials that agree with its accumulator at `Delta`. -/
theorem accepts_iff (buffer : Bytes) :
    zk.accepts ver stmt rng buffer = true ↔
      ∑ i ∈ range 5, readFe25519 buffer i * ver.Delta ^ i = zk.accumulator ver stmt rng := by
  unfold accepts
  rw [horner_eq, Exact.reduceAddSub_eq, Exact.freeze_eq, Exact.isZero_eq, decide_eq_true_eq,
    sub_eq_zero]

/-- The five coefficients the prover sends. -/
def proof (zk : ZkParams) (state : Nat → Poly Fp 1) (stmt : Statement Fp) (rng : Prng) : Bytes :=
  writeVecToBytes ((List.range 5).map (zk.checkPoly state stmt rng).coefs)

theorem readFe25519_proof {i : Nat} (hi : i < 5) :
    readFe25519 (zk.proof state stmt rng) i = (zk.checkPoly state stmt rng).coefs i := by
  rw [proof, readFe25519_writeVecToBytes _ (by simpa using hi), List.getElem_map,
    List.getElem_range]

/-- **The verifier accepts the prover's coefficients when the folded sum is 0.** -/
theorem accepts_proof (hleval : zk.leval = 10) (hk : zk.k = 53)
    (hstate : ∀ j < zk.voleLen, ver.state j = (state j).coefs 0 + ver.Delta * (state j).coefs 1)
    (hzero : zk.foldedSum stmt (fun j => (state j).coefs 1) (draw rng) = 0) :
    zk.accepts ver stmt rng (zk.proof state stmt rng) = true := by
  have htop := zk.checkPoly_top state stmt rng
  have hread : ∑ i ∈ range 5, readFe25519 (zk.proof state stmt rng) i * ver.Delta ^ i
      = ∑ i ∈ range 5, (zk.checkPoly state stmt rng).coefs i * ver.Delta ^ i :=
    sum_congr rfl fun i hi => by rw [zk.readFe25519_proof (mem_range.mp hi)]
  rw [hzero] at htop
  rw [accepts_iff, zk.accumulator_eq_heval hleval hk hstate, heval_one, hread, sum_range_succ _ 5]
  linear_combination (-ver.Delta ^ 5) * htop

/-- Constraints that hold fold to 0. -/
theorem foldedSum_eq_zero {w : Nat → Fp} (s : Nat → Fp)
    (hw : ∀ i, 1 ≤ i → i ≤ zk.k + 15 → zk.constraint stmt w i = 0) :
    zk.foldedSum stmt w s = 0 := by
  unfold foldedSum
  rw [hw 1 le_rfl (by omega), mul_zero, zero_add]
  refine sum_eq_zero fun i hi => ?_
  have hi := mem_range.mp hi
  unfold scalars at hi
  rw [hw (i + 2) (by omega) (by omega), mul_zero, mul_zero]

/-- A run of `verify` against `prove`: the verifier ends with the comparison on the prover's
coefficients. -/
theorem runs_verify_prove (thrown : OnThrow (Bool × Prng)) (thrown' : OnThrow Unit)
    (state : Nat → Poly Fp 1) (ver : ZkVerifier Fp)
    (hfit : zk.offsetsFit stmt.offsets stmt.c = true) (prng : Prng) :
    Runs (zk.verifyOr expand thrown ver stmt.gamma stmt.mm (some stmt.cu) (some stmt.cv)
        stmt.offsets stmt.c prng)
      (zk.proveOr expand state stmt thrown')
      (zk.accepts ver stmt (Prng.ofSeed expand prng.getBlock.1)
        (zk.proof state stmt (Prng.ofSeed expand prng.getBlock.1)), prng.skip 16) () := by
  unfold verifyOr proveOr
  refine runs_sendBlock_recvBlockOr ?_
  rw [hfit]
  simp only [Proc.require_true, Proc.ret_bind, Proc.ofOption_some]
  rw [← bind_pure (Proc.put _)]
  refine runs_recvOr_put ?_ ?_
  · rw [length_writeVecToBytes, List.length_map, List.length_range, Nat.mul_comm]
  · exact runs_ret _ _

/-- **Prover and verifier agree**: on a witness that satisfies every constraint the coefficient 5
of `check_poly` and the public constants cancel, and whatever the schedule `verify` ends with
`valid` on what `prove` sends. -/
theorem verify_complete (hleval : zk.leval = 10) (hk : zk.k = 53) (state : Nat → Poly Fp 1)
    (ver : ZkVerifier Fp) (stmt : Statement Fp) (prng : Prng)
    (hstate : ∀ j < zk.voleLen, ver.state j = (state j).coefs 0 + ver.Delta * (state j).coefs 1)
    (hfit : zk.offsetsFit stmt.offsets stmt.c = true)
    (hw : ∀ i, 1 ≤ i → i ≤ zk.k + 15 → zk.constraint stmt (fun j => (state j).coefs 1) i = 0) :
    (zk.checkPoly state stmt (Prng.ofSeed expand prng.getBlock.1)).coefs 5
        + zk.publicConstants stmt (draw (Prng.ofSeed expand prng.getBlock.1)) = 0 ∧
      Completes
        (zk.verify expand ver stmt.gamma stmt.mm (some stmt.cu) (some stmt.cv) stmt.offsets stmt.c
          prng)
        (zk.prove expand state stmt) (true, prng.skip 16) () := by
  have hzero := zk.foldedSum_eq_zero (draw (Prng.ofSeed expand prng.getBlock.1)) hw
  constructor
  · rw [checkPoly_top, hzero]
  · have hrun := zk.runs_verify_prove expand uncaught uncaught state ver hfit prng
    rw [zk.accepts_proof hleval hk hstate hzero] at hrun
    exact hrun.completes

/-- A witness of ones, with 63 offsets. -/
theorem verify_complete_example :
    let expand : Block → Nat → UInt8 := shiftedSeed
    let prng : Prng := ⟨fun i => UInt8.ofNat (3 * i), 0⟩
    let zk : ZkParams := ⟨10, 53, 8, 64⟩
    let state : Nat → Poly Fp 1 := fun j => ⟨fun n => if n = 1 then 1 else j⟩
    let ver : ZkVerifier Fp := ⟨fun j => j + 7, 7⟩
    let offsets : List Fp := (List.range 63).map fun i => (i + 2 : Fp)
    let c : Bytes := (List.range 53).map UInt8.ofNat
    let stmt : Statement Fp :=
      { gamma := fun j => j
        mm := fun i => 1 + offsets.getD (10 + (c.getD i 0).toNat) setZero
        cu := 1 + ∑ j ∈ range 10, (j : Fp) * (1 + offsets.getD j setZero)
        cv := 1 + ∑ j ∈ range 10, (j : Fp)
        offsets, c }
    (zk.checkPoly state stmt (Prng.ofSeed expand prng.getBlock.1)).coefs 5
        + zk.publicConstants stmt (draw (Prng.ofSeed expand prng.getBlock.1)) = 0 ∧
      Completes
        (zk.verify expand ver stmt.gamma stmt.mm (some stmt.cu) (some stmt.cv) stmt.offsets stmt.c
          prng)
        (zk.prove expand state stmt) (true, prng.skip 16) () := by
  intro expand prng zk state ver offsets c stmt
  have hw1 : (fun j => (state j).coefs 1) = fun _ => 1 := rfl
  refine verify_complete expand zk rfl rfl state ver stmt prng (fun j _ => ?_) ?_
    fun i h1 h68 => ?_
  · have h0 : (state j).coefs 0 = j := rfl
    have h1 : (state j).coefs 1 = 1 := rfl
    rw [h0, h1, mul_one]
  · have hlen : offsets.length = 63 := by simp [offsets]
    unfold offsetsFit
    rw [hlen]
    decide
  · rw [hw1]
    unfold constraint lateConstraint
    have hk : zk.k = 53 := rfl
    have hl : zk.leval = 10 := rfl
    have hlc : ∀ i, stmt.mm i = 1 + zk.lc stmt i := fun _ => rfl
    have hcu : stmt.cu = 1 + ∑ j ∈ range 10, (j : Fp) * (1 + lPrime stmt j) := rfl
    have hcv : stmt.cv = 1 + ∑ j ∈ range 10, (j : Fp) := rfl
    have hgamma : ∀ j, stmt.gamma j = j := fun _ => rfl
    simp only [hk, hl, hlc, hcu, hcv, hgamma, mul_one, one_mul, one_pow, add_sub_cancel_left,
      sub_self, ite_self]

end

end HocusPocus.ZkParams
