import HocusPocus.Params.DeltaPub
import Mathlib.Analysis.SpecialFunctions.Log.Base

/-!
# The parameter sweep may stop early

`fuzz_parameters_optimized` evaluates a bound for each `l_com` and `k`. It skips an `l_com` whose
largest `k` misses the target, and leaves the sweep over `k`, from `l_com` down, at the first miss.
The count behind the bound never grows with `k`, so neither loses a pair.

The logarithms of the script are real ones here, its `-inf` is the bottom of `WithBot ℝ`, and `none`
is a run that raises.

* `computeDeltaPubSize_anti`: the count never grows with `k`.
* `evaluateConfiguration_anti`: neither does the bound.
* `sweepLCom_eq`: the sweep with its prunings is the sweep without them.
-/

namespace HocusPocus.Dpub

open Arith Finset

/-! ## The script -/

/-- The default `success_threshold`, `2**-64`. -/
def successThreshold : ℚ := 1 / 2 ^ 64

/-- `evaluate_configuration`; `none` for a division by zero and for the logarithm of a number that
is not positive. -/
noncomputable def evaluateConfiguration (lCom k epsilon logp : Nat) : Option (WithBot ℝ × Nat) :=
  let cost := 3 * lCom + 290 * k
  (computeDeltaPubSize lCom k epsilon successThreshold).bind fun totalDeltas =>
    if totalDeltas = 0 then some (⊥, cost)
    else
      let log2Deltas := Real.logb 2 totalDeltas
      let log2Eps := Real.logb 2 epsilon
      if epsilon = 0 ∨ 2 ^ logp = lCom then none
      else
        let nu : ℝ := lCom / (2 ^ logp - lCom)
        if 1 / (epsilon : ℝ) + nu ≤ 0 then none
        else
          let wkcr : ℝ := 2 * log2Deltas + 2 * logp - 1 - log2Eps
            + lCom * Real.logb 2 (1 / epsilon + nu)
            + Real.logb 2 (1 + 2 * lCom / 2 ^ logp * (1 / epsilon + nu) ^ (-2 : ℤ))
          some (wkcr, cost)

/-- An entry of `valid_candidates`. -/
structure Candidate where
  lCom : Nat
  k : Nat
  wkcr : WithBot ℝ
  cost : Nat

section

variable (epsilon logp : Nat) (targetWkcr tolerance : ℝ)

open Classical in
/-- The loop over `k`: the candidates of one `l_com`. -/
noncomputable def sweepK (lCom : Nat) : List Nat → Option (List Candidate)
  | [] => some []
  | k :: ks =>
    (evaluateConfiguration lCom k epsilon logp).bind fun (wkcr, cost) =>
      if (targetWkcr : WithBot ℝ) < wkcr then some []
      else
        (sweepK lCom ks).map fun rest =>
          if wkcr ≤ targetWkcr ∧ ((targetWkcr - tolerance : ℝ) : WithBot ℝ) ≤ wkcr then
            { lCom, k, wkcr, cost } :: rest
          else rest

/-- The values of `k` for one `l_com`: more than half of it, from the largest on. -/
def kRange (lCom : Nat) : List Nat :=
  let minKAllowed := lCom / 2 + 1
  rangeDown lCom (minKAllowed - 1)

open Classical in
/-- The loop over `l_com`. -/
noncomputable def sweepLCom : List Nat → Option (List Candidate)
  | [] => some []
  | lCom :: lComs =>
    (evaluateConfiguration lCom lCom epsilon logp).bind fun (initialWkcr, _) =>
      if (targetWkcr : WithBot ℝ) < initialWkcr then sweepLCom lComs
      else
        (sweepK epsilon logp targetWkcr tolerance lCom (kRange lCom)).bind fun found =>
          (sweepLCom lComs).map fun rest => found ++ rest

/-- `fuzz_parameters_optimized`. -/
noncomputable def fuzzParametersOptimized : Option (List Candidate) :=
  let minLcom := 40
  let maxLcom := 120
  (sweepLCom epsilon logp targetWkcr tolerance
    (List.range' minLcom (maxLcom + 1 - minLcom))).map fun validCandidates =>
      validCandidates.mergeSort fun x y => x.cost ≤ y.cost

/-! ## The sweep without its prunings -/

open Classical in
/-- All candidates of one `l_com`. -/
noncomputable def allK (lCom : Nat) : List Nat → Option (List Candidate)
  | [] => some []
  | k :: ks =>
    (evaluateConfiguration lCom k epsilon logp).bind fun (wkcr, cost) =>
      (allK lCom ks).map fun rest =>
        if wkcr ≤ targetWkcr ∧ ((targetWkcr - tolerance : ℝ) : WithBot ℝ) ≤ wkcr then
          { lCom, k, wkcr, cost } :: rest
        else rest

/-- All candidates. -/
noncomputable def allLCom : List Nat → Option (List Candidate)
  | [] => some []
  | lCom :: lComs =>
    (allK epsilon logp targetWkcr tolerance lCom (kRange lCom)).bind fun found =>
      (allLCom lComs).map fun rest => found ++ rest

/-- Every pair of the grid is evaluated and kept when it lies in the window. -/
noncomputable def fuzzParameters : Option (List Candidate) :=
  (allLCom epsilon logp targetWkcr tolerance (List.range' 40 81)).map fun validCandidates =>
    validCandidates.mergeSort fun x y => x.cost ≤ y.cost

end

/-! ## The count -/

section

variable {K : Type*} [Field K] [LinearOrder K] [IsStrictOrderedRing K]
variable {lCom k epsilon : Nat}

/-- A sequence above the threshold for one more challenge is above it before. -/
theorem threshold_lt_of_succ {P : List Nat} (hsum : P.sum = lCom) (hk : k < lCom) {t : K}
    (h : t * lCom.descFactorial (k + 1) < computeCMax P (k + 1)) :
    t * lCom.descFactorial k < computeCMax P k := by
  have hle : (computeCMax P (k + 1) : K) ≤ computeCMax P k * (lCom - k : Nat) := by
    exact_mod_cast computeCMax_succ_le hsum hk
  have hpos : (0 : K) < (lCom - k : Nat) := by
    exact_mod_cast Nat.sub_pos_of_lt hk
  rw [Nat.descFactorial_succ, Nat.cast_mul] at h
  refine lt_of_mul_lt_mul_right ?_ hpos.le
  calc t * lCom.descFactorial k * (lCom - k : Nat)
      = t * ((lCom - k : Nat) * lCom.descFactorial k) := by ring
    _ < computeCMax P (k + 1) := h
    _ ≤ computeCMax P k * (lCom - k : Nat) := hle

/-- **The share of the challenges survived never grows with `k`.** -/
theorem computeCMax_div_anti {P : List Nat} (hsum : P.sum = lCom) (hk : k < lCom) :
    (computeCMax P (k + 1) : K) / lCom.descFactorial (k + 1)
      ≤ computeCMax P k / lCom.descFactorial k := by
  have hone : (0 : K) < lCom.descFactorial k := by
    exact_mod_cast Nat.descFactorial_pos.mpr hk.le
  have hsucc : (0 : K) < lCom.descFactorial (k + 1) := by
    exact_mod_cast Nat.descFactorial_pos.mpr hk
  rw [div_le_div_iff₀ hsucc hone, Nat.descFactorial_succ]
  exact_mod_cast (Nat.mul_le_mul_right _ (computeCMax_succ_le hsum hk)).trans (mul_assoc _ _ _).le

theorem publicDeltas_anti (hk : k < lCom) (t : K) :
    publicDeltas lCom (k + 1) epsilon (t * lCom.descFactorial (k + 1))
      ⊆ publicDeltas lCom k epsilon (t * lCom.descFactorial k) := by
  intro delta hdelta
  rw [publicDeltas, mem_filter_univ] at hdelta ⊢
  exact threshold_lt_of_succ (isPartition_sort delta).sum hk hdelta

/-- **The count never grows with `k`.** -/
theorem computeDeltaPubSize_anti (epsilon : Nat) {k' : Nat} (hk : k ≤ k') (hk' : k' ≤ lCom)
    (hl : 1 ≤ lCom)
    (t : K) : ∃ size size', computeDeltaPubSize lCom k epsilon t = some size ∧
      computeDeltaPubSize lCom k' epsilon t = some size' ∧ size' ≤ size := by
  refine ⟨_, _, computeDeltaPubSize_eq hl (hk.trans hk') t, computeDeltaPubSize_eq hl hk' t, ?_⟩
  refine card_le_card ?_
  induction k', hk using Nat.le_induction with
  | base => exact Subset.rfl
  | succ k' _ ih => exact (publicDeltas_anti hk' t).trans (ih (Nat.le_of_succ_le hk'))

end

/-! ## The bound -/

section

variable {lCom k k' epsilon logp : Nat} {targetWkcr tolerance : ℝ}

/-- **A miss stays a miss for fewer challenges.** -/
theorem evaluateConfiguration_anti (hk : k ≤ k') (hk' : k' ≤ lCom) (hl : 1 ≤ lCom)
    {wkcr' : WithBot ℝ} {cost' : Nat}
    (h : evaluateConfiguration lCom k' epsilon logp = some (wkcr', cost'))
    (hmiss : (targetWkcr : WithBot ℝ) < wkcr') :
    ∃ wkcr cost, evaluateConfiguration lCom k epsilon logp = some (wkcr, cost) ∧
      (targetWkcr : WithBot ℝ) < wkcr := by
  obtain ⟨size, size', hsize, hsize', hle⟩ :=
    computeDeltaPubSize_anti epsilon hk hk' hl successThreshold
  rw [evaluateConfiguration, hsize', Option.bind_some] at h
  by_cases hzero : size' = 0
  · rw [if_pos hzero] at h
    obtain ⟨rfl, -⟩ := Prod.mk.inj (Option.some.inj h)
    exact absurd hmiss not_lt_bot
  · rw [if_neg hzero] at h
    extract_lets log2_deltas' log2Eps nu at h
    by_cases hzdiv : epsilon = 0 ∨ 2 ^ logp = lCom
    · rw [if_pos hzdiv] at h
      exact absurd h (Option.some_ne_none _).symm
    · rw [if_neg hzdiv] at h
      by_cases hdomain : 1 / (epsilon : ℝ) + nu ≤ 0
      · rw [if_pos hdomain] at h
        exact absurd h (Option.some_ne_none _).symm
      · rw [if_neg hdomain] at h
        obtain ⟨rfl, -⟩ := Prod.mk.inj (Option.some.inj h)
        have hpos : 0 < size' := Nat.pos_of_ne_zero hzero
        rw [evaluateConfiguration, hsize, Option.bind_some, if_neg (hpos.trans_le hle).ne',
          if_neg hzdiv, if_neg hdomain]
        refine ⟨_, _, rfl, hmiss.trans_le (WithBot.coe_le_coe.mpr ?_)⟩
        have hlog : log2_deltas' ≤ Real.logb 2 size :=
          Real.logb_le_logb_of_le (by norm_num) (by exact_mod_cast hpos) (by exact_mod_cast hle)
        linarith

/-! ## The prunings -/

theorem rangeDown_cons {start stop : Nat} (h : stop < start) :
    rangeDown start stop = start :: rangeDown (start - 1) stop := by
  obtain ⟨n, hn⟩ : ∃ n, start - stop = n + 1 := ⟨start - stop - 1, by omega⟩
  rw [rangeDown, rangeDown, hn, List.range_succ_eq_map, List.map_cons, List.map_map,
    show start - 1 - stop = n by omega]
  exact congrArg _ (List.map_congr_left fun i _ => by rw [Function.comp_apply]; omega)

/-- No candidates where every value of `k` misses. -/
theorem allK_of_miss {ks : List Nat}
    (h : ∀ k ∈ ks, ∃ wkcr cost, evaluateConfiguration lCom k epsilon logp = some (wkcr, cost) ∧
      (targetWkcr : WithBot ℝ) < wkcr) :
    allK epsilon logp targetWkcr tolerance lCom ks = some [] := by
  induction ks with
  | nil => rfl
  | cons k ks ih =>
    obtain ⟨wkcr, cost, heval, hmiss⟩ := h k List.mem_cons_self
    rw [allK, heval, Option.bind_some]
    dsimp only
    rw [ih fun j hj => h j (List.mem_cons_of_mem k hj), Option.map_some,
      if_neg fun hin => not_lt.mpr hin.1 hmiss]

/-- **The break loses nothing.** -/
theorem sweepK_eq (hl : 1 ≤ lCom) {ks : List Nat} (hle : ∀ k ∈ ks, k ≤ lCom)
    (hsorted : ks.Pairwise fun i j => j < i) :
    sweepK epsilon logp targetWkcr tolerance lCom ks
      = allK epsilon logp targetWkcr tolerance lCom ks := by
  induction ks with
  | nil => rfl
  | cons k ks ih =>
    obtain ⟨hlt, hrest⟩ := List.pairwise_cons.mp hsorted
    rw [sweepK, allK]
    rcases heval : evaluateConfiguration lCom k epsilon logp with _ | ⟨wkcr, cost⟩
    · rfl
    · rw [Option.bind_some, Option.bind_some]
      dsimp only
      by_cases hmiss : (targetWkcr : WithBot ℝ) < wkcr
      · have hlater : ∀ j ∈ ks, ∃ wkcr cost,
            evaluateConfiguration lCom j epsilon logp = some (wkcr, cost) ∧
              (targetWkcr : WithBot ℝ) < wkcr := fun j hj =>
          evaluateConfiguration_anti (hlt j hj).le (hle k List.mem_cons_self) hl heval hmiss
        rw [if_pos hmiss, allK_of_miss hlater, Option.map_some,
          if_neg fun hin => not_lt.mpr hin.1 hmiss]
      · rw [if_neg hmiss, ih (fun j hj => hle j (List.mem_cons_of_mem k hj)) hrest]

/-- **The skip loses nothing.** -/
theorem sweepLCom_eq {lComs : List Nat} (hpos : ∀ lCom ∈ lComs, 1 ≤ lCom) :
    sweepLCom epsilon logp targetWkcr tolerance lComs
      = allLCom epsilon logp targetWkcr tolerance lComs := by
  induction lComs with
  | nil => rfl
  | cons lCom lComs ih =>
    have hl := hpos lCom List.mem_cons_self
    have hle : ∀ k ∈ kRange lCom, k ≤ lCom := fun k hk => (mem_rangeDown.mp hk).2
    rw [sweepLCom, allLCom, ih fun l hl => hpos l (List.mem_cons_of_mem lCom hl)]
    rcases heval : evaluateConfiguration lCom lCom epsilon logp with _ | ⟨wkcr, cost⟩
    · -- the sweep over `k` starts with the configuration that raises
      have hhead : kRange lCom = lCom :: rangeDown (lCom - 1) (lCom / 2) :=
        rangeDown_cons (by omega)
      rw [hhead, allK, heval]
      rfl
    · rw [Option.bind_some]
      dsimp only
      by_cases hmiss : (targetWkcr : WithBot ℝ) < wkcr
      · have hall : ∀ k ∈ kRange lCom, ∃ wkcr cost,
            evaluateConfiguration lCom k epsilon logp = some (wkcr, cost) ∧
              (targetWkcr : WithBot ℝ) < wkcr := fun k hk =>
          evaluateConfiguration_anti (hle k hk) le_rfl hl heval hmiss
        rw [if_pos hmiss, allK_of_miss hall, Option.bind_some]
        exact (Option.map_id_apply).symm
      · rw [if_neg hmiss, sweepK_eq hl hle (pairwise_rangeDown _ _)]

end

/-! ## Results -/

/-- **The sweep may stop early**: the share of the challenges a partition survives never grows with
`k`, so neither does the count; and the sweep with its skip and its break finds the candidates of
the whole grid. -/
theorem sweep_stops_early :
    (∀ (lCom k : Nat) (P : List Nat), P.sum = lCom → k < lCom →
      (computeCMax P (k + 1) : ℚ) / lCom.descFactorial (k + 1)
        ≤ computeCMax P k / lCom.descFactorial k) ∧
    (∀ (lCom k epsilon : Nat) (successThreshold : ℚ), 1 ≤ k → k < lCom →
      ∃ size size', computeDeltaPubSize lCom k epsilon successThreshold = some size ∧
        computeDeltaPubSize lCom (k + 1) epsilon successThreshold = some size' ∧ size' ≤ size) ∧
    ∀ (epsilon logp : Nat) (targetWkcr tolerance : ℝ),
      fuzzParametersOptimized epsilon logp targetWkcr tolerance
        = fuzzParameters epsilon logp targetWkcr tolerance := by
  refine ⟨fun lCom k P hsum hk => computeCMax_div_anti hsum hk, fun lCom k epsilon t hone hk => ?_,
    fun epsilon logp targetWkcr tolerance => ?_⟩
  · exact computeDeltaPubSize_anti epsilon (Nat.le_succ k) hk (hone.trans hk.le) t
  · have hpos : ∀ lCom ∈ List.range' 40 (120 + 1 - 40), 1 ≤ lCom := fun lCom hl =>
      (by norm_num : 1 ≤ 40).trans (List.mem_range'_1.mp hl).1
    rw [fuzzParametersOptimized, fuzzParameters, sweepLCom_eq hpos]

/-- From two challenges of three to all of them. -/
theorem sweep_stops_early_example :
    (computeCMax [2, 1] 3 : ℚ) / Nat.descFactorial 3 3
        ≤ computeCMax [2, 1] 2 / Nat.descFactorial 3 2 ∧
      ∃ size size', computeDeltaPubSize 3 2 781764 successThreshold = some size ∧
        computeDeltaPubSize 3 3 781764 successThreshold = some size' ∧ size' ≤ size :=
  ⟨sweep_stops_early.1 3 2 [2, 1] rfl (by omega),
    sweep_stops_early.2.1 3 2 781764 successThreshold (by omega) (by omega)⟩

end HocusPocus.Dpub
