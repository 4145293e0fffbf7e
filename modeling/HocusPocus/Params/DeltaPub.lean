import HocusPocus.Params.Dpub
import HocusPocus.Arith.Arrangements
import Mathlib.Data.Multiset.Sort
import Mathlib.Algebra.Order.Ring.Rat

/-!
# The pruned count is the plain count

`compute_delta_pub_size` adds, for each partition above the threshold, the number of sequences with
these multiplicities: the symbols that get the multiplicities, times the arrangements of the
symbols. Its two products of factorials divide exactly, and the partitions after the early stop are
below the threshold.

* `divFactorials_exact`: floor divisions by factors of a product.
* `card_multiplicities_eq`: the term the script adds for a partition.
* `deltaLoop_eq`: a run of the loop adds the terms above the threshold.
* `computeDeltaPubSize_correct`: the count of the sequences.
-/

namespace HocusPocus.Dpub

open Arith Finset

/-- Each division of `divFactorials` is exact. -/
def ExactDivisions : Nat → List Nat → Prop
  | _, [] => True
  | value, f :: fs => f.factorial ∣ value ∧ ExactDivisions (value / f.factorial) fs

/-- **Floor divisions by the factors of a product are exact.** -/
theorem divFactorials_exact {value n : Nat} {fs : List Nat}
    (h : n * (fs.map Nat.factorial).prod = value) :
    divFactorials value fs = n ∧ ExactDivisions value fs := by
  induction fs generalizing value with
  | nil =>
    rw [List.map_nil, List.prod_nil, mul_one] at h
    exact ⟨h.symm, trivial⟩
  | cons f fs ih =>
    rw [List.map_cons, List.prod_cons, mul_left_comm] at h
    have hdiv : value / f.factorial = n * (fs.map Nat.factorial).prod := by
      rw [← h, Nat.mul_div_cancel_left _ f.factorial_pos]
    obtain ⟨heq, hexact⟩ := ih hdiv.symm
    exact ⟨heq, Dvd.intro _ h, hexact⟩

theorem nodup_eraseDups (P : List Nat) : P.eraseDups.Nodup := by
  induction hlen : P.length using Nat.strong_induction_on generalizing P with
  | _ n ih =>
    cases P with
    | nil => exact List.nodup_nil
    | cons a P =>
      rw [List.eraseDups_cons, List.nodup_cons]
      constructor
      · intro h
        have hmem := List.mem_eraseDups.mp h
        simp at hmem
      · refine ih _ ?_ _ rfl
        rw [← hlen, List.length_cons]
        exact Nat.lt_succ_of_le (List.length_filter_le _ _)

/-- The factorials of the counts. -/
theorem prod_counterValues (P : List Nat) :
    ((counterValues P).map Nat.factorial).prod
      = ∏ n ∈ (P : Multiset Nat).toFinset, ((P : Multiset Nat).count n).factorial := by
  have hset : (P : Multiset Nat).toFinset = P.eraseDups.toFinset := by
    ext n
    rw [Multiset.mem_toFinset, Multiset.mem_coe, List.mem_toFinset, List.mem_eraseDups]
  rw [hset, List.prod_toFinset _ (nodup_eraseDups P), counterValues, List.map_map]
  simp only [Multiset.coe_count]
  rfl

/-! ## One partition -/

section

variable {lCom epsilon : Nat} {P : List Nat}

/-- A partition is its multiset, from the largest part on. -/
theorem sort_eq_iff (hP : IsPartition lCom lCom P) (S : Multiset Nat) :
    S.sort (· ≥ ·) = P ↔ S = P := by
  constructor
  · rintro rfl
    exact (Multiset.sort_eq S _).symm
  · rintro rfl
    refine List.Perm.eq_of_pairwise (fun a b _ _ hab hba => le_antisymm hba hab)
      (Multiset.pairwise_sort _ _) hP.sorted ?_
    exact Multiset.coe_eq_coe.mp (Multiset.sort_eq _ _)

/-- The multiplicities of a sequence are a partition. -/
theorem isPartition_sort (delta : Fin lCom → Fin epsilon) :
    IsPartition lCom lCom ((multiplicities delta).sort (· ≥ ·)) := by
  have hsum : ((multiplicities delta).sort (· ≥ ·)).sum = lCom := by
    rw [← Multiset.sum_coe, Multiset.sort_eq, sum_multiplicities, Fintype.card_fin]
  refine ⟨hsum, fun p hp => ?_, fun p hp => ?_, Multiset.pairwise_sort _ _⟩
  · rw [Multiset.mem_sort] at hp
    exact pos_of_mem_multiplicities hp
  · exact (List.single_le_sum (fun _ _ => Nat.zero_le _) p hp).trans hsum.le

/-- **The term of one partition**: the number of sequences with its multiplicities; both products
of factorials divide exactly. -/
theorem card_multiplicities_eq (hP : IsPartition lCom lCom P) (hm : P.length ≤ epsilon) :
    #{delta : Fin lCom → Fin epsilon | (multiplicities delta).sort (· ≥ ·) = P}
        = symbolAssignments epsilon P * sequenceArrangements lCom P ∧
      ExactDivisions (epsilon.descFactorial P.length) (counterValues P) ∧
      ExactDivisions lCom.factorial P := by
  have hpos : ∀ n ∈ (P : Multiset Nat), 0 < n := hP.pos
  have hsum : (P : Multiset Nat).sum = Fintype.card (Fin lCom) := by
    rw [Multiset.sum_coe, hP.sum, Fintype.card_fin]
  have hcard : Multiset.card (P : Multiset Nat) ≤ Fintype.card (Fin epsilon) := by
    rwa [Multiset.coe_card, Fintype.card_fin]
  obtain ⟨n, m, hn, hm, heq⟩ := card_multiplicities (α := Fin lCom) hpos hsum hcard
  rw [← prod_counterValues, Fintype.card_fin, Multiset.coe_card] at hn
  rw [Multiset.map_coe, Multiset.prod_coe, Fintype.card_fin] at hm
  obtain ⟨hassign, hexact⟩ := divFactorials_exact hn
  obtain ⟨harrange, hexact'⟩ := divFactorials_exact hm
  refine ⟨?_, hexact, hexact'⟩
  rw [symbolAssignments, sequenceArrangements, hassign, harrange, ← heq]
  exact congrArg card (filter_congr fun delta _ => sort_eq_iff hP _)

end

/-! ## The loop -/

section

variable {K : Type*} [Field K] [LinearOrder K] [IsStrictOrderedRing K]
variable {lCom k epsilon : Nat} {thresholdT : K}

/-- The parts of a partition are at most its first. -/
theorem IsPartition.le_head {P : List Nat} (hP : IsPartition lCom lCom P) :
    ∀ p ∈ P, p ≤ P.headD 0 := by
  cases P with
  | nil => exact fun p hp => absurd hp List.not_mem_nil
  | cons a P =>
    rintro p (_ | ⟨_, hp⟩)
    · exact le_rfl
    · exact (List.pairwise_cons.mp hP.sorted).1 p hp

/-- **The early stop loses nothing**: when the look-ahead is not above the threshold, neither this
partition nor any later one is. -/
theorem le_threshold_of_best (hk : k ≤ lCom) {maxAllowed : Nat} {P : List Nat}
    {rest : List (List Nat)}
    (hP : ∀ Q ∈ (maxAllowed :: P) :: rest, IsPartition lCom lCom Q)
    (hsorted : ((maxAllowed :: P) :: rest).Pairwise fun P Q => Q.headD 0 ≤ P.headD 0)
    (hbest : (computeCMax (bestFuturePartition maxAllowed lCom lCom) k : K) ≤ thresholdT) :
    ∀ Q ∈ (maxAllowed :: P) :: rest, (computeCMax Q k : K) ≤ thresholdT := by
  intro Q hQ
  have hone : 1 ≤ maxAllowed := (hP _ List.mem_cons_self).pos _ List.mem_cons_self
  have hhead : Q.headD 0 ≤ maxAllowed := by
    rcases List.mem_cons.mp hQ with rfl | hrest
    · exact le_rfl
    · exact (List.pairwise_cons.mp hsorted).1 Q hrest
  have hle : computeCMax Q k ≤ computeCMax (bestFuturePartition maxAllowed lCom lCom) k :=
    computeCMax_le_best hone (hP Q hQ).sum (fun p hp => ((hP Q hQ).le_head p hp).trans hhead) hk
  exact (Nat.cast_le.mpr hle).trans hbest

/-- **A run of the loop** adds the terms of the partitions above the threshold. -/
theorem deltaLoop_eq (hl : 1 ≤ lCom) (hk : k ≤ lCom) {Ps : List (List Nat)}
    (hP : ∀ P ∈ Ps, IsPartition lCom lCom P)
    (hsorted : Ps.Pairwise fun P Q => Q.headD 0 ≤ P.headD 0) (total : Nat) :
    deltaLoop lCom k epsilon thresholdT Ps total
      = some (total + ((Ps.filter fun P => P.length ≤ epsilon ∧ thresholdT < computeCMax P k).map
          fun P => symbolAssignments epsilon P * sequenceArrangements lCom P).sum) := by
  induction Ps generalizing total with
  | nil => rfl
  | cons P rest ih =>
    have hrest := ih (fun Q hQ => hP Q (List.mem_cons_of_mem P hQ))
      (List.pairwise_cons.mp hsorted).2
    rcases P with _ | ⟨maxAllowed, P⟩
    · have hsum := (hP [] List.mem_cons_self).sum
      rw [List.sum_nil] at hsum
      omega
    · rw [deltaLoop]
      by_cases hlen : epsilon < (maxAllowed :: P).length
      · rw [if_pos hlen, hrest, List.filter_cons_of_neg]
        simp only [decide_eq_true_eq, not_and]
        omega
      · rw [if_neg hlen]
        by_cases hbest :
          (computeCMax (bestFuturePartition maxAllowed lCom lCom) k : K) ≤ thresholdT
        · -- the partitions left out are not above the threshold
          have hbelow := le_threshold_of_best hk hP hsorted hbest
          rw [if_pos hbest, List.filter_eq_nil_iff.mpr, List.map_nil, List.sum_nil, add_zero]
          intro Q hQ
          simp only [decide_eq_true_eq, not_and, not_lt]
          exact fun _ => hbelow Q hQ
        · rw [if_neg hbest]
          by_cases habove : thresholdT < computeCMax (maxAllowed :: P) k
          · rw [if_pos habove, hrest, List.filter_cons_of_pos, List.map_cons, List.sum_cons,
              add_assoc]
            simp only [decide_eq_true_eq]
            exact ⟨not_lt.mp hlen, habove⟩
          · rw [if_neg habove, hrest, List.filter_cons_of_neg]
            simp only [decide_eq_true_eq, not_and]
            exact fun _ => habove

/-! ## Results -/

/-- The sequences of symbols whose best cheating count is above the threshold. -/
def publicDeltas (lCom k epsilon : Nat) (thresholdT : K) : Finset (Fin lCom → Fin epsilon) :=
  {delta | thresholdT < computeCMax ((multiplicities delta).sort (· ≥ ·)) k}

omit [IsStrictOrderedRing K] in
/-- The sequences, partition by partition. -/
theorem card_publicDeltas :
    #(publicDeltas lCom k epsilon thresholdT)
      = (((generatePartitions lCom lCom).filter
          fun P => P.length ≤ epsilon ∧ thresholdT < computeCMax P k).map
            fun P => symbolAssignments epsilon P * sequenceArrangements lCom P).sum := by
  have hmem : ∀ delta ∈ publicDeltas lCom k epsilon thresholdT,
      (multiplicities delta).sort (· ≥ ·) ∈
        ((generatePartitions lCom lCom).filter
          fun P => P.length ≤ epsilon ∧ thresholdT < computeCMax P k).toFinset := by
    intro delta hdelta
    have habove := (mem_filter.mp hdelta).2
    have hle := card_multiplicities_le delta
    rw [List.mem_toFinset, List.mem_filter, mem_generatePartitions, decide_eq_true_iff,
      Multiset.length_sort]
    rw [Fintype.card_fin] at hle
    exact ⟨isPartition_sort delta, hle, habove⟩
  rw [card_eq_sum_card_fiberwise hmem,
    ← List.sum_toFinset _ ((nodup_generatePartitions lCom lCom).filter _)]
  refine sum_congr rfl fun P hP => ?_
  rw [List.mem_toFinset, List.mem_filter, mem_generatePartitions, decide_eq_true_iff] at hP
  obtain ⟨hpart, hlen, habove⟩ := hP
  rw [← (card_multiplicities_eq hpart hlen).1]
  refine congrArg card ?_
  ext delta
  rw [mem_filter, mem_filter_univ, publicDeltas, mem_filter_univ]
  exact ⟨And.right, fun h => ⟨h ▸ habove, h⟩⟩

theorem computeDeltaPubSize_eq (hl : 1 ≤ lCom) (hk : k ≤ lCom) (successThreshold : K) :
    computeDeltaPubSize lCom k epsilon successThreshold
      = some #(publicDeltas lCom k epsilon (successThreshold * lCom.descFactorial k)) := by
  rw [computeDeltaPubSize, deltaLoop_eq hl hk (fun P hP => mem_generatePartitions.mp hP)
    (pairwise_generatePartitions _ _), zero_add, card_publicDeltas]

end

/-- **The pruned count is the plain count**: `compute_delta_pub_size` returns the number of
sequences whose best cheating count is above the threshold; each partition is visited once, the
look-ahead never stops before a partition above the threshold, and every division is exact. -/
theorem computeDeltaPubSize_correct {K : Type*} [Field K] [LinearOrder K] [IsStrictOrderedRing K]
    (lCom k epsilon : Nat) (hl : 1 ≤ lCom) (hk : k ≤ lCom) (successThreshold : K) :
    computeDeltaPubSize lCom k epsilon successThreshold
        = some #{delta : Fin lCom → Fin epsilon | successThreshold * lCom.descFactorial k
            < computeCMax ((multiplicities delta).sort (· ≥ ·)) k} ∧
      ((generatePartitions lCom lCom).Nodup ∧
        ∀ P, P ∈ generatePartitions lCom lCom ↔
          P.sum = lCom ∧ (∀ p ∈ P, 1 ≤ p) ∧ P.Pairwise fun a b => b ≤ a) ∧
      (∀ before P after, generatePartitions lCom lCom = before ++ P :: after →
        (computeCMax (bestFuturePartition (P.headD 0) lCom lCom) k : K)
            ≤ successThreshold * lCom.descFactorial k →
        ∀ Q ∈ P :: after, (computeCMax Q k : K) ≤ successThreshold * lCom.descFactorial k) ∧
      ∀ P ∈ generatePartitions lCom lCom, P.length ≤ epsilon →
        ExactDivisions (epsilon.descFactorial P.length) (counterValues P) ∧
          ExactDivisions lCom.factorial P := by
  refine ⟨computeDeltaPubSize_eq hl hk successThreshold,
    ⟨nodup_generatePartitions _ _, fun P => ?_⟩, fun before P after hsplit hbest => ?_,
    fun P hP hlen => ?_⟩
  · rw [mem_generatePartitions]
    constructor
    · exact fun hP => ⟨hP.sum, hP.pos, hP.sorted⟩
    · rintro ⟨hsum, hpos, hsorted⟩
      exact ⟨hsum, hpos, fun p hp => (List.single_le_sum (fun _ _ => Nat.zero_le _) p hp).trans
        hsum.le, hsorted⟩
  · have hmem : ∀ Q ∈ P :: after, IsPartition lCom lCom Q := fun Q hQ =>
      mem_generatePartitions.mp (hsplit ▸ List.mem_append_right before hQ)
    have hsorted := pairwise_generatePartitions lCom lCom
    rw [hsplit] at hsorted
    rcases P with _ | ⟨maxAllowed, P⟩
    · have hsum := (hmem [] List.mem_cons_self).sum
      rw [List.sum_nil] at hsum
      omega
    · exact le_threshold_of_best hk hmem (List.pairwise_append.mp hsorted).2.1 hbest
  · exact (card_multiplicities_eq (mem_generatePartitions.mp hP) hlen).2

/-- Three symbols of two kinds, two challenges. -/
theorem computeDeltaPubSize_correct_example :
    computeDeltaPubSize 3 2 2 (1 / 2 : ℚ)
      = some #{delta : Fin 3 → Fin 2 | (1 / 2 : ℚ) * Nat.descFactorial 3 2
          < computeCMax ((multiplicities delta).sort (· ≥ ·)) 2} :=
  (computeDeltaPubSize_correct 3 2 2 (by omega) (by omega) (1 / 2 : ℚ)).1

end HocusPocus.Dpub
