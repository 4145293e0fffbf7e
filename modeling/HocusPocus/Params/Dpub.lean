import HocusPocus.Arith.Largest
import Mathlib.Algebra.Order.Field.Basic
import Mathlib.Data.Nat.Factorial.Basic

/-!
# The security count (`params-scripts/dpub.py`)

The script counts the symbol sequences with which a cheating server survives too many challenges.
A sequence enters through its multiplicities, a partition of `l_com`, so the count runs over the
partitions, the ones with large parts first, and stops as soon as no later one can pass.

* `mem_generatePartitions`, `nodup_generatePartitions`: the generator yields every partition once.
* `computeCMax_le_of_countP`: the best cheating count grows with the chains.
* `computeCMax_le_best`: the look-ahead partition is best among those with parts as small.
* `computeCMax_succ_le`: one more challenge multiplies the count by at most `l_com - k`.
-/

namespace HocusPocus.Dpub

open Arith

/-! ## The script -/

/-- `range(start, stop, -1)`. -/
def rangeDown (start stop : Nat) : List Nat :=
  (List.range (start - stop)).map fun i => start - i

theorem mem_rangeDown {start stop i : Nat} :
    i ∈ rangeDown start stop ↔ stop + 1 ≤ i ∧ i ≤ start := by
  rw [rangeDown, List.mem_map]
  constructor
  · rintro ⟨j, hj, rfl⟩
    have hlt := List.mem_range.mp hj
    omega
  · rintro ⟨hone, hle⟩
    exact ⟨start - i, List.mem_range.mpr (by omega), by omega⟩

/-- `generate_partitions`; without `max_val` it is `n`. -/
def generatePartitions (n maxVal : Nat) : List (List Nat) :=
  if n = 0 then [[]]
  else
    (rangeDown (min n maxVal) 0).attach.flatMap fun ⟨i, _⟩ =>
      (generatePartitions (n - i) i).map (i :: ·)
termination_by n
decreasing_by
  have hmem := mem_rangeDown.mp ‹_›
  omega

/-- The multiset `S` of `compute_C_max`: the numbers up to each part. -/
def chains (partition : List Nat) : List Nat := partition.flatMap fun nI => List.range' 1 nI

/-- `compute_C_max`. -/
def computeCMax (partition : List Nat) (k : Nat) : Nat :=
  ((descending (chains partition)).take k).prod

/-- `best_future_partition`; a round takes at least one of `rem`, so `l_com` rounds are enough. -/
def bestFuturePartition (maxAllowed : Nat) : (rounds rem : Nat) → List Nat
  | 0, _ => []
  | rounds + 1, rem =>
    if 0 < rem then
      let take := min rem maxAllowed
      take :: bestFuturePartition maxAllowed rounds (rem - take)
    else []

/-- `Counter(P).values()`. -/
def counterValues (P : List Nat) : List Nat := P.eraseDups.map P.count

/-- `for f in fs: value //= math.factorial(f)`. -/
def divFactorials (value : Nat) (fs : List Nat) : Nat :=
  fs.foldl (fun value f => value / f.factorial) value

/-- `symbol_assignments`. -/
def symbolAssignments (epsilon : Nat) (P : List Nat) : Nat :=
  divFactorials (epsilon.descFactorial P.length) (counterValues P)

/-- `sequence_arrangements`. -/
def sequenceArrangements (lCom : Nat) (P : List Nat) : Nat := divFactorials lCom.factorial P

section

variable {K : Type*} [Field K] [LinearOrder K]

/-- The loop over the partitions; `none` for `P[0]` of an empty partition. -/
def deltaLoop (lCom k epsilon : Nat) (thresholdT : K) : List (List Nat) → Nat → Option Nat
  | [], totalValidDeltas => some totalValidDeltas
  | P :: rest, totalValidDeltas =>
    if epsilon < P.length then deltaLoop lCom k epsilon thresholdT rest totalValidDeltas
    else
      match P with
      | [] => none
      | maxAllowed :: _ =>
        if (computeCMax (bestFuturePartition maxAllowed lCom lCom) k : K) ≤ thresholdT then
          some totalValidDeltas
        else if thresholdT < computeCMax P k then
          deltaLoop lCom k epsilon thresholdT rest
            (totalValidDeltas + symbolAssignments epsilon P * sequenceArrangements lCom P)
        else deltaLoop lCom k epsilon thresholdT rest totalValidDeltas

/-- `compute_delta_pub_size`, the threshold taken exactly. -/
def computeDeltaPubSize (lCom k epsilon : Nat) (successThreshold : K) : Option Nat :=
  let thresholdT := successThreshold * lCom.descFactorial k
  deltaLoop lCom k epsilon thresholdT (generatePartitions lCom lCom) 0

end

/-! ## The partitions -/

theorem generatePartitions_zero (maxVal : Nat) : generatePartitions 0 maxVal = [[]] := by
  rw [generatePartitions, if_pos rfl]

theorem generatePartitions_pos {n : Nat} (hn : 0 < n) (maxVal : Nat) :
    generatePartitions n maxVal
      = (rangeDown (min n maxVal) 0).flatMap fun i =>
          (generatePartitions (n - i) i).map (i :: ·) := by
  conv_rhs => rw [← List.attach_map_subtype_val (rangeDown (min n maxVal) 0), List.flatMap_map]
  rw [generatePartitions, if_neg hn.ne']

/-- The partitions of `n` with parts up to `max_val`, from the largest part on. -/
structure IsPartition (n maxVal : Nat) (P : List Nat) : Prop where
  sum : P.sum = n
  pos : ∀ p ∈ P, 1 ≤ p
  le : ∀ p ∈ P, p ≤ maxVal
  sorted : P.Pairwise fun a b => b ≤ a

theorem isPartition_cons {n maxVal i : Nat} {P : List Nat} :
    IsPartition n maxVal (i :: P) ↔
      1 ≤ i ∧ i ≤ maxVal ∧ i ≤ n ∧ IsPartition (n - i) i P := by
  constructor
  · rintro ⟨hsum, hpos, hle, hsorted⟩
    obtain ⟨hhead, htail⟩ := List.pairwise_cons.mp hsorted
    rw [List.sum_cons] at hsum
    exact ⟨hpos i List.mem_cons_self, hle i List.mem_cons_self, by omega, by omega,
      fun p hp => hpos p (List.mem_cons_of_mem i hp), hhead, htail⟩
  · rintro ⟨hone, hle, hn, hP⟩
    refine ⟨?_, ?_, ?_, List.pairwise_cons.mpr ⟨hP.le, hP.sorted⟩⟩
    · rw [List.sum_cons, hP.sum]
      omega
    · rintro p (_ | ⟨_, hp⟩)
      · exact hone
      · exact hP.pos p hp
    · rintro p (_ | ⟨_, hp⟩)
      · exact hle
      · exact (hP.le p hp).trans hle

/-- **The generator yields the partitions.** -/
theorem mem_generatePartitions {n maxVal : Nat} {P : List Nat} :
    P ∈ generatePartitions n maxVal ↔ IsPartition n maxVal P := by
  induction n using Nat.strong_induction_on generalizing maxVal P with
  | _ n ih =>
    rcases Nat.eq_zero_or_pos n with rfl | hn
    · rw [generatePartitions_zero, List.mem_singleton]
      constructor
      · rintro rfl
        exact ⟨rfl, by simp, by simp, List.Pairwise.nil⟩
      · intro hP
        rcases P with _ | ⟨i, P⟩
        · rfl
        · obtain ⟨hone, -, hle, -⟩ := isPartition_cons.mp hP
          omega
    · rw [generatePartitions_pos hn]
      simp only [List.mem_flatMap, List.mem_map, mem_rangeDown]
      constructor
      · rintro ⟨i, ⟨hone, hle⟩, Q, hQ, rfl⟩
        have hQ' := (ih (n - i) (by omega)).mp hQ
        exact isPartition_cons.mpr ⟨hone, by omega, by omega, hQ'⟩
      · intro hP
        rcases P with _ | ⟨i, P⟩
        · have hsum := hP.sum
          rw [List.sum_nil] at hsum
          omega
        · obtain ⟨hone, hmax, hle, hQ⟩ := isPartition_cons.mp hP
          exact ⟨i, ⟨hone, by omega⟩, P, (ih (n - i) (by omega)).mpr hQ, rfl⟩

theorem pairwise_rangeDown (start stop : Nat) :
    (rangeDown start stop).Pairwise fun i j => j < i := by
  rw [rangeDown, List.pairwise_map]
  refine List.pairwise_lt_range.imp_of_mem ?_
  intro i j hi hj hij
  have hlt := List.mem_range.mp hj
  omega

/-- **It yields none of them twice.** -/
theorem nodup_generatePartitions (n maxVal : Nat) : (generatePartitions n maxVal).Nodup := by
  induction n using Nat.strong_induction_on generalizing maxVal with
  | _ n ih =>
    rcases Nat.eq_zero_or_pos n with rfl | hn
    · rw [generatePartitions_zero]
      exact List.nodup_singleton _
    · rw [generatePartitions_pos hn, List.nodup_flatMap]
      constructor
      · intro i hi
        obtain ⟨hone, hle⟩ := mem_rangeDown.mp hi
        exact (ih (n - i) (by omega) i).map fun P Q h => (List.cons.inj h).2
      · refine (pairwise_rangeDown _ _).imp fun hlt P hP hQ => ?_
        obtain ⟨P', -, rfl⟩ := List.mem_map.mp hP
        obtain ⟨Q', -, hQ'⟩ := List.mem_map.mp hQ
        exact hlt.ne (List.cons.inj hQ').1

/-- The largest part never grows from a partition to the next. -/
theorem pairwise_generatePartitions (n maxVal : Nat) :
    (generatePartitions n maxVal).Pairwise fun P Q => Q.headD 0 ≤ P.headD 0 := by
  rcases Nat.eq_zero_or_pos n with rfl | hn
  · rw [generatePartitions_zero]
    exact List.pairwise_singleton _ _
  · rw [generatePartitions_pos hn, List.pairwise_flatMap]
    constructor
    · intro i _
      rw [List.pairwise_map]
      exact List.pairwise_of_forall fun _ _ => le_rfl
    · refine (pairwise_rangeDown _ _).imp fun hlt P hP Q hQ => ?_
      obtain ⟨P', -, rfl⟩ := List.mem_map.mp hP
      obtain ⟨Q', -, rfl⟩ := List.mem_map.mp hQ
      exact hlt.le

/-! ## The chains -/

@[simp] theorem chains_nil : chains [] = [] := rfl

@[simp] theorem chains_cons (n : Nat) (P : List Nat) :
    chains (n :: P) = List.range' 1 n ++ chains P := List.flatMap_cons

@[simp] theorem length_chains (P : List Nat) : (chains P).length = P.sum := by
  induction P with
  | nil => rfl
  | cons n P ih => rw [chains_cons, List.length_append, List.length_range', ih, List.sum_cons]

theorem pos_of_mem_chains {P : List Nat} {a : Nat} (h : a ∈ chains P) : 1 ≤ a := by
  obtain ⟨n, -, ha⟩ := List.mem_flatMap.mp h
  exact (List.mem_range'_1.mp ha).1

/-- The elements of one chain from `v` on. -/
theorem countP_range' {v : Nat} (hv : 1 ≤ v) (n : Nat) :
    (List.range' 1 n).countP (v ≤ ·) = n + 1 - v := by
  induction n with
  | zero => rw [List.range'_zero, List.countP_nil]; omega
  | succ n ih =>
    rw [List.range'_1_concat, List.countP_append, ih, List.countP_singleton]
    split_ifs with h
    · rw [decide_eq_true_iff] at h
      omega
    · rw [decide_eq_true_iff] at h
      omega

theorem countP_chains {v : Nat} (hv : 1 ≤ v) (P : List Nat) :
    (chains P).countP (v ≤ ·) = (P.map fun n => n + 1 - v).sum := by
  induction P with
  | nil => rfl
  | cons n P ih =>
    rw [chains_cons, List.countP_append, countP_range' hv, ih, List.map_cons, List.sum_cons]

/-- Partitions of one number compare through the elements of their chains from each bound on. -/
theorem computeCMax_le_of_countP {P Q : List Nat} (hsum : P.sum = Q.sum)
    (h : ∀ v, 1 ≤ v → (P.map fun n => n + 1 - v).sum ≤ (Q.map fun n => n + 1 - v).sum) {k : Nat}
    (hk : k ≤ P.sum) : computeCMax P k ≤ computeCMax Q k := by
  refine prod_take_le (fun v => ?_) (by rwa [length_chains]) (by rwa [length_chains, ← hsum])
  rcases Nat.eq_zero_or_pos v with rfl | hv
  · have hall (R : List Nat) : (chains R).countP (0 ≤ ·) = R.sum := by
      rw [← length_chains, List.countP_eq_length]
      simp
    rw [hall, hall, hsum]
  · rw [countP_chains hv, countP_chains hv]
    exact h v hv

/-! ## The look-ahead -/

/-- A part up to `M` beside what the greedy parts of `s` leave. -/
theorem greedy_add {M v : Nat} (hM : 1 ≤ M) (hv : 1 ≤ v) {x : Nat} (hx : x ≤ M) (s : Nat) :
    s / M * (M + 1 - v) + (s % M + 1 - v) + (x + 1 - v)
      ≤ (s + x) / M * (M + 1 - v) + ((s + x) % M + 1 - v) := by
  have hr : s % M < M := Nat.mod_lt s hM
  have hs : M * (s / M) + s % M = s := Nat.div_add_mod s M
  rcases lt_or_ge (s % M + x) M with hlt | hge
  · have hdiv : (s + x) / M = s / M ∧ (s + x) % M = s % M + x :=
      (Nat.div_mod_unique hM).mpr ⟨by omega, hlt⟩
    rw [hdiv.1, hdiv.2]
    omega
  · have hdiv : (s + x) / M = s / M + 1 ∧ (s + x) % M = s % M + x - M :=
      (Nat.div_mod_unique hM).mpr ⟨by rw [mul_add]; omega, by omega⟩
    rw [hdiv.1, hdiv.2, add_mul]
    omega

/-- The greedy parts have the most elements from each bound on. -/
theorem sum_le_greedy {M v : Nat} (hM : 1 ≤ M) (hv : 1 ≤ v) {P : List Nat}
    (hP : ∀ p ∈ P, p ≤ M) :
    (P.map fun n => n + 1 - v).sum ≤ P.sum / M * (M + 1 - v) + (P.sum % M + 1 - v) := by
  induction P with
  | nil => exact Nat.zero_le _
  | cons x P ih =>
    have htail := ih fun p hp => hP p (List.mem_cons_of_mem x hp)
    have hstep := greedy_add hM hv (hP x List.mem_cons_self) P.sum
    rw [List.map_cons, List.sum_cons, List.sum_cons, add_comm x P.sum]
    omega

theorem sum_bestFuturePartition {M : Nat} (hM : 1 ≤ M) {rounds rem : Nat} (h : rem ≤ rounds) :
    (bestFuturePartition M rounds rem).sum = rem := by
  induction rounds generalizing rem with
  | zero => exact (Nat.le_zero.mp h).symm
  | succ rounds ih =>
    rw [bestFuturePartition]
    split_ifs with hrem
    · rw [List.sum_cons, ih (by omega)]
      omega
    · exact (Nat.eq_zero_of_not_pos hrem).symm

theorem map_bestFuturePartition {M v : Nat} (hM : 1 ≤ M) (hv : 1 ≤ v) {rounds rem : Nat}
    (h : rem ≤ rounds) :
    ((bestFuturePartition M rounds rem).map fun n => n + 1 - v).sum
      = rem / M * (M + 1 - v) + (rem % M + 1 - v) := by
  induction rounds generalizing rem with
  | zero =>
    obtain rfl := Nat.le_zero.mp h
    rw [bestFuturePartition, Nat.zero_div, Nat.zero_mod]
    simp
    omega
  | succ rounds ih =>
    rw [bestFuturePartition]
    split_ifs with hrem
    · rw [List.map_cons, List.sum_cons, ih (by omega)]
      rcases lt_or_ge rem M with hlt | hge
      · rw [min_eq_left hlt.le, Nat.sub_self, Nat.zero_div, Nat.zero_mod, Nat.div_eq_of_lt hlt,
          Nat.mod_eq_of_lt hlt]
        omega
      · rw [min_eq_right hge, Nat.div_eq_sub_div hM hge, Nat.mod_eq_sub_mod hge, add_mul]
        omega
    · obtain rfl := Nat.eq_zero_of_not_pos hrem
      rw [Nat.zero_div, Nat.zero_mod]
      simp
      omega

/-- **The look-ahead is safe**: no partition with parts as small has a larger count. -/
theorem computeCMax_le_best {M lCom k : Nat} (hM : 1 ≤ M) {P : List Nat} (hsum : P.sum = lCom)
    (hP : ∀ p ∈ P, p ≤ M) (hk : k ≤ lCom) :
    computeCMax P k ≤ computeCMax (bestFuturePartition M lCom lCom) k := by
  refine computeCMax_le_of_countP ?_ (fun v hv => ?_) (hsum ▸ hk)
  · rw [sum_bestFuturePartition hM le_rfl, hsum]
  · rw [map_bestFuturePartition hM hv le_rfl, ← hsum]
    exact sum_le_greedy hM hv hP

/-! ## One more challenge -/

/-- Enough elements from `v` on take a chain that reaches `v`. -/
theorem sum_add_le {v : Nat} (hv : 1 ≤ v) {P : List Nat}
    (h : 0 < (P.map fun n => n + 1 - v).sum) :
    (P.map fun n => n + 1 - v).sum + (v - 1) ≤ P.sum := by
  induction P with
  | nil => exact absurd h (lt_irrefl 0)
  | cons n P ih =>
    have htail : (P.map fun n => n + 1 - v).sum ≤ P.sum := by
      rw [← countP_chains hv, ← length_chains]
      exact List.countP_le_length
    rw [List.map_cons, List.sum_cons] at h ⊢
    rw [List.sum_cons]
    by_cases hn : v ≤ n
    · omega
    · have hrest := ih (by omega)
      omega

/-- **One more challenge** multiplies the count by at most the number of indices left. -/
theorem computeCMax_succ_le {P : List Nat} {lCom k : Nat} (hsum : P.sum = lCom) (hk : k < lCom) :
    computeCMax P (k + 1) ≤ computeCMax P k * (lCom - k) := by
  have hlen : k < (descending (chains P)).length := by
    rwa [length_descending, length_chains, hsum]
  rw [computeCMax, List.prod_take_succ _ k hlen]
  refine Nat.mul_le_mul_left _ ?_
  have hpos : 1 ≤ (descending (chains P))[k] :=
    pos_of_mem_chains ((descending_perm _).mem_iff.mp (List.getElem_mem hlen))
  have hcount := (le_getElem_descending_iff (chains P) _ hlen).mp le_rfl
  rw [countP_chains hpos] at hcount
  have hroom := sum_add_le hpos (Nat.zero_lt_of_lt hcount)
  omega

end HocusPocus.Dpub
