import HocusPocus.Params.Dpub
import HocusPocus.Arith.Arrangements
import HocusPocus.Oprf.Model

/-!
# The best cheating count

A server that answers the openings with symbols `beta` survives the challenges `c` with
`delta (c i) = beta i` for all `i`. They are counted by a falling factorial for each symbol, the
product of the top elements of its chain; so no answers survive more of them than the largest
elements of all chains allow, and the tops of the chains, taken greedily, are these elements.

* `card_survivingChallenges`: the count of one answer.
* `card_survivingChallenges_le`, `exists_survivingChallenges`: the bound, and an answer that meets
  it.
* `computeCMax_greatest`: `compute_C_max` is the maximum over all answers.
-/

namespace HocusPocus.Dpub

open Arith Finset

/-- The challenges, `k` distinct indices, that the answers `beta` survive. -/
noncomputable def survivingChallenges {σ : Type*} [DecidableEq σ] {lCom k : Nat}
    (delta : Fin lCom → σ) (beta : Fin k → σ) : Finset (Fin k ↪ Fin lCom) :=
  {c | ∀ i, delta (c i) = beta i}

/-! ## The tops of the chains -/

/-- The `κ` largest elements of a chain of length `n`. -/
theorem prod_top {n κ : Nat} (h : κ ≤ n) :
    (List.range' (n - κ + 1) κ).prod = n.descFactorial κ := by
  induction κ with
  | zero => rfl
  | succ κ ih =>
    rw [List.range'_succ, List.prod_cons, Nat.descFactorial_succ, ← ih (by omega)]
    congr 1
    · omega
    · congr 2
      omega

theorem coe_top_le {n κ : Nat} (h : κ ≤ n) :
    (List.range' (n - κ + 1) κ : Multiset Nat) ≤ (List.range' 1 n : Multiset Nat) := by
  have hchain := List.range'_append_1 (s := 1) (m := n - κ) (n := κ)
  rw [Nat.sub_add_cancel h, add_comm 1] at hchain
  rw [← hchain]
  exact (List.sublist_append_right _ _).subperm

/-- A chain without its top is the chain that is one shorter. -/
theorem coe_chain_cons {m : Nat} (h : 1 ≤ m) : (List.range' 1 m : Multiset Nat)
    = m ::ₘ (List.range' 1 (m - 1) : Multiset Nat) := by
  obtain ⟨m, rfl⟩ := Nat.exists_eq_add_of_le' h
  rw [Nat.add_sub_cancel, List.range'_1_concat, add_comm 1 m]
  exact Multiset.coe_eq_coe.mpr (List.perm_append_singleton _ _)

/-- What is left of a descending list is at most its first element. -/
theorem le_of_mem_drop {S : List Nat} {k b : Nat} (hk : k < (descending S).length)
    (hb : b ∈ (descending S).drop k) : b ≤ (descending S)[k] := by
  have hpair := (pairwise_descending S).drop (i := k)
  rw [List.drop_eq_getElem_cons hk] at hb hpair
  rcases List.mem_cons.mp hb with heq | htail
  · exact heq.le
  · exact (List.pairwise_cons.mp hpair).1 _ htail

variable {σ : Type*}

/-- The chains of the symbols of `A` as a multiset. -/
theorem coe_chains {A : Finset σ} {n : σ → Nat} {P : List Nat}
    (hP : (P : Multiset Nat) = A.val.map n) :
    (chains P : Multiset Nat) = ∑ a ∈ A, (List.range' 1 (n a) : Multiset Nat) := by
  have hbind : (chains P : Multiset Nat)
      = (P : Multiset Nat).bind fun nI => (List.range' 1 nI : Multiset Nat) := by
    rw [Multiset.coe_bind]
    rfl
  rw [hbind, hP, Multiset.bind_map]
  rfl

variable [DecidableEq σ]

/-- **The largest elements are tops of chains**: each next one is the top of what is left of some
chain. -/
theorem exists_tops {A : Finset σ} {n : σ → Nat} {S : List Nat}
    (hS : (S : Multiset Nat) = ∑ a ∈ A, (List.range' 1 (n a) : Multiset Nat)) {k : Nat}
    (hk : k ≤ S.length) :
    ∃ κ : σ → Nat, ∑ a ∈ A, κ a = k ∧
      ∏ a ∈ A, (n a).descFactorial (κ a) = ((descending S).take k).prod ∧
      ((descending S).drop k : Multiset Nat)
        = ∑ a ∈ A, (List.range' 1 (n a - κ a) : Multiset Nat) := by
  induction k with
  | zero =>
    refine ⟨fun _ => 0, sum_const_zero, prod_const_one, ?_⟩
    rw [List.drop_zero, Multiset.coe_eq_coe.mpr (descending_perm S), hS]
    rfl
  | succ k ih =>
    obtain ⟨κ, hsum, hprod, hrest⟩ := ih (Nat.le_of_succ_le hk)
    have hlen : k < (descending S).length := by rwa [length_descending]
    have hsplit := List.drop_eq_getElem_cons hlen
    have hdrop : ∀ b, b ∈ (descending S).drop k ↔
        ∃ a ∈ A, b ∈ List.range' 1 (n a - κ a) := by
      intro b
      rw [← Multiset.mem_coe, hrest, Multiset.mem_sum]
      rfl
    -- the next element is in some chain, and no element left of that chain is larger
    obtain ⟨a, ha, hmem⟩ := (hdrop (descending S)[k]).mp (hsplit ▸ List.mem_cons_self)
    obtain ⟨hone, hlt⟩ := List.mem_range'_1.mp hmem
    have htop : n a - κ a ≤ (descending S)[k] :=
      le_of_mem_drop hlen ((hdrop _).mpr ⟨a, ha, List.mem_range'_1.mpr ⟨by omega, by omega⟩⟩)
    have hkey : (descending S)[k] = n a - κ a := by omega
    have hother : ∀ b ∈ A.erase a, Function.update κ a (κ a + 1) b = κ b := fun b hb =>
      Function.update_of_ne (ne_of_mem_erase hb) _ _
    refine ⟨Function.update κ a (κ a + 1), ?_, ?_, ?_⟩
    · rw [← add_sum_erase A _ ha, sum_congr rfl hother, Function.update_self, add_right_comm,
        add_sum_erase A κ ha, hsum]
    · rw [List.prod_take_succ _ k hlen, ← hprod, hkey, ← mul_prod_erase A _ ha,
        Function.update_self, Nat.descFactorial_succ,
        prod_congr rfl fun b hb => by rw [hother b hb],
        ← mul_prod_erase A (fun a => (n a).descFactorial (κ a)) ha]
      ring
    · have hchain : (List.range' 1 (n a - κ a) : Multiset Nat)
          = (descending S)[k] ::ₘ (List.range' 1 (n a - (κ a + 1)) : Multiset Nat) := by
        rw [coe_chain_cons (by omega), ← Nat.sub_sub, hkey]
      rw [← add_sum_erase A _ ha, hchain, Multiset.cons_add, hsplit, ← Multiset.cons_coe,
        Multiset.cons_inj_right] at hrest
      have hothers : ∑ b ∈ A.erase a,
          (List.range' 1 (n b - Function.update κ a (κ a + 1) b) : Multiset Nat)
            = ∑ b ∈ A.erase a, (List.range' 1 (n b - κ b) : Multiset Nat) :=
        sum_congr rfl fun b hb => by rw [hother b hb]
      rw [hrest, ← add_sum_erase A _ ha, Function.update_self, hothers]

/-! ## Answers -/

section

variable {lCom k : Nat} {delta : Fin lCom → σ} {P : List Nat}

/-- The challenges one answer survives. -/
theorem card_survivingChallenges (delta : Fin lCom → σ) {beta : Fin k → σ} {A : Finset σ}
    (h : ∀ i, beta i ∈ A) :
    #(survivingChallenges delta beta)
      = ∏ a ∈ A, (fiberSizes delta a).descFactorial (fiberSizes beta a) := by
  rw [← card_embeddings delta h]
  refine congrArg card ?_
  ext c
  simp [survivingChallenges]

/-- **No answer survives more challenges.** -/
theorem card_survivingChallenges_le (hP : (P : Multiset Nat) = multiplicities delta)
    (beta : Fin k → σ) : #(survivingChallenges delta beta) ≤ computeCMax P k := by
  have hmem : ∀ i, beta i ∈ univ.image beta := fun i => mem_image_of_mem beta (mem_univ i)
  rw [card_survivingChallenges delta hmem]
  by_cases hfit : ∀ a ∈ univ.image beta, fiberSizes beta a ≤ fiberSizes delta a
  · -- the tops of the chains are elements of them
    let tops (a : σ) : List Nat :=
      List.range' (fiberSizes delta a - fiberSizes beta a + 1) (fiberSizes beta a)
    have hsub : univ.image beta ⊆ univ.image delta := by
      intro a ha
      have hbeta : fiberSizes beta a ≠ 0 := fun h => fiberSizes_eq_zero_iff.mp h ha
      have hdelta : fiberSizes delta a ≠ 0 := fun h => hbeta (Nat.le_zero.mp (h ▸ hfit a ha))
      exact not_not.mp fun h => hdelta (fiberSizes_eq_zero_iff.mpr h)
    have htops : ∀ a ∈ univ.image beta,
        (tops a : Multiset Nat) ≤ (List.range' 1 (fiberSizes delta a) : Multiset Nat) :=
      fun a ha => coe_top_le (hfit a ha)
    have hsubperm : ∑ a ∈ univ.image beta, (tops a : Multiset Nat) ≤ (chains P : Multiset Nat) := by
      rw [coe_chains hP]
      exact (sum_le_sum htops).trans (sum_le_sum_of_subset hsub)
    generalize hT : ∑ a ∈ univ.image beta, (tops a : Multiset Nat) = T at hsubperm
    induction T using Quotient.inductionOn with
    | _ T =>
      have hlen : T.length = k := by
        have hcard := congrArg Multiset.card hT
        rw [Multiset.card_sum] at hcard
        calc T.length = ∑ a ∈ univ.image beta, (tops a).length := hcard.symm
          _ = ∑ a ∈ univ.image beta, fiberSizes beta a :=
              sum_congr rfl fun a _ => List.length_range'
          _ = k := by rw [sum_fiberSizes hmem, Fintype.card_fin]
      have hprod : T.prod = ∏ a ∈ univ.image beta,
          (fiberSizes delta a).descFactorial (fiberSizes beta a) := by
        have hprod := congrArg Multiset.prod hT
        rw [Multiset.prod_sum] at hprod
        calc T.prod = ∏ a ∈ univ.image beta, (tops a).prod := hprod.symm
          _ = ∏ a ∈ univ.image beta,
                (fiberSizes delta a).descFactorial (fiberSizes beta a) :=
              prod_congr rfl fun a ha => prod_top (hfit a ha)
      rw [← hprod, computeCMax, ← hlen]
      exact prod_le_of_subperm (Multiset.coe_le.mp hsubperm)
  · obtain ⟨a, ha, hlt⟩ : ∃ a ∈ univ.image beta, fiberSizes delta a < fiberSizes beta a := by
      simpa only [not_forall, not_le, exists_prop] using hfit
    rw [prod_eq_zero ha (Nat.descFactorial_eq_zero_iff_lt.mpr hlt)]
    exact Nat.zero_le _

/-- **Some answer survives as many.** -/
theorem exists_survivingChallenges (hP : (P : Multiset Nat) = multiplicities delta)
    (hk : k ≤ lCom) : ∃ beta : Fin k → σ, #(survivingChallenges delta beta) = computeCMax P k := by
  have hlen : k ≤ (chains P).length := by
    rw [length_chains, ← Multiset.sum_coe, hP, sum_multiplicities, Fintype.card_fin]
    exact hk
  obtain ⟨κ, hsum, hprod, -⟩ := exists_tops (coe_chains hP) hlen
  obtain ⟨beta, hmem, hbeta⟩ :=
    exists_fiberSizes (α := Fin k) (hsum.trans (Fintype.card_fin k).symm)
  refine ⟨beta, ?_⟩
  rw [card_survivingChallenges delta hmem, computeCMax, ← hprod]
  exact prod_congr rfl fun a ha => by rw [hbeta a ha]

end

/-- The check of phase 6 compares the symbols of the openings with the challenged ones. -/
theorem openingsMatch_iff {F : Type} [FieldOps F] (o : OPRF F) (e : Nat → UInt64) (m : Nat → F)
    (c : Fin o.k ↪ Fin o.lenCom) :
    o.openingsMatch e (List.ofFn fun i => (c i).val) m = true ↔
      c ∈ survivingChallenges (fun j : Fin o.lenCom => e j)
        fun i : Fin o.k => FastResidue.presidueEps (m i) := by
  rw [survivingChallenges, mem_filter_univ, OPRF.openingsMatch, List.all_eq_true]
  have hget : ∀ i : Fin o.k, (List.ofFn fun i => (c i).val).getD i 0 = c i := by
    intro i
    rw [List.getD_eq_getElem _ _ (by simp), List.getElem_ofFn]
  constructor
  · intro h i
    have hi := beq_iff_eq.mp (h i (List.mem_range.mpr i.isLt))
    rw [hi, hget]
  · intro h i hi
    have hlt := List.mem_range.mp hi
    rw [beq_iff_eq, hget ⟨i, hlt⟩]
    exact (h ⟨i, hlt⟩).symm

/-! ## Results -/

/-- **`compute_C_max` is the best cheating count**: for every sequence of symbols and every number
of challenges it is the largest number of challenges, over all answers, that an answer survives; and
a challenge survives in the protocol when it does here. -/
theorem computeCMax_greatest :
    (∀ (σ : Type*) [DecidableEq σ] (lCom k : Nat) (delta : Fin lCom → σ) (P : List Nat),
      (P : Multiset Nat) = multiplicities delta → k ≤ lCom →
      IsGreatest (Set.range fun beta : Fin k → σ => #(survivingChallenges delta beta))
        (computeCMax P k)) ∧
    ∀ (F : Type) [FieldOps F] (o : OPRF F) (e : Nat → UInt64) (m : Nat → F)
      (c : Fin o.k ↪ Fin o.lenCom),
      o.openingsMatch e (List.ofFn fun i => (c i).val) m = true ↔
        c ∈ survivingChallenges (fun j : Fin o.lenCom => e j)
          fun i : Fin o.k => FastResidue.presidueEps (m i) := by
  refine ⟨fun σ _ lCom k delta P hP hk => ⟨?_, ?_⟩, fun F _ o e m c => openingsMatch_iff o e m c⟩
  · exact exists_survivingChallenges hP hk
  · rintro _ ⟨beta, rfl⟩
    exact card_survivingChallenges_le hP beta

/-- Two symbols, one of them twice, and two challenges. -/
theorem computeCMax_greatest_example :
    IsGreatest (Set.range fun beta : Fin 2 → Bool =>
      #(survivingChallenges (fun i : Fin 3 => decide (i.val = 1)) beta)) (computeCMax [1, 2] 2) :=
  computeCMax_greatest.1 Bool 3 2 _ [1, 2] (by decide) (by norm_num)

end HocusPocus.Dpub
