import HocusPocus.Oprf.Honest
import HocusPocus.Params.CheatingCount
import HocusPocus.Params.DeltaPub
import HocusPocus.SafeTrunc.Symbols

/-!
# What the parameter script counts, in the protocol (`dpub.py`, `OPRF.h`)

A server is bound to a key and to its blindings `b` before it sees the challenge, and the proof
forces its openings to be `b_i * (K + l_{c_i})`. What it may still choose are the symbols `e` of
phase 4. Here the challenges that pass phase 6 are counted for any `e` and any `b`.

Symbols that are not those of the key are the key's, shifted by a root of unity at each index; the
best `b` survives as many challenges as the multiplicities of these shifts allow.

* `mem_survived_iff`: a challenge passes when the shifts at its indices are those of the blindings.
* `card_survived_le`, `exists_survived`: the best blindings.
* `cheating_count`: the script's count is that of the symbols with which a server survives more
  challenges than the threshold.
-/

namespace HocusPocus.OPRF

open Finset FastResidue SafeTrunc Dpub Arith

variable (o : OPRF Fp) (Key : Fp)

/-- A sequence of symbols as `eval` has it. -/
def symbolAt (e : Fin o.lenCom → UInt64) (i : Nat) : UInt64 :=
  if h : i < o.lenCom then e ⟨i, h⟩ else 0

/-- The challenge, as the client has it and as it sends it. -/
def indexList (c : Fin o.k ↪ Fin o.lenCom) : List Nat := List.ofFn fun i => (c i).val

/-- The challenges for which the openings of `blindedEval`, with the blindings `b`, pass the check
of phase 6 against the symbols `e`. -/
noncomputable def survived (e : Fin o.lenCom → UInt64) (b : Nat → Fp) :
    Finset (Fin o.k ↪ Fin o.lenCom) :=
  {c | o.openingsMatch (o.symbolAt e) (o.indexList c)
    (o.serverOpening Key b ((o.indexList c).map UInt8.ofNat)) = true}

/-- The symbols of the key, shifted at each index by a power of the root of unity. -/
def shifted (delta : Fin o.lenCom → Fin eps) (j : Fin o.lenCom) : UInt64 :=
  truncate ((omega : Fp) ^ (delta j).val * (Key + o.offset (o.lenEval + j)) ^ powDExp)

variable {o Key}

/-! ## Roots of unity -/

theorem omega_pow_mul_root (i : Nat) {x : Fp} (hx : x ≠ 0) :
    ((omega : Fp) ^ i * x ^ powDExp) ^ eps = 1 := by
  rw [mul_pow, ← pow_mul, mul_comm i, pow_mul, omega_pow_eps, one_pow, one_mul, ← pow_mul,
    mul_comm powDExp, pow_mul, pow_eps_pow_D hx]

theorem omega_pow_inj {i j : Fin eps} (h : (omega : Fp) ^ i.val = (omega : Fp) ^ j.val) : i = j :=
  Fin.ext (omega_isPrimitiveRoot.pow_inj i.isLt j.isLt h)

/-- Every power `D` is a power of the root of unity, and each of these is one. -/
theorem exists_omega_pow {x : Fp} (hx : x ≠ 0) :
    ∃ i : Fin eps, x ^ powDExp = (omega : Fp) ^ i.val := by
  have : NeZero eps := ⟨by decide⟩
  have hroot : (x ^ powDExp) ^ eps = 1 := by
    rw [← pow_mul, mul_comm, pow_mul, pow_eps_pow_D hx]
  obtain ⟨i, hi, heq⟩ := omega_isPrimitiveRoot.eq_pow_of_pow_eq_one hroot
  exact ⟨⟨i, hi⟩, heq.symm⟩

theorem two_pow_powDExp (i : Nat) : ((2 : Fp) ^ i) ^ powDExp = (omega : Fp) ^ i := by
  rw [cast_omega, ← pow_mul, ← pow_mul, mul_comm]

/-- Two shifted symbols are equal exactly when the shifts are. -/
theorem truncate_shift_iff {i j : Nat} {x : Fp} (hx : x ≠ 0) :
    truncate ((omega : Fp) ^ i * x ^ powDExp) = truncate ((omega : Fp) ^ j * x ^ powDExp) ↔
      (omega : Fp) ^ i = (omega : Fp) ^ j := by
  constructor
  · intro h
    have heq :=
      truncate_injOn (Or.inr (omega_pow_mul_root i hx)) (Or.inr (omega_pow_mul_root j hx)) h
    exact mul_right_cancel₀ (pow_ne_zero _ hx) heq
  · exact fun h => by rw [h]

/-! ## One challenge -/

/-- The client and the server read the challenge alike. -/
theorem getD_indexList (hbyte : o.lenCom ≤ 256) (c : Fin o.k ↪ Fin o.lenCom) (i : Fin o.k) :
    (o.indexList c).getD i 0 = c i
      ∧ (((o.indexList c).map UInt8.ofNat).getD i 0).toNat = c i := by
  have hlist : (o.indexList c).length = o.k := List.length_ofFn
  have hget : (o.indexList c).getD i 0 = c i := by
    rw [List.getD_eq_getElem _ _ (by rw [hlist]; exact i.isLt)]
    exact List.getElem_ofFn ..
  refine ⟨hget, ?_⟩
  have hlt := (c i).isLt
  rw [List.getD_eq_getElem _ _ (by rw [List.length_map, hlist]; exact i.isLt), List.getElem_map,
    ← List.getD_eq_getElem _ 0 (by rw [hlist]; exact i.isLt), hget, UInt8.toNat_ofNat',
    Nat.mod_eq_of_lt (by omega)]

/-- **A challenge passes** when the blinding of each opening has the symbol that shifts the key's to
the one sent. -/
theorem mem_survived_iff (hbyte : o.lenCom ≤ 256) {e : Fin o.lenCom → UInt64} {b : Nat → Fp}
    {c : Fin o.k ↪ Fin o.lenCom} :
    c ∈ o.survived Key e b ↔
      ∀ i : Fin o.k, presidueEps (b i * (Key + o.offset (o.lenEval + c i))) = e (c i) := by
  rw [survived, mem_filter_univ, openingsMatch, List.all_eq_true]
  have hmatch : ∀ i : Fin o.k,
      (presidueEps (o.serverOpening Key b ((o.indexList c).map UInt8.ofNat) i)
          == o.symbolAt e ((o.indexList c).getD i 0)) = true ↔
        presidueEps (b i * (Key + o.offset (o.lenEval + c i))) = e (c i) := by
    intro i
    obtain ⟨hindex, hsent⟩ := getD_indexList hbyte c i
    rw [beq_iff_eq, serverOpening, hsent, hindex, symbolAt, dif_pos (c i).isLt]
  constructor
  · exact fun h i => (hmatch i).mp (h i (List.mem_range.mpr i.isLt))
  · exact fun h i hi => (hmatch ⟨i, List.mem_range.mp hi⟩).mpr (h ⟨i, List.mem_range.mp hi⟩)

section

variable (hbyte : o.lenCom ≤ 256)
  (hkey : ∀ j : Fin o.lenCom, Key + o.offset (o.lenEval + j) ≠ 0)
  (delta : Fin o.lenCom → Fin eps)

include hbyte hkey

/-- The blindings of a server are answers to the challenge about the shifts. -/
theorem survived_eq {b : Nat → Fp} {beta : Fin o.k → Fin eps}
    (hb : ∀ i : Fin o.k, (b i) ^ powDExp = (omega : Fp) ^ (beta i).val) :
    o.survived Key (o.shifted Key delta) b = survivingChallenges delta beta := by
  ext c
  rw [mem_survived_iff hbyte, survivingChallenges, mem_filter_univ]
  refine forall_congr' fun i => ?_
  rw [presidueEps_eq, mul_pow, hb i, shifted, truncate_shift_iff (hkey (c i))]
  constructor
  · exact fun h => (omega_pow_inj h).symm
  · exact fun h => by rw [h]

/-- **No blindings survive more challenges** than the multiplicities of the shifts allow. -/
theorem card_survived_le (b : Nat → Fp) :
    #(o.survived Key (o.shifted Key delta) b)
      ≤ computeCMax ((multiplicities delta).sort (· ≥ ·)) o.k := by
  by_cases hb : ∀ i : Fin o.k, b i ≠ 0
  · choose beta hbeta using fun i => exists_omega_pow (hb i)
    rw [survived_eq hbyte hkey delta hbeta]
    exact card_survivingChallenges_le (Multiset.sort_eq _ _) beta
  · -- an opening of 0 has the symbol 0, which no shifted symbol is
    obtain ⟨i, hi⟩ : ∃ i : Fin o.k, b i = 0 := by simpa using hb
    have hnone : o.survived Key (o.shifted Key delta) b = ∅ := by
      refine eq_empty_of_forall_notMem fun c hc => ?_
      have hsymbol := (mem_survived_iff hbyte).mp hc i
      rw [hi, zero_mul, (presidueEps_eq_zero_iff 0).mpr rfl] at hsymbol
      have hroot := omega_pow_mul_root (delta (c i)).val (hkey (c i))
      have hval := val_mod_ne_zero hroot
      rw [← toNat_truncate] at hval
      exact hval (congrArg UInt64.toNat hsymbol).symm
    rw [hnone, card_empty]
    exact Nat.zero_le _

/-- **Some blindings survive as many.** -/
theorem exists_survived (hk : o.k ≤ o.lenCom) :
    ∃ b : Nat → Fp, #(o.survived Key (o.shifted Key delta) b)
      = computeCMax ((multiplicities delta).sort (· ≥ ·)) o.k := by
  obtain ⟨beta, hbeta⟩ : ∃ beta : Fin o.k → Fin eps, #(survivingChallenges delta beta)
      = computeCMax ((multiplicities delta).sort (· ≥ ·)) o.k :=
    exists_survivingChallenges (Multiset.sort_eq _ _) hk
  let b (i : Nat) : Fp := if h : i < o.k then (2 : Fp) ^ (beta ⟨i, h⟩).val else 1
  refine ⟨b, ?_⟩
  rw [survived_eq hbyte hkey delta fun i => ?_, hbeta]
  simp only [b, dif_pos i.isLt]
  exact two_pow_powDExp _

omit hbyte in
/-- Different shifts give different symbols. -/
theorem shifted_injective : Function.Injective (o.shifted Key) := fun _ _ h =>
  funext fun j => omega_pow_inj ((truncate_shift_iff (hkey j)).mp (congrFun h j))

omit hbyte in
/-- The shifts of the key's symbols are all sequences of symbols of elements that are not 0. -/
theorem mem_range_shifted {e : Fin o.lenCom → UInt64} :
    e ∈ Set.range (o.shifted Key) ↔ ∀ j, ∃ x : Fp, x ≠ 0 ∧ presidueEps x = e j := by
  have htwo : ∀ i : Nat, (2 : Fp) ^ i ≠ 0 := fun i => pow_ne_zero i fp_two_ne_zero
  constructor
  · rintro ⟨delta, rfl⟩ j
    refine ⟨(2 : Fp) ^ (delta j).val * (Key + o.offset (o.lenEval + j)),
      mul_ne_zero (htwo _) (hkey j), ?_⟩
    rw [presidueEps_eq, mul_pow, two_pow_powDExp, shifted]
  · intro h
    choose x hx he using h
    choose delta hdelta using fun j => exists_omega_pow (div_ne_zero (hx j) (hkey j))
    refine ⟨delta, funext fun j => ?_⟩
    rw [shifted, ← hdelta j, ← he j, presidueEps_eq, ← mul_pow, div_mul_cancel₀ _ (hkey j)]

end

/-! ## The count of the script -/

/-- **The script's count is about the protocol**: for every key without a symbol 0 it is the number
of sequences of symbols with which some server, whatever its blindings, survives more challenges
than the threshold; and the best server survives exactly `compute_C_max` of them. -/
theorem cheating_count {K : Type*} [Field K] [LinearOrder K] [IsStrictOrderedRing K] (o : OPRF Fp)
    (Key : Fp) (hone : 1 ≤ o.lenCom) (hbyte : o.lenCom ≤ 256) (hk : o.k ≤ o.lenCom)
    (hkey : ∀ j : Fin o.lenCom, Key + o.offset (o.lenEval + j) ≠ 0) (successThreshold : K) :
    computeDeltaPubSize o.lenCom o.k eps successThreshold
        = some (Set.ncard {e : Fin o.lenCom → UInt64 |
            (∀ j, ∃ x : Fp, x ≠ 0 ∧ presidueEps x = e j) ∧
              ∃ b : Nat → Fp, successThreshold * o.lenCom.descFactorial o.k
                < #(o.survived Key e b)}) ∧
      ∀ delta : Fin o.lenCom → Fin eps,
        IsGreatest (Set.range fun b : Nat → Fp => #(o.survived Key (o.shifted Key delta) b))
          (computeCMax ((multiplicities delta).sort (· ≥ ·)) o.k) := by
  refine ⟨?_, fun delta => ⟨?_, ?_⟩⟩
  · have himage : {e : Fin o.lenCom → UInt64 |
        (∀ j, ∃ x : Fp, x ≠ 0 ∧ presidueEps x = e j) ∧
          ∃ b : Nat → Fp, successThreshold * o.lenCom.descFactorial o.k
            < #(o.survived Key e b)}
        = o.shifted Key '' (publicDeltas o.lenCom o.k eps
            (successThreshold * o.lenCom.descFactorial o.k) : Set (Fin o.lenCom → Fin eps)) := by
      ext e
      rw [Set.mem_ofPred_eq, ← mem_range_shifted hkey]
      simp only [Set.mem_image, mem_coe, publicDeltas, mem_filter_univ]
      constructor
      · rintro ⟨⟨delta, rfl⟩, b, hb⟩
        refine ⟨delta, hb.trans_le ?_, rfl⟩
        exact Nat.cast_le.mpr (card_survived_le hbyte hkey delta b)
      · rintro ⟨delta, hdelta, rfl⟩
        obtain ⟨b, hb⟩ := exists_survived hbyte hkey delta hk
        exact ⟨⟨delta, rfl⟩, b, hb ▸ hdelta⟩
    rw [computeDeltaPubSize_eq hone hk, himage,
      Set.ncard_image_of_injective _ (shifted_injective hkey), Set.ncard_coe_finset]
  · obtain ⟨b, hb⟩ := exists_survived hbyte hkey delta hk
    exact ⟨b, hb⟩
  · rintro _ ⟨b, rfl⟩
    exact card_survived_le hbyte hkey delta b

/-- 30 of 53 symbols are opened, at the threshold of the script. -/
theorem cheating_count_example :
    let o : OPRF Fp := { sample with k := 30 }
    computeDeltaPubSize 53 30 eps (1 / 2 ^ 64 : ℚ)
        = some (Set.ncard {e : Fin 53 → UInt64 |
            (∀ j, ∃ x : Fp, x ≠ 0 ∧ presidueEps x = e j) ∧
              ∃ b : Nat → Fp, (1 / 2 ^ 64 : ℚ) * Nat.descFactorial 53 30
                < #(o.survived 0 e b)}) ∧
      ∀ delta : Fin 53 → Fin eps,
        IsGreatest (Set.range fun b : Nat → Fp => #(o.survived 0 (o.shifted 0 delta) b))
          (computeCMax ((multiplicities delta).sort (· ≥ ·)) 30) := by
  intro o
  have hkey : ∀ j : Fin 53, (0 : Fp) + o.offset (o.lenEval + j) ≠ 0 := by
    intro j hzero
    refine sample_server.symbol_ne j j.isLt ((presidueEps_eq_zero_iff _).mpr ?_)
    rwa [Nat.add_comm] at hzero
  exact cheating_count o 0 (by decide) (by decide) (by decide) hkey (1 / 2 ^ 64 : ℚ)

end HocusPocus.OPRF
