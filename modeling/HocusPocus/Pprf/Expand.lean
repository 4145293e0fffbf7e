import HocusPocus.Duplex.Loop
import HocusPocus.Pprf.Levels

/-!
# The two outputs of the puncturable PRF

* `agree_leafLevel`: within a batch the receiver has every leaf of the sender but the punctured one.
* `runs_expand`: after the whole protocol its output is the sender's with one leaf of each tree set
  to 0.
-/

namespace HocusPocus.RegularPprf

open Machine Duplex Arith

variable {aes : Aes} {expand : Block → Nat → UInt8} {p : RegularPprf}
  {sendOTs : Nat → Nat → Nat → Block} {recvOTs : Nat → Nat → Block}
  {choices : Nat → Nat → Bool} {seed : Block} {treeIdx j : Nat}

/-! ## The leaves of a batch -/

theorem or_one_eq (n : Nat) : n ||| 1 = 2 * (n / 2) + 1 := by
  have hdiv : (n ||| 1) / 2 = n / 2 := by
    have h := Nat.or_div_two_pow (a := n) (b := 1) (n := 1)
    rwa [Nat.pow_one, Nat.div_eq_of_lt (by decide : 1 < 2), Nat.or_zero] at h
  have hmod : (n ||| 1) % 2 = 1 := by
    have h := Nat.or_mod_two_pow (a := n) (b := 1) (n := 1)
    rw [Nat.pow_one] at h
    rcases Nat.mod_two_eq_zero_or_one n with hn | hn
    · rw [h, hn]
      rfl
    · rw [h, hn]
      rfl
  omega

/-- The two leaves written last: the sibling of the point, and the point. -/
theorem leaf_targets (point : Nat) :
    (point ^^^ 1) &&& 1 = 1 - point % 2 ∧ Receiver.out point (1 - point % 2) = sibling point
      ∧ Receiver.out point ((1 - point % 2) ^^^ 1) = point := by
  have hside : (point ^^^ 1) &&& 1 = 1 - point % 2 := by
    rw [Nat.and_one_is_mod]
    exact sibling_mod point
  have hsibling := sibling_eq point
  have hor := or_one_eq point
  rcases Nat.mod_two_eq_zero_or_one point with hp | hp
  · rw [hp] at hsibling hside ⊢
    refine ⟨hside, ?_, ?_⟩
    · simp only [Receiver.out, Nat.sub_zero, one_ne_zero, if_false]
      omega
    · simp only [Receiver.out, Nat.sub_zero, Nat.xor_self, if_true]
      omega
  · rw [hp] at hsibling hside ⊢
    refine ⟨hside, ?_, ?_⟩
    · simp only [Receiver.out, Nat.sub_self, if_true]
      omega
    · simp only [Receiver.out, Nat.sub_self, Nat.zero_xor, one_ne_zero, if_false]
      omega

/-- The message of the leaves that the receiver can unmask. -/
theorem unmask_leaf (hj : j < p.remTrees treeIdx)
    (hot : ∀ c < p.mDepth,
      recvOTs (j + treeIdx) c = sendOTs (treeIdx + j) c (choices (j + treeIdx) c).toNat) :
    Receiver.leafMsg p treeIdx (batchBuffer aes expand p sendOTs seed treeIdx) j
          (1 - Receiver.getPoints p choices (j + treeIdx) % 2)
        ^^^ leafMask expand (recvOTs (j + treeIdx) 0)
      = Sender.leafSum aes p seed treeIdx
          (1 - Receiver.getPoints p choices (j + treeIdx) % 2) j := by
  have hpos : 0 < p.mDepth := one_le_mDepth
  have hbit : Receiver.getPoints p choices (j + treeIdx) % 2 = (choices (j + treeIdx) 0).toNat := by
    rw [← getPoints_testBit choices (j + treeIdx) hpos, Nat.toNat_testBit, Nat.pow_zero,
      Nat.div_one]
  have hside : 1 ^^^ (1 - Receiver.getPoints p choices (j + treeIdx) % 2)
      = (choices (j + treeIdx) 0).toNat := by
    rw [hbit]
    cases choices (j + treeIdx) 0 <;> rfl
  rw [leafMsg_batchBuffer hj (by omega), Sender.leafMsg, hside, ← hot 0 hpos,
    xorBytes_cancel_right]

/-- The parent of the point is the node the receiver misses on the last inner level. -/
theorem point_parent (point : Nat) :
    point / 2 = ancestor p.mDepth point (p.mDepth - 1) := by
  have hpos : 1 ≤ p.mDepth := one_le_mDepth
  have h : ancestor p.mDepth point (p.mDepth - 1 + 1) / 2
      = ancestor p.mDepth point (p.mDepth - 1) := ancestor_succ (by omega) point
  rwa [Nat.sub_add_cancel hpos, ancestor_depth] at h

/-- **The leaf beside the punctured one comes out of the sum the receiver can unmask.** -/
theorem leaf_sibling (hj : j < p.remTrees treeIdx)
    (hot : ∀ c < p.mDepth,
      recvOTs (j + treeIdx) c = sendOTs (treeIdx + j) c (choices (j + treeIdx) c).toNat)
    (hpoint : Receiver.getPoints p choices (j + treeIdx) < p.mDomain) (k : Nat) :
    subEpi64 (Sender.leafSum aes p seed treeIdx k j)
        (Receiver.leafSum aes p choices recvOTs treeIdx
          (batchBuffer aes expand p sendOTs seed treeIdx) k j)
      = leafChild aes k (senderRow aes seed treeIdx j (p.mDepth - 1)
          (Receiver.getPoints p choices (j + treeIdx) / 2)) := by
  have hparent := point_parent (p := p) (Receiver.getPoints p choices (j + treeIdx))
  rw [Sender.leafSum, Receiver.leafSum, levelWidth_eq, hparent]
  by_cases hdepth : 1 < p.mDepth
  · -- the hash of the missing parent, which is 0, is taken off before the level is added up
    have hknown := known_level aes expand seed hj hot hpoint (d := p.mDepth - 2) (by omega)
    rw [show p.mDepth - 2 + 1 = p.mDepth - 1 by omega] at hknown
    have hneg : addEpi64 (subEpi64 zeroBlock (leafChild aes k zeroBlock))
        (leafChild aes k (Receiver.level aes p choices recvOTs treeIdx
          (batchBuffer aes expand p sendOTs seed treeIdx) (p.mDepth - 2)
          (ancestor p.mDepth (Receiver.getPoints p choices (j + treeIdx)) (p.mDepth - 1)) j))
        = zeroBlock := by
      rw [hknown.missing, addEpi64_sub]
    have hcancel := (hknown.agree.map (leafChild aes k)).accumulate_cancel addEpi64
      (ancestor_lt hpoint _) hneg
    rw [if_pos hdepth]
    refine (congrArg (subEpi64 · _) hcancel).trans ?_
    rw [subEpi64_add]
  · have hroot : ancestor p.mDepth (Receiver.getPoints p choices (j + treeIdx)) 0
        < width p.mDomain p.mDepth 0 := ancestor_lt hpoint 0
    rw [width_root] at hroot
    rw [if_neg hdepth, show p.mDepth - 1 = 0 by omega, width_root, accumulate_succ,
      accumulate_zero, zeroBlock, zeroBytes_addEpi64, subEpi64_zeroBytes, Nat.lt_one_iff.mp hroot]
    rfl

/-- **The leaves of a batch**: the receiver has the sender's, and 0 at its point. -/
theorem agree_leafLevel (hj : j < p.remTrees treeIdx)
    (hot : ∀ c < p.mDepth,
      recvOTs (j + treeIdx) c = sendOTs (treeIdx + j) c (choices (j + treeIdx) c).toNat)
    (hpoint : Receiver.getPoints p choices (j + treeIdx) < p.mDomain) {i : Nat}
    (hi : i < p.mDomain) :
    Receiver.leafLevel aes expand p choices recvOTs treeIdx
        (batchBuffer aes expand p sendOTs seed treeIdx) i j
      = if i = Receiver.getPoints p choices (j + treeIdx) then zeroBlock
        else Sender.leafLevel aes p seed treeIdx i j := by
  obtain ⟨hside, hkeep, hzero⟩ := leaf_targets (Receiver.getPoints p choices (j + treeIdx))
  simp only [Receiver.leafLevel, hside, hkeep, hzero]
  rw [unmask_leaf hj hot, leaf_sibling hj hot hpoint]
  by_cases hleft : i = sibling (Receiver.getPoints p choices (j + treeIdx))
  · subst hleft
    rw [if_pos rfl, if_neg (sibling_ne _), ← sibling_mod, ← sibling_div]
    rfl
  rw [if_neg hleft]
  by_cases hright : i = Receiver.getPoints p choices (j + treeIdx)
  · rw [if_pos hright, if_pos hright]
  rw [if_neg hright, if_neg hright]
  have hne : i / 2 ≠ Receiver.getPoints p choices (j + treeIdx) / 2 := fun h =>
    (eq_or_eq_sibling h).elim hright hleft
  have hpos : 1 ≤ p.mDepth := one_le_mDepth
  have hrow : i < 2 * width p.mDomain p.mDepth (p.mDepth - 1) := by
    rwa [two_mul_width_pred p.even hpos]
  by_cases hdepth : 1 < p.mDepth
  · have hknown := known_level aes expand seed hj hot hpoint (d := p.mDepth - 2) (by omega)
    rw [show p.mDepth - 2 + 1 = p.mDepth - 1 by omega] at hknown
    rw [point_parent (Receiver.getPoints p choices (j + treeIdx))] at hne
    exact (hknown.agree.children hrow hne).symm
  · -- with two leaves there is no other leaf
    rw [show p.mDepth - 1 = 0 by omega, width_root] at hrow
    have htwo : p.mDomain ≤ 2 := by
      have hle := p.mDomain_le
      rwa [show p.mDepth = 1 by omega] at hle
    omega

/-! ## The whole protocol -/

/-- What a batch writes into the output. -/
theorem copyOut_apply {leaf : TreeLevel} {output : Nat → Block} {t i : Nat} (hi : i < p.mDomain) :
    p.copyOut leaf treeIdx output (p.mDomain * t + i)
      = if treeIdx ≤ t ∧ t < treeIdx + p.remTrees treeIdx then leaf i (t - treeIdx)
        else output (p.mDomain * t + i) := by
  have htwo := p.two_le
  have hdiv : (p.mDomain * t + i) / p.mDomain = t := by
    rw [Nat.mul_add_div (by omega), Nat.div_eq_of_lt hi, Nat.add_zero]
  have hmod : (p.mDomain * t + i) % p.mDomain = i := by
    rw [Nat.mul_add_mod, Nat.mod_eq_of_lt hi]
  simp only [copyOut, hdiv, hmod]

/-- The outputs agree off the points, for the trees below `n`. -/
def OutputsAgree (p : RegularPprf) (choices : Nat → Nat → Bool) (n : Nat) (a b : Nat → Block) :
    Prop :=
  ∀ t < n, t < p.mPntCount → ∀ i < p.mDomain,
    a (p.mDomain * t + i)
      = if i = Receiver.getPoints p choices t then zeroBlock else b (p.mDomain * t + i)

/-- One batch more. -/
theorem OutputsAgree.batch {n : Nat} {a b : Nat → Block}
    (hot : ∀ t < p.mPntCount, ∀ c < p.mDepth, recvOTs t c = sendOTs t c (choices t c).toNat)
    (hpoint : ∀ t < p.mPntCount, Receiver.getPoints p choices t < p.mDomain)
    (h : OutputsAgree p choices (8 * n) a b) :
    OutputsAgree p choices (8 * (n + 1))
      (p.copyOut (Receiver.leafLevel aes expand p choices recvOTs (8 * n)
        (batchBuffer aes expand p sendOTs seed (8 * n))) (8 * n) a)
      (p.copyOut (Sender.leafLevel aes p seed (8 * n)) (8 * n) b) := by
  intro t ht htrees i hi
  rw [copyOut_apply hi, copyOut_apply hi]
  rcases Nat.lt_or_ge t (8 * n) with hold | hnew
  · have hout : ¬ (8 * n ≤ t ∧ t < 8 * n + p.remTrees (8 * n)) := by omega
    rw [if_neg hout, if_neg hout]
    exact h t hold htrees i hi
  · obtain ⟨j, rfl⟩ := Nat.exists_eq_add_of_le hnew
    have hj : j < p.remTrees (8 * n) := by
      unfold remTrees
      omega
    have hin : 8 * n ≤ 8 * n + j ∧ 8 * n + j < 8 * n + p.remTrees (8 * n) := by omega
    rw [if_pos hin, if_pos hin, Nat.add_sub_cancel_left]
    rw [Nat.add_comm] at htrees ⊢
    refine agree_leafLevel hj (fun c hc => ?_) (hpoint _ htrees) hi
    rw [hot _ htrees c hc, Nat.add_comm j]

/-- **The puncturable PRF**: whenever the base OTs are correct and the points are in the domain, a
run ends, and the receiver has every leaf of the sender but one of each tree, which is 0. -/
theorem runs_expand (aes : Aes) (expand : Block → Nat → UInt8) (p : RegularPprf)
    (sendOTs : Nat → Nat → Nat → Block) (recvOTs : Nat → Nat → Block)
    (choices : Nat → Nat → Bool) (seed : Block)
    (hot : ∀ t < p.mPntCount, ∀ c < p.mDepth, recvOTs t c = sendOTs t c (choices t c).toNat)
    (hpoint : ∀ t < p.mPntCount, Receiver.getPoints p choices t < p.mDomain) :
    ∃ a b, Runs (p.receiverExpand aes expand choices recvOTs)
        (p.senderExpand aes expand sendOTs seed) a b
      ∧ OutputsAgree p choices p.mPntCount a b := by
  have hround : ∀ batch < divCeil p.mPntCount 8, ∀ a b, OutputsAgree p choices (8 * batch) a b →
      ∃ a' b', Runs (receiverBatch aes expand p choices recvOTs a batch)
          (senderBatch aes expand p sendOTs seed b batch) a' b'
        ∧ OutputsAgree p choices (8 * (batch + 1)) a' b' :=
    fun batch _ a b h =>
      ⟨_, _, runs_recv_put length_batchBuffer (runs_ret _ _), h.batch hot hpoint⟩
  obtain ⟨a, b, hruns, hagree⟩ := runs_foldlM (fun t ht => absurd ht (Nat.not_lt_zero t))
    (divCeil p.mPntCount 8) hround
  refine ⟨a, b, hruns, fun t ht => hagree t ?_⟩
  unfold divCeil
  omega

/-! ## From `configure` and `sampleChoiceBits` on -/

/-- The points that `sampleChoiceBits` draws. -/
theorem getPoints_sampleChoiceBits (prng : Prng) (t : Nat) :
    Receiver.getPoints p (Receiver.sampleChoiceBits p prng) t
      = leValue ((prng.skip (8 * t)).bytes 8) % p.mDomain := by
  have htwo := p.two_le
  refine Nat.eq_of_testBit_eq fun k => ?_
  rw [Receiver.getPoints, testBit_orBits]
  by_cases hk : k < p.mDepth
  · rw [decide_eq_true hk, Bool.true_and]
    rfl
  · have hmod := Nat.mod_lt (leValue ((prng.skip (8 * t)).bytes 8)) (by omega : p.mDomain > 0)
    have hpow : p.mDomain ≤ 2 ^ k :=
      p.mDomain_le.trans (Nat.pow_le_pow_right Nat.zero_lt_two (Nat.le_of_not_lt hk))
    rw [decide_eq_false hk, Bool.false_and, Nat.testBit_lt_two_pow (hmod.trans_le hpow)]

/-- Base OT `c` of tree `t`, among those of all trees. -/
theorem setBase_index {t c : Nat} (ht : t < p.mPntCount) (hc : c < p.mDepth) :
    t * p.mDepth + c < p.baseOtCount ∧ (t * p.mDepth + c) / p.mDepth = t
      ∧ (t * p.mDepth + c) % p.mDepth = c := by
  have hpos : 0 < p.mDepth := Nat.zero_lt_of_lt hc
  refine ⟨?_, ?_, ?_⟩
  · calc t * p.mDepth + c < t * p.mDepth + p.mDepth := by omega
      _ = p.mDepth * (t + 1) := by ring
      _ ≤ p.baseOtCount := Nat.mul_le_mul_left _ ht
  · rw [Nat.mul_comm, Nat.mul_add_div hpos, Nat.div_eq_of_lt hc, Nat.add_zero]
  · rw [Nat.mul_comm, Nat.mul_add_mod, Nat.mod_eq_of_lt hc]

/-- The points of a generator, and its base OTs tree by tree. -/
theorem runs_sampled (aes : Aes) (expand : Block → Nat → UInt8) (p : RegularPprf) (prng : Prng)
    (seed : Block) (sendMessages : Nat → Nat → Block) (recvMessages : Nat → Block)
    (hot : ∀ m < p.baseOtCount, recvMessages m
      = sendMessages m (Receiver.choices p (Receiver.sampleChoiceBits p prng) m).toNat) :
    ∃ a b, Runs
        (p.receiverExpand aes expand (Receiver.sampleChoiceBits p prng)
          (Receiver.setBase p recvMessages))
        (p.senderExpand aes expand (Sender.setBase p sendMessages) seed) a b
      ∧ OutputsAgree p (Receiver.sampleChoiceBits p prng) p.mPntCount a b := by
  have htwo := p.two_le
  refine runs_expand aes expand p _ _ _ seed (fun t ht c hc => ?_) fun t _ => ?_
  · obtain ⟨hlt, hdiv, hmod⟩ := setBase_index ht hc
    rw [Receiver.setBase, hot _ hlt, Receiver.choices, hdiv, hmod]
    rfl
  · rw [getPoints_sampleChoiceBits]
    exact Nat.mod_lt _ (by omega)

/-- **The puncturable PRF end to end**: for any domain and number of trees that `configure` takes,
any generator and correct base OTs, every schedule ends; the receiver has the sender's leaves but
for the one at its point, which is 0, and the point is the number drawn, modulo the domain. -/
theorem expand_correct (aes : Aes) (expand : Block → Nat → UInt8) {domainSize pointCount : Nat}
    {p : RegularPprf} (hp : configure domainSize pointCount = some p) (prng : Prng) (seed : Block)
    (sendMessages : Nat → Nat → Block) (recvMessages : Nat → Block)
    (hot : ∀ m < p.baseOtCount, recvMessages m
      = sendMessages m (Receiver.choices p (Receiver.sampleChoiceBits p prng) m).toNat) :
    ∃ a b : Nat → Block, Completes
        (p.receiverExpand aes expand (Receiver.sampleChoiceBits p prng)
          (Receiver.setBase p recvMessages))
        (p.senderExpand aes expand (Sender.setBase p sendMessages) seed) a b
      ∧ ∀ t < pointCount, ∀ i < domainSize,
          a (domainSize * t + i)
            = if i = leValue ((prng.skip (8 * t)).bytes 8) % domainSize then zeroBlock
              else b (domainSize * t + i) := by
  obtain ⟨a, b, hruns, hagree⟩ :=
    runs_sampled aes expand p prng seed sendMessages recvMessages hot
  unfold configure at hp
  split at hp
  · obtain rfl := Option.some.inj hp
    refine ⟨a, b, hruns.completes, fun t ht i hi => ?_⟩
    rw [hagree t ht ht i hi, getPoints_sampleChoiceBits]
  · cases hp

/-- Nine trees of six leaves, with one string for all base OTs. -/
theorem expand_correct_example :
    let aes : Aes := ⟨fun key x => key ^^^ addEpi64 x key, fun state key => addEpi64 state key⟩
    let p : RegularPprf := ⟨6, 9, rfl, by decide⟩
    let prng : Prng := ⟨fun i => UInt8.ofNat (3 * i), 0⟩
    let string : Block := Vector.replicate 16 5
    ∃ a b : Nat → Block, Completes
        (p.receiverExpand aes shiftedSeed (Receiver.sampleChoiceBits p prng)
          (Receiver.setBase p fun _ => string))
        (p.senderExpand aes shiftedSeed (Sender.setBase p fun _ _ => string) string) a b
      ∧ ∀ t < 9, ∀ i < 6,
          a (6 * t + i)
            = if i = leValue ((prng.skip (8 * t)).bytes 8) % 6 then zeroBlock
              else b (6 * t + i) := by
  intro aes p prng string
  exact expand_correct aes shiftedSeed (p := p) rfl prng string _ _ fun _ _ => rfl

end HocusPocus.RegularPprf
