import HocusPocus.Pprf.Model

/-!
# What the receiver of the puncturable PRF reconstructs

One tree of one batch. The receiver has, for each level, the base OT its choice bit selects, so it
unmasks one of the two sums of that level, and the nodes it holds cancel all of that sum but the
one node it misses.

* `getPoints_testBit`: the point of a tree is made of its choice bits.
* `theirSum_batchBuffer`, `leafMsg_batchBuffer`: the receiver reads what the sender wrote.
* `known_level`: on each level the receiver has every node of the sender but the one above its
  point.
-/

namespace HocusPocus.RegularPprf

open Machine Arith

variable {aes : Aes} {expand : Block → Nat → UInt8} {p : RegularPprf}

/-! ## The depth -/

theorem mDomain_le : p.mDomain ≤ 2 ^ p.mDepth := by
  have := Nat.lt_size_self (p.mDomain - 1)
  unfold mDepth log2ceil
  omega

theorem one_le_mDepth : 1 ≤ p.mDepth := by
  have htwo := p.two_le
  refine Nat.one_le_iff_ne_zero.mpr fun hzero => ?_
  have hle := p.mDomain_le
  rw [hzero] at hle
  omega

theorem levelWidth_eq (d : Nat) : p.levelWidth d = width p.mDomain p.mDepth d := by
  rw [levelWidth, divCeil, Nat.one_shiftLeft, width]

/-- A tree has one root. -/
theorem width_root : width p.mDomain p.mDepth 0 = 1 := by
  have htwo := p.two_le
  have hle := p.mDomain_le
  rw [width, Nat.sub_zero]
  exact Nat.div_eq_of_lt_le (by omega) (by omega)

/-! ## The points -/

/-- **The bits of a point are the choice bits of its tree.** -/
theorem getPoints_testBit (mBaseChoices : Nat → Nat → Bool) (t : Nat) {k : Nat}
    (hk : k < p.mDepth) :
    (Receiver.getPoints p mBaseChoices t).testBit k = mBaseChoices t k := by
  rw [Receiver.getPoints, testBit_orBits, decide_eq_true hk, Bool.true_and]

/-- The choice bit for a level is the side of the node above the point. -/
theorem ancestor_mod_two (choices : Nat → Nat → Bool) (t : Nat) {d : Nat} (hd : d < p.mDepth) :
    ancestor p.mDepth (Receiver.getPoints p choices t) (d + 1) % 2
      = (choices t (p.mDepth - 1 - d)).toNat := by
  have hsub : p.mDepth - (d + 1) = p.mDepth - 1 - d := by omega
  rw [ancestor_eq, hsub, ← getPoints_testBit choices t (show p.mDepth - 1 - d < p.mDepth by omega),
    Nat.toNat_testBit]

/-! ## What is sent -/

section

variable {mBaseOTs : Nat → Nat → Nat → Block} {seed : Block} {treeIdx : Nat}

/-- What the sender writes for a batch. -/
def batchBuffer (aes : Aes) (expand : Block → Nat → UInt8) (p : RegularPprf)
    (mBaseOTs : Nat → Nat → Nat → Block) (seed : Block) (treeIdx : Nat) : Bytes :=
  concat (Sender.blocks aes expand p mBaseOTs seed treeIdx)

theorem length_batchBuffer :
    (batchBuffer aes expand p mBaseOTs seed treeIdx).length
      = 16 * (2 * ((p.mDepth - 1) * p.remTrees treeIdx) + 2 * p.remTrees treeIdx) := by
  rw [batchBuffer, length_concat, Sender.blocks, List.length_append, length_grid, length_grid]
  ring

/-- The receiver reads the pairs of sums. -/
theorem theirSum_batchBuffer {d j k : Nat} (hd : d < p.mDepth - 1) (hj : j < p.remTrees treeIdx)
    (hk : k < 2) :
    Receiver.theirSum p treeIdx (batchBuffer aes expand p mBaseOTs seed treeIdx) d j k
      = Sender.encSum aes p mBaseOTs seed treeIdx d j k := by
  have hrow : d * p.remTrees treeIdx + j < (p.mDepth - 1) * p.remTrees treeIdx := by
    calc d * p.remTrees treeIdx + j < d * p.remTrees treeIdx + p.remTrees treeIdx := by omega
      _ = (d + 1) * p.remTrees treeIdx := by ring
      _ ≤ (p.mDepth - 1) * p.remTrees treeIdx := Nat.mul_le_mul_right _ hd
  have hindex : 2 * sumIndex (p.remTrees treeIdx) d j + k
      = (d * p.remTrees treeIdx + j) * 2 + k := by
    rw [sumIndex]
    ring
  have hleft : (d * p.remTrees treeIdx + j) * 2 + k
      < (grid ((p.mDepth - 1) * p.remTrees treeIdx) 2 fun r k => Sender.encSum aes p mBaseOTs seed
          treeIdx (r / p.remTrees treeIdx) (r % p.remTrees treeIdx) k).length := by
    rw [length_grid]
    omega
  have hpos : 0 < p.remTrees treeIdx := by omega
  rw [Receiver.theirSum, batchBuffer, hindex, Sender.blocks,
    block_concat _ (by rw [List.length_append]; omega), List.getElem_append_left hleft,
    getElem_grid _ hrow hk, Nat.mul_comm d, Nat.mul_add_div hpos, Nat.div_eq_of_lt hj, Nat.add_zero,
    Nat.mul_add_mod, Nat.mod_eq_of_lt hj]

/-- The receiver reads the messages of the leaves. -/
theorem leafMsg_batchBuffer {j k : Nat} (hj : j < p.remTrees treeIdx) (hk : k < 2) :
    Receiver.leafMsg p treeIdx (batchBuffer aes expand p mBaseOTs seed treeIdx) j k
      = Sender.leafMsg aes expand p mBaseOTs seed treeIdx j k := by
  have hlen : (grid ((p.mDepth - 1) * p.remTrees treeIdx) 2 fun r k => Sender.encSum aes p mBaseOTs
      seed treeIdx (r / p.remTrees treeIdx) (r % p.remTrees treeIdx) k).length
      = 2 * ((p.mDepth - 1) * p.remTrees treeIdx) := by
    rw [length_grid, Nat.mul_comm]
  have hlast : j * 2 + k
      < (grid (p.remTrees treeIdx) 2
          (Sender.leafMsg aes expand p mBaseOTs seed treeIdx)).length := by
    rw [length_grid]
    omega
  have hindex : 2 * ((p.mDepth - 1) * p.remTrees treeIdx) + (2 * j + k)
        - 2 * ((p.mDepth - 1) * p.remTrees treeIdx) = j * 2 + k := by
    omega
  rw [Receiver.leafMsg, batchBuffer, Sender.blocks,
    block_concat _ (by rw [List.length_append, hlen]; omega),
    List.getElem_append_right (by rw [hlen]; omega)]
  simp only [hlen, hindex]
  exact getElem_grid _ hj hk hlast

end

/-! ## The inner levels -/

section

variable {sendOTs : Nat → Nat → Nat → Block} {recvOTs : Nat → Nat → Block}
  {choices : Nat → Nat → Bool} {seed : Block} {treeIdx j : Nat}

/-- What the sender's tree `j` has on a level. -/
def senderRow (aes : Aes) (seed : Block) (treeIdx j d : Nat) : Nat → Block :=
  fun i => Sender.level aes seed treeIdx d i j

theorem senderRow_succ (d : Nat) :
    senderRow aes seed treeIdx j (d + 1)
      = children (innerChild aes) (senderRow aes seed treeIdx j d) := rfl

/-- The receiver's rows agree with the sender's off the node above the point, where they are 0. -/
structure Known (p : RegularPprf) (aes : Aes) (seed : Block) (treeIdx j point d : Nat)
    (row : Nat → Block) : Prop where
  agree : AgreeOff (width p.mDomain p.mDepth d) (ancestor p.mDepth point d)
    (senderRow aes seed treeIdx j d) row
  missing : row (ancestor p.mDepth point d) = zeroBlock

/-- The base OT of the receiver takes the mask off the sum that its choice bit selects. -/
theorem unmask (aes : Aes) (expand : Block → Nat → UInt8) (seed : Block) {d : Nat}
    (hd : d < p.mDepth - 1) (hj : j < p.remTrees treeIdx)
    (hot : ∀ c < p.mDepth,
      recvOTs (j + treeIdx) c = sendOTs (treeIdx + j) c (choices (j + treeIdx) c).toNat) :
    Receiver.theirSum p treeIdx (batchBuffer aes expand p sendOTs seed treeIdx) d j
        (1 - ancestor p.mDepth (Receiver.getPoints p choices (j + treeIdx)) (d + 1) % 2)
      = Sender.sum aes p seed treeIdx d
          (1 - ancestor p.mDepth (Receiver.getPoints p choices (j + treeIdx)) (d + 1) % 2) j
        ^^^ recvOTs (j + treeIdx) (p.mDepth - 1 - d) := by
  have hbit := ancestor_mod_two choices (j + treeIdx) (show d < p.mDepth by omega)
  have hside : 1 - (1 - ancestor p.mDepth (Receiver.getPoints p choices (j + treeIdx)) (d + 1) % 2)
      = (choices (j + treeIdx) (p.mDepth - 1 - d)).toNat := by
    omega
  rw [theirSum_batchBuffer hd hj (by omega), Sender.encSum, hside, ← hot _ (by omega)]

theorem innerChild_zero (k : Nat) :
    innerChild aes k zeroBlock = Receiver.inactiveChildValue aes k := by
  unfold innerChild Receiver.inactiveChildValue
  simp only
  split
  · rfl
  · exact addEpi64_zeroBytes _

/-- **The nodes the receiver holds cancel all of a sum but the child of the missing node.** -/
theorem Known.sum {point d : Nat} {level0 : TreeLevel} (hpoint : point < p.mDomain)
    (h : Known p aes seed treeIdx j point d fun i => level0 i j) (k : Nat) :
    Sender.sum aes p seed treeIdx d k j ^^^ Receiver.mySum aes p level0 d k j
      = innerChild aes k (senderRow aes seed treeIdx j d (ancestor p.mDepth point d)) := by
  have hneg : Receiver.inactiveChildValue aes k
      ^^^ innerChild aes k (level0 (ancestor p.mDepth point d) j) = zeroBlock := by
    rw [h.missing, innerChild_zero]
    exact xorBytes_self _
  have hcancel := (h.agree.map (innerChild aes k)).accumulate_cancel (fun a b => a ^^^ b)
    (ancestor_lt hpoint d) hneg
  rw [Sender.sum, Receiver.mySum, levelWidth_eq]
  refine (congrArg (· ^^^ _) hcancel).trans ?_
  rw [xorBytes_comm, xorBytes_cancel_left]

/-- The first level: the child of the root that is not above the point. -/
theorem known_firstLevel (hdepth : 1 < p.mDepth) (hj : j < p.remTrees treeIdx)
    (hot : ∀ c < p.mDepth,
      recvOTs (j + treeIdx) c = sendOTs (treeIdx + j) c (choices (j + treeIdx) c).toNat)
    (hpoint : Receiver.getPoints p choices (j + treeIdx) < p.mDomain) :
    Known p aes seed treeIdx j (Receiver.getPoints p choices (j + treeIdx)) 1
      fun i => Receiver.firstLevel p choices recvOTs treeIdx
        (batchBuffer aes expand p sendOTs seed treeIdx) i j := by
  have hpos : 0 < p.mDepth := Nat.zero_lt_of_lt hdepth
  have hroot : ancestor p.mDepth (Receiver.getPoints p choices (j + treeIdx)) 0
      < width p.mDomain p.mDepth 0 := ancestor_lt hpoint 0
  have hparent := ancestor_succ hpos (Receiver.getPoints p choices (j + treeIdx))
  have hwidth := width_succ_le hpos p.mDomain
  have hbit := ancestor_mod_two choices (j + treeIdx) hpos
  have hmask := unmask aes expand seed (d := 0) (Nat.sub_pos_of_lt hdepth) hj hot
  rw [width_root] at hwidth hroot
  simp only [Nat.zero_add, Nat.sub_zero] at hparent hwidth hbit hmask
  obtain ⟨q, hq⟩ : ∃ q, ancestor p.mDepth (Receiver.getPoints p choices (j + treeIdx)) 1 = q :=
    ⟨_, rfl⟩
  rw [hq] at hparent hbit hmask
  have hactive : (choices (j + treeIdx) (p.mDepth - 1)).toNat ^^^ 1 = 1 - q % 2 := by
    rw [hbit]
    cases choices (j + treeIdx) (p.mDepth - 1) <;> rfl
  refine ⟨fun i hi hne => ?_, ?_⟩
  · -- below the root there are two nodes, and the receiver is sent the one that is not `q`
    rw [hq] at hne
    have hside : i = 1 - q % 2 := by omega
    have hnode : i / 2 = 0 ∧ i % 2 = i := by omega
    have hsum : Sender.sum aes p seed treeIdx 0 i j
        = innerChild aes i (senderRow aes seed treeIdx j 0 0) := by
      rw [Sender.sum, levelWidth_eq, width_root, accumulate_succ, accumulate_zero]
      exact zeroBytes_xor _
    rw [Receiver.firstLevel, hactive, if_pos hside, hmask, ← hside, xorBytes_comm,
      xorBytes_cancel_right, hsum, senderRow_succ, children, hnode.1, hnode.2]
  · rw [hq, Receiver.firstLevel, hactive, if_neg (by omega)]

/-- The node beside the missing one. -/
theorem nextLevel_sibling {buff : Bytes} {d q : Nat} {level0 : TreeLevel}
    (hq : Receiver.getPoints p choices (j + treeIdx) >>> (p.mDepth - 1 - d) = q) :
    Receiver.nextLevel aes p choices recvOTs treeIdx buff d level0 (sibling q) j
      = Receiver.theirSum p treeIdx buff d j (1 - q % 2)
          ^^^ Receiver.mySum aes p level0 d (1 - q % 2) j
          ^^^ recvOTs (j + treeIdx) (p.mDepth - 1 - d) := by
  have hside : (q ^^^ 1) &&& 1 = 1 - q % 2 := by
    rw [Nat.and_one_is_mod]
    exact sibling_mod q
  simp only [Receiver.nextLevel, hq]
  rw [if_neg (sibling_ne q), if_pos (show sibling q = q ^^^ 1 from rfl), hside]

/-- The nodes below the other parents. -/
theorem nextLevel_rest {buff : Bytes} {d q i : Nat} {level0 : TreeLevel}
    (hq : Receiver.getPoints p choices (j + treeIdx) >>> (p.mDepth - 1 - d) = q)
    (hi : i / 2 ≠ q / 2) :
    Receiver.nextLevel aes p choices recvOTs treeIdx buff d level0 i j
      = children (innerChild aes) (fun i => level0 i j) i := by
  have hsibling : i ≠ q ^^^ 1 := by
    intro heq
    exact hi (heq ▸ sibling_div q)
  have hne : i ≠ q := fun heq => hi (congrArg (· / 2) heq)
  simp only [Receiver.nextLevel, hq]
  rw [if_neg hne, if_neg hsibling]

/-- One level down. -/
theorem known_nextLevel {d : Nat} {level0 : TreeLevel} (hd : d < p.mDepth - 1)
    (hj : j < p.remTrees treeIdx)
    (hot : ∀ c < p.mDepth,
      recvOTs (j + treeIdx) c = sendOTs (treeIdx + j) c (choices (j + treeIdx) c).toNat)
    (hpoint : Receiver.getPoints p choices (j + treeIdx) < p.mDomain)
    (h : Known p aes seed treeIdx j (Receiver.getPoints p choices (j + treeIdx)) d
      fun i => level0 i j) :
    Known p aes seed treeIdx j (Receiver.getPoints p choices (j + treeIdx)) (d + 1)
      fun i => Receiver.nextLevel aes p choices recvOTs treeIdx
        (batchBuffer aes expand p sendOTs seed treeIdx) d level0 i j := by
  have hlt : d < p.mDepth := by omega
  have hmask := unmask aes expand seed hd hj hot
  have hsum := h.sum hpoint
    (1 - ancestor p.mDepth (Receiver.getPoints p choices (j + treeIdx)) (d + 1) % 2)
  have hparent := ancestor_succ hlt (Receiver.getPoints p choices (j + treeIdx))
  obtain ⟨q, hq⟩ :
      ∃ q, ancestor p.mDepth (Receiver.getPoints p choices (j + treeIdx)) (d + 1) = q := ⟨_, rfl⟩
  rw [hq] at hmask hsum hparent
  have hmissing : Receiver.getPoints p choices (j + treeIdx) >>> (p.mDepth - 1 - d) = q := by
    rw [← hq, ancestor, Nat.sub_sub, Nat.add_comm 1 d]
  constructor
  · rw [hq, senderRow_succ]
    refine (h.agree.repair hparent ?_ fun i hi => ?_).mono (width_succ_le hlt p.mDomain)
    · calc Receiver.nextLevel aes p choices recvOTs treeIdx
            (batchBuffer aes expand p sendOTs seed treeIdx) d level0 (sibling q) j
          = Sender.sum aes p seed treeIdx d (1 - q % 2) j
              ^^^ recvOTs (j + treeIdx) (p.mDepth - 1 - d)
              ^^^ Receiver.mySum aes p level0 d (1 - q % 2) j
              ^^^ recvOTs (j + treeIdx) (p.mDepth - 1 - d) := by
            rw [nextLevel_sibling hmissing, hmask]
        _ = Sender.sum aes p seed treeIdx d (1 - q % 2) j
              ^^^ Receiver.mySum aes p level0 d (1 - q % 2) j := by
            rw [xorBytes_assoc, xorBytes_comm (Receiver.mySum aes p level0 d (1 - q % 2) j),
              ← xorBytes_assoc, xorBytes_cancel_right]
        _ = _ := hsum
    · exact nextLevel_rest hmissing (hparent ▸ hi)
  · rw [hq]
    simp only [Receiver.nextLevel, hmissing, if_true]

/-- **On every level the receiver misses the node above its point, and no other.** -/
theorem known_level (aes : Aes) (expand : Block → Nat → UInt8) (seed : Block)
    (hj : j < p.remTrees treeIdx)
    (hot : ∀ c < p.mDepth,
      recvOTs (j + treeIdx) c = sendOTs (treeIdx + j) c (choices (j + treeIdx) c).toNat)
    (hpoint : Receiver.getPoints p choices (j + treeIdx) < p.mDomain) {d : Nat}
    (hd : d < p.mDepth - 1) :
    Known p aes seed treeIdx j (Receiver.getPoints p choices (j + treeIdx)) (d + 1)
      fun i => Receiver.level aes p choices recvOTs treeIdx
        (batchBuffer aes expand p sendOTs seed treeIdx) d i j := by
  induction d with
  | zero => exact known_firstLevel (by omega) hj hot hpoint
  | succ d ih => exact known_nextLevel hd hj hot hpoint (ih (Nat.lt_of_succ_lt hd))

end

end HocusPocus.RegularPprf
