import HocusPocus.Machine.Bits

/-!
# Registers of two 64-bit lanes

The instructions on 128-bit registers that work lane by lane, and those that move bytes, 16-bit or
32-bit parts. A part is read and written through its bits, so a move is proved bit by bit.

* `shuffleEpi8_rotate`, `shuffleEpi32_rotate`: the shuffles that rotate both lanes.
* `rotate_eq_xor`, `rotate_eq_add`: a rotation as the xor of two shifts, or of a shift and a sum.
* `bit_ofBlock`, `bitAt_toBlock`: a block and the register it is loaded into have the same bits.
* `bit_slliEpi64`: what a shift of both lanes does to the bits.
* `alignrEpi8_eight`, `blendEpi16_high`, `shuffleEpi32_swap`: the moves of whole lanes.
-/

namespace Machine

/-- A register: its low and its high lane. -/
@[ext] structure M128 where
  lo : BitVec 64
  hi : BitVec 64
deriving DecidableEq

namespace M128

/-! ## Bits and parts -/

/-- The word with the given bits. -/
def ofBit (w : Nat) (bit : Nat → Bool) : BitVec w := BitVec.ofNat w (orBits bit w)

theorem getLsbD_ofBit {w i : Nat} (bit : Nat → Bool) (hi : i < w) :
    (ofBit w bit).getLsbD i = bit i := by
  rw [ofBit, BitVec.getLsbD_ofNat, testBit_orBits, decide_eq_true hi, Bool.true_and, Bool.true_and]

/-- A bit of a register. -/
def bit (x : M128) (i : Nat) : Bool := if i < 64 then x.lo.getLsbD i else x.hi.getLsbD (i - 64)

theorem eq_of_bit {x y : M128} (h : ∀ i < 128, x.bit i = y.bit i) : x = y := by
  refine M128.ext (BitVec.eq_of_getLsbD_eq fun i hi => ?_) (BitVec.eq_of_getLsbD_eq fun i hi => ?_)
  · have := h i (by omega)
    rwa [bit, bit, if_pos hi, if_pos hi] at this
  · have := h (64 + i) (by omega)
    rwa [bit, bit, if_neg (by omega), if_neg (by omega), Nat.add_sub_cancel_left] at this

/-- Part `i` of a register that is cut into parts of `w` bits. -/
def part (w : Nat) (x : M128) (i : Nat) : BitVec w := ofBit w fun j => x.bit (w * i + j)

/-- The register with the given parts. -/
def ofParts (w : Nat) (parts : Nat → BitVec w) : M128 where
  lo := ofBit 64 fun j => (parts (j / w)).getLsbD (j % w)
  hi := ofBit 64 fun j => (parts ((64 + j) / w)).getLsbD ((64 + j) % w)

theorem bit_ofParts {w i : Nat} (parts : Nat → BitVec w) (hi : i < 128) :
    (ofParts w parts).bit i = (parts (i / w)).getLsbD (i % w) := by
  unfold bit ofParts
  split
  · next hlow => rw [getLsbD_ofBit _ hlow]
  · next hhigh => rw [getLsbD_ofBit _ (by omega), Nat.add_sub_cancel' (by omega)]

theorem getLsbD_part {w j : Nat} (x : M128) (i : Nat) (hj : j < w) :
    (part w x i).getLsbD j = x.bit (w * i + j) := getLsbD_ofBit _ hj

theorem part_ofParts {w i : Nat} (parts : Nat → BitVec w) (hi : w * (i + 1) ≤ 128) :
    part w (ofParts w parts) i = parts i := by
  refine BitVec.eq_of_getLsbD_eq fun j hj => ?_
  rw [Nat.mul_succ] at hi
  rw [getLsbD_part _ _ hj, bit_ofParts _ (by omega), Nat.mul_add_div (by omega),
    Nat.div_eq_of_lt hj, Nat.mul_add_mod, Nat.mod_eq_of_lt hj, Nat.add_zero]

/-! ## Instructions on lanes -/

/-- `_mm_set_epi64x`. -/
def setEpi64x (e1 e0 : BitVec 64) : M128 := ⟨e0, e1⟩

/-- `_mm_add_epi64`. -/
def addEpi64 (a b : M128) : M128 := ⟨a.lo + b.lo, a.hi + b.hi⟩

/-- `_mm_xor_si128`. -/
def xorSi128 (a b : M128) : M128 := ⟨a.lo ^^^ b.lo, a.hi ^^^ b.hi⟩

/-- `_mm_srli_epi64`. -/
def srliEpi64 (a : M128) (n : Nat) : M128 := ⟨a.lo >>> n, a.hi >>> n⟩

/-- `_mm_slli_epi64`. -/
def slliEpi64 (a : M128) (n : Nat) : M128 := ⟨a.lo <<< n, a.hi <<< n⟩

/-- `_mm_unpacklo_epi64`. -/
def unpackloEpi64 (a b : M128) : M128 := ⟨a.lo, b.lo⟩

/-- `_mm_unpackhi_epi64`. -/
def unpackhiEpi64 (a b : M128) : M128 := ⟨a.hi, b.hi⟩

/-! ## Instructions on parts -/

/-- `_mm_setr_epi8`. -/
def setrEpi8 (e : List Nat) : M128 := ofParts 8 fun j => BitVec.ofNat 8 (e.getD j 0)

/-- `_mm_shuffle_epi8`. -/
def shuffleEpi8 (a b : M128) : M128 :=
  ofParts 8 fun j => if (part 8 b j).getLsbD 7 then 0 else part 8 a ((part 8 b j).toNat % 16)

/-- `_MM_SHUFFLE`. -/
def mmShuffle (z y x w : Nat) : Nat := z <<< 6 ||| y <<< 4 ||| x <<< 2 ||| w

/-- `_mm_shuffle_epi32`. -/
def shuffleEpi32 (a : M128) (imm : Nat) : M128 :=
  ofParts 32 fun j => part 32 a ((imm >>> (2 * j)) % 4)

/-- `_mm_alignr_epi8`: `a` above `b`, shifted down by `n` bytes. -/
def alignrEpi8 (a b : M128) (n : Nat) : M128 :=
  ofParts 8 fun j =>
    if j + n < 16 then part 8 b (j + n) else if j + n < 32 then part 8 a (j + n - 16) else 0

/-- `_mm_blend_epi16`. -/
def blendEpi16 (a b : M128) (imm : Nat) : M128 :=
  ofParts 16 fun j => if imm.testBit j then part 16 b j else part 16 a j

/-! ## Moves of whole lanes -/

theorem bit_lo {x : M128} {i : Nat} (hi : i < 64) : x.bit i = x.lo.getLsbD i := if_pos hi

theorem bit_hi {x : M128} {i : Nat} (hi : 64 ≤ i) : x.bit i = x.hi.getLsbD (i - 64) :=
  if_neg (Nat.not_lt.mpr hi)

theorem bit_add (x : M128) (i : Nat) : x.bit (i + 64) = x.hi.getLsbD i := by
  rw [bit_hi (Nat.le_add_left 64 i), Nat.add_sub_cancel]

theorem bit_of_ge {x : M128} {i : Nat} (hi : 128 ≤ i) : x.bit i = false := by
  rw [bit_hi (by omega)]
  exact BitVec.getLsbD_of_ge _ _ (by omega)

/-- A shift of both lanes moves each bit of a lane up. -/
theorem bit_slliEpi64 (x : M128) {n i : Nat} (hi : i < 128) (hn : n ≤ i % 64) :
    (slliEpi64 x n).bit i = x.bit (i - n) := by
  rcases Nat.lt_or_ge i 64 with hlow | hhigh
  · rw [Nat.mod_eq_of_lt hlow] at hn
    rw [bit_lo hlow, bit_lo (by omega), slliEpi64, BitVec.getLsbD_shiftLeft, decide_eq_true hlow,
      decide_eq_false (Nat.not_lt.mpr hn), Bool.not_false, Bool.and_self, Bool.true_and]
  · have hlane : i - 64 < 64 := by omega
    have hin : ¬ i - 64 < n := by omega
    have hback : i - n - 64 = i - 64 - n := by omega
    rw [bit_hi hhigh, bit_hi (by omega), slliEpi64, BitVec.getLsbD_shiftLeft,
      decide_eq_true hlane, decide_eq_false hin, Bool.not_false, Bool.and_self, Bool.true_and,
      hback]

/-- A part that is a part of another register has its bits. -/
theorem bit_part {w i p : Nat} (x : M128) (hw : 0 < w) :
    (part w x p).getLsbD (i % w) = x.bit (w * p + i % w) := getLsbD_part x p (Nat.mod_lt i hw)

theorem alignrEpi8_eight (a b : M128) : alignrEpi8 a b 8 = ⟨b.hi, a.lo⟩ := by
  refine eq_of_bit fun i hi => ?_
  rw [alignrEpi8, bit_ofParts _ hi]
  rcases Nat.lt_or_ge i 64 with hlow | hhigh
  · have hbit : 8 * (i / 8 + 8) + i % 8 = i + 64 := by omega
    rw [if_pos (by omega), bit_part _ (by decide), hbit, bit_hi (by omega), bit_lo hlow,
      Nat.add_sub_cancel]
  · have hbit : 8 * (i / 8 + 8 - 16) + i % 8 = i - 64 := by omega
    rw [if_neg (by omega), if_pos (by omega), bit_part _ (by decide), hbit, bit_lo (by omega),
      bit_hi hhigh]

theorem blendEpi16_high (a b : M128) : blendEpi16 a b 0xF0 = ⟨a.lo, b.hi⟩ := by
  have hmask : ∀ j < 8, Nat.testBit 0xF0 j = decide (4 ≤ j) := by decide
  refine eq_of_bit fun i hi => ?_
  have hbit : 16 * (i / 16) + i % 16 = i := Nat.div_add_mod i 16
  rw [blendEpi16, bit_ofParts _ hi, hmask _ (by omega)]
  rcases Nat.lt_or_ge i 64 with hlow | hhigh
  · rw [if_neg (by rw [decide_eq_true_eq]; omega), bit_part _ (by decide), hbit, bit_lo hlow,
      bit_lo hlow]
  · rw [if_pos (by rw [decide_eq_true_eq]; omega), bit_part _ (by decide), hbit, bit_hi hhigh,
      bit_hi hhigh]

theorem shuffleEpi32_swap (a : M128) :
    shuffleEpi32 a (mmShuffle 1 0 3 2) = ⟨a.hi, a.lo⟩ := by
  have himm : ∀ j < 4, (mmShuffle 1 0 3 2 >>> (2 * j)) % 4 = (j + 2) % 4 := by decide
  refine eq_of_bit fun i hi => ?_
  rw [shuffleEpi32, bit_ofParts _ hi, himm _ (by omega), bit_part _ (by decide)]
  rcases Nat.lt_or_ge i 64 with hlow | hhigh
  · have hbit : 32 * ((i / 32 + 2) % 4) + i % 32 = i + 64 := by omega
    rw [hbit, bit_hi (by omega), bit_lo hlow, Nat.add_sub_cancel]
  · have hbit : 32 * ((i / 32 + 2) % 4) + i % 32 = i - 64 := by omega
    rw [hbit, bit_lo (by omega), bit_hi hhigh]

/-! ## Blocks -/

/-- A block as a register. -/
def ofBlock (b : Vector UInt8 16) : M128 :=
  ⟨BitVec.ofNat 64 (lane b 0), BitVec.ofNat 64 (lane b 1)⟩

/-- A register as a block. -/
def toBlock (x : M128) : Vector UInt8 16 := ofLanes x.hi.toNat x.lo.toNat

theorem bit_ofBlock (b : Vector UInt8 16) {c : Nat} (hc : c < 128) :
    (ofBlock b).bit c = bitAt b c := by
  rcases Nat.lt_or_ge c 64 with hlt | hge
  · rw [bit_lo hlt, ofBlock, BitVec.getLsbD_ofNat, decide_eq_true hlt, Bool.true_and,
      bitAt_lane b 0 hlt, Nat.mul_zero, Nat.zero_add]
  · obtain ⟨d, rfl⟩ := Nat.exists_eq_add_of_le' hge
    have hd : d < 64 := by omega
    rw [bit_add, ofBlock, BitVec.getLsbD_ofNat, decide_eq_true hd, Bool.true_and,
      bitAt_lane b 1 hd, Nat.mul_one, Nat.add_comm]

theorem bitAt_toBlock (x : M128) {c : Nat} (hc : c < 128) : bitAt x.toBlock c = x.bit c := by
  have hlane : ∀ v : BitVec 64, v.toNat % 2 ^ 64 = v.toNat := fun v => Nat.mod_eq_of_lt v.isLt
  rcases Nat.lt_or_ge c 64 with hlt | hge
  · have h := bitAt_lane x.toBlock 0 hlt
    rw [toBlock, lane_ofLanes_zero, hlane, Nat.mul_zero, Nat.zero_add] at h
    rw [bit_lo hlt, toBlock, ← h, BitVec.testBit_toNat]
  · obtain ⟨d, rfl⟩ := Nat.exists_eq_add_of_le' hge
    have hd : d < 64 := by omega
    have h := bitAt_lane x.toBlock 1 hd
    rw [toBlock, lane_ofLanes_one, hlane, Nat.mul_one] at h
    rw [bit_add, toBlock, Nat.add_comm d, ← h, BitVec.testBit_toNat]

/-! ## Rotations -/

/-- Both lanes rotated. -/
def rotate (x : M128) (c : Nat) : M128 := ⟨x.lo.rotateRight c, x.hi.rotateRight c⟩

theorem getLsbD_rotateRight {w : BitVec 64} {c i : Nat} (hc : c < 64) (hi : i < 64) :
    (w.rotateRight c).getLsbD i = w.getLsbD ((i + c) % 64) := by
  rw [BitVec.getLsbD_rotateRight, Nat.mod_eq_of_lt hc]
  rcases Nat.lt_or_ge i (64 - c) with hlow | hhigh
  · have hmod : (i + c) % 64 = c + i := by omega
    rw [decide_eq_true hlow, cond_true, hmod]
  · have hmod : (i + c) % 64 = i - (64 - c) := by omega
    rw [decide_eq_false (Nat.not_lt.mpr hhigh), cond_false, decide_eq_true hi, Bool.true_and, hmod]

theorem bit_rotate {x : M128} {c i : Nat} (hc : c < 64) (hi : i < 128) :
    (x.rotate c).bit i = x.bit (64 * (i / 64) + (i % 64 + c) % 64) := by
  rcases Nat.lt_or_ge i 64 with hlow | hhigh
  · have hbit : 64 * (i / 64) + (i % 64 + c) % 64 = (i + c) % 64 := by omega
    rw [bit_lo hlow, hbit, bit_lo (by omega), rotate, getLsbD_rotateRight hc hlow]
  · have hbit : 64 * (i / 64) + (i % 64 + c) % 64 = 64 + (i - 64 + c) % 64 := by omega
    rw [bit_hi hhigh, hbit, bit_hi (by omega), rotate, getLsbD_rotateRight hc (by omega),
      Nat.add_sub_cancel_left]

/-- A byte shuffle that rotates the eight bytes of each lane. -/
theorem shuffleEpi8_rotate (x : M128) {e : List Nat} (c : Nat) (hc : c < 8)
    (he : ∀ j < 16, e.getD j 0 = 8 * (j / 8) + (j % 8 + c) % 8) :
    shuffleEpi8 x (setrEpi8 e) = x.rotate (8 * c) := by
  refine eq_of_bit fun i hi => ?_
  have hmask : part 8 (setrEpi8 e) (i / 8)
      = BitVec.ofNat 8 (8 * (i / 8 / 8) + (i / 8 % 8 + c) % 8) := by
    rw [setrEpi8, part_ofParts _ (by omega), he _ (by omega)]
  have hsmall : 8 * (i / 8 / 8) + (i / 8 % 8 + c) % 8 < 16 := by omega
  have htop : (BitVec.ofNat 8 (8 * (i / 8 / 8) + (i / 8 % 8 + c) % 8)).getLsbD 7 = false := by
    rw [BitVec.getLsbD_ofNat, Nat.testBit_lt_two_pow (hsmall.trans (by decide)), Bool.and_false]
  rw [shuffleEpi8, bit_ofParts _ hi, hmask, if_neg (by rw [htop]; exact Bool.false_ne_true),
    bit_part _ (by decide), BitVec.toNat_ofNat, bit_rotate (by omega) hi]
  congr 1
  omega

theorem shuffleEpi32_rotate (x : M128) :
    shuffleEpi32 x (mmShuffle 2 3 0 1) = x.rotate 32 := by
  have himm : ∀ j < 4, (mmShuffle 2 3 0 1 >>> (2 * j)) % 4 = 2 * (j / 2) + (j % 2 + 1) % 2 := by
    decide
  refine eq_of_bit fun i hi => ?_
  rw [shuffleEpi32, bit_ofParts _ hi, himm _ (by omega), bit_part _ (by decide),
    bit_rotate (by decide) hi]
  congr 1
  omega

/-- The two halves of a rotation have no bit in common. -/
theorem rotateRight_eq_xor (w : BitVec 64) {c : Nat} (hc : c < 64) :
    w.rotateRight c = (w >>> c) ^^^ (w <<< (64 - c)) := by
  refine BitVec.eq_of_getLsbD_eq fun i hi => ?_
  rw [getLsbD_rotateRight hc hi, BitVec.getLsbD_xor, BitVec.getLsbD_ushiftRight,
    BitVec.getLsbD_shiftLeft, decide_eq_true hi, Bool.true_and]
  rcases Nat.lt_or_ge i (64 - c) with hlow | hhigh
  · have hmod : (i + c) % 64 = c + i := by omega
    rw [decide_eq_true hlow, hmod, Bool.not_true, Bool.false_and, Bool.xor_false]
  · have hmod : (i + c) % 64 = i - (64 - c) := by omega
    have hover : w.getLsbD (c + i) = false := BitVec.getLsbD_of_ge _ _ (by omega)
    rw [decide_eq_false (Nat.not_lt.mpr hhigh), hmod, hover, Bool.not_false, Bool.true_and,
      Bool.false_xor]

theorem rotate_eq_xor (x : M128) {c : Nat} (hc : c < 64) :
    xorSi128 (srliEpi64 x c) (slliEpi64 x (64 - c)) = x.rotate c :=
  M128.ext (rotateRight_eq_xor x.lo hc).symm (rotateRight_eq_xor x.hi hc).symm

theorem rotate_eq_add (x : M128) :
    xorSi128 (srliEpi64 x 63) (addEpi64 x x) = x.rotate 63 := by
  have hdouble : ∀ w : BitVec 64, w + w = w <<< 1 := fun w => by
    rw [← BitVec.toNat_inj, BitVec.toNat_add, BitVec.toNat_shiftLeft, Nat.shiftLeft_eq,
      ← Nat.mul_two]
  rw [← rotate_eq_xor x (by decide)]
  exact M128.ext (congrArg (x.lo >>> 63 ^^^ ·) (hdouble x.lo))
    (congrArg (x.hi >>> 63 ^^^ ·) (hdouble x.hi))

end M128

end Machine
