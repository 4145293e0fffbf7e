import HocusPocus.OtExt.Transpose

/-!
# The AVX2 transposition (`avx_transpose128`)

A 256-bit vector holds two rows. `avx_transpose_block_iter1` exchanges one bit of the rows of two
vectors with a shift, a mask and three exclusive ors; for the bits below 2 it first regroups the
rows, and for bit 6 it unpacks lanes. The templates unroll to a fixed list of such calls.

* `bit_laneExchange`: the shifts and the mask exchange a bit within a lane.
* `square_avxStep`: a call is two or four steps of the schedule.
* `avx_transposes`: the calls transpose.
* `bitAt_transpose128`: the same on blocks.
-/

namespace HocusPocus.Tools

open Arith Machine

/-! ## Vectors -/

/-- `__m256i`: two rows. -/
structure M256 where
  lo : M128
  hi : M128

namespace M256

/-- An operation on the four 64-bit lanes. -/
def lanes (f : BitVec 64 → BitVec 64) (x : M256) : M256 :=
  ⟨⟨f x.lo.lo, f x.lo.hi⟩, ⟨f x.hi.lo, f x.hi.hi⟩⟩

/-- `_mm256_xor_si256`. -/
def xor (x y : M256) : M256 :=
  ⟨⟨x.lo.lo ^^^ y.lo.lo, x.lo.hi ^^^ y.lo.hi⟩, ⟨x.hi.lo ^^^ y.hi.lo, x.hi.hi ^^^ y.hi.hi⟩⟩

/-- `_mm256_and_si256` with a lane repeated. -/
def andSet (x : M256) (mask : BitVec 64) : M256 := x.lanes (· &&& mask)

/-- `_mm256_slli_epi64` and `_mm256_srli_epi64`. -/
def slliEpi64 (x : M256) (n : Nat) : M256 := x.lanes (· <<< n)

@[inherit_doc slliEpi64]
def srliEpi64 (x : M256) (n : Nat) : M256 := x.lanes (· >>> n)

/-- Part `i` of a lane, 16 bits. -/
def part16 (x : BitVec 64) (i : Nat) : BitVec 16 := x.extractLsb' (16 * i) 16

/-- `_mm256_slli_epi16` and `_mm256_srli_epi16`, in one lane. -/
def slli16 (x : BitVec 64) (n : Nat) : BitVec 64 :=
  (part16 x 3 <<< n) ++ (part16 x 2 <<< n) ++ (part16 x 1 <<< n) ++ (part16 x 0 <<< n)

@[inherit_doc slli16]
def srli16 (x : BitVec 64) (n : Nat) : BitVec 64 :=
  (part16 x 3 >>> n) ++ (part16 x 2 >>> n) ++ (part16 x 1 >>> n) ++ (part16 x 0 >>> n)

/-- `_mm256_permute2x128_si256(x, y, 0x20)`. -/
def permute20 (x y : M256) : M256 := ⟨x.lo, y.lo⟩

/-- `_mm256_permute2x128_si256(x, y, 0x31)`. -/
def permute31 (x y : M256) : M256 := ⟨x.hi, y.hi⟩

/-- `_mm256_unpacklo_epi64`. -/
def unpackloEpi64 (x y : M256) : M256 := ⟨⟨x.lo.lo, y.lo.lo⟩, ⟨x.hi.lo, y.hi.lo⟩⟩

/-- `_mm256_unpackhi_epi64`. -/
def unpackhiEpi64 (x y : M256) : M256 := ⟨⟨x.lo.hi, y.lo.hi⟩, ⟨x.hi.hi, y.hi.hi⟩⟩

end M256

/-! ## The code -/

/-- `mask`: alternating runs of `2 ^ blockSizeShift` zeros and ones. -/
def avxMask (blockSizeShift : Nat) : BitVec 64 :=
  ((List.range (5 - blockSizeShift)).map (4 - ·)).foldl
    (fun mask k => mask ^^^ (mask >>> (1 <<< k))) (BitVec.allOnes 64 <<< 32)

/-- A lane of `_mm256_set1_epi16(0xaaaa)`. -/
def innerMask : BitVec 64 := 0xaaaaaaaaaaaaaaaa

/-- The branch `blockSizeShift == 1`: the 2 by 2 blocks. -/
def avxInner (x y : M256) : M256 × M256 :=
  let u := M256.permute20 x y
  let v := M256.permute31 x y
  let diff := (u.xor (v.lanes (M256.slli16 · 1))).andSet innerMask
  let u := u.xor diff
  let v := v.xor (diff.lanes (M256.srli16 · 1))
  (M256.permute20 u v, M256.permute31 u v)

/-- The body of `avx_transpose_block_iter1`, on its two vectors. -/
def avxSwap (blockSizeShift : Nat) (x y : M256) : M256 × M256 :=
  if blockSizeShift = 6 then (M256.unpackloEpi64 x y, M256.unpackhiEpi64 x y)
  else
    let (x, y) := if blockSizeShift = 1 then avxInner x y else (x, y)
    let diff := (x.xor (y.slliEpi64 (1 <<< blockSizeShift))).andSet (avxMask blockSizeShift)
    (x.xor diff, y.xor (diff.srliEpi64 (1 <<< blockSizeShift)))

/-- `avx_transpose_block_iter1`, which calls itself before it does its work. -/
def avxTransposeBlockIter1 (blockSizeShift blockRowsShift base : Nat) : List (Nat × Nat) :=
  (List.range (2 ^ blockSizeShift / 2 ^ blockRowsShift)).reverse.map fun q =>
    (blockSizeShift, base + q * 2 ^ blockRowsShift / 2)

/-- `avx_transpose_block_iter2`. -/
def avxTransposeBlockIter2 (blockSizeShift blockRowsShift nRows base : Nat) :
    List (Nat × Nat) :=
  (List.range (nRows / 2 ^ (blockSizeShift + 1))).flatMap fun m =>
    avxTransposeBlockIter1 blockSizeShift blockRowsShift
      (base + m * 2 ^ (blockSizeShift + 1) / 2)

/-- `avx_transpose_block`. -/
def avxTransposeBlock (blockSizeShift matSizeShift blockRowsShift matRowsShift base : Nat) :
    List (Nat × Nat) :=
  (List.range (matSizeShift - blockSizeShift)).flatMap fun d =>
    avxTransposeBlockIter2 (blockSizeShift + d) blockRowsShift
      (2 ^ (matRowsShift + matSizeShift)) base

/-- `avx_transpose<7>`: first `avx_transpose<3>`, then the bits from 3 on. -/
def avxTranspose : List (Nat × Nat) :=
  ([0, 16, 32, 48].flatMap fun i => avxTransposeBlock 1 3 1 2 i)
    ++ (List.range 4).flatMap fun i => avxTransposeBlock 3 7 3 0 i

/-- Write two vectors. -/
def setVectors (inOut : Nat → M256) (i j : Nat) (xy : M256 × M256) : Nat → M256 := fun k =>
  if k = i then xy.1 else if k = j then xy.2 else inOut k

/-- One call: `x` is `inOut[j / 2]` and `y` is `2 ^ (blockSizeShift - 1)` vectors on. -/
def avxStep (inOut : Nat → M256) (call : Nat × Nat) : Nat → M256 :=
  setVectors inOut call.2 (call.2 + 1 <<< (call.1 - 1))
    (avxSwap call.1 (inOut call.2) (inOut (call.2 + 1 <<< (call.1 - 1))))

/-- `avx_transpose128`. -/
def avxTranspose128 (inOut : Nat → M256) : Nat → M256 := avxTranspose.foldl avxStep inOut

/-- The rows of a list of vectors. -/
def rowsOf (inOut : Nat → M256) (r : Nat) : M128 :=
  if r % 2 = 0 then (inOut (r / 2)).lo else (inOut (r / 2)).hi

/-! ## Lanes -/

/-- The shifts and the mask of one lane of each vector. -/
def laneExchange (n : Nat) (mask x y : BitVec 64) : BitVec 64 × BitVec 64 :=
  let diff := (x ^^^ (y <<< n)) &&& mask
  (x ^^^ diff, y ^^^ (diff >>> n))

/-- **The shifts and the mask exchange a bit.** -/
theorem bit_laneExchange {s : Nat} (hs : s < 6) {mask x y : BitVec 64}
    (hmask : ∀ c < 64, mask.getLsbD c = c.testBit s) {c : Nat} (hc : c < 64) :
    (laneExchange (2 ^ s) mask x y).1.getLsbD c
        = (if c.testBit s then y.getLsbD (c ^^^ 2 ^ s) else x.getLsbD c)
      ∧ (laneExchange (2 ^ s) mask x y).2.getLsbD c
        = (if c.testBit s then y.getLsbD c else x.getLsbD (c ^^^ 2 ^ s)) := by
  obtain ⟨hset, hclear⟩ := lane_partner s hs c hc
  obtain ⟨-, hup⟩ := lane_shift s hs c hc
  have hdiff : ∀ k < 64, ((x ^^^ (y <<< (2 ^ s))) &&& mask).getLsbD k
      = ((x.getLsbD k ^^ (!decide (k < 2 ^ s) && y.getLsbD (k - 2 ^ s))) && k.testBit s) := by
    intro k hk
    rw [BitVec.getLsbD_and, BitVec.getLsbD_xor, BitVec.getLsbD_shiftLeft, hmask k hk,
      decide_eq_true hk, Bool.true_and]
  have hbeyond : ∀ k, 64 ≤ k → ((x ^^^ (y <<< (2 ^ s))) &&& mask).getLsbD k = false :=
    fun k hk => BitVec.getLsbD_of_ge _ _ hk
  simp only [laneExchange, BitVec.getLsbD_xor, BitVec.getLsbD_ushiftRight]
  cases hbit : c.testBit s with
  | false =>
    obtain ⟨hlt, hxor⟩ := hclear hbit
    rw [Nat.add_comm] at hlt hxor
    rw [hdiff c hc, hdiff _ hlt, hup hlt, hbit, hxor, Nat.add_sub_cancel_left]
    simp only [Bool.not_false, Bool.and_true, Bool.and_false, Bool.xor_false,
      Nat.not_lt.mpr (Nat.le_add_right (2 ^ s) c), decide_false, Bool.true_and, Bool.false_eq_true,
      if_false, true_and]
    rw [Bool.xor_comm, Bool.xor_assoc, Bool.xor_self, Bool.xor_false]
  | true =>
    obtain ⟨hle, hxor⟩ := hset hbit
    have hnext : ((x ^^^ (y <<< (2 ^ s))) &&& mask).getLsbD (2 ^ s + c) = false := by
      by_cases hlt : 2 ^ s + c < 64
      · rw [hdiff _ hlt, hup hlt, hbit]
        simp
      · exact hbeyond _ (Nat.le_of_not_lt hlt)
    rw [hdiff c hc, hnext, hbit, hxor]
    simp [Nat.not_lt.mpr hle]

theorem avx_mask : ∀ s < 6, 1 ≤ s → ∀ c < 64, (avxMask s).getLsbD c = c.testBit s := by
  decide +kernel

theorem inner_mask : ∀ c < 64, innerMask.getLsbD c = c.testBit 0 := by
  decide +kernel

/-- Within the odd columns a shift of 16-bit parts by one is a shift of the lane. -/
theorem slli16_mask (x y : BitVec 64) :
    (x ^^^ M256.slli16 y 1) &&& innerMask = (x ^^^ (y <<< (2 ^ 0))) &&& innerMask := by
  refine BitVec.eq_of_getLsbD_eq fun c hc => ?_
  rw [BitVec.getLsbD_and, BitVec.getLsbD_and, inner_mask c hc, BitVec.getLsbD_xor,
    BitVec.getLsbD_xor, M256.slli16]
  simp only [BitVec.getLsbD_append, BitVec.getLsbD_shiftLeft, M256.part16,
    BitVec.getLsbD_extractLsb']
  interval_cases c <;> simp

theorem srli16_mask (d : BitVec 64) :
    M256.srli16 (d &&& innerMask) 1 = (d &&& innerMask) >>> (2 ^ 0) := by
  refine BitVec.eq_of_getLsbD_eq fun c hc => ?_
  rw [M256.srli16, innerMask]
  simp only [BitVec.getLsbD_append, BitVec.getLsbD_ushiftRight, M256.part16,
    BitVec.getLsbD_extractLsb', BitVec.getLsbD_and]
  interval_cases c <;> simp

/-! ## Calls -/

/-- **The masked shifts exchange a bit between the rows of two vectors.** -/
theorem exchanged_shift {s : Nat} (hs : s < 6) {mask : BitVec 64}
    (hmask : ∀ c < 64, mask.getLsbD c = c.testBit s) (x y : M256) :
    let diff := (x.xor (y.slliEpi64 (2 ^ s))).andSet mask
    Exchanged s x.lo y.lo (x.xor diff).lo (y.xor (diff.srliEpi64 (2 ^ s))).lo
      ∧ Exchanged s x.hi y.hi (x.xor diff).hi (y.xor (diff.srliEpi64 (2 ^ s))).hi :=
  ⟨exchanged_of_lanes hs (fun _ hc => bit_laneExchange hs hmask hc)
      fun _ hc => bit_laneExchange hs hmask hc,
    exchanged_of_lanes hs (fun _ hc => bit_laneExchange hs hmask hc)
      fun _ hc => bit_laneExchange hs hmask hc⟩

/-- The branch for the 2 by 2 blocks exchanges bit 0 between the two rows of each vector. -/
theorem exchanged_inner (x y : M256) :
    Exchanged 0 x.lo x.hi (avxInner x y).1.lo (avxInner x y).1.hi
      ∧ Exchanged 0 y.lo y.hi (avxInner x y).2.lo (avxInner x y).2.hi := by
  have hdiff : (((M256.permute20 x y).xor ((M256.permute31 x y).lanes (M256.slli16 · 1))).andSet
        innerMask)
      = (((M256.permute20 x y).xor ((M256.permute31 x y).slliEpi64 (2 ^ 0))).andSet
        innerMask) := by
    simp only [M256.andSet, M256.lanes, M256.xor, M256.slliEpi64, slli16_mask]
  have hback : ∀ d : M256, (d.andSet innerMask).lanes (M256.srli16 · 1)
      = (d.andSet innerMask).srliEpi64 (2 ^ 0) := by
    intro d
    simp only [M256.andSet, M256.lanes, M256.srliEpi64, srli16_mask]
  have h := exchanged_shift (s := 0) (by decide) inner_mask (M256.permute20 x y)
    (M256.permute31 x y)
  simp only [avxInner, hdiff, hback]
  exact h

theorem setVectors_setVectors (inOut : Nat → M256) (i j : Nat) (xy xy' : M256 × M256) :
    setVectors (setVectors inOut i j xy) i j xy' = setVectors inOut i j xy' := by
  funext k
  unfold setVectors
  split
  · rfl
  · split <;> rfl

/-- The rows after two vectors are written. -/
theorem rowsOf_setVectors (inOut : Nat → M256) (i j : Nat) (x y : M256) (r : Nat) :
    rowsOf (setVectors inOut i j (x, y)) r
      = if r = 2 * i then x.lo else if r = 2 * i + 1 then x.hi
        else if r = 2 * j then y.lo else if r = 2 * j + 1 then y.hi else rowsOf inOut r := by
  unfold rowsOf setVectors
  rcases Nat.mod_two_eq_zero_or_one r with hr | hr
  · have hodd : ∀ k, r ≠ 2 * k + 1 := fun k => by omega
    have heven : ∀ k, r / 2 = k ↔ r = 2 * k := fun k => by omega
    simp only [hr, if_true, hodd, if_false, heven]
    split
    · rfl
    · split <;> rfl
  · have heven : ∀ k, r ≠ 2 * k := fun k => by omega
    have hodd : ∀ k, r / 2 = k ↔ r = 2 * k + 1 := fun k => by omega
    simp only [hr, one_ne_zero, if_false, heven, hodd]
    split
    · rfl
    · split <;> rfl

/-- The steps of the schedule a call stands for. -/
def rowSteps (call : Nat × Nat) : List (Nat × Nat) :=
  (if call.1 = 1 then [(0, 2 * call.2), (0, 2 * (call.2 + 1))] else [])
    ++ [(call.1, 2 * call.2), (call.1, 2 * call.2 + 1)]

theorem two_mul_xor_one (i : Nat) : 2 * i ^^^ 1 = 2 * i + 1 :=
  Nat.xor_one_of_even (even_two_mul i)

theorem rowsOf_even (inOut : Nat → M256) (k : Nat) : rowsOf inOut (2 * k) = (inOut k).lo := by
  rw [rowsOf, if_pos (by omega), show 2 * k / 2 = k by omega]

theorem rowsOf_odd (inOut : Nat → M256) (k : Nat) : rowsOf inOut (2 * k + 1) = (inOut k).hi := by
  rw [rowsOf, if_neg (by omega), show (2 * k + 1) / 2 = k by omega]

/-- Two vectors whose rows are exchanged with each other make two steps. -/
theorem square_outer {s i j : Nat} {inOut : Nat → M256} {x y : M256} (hs : 1 ≤ s)
    (hbit : (2 * i).testBit s = false) (hj : 2 * i ^^^ 2 ^ s = 2 * j)
    (hlo : Exchanged s (inOut i).lo (inOut j).lo x.lo y.lo)
    (hhi : Exchanged s (inOut i).hi (inOut j).hi x.hi y.hi) :
    square (rowsOf (setVectors inOut i j (x, y)))
      = [(s, 2 * i), (s, 2 * i + 1)].foldl stepRows (square (rowsOf inOut)) := by
  have hbit' : (2 * i + 1).testBit s = false := by
    rw [← two_mul_xor_one, Nat.testBit_xor, hbit, show 1 = 2 ^ 0 from rfl, Nat.testBit_two_pow,
      decide_eq_false (by omega), Bool.xor_false]
  have hj' : (2 * i + 1) ^^^ 2 ^ s = 2 * j + 1 := by
    rw [← two_mul_xor_one, ← two_mul_xor_one, Nat.xor_assoc, Nat.xor_comm 1, ← Nat.xor_assoc, hj]
  have hne : i ≠ j := by
    rintro rfl
    have h := congrArg (Nat.testBit · s) hj
    simp only [Nat.testBit_xor, hbit, Nat.testBit_two_pow_self] at h
    cases h
  have hfirst : square (setRows (rowsOf inOut) (2 * i) (2 * i ^^^ 2 ^ s) x.lo y.lo)
      = stepRows (square (rowsOf inOut)) (s, 2 * i) := by
    refine square_setRows _ hbit ?_
    rw [hj, rowsOf_even, rowsOf_even]
    exact hlo
  have hsecond : square (setRows (setRows (rowsOf inOut) (2 * i) (2 * i ^^^ 2 ^ s) x.lo y.lo)
        (2 * i + 1) ((2 * i + 1) ^^^ 2 ^ s) x.hi y.hi)
      = stepRows (square (setRows (rowsOf inOut) (2 * i) (2 * i ^^^ 2 ^ s) x.lo y.lo))
          (s, 2 * i + 1) := by
    refine square_setRows _ hbit' ?_
    rw [hj, hj', setRows, setRows, if_neg (by omega), if_neg (by omega), if_neg (by omega),
      if_neg (by omega), rowsOf_odd, rowsOf_odd]
    exact hhi
  rw [List.foldl_cons, List.foldl_cons, List.foldl_nil, ← hfirst, ← hsecond, hj, hj']
  congr 1
  funext r
  rw [rowsOf_setVectors]
  simp only [setRows]
  split_ifs <;> first | rfl | omega

/-- Two vectors whose own rows are exchanged make two steps. -/
theorem square_inner {i : Nat} {inOut : Nat → M256} {x y : M256}
    (hx : Exchanged 0 (inOut i).lo (inOut i).hi x.lo x.hi)
    (hy : Exchanged 0 (inOut (i + 1)).lo (inOut (i + 1)).hi y.lo y.hi) :
    square (rowsOf (setVectors inOut i (i + 1) (x, y)))
      = [(0, 2 * i), (0, 2 * (i + 1))].foldl stepRows (square (rowsOf inOut)) := by
  have hbit : ∀ k, (2 * k).testBit 0 = false := by
    intro k
    simp [Nat.testBit_zero]
  have hpartner : ∀ k, 2 * k ^^^ 2 ^ 0 = 2 * k + 1 := two_mul_xor_one
  have hfirst : square (setRows (rowsOf inOut) (2 * i) (2 * i ^^^ 2 ^ 0) x.lo x.hi)
      = stepRows (square (rowsOf inOut)) (0, 2 * i) := by
    refine square_setRows _ (hbit i) ?_
    rw [hpartner, rowsOf_even, rowsOf_odd]
    exact hx
  have hsecond : square (setRows (setRows (rowsOf inOut) (2 * i) (2 * i ^^^ 2 ^ 0) x.lo x.hi)
        (2 * (i + 1)) (2 * (i + 1) ^^^ 2 ^ 0) y.lo y.hi)
      = stepRows (square (setRows (rowsOf inOut) (2 * i) (2 * i ^^^ 2 ^ 0) x.lo x.hi))
          (0, 2 * (i + 1)) := by
    refine square_setRows _ (hbit _) ?_
    rw [hpartner, hpartner, setRows, setRows, if_neg (by omega), if_neg (by omega),
      if_neg (by omega), if_neg (by omega), rowsOf_even, rowsOf_odd]
    exact hy
  rw [List.foldl_cons, List.foldl_cons, List.foldl_nil, ← hfirst, ← hsecond, hpartner, hpartner]
  congr 1
  funext r
  rw [rowsOf_setVectors]
  simp only [setRows]
  split_ifs <;> first | rfl | omega

/-- What the proof needs of a call: its bit, and where its second vector is. -/
def callFits (call : Nat × Nat) : Bool :=
  decide (1 ≤ call.1) && decide (call.1 < 7) && !(2 * call.2).testBit call.1
    && 2 * call.2 ^^^ 2 ^ call.1 == 2 * (call.2 + 1 <<< (call.1 - 1))

/-- **A call is two or four steps of the schedule.** -/
theorem square_avxStep {call : Nat × Nat} (hfits : callFits call = true) (inOut : Nat → M256) :
    square (rowsOf (avxStep inOut call))
      = (rowSteps call).foldl stepRows (square (rowsOf inOut)) := by
  obtain ⟨s, i⟩ := call
  simp only [callFits, Bool.and_eq_true, decide_eq_true_eq, Bool.not_eq_true', beq_iff_eq] at hfits
  obtain ⟨⟨⟨hs, hlt⟩, hbit⟩, hj⟩ := hfits
  simp only [avxStep]
  by_cases hsix : s = 6
  · subst hsix
    exact square_outer hs hbit hj (exchanged_lanes _ _) (exchanged_lanes _ _)
  have hs6 : s < 6 := by omega
  have hmask := avx_mask s hs6 hs
  by_cases hone : s = 1
  · subst hone
    have hinner := exchanged_inner (inOut i) (inOut (i + 1))
    have hmiddle := square_inner hinner.1 hinner.2
    rw [Prod.mk.eta] at hmiddle
    -- the vectors between the two exchanges
    have hx : setVectors inOut i (i + 1) (avxInner (inOut i) (inOut (i + 1))) i
        = (avxInner (inOut i) (inOut (i + 1))).1 := if_pos rfl
    have hy : setVectors inOut i (i + 1) (avxInner (inOut i) (inOut (i + 1))) (i + 1)
        = (avxInner (inOut i) (inOut (i + 1))).2 := by
      rw [setVectors, if_neg (by omega), if_pos rfl]
    have h := exchanged_shift hs6 hmask (avxInner (inOut i) (inOut (i + 1))).1
      (avxInner (inOut i) (inOut (i + 1))).2
    rw [← hx, ← hy] at h
    have houter := square_outer hs hbit hj h.1 h.2
    rw [hmiddle, hx, hy] at houter
    refine Eq.trans ?_ houter
    exact congrArg (fun inOut => square (rowsOf inOut)) (setVectors_setVectors ..).symm
  · simp only [rowSteps, if_neg hone, List.nil_append]
    have h := exchanged_shift hs6 hmask (inOut i) (inOut (i + 1 <<< (s - 1)))
    simp only [avxSwap, if_neg hsix, if_neg hone, Nat.one_shiftLeft s]
    exact square_outer hs hbit hj h.1 h.2

/-- **`avx_transpose128` transposes.** -/
theorem avx_transposes (inOut : Nat → M256) {r c : Nat} (hr : r < 128) (hc : c < 128) :
    square (rowsOf (avxTranspose128 inOut)) r c = square (rowsOf inOut) c r := by
  have hrun : ∀ calls : List (Nat × Nat), calls.all callFits = true → ∀ inOut,
      square (rowsOf (calls.foldl avxStep inOut))
        = (calls.flatMap rowSteps).foldl stepRows (square (rowsOf inOut)) := by
    intro calls
    induction calls with
    | nil => exact fun _ inOut => rfl
    | cons call calls ih =>
      intro hall inOut
      rw [List.all_cons, Bool.and_eq_true] at hall
      rw [List.foldl_cons, List.flatMap_cons, List.foldl_append, ih hall.2,
        square_avxStep hall.1]
  rw [avxTranspose128, hrun _ (by decide +kernel)]
  exact transposed (n := 7) (by decide +kernel) _ hr hc

/-! ## On blocks -/

/-- Blocks as vectors. -/
def vectorsOf (inOut : Nat → Vector UInt8 16) (i : Nat) : M256 :=
  ⟨M128.ofBlock (inOut (2 * i)), M128.ofBlock (inOut (2 * i + 1))⟩

/-- `transpose128`, in a build with AVX2. -/
def transpose128 (inOut : Nat → Vector UInt8 16) (r : Nat) : Vector UInt8 16 :=
  (rowsOf (avxTranspose128 (vectorsOf inOut)) r).toBlock

/-- **Bit `c` of block `r` of the transposed is bit `r` of block `c`.** -/
theorem bitAt_transpose128 (inOut : Nat → Vector UInt8 16) {r c : Nat} (hr : r < 128)
    (hc : c < 128) : bitAt (transpose128 inOut r) c = bitAt (inOut c) r := by
  have hrow : rowsOf (vectorsOf inOut) c = M128.ofBlock (inOut c) := by
    unfold rowsOf vectorsOf
    rcases Nat.mod_two_eq_zero_or_one c with heven | hodd
    · rw [if_pos heven, show 2 * (c / 2) = c by omega]
    · rw [if_neg (by omega), show 2 * (c / 2) + 1 = c by omega]
  have h := avx_transposes (vectorsOf inOut) hr hc
  simp only [square] at h
  rw [transpose128, M128.bitAt_toBlock _ hc, h, hrow, M128.bit_ofBlock _ hr]

end HocusPocus.Tools
