import HocusPocus.Arith.BitTranspose
import HocusPocus.Machine.M128
import Mathlib.Data.BitVec
import Mathlib.Tactic.IntervalCases

/-!
# Transposing 128 blocks (`Tools.cpp`)

`eklundh_transpose128` is the portable code. It exchanges one bit of the row number with the same
bit of the column number at a time, from bit 6 down to bit 0, and takes all rows at each. A pair of
rows that are exchanged this way is a step of a schedule.

* `square_setRows`: writing such a pair is a step.
* `eklundh_exchanged`: what the masks and shifts of one swap do.
* `eklundh_transposes`: the swaps transpose.
-/

namespace HocusPocus.Tools

open Arith Machine

/-! ## Rows -/

/-- The bits of a list of blocks. -/
def square (rows : Nat → M128) : BitSquare := fun r c => (rows r).bit c

/-- The rows `x'` and `y'` are `x` and `y` with bit `s` exchanged; `x` has 0 there and `y` has 1. -/
def Exchanged (s : Nat) (x y x' y' : M128) : Prop :=
  ∀ c, x'.bit c = (if c.testBit s then y.bit (c ^^^ 2 ^ s) else x.bit c)
    ∧ y'.bit c = (if c.testBit s then y.bit c else x.bit (c ^^^ 2 ^ s))

/-- Write the two rows of a pair. -/
def setRows (rows : Nat → M128) (r₁ r₂ : Nat) (x y : M128) : Nat → M128 := fun r =>
  if r = r₁ then x else if r = r₂ then y else rows r

/-- **A pair of rows exchanged is a step of the schedule.** -/
theorem square_setRows (rows : Nat → M128) {s r : Nat} {x y : M128} (hr : r.testBit s = false)
    (h : Exchanged s (rows r) (rows (r ^^^ 2 ^ s)) x y) :
    square (setRows rows r (r ^^^ 2 ^ s) x y) = stepRows (square rows) (s, r) := by
  have hother : (r ^^^ 2 ^ s).testBit s = true := by
    rw [Nat.testBit_xor, hr, Nat.testBit_two_pow_self, Bool.false_xor]
  have hne : r ^^^ 2 ^ s ≠ r := by
    intro heq
    rw [heq, hr] at hother
    exact Bool.false_ne_true hother
  funext r' c
  simp only [stepRows, square, setRows]
  by_cases h₁ : r' = r
  · subst h₁
    rw [if_pos rfl, if_pos (Or.inl rfl), (h c).1, exchangeBits_bit, hr]
    cases hc : c.testBit s <;> simp
  by_cases h₂ : r' = r ^^^ 2 ^ s
  · subst h₂
    rw [if_neg hne, if_pos rfl, if_pos (Or.inr rfl), (h c).2, exchangeBits_bit, hother]
    cases hc : c.testBit s
    · simp
    · simp
  · rw [if_neg h₁, if_neg h₂, if_neg (by rintro (h | h) <;> contradiction)]

/-! ## Lanes -/

/-- Bit numbers of a lane: the partner of `c` is `2 ^ s` below or above. -/
theorem lane_partner : ∀ s < 6, ∀ c < 64,
    (c.testBit s = true → 2 ^ s ≤ c ∧ c ^^^ 2 ^ s = c - 2 ^ s) ∧
      (c.testBit s = false → c + 2 ^ s < 64 ∧ c ^^^ 2 ^ s = c + 2 ^ s) := by
  decide +kernel

/-- A shift by `2 ^ s` flips bit `s`. -/
theorem lane_shift : ∀ s < 6, ∀ c < 64,
    (2 ^ s ≤ c → (c - 2 ^ s).testBit s = !c.testBit s) ∧
      (2 ^ s + c < 64 → (2 ^ s + c).testBit s = !c.testBit s) := by
  decide +kernel

/-- The same with the high lane of the row. -/
theorem high_partner : ∀ s < 6, ∀ c < 64,
    (c + 64).testBit s = c.testBit s ∧ (c + 64) ^^^ 2 ^ s = (c ^^^ 2 ^ s) + 64
      ∧ c ^^^ 2 ^ s < 64 := by
  decide +kernel

/-- Lanes exchanged make rows exchanged. -/
theorem exchanged_of_lanes {s : Nat} (hs : s < 6) {x y x' y' : M128}
    (hlo : ∀ c < 64,
      x'.lo.getLsbD c = (if c.testBit s then y.lo.getLsbD (c ^^^ 2 ^ s) else x.lo.getLsbD c)
        ∧ y'.lo.getLsbD c = (if c.testBit s then y.lo.getLsbD c else x.lo.getLsbD (c ^^^ 2 ^ s)))
    (hhi : ∀ c < 64,
      x'.hi.getLsbD c = (if c.testBit s then y.hi.getLsbD (c ^^^ 2 ^ s) else x.hi.getLsbD c)
        ∧ y'.hi.getLsbD c = (if c.testBit s then y.hi.getLsbD c else x.hi.getLsbD (c ^^^ 2 ^ s))) :
    Exchanged s x y x' y' := by
  intro c
  rcases Nat.lt_or_ge c 64 with hlow | hge
  · obtain ⟨-, -, hpartner⟩ := high_partner s hs c hlow
    rw [M128.bit_lo hlow, M128.bit_lo hlow, M128.bit_lo hlow, M128.bit_lo hlow,
      M128.bit_lo hpartner, M128.bit_lo hpartner]
    exact hlo c hlow
  rcases Nat.lt_or_ge c 128 with hlt | hbeyond
  · obtain ⟨d, rfl⟩ := Nat.exists_eq_add_of_le' hge
    have hd : d < 64 := by omega
    obtain ⟨hbit, hxor, -⟩ := high_partner s hs d hd
    rw [hbit, hxor]
    simp only [M128.bit_add]
    exact hhi d hd
  · have hpow : 2 ^ s < 2 ^ 7 := Nat.pow_lt_pow_right Nat.one_lt_two (by omega)
    have hxor : 128 ≤ c ^^^ 2 ^ s := by
      by_contra hlt
      have h := Nat.xor_lt_two_pow (n := 7) (Nat.lt_of_not_le hlt) hpow
      rw [Nat.xor_assoc, Nat.xor_self, Nat.xor_zero] at h
      omega
    simp only [M128.bit_of_ge hbeyond, M128.bit_of_ge hxor, ite_self, and_self]

/-! ## The portable code -/

/-- `TRANSPOSE_MASKS128`, as `mask2` and `mask1`. -/
def transposeMasks128 (i : Nat) : BitVec 64 × BitVec 64 :=
  match i with
  | 0 => (0x0000000000000000, 0xFFFFFFFFFFFFFFFF)
  | 1 => (0x00000000FFFFFFFF, 0x00000000FFFFFFFF)
  | 2 => (0x0000FFFF0000FFFF, 0x0000FFFF0000FFFF)
  | 3 => (0x00FF00FF00FF00FF, 0x00FF00FF00FF00FF)
  | 4 => (0x0F0F0F0F0F0F0F0F, 0x0F0F0F0F0F0F0F0F)
  | 5 => (0x3333333333333333, 0x3333333333333333)
  | _ => (0x5555555555555555, 0x5555555555555555)

/-- The body of the inner loop in round `i`: the rows `i1` and `i2`. -/
def eklundhSwap (i : Nat) (x y : M128) : M128 × M128 :=
  let width := 64 / 2 ^ i
  let mask1 := (transposeMasks128 i).2
  let mask2 := (transposeMasks128 i).1
  let invMask1 := ~~~mask1
  let invMask2 := ~~~mask2
  let t1 := x.lo
  let t2 := x.hi
  let tt1 := y.lo
  let tt2 := y.hi
  if width < 64 then
    (⟨(t1 &&& mask1) ^^^ ((tt1 &&& mask1) <<< width),
      (t2 &&& mask2) ^^^ ((tt2 &&& mask2) <<< width) ^^^ ((tt1 &&& mask1) >>> (64 - width))⟩,
     ⟨(tt1 &&& invMask1) ^^^ ((t1 &&& invMask1) >>> width)
        ^^^ ((t2 &&& invMask2) <<< (64 - width)),
      (tt2 &&& invMask2) ^^^ ((t2 &&& invMask2) >>> width)⟩)
  else
    (⟨t1 &&& mask1, (t2 &&& mask2) ^^^ ((tt1 &&& mask1) >>> (64 - width))⟩,
     ⟨(tt1 &&& invMask1) ^^^ ((t2 &&& invMask2) <<< (64 - width)), tt2 &&& invMask2⟩)

/-- The loops: the rounds with `i1` of each, `i2` being `i1 + width`. -/
def eklundhLoops : List (Nat × Nat) :=
  (List.range 7).flatMap fun i =>
    let width := 64 / 2 ^ i
    let nswaps := 2 ^ i
    (List.range nswaps).flatMap fun j => (List.range width).map fun k => (i, k + 2 * width * j)

/-- One turn of the inner loop. -/
def eklundhStep (inOut : Nat → M128) (step : Nat × Nat) : Nat → M128 :=
  let i1 := step.2
  let i2 := step.2 + 64 / 2 ^ step.1
  let swapped := eklundhSwap step.1 (inOut i1) (inOut i2)
  setRows inOut i1 i2 swapped.1 swapped.2

/-- `eklundh_transpose128`. -/
def eklundhTranspose128 (inOut : Nat → M128) : Nat → M128 := eklundhLoops.foldl eklundhStep inOut

/-- The mask of round `i` selects the columns with bit `6 - i` clear. -/
theorem eklundh_mask : ∀ i < 7, 1 ≤ i → ∀ c < 64,
    (transposeMasks128 i).1.getLsbD c = !c.testBit (6 - i)
      ∧ (transposeMasks128 i).2.getLsbD c = !c.testBit (6 - i) := by
  decide +kernel

theorem eklundh_width : ∀ i < 7, 64 / 2 ^ i = 2 ^ (6 - i) := by decide

/-- The two terms that carry from one lane to the other are empty below width 64. -/
theorem eklundh_carry : ∀ s < 6, ∀ c < 64,
    (c < 2 ^ s → (64 - 2 ^ s + c).testBit s = true) ∧
      (64 - 2 ^ s ≤ c → (c - (64 - 2 ^ s)).testBit s = false) := by
  decide +kernel

/-- Swapping the inner lanes of two rows exchanges bit 6. -/
theorem exchanged_lanes (x y : M128) : Exchanged 6 x y ⟨x.lo, y.lo⟩ ⟨x.hi, y.hi⟩ := by
  have hlow : ∀ c < 64, c.testBit 6 = false ∧ c ^^^ 2 ^ 6 = c + 64 := by decide +kernel
  have hhigh : ∀ c < 64, (c + 64).testBit 6 = true ∧ (c + 64) ^^^ 2 ^ 6 = c := by decide +kernel
  intro c
  rcases Nat.lt_or_ge c 64 with hlt | hge
  · obtain ⟨hbit, hxor⟩ := hlow c hlt
    rw [hbit, hxor, M128.bit_add]
    simp only [M128.bit_lo hlt, M128.bit_add, Bool.false_eq_true, if_false, and_self]
  rcases Nat.lt_or_ge c 128 with hlt | hbeyond
  · obtain ⟨d, rfl⟩ := Nat.exists_eq_add_of_le' hge
    have hd : d < 64 := by omega
    obtain ⟨hbit, hxor⟩ := hhigh d hd
    rw [hbit, hxor]
    simp only [M128.bit_add, M128.bit_lo hd, if_true, and_self]
  · have hxor : 128 ≤ c ^^^ 2 ^ 6 := by
      by_contra hlt
      have h := Nat.xor_lt_two_pow (n := 7) (Nat.lt_of_not_le hlt) (by decide : 2 ^ 6 < 2 ^ 7)
      rw [Nat.xor_assoc, Nat.xor_self, Nat.xor_zero] at h
      omega
    simp only [M128.bit_of_ge hbeyond, M128.bit_of_ge hxor, ite_self, and_self]

/-- The low row of a pair, in one lane. -/
theorem eklundh_low {s : Nat} (hs : s < 6) {mask t tt : BitVec 64}
    (hmask : ∀ c < 64, mask.getLsbD c = !c.testBit s) {c : Nat} (hc : c < 64) :
    ((t &&& mask) ^^^ ((tt &&& mask) <<< (2 ^ s))).getLsbD c
      = if c.testBit s then tt.getLsbD (c ^^^ 2 ^ s) else t.getLsbD c := by
  obtain ⟨hset, -⟩ := lane_partner s hs c hc
  obtain ⟨hdown, -⟩ := lane_shift s hs c hc
  rw [BitVec.getLsbD_xor, BitVec.getLsbD_and, BitVec.getLsbD_shiftLeft, BitVec.getLsbD_and,
    hmask c hc, hmask (c - 2 ^ s) ((Nat.sub_le c _).trans_lt hc), decide_eq_true hc]
  cases hbit : c.testBit s with
  | false =>
    rw [hbit] at hdown
    by_cases hlt : c < 2 ^ s
    · simp [hlt]
    · simp [hdown (Nat.le_of_not_lt hlt)]
  | true =>
    obtain ⟨hle, hxor⟩ := hset hbit
    rw [hbit] at hdown
    simp [hdown hle, hxor, Nat.not_lt.mpr hle]

/-- The high row of a pair, in one lane. -/
theorem eklundh_high {s : Nat} (hs : s < 6) {mask t tt : BitVec 64}
    (hmask : ∀ c < 64, mask.getLsbD c = !c.testBit s) {c : Nat} (hc : c < 64) :
    ((tt &&& ~~~mask) ^^^ ((t &&& ~~~mask) >>> (2 ^ s))).getLsbD c
      = if c.testBit s then tt.getLsbD c else t.getLsbD (c ^^^ 2 ^ s) := by
  obtain ⟨-, hclear⟩ := lane_partner s hs c hc
  obtain ⟨-, hup⟩ := lane_shift s hs c hc
  rw [BitVec.getLsbD_xor, BitVec.getLsbD_and, BitVec.getLsbD_ushiftRight, BitVec.getLsbD_and,
    BitVec.getLsbD_not, BitVec.getLsbD_not, hmask c hc]
  cases hbit : c.testBit s with
  | false =>
    obtain ⟨hlt, hxor⟩ := hclear hbit
    rw [Nat.add_comm] at hlt hxor
    rw [hmask _ hlt, hup hlt, hbit, hxor]
    simp [hlt]
  | true =>
    by_cases hlt : 2 ^ s + c < 64
    · rw [hmask _ hlt, hup hlt, hbit]
      simp [hc]
    · rw [BitVec.getLsbD_of_ge t _ (Nat.le_of_not_lt hlt)]
      simp [hc]

/-- What is carried from one lane to the other is nothing. -/
theorem eklundh_carry_low {s : Nat} (hs : s < 6) {mask t : BitVec 64}
    (hmask : ∀ c < 64, mask.getLsbD c = !c.testBit s) : (t &&& mask) >>> (64 - 2 ^ s) = 0#64 := by
  refine BitVec.eq_of_getLsbD_eq fun c hc => ?_
  rw [BitVec.getLsbD_ushiftRight, BitVec.getLsbD_and, BitVec.getLsbD_zero]
  have hpow : 2 ^ s ≤ 32 := Nat.pow_le_pow_right (by decide : 0 < 2) (by omega : s ≤ 5)
  by_cases hlt : 64 - 2 ^ s + c < 64
  · rw [hmask _ hlt, (eklundh_carry s hs c hc).1 (by omega)]
    simp
  · rw [BitVec.getLsbD_of_ge t _ (by omega), Bool.false_and]

theorem eklundh_carry_high {s : Nat} (hs : s < 6) {mask t : BitVec 64}
    (hmask : ∀ c < 64, mask.getLsbD c = !c.testBit s) :
    (t &&& ~~~mask) <<< (64 - 2 ^ s) = 0#64 := by
  refine BitVec.eq_of_getLsbD_eq fun c hc => ?_
  rw [BitVec.getLsbD_shiftLeft, BitVec.getLsbD_and, BitVec.getLsbD_not, BitVec.getLsbD_zero]
  by_cases hlt : c < 64 - 2 ^ s
  · simp [hlt]
  · rw [hmask _ (by omega), (eklundh_carry s hs c hc).2 (by omega)]
    simp

/-- **One swap of the portable code exchanges a bit.** -/
theorem eklundh_exchanged {i : Nat} (hi : i < 7) (x y : M128) :
    Exchanged (6 - i) x y (eklundhSwap i x y).1 (eklundhSwap i x y).2 := by
  by_cases hzero : i = 0
  · subst hzero
    have hmask1 : (transposeMasks128 0).2 = BitVec.allOnes 64 := by decide
    have hmask2 : (transposeMasks128 0).1 = 0#64 := rfl
    have hswap : eklundhSwap 0 x y = (⟨x.lo, y.lo⟩, ⟨x.hi, y.hi⟩) := by
      simp only [eklundhSwap, hmask1, hmask2, BitVec.and_allOnes, BitVec.not_allOnes,
        BitVec.not_zero, BitVec.and_zero, BitVec.zero_xor]
      simp only [pow_zero, Nat.div_one, Nat.lt_irrefl, if_false, Nat.sub_self,
        BitVec.ushiftRight_zero, BitVec.shiftLeft_zero]
    rw [hswap]
    exact exchanged_lanes x y
  · have hs : 6 - i < 6 := by omega
    have hwidth := eklundh_width i hi
    have hlt : 2 ^ (6 - i) < 64 := Nat.pow_lt_pow_right (n := 6) Nat.one_lt_two (by omega)
    have hmask := eklundh_mask i hi (by omega)
    have hmask1 : ∀ c < 64, (transposeMasks128 i).2.getLsbD c = !c.testBit (6 - i) :=
      fun c hc => (hmask c hc).2
    have hmask2 : ∀ c < 64, (transposeMasks128 i).1.getLsbD c = !c.testBit (6 - i) :=
      fun c hc => (hmask c hc).1
    simp only [eklundhSwap, hwidth, if_pos hlt, eklundh_carry_low hs hmask1,
      eklundh_carry_high hs hmask2, BitVec.xor_zero]
    exact exchanged_of_lanes hs
      (fun c hc => ⟨eklundh_low hs hmask1 hc, eklundh_high hs hmask1 hc⟩)
      fun c hc => ⟨eklundh_low hs hmask2 hc, eklundh_high hs hmask2 hc⟩

/-- **`eklundh_transpose128` transposes.** -/
theorem eklundh_transposes (inOut : Nat → M128) {r c : Nat} (hr : r < 128) (hc : c < 128) :
    square (eklundhTranspose128 inOut) r c = square inOut c r := by
  have hloops : ∀ step ∈ eklundhLoops, step.1 < 7 ∧ step.2.testBit (6 - step.1) = false
      ∧ step.2 + 2 ^ (6 - step.1) = step.2 ^^^ 2 ^ (6 - step.1) := by
    decide +kernel
  have hrun : ∀ loops : List (Nat × Nat), (∀ step ∈ loops, step ∈ eklundhLoops) → ∀ rows,
      square (loops.foldl eklundhStep rows)
        = (loops.map fun step => (6 - step.1, step.2)).foldl stepRows (square rows) := by
    intro loops
    induction loops with
    | nil => exact fun _ rows => rfl
    | cons step loops ih =>
      intro hmem rows
      obtain ⟨hi, hbit, hpartner⟩ := hloops step (hmem step List.mem_cons_self)
      rw [List.foldl_cons, List.map_cons, List.foldl_cons,
        ih (fun step hstep => hmem step (List.mem_cons_of_mem _ hstep))]
      congr 1
      simp only [eklundhStep, eklundh_width _ hi, hpartner]
      exact square_setRows rows hbit (eklundh_exchanged hi _ _)
  rw [eklundhTranspose128, hrun _ fun _ h => h]
  exact transposed (n := 7) (by decide +kernel) _ hr hc

end HocusPocus.Tools
