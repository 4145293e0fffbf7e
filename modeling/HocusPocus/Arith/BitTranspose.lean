import Mathlib.Data.Nat.Bitwise

/-!
# Transposing a square of bits by exchanges

In a square of `2 ^ n` rows and columns, exchanging bit `s` of the row number with bit `s` of the
column number moves the halves of every `2 ^ (s + 1)` square across its diagonal. Doing so once for
each `s < n` transposes the square, in whatever order, and each pair of rows may run ahead of the
others as long as the two rows of a pair are equally far.

* `exchangeBits_exchange`: exchanges of any sets of bits compose to the symmetric difference.
* `exchangeBits_all`: exchanging all bits swaps row and column.
* `Tracks.step`: a pair of rows that are equally far may go on.
* `transposed`: a schedule that brings every row through all bits transposes.
-/

namespace Arith

/-- A square of bits, by row and column. -/
abbrev BitSquare := Nat → Nat → Bool

/-- Exchange the bits of the row and the column that `D` selects. -/
def exchangeBits (D r c : Nat) : Nat × Nat := (r ^^^ ((r ^^^ c) &&& D), c ^^^ ((r ^^^ c) &&& D))

@[simp] theorem exchangeBits_zero (r c : Nat) : exchangeBits 0 r c = (r, c) := by
  simp [exchangeBits]

/-- **Exchanges compose to the symmetric difference.** -/
theorem exchangeBits_exchange (D E r c : Nat) :
    exchangeBits D (exchangeBits E r c).1 (exchangeBits E r c).2 = exchangeBits (D ^^^ E) r c := by
  have hsame : (r ^^^ ((r ^^^ c) &&& E)) ^^^ (c ^^^ ((r ^^^ c) &&& E)) = r ^^^ c := by
    refine Nat.eq_of_testBit_eq fun i => ?_
    simp only [Nat.testBit_xor, Nat.testBit_and]
    cases r.testBit i <;> cases c.testBit i <;> cases E.testBit i <;> rfl
  have hcombine : ∀ a, a ^^^ ((r ^^^ c) &&& E) ^^^ ((r ^^^ c) &&& D)
      = a ^^^ ((r ^^^ c) &&& (D ^^^ E)) := by
    intro a
    refine Nat.eq_of_testBit_eq fun i => ?_
    simp only [Nat.testBit_xor, Nat.testBit_and]
    cases a.testBit i <;> cases r.testBit i <;> cases c.testBit i <;> cases D.testBit i <;>
      cases E.testBit i <;> rfl
  simp only [exchangeBits, hsame, hcombine]

/-- **Exchanging all bits swaps row and column.** -/
theorem exchangeBits_all {n r c : Nat} (hr : r < 2 ^ n) (hc : c < 2 ^ n) :
    exchangeBits (2 ^ n - 1) r c = (c, r) := by
  have hall : (r ^^^ c) &&& (2 ^ n - 1) = r ^^^ c := by
    rw [Nat.and_two_pow_sub_one_eq_mod, Nat.mod_eq_of_lt (Nat.xor_lt_two_pow hr hc)]
  rw [exchangeBits, hall, ← Nat.xor_assoc, Nat.xor_self, Nat.zero_xor, Nat.xor_comm r c,
    ← Nat.xor_assoc, Nat.xor_self, Nat.zero_xor]

theorem exchangeBits_lt {n D r c : Nat} (hr : r < 2 ^ n) (hc : c < 2 ^ n) :
    (exchangeBits D r c).1 < 2 ^ n ∧ (exchangeBits D r c).2 < 2 ^ n := by
  have hmask : (r ^^^ c) &&& D < 2 ^ n := Nat.and_le_left.trans_lt (Nat.xor_lt_two_pow hr hc)
  exact ⟨Nat.xor_lt_two_pow hr hmask, Nat.xor_lt_two_pow hc hmask⟩

/-- The bit of the other half, when row and column are on different sides. -/
theorem exchangeBits_bit (s r c : Nat) :
    exchangeBits (2 ^ s) r c
      = if r.testBit s = c.testBit s then (r, c) else (r ^^^ 2 ^ s, c ^^^ 2 ^ s) := by
  have hmask : (r ^^^ c) &&& 2 ^ s = if r.testBit s = c.testBit s then 0 else 2 ^ s := by
    refine Nat.eq_of_testBit_eq fun i => ?_
    rw [Nat.testBit_and, Nat.testBit_xor, Nat.testBit_two_pow]
    by_cases hi : s = i
    · subst hi
      cases hr : r.testBit s <;> cases hc : c.testBit s <;> simp
    · rw [decide_eq_false hi, Bool.and_false]
      split
      · exact (Nat.zero_testBit i).symm
      · rw [Nat.testBit_two_pow, decide_eq_false hi]
  unfold exchangeBits
  rw [hmask]
  split
  · simp
  · rfl

/-! ## Schedules -/

/-- Exchange bit `s` in the rows `r` and `r ^^^ 2 ^ s`. -/
def stepRows (M : BitSquare) (step : Nat × Nat) : BitSquare := fun r c =>
  if r = step.2 ∨ r = step.2 ^^^ 2 ^ step.1 then
    M (exchangeBits (2 ^ step.1) r c).1 (exchangeBits (2 ^ step.1) r c).2
  else M r c

/-- The bits each row has been through. -/
def stepDone (done : Nat → Nat) (step : Nat × Nat) : Nat → Nat := fun r =>
  if r = step.2 ∨ r = step.2 ^^^ 2 ^ step.1 then done r ^^^ 2 ^ step.1 else done r

/-- Row `r` of `M` is row `r` of `M₀` with the bits `done r` exchanged. -/
def Tracks (n : Nat) (M₀ M : BitSquare) (done : Nat → Nat) : Prop :=
  ∀ r < 2 ^ n, ∀ c < 2 ^ n, M r c = M₀ (exchangeBits (done r) r c).1 (exchangeBits (done r) r c).2

theorem tracks_refl (n : Nat) (M : BitSquare) : Tracks n M M fun _ => 0 :=
  fun r _ c _ => by rw [exchangeBits_zero]

/-- **One pair of rows goes on**, if the two are equally far. -/
theorem Tracks.step {n : Nat} {M₀ M : BitSquare} {done : Nat → Nat} {s r : Nat}
    (h : Tracks n M₀ M done) (hs : s < n) (hsame : done r = done (r ^^^ 2 ^ s)) :
    Tracks n M₀ (stepRows M (s, r)) (stepDone done (s, r)) := by
  have hpow : 2 ^ s < 2 ^ n := Nat.pow_lt_pow_right Nat.one_lt_two hs
  intro r' hr' c hc
  by_cases hpair : r' = r ∨ r' = r ^^^ 2 ^ s
  · simp only [stepRows, stepDone, if_pos hpair]
    obtain ⟨hr₁, hc₁⟩ := exchangeBits_lt (D := 2 ^ s) hr' hc
    -- the row the bit is fetched from is one of the two, so it is equally far
    have hdone : done (exchangeBits (2 ^ s) r' c).1 = done r' := by
      rw [exchangeBits_bit]
      split
      · rfl
      · rcases hpair with rfl | rfl
        · exact hsame.symm
        · rw [Nat.xor_assoc, Nat.xor_self, Nat.xor_zero]
          exact hsame
    rw [h _ hr₁ _ hc₁, hdone, exchangeBits_exchange]
  · simp only [stepRows, stepDone, if_neg hpair]
    exact h r' hr' c hc

/-- The bits row `r` has been through, when `D` holds `n` bits for each row. -/
def doneOf (n D r : Nat) : Nat := (D >>> (n * r)) % 2 ^ n

/-- `D` after a step. -/
def advance (n D : Nat) (step : Nat × Nat) : Nat :=
  D ^^^ 2 ^ (n * step.2 + step.1) ^^^ 2 ^ (n * (step.2 ^^^ 2 ^ step.1) + step.1)

theorem testBit_doneOf (n D r i : Nat) :
    (doneOf n D r).testBit i = (decide (i < n) && D.testBit (n * r + i)) := by
  rw [doneOf, Nat.testBit_mod_two_pow, Nat.testBit_shiftRight]

theorem doneOf_advance {n D s r : Nat} (hs : s < n) (r' : Nat) :
    doneOf n (advance n D (s, r)) r' = stepDone (doneOf n D) (s, r) r' := by
  have hfield : ∀ q i, i < n → (n * q + s = n * r' + i ↔ q = r' ∧ s = i) := by
    intro q i hi
    constructor
    · intro h
      have hdiv := congrArg (· / n) h
      simp only [Nat.mul_add_div (Nat.zero_lt_of_lt hs), Nat.div_eq_of_lt hs,
        Nat.div_eq_of_lt hi, Nat.add_zero] at hdiv
      subst hdiv
      exact ⟨rfl, Nat.add_left_cancel h⟩
    · rintro ⟨rfl, rfl⟩
      rfl
  have hne : r ≠ r ^^^ 2 ^ s := by
    intro h
    have hbit := congrArg (Nat.testBit · s) h
    simp only [Nat.testBit_xor, Nat.testBit_two_pow_self] at hbit
    cases hr : r.testBit s <;> rw [hr] at hbit <;> cases hbit
  refine Nat.eq_of_testBit_eq fun i => ?_
  rw [testBit_doneOf, advance, Nat.testBit_xor, Nat.testBit_xor, Nat.testBit_two_pow,
    Nat.testBit_two_pow, stepDone]
  by_cases hi : i < n
  · simp only [hfield _ i hi, decide_eq_true hi, Bool.true_and]
    by_cases hpair : r' = r ∨ r' = r ^^^ 2 ^ s
    · rw [if_pos hpair, Nat.testBit_xor, testBit_doneOf, decide_eq_true hi, Bool.true_and,
        Nat.testBit_two_pow]
      rcases hpair with rfl | rfl
      · simp [Ne.symm hne]
      · simp [hne]
    · rw [if_neg hpair, testBit_doneOf, decide_eq_true hi, Bool.true_and]
      rw [not_or] at hpair
      simp [Ne.symm hpair.1, Ne.symm hpair.2]
  · rw [decide_eq_false hi, Bool.false_and]
    split
    · rw [Nat.testBit_xor, testBit_doneOf, decide_eq_false hi, Bool.false_and, Nat.testBit_two_pow,
        decide_eq_false (by omega)]
      rfl
    · rw [testBit_doneOf, decide_eq_false hi, Bool.false_and]

/-- Every step of the schedule finds its two rows equally far, and in the end all are through. -/
def scheduled (n : Nat) : List (Nat × Nat) → Nat → Bool
  | [], D => D == 2 ^ (n * 2 ^ n) - 1
  | step :: rest, D =>
    decide (step.1 < n) && doneOf n D step.2 == doneOf n D (step.2 ^^^ 2 ^ step.1)
      && scheduled n rest (advance n D step)

/-- **A schedule that brings every row through all bits transposes the square.** -/
theorem transposed_of_schedule {n D : Nat} {M₀ M : BitSquare} {schedule : List (Nat × Nat)}
    (h : Tracks n M₀ M (doneOf n D)) (hs : scheduled n schedule D = true) {r c : Nat}
    (hr : r < 2 ^ n) (hc : c < 2 ^ n) : schedule.foldl stepRows M r c = M₀ c r := by
  induction schedule generalizing M D with
  | nil =>
    have hall : doneOf n D r = 2 ^ n - 1 := by
      refine Nat.eq_of_testBit_eq fun i => ?_
      rw [testBit_doneOf, beq_iff_eq.mp hs, Nat.testBit_two_pow_sub_one,
        Nat.testBit_two_pow_sub_one]
      by_cases hi : i < n
      · have hlt : n * r + i < n * 2 ^ n := by
          calc n * r + i < n * (r + 1) := by rw [Nat.mul_succ]; omega
            _ ≤ n * 2 ^ n := Nat.mul_le_mul_left n hr
        rw [decide_eq_true hlt, Bool.and_true]
      · rw [decide_eq_false hi, Bool.false_and]
    rw [List.foldl_nil, h r hr c hc, hall, exchangeBits_all hr hc]
  | cons step rest ih =>
    rw [scheduled, Bool.and_eq_true, Bool.and_eq_true, decide_eq_true_eq, beq_iff_eq] at hs
    have hnext := h.step hs.1.1 hs.1.2
    rw [show stepDone (doneOf n D) (step.1, step.2) = doneOf n (advance n D step) from
      funext fun r' => (doneOf_advance hs.1.1 r').symm] at hnext
    exact ih hnext hs.2

/-- The same from the start. -/
theorem transposed {n : Nat} {schedule : List (Nat × Nat)} (hs : scheduled n schedule 0 = true)
    (M : BitSquare) {r c : Nat} (hr : r < 2 ^ n) (hc : c < 2 ^ n) :
    schedule.foldl stepRows M r c = M c r := by
  refine transposed_of_schedule (D := 0) ?_ hs hr hc
  rw [show doneOf n 0 = fun _ => 0 from funext fun r => by
    rw [doneOf, Nat.zero_shiftRight, Nat.zero_mod]]
  exact tracks_refl n M

end Arith
