import Mathlib.Algebra.Order.Ring.Nat
import Mathlib.Data.Nat.Bitwise
import Mathlib.Algebra.Order.Ring.GeomSum
import Mathlib.Order.Interval.Set.Basic
import Mathlib.Tactic.Common
import Mathlib.Tactic.Ring

/-!
# Many numbers in one

A number holds a lane of `w` bits at each multiple of `w`. Bitwise operations and shifts by whole
lanes act lane by lane, sums and products do where no lane overflows, so a few operations on large
numbers compare and exchange many pairs of lanes at once.

A lane has one bit more than its content. `compareExchange` sets that bit, subtracts the lanes at
distance `d`, and exchanges the pairs whose bit is left; whatever the pairs are, it moves the lanes
and changes none of them (`Shuffled`). `increasing` compares all neighbours at once. Together they
show that the lanes of a number differ, without any statement about the order in which a network of
exchanges works (`injOn_of_increasing`).
-/

namespace Arith

/-- The lane `i` of `a`. -/
def lane (w a i : ℕ) : ℕ := a >>> (w * i) % 2 ^ w

variable {w v n d a b s i : ℕ}

theorem lane_lt (w a i : ℕ) : lane w a i < 2 ^ w := Nat.mod_lt _ (Nat.two_pow_pos w)

@[simp] theorem lane_zero_right (w a : ℕ) : lane w a 0 = a % 2 ^ w := by simp [lane]

theorem lane_succ (w a i : ℕ) : lane w a (i + 1) = lane w (a / 2 ^ w) i := by
  rw [lane, lane, ← Nat.shiftRight_eq_div_pow, ← Nat.shiftRight_add, Nat.mul_succ, Nat.add_comm w]

@[simp] theorem lane_zero_left (w i : ℕ) : lane w 0 i = 0 := by simp [lane]

theorem lane_and (w a b i : ℕ) : lane w (a &&& b) i = lane w a i &&& lane w b i := by
  rw [lane, Nat.shiftRight_and_distrib, Nat.and_mod_two_pow]
  rfl

theorem lane_xor (w a b i : ℕ) : lane w (a ^^^ b) i = lane w a i ^^^ lane w b i := by
  rw [lane, Nat.shiftRight_xor_distrib, Nat.xor_mod_two_pow]
  rfl

theorem lane_shiftRight (w a d i : ℕ) : lane w (a >>> (w * d)) i = lane w a (i + d) := by
  rw [lane, lane, ← Nat.shiftRight_add, Nat.mul_add, Nat.add_comm (w * d)]

theorem lane_shiftLeft (w a d i : ℕ) :
    lane w (a <<< (w * d)) i = if d ≤ i then lane w a (i - d) else 0 := by
  split_ifs with h
  · have hsplit : w * i = w * d + w * (i - d) := by rw [← Nat.mul_add, Nat.add_sub_cancel' h]
    rw [lane, lane, hsplit, Nat.shiftRight_add, Nat.shiftLeft_shiftRight]
  · have hsplit : w * d = w + w * (d - i - 1) + w * i := by
      calc w * d = w * (1 + (d - i - 1) + i) := by
            congr 1
            omega
        _ = w + w * (d - i - 1) + w * i := by ring
    rw [lane, hsplit, Nat.shiftLeft_add, Nat.shiftLeft_shiftRight, Nat.shiftLeft_eq, pow_add,
      mul_left_comm, Nat.mul_mod_right]

/-- Sums act lane by lane where none overflows. -/
theorem lane_add (h : ∀ i, lane w a i + lane w b i < 2 ^ w) (i : ℕ) :
    lane w (a + b) i = lane w a i + lane w b i := by
  have hpos := Nat.two_pow_pos w
  induction i generalizing a b with
  | zero =>
    have hzero := h 0
    simp only [lane_zero_right] at hzero ⊢
    rw [Nat.add_mod, Nat.mod_eq_of_lt hzero]
  | succ i ih =>
    have hzero := h 0
    simp only [lane_zero_right] at hzero
    have hdiv : (a + b) / 2 ^ w = a / 2 ^ w + b / 2 ^ w := by
      rw [Nat.add_div hpos, if_neg (by omega), Nat.add_zero]
    rw [lane_succ, lane_succ, lane_succ, hdiv]
    exact ih fun j => by simpa only [lane_succ] using h (j + 1)

/-- One block of lanes after another. -/
theorem lane_concat {m : ℕ} (ha : a < 2 ^ (w * m)) (b i : ℕ) :
    lane w (a + b <<< (w * m)) i = if i < m then lane w a i else lane w b (i - m) := by
  have hlow : ∀ j, m ≤ j → lane w a j = 0 := fun j hj => by
    rw [lane, Nat.shiftRight_eq_div_pow, Nat.div_eq_of_lt, Nat.zero_mod]
    exact ha.trans_le (Nat.pow_le_pow_right (by norm_num) (Nat.mul_le_mul_left w hj))
  have hcases : ∀ j, lane w a j = 0 ∨ lane w (b <<< (w * m)) j = 0 := fun j => by
    rw [lane_shiftLeft]
    rcases lt_or_ge j m with hj | hj
    · exact Or.inr (if_neg (by omega))
    · exact Or.inl (hlow j hj)
  rw [lane_add fun j => ?_, lane_shiftLeft]
  · split_ifs with h1 h2 h2
    · omega
    · rw [hlow i h1, Nat.zero_add]
    · rw [Nat.add_zero]
    · omega
  · rcases hcases j with h | h
    · rw [h, Nat.zero_add]
      exact lane_lt _ _ _
    · rw [h, Nat.add_zero]
      exact lane_lt _ _ _

theorem le_of_lane_le (h : ∀ i, lane w b i ≤ lane w a i) (hw : 0 < w) : b ≤ a := by
  induction b using Nat.strong_induction_on generalizing a with
  | _ b ih =>
    rcases Nat.eq_zero_or_pos b with rfl | hb
    · exact Nat.zero_le a
    · have hone : 1 < 2 ^ w := Nat.one_lt_two_pow hw.ne'
      have hdiv : b / 2 ^ w ≤ a / 2 ^ w :=
        ih (b / 2 ^ w) (Nat.div_lt_self hb hone) fun j => by
          simpa only [lane_succ] using h (j + 1)
      have hmod : b % 2 ^ w ≤ a % 2 ^ w := by simpa only [lane_zero_right] using h 0
      calc b = 2 ^ w * (b / 2 ^ w) + b % 2 ^ w := (Nat.div_add_mod _ _).symm
        _ ≤ 2 ^ w * (a / 2 ^ w) + a % 2 ^ w := Nat.add_le_add (Nat.mul_le_mul_left _ hdiv) hmod
        _ = a := Nat.div_add_mod _ _

/-- The lowest lane of a difference and the others. -/
theorem sub_div_mod {q : ℕ} (hq : 0 < q) (hmod : b % q ≤ a % q) (hdiv : b / q ≤ a / q) :
    (a - b) / q = a / q - b / q ∧ (a - b) % q = a % q - b % q := by
  have ha := Nat.div_add_mod a q
  have hb := Nat.div_add_mod b q
  have hmul := Nat.mul_le_mul_left q hdiv
  have hlt := Nat.mod_lt a hq
  refine (Nat.div_mod_unique hq).mpr ⟨?_, by omega⟩
  rw [Nat.mul_sub]
  omega

/-- Differences act lane by lane where none is negative. -/
theorem lane_sub (hw : 0 < w) (h : ∀ i, lane w b i ≤ lane w a i) (i : ℕ) :
    lane w (a - b) i = lane w a i - lane w b i := by
  have hpos := Nat.two_pow_pos w
  induction i generalizing a b with
  | zero =>
    have htail : b / 2 ^ w ≤ a / 2 ^ w :=
      le_of_lane_le (fun j => by simpa only [lane_succ] using h (j + 1)) hw
    simp only [lane_zero_right]
    exact (sub_div_mod hpos (by simpa only [lane_zero_right] using h 0) htail).2
  | succ i ih =>
    have hrest : ∀ j, lane w (b / 2 ^ w) j ≤ lane w (a / 2 ^ w) j := fun j => by
      simpa only [lane_succ] using h (j + 1)
    have hsplit := sub_div_mod hpos (by simpa only [lane_zero_right] using h 0)
      (le_of_lane_le hrest hw)
    rw [lane_succ, lane_succ, lane_succ, hsplit.1]
    exact ih hrest

/-- Products with a small factor act lane by lane. -/
theorem lane_mul {m : ℕ} (h : ∀ i, lane w a i * m < 2 ^ w) (i : ℕ) :
    lane w (a * m) i = lane w a i * m := by
  have hpos := Nat.two_pow_pos w
  induction i generalizing a with
  | zero =>
    have hzero := h 0
    simp only [lane_zero_right] at hzero ⊢
    rw [← Nat.mod_mul_mod, Nat.mod_eq_of_lt hzero]
  | succ i ih =>
    have hzero := h 0
    rw [lane_zero_right] at hzero
    have hsplit : a * m / 2 ^ w = a / 2 ^ w * m := by
      have ha := Nat.div_add_mod a (2 ^ w)
      refine ((Nat.div_mod_unique hpos (c := a % 2 ^ w * m)).mpr ⟨?_, hzero⟩).1
      conv_rhs => rw [← ha]
      ring
    rw [lane_succ, lane_succ, hsplit]
    exact ih fun j => by simpa only [lane_succ] using h (j + 1)

/-! ## Guard bits -/

/-- A 1 in each of `n` lanes. -/
def ones (w n : ℕ) : ℕ := (2 ^ (w * n) - 1) / (2 ^ w - 1)

theorem lane_ones (hw : 0 < w) (n i : ℕ) : lane w (ones w n) i = if i < n then 1 else 0 := by
  have hpos := Nat.two_pow_pos w
  have hone : 1 < 2 ^ w := Nat.one_lt_two_pow hw.ne'
  rw [ones, pow_mul, ← Nat.geomSum_eq hone]
  induction n generalizing i with
  | zero => simp
  | succ n ih =>
    rw [geom_sum_succ]
    cases i with
    | zero => rw [lane_zero_right, Nat.mul_add_mod, Nat.mod_eq_of_lt hone, if_pos (by omega)]
    | succ i =>
      rw [lane_succ, Nat.mul_add_div hpos, Nat.div_eq_of_lt hone, Nat.add_zero, ih]
      simp

theorem lane_ones_le (hw : 0 < w) (n i : ℕ) : lane w (ones w n) i ≤ 1 := by
  rw [lane_ones hw]
  split_ifs
  · exact le_rfl
  · exact Nat.zero_le 1

/-- The guard bits of the lanes below `n`. -/
theorem lane_guards (n i : ℕ) :
    lane (v + 1) (ones (v + 1) n <<< v) i = if i < n then 2 ^ v else 0 := by
  have hlt : ∀ j, lane (v + 1) (ones (v + 1) n) j * 2 ^ v < 2 ^ (v + 1) := fun j => by
    have hle := Nat.mul_le_mul_right (2 ^ v) (lane_ones_le (Nat.zero_lt_succ v) n j)
    rw [Nat.succ_eq_add_one] at hle
    have hpos := Nat.two_pow_pos v
    rw [pow_succ]
    omega
  rw [Nat.shiftLeft_eq, lane_mul hlt, lane_ones (Nat.succ_pos v)]
  split_ifs
  · rw [Nat.one_mul]
  · rw [Nat.zero_mul]

/-! ## Exchanges -/

/-- Exchange the lanes `i` and `i + d` for each `i` with a 1 in `s`. -/
def exchange (v d a s : ℕ) : ℕ :=
  let x := (a ^^^ a >>> ((v + 1) * d)) &&& s * (2 ^ v - 1)
  a ^^^ x ^^^ x <<< ((v + 1) * d)

/-- Compare the lanes at distance `d` that `g` selects, and exchange those in the wrong order; no
lane may be in two pairs. -/
def compareExchange (v n d a g : ℕ) : ℕ :=
  let r := ones (v + 1) n
  let s := ((a ||| r <<< v) - a >>> ((v + 1) * d)) >>> v &&& g &&& r >>> ((v + 1) * d)
  bif Nat.beq (s &&& s <<< ((v + 1) * d)) 0 then exchange v d a s else a

/-- The place a lane of `exchange` comes from. -/
def partner (v d s i : ℕ) : ℕ :=
  if lane (v + 1) s i = 1 then i + d
  else if d ≤ i ∧ lane (v + 1) s (i - d) = 1 then i - d
  else i

theorem lane_exchange (ha : ∀ i, lane (v + 1) a i < 2 ^ v) (hs : ∀ i, lane (v + 1) s i ≤ 1)
    (hdisj : ∀ i, lane (v + 1) s i = 1 → lane (v + 1) s (i + d) ≠ 1) (i : ℕ) :
    lane (v + 1) (exchange v d a s) i = lane (v + 1) a (partner v d s i) := by
  have hmask : ∀ j, lane (v + 1) (s * (2 ^ v - 1)) j = lane (v + 1) s j * (2 ^ v - 1) := by
    refine lane_mul fun j => ?_
    have hle := Nat.mul_le_mul_right (2 ^ v - 1) (hs j)
    have hpos := Nat.two_pow_pos v
    rw [pow_succ]
    omega
  have hx : ∀ j, lane (v + 1) ((a ^^^ a >>> ((v + 1) * d)) &&& s * (2 ^ v - 1)) j
      = if lane (v + 1) s j = 1 then lane (v + 1) a j ^^^ lane (v + 1) a (j + d) else 0 := by
    intro j
    rw [lane_and, lane_xor, lane_shiftRight, hmask]
    split_ifs with hj
    · rw [hj, Nat.one_mul, Nat.and_two_pow_sub_one_eq_mod,
        Nat.mod_eq_of_lt (Nat.xor_lt_two_pow (ha j) (ha (j + d)))]
    · have hle := hs j
      rw [show lane (v + 1) s j = 0 by omega, Nat.zero_mul, Nat.and_zero]
  unfold exchange partner
  dsimp only
  rw [lane_xor, lane_xor, lane_shiftLeft, hx, hx]
  by_cases hi : lane (v + 1) s i = 1
  · have hno : ¬ (d ≤ i ∧ lane (v + 1) s (i - d) = 1) := fun h =>
      hdisj (i - d) h.2 (by rwa [Nat.sub_add_cancel h.1])
    have hzero : (if d ≤ i then if lane (v + 1) s (i - d) = 1 then
        lane (v + 1) a (i - d) ^^^ lane (v + 1) a (i - d + d) else 0 else 0) = 0 := by
      split_ifs with h1 h2
      · exact absurd ⟨h1, h2⟩ hno
      · rfl
      · rfl
    rw [hzero, if_pos hi, if_pos hi, Nat.xor_zero, ← Nat.xor_assoc, Nat.xor_self, Nat.zero_xor]
  · rw [if_neg hi, if_neg hi, Nat.xor_zero]
    by_cases hd : d ≤ i ∧ lane (v + 1) s (i - d) = 1
    · rw [if_pos hd.1, if_pos hd.2, if_pos hd, Nat.sub_add_cancel hd.1, Nat.xor_comm,
        Nat.xor_assoc, Nat.xor_self, Nat.xor_zero]
    · rw [if_neg hd]
      split_ifs with h1 h2
      · exact absurd ⟨h1, h2⟩ hd
      · rw [Nat.xor_zero]
      · rw [Nat.xor_zero]

theorem partner_partner (hs : ∀ i, lane (v + 1) s i = 1 → lane (v + 1) s (i + d) ≠ 1) (i : ℕ) :
    partner v d s (partner v d s i) = i := by
  by_cases hi : lane (v + 1) s i = 1
  · have hfirst : partner v d s i = i + d := if_pos hi
    rw [hfirst, partner, if_neg (hs i hi), Nat.add_sub_cancel, if_pos ⟨Nat.le_add_left d i, hi⟩]
  · by_cases hd : d ≤ i ∧ lane (v + 1) s (i - d) = 1
    · have hfirst : partner v d s i = i - d := by rw [partner, if_neg hi, if_pos hd]
      rw [hfirst, partner, if_pos hd.2, Nat.sub_add_cancel hd.1]
    · have hfirst : partner v d s i = i := by rw [partner, if_neg hi, if_neg hd]
      rw [hfirst, hfirst]

/-! ## Shuffles -/

/-- The lanes of `b` are those of `a`, the ones below `n` in another order. -/
def Shuffled (v n a b : ℕ) : Prop :=
  ∃ σ : Equiv.Perm ℕ, (∀ i, σ i < n ↔ i < n) ∧ ∀ i, lane (v + 1) b i = lane (v + 1) a (σ i)

theorem Shuffled.refl (v n a : ℕ) : Shuffled v n a a :=
  ⟨Equiv.refl ℕ, fun _ => Iff.rfl, fun _ => rfl⟩

theorem Shuffled.trans {c : ℕ} (h : Shuffled v n a b) (h' : Shuffled v n b c) :
    Shuffled v n a c := by
  obtain ⟨σ, hσ, hab⟩ := h
  obtain ⟨τ, hτ, hbc⟩ := h'
  refine ⟨τ.trans σ, fun i => ?_, fun i => ?_⟩
  · rw [Equiv.trans_apply, hσ, hτ]
  · rw [hbc, hab, Equiv.trans_apply]

theorem Shuffled.lt (h : Shuffled v n a b) (ha : ∀ i, lane (v + 1) a i < 2 ^ v) (i : ℕ) :
    lane (v + 1) b i < 2 ^ v := by
  obtain ⟨σ, -, hab⟩ := h
  rw [hab]
  exact ha _

/-- Lanes that differ in one order differ in the other. -/
theorem Shuffled.injOn (h : Shuffled v n a b) (hb : Set.InjOn (lane (v + 1) b) (Set.Iio n)) :
    Set.InjOn (lane (v + 1) a) (Set.Iio n) := by
  obtain ⟨σ, hσ, hab⟩ := h
  have hinv : ∀ i, i < n → σ.symm i < n := fun i hi => (hσ _).mp (by rwa [Equiv.apply_symm_apply])
  intro i hi j hj hij
  have heq : lane (v + 1) b (σ.symm i) = lane (v + 1) b (σ.symm j) := by
    rw [hab, hab, Equiv.apply_symm_apply, Equiv.apply_symm_apply, hij]
  exact σ.symm.injective (hb (hinv i hi) (hinv j hj) heq)

/-- **An exchange moves lanes and changes none**, whatever pairs it is asked for. -/
theorem compareExchange_shuffled (ha : ∀ i, lane (v + 1) a i < 2 ^ v) (d g : ℕ) :
    Shuffled v n a (compareExchange v n d a g) := by
  unfold compareExchange
  extract_lets r s
  have hs : ∀ i, lane (v + 1) s i ≤ lane (v + 1) r (i + d) := fun i => by
    rw [lane_and, lane_shiftRight]
    exact Nat.and_le_right
  have hr : ∀ i, lane (v + 1) r i = if i < n then 1 else 0 := lane_ones (Nat.succ_pos v) n
  have hone : ∀ i, lane (v + 1) s i ≤ 1 := fun i =>
    (hs i).trans (lane_ones_le (Nat.succ_pos v) n _)
  have hlt : ∀ i, lane (v + 1) s i = 1 → i + d < n := fun i hi => by
    have hle := hs i
    rw [hi, hr] at hle
    by_contra hge
    rw [if_neg hge] at hle
    omega
  rcases hbeq : Nat.beq (s &&& s <<< ((v + 1) * d)) 0 with _ | _
  · exact Shuffled.refl v n a
  · have hdisj : ∀ i, lane (v + 1) s i = 1 → lane (v + 1) s (i + d) ≠ 1 := by
      intro i hi hid
      have hzero := congrArg (lane (v + 1) · (i + d)) (Nat.eq_of_beq_eq_true hbeq)
      simp only [lane_and, lane_shiftLeft, lane_zero_left, Nat.add_sub_cancel,
        Nat.le_add_left, if_true, hi, hid] at hzero
      exact absurd hzero (by decide)
    have hinv : Function.Involutive (partner v d s) := partner_partner hdisj
    refine ⟨hinv.toPerm, fun i => ?_, fun i => lane_exchange ha hone hdisj i⟩
    rw [hinv.coe_toPerm, partner]
    split_ifs with h1 h2
    · have hi := hlt i h1
      omega
    · have hi := hlt (i - d) h2.2
      omega
    · exact Iff.rfl

/-- A loop of steps that shuffle. -/
theorem Shuffled.foldl {γ : Type*} {step : ℕ → γ → ℕ}
    (h : ∀ a x, (∀ i, lane (v + 1) a i < 2 ^ v) → Shuffled v n a (step a x)) (l : List γ)
    (ha : ∀ i, lane (v + 1) a i < 2 ^ v) : Shuffled v n a (l.foldl step a) := by
  induction l generalizing a with
  | nil => exact Shuffled.refl v n a
  | cons x l ih =>
    have hstep := h a x ha
    exact hstep.trans (ih (hstep.lt ha))

/-! ## Increasing lanes -/

/-- Each of the lanes below `n` is below the next one. -/
def increasing (v n a : ℕ) : Bool :=
  let r := ones (v + 1) n
  Nat.beq ((a >>> (v + 1) + r <<< v - (a % 2 ^ ((v + 1) * n) + r)) &&& r <<< v) (r <<< v)

theorem lane_mod (w a n i : ℕ) :
    lane w (a % 2 ^ (w * n)) i = if i < n then lane w a i else 0 := by
  induction i generalizing a n with
  | zero =>
    cases n with
    | zero => simp [Nat.mod_one]
    | succ n =>
      rw [lane_zero_right, lane_zero_right, if_pos (Nat.succ_pos n),
        Nat.mod_mod_of_dvd _ (pow_dvd_pow 2 (Nat.le_mul_of_pos_right w n.succ_pos))]
  | succ i ih =>
    cases n with
    | zero => simp [Nat.mod_one]
    | succ n =>
      have hdiv : a % 2 ^ (w * (n + 1)) / 2 ^ w = a / 2 ^ w % 2 ^ (w * n) := by
        rw [Nat.mul_succ, Nat.add_comm (w * n), pow_add, Nat.mod_mul_right_div_self]
      rw [lane_succ, lane_succ, hdiv, ih]
      simp

/-- **The comparison of all neighbours at once.** -/
theorem lane_lt_of_increasing (ha : ∀ i, lane (v + 1) a i < 2 ^ v)
    (h : increasing v n a = true) (hi : i < n) :
    lane (v + 1) a i < lane (v + 1) a (i + 1) := by
  have hpos := Nat.two_pow_pos v
  have hpow : 2 ^ (v + 1) = 2 ^ v + 2 ^ v := by rw [pow_succ, Nat.mul_two]
  have hnext : ∀ j, lane (v + 1) (a >>> (v + 1)) j = lane (v + 1) a (j + 1) := fun j => by
    rw [lane_succ, Nat.shiftRight_eq_div_pow]
  have hleft : ∀ j, lane (v + 1) (a >>> (v + 1) + ones (v + 1) n <<< v) j
      = lane (v + 1) a (j + 1) + if j < n then 2 ^ v else 0 := by
    intro j
    rw [lane_add fun j => ?_, hnext, lane_guards]
    have hj := ha (j + 1)
    rw [hnext, lane_guards]
    split_ifs <;> omega
  have hright : ∀ j, lane (v + 1) (a % 2 ^ ((v + 1) * n) + ones (v + 1) n) j
      = if j < n then lane (v + 1) a j + 1 else 0 := by
    intro j
    rw [lane_add fun j => ?_, lane_mod, lane_ones (Nat.succ_pos v)]
    · split_ifs <;> rfl
    · have hj := ha j
      rw [lane_mod, lane_ones (Nat.succ_pos v)]
      split_ifs <;> omega
  have hle : ∀ j, lane (v + 1) (a % 2 ^ ((v + 1) * n) + ones (v + 1) n) j
      ≤ lane (v + 1) (a >>> (v + 1) + ones (v + 1) n <<< v) j := by
    intro j
    have hj := ha j
    rw [hleft, hright]
    split_ifs <;> omega
  have hguard := congrArg (lane (v + 1) · i) (Nat.eq_of_beq_eq_true h)
  simp only [lane_and, lane_guards, if_pos hi] at hguard
  have hand := Nat.and_le_left (n := lane (v + 1) (a >>> (v + 1) + ones (v + 1) n <<< v
    - (a % 2 ^ ((v + 1) * n) + ones (v + 1) n)) i) (m := 2 ^ v)
  rw [hguard, lane_sub (Nat.succ_pos v) hle, hleft, hright, if_pos hi, if_pos hi] at hand
  omega

/-- Lanes that increase after a shuffle differ, and the first of them is the least. -/
theorem injOn_of_increasing (ha : ∀ i, lane (v + 1) a i < 2 ^ v) (hab : Shuffled v (n + 1) a b)
    (h : increasing v n b = true) : Set.InjOn (lane (v + 1) a) (Set.Iio (n + 1)) := by
  have hstep := fun i (hi : i < n) => lane_lt_of_increasing (hab.lt ha) h hi
  have hmono : ∀ j, j ≤ n → ∀ i < j, lane (v + 1) b i < lane (v + 1) b j := by
    intro j hj
    induction j with
    | zero => exact fun i hi => absurd hi (Nat.not_lt_zero i)
    | succ j ih =>
      intro i hi
      have hnext := hstep j hj
      rcases Nat.lt_succ_iff_lt_or_eq.mp hi with hlt | rfl
      · exact (ih (Nat.le_of_succ_le hj) i hlt).trans hnext
      · exact hnext
  refine hab.injOn fun i hi j hj hij => ?_
  rcases lt_trichotomy i j with hlt | heq | hgt
  · exact absurd hij (hmono j (Nat.le_of_lt_succ hj) i hlt).ne
  · exact heq
  · exact absurd hij (hmono i (Nat.le_of_lt_succ hi) j hgt).ne'

end Arith
