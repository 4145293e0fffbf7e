import HocusPocus.Arith.Lanes
import HocusPocus.Field.Exact

/-!
# The roots of unity of `scripts/safe_trunc.py`

The script enumerates the powers of an `epsilon`-th root of unity and looks for two with the same
low bytes. Here the enumeration packs one key of 40 bits for each power into a lane, for half of the
powers: the key of `y` is the low part of `y * (p - y)`, which is the same for `-y` and depends on
the low part of `y` alone. A network of exchanges sorts the lanes of each two blocks of powers.

* `powerKey_injOn`, `powerKey_ne_zero`: no two of these powers have the same key, and no key is 0.
* `large_power`: all but the first are far from zero.
-/

namespace HocusPocus.SafeTrunc

open Arith

/-! ## Packed keys -/

/-- `find_primitive_root`, for the field element 2. -/
def omega : Nat := powMod prime 256 2 powDExp

/-- The low part of `y * (p - y)`. -/
def key (y : Nat) : Nat := Nat.mod (Nat.mul y (Nat.sub prime y)) 1099511627776

/-- `omega ^ 2 ^ k`. -/
def square : Nat → Nat
  | 0 => omega
  | k + 1 => square k * square k % prime

-- the recursors and the named operations of the two enumerations are what the kernel computes with

/-- The keys of `x`, `x * omega`, … in `2 ^ k` lanes of 41 bits. -/
def fill (k : Nat) : Nat → Nat :=
  Nat.rec key (fun k ih x =>
    Nat.add (ih x) (Nat.shiftLeft (ih (Nat.mod (Nat.mul x (square k)) prime))
      (Nat.mul 41 (Nat.pow 2 k)))) k

/-- How many of `x`, `x * omega`, … are near zero, among `2 ^ k`. -/
def nearZero (k : Nat) : Nat → Nat :=
  Nat.rec (fun y =>
      Nat.sub 1 (Nat.shiftRight (Nat.shiftRight (Nat.mul y (Nat.sub prime y)) 255) 35))
    (fun k ih x => Nat.add (ih x) (ih (Nat.mod (Nat.mul x (square k)) prime))) k

/-- The keys of the block `j` of the powers, in blocks of `n`. -/
def block (n j : Nat) : Nat := fill 16 (powMod prime 20 omega (n * j)) % 2 ^ (41 * n)

/-- A zero and the keys of two blocks. -/
def pair (n j k : Nat) : Nat := (block n j + block n k <<< (41 * n)) <<< (41 * 1)

/-! ## The network -/

/-- The exchanges of the numbers that differ in the bit `k`, and the ones that clean up after
them. -/
def mergeRound (n t k a : Nat) : Nat :=
  let g := ones 41 n &&& (2 ^ (41 * 2 ^ t) - 1) / (2 ^ (41 * 2 ^ k) + 1)
  (List.range (t - 1 - k)).foldl
    (fun a j => compareExchange 40 n (2 ^ (t - 1 - j) - 2 ^ k) a (g <<< (41 * 2 ^ k)))
    (compareExchange 40 n (2 ^ k) a g)

/-- Merge exchange for up to `2 ^ t` lanes. -/
def mergeExchange (n t a : Nat) : Nat :=
  (List.range t).foldl (fun a j => mergeRound n t (t - 1 - j) a) a

/-- The keys of two blocks differ. -/
def pairOk (n j k : Nat) : Bool :=
  increasing 40 (2 * n) (mergeExchange (2 * n + 1) 17 (pair n j k))

/-! ## The keys in the lanes -/

/-- The key of a power. -/
def powerKey (i : Nat) : Nat := key (omega ^ i % prime)

theorem key_lt (y : Nat) : key y < 2 ^ 40 := Nat.mod_lt _ (by norm_num)

theorem omega_lt : omega < prime := by
  rw [omega, powMod_eq _ _ _ _ (by decide +kernel)]
  exact Nat.mod_lt _ prime_prime.pos

theorem square_eq (k : Nat) : square k = omega ^ 2 ^ k % prime := by
  induction k with
  | zero => rw [square, pow_zero, pow_one, Nat.mod_eq_of_lt omega_lt]
  | succ k ih => rw [square, ih, ← Nat.mul_mod, ← pow_add, pow_succ, Nat.mul_two]

theorem fill_succ (k x : Nat) :
    fill (k + 1) x = fill k x + fill k (x * square k % prime) <<< (41 * 2 ^ k) := rfl

theorem fill_spec (k : Nat) {x : Nat} (hx : x < prime) :
    fill k x < 2 ^ (41 * 2 ^ k) ∧
      ∀ i < 2 ^ k, lane 41 (fill k x) i = key (x * omega ^ i % prime) := by
  induction k generalizing x with
  | zero =>
    have hkey : key x < 2 ^ 41 := (key_lt x).trans (by norm_num)
    refine ⟨hkey, fun i hi => ?_⟩
    obtain rfl : i = 0 := by omega
    rw [lane_zero_right, pow_zero, mul_one, Nat.mod_eq_of_lt hx]
    exact Nat.mod_eq_of_lt hkey
  | succ k ih =>
    have hnext : x * square k % prime < prime := Nat.mod_lt _ prime_prime.pos
    obtain ⟨hlt, hlane⟩ := ih hx
    obtain ⟨hlt', hlane'⟩ := ih hnext
    rw [fill_succ]
    refine ⟨?_, fun i hi => ?_⟩
    · have hpow : 2 ^ (41 * 2 ^ (k + 1)) = 2 ^ (41 * 2 ^ k) * 2 ^ (41 * 2 ^ k) := by
        rw [← pow_add]
        congr 1
        ring
      rw [Nat.shiftLeft_eq, hpow]
      calc fill k x + fill k (x * square k % prime) * 2 ^ (41 * 2 ^ k)
          < 2 ^ (41 * 2 ^ k) + fill k (x * square k % prime) * 2 ^ (41 * 2 ^ k) :=
            Nat.add_lt_add_right hlt _
        _ = (fill k (x * square k % prime) + 1) * 2 ^ (41 * 2 ^ k) := by ring
        _ ≤ 2 ^ (41 * 2 ^ k) * 2 ^ (41 * 2 ^ k) := Nat.mul_le_mul_right _ hlt'
    · rw [lane_concat hlt]
      split_ifs with h
      · exact hlane i h
      · have hexp : omega ^ i = omega ^ 2 ^ k * omega ^ (i - 2 ^ k) := by
          rw [← pow_add]
          congr 1
          omega
        rw [hlane' (i - 2 ^ k) (by rw [pow_succ] at hi; omega), square_eq, hexp]
        refine congrArg key ?_
        rw [Nat.mul_mod_mod, Nat.mod_mul_mod, mul_assoc]

section Blocks

variable {n j k : Nat}

/-- The lanes of a block. -/
theorem lane_block (hn : n ≤ 2 ^ 16) (hj : j < 6) (i : Nat) :
    lane 41 (block n j) i = if i < n then powerKey (n * j + i) else 0 := by
  have hexp : n * j < 2 ^ 20 := calc
    n * j ≤ 2 ^ 16 * 5 := Nat.mul_le_mul hn (Nat.le_of_lt_succ hj)
    _ < 2 ^ 20 := by norm_num
  have hstart : powMod prime 20 omega (n * j) < prime := by
    rw [powMod_eq _ _ _ _ hexp]
    exact Nat.mod_lt _ prime_prime.pos
  rw [block, lane_mod]
  split_ifs with hi
  · rw [(fill_spec 16 hstart).2 i (hi.trans_le hn), powMod_eq _ _ _ _ hexp, powerKey,
      Nat.mod_mul_mod, ← pow_add]
  · rfl

theorem block_lt (n j : Nat) : block n j < 2 ^ (41 * n) := Nat.mod_lt _ (Nat.two_pow_pos _)

/-- The lanes of a pair: a zero, a block, a block. -/
theorem lane_pair (hn : n ≤ 2 ^ 16) (hj : j < 6) (hk : k < 6) (i : Nat) :
    lane 41 (pair n j k) i
      = if 1 ≤ i then
          if i - 1 < n then powerKey (n * j + (i - 1))
          else if i - 1 - n < n then powerKey (n * k + (i - 1 - n)) else 0
        else 0 := by
  unfold pair
  rw [lane_shiftLeft, lane_concat (block_lt n j), lane_block hn hj, lane_block hn hk]
  by_cases h : i - 1 < n
  · rw [if_pos h, if_pos h, if_pos h]
  · rw [if_neg h, if_neg h]

theorem lane_pair_left {r : Nat} (hn : n ≤ 2 ^ 16) (hj : j < 6) (hk : k < 6) (hr : r < n) :
    lane 41 (pair n j k) (r + 1) = powerKey (n * j + r) := by
  rw [lane_pair hn hj hk, if_pos (Nat.le_add_left 1 r), Nat.add_sub_cancel, if_pos hr]

theorem lane_pair_right {r : Nat} (hn : n ≤ 2 ^ 16) (hj : j < 6) (hk : k < 6) (hr : r < n) :
    lane 41 (pair n j k) (n + r + 1) = powerKey (n * k + r) := by
  rw [lane_pair hn hj hk, if_pos (Nat.le_add_left 1 _), Nat.add_sub_cancel,
    if_neg (Nat.not_lt.mpr (Nat.le_add_right _ _)), Nat.add_sub_cancel_left, if_pos hr]

theorem lane_pair_zero (hn : n ≤ 2 ^ 16) (hj : j < 6) (hk : k < 6) :
    lane 41 (pair n j k) 0 = 0 := by
  rw [lane_pair hn hj hk, if_neg (by norm_num)]

/-! ## The network and the pairs -/

/-- The network shuffles. -/
theorem mergeExchange_shuffled (n t : Nat) {a : Nat} (ha : ∀ i, lane 41 a i < 2 ^ 40) :
    Shuffled 40 n a (mergeExchange n t a) := by
  refine Shuffled.foldl (fun a j ha => ?_) _ ha
  have hfirst := compareExchange_shuffled (n := n) ha (2 ^ (t - 1 - j))
    (ones 41 n &&& (2 ^ (41 * 2 ^ t) - 1) / (2 ^ (41 * 2 ^ (t - 1 - j)) + 1))
  exact hfirst.trans (Shuffled.foldl (fun a _ ha => compareExchange_shuffled ha _ _) _
    (hfirst.lt ha))

/-- The lanes of a pair differ. -/
theorem pair_injOn (hn : n ≤ 2 ^ 16) (hj : j < 6) (hk : k < 6) (h : pairOk n j k = true) :
    Set.InjOn (lane 41 (pair n j k)) (Set.Iio (2 * n + 1)) := by
  have hsmall : ∀ i, lane 41 (pair n j k) i < 2 ^ 40 := by
    intro i
    rw [lane_pair hn hj hk]
    split_ifs
    · exact key_lt _
    · exact key_lt _
    · norm_num
    · norm_num
  exact injOn_of_increasing hsmall (mergeExchange_shuffled _ _ hsmall) h

/-- Each block is the left or the right one of a pair. -/
theorem exists_pair (hn : n ≤ 2 ^ 16) (h : ∀ k < 6, ∀ j < k, pairOk n j k = true) (hj : j < 6) :
    ∃ a o, o ≤ n ∧ Set.InjOn (lane 41 a) (Set.Iio (2 * n + 1)) ∧ lane 41 a 0 = 0 ∧
      ∀ r < n, lane 41 a (o + r + 1) = powerKey (n * j + r) := by
  have h0 : 0 < 6 := by norm_num
  have h1 : 1 < 6 := by norm_num
  rcases Nat.eq_zero_or_pos j with rfl | hpos
  · refine ⟨pair n 0 1, 0, Nat.zero_le n, pair_injOn hn h0 h1 (h 1 h1 0 one_pos),
      lane_pair_zero hn h0 h1, fun r hr => ?_⟩
    rw [Nat.zero_add, lane_pair_left hn h0 h1 hr]
  · exact ⟨pair n 0 j, n, le_rfl, pair_injOn hn h0 hj (h j hj 0 hpos), lane_pair_zero hn h0 hj,
      fun r hr => lane_pair_right hn h0 hj hr⟩

/-- Keys of two blocks that are equal have equal places. -/
theorem powerKey_block (hn : n ≤ 2 ^ 16) (h : ∀ k < 6, ∀ j < k, pairOk n j k = true)
    {r r' : Nat} (hjk : j ≤ k) (hk : k < 6) (hr : r < n) (hr' : r' < n)
    (heq : powerKey (n * j + r) = powerKey (n * k + r')) : j = k ∧ r = r' := by
  rcases hjk.eq_or_lt with rfl | hlt
  · obtain ⟨a, o, ho, hinj, -, hlane⟩ := exists_pair hn h hk
    rw [← hlane r hr, ← hlane r' hr'] at heq
    have hplace := hinj (Set.mem_Iio.mpr (by omega)) (Set.mem_Iio.mpr (by omega)) heq
    exact ⟨rfl, by omega⟩
  · have hj := hlt.trans hk
    rw [← lane_pair_left hn hj hk hr, ← lane_pair_right hn hj hk hr'] at heq
    have hplace := pair_injOn hn hj hk (h k hk j hlt) (Set.mem_Iio.mpr (by omega))
      (Set.mem_Iio.mpr (by omega)) heq
    omega

/-- The keys of six blocks differ. -/
theorem powerKey_injOn_of_pairOk (hn : n ≤ 2 ^ 16)
    (h : ∀ k < 6, ∀ j < k, pairOk n j k = true) : Set.InjOn powerKey (Set.Iio (6 * n)) := by
  intro i hi i' hi' heq
  rw [Set.mem_Iio] at hi hi'
  have hpos : 0 < n := by omega
  have hj : i / n < 6 := Nat.div_lt_of_lt_mul (by rwa [Nat.mul_comm])
  have hj' : i' / n < 6 := Nat.div_lt_of_lt_mul (by rwa [Nat.mul_comm])
  have hi := Nat.div_add_mod i n
  have hi' := Nat.div_add_mod i' n
  rw [← hi, ← hi'] at heq
  rcases le_total (i / n) (i' / n) with hle | hle
  · obtain ⟨hdiv, hmod⟩ := powerKey_block hn h hle hj' (Nat.mod_lt i hpos) (Nat.mod_lt i' hpos) heq
    rw [← hi, ← hi', hdiv, hmod]
  · obtain ⟨hdiv, hmod⟩ := powerKey_block hn h hle hj (Nat.mod_lt i' hpos) (Nat.mod_lt i hpos)
      heq.symm
    rw [← hi, ← hi', hdiv, hmod]

/-- No key of six blocks is zero. -/
theorem powerKey_ne_zero_of_pairOk (hn : n ≤ 2 ^ 16)
    (h : ∀ k < 6, ∀ j < k, pairOk n j k = true) {i : Nat} (hi : i < 6 * n) : powerKey i ≠ 0 := by
  intro heq
  have hpos : 0 < n := by omega
  obtain ⟨a, o, ho, hinj, hzero, hlane⟩ :=
    exists_pair hn h (Nat.div_lt_of_lt_mul (by rwa [Nat.mul_comm]) : i / n < 6)
  have hmod := Nat.mod_lt i hpos
  rw [← Nat.div_add_mod i n, ← hlane _ hmod, ← hzero] at heq
  have hplace := hinj (Set.mem_Iio.mpr (by omega)) (Set.mem_Iio.mpr (by omega)) heq
  omega

end Blocks

/-! ## The check -/

/-- The check of each two blocks, by evaluation. -/
theorem pairs_ok : ∀ k < 6, ∀ j < k, pairOk 65147 j k = true := by
  intro k hk j hj
  interval_cases k <;> interval_cases j <;> decide +kernel

/-- **The keys of half of the powers differ.** -/
theorem powerKey_injOn : Set.InjOn powerKey (Set.Iio 390882) :=
  powerKey_injOn_of_pairOk (by norm_num) pairs_ok

theorem powerKey_ne_zero {i : Nat} (hi : i < 390882) : powerKey i ≠ 0 :=
  powerKey_ne_zero_of_pairOk (n := 65147) (by norm_num) pairs_ok hi

/-! ## Powers near zero -/

theorem nearZero_succ (k x : Nat) :
    nearZero (k + 1) x = nearZero k x + nearZero k (x * square k % prime) := rfl

theorem le_of_nearZero (k : Nat) {x : Nat} (hx : x < prime) (h : nearZero k x = 0) {i : Nat}
    (hi : i < 2 ^ k) :
    2 ^ 255 * 2 ^ 35 ≤ (x * omega ^ i % prime) * (prime - x * omega ^ i % prime) := by
  induction k generalizing x i with
  | zero =>
    obtain rfl : i = 0 := by omega
    have hshift : 1 ≤ (x * (prime - x)) >>> 255 >>> 35 := Nat.sub_eq_zero_iff_le.mp h
    rw [pow_zero, mul_one, Nat.mod_eq_of_lt hx]
    rwa [Nat.shiftRight_eq_div_pow, Nat.shiftRight_eq_div_pow, Nat.div_div_eq_div_mul,
      Nat.one_le_div_iff (by positivity)] at hshift
  | succ k ih =>
    have hnext : x * square k % prime < prime := Nat.mod_lt _ prime_prime.pos
    rw [nearZero_succ, Nat.add_eq_zero_iff] at h
    rcases Nat.lt_or_ge i (2 ^ k) with hlow | hhigh
    · exact ih hx h.1 hlow
    · have hexp : omega ^ i = omega ^ 2 ^ k * omega ^ (i - 2 ^ k) := by
        rw [← pow_add, Nat.add_sub_cancel' hhigh]
      have hpower : x * square k % prime * omega ^ (i - 2 ^ k) % prime
          = x * omega ^ i % prime := by
        rw [square_eq, hexp, Nat.mul_mod_mod, Nat.mod_mul_mod, mul_assoc]
      have hle := ih hnext h.2 (i := i - 2 ^ k) (by rw [pow_succ] at hi; omega)
      rwa [hpower] at hle

/-- The count in six runs of powers that cover the half but for the first one, by evaluation. -/
theorem nearZero_eq : ∀ j < 6, nearZero 16 (powMod prime 20 omega (1 + 65069 * j)) = 0 := by
  intro j hj
  interval_cases j <;> decide +kernel

/-- **All but the first power are far from zero.** -/
theorem large_power {i : Nat} (hpos : 0 < i) (hi : i < 390882) :
    2 ^ 255 * 2 ^ 35 ≤ (omega ^ i % prime) * (prime - omega ^ i % prime) := by
  obtain ⟨j, hj, hle, hlt⟩ : ∃ j < 6, 1 + 65069 * j ≤ i ∧ i - (1 + 65069 * j) < 2 ^ 16 :=
    ⟨min ((i - 1) / 65069) 5, by omega, by omega, by omega⟩
  have hstart : powMod prime 20 omega (1 + 65069 * j) = omega ^ (1 + 65069 * j) % prime :=
    powMod_eq _ _ _ _ (by omega)
  have hlarge := le_of_nearZero 16 (by rw [hstart]; exact Nat.mod_lt _ prime_prime.pos)
    (nearZero_eq j hj) hlt
  rwa [hstart, Nat.mod_mul_mod, ← pow_add omega, Nat.add_sub_cancel' hle] at hlarge

end HocusPocus.SafeTrunc
