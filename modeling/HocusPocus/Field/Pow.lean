import HocusPocus.Field.Lazy
import Mathlib.NumberTheory.LegendreSymbol.Basic

/-!
# Powers on limbs

The windowed exponentiation of `fe25519.cpp`, and the addition chain that `fe25519_invert` and the
two Legendre symbols share. Each is run against the field: `Rep B x (a ^ n)` says that `x` stands
for the power `n` of `a`.

* `pow_rep`: `fe25519_pow` raises limbs of at most 1020 to the little-endian number of its exponent.
* `chain_rep`: the powers 2, 11 and `2 ^ 250 - 1` of the chain.
* `isSquare_iff`: `fe25519_issquare` is Euler's criterion.
-/

namespace HocusPocus.Fe25519

open Machine Arith
open FieldOps (setZero setOne ofLimbs)

/-! ## The source -/

/-- `isone`. -/
def isOne (x : Fe25519) : Bool :=
  (List.finRange 32).all fun i => (x.v.get i).toNat == if i.val = 0 then 1 else 0

/-- `fe25519_cmov`: the flag `b` and its complement are bytes. -/
def cmov (r x : Fe25519) (b : UInt8) : Fe25519 :=
  let nb := 1 - b
  ⟨Vector.ofFn fun i : Fin 32 =>
    Word.lit 32 nb.toNat * r.v.get i + Word.lit 32 b.toNat * x.v.get i⟩

/-- `WINDOWSIZE`. -/
def windowSize : Nat := 4

/-- The table `pre`; the entries from 2 on are written before they are read. -/
def powTable (x : Fe25519) : Nat → Fe25519 :=
  (List.range 7).foldl (fun pre n =>
      let i := 2 * n + 2
      let pre := Function.update pre i (square (pre (i / 2)))
      Function.update pre (i + 1) (mul (pre i) (pre 1)))
    fun i => if i = 1 then x else setOne

/-- `t`: the entry `w` of the table, picked by conditional moves. -/
def select (pre : Nat → Fe25519) (w : UInt8) : Fe25519 :=
  (List.range 15).foldl (fun t n => cmov t (pre (n + 1)) (if n + 1 = w.toNat then 1 else 0)) (pre 0)

/-- One window of `fe25519_pow`. -/
def powWindow (pre : Nat → Fe25519) (g : Fe25519) (w : UInt8) : Fe25519 :=
  mul (square^[windowSize] g) (select pre w)

/-- The two windows of the byte `b`. -/
def powByte (pre : Nat → Fe25519) (g : Fe25519) (b : UInt8) : Fe25519 :=
  powWindow pre (powWindow pre g (b >>> 4 &&& 15)) (b &&& 15)

/-- The accumulator of `fe25519_pow` after the `n` upper bytes of the exponent. -/
def powTo (x : Fe25519) (e : Bytes32) (n : Nat) : Fe25519 :=
  (List.range n).foldl (fun g i => powByte (powTable x) g (e.toList.getD (31 - i) 0)) setOne

/-- `fe25519_pow`. -/
def pow (x : Fe25519) (e : Bytes32) : Fe25519 := powTo x e 32

/-- The powers 2, 11 and `2 ^ 250 - 1` of an addition chain. -/
structure Chain where
  z2 : Fe25519
  z11 : Fe25519
  z2_250_0 : Fe25519

/-- The common part of `fe25519_invert`, `legendre_symbol` and `legendre_symbol_with_s`. -/
def chain (x : Fe25519) : Chain :=
  let z2 := square x
  let t1 := square z2
  let t0 := square t1
  let z9 := mul t0 x
  let z11 := mul z9 z2
  let t0 := square z11
  let z2_5_0 := mul t0 z9
  let t0 := square z2_5_0
  let t1 := square t0
  let t0 := square t1
  let t1 := square t0
  let t0 := square t1
  let z2_10_0 := mul t0 z2_5_0
  let t0 := square z2_10_0
  let t1 := square t0
  let t1 := (squarePairs 4 (t0, t1)).2
  let z2_20_0 := mul t1 z2_10_0
  let t0 := square z2_20_0
  let t1 := square t0
  let t1 := (squarePairs 9 (t0, t1)).2
  let t0 := mul t1 z2_20_0
  let t1 := square t0
  let t0 := square t1
  let t0 := (squarePairs 4 (t1, t0)).2
  let z2_50_0 := mul t0 z2_10_0
  let t0 := square z2_50_0
  let t1 := square t0
  let t1 := (squarePairs 24 (t0, t1)).2
  let z2_100_0 := mul t1 z2_50_0
  let t1 := square z2_100_0
  let t0 := square t1
  let t0 := (squarePairs 49 (t1, t0)).2
  let t1 := mul t0 z2_100_0
  let t0 := square t1
  let t1 := square t0
  let t1 := (squarePairs 24 (t0, t1)).2
  { z2, z11, z2_250_0 := mul t1 z2_50_0 }

theorem invert_eq (x : Fe25519) :
    invert x = mul (square^[5] (chain x).z2_250_0) (chain x).z11 := rfl

/-- The exponents of the source, `{low, 0xff, …, 0xff, top}`. -/
def exponentBytes (low top : UInt8) : Bytes32 :=
  Vector.ofFn fun i : Fin 32 => if i.val = 0 then low else if i.val = 31 then top else 0xff

/-- `fe25519_issquare`. -/
def isSquare (x : Fe25519) : Bool :=
  let e := exponentBytes 0xf6 0x3f
  let t := freeze (pow x e)
  isOne t || isZero t

/-! ## Conditional moves -/

variable {B : Nat} {x y r : Fe25519} {a c d : Fp}

theorem cmov_holds (hr : Exact r.v) (hx : Exact x.v) (p : Prop) [Decidable p] :
    Holds (cmov r x (if p then 1 else 0)).v fun i => if p then limb x.v i else limb r.v i := by
  intro i hi
  have hri := (hr.holds i hi).lt
  have hxi := (hx.holds i hi).lt
  have hget : ∀ b : UInt8, (cmov r x b).v[i]
      = Word.lit 32 (1 - b).toNat * r.v[i] + Word.lit 32 b.toNat * x.v[i] :=
    fun b => Vector.getElem_ofFn hi
  have hone : (Word.lit 32 (1 : UInt8).toNat).Is 1 := Word.is_lit (by decide)
  have hzero : (Word.lit 32 (0 : UInt8).toNat).Is 0 := Word.is_lit (by decide)
  by_cases hp : p
  · simp only [if_pos hp]
    rw [hget, show (1 : UInt8) - 1 = 0 from rfl]
    refine ((hzero.mul (hr.holds i hi) (by omega)).add (hone.mul (hx.holds i hi) (by omega))
      (by omega)).congr ?_
    rw [zero_mul, zero_add, one_mul]
  · simp only [if_neg hp]
    rw [hget, show (1 : UInt8) - 0 = 1 from rfl]
    refine ((hone.mul (hr.holds i hi) (by omega)).add (hzero.mul (hx.holds i hi) (by omega))
      (by omega)).congr ?_
    rw [zero_mul, add_zero, one_mul]

/-- **A conditional move moves on the condition.** -/
theorem cmov_rep (hr : Rep B r c) (hx : Rep B x d) (p : Prop) [Decidable p] :
    Rep B (cmov r x (if p then 1 else 0)) (if p then d else c) := by
  refine rep_of_holds (cmov_holds hr.exact hx.exact p) (fun i hi => ?_) ?_
  · split_ifs
    · exact hx.le i hi
    · exact hr.le i hi
  · split_ifs
    · exact hx.residue_eq
    · exact hr.residue_eq

theorem Multiplied.cmov (hr : Multiplied r c) (hx : Multiplied x d) (p : Prop) [Decidable p] :
    Multiplied (cmov r x (if p then 1 else 0)) (if p then d else c) := by
  refine ⟨cmov_rep hr.toRep hx.toRep p, ?_⟩
  rw [value_congr fun i hi => (cmov_holds hr.exact hx.exact p).limb_eq hi]
  split_ifs
  · exact hx.lt
  · exact hr.lt

/-! ## Squarings -/

theorem Rep.square_pow {m : Nat} (hx : Rep B x (a ^ m)) (h : B * B ≤ 3400000) :
    Multiplied (Fe25519.square x) (a ^ (2 * m)) := by
  have hsq : Multiplied (Fe25519.square x) (a ^ m * a ^ m) := hx.squared h
  rwa [← pow_add, ← Nat.two_mul] at hsq

theorem Rep.mul_pow {C m n : Nat} (hx : Rep B x (a ^ m)) (hy : Rep C y (a ^ n))
    (h : B * C ≤ 3400000) : Multiplied (Fe25519.mul x y) (a ^ (m + n)) := by
  have hmul : Multiplied (Fe25519.mul x y) (a ^ m * a ^ n) := hx.multiplied hy h
  rwa [← pow_add] at hmul

theorem Rep.pow_congr {m n : Nat} (hx : Rep B x (a ^ m)) (h : m = n) : Rep B x (a ^ n) := h ▸ hx

/-- `n` squarings of a byte array. -/
theorem Rep.iterate_square {m : Nat} (hx : Rep 255 x (a ^ m)) (n : Nat) :
    Rep 255 (Fe25519.square^[n] x) (a ^ (2 ^ n * m)) := by
  induction n with
  | zero => exact hx.pow_congr (by rw [pow_zero, one_mul])
  | succ n ih =>
    rw [Function.iterate_succ_apply']
    exact (ih.square_pow (by norm_num)).toRep.pow_congr (by rw [pow_succ]; ring)

/-- The rounds of two squarings between two temporaries. -/
theorem squarePairs_snd (n : Nat) (ab : Fe25519 × Fe25519) :
    (squarePairs n ab).2 = square^[2 * n] ab.2 := by
  induction n generalizing ab with
  | zero => rfl
  | succ n ih => exact ih _

/-! ## The addition chain -/

/-- What a chain started with an element `a` holds. -/
structure ChainRep (ch : Chain) (a : Fp) : Prop where
  z2 : Rep 255 ch.z2 (a ^ 2)
  z11 : Rep 255 ch.z11 (a ^ 11)
  z2_250_0 : Rep 255 ch.z2_250_0 (a ^ (2 ^ 250 - 1))

theorem Rep.doubled {m n : Nat} (hx : Rep 255 x (a ^ m)) (h : 2 * m = n) :
    Rep 255 (Fe25519.square x) (a ^ n) := (hx.square_pow (by norm_num)).toRep.pow_congr h

theorem Rep.added {m n k : Nat} (hx : Rep 255 x (a ^ m)) (hy : Rep 255 y (a ^ n))
    (h : m + n = k) : Rep 255 (Fe25519.mul x y) (a ^ k) :=
  (hx.mul_pow hy (by norm_num)).toRep.pow_congr h

/-- One block of the chain: two squarings, `n` rounds of two more, and a product. -/
theorem Rep.block {m k j : Nat} {z : Fe25519} (hx : Rep 255 x (a ^ m)) (hz : Rep 255 z (a ^ k))
    (n : Nat) (h : 2 ^ (2 * n + 2) * m + k = j) :
    Rep 255 (Fe25519.mul (squarePairs n (Fe25519.square x, Fe25519.square (Fe25519.square x))).2 z)
      (a ^ j) := by
  rw [squarePairs_snd]
  refine (((hx.doubled rfl).doubled rfl).iterate_square (2 * n)).added hz ?_
  rw [← h, pow_add]
  ring

/-- **The chain holds its powers**, from limbs of at most 510 on. -/
theorem chain_rep (hx : Rep 510 x a) : ChainRep (chain x) a := by
  have h1 : Rep 510 x (a ^ 1) := hx.congr (pow_one a).symm
  unfold chain
  extract_lets z2 t1 t0 z9 z11 t0 z5 t0 t1 t0 t1 t0 z10 t0 t1 t1 z20 t0 t1 t1 t0 t1 t0 t0 z50 t0 t1
    t1 z100 t1 t0 t0 t1 t0 t1 t1
  have hz2 : Rep 255 z2 (a ^ 2) := (h1.square_pow (by norm_num)).toRep
  have hz8 : Rep 255 (square (square z2)) (a ^ 8) := (hz2.doubled rfl).doubled rfl
  have hz9 : Rep 255 z9 (a ^ 9) := (hz8.mul_pow h1 (by norm_num)).toRep
  have hz11 : Rep 255 z11 (a ^ 11) := hz9.added hz2 rfl
  have hz5 : Rep 255 z5 (a ^ 31) := (hz11.doubled rfl).added hz9 rfl
  have hz10 : Rep 255 z10 (a ^ (2 ^ 10 - 1)) := (hz5.iterate_square 5).added hz5 (by norm_num)
  have hz20 : Rep 255 z20 (a ^ (2 ^ 20 - 1)) := hz10.block hz10 4 (by norm_num)
  have hz40 : Rep 255 _ (a ^ (2 ^ 40 - 1)) := hz20.block hz20 9 (by norm_num)
  have hz50 : Rep 255 z50 (a ^ (2 ^ 50 - 1)) := hz40.block hz10 4 (by norm_num)
  have hz100 : Rep 255 z100 (a ^ (2 ^ 100 - 1)) := hz50.block hz50 24 (by norm_num)
  have hz200 : Rep 255 _ (a ^ (2 ^ 200 - 1)) := hz100.block hz100 49 (by norm_num)
  exact ⟨hz2, hz11, hz200.block hz50 24 (by norm_num)⟩

/-- `fe25519_invert`, the power `p - 2`. -/
theorem invert_rep (hx : Rep 510 x a) : Rep 255 (invert x) (a ^ (2 ^ 255 - 21)) := by
  have hch := chain_rep hx
  rw [invert_eq]
  exact (hch.z2_250_0.iterate_square 5).added hch.z11 (by norm_num)

/-! ## The windowed power -/

/-- A round of the precomputation on the table alone. -/
def tableRound (p : Nat → Fe25519) (n : Nat) : Nat → Fe25519 :=
  let i := 2 * n + 2
  let p := Function.update p i (square (p (i / 2)))
  Function.update p (i + 1) (mul (p i) (p 1))

theorem powTable_eq (x : Fe25519) :
    powTable x = (List.range 7).foldl tableRound fun i => if i = 1 then x else setOne := rfl

section

/-! Entries of the table are limbs of at most 1020, or products when the base is one. -/

variable {S : Fe25519 → Fp → Prop} (hrep : ∀ {x : Fe25519} {b : Fp}, S x b → Rep 1020 x b)
  (hmul : ∀ {x : Fe25519} {b : Fp}, Multiplied x b → S x b)

include hrep hmul

/-- A round adds two powers to the table. -/
theorem tableRound_rel {pre : Nat → Fe25519} {n : Nat} (hpre : ∀ i < 2 * n + 2, S (pre i) (a ^ i)) :
    ∀ i < 2 * n + 4, S (tableRound pre n i) (a ^ i) := by
  have heven : Multiplied (square (pre ((2 * n + 2) / 2))) (a ^ (2 * n + 2)) := by
    have hhalf : (2 * n + 2) / 2 = n + 1 := by omega
    have hexp : 2 * (n + 1) = 2 * n + 2 := by ring
    rw [hhalf, ← hexp]
    exact (hrep (hpre (n + 1) (by omega))).square_pow (by norm_num)
  have hodd := heven.toRep.mul_pow (hrep (hpre 1 (by omega))) (by norm_num)
  intro i hi
  unfold tableRound
  rcases Nat.lt_or_ge i (2 * n + 2) with hlt | hge
  · rw [Function.update_of_ne (by omega), Function.update_of_ne (by omega)]
    exact hpre i hlt
  · rcases Nat.lt_or_ge i (2 * n + 3) with heq | hge
    · obtain rfl : i = 2 * n + 2 := by omega
      rw [Function.update_of_ne (by omega), Function.update_self]
      exact hmul heven
    · obtain rfl : i = 2 * n + 2 + 1 := by omega
      rw [Function.update_self, Function.update_self, Function.update_of_ne (by omega)]
      exact hmul hodd

/-- **The table holds the powers below 16.** -/
theorem powTable_rel (hx : S x a) {i : Nat} (hi : i < 16) : S (powTable x i) (a ^ i) := by
  have hloop : ∀ n, ∀ i < 2 * n + 2, S
      ((List.range n).foldl tableRound (fun i => if i = 1 then x else setOne) i) (a ^ i) := by
    intro n
    induction n with
    | zero =>
      intro i hi
      rw [List.range_zero, List.foldl_nil]
      rcases Nat.lt_or_ge i 1 with h0 | h1
      · obtain rfl : i = 0 := by omega
        rw [if_neg (by norm_num), pow_zero, ← Exact.setOne_eq]
        exact hmul reduced_setOne.multiplied
      · obtain rfl : i = 1 := by omega
        rw [if_pos rfl, pow_one]
        exact hx
    | succ n ih =>
      rw [List.range_succ, List.foldl_append]
      exact tableRound_rel hrep hmul ih
  rw [powTable_eq]
  exact hloop 7 i (by omega)

end

theorem powTable_rep (hx : Rep 1020 x a) {i : Nat} (hi : i < 16) :
    Rep 1020 (powTable x i) (a ^ i) :=
  powTable_rel (S := Rep 1020) id (fun h => h.toRep.mono (by norm_num)) hx hi

theorem powTable_multiplied (hx : Multiplied x a) {i : Nat} (hi : i < 16) :
    Multiplied (powTable x i) (a ^ i) :=
  powTable_rel (S := Multiplied) (fun h => h.toRep.mono (by norm_num)) id hx hi

/-- **The conditional moves pick the entry.** -/
theorem select_rel {S : Fe25519 → Fp → Prop}
    (hcmov : ∀ {r x : Fe25519} {c d : Fp} (p : Prop) [Decidable p], S r c → S x d →
      S (cmov r x (if p then 1 else 0)) (if p then d else c))
    {pre : Nat → Fe25519} (hpre : ∀ i < 16, S (pre i) (a ^ i)) {w : UInt8}
    (hw : w.toNat < 16) : S (select pre w) (a ^ w.toNat) := by
  have hloop : ∀ n ≤ 15, S
      ((List.range n).foldl (fun t n => cmov t (pre (n + 1)) (if n + 1 = w.toNat then 1 else 0))
        (pre 0)) (a ^ if w.toNat ≤ n then w.toNat else 0) := by
    intro n hn
    induction n with
    | zero =>
      have hexp : (if w.toNat ≤ 0 then w.toNat else 0) = 0 := by
        split_ifs <;> omega
      rw [hexp]
      exact hpre 0 (by norm_num)
    | succ n ih =>
      rw [List.range_succ, List.foldl_append, List.foldl_cons, List.foldl_nil]
      have hexp : (if n + 1 = w.toNat then a ^ (n + 1) else a ^ if w.toNat ≤ n then w.toNat else 0)
          = a ^ if w.toNat ≤ n + 1 then w.toNat else 0 := by
        split_ifs with h1 h2 h3
        · rw [h1]
        · omega
        · rfl
        · omega
        · omega
        · rfl
      rw [← hexp]
      exact hcmov _ (ih (by omega)) (hpre (n + 1) (by omega))
  have h := hloop 15 le_rfl
  rwa [if_pos (by omega)] at h

theorem select_rep {pre : Nat → Fe25519} (hpre : ∀ i < 16, Rep 1020 (pre i) (a ^ i)) {w : UInt8}
    (hw : w.toNat < 16) : Rep 1020 (select pre w) (a ^ w.toNat) :=
  select_rel (S := Rep 1020) (fun p _ hr hx => cmov_rep hr hx p) hpre hw

theorem select_multiplied {pre : Nat → Fe25519} (hpre : ∀ i < 16, Multiplied (pre i) (a ^ i))
    {w : UInt8} (hw : w.toNat < 16) : Multiplied (select pre w) (a ^ w.toNat) :=
  select_rel (S := Multiplied) (fun p _ hr hx => hr.cmov hx p) hpre hw

theorem powWindow_rep {pre : Nat → Fe25519} (hpre : ∀ i < 16, Rep 1020 (pre i) (a ^ i)) {m : Nat}
    (hx : Rep 255 x (a ^ m)) {w : UInt8} (hw : w.toNat < 16) :
    Multiplied (powWindow pre x w) (a ^ (16 * m + w.toNat)) :=
  (hx.iterate_square windowSize).mul_pow (select_rep hpre hw) (by norm_num)

theorem toNat_high (b : UInt8) : (b >>> 4 &&& 15).toNat = b.toNat / 16 := by
  have hb := b.toNat_lt
  rw [UInt8.toNat_and, UInt8.toNat_shiftRight, show (15 : UInt8).toNat = 2 ^ 4 - 1 from rfl,
    Nat.and_two_pow_sub_one_eq_mod, show (4 : UInt8).toNat % 8 = 4 from rfl,
    Nat.shiftRight_eq_div_pow]
  omega

theorem toNat_low (b : UInt8) : (b &&& 15).toNat = b.toNat % 16 := by
  rw [UInt8.toNat_and, show (15 : UInt8).toNat = 2 ^ 4 - 1 from rfl,
    Nat.and_two_pow_sub_one_eq_mod]

theorem powByte_rep {pre : Nat → Fe25519} (hpre : ∀ i < 16, Rep 1020 (pre i) (a ^ i)) {m : Nat}
    (hx : Rep 255 x (a ^ m)) (b : UInt8) :
    Multiplied (powByte pre x b) (a ^ (256 * m + b.toNat)) := by
  have hb := b.toNat_lt
  have hhigh : (b >>> 4 &&& 15).toNat < 16 := by
    rw [toNat_high]
    omega
  have hlow : (b &&& 15).toNat < 16 := by
    rw [toNat_low]
    omega
  have h := powWindow_rep hpre (powWindow_rep hpre hx hhigh).toRep hlow
  rw [toNat_high, toNat_low] at h
  have hexp : 16 * (16 * m + b.toNat / 16) + b.toNat % 16 = 256 * m + b.toNat := by omega
  rwa [hexp] at h

/-- The upper `n` bytes of an exponent. -/
theorem leValue_upper (e : Bytes32) {n : Nat} (hn : n < 32) :
    leValue e / 256 ^ (31 - n)
      = 256 * (leValue e / 256 ^ (32 - n)) + (e.toList.getD (31 - n) 0).toNat := by
  have hdigit : leValue e / 256 ^ (31 - n) % 256 = (e.toList.getD (31 - n) 0).toNat := by
    have hlt : ∀ i < 32, (if h : i < 32 then e[i].toNat else 0) < 256 := by
      intro i hi
      rw [dif_pos hi]
      exact e[i].toNat_lt
    have h31 : 31 - n < 32 := by omega
    rw [leValue, value_div_mod hlt h31, dif_pos h31, List.getD_eq_getElem?_getD,
      Vector.getElem?_toList, Vector.getElem?_eq_getElem h31, Option.getD_some]
  have hpow : 256 ^ (32 - n) = 256 ^ (31 - n) * 256 := by
    rw [← pow_succ]
    congr 1
    omega
  rw [← hdigit, hpow, ← Nat.div_div_eq_div_mul]
  exact (Nat.div_add_mod _ 256).symm

/-- **The accumulator is the power to the bytes read so far.** -/
theorem powTo_rep (hx : Rep 1020 x a) (e : Bytes32) {n : Nat} (hn : n ≤ 32) :
    Multiplied (powTo x e n) (a ^ (leValue e / 256 ^ (32 - n))) := by
  induction n with
  | zero =>
    have hlt : leValue e < 256 ^ 32 := leValue_lt e
    rw [Nat.div_eq_of_lt hlt, pow_zero, ← Exact.setOne_eq]
    exact reduced_setOne.multiplied
  | succ n ih =>
    have hstep := powByte_rep (fun i hi => powTable_rep hx hi) (ih (by omega)).toRep
      (e.toList.getD (31 - n) 0)
    rw [← leValue_upper e (by omega)] at hstep
    unfold powTo
    rw [List.range_succ, List.foldl_append, List.foldl_cons, List.foldl_nil,
      show 32 - (n + 1) = 31 - n by omega]
    exact hstep

/-- **`fe25519_pow`** raises limbs of at most 1020 to the number of the exponent. -/
theorem pow_rep (hx : Rep 1020 x a) (e : Bytes32) : Multiplied (pow x e) (a ^ leValue e) := by
  have h := powTo_rep hx e le_rfl
  rwa [Nat.sub_self, pow_zero, Nat.div_one] at h

/-- The factors of the last product of `fe25519_pow`. -/
def powFactors (x : Fe25519) (e : Bytes32) : Fe25519 × Fe25519 :=
  let b := e.toList.getD 0 0
  (square^[windowSize] (powWindow (powTable x) (powTo x e 31) (b >>> 4 &&& 15)),
    select (powTable x) (b &&& 15))

theorem pow_eq_mul (x : Fe25519) (e : Bytes32) :
    pow x e = mul (powFactors x e).1 (powFactors x e).2 := by
  unfold pow powTo
  rw [List.range_succ, List.foldl_append]
  rfl

/-- The first factor is a product. -/
theorem powFactors_fst (hx : Rep 1020 x a) (e : Bytes32) :
    ∃ c, Multiplied (powFactors x e).1 c := by
  have hhigh : (e.toList.getD 0 0 >>> 4 &&& 15).toNat < 16 := by
    have hb := (e.toList.getD 0 0).toNat_lt
    rw [toNat_high]
    omega
  have hpre : ∀ i < 16, Rep 1020 (powTable x i) (a ^ i) := fun i hi => powTable_rep hx hi
  have hg := powWindow_rep hpre (powTo_rep hx e (by norm_num : 31 ≤ 32)).toRep hhigh
  have h := (hg.toRep.iterate_square 3).square_pow (by norm_num)
  rw [← Function.iterate_succ_apply' square 3] at h
  exact ⟨_, h⟩

/-- The second factor is an entry of the table. -/
theorem powFactors_snd (hx : Multiplied x a) (e : Bytes32) :
    Multiplied (powFactors x e).2 (a ^ ((e.toList.getD 0 0).toNat % 16)) := by
  rw [← toNat_low]
  refine select_multiplied (fun i hi => powTable_multiplied hx hi) ?_
  rw [toNat_low]
  omega

/-! ## Tests of a product -/

/-- A product is below `2 ^ 255`, or larger than its residue by the prime. -/
theorem Multiplied.value_cases (h : Multiplied x a) :
    value 256 32 (limb x.v) < 2 ^ 255 ∨
      19 ≤ a.val ∧ a.val < 2 ^ 32 ∧ value 256 32 (limb x.v) = a.val + prime := by
  have hvalue := h.lt
  have hp := prime_add
  have hval : a.val = value 256 32 (limb x.v) % prime := by
    rw [← h.residue_eq, residue, ZMod.val_natCast]
  rcases Nat.lt_or_ge (value 256 32 (limb x.v)) (2 ^ 255) with hlt | hge
  · exact Or.inl hlt
  · have hsub : value 256 32 (limb x.v) % prime = value 256 32 (limb x.v) - prime := by
      rw [Nat.mod_eq_sub_mod (by omega), Nat.mod_eq_of_lt (by omega)]
    exact Or.inr ⟨by omega, by omega, by omega⟩

/-- A product below `2 ^ 255` is reduced. -/
theorem Multiplied.reduced_of_lt (h : Multiplied x a) (hlt : value 256 32 (limb x.v) < 2 ^ 255) :
    Reduced x a := ⟨h.toRep, limb_top_le (hlt.trans_le (by norm_num))⟩

/-- Small residues and large ones are not hidden by a carry into bit 255. -/
theorem Multiplied.reduced (h : Multiplied x a) (ha : a.val < 19 ∨ 2 ^ 32 ≤ a.val) :
    Reduced x a := by
  rcases h.value_cases with hlt | ⟨h19, hlt, -⟩
  · exact h.reduced_of_lt hlt
  · omega

/-- The limbs of a frozen product with such a residue. -/
theorem Multiplied.value_freeze (h : Multiplied x a) (ha : a.val < 19 ∨ 2 ^ 32 ≤ a.val) :
    value 256 32 (limb (freeze x).v) = a.val := (h.reduced ha).value_freeze

theorem isOne_iff : isOne x = true ↔ value 256 32 (limb x.v) = 1 := by
  have hlimbs : isOne x = true ↔ ∀ i < 32, limb x.v i = if i = 0 then 1 else 0 := by
    unfold isOne
    simp only [List.all_eq_true, List.mem_finRange, forall_const, beq_iff_eq, Fin.forall_iff]
    exact forall₂_congr fun i hi => by rw [limb_eq x.v hi]; rfl
  have hhead : value 256 32 (limb x.v)
      = limb x.v 0 + 256 * value 256 31 fun i => limb x.v (i + 1) := value_head 256 31 _
  rw [hlimbs]
  constructor
  · intro h
    have hrest : value 256 31 (fun i => limb x.v (i + 1)) = 0 := by
      refine (value_eq_zero_iff (by norm_num)).mpr fun i hi => ?_
      exact h (i + 1) (by omega)
    rw [hhead, hrest, h 0 (by norm_num), if_pos rfl]
  · intro h i hi
    have hrest : value 256 31 (fun i => limb x.v (i + 1)) = 0 := by omega
    cases i with
    | zero =>
      rw [if_pos rfl]
      omega
    | succ i => exact (value_eq_zero_iff (by norm_num)).mp hrest i (by omega)

/-- **`isone` of a frozen product decides whether it is one.** -/
theorem isOne_freeze_iff (h : Multiplied x a) : isOne (freeze x) = true ↔ a = 1 := by
  rw [isOne_iff]
  constructor
  · intro hval
    have hfreeze : residue (freeze x) = a := h.toRep.freeze.residue_eq
    rw [← hfreeze, residue, hval, Nat.cast_one]
  · rintro rfl
    rw [h.value_freeze (Or.inl (by rw [ZMod.val_one]; norm_num)), ZMod.val_one]

theorem isZero_freeze_multiplied (h : Multiplied x a) : isZero (freeze x) = true ↔ a = 0 := by
  rw [isZero_iff]
  constructor
  · intro hval
    have hfreeze : residue (freeze x) = a := h.toRep.freeze.residue_eq
    rw [← hfreeze, residue, hval, Nat.cast_zero]
  · rintro rfl
    rw [h.value_freeze (Or.inl (by rw [ZMod.val_zero]; norm_num)), ZMod.val_zero]

/-- The number of an exponent `{low, 0xff, …, 0xff, top}`. -/
theorem leValue_exponentBytes (low top : UInt8) :
    leValue (exponentBytes low top) = low.toNat + (2 ^ 248 - 256) + top.toNat * 2 ^ 248 := by
  have hbyte : ∀ {i : Nat} (hi : i < 32), (exponentBytes low top)[i]
      = if i = 0 then low else if i = 31 then top else 0xff := fun hi => Vector.getElem_ofFn hi
  have hmid : value 256 30 (fun i => if h : i + 1 < 32 then (exponentBytes low top)[i + 1].toNat
      else 0) = 256 ^ 30 - 1 := by
    rw [← value_maxDigits]
    refine value_congr fun i hi => ?_
    rw [dif_pos (by omega), hbyte, if_neg (by omega), if_neg (by omega)]
    rfl
  rw [leValue, value_succ 256 31, value_head 256 30, hmid, dif_pos (by norm_num),
    dif_pos (by norm_num), hbyte, hbyte, if_pos rfl, if_neg (by norm_num), if_pos rfl]
  omega

theorem half_ne_zero : prime / 2 ≠ 0 := by
  have := prime_add
  omega

/-- **`fe25519_issquare`** decides whether the element is a square. -/
theorem isSquare_iff (hx : Rep 1020 x a) : isSquare x = true ↔ IsSquare a := by
  have hexp : leValue (exponentBytes 0xf6 0x3f) = prime / 2 := by
    have := prime_add
    rw [leValue_exponentBytes, show (0xf6 : UInt8).toNat = 246 from rfl,
      show (0x3f : UInt8).toNat = 63 from rfl]
    omega
  have hpow := pow_rep hx (exponentBytes 0xf6 0x3f)
  rw [hexp] at hpow
  have htest : isSquare x = true ↔ a ^ (prime / 2) = 1 ∨ a ^ (prime / 2) = 0 := by
    rw [← isOne_freeze_iff hpow, ← isZero_freeze_multiplied hpow, ← Bool.or_eq_true]
    rfl
  rw [htest]
  by_cases ha : a = 0
  · subst ha
    rw [zero_pow half_ne_zero]
    exact ⟨fun _ => IsSquare.zero, fun _ => Or.inr rfl⟩
  · rw [ZMod.euler_criterion prime ha]
    exact ⟨fun h => h.resolve_right (pow_ne_zero _ ha), Or.inl⟩

end HocusPocus.Fe25519
