import HocusPocus.Field.Lazy

/-!
# Squares against products, wrapped or not

`fe25519_square` visits each pair of limbs once and doubles its product, `fe25519_mul` visits it
twice. The two fill their array `t` alike modulo `2 ^ 32`, whatever the limbs are, and nothing after
that looks at more than the words in `t`.

* `mulTable_apply`, `squareTable_apply`: the nested loops leave `mulAcc` and `squareAcc` in `t`.
* `squareAcc_bits`: each entry of the square's array is that of the product's.
* `SameWords`: two arrays with the same words, kept by the carries.
* `squareInto_words`: `fe25519_square(r, x)` and `fe25519_mul(r, x, x)` write the same words.
-/

namespace HocusPocus.Fe25519

open Machine Arith

/-! ## The loops -/

/-- `t[n] += w`. -/
def addAt (t : Nat → U32) (n : Nat) (w : U32) : Nat → U32 := Function.update t n (t n + w)

/-- The array `t` after the loops of `fe25519_mul`. -/
def mulTable (x y : Vector U32 32) : Nat → U32 :=
  Fin.foldl 32 (fun t i => Fin.foldl 32 (fun t j => addAt t (i + j) (x.get i * y.get j)) t)
    fun _ => 0

/-- The array `t` after the loops of `fe25519_square`; the inner one starts at `j = i + 1`. -/
def squareTable (x : Vector U32 32) : Nat → U32 :=
  Fin.foldl 32 (fun t i =>
      let t := addAt t (i + i) (x.get i * x.get i)
      Fin.foldl (31 - i) (fun t d =>
        addAt t (i + (i + 1 + d)) (2 * x.get i * x[i.val + 1 + d.val])) t)
    fun _ => 0

theorem addAt_apply (t : Nat → U32) (m : Nat) (w : U32) (n : Nat) :
    addAt t m w n = if n = m then t n + w else t n := by
  rw [addAt, Function.update_apply]
  split_ifs with h
  · rw [h]
  · rfl

/-- One row of a table: `k` consecutive entries from `o` on get a summand each. -/
theorem foldl_addAt (t : Nat → U32) (o k : Nat) (f : Fin k → U32) (n : Nat) :
    Fin.foldl k (fun t d => addAt t (o + d) (f d)) t n
      = if h : o ≤ n ∧ n - o < k then t n + f ⟨n - o, h.2⟩ else t n := by
  induction k with
  | zero =>
    rw [Fin.foldl_zero, dif_neg (by omega)]
  | succ k ih =>
    rw [Fin.foldl_succ_last, addAt_apply]
    simp only [Fin.val_castSucc, Fin.val_last, ih fun d => f d.castSucc]
    rcases lt_trichotomy n (o + k) with hlt | rfl | hgt
    · rw [if_neg (by omega)]
      exact dite_congr (propext (by omega)) (fun _ => rfl) fun _ => rfl
    · rw [if_pos rfl, dif_neg (by omega), dif_pos (by omega)]
      exact congrArg (t (o + k) + f ·) (Fin.ext (by simp))
    · rw [if_neg (by omega), dif_neg (by omega), dif_neg (by omega)]

/-- A loop over a table whose rounds act on the entry `n` alone. -/
theorem foldl_entry {m : Nat} (F : (Nat → U32) → Fin m → Nat → U32) (G : U32 → Fin m → U32)
    (n : Nat) (h : ∀ t i, F t i n = G (t n) i) (t : Nat → U32) :
    Fin.foldl m F t n = Fin.foldl m G (t n) := by
  induction m generalizing t with
  | zero => rw [Fin.foldl_zero, Fin.foldl_zero]
  | succ m ih =>
    rw [Fin.foldl_succ, Fin.foldl_succ, ih (fun t i => F t i.succ) (fun u i => G u i.succ)
      fun t i => h t i.succ, h]

/-- **The loops of `fe25519_mul` leave `mulAcc`.** -/
theorem mulTable_apply (x y : Vector U32 32) (n : Nat) : mulTable x y n = mulAcc x y n :=
  foldl_entry _ _ n (fun t i => foldl_addAt t i 32 (fun j => x[i] * y[j]) n) _

/-- **The loops of `fe25519_square` leave `squareAcc`.** -/
theorem squareTable_apply (x : Vector U32 32) (n : Nat) : squareTable x n = squareAcc x n := by
  refine foldl_entry _ _ n (fun t i => ?_) _
  have hget : x.get i = x[i] := rfl
  have hrow := foldl_addAt (addAt t (i + i) (x[i] * x[i])) (i + (i + 1)) (31 - i)
    (fun d => 2 * x[i] * x[i.val + 1 + d.val]) n
  simp only [hget, Nat.add_assoc] at hrow ⊢
  rw [hrow, addAt_apply]
  rcases lt_trichotomy (2 * i.val) n with hlt | heq | hgt
  · rw [if_neg (by omega), if_neg (by omega)]
    refine dite_congr (propext (by omega)) (fun h => ?_) fun _ => rfl
    have hj : i.val + (1 + (n - (i.val + (i.val + 1)))) = n - i.val := by omega
    simp only [hj]
  · rw [dif_neg (by omega), if_pos (by omega), if_pos heq]
  · rw [dif_neg (by omega), if_neg (by omega), if_neg (by omega), dif_neg (by omega)]

section

variable {ι : Type} [DecidableEq ι]

theorem mulInto_table (s : Vars ι) (r x y : ι) :
    mulInto s r x y = foldInto s r (mulTable (s x).v (s y).v) := by
  rw [mulInto, funext (mulTable_apply (s x).v (s y).v)]

theorem squareInto_table (s : Vars ι) (r x : ι) :
    squareInto s r x = foldInto s r (squareTable (s x).v) := by
  rw [squareInto, funext (squareTable_apply (s x).v)]

end

/-! ## The entries modulo `2 ^ 32` -/

variable {v w : Vector U32 32}

theorem limb_isMod (v : Vector U32 32) {i : Nat} (hi : i < 32) : v[i].IsMod (limb v i) := by
  rw [limb_eq v hi]
  exact Word.isMod_toNat _

theorem mulAccTo_isMod (v w : Vector U32 32) {k : Nat} (hk : k ≤ 32) (n : Nat) :
    (mulAccTo k hk v w n).IsMod (convTo k (limb v) (limb w) n) := by
  induction k with
  | zero => exact Word.isMod_ofNat 0
  | succ k ih =>
    rw [mulAccTo_succ, convTo_succ]
    have ih := ih (by omega)
    split_ifs with h
    · exact ih.add ((limb_isMod v (by omega)).mul (limb_isMod w h.2))
    · exact ih

theorem squareAccTo_isMod (v : Vector U32 32) {k : Nat} (hk : k ≤ 32) (n : Nat) :
    (squareAccTo k hk v n).IsMod (squareTo k (limb v) n) := by
  induction k with
  | zero => exact Word.isMod_ofNat 0
  | succ k ih =>
    rw [squareAccTo_succ, squareTo_succ]
    have ih := ih (by omega)
    have hself := limb_isMod v (by omega : k < 32)
    split_ifs with hmid hlow
    · exact ih.add (hself.mul hself)
    · exact ih.add (((Word.isMod_ofNat 2).mul hself).mul (limb_isMod v hlow.2))
    · exact ih

/-- **Each entry of the square's array is that of the product's**, modulo `2 ^ 32`. -/
theorem squareAcc_bits (v : Vector U32 32) (n : Nat) :
    (squareAcc v n).bits = (mulAcc v v n).bits := by
  have hsquare : (squareAcc v n).IsMod (squareTo 32 (limb v) n) := squareAccTo_isMod v le_rfl n
  have hmul : (mulAcc v v n).IsMod (conv 32 (limb v) (limb v) n) := mulAccTo_isMod v v le_rfl n
  rw [squareTo_eq_conv] at hsquare
  exact hsquare.bits_eq hmul

/-! ## Carries look at the words -/

/-- The words of two arrays are the same; the ghost bits may differ. -/
def SameWords (v w : Vector U32 32) : Prop := ∀ (i : Nat) (_ : i < 32), v[i].bits = w[i].bits

theorem SameWords.set (h : SameWords v w) {a b : U32} (hab : a.bits = b.bits) {i : Nat}
    (hi : i < 32) : SameWords (v.set i a) (w.set i b) := by
  intro j hj
  rw [Vector.getElem_set, Vector.getElem_set]
  split_ifs
  · exact hab
  · exact h j hj

theorem SameWords.carryTop (h : SameWords v w) : SameWords (carryTop v) (carryTop w) := by
  have hlast := h 31 (by norm_num)
  have hlow : SameWords (v.set 31 (v[31].low 7)) (w.set 31 (w[31].low 7)) :=
    h.set (by rw [Word.bits_low, hlast, Word.bits_low]) (by norm_num)
  have hfirst := hlow 0 (by norm_num)
  refine hlow.set ?_ (by norm_num)
  rw [Word.bits_add, Word.bits_mul, Word.bits_shr, hfirst, hlast]
  rfl

theorem SameWords.carryStep (h : SameWords v w) (i : Fin 31) :
    SameWords (carryStep v i) (carryStep w i) := by
  have hi := h i (by omega)
  have hnext := h (i + 1) (by omega)
  have hsum : SameWords (v.set (i + 1) (v[i.val + 1] + v[i.val].shr 8))
      (w.set (i + 1) (w[i.val + 1] + w[i.val].shr 8)) :=
    h.set (by rw [Word.bits_add, Word.bits_shr, hnext, hi]; rfl) (by omega)
  have hcur := hsum i (by omega)
  exact hsum.set (by rw [Word.bits_low, hcur, Word.bits_low]) (by omega)

theorem SameWords.carrySteps (h : SameWords v w) {k : Nat} (hk : k ≤ 31) :
    SameWords (carrySteps k hk v) (carrySteps k hk w) := by
  induction k with
  | zero => exact h
  | succ k ih =>
    rw [carrySteps_succ, carrySteps_succ]
    exact (ih (by omega)).carryStep ⟨k, hk⟩

theorem SameWords.carryPass (h : SameWords v w) : SameWords (carryPass v) (carryPass w) :=
  h.carryTop.carrySteps le_rfl

theorem SameWords.mulFold {t u : Nat → U32} (h : ∀ n, (t n).bits = (u n).bits) :
    SameWords (mulFold t).v (mulFold u).v := by
  intro i hi
  rw [Fe25519.mulFold, Fe25519.mulFold, Vector.getElem_ofFn, Vector.getElem_ofFn]
  split_ifs
  · exact h 31
  · rw [Word.bits_add, Word.bits_mul, h, h]
    rfl

/-- **The limbs of a square are the limbs of the product with itself.** -/
theorem square_words (x : Fe25519) : SameWords (square x).v (mul x x).v :=
  (SameWords.mulFold (squareAcc_bits x.v)).carryPass.carryPass

/-! ## The two functions on variables -/

variable {ι : Type} [DecidableEq ι]

/-- **Squaring agrees with multiplication**, for limbs of any size and over the operand as well:
both are the loops of the source with the same end, and after `fe25519_square(r, x)` every variable
holds the words it holds after `fe25519_mul(r, x, x)`. -/
theorem squareInto_words (s : Vars ι) (r x : ι) :
    squareInto s r x = foldInto s r (squareTable (s x).v) ∧
      mulInto s r x x = foldInto s r (mulTable (s x).v (s x).v) ∧
      ∀ z, SameWords (squareInto s r x z).v (mulInto s r x x z).v := by
  refine ⟨squareInto_table s r x, mulInto_table s r x x, fun z => ?_⟩
  rw [squareInto_eq, mulInto_eq]
  by_cases hz : z = r
  · subst hz
    rw [Function.update_self, Function.update_self]
    exact square_words (s x)
  · rw [Function.update_of_ne hz, Function.update_of_ne hz]
    exact fun _ _ => rfl

end HocusPocus.Fe25519
