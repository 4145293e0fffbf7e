import HocusPocus.Field.Canonical

/-!
# Lazy values

The protocol code adds field elements without reducing the sums, so `fe25519_mul` and
`fe25519_reduce_add_sub` meet limbs of more than a byte. `AtMost B x` is the contract such a value
comes with.

* `normalForm`: the reduction of limbs below `2 ^ 31`, and the freeze and the zero test after it.
* `mulFits_of_mul_lt`: factors with room for `1200` products leave room for a multiplication.
* `mulInto_eq`, `squareInto_eq`: with pointers, the result may be written over an operand.
* `mul_unreduced`: the product of unreduced factors.
-/

namespace HocusPocus.Fe25519

open Machine Arith FieldOps

/-- Limbs of at most `B`, with nothing wrapped on the way to them. -/
def AtMost (B : Nat) (x : Fe25519) : Prop := Rep B x x.residue

section

variable {B C : Nat} {x y : Fe25519} {e : Fp} {a c : Nat → Nat}

theorem Rep.atMost (h : Rep B x e) : x.AtMost B := h.congr h.residue_eq.symm

theorem IsReduced.atMost (h : x.IsReduced) : x.AtMost 255 := h.toRep

/-- The array with `n` in every limb. -/
theorem atMost_ofLimbs (n : Nat) (h : n < 2 ^ 32) :
    (FieldOps.ofLimbs fun _ => (OfNat.ofNat n : U32) : Fe25519).AtMost n :=
  (rep_ofLimbs (a := fun _ => n) (fun _ => Word.is_ofNat n h) fun _ _ => le_rfl).atMost

/-! ## The normal form -/

/-- **The normal form of a lazy value**: the reduction keeps the residue, and the freeze after it is
the one canonical array of that residue, so that the zero test decides it. -/
theorem normalForm (x : Fe25519) (hx : x.AtMost (2 ^ 31 - 1)) :
    Exact (FieldOps.reduceAddSub x).v ∧ residue (FieldOps.reduceAddSub x) = residue x ∧
      (∀ i < 31, limb (FieldOps.reduceAddSub x).v i ≤ 255) ∧
      limb (FieldOps.reduceAddSub x).v 31 ≤ 127 ∧
      Exact (FieldOps.freeze (FieldOps.reduceAddSub x)).v ∧
      Canonical (FieldOps.freeze (FieldOps.reduceAddSub x)) (value 256 32 (limb x.v)) ∧
      (FieldOps.isZero (FieldOps.freeze (FieldOps.reduceAddSub x)) = true
        ↔ value 256 32 (limb x.v) % prime = 0) := by
  have hred := hx.reduce (by norm_num)
  have hfreeze := hred.canonical_freeze
  have hmod : value 256 32 (limb (FieldOps.reduceAddSub x).v) % prime
      = value 256 32 (limb x.v) % prime :=
    (ZMod.natCast_eq_natCast_iff' _ _ _).mp hred.residue_eq
  refine ⟨hred.exact, hred.residue_eq, fun i hi => hred.le i (by omega), hred.top,
    hred.freeze.exact, ⟨hfreeze.le, hfreeze.value_eq.trans hmod⟩, ?_⟩
  rw [isZero_freeze_iff hred, Exact.reduceAddSub_eq, residue, ZMod.natCast_eq_zero_iff,
    Nat.dvd_iff_mod_eq_zero]

/-- The sum of four lazily added elements is put into normal form. -/
theorem normalForm_example :
    let x : Fe25519 := ofLimbs fun _ => 1020
    Exact (FieldOps.reduceAddSub x).v ∧ residue (FieldOps.reduceAddSub x) = residue x ∧
      (∀ i < 31, limb (FieldOps.reduceAddSub x).v i ≤ 255) ∧
      limb (FieldOps.reduceAddSub x).v 31 ≤ 127 ∧
      Exact (FieldOps.freeze (FieldOps.reduceAddSub x)).v ∧
      Canonical (FieldOps.freeze (FieldOps.reduceAddSub x)) (value 256 32 (limb x.v)) ∧
      (FieldOps.isZero (FieldOps.freeze (FieldOps.reduceAddSub x)) = true
        ↔ value 256 32 (limb x.v) % prime = 0) := by
  have hrep : Rep 1020 (ofLimbs fun _ => 1020) (ofLimbs fun _ => 1020 : Fp) :=
    rep_ofLimbs (a := fun _ => 1020) (fun _ => Word.is_ofNat 1020 (by norm_num)) fun _ _ => le_rfl
  exact normalForm _ (hrep.atMost.mono (by norm_num))

/-! ## The head-room of a product -/

/-- The products that meet in one accumulator are as many as there are pairs of positions. -/
theorem conv_le_of_subset {m : Nat} (ha : ∀ i < 32, a i ≤ B) (hc : ∀ i < 32, c i ≤ C)
    {s : Finset Nat} (hs : ∀ i < 32, i ≤ m ∧ m - i < 32 → i ∈ s) :
    conv 32 a c m ≤ s.card * (B * C) := by
  have hterm : ∀ i ∈ Finset.range 32, (if i ≤ m ∧ m - i < 32 then a i * c (m - i) else 0)
      ≤ if i ∈ s then B * C else 0 := by
    intro i hi
    have hi := Finset.mem_range.mp hi
    by_cases hm : i ≤ m ∧ m - i < 32
    · rw [if_pos hm, if_pos (hs i hi hm)]
      exact Nat.mul_le_mul (ha i hi) (hc _ hm.2)
    · rw [if_neg hm]
      exact Nat.zero_le _
  calc conv 32 a c m ≤ ∑ i ∈ Finset.range 32, if i ∈ s then B * C else 0 :=
        Finset.sum_le_sum hterm
    _ = (Finset.range 32 ∩ s).card * (B * C) := by
        rw [Finset.sum_ite_mem, Finset.sum_const, smul_eq_mul]
    _ ≤ s.card * (B * C) :=
        Nat.mul_le_mul_right _ (Finset.card_le_card Finset.inter_subset_right)

/-- Position `i` collects `i + 1` products, and `31 - i` of the upper half with factor 38. -/
theorem mulLimbs_le_of_lt (ha : ∀ i < 32, a i ≤ B) (hc : ∀ i < 32, c i ≤ C) {i : Nat}
    (hi : i < 32) : mulLimbs a c i ≤ 1179 * (B * C) := by
  have hlow : conv 32 a c i ≤ (Finset.range (i + 1)).card * (B * C) :=
    conv_le_of_subset ha hc fun j _ hj => Finset.mem_range.mpr (by omega)
  have hhigh : conv 32 a c (i + 32) ≤ (Finset.Ico (i + 1) 32).card * (B * C) :=
    conv_le_of_subset ha hc fun j _ hj => Finset.mem_Ico.mpr (by omega)
  rw [Finset.card_range] at hlow
  rw [Nat.card_Ico] at hhigh
  have hcount : i + 1 + 38 * (32 - (i + 1)) ≤ 1179 := by omega
  unfold mulLimbs
  split_ifs with h31
  · subst h31
    exact hlow.trans (Nat.mul_le_mul_right _ (by norm_num))
  · calc conv 32 a c i + 38 * conv 32 a c (i + 32)
        ≤ (i + 1) * (B * C) + 38 * ((32 - (i + 1)) * (B * C)) := by omega
      _ = (i + 1 + 38 * (32 - (i + 1))) * (B * C) := by ring
      _ ≤ 1179 * (B * C) := Nat.mul_le_mul_right _ hcount

/-- **Room for 1200 products is room for a multiplication.** -/
theorem mulFits_of_mul_lt (ha : ∀ i < 32, a i ≤ B) (hc : ∀ i < 32, c i ≤ C)
    (h : 1200 * B * C < 2 ^ 32) : MulFits a c := by
  rw [mul_assoc] at h
  refine ⟨fun i hi => ?_, passFits_of_le (fun i hi => mulLimbs_le_of_lt ha hc hi)
    (conv_le ha hc 31) ?_⟩
  · have := mulLimbs_le_of_lt ha hc hi
    omega
  · omega

/-! ## Results over operands -/

/-- What the variables behind the pointers hold. Two pointers alias when they are the same one. -/
abbrev Vars (ι : Type) := ι → Fe25519

variable {ι : Type} [DecidableEq ι]

/-- `r->v[i] = w`. -/
def Vars.setLimb (s : Vars ι) (r : ι) (i : Nat) (w : U32) : Vars ι :=
  Function.update s r ⟨(s r).v.setIfInBounds i w⟩

/-- `reduce_mul(r)`. -/
def Vars.reduceMul (s : Vars ι) (r : ι) : Vars ι := Function.update s r (Fe25519.reduceMul (s r))

/-- The end of `fe25519_mul` and `fe25519_square`: the accumulators `t` are folded into the limbs
of `r`, which are then reduced. -/
def foldInto (s : Vars ι) (r : ι) (t : Nat → U32) : Vars ι :=
  let s := (List.range 31).foldl (fun s i => s.setLimb r i (t i + 38 * t (i + 32))) s
  let s := s.setLimb r 31 (t 31)
  s.reduceMul r

/-- `fe25519_mul(r, x, y)`: the array `t` is complete before the first limb of `r` is written. -/
def mulInto (s : Vars ι) (r x y : ι) : Vars ι := foldInto s r (mulAcc (s x).v (s y).v)

/-- `fe25519_square(r, x)`. -/
def squareInto (s : Vars ι) (r x : ι) : Vars ι := foldInto s r (squareAcc (s x).v)

/-- Writing limb after limb of one variable. -/
theorem foldl_setLimb (s : Vars ι) (r : ι) (f : Nat → U32) (n : Nat) :
    (List.range n).foldl (fun s i => s.setLimb r i (f i)) s
      = Function.update s r
          ⟨(List.range n).foldl (fun v i => v.setIfInBounds i (f i)) (s r).v⟩ := by
  induction n with
  | zero => exact (Function.update_eq_self r s).symm
  | succ n ih =>
    rw [List.range_succ, List.foldl_append, ih, List.foldl_append]
    simp only [List.foldl_cons, List.foldl_nil, Vars.setLimb, Function.update_self,
      Function.update_idem]

theorem getElem_foldl_set (v : Vector U32 32) (f : Nat → U32) (n : Nat) {i : Nat} (hi : i < 32) :
    ((List.range n).foldl (fun v i => v.setIfInBounds i (f i)) v)[i]
      = if i < n then f i else v[i] := by
  induction n with
  | zero => rfl
  | succ n ih =>
    rw [List.range_succ, List.foldl_append]
    simp only [List.foldl_cons, List.foldl_nil, Vector.getElem_setIfInBounds, ih]
    by_cases h : n = i
    · rw [if_pos h, if_pos (by omega), h]
    · rw [if_neg h]
      exact if_congr (by omega) rfl rfl

/-- **The folding overwrites the result only**, whatever `r` held before. -/
theorem foldInto_eq (s : Vars ι) (r : ι) (t : Nat → U32) :
    foldInto s r t = Function.update s r (Fe25519.reduceMul (mulFold t)) := by
  have hlimbs : ((List.range 31).foldl
      (fun v i => v.setIfInBounds i (t i + 38 * t (i + 32))) (s r).v).setIfInBounds 31 (t 31)
      = (mulFold t).v := by
    refine Vector.ext fun i hi => ?_
    rw [Vector.getElem_setIfInBounds, getElem_foldl_set _ (fun i => t i + 38 * t (i + 32)), mulFold,
      Vector.getElem_ofFn]
    by_cases h31 : i = 31
    · rw [if_pos h31.symm, if_pos h31]
    · rw [if_neg (Ne.symm h31), if_neg h31, if_pos (by omega)]
  unfold foldInto
  rw [foldl_setLimb s r fun i => t i + 38 * t (i + 32)]
  simp only [Vars.setLimb, Vars.reduceMul, Function.update_self, Function.update_idem, hlimbs]

theorem mulInto_eq (s : Vars ι) (r x y : ι) :
    mulInto s r x y = Function.update s r (Fe25519.mul (s x) (s y)) := foldInto_eq s r _

theorem squareInto_eq (s : Vars ι) (r x : ι) :
    squareInto s r x = Function.update s r (Fe25519.square (s x)) := foldInto_eq s r _

/-- **The product of unreduced factors**, also over one of them: nothing wraps when 1200 products
fit a word, and the result has the residue of the product in byte limbs. -/
theorem mul_unreduced (s : Vars ι) (r x y : ι) {Bx By : Nat} (hx : (s x).AtMost Bx)
    (hy : (s y).AtMost By) (hroom : 1200 * Bx * By < 2 ^ 32) :
    Exact (mulInto s r x y r).v ∧
      residue (mulInto s r x y r) = residue (s x) * residue (s y) ∧
      (∀ i < 31, limb (mulInto s r x y r).v i ≤ 255) ∧ limb (mulInto s r x y r).v 31 ≤ 128 ∧
      ∀ z, z ≠ r → mulInto s r x y z = s z := by
  have hmul : Multiplied (Fe25519.mul (s x) (s y)) (residue (s x) * residue (s y)) :=
    hx.multiply hy (mulFits_of_mul_lt hx.le hy.le hroom)
  rw [mulInto_eq, Function.update_self]
  exact ⟨hmul.exact, hmul.residue_eq, fun i hi => hmul.le i (by omega), hmul.top,
    fun z hz => Function.update_of_ne hz _ _⟩

/-- A variable of limbs 1020 multiplied by one of limbs 3400, over the first. -/
theorem mul_unreduced_example :
    let s : Vars Bool := fun b => if b then ofLimbs fun _ => 1020 else ofLimbs fun _ => 3400
    Exact (mulInto s true true false true).v ∧
      residue (mulInto s true true false true) = residue (s true) * residue (s false) ∧
      (∀ i < 31, limb (mulInto s true true false true).v i ≤ 255) ∧
      limb (mulInto s true true false true).v 31 ≤ 128 ∧
      ∀ z, z ≠ true → mulInto s true true false z = s z := by
  intro s
  have htrue : (s true).AtMost 1020 := atMost_ofLimbs 1020 (by norm_num)
  have hfalse : (s false).AtMost 3400 := atMost_ofLimbs 3400 (by norm_num)
  exact mul_unreduced s true true false htrue hfalse (by norm_num)

end

end HocusPocus.Fe25519
