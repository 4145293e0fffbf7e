import HocusPocus.Field.Limbs

/-!
# The limb code computes in the field

`Rep B x e` says that the limbs `x` stand for the field element `e`, that nothing wrapped on the
way to them, and that none exceeds `B`; `Reduced x e` bounds them as `fe25519_reduce_add_sub` does.
The rules `Rep.add`, `Rep.sub`, `Rep.mul`, … relate each operation of `FieldOps` in its two
readings, with one numeric side condition for each, so that a program written over `FieldOps` is
run on limbs and in the field side by side.

`exact_add`, `exact_sub`, `exact_reduceAddSub`, `exact_freeze` go back: an exact result has exact
operands.
-/

namespace HocusPocus.Fe25519

open Machine Arith FieldOps

/-- The element of the field the limbs stand for. -/
def residue (x : Fe25519) : Fp := (value 256 32 (limb x.v) : Fp)

/-- The limbs stand for `e`, nothing wrapped, and no limb exceeds `B`. -/
structure Rep (B : Nat) (x : Fe25519) (e : Fp) : Prop where
  exact : Exact x.v
  le : ∀ i < 32, limb x.v i ≤ B
  residue_eq : residue x = e

/-- Byte limbs of a number below `2 ^ 255`. -/
structure Reduced (x : Fe25519) (e : Fp) : Prop extends Rep 255 x e where
  top : limb x.v 31 ≤ 127

/-- Limbs of at most 255, the top one of at most 127. -/
def IsReduced (x : Fe25519) : Prop := Reduced x x.residue

theorem Rep.mono {B C : Nat} {x : Fe25519} {e : Fp} (h : Rep B x e) (hle : B ≤ C) : Rep C x e :=
  ⟨h.exact, fun i hi => (h.le i hi).trans hle, h.residue_eq⟩

theorem Rep.congr {B : Nat} {x : Fe25519} {e f : Fp} (h : Rep B x e) (he : e = f) : Rep B x f :=
  he ▸ h

theorem Rep.holds {B : Nat} {x : Fe25519} {e : Fp} (h : Rep B x e) : Holds x.v (limb x.v) :=
  h.exact.holds

/-- Limbs given by numbers. -/
theorem rep_of_holds {B : Nat} {x : Fe25519} {e : Fp} {a : Nat → Nat} (h : Holds x.v a)
    (hle : ∀ i < 32, a i ≤ B) (he : (value 256 32 a : Fp) = e) : Rep B x e where
  exact := h.exact
  le i hi := by
    rw [h.limb_eq hi]
    exact hle i hi
  residue_eq := by
    rw [residue, value_congr fun i hi => h.limb_eq hi]
    exact he

section

variable {B C : Nat} {x y : Fe25519} {e f : Fp}

/-! ## Addition and subtraction -/

theorem getElem_add (x y : Fe25519) {i : Nat} (hi : i < 32) : (x + y).v[i] = x.v[i] + y.v[i] :=
  Vector.getElem_ofFn hi

/-- The limbs of twice the prime that `fe25519_sub` adds. -/
def subPad (i : Nat) : Nat := if i = 0 then 0x1da else if i = 31 then 0xfe else 0x1fe

theorem value_subPad : value 256 32 subPad = 2 * prime := by decide +kernel

theorem subPad_le {i : Nat} : subPad i ≤ 510 := by
  unfold subPad
  split_ifs <;> omega

/-- The limb of a subtraction, with the padding limb as a word. -/
theorem getElem_sub (x y : Fe25519) {i : Nat} (hi : i < 32) :
    (x - y).v[i] = x.v[i] + Word.lit 32 (subPad i) - y.v[i] := by
  have h : (x - y).v[i] = (if i = 0 then x.v[0] + 0x1da else if i = 31 then x.v[31] + 0xfe
      else x.v[i] + 0x1fe) - y.v[i] := Vector.getElem_ofFn hi
  rw [h]
  unfold subPad
  split_ifs with h0 h31
  · subst h0
    rfl
  · subst h31
    rfl
  · rfl

theorem Rep.add (hx : Rep B x e) (hy : Rep C y f) (h : B + C < 2 ^ 32) :
    Rep (B + C) (x + y) (FieldOps.add e f) := by
  refine rep_of_holds (a := fun i => limb x.v i + limb y.v i) (fun i hi => ?_) (fun i hi => ?_) ?_
  · rw [getElem_add x y hi]
    have hxi := hx.le i hi
    have hyi := hy.le i hi
    exact (hx.holds i hi).add (hy.holds i hi) (by omega)
  · exact Nat.add_le_add (hx.le i hi) (hy.le i hi)
  · rw [value_add, Nat.cast_add]
    exact congrArg₂ (· + ·) hx.residue_eq hy.residue_eq

/-- The limbs of a subtraction. -/
def differenceLimb (a c : Nat → Nat) (i : Nat) : Nat := a i + subPad i - c i

theorem sub_holds {a c : Nat → Nat} (hx : Holds x.v a) (hy : Holds y.v c)
    (hle : ∀ i < 32, a i + 510 < 2 ^ 32) (hpad : ∀ i < 32, c i ≤ subPad i) :
    Holds (x - y).v (differenceLimb a c) := by
  intro i hi
  have hxi := hle i hi
  have hyi := hpad i hi
  have hp := subPad_le (i := i)
  rw [getElem_sub x y hi]
  exact ((hx i hi).add (Word.is_lit (by omega)) (by omega)).sub (hy i hi) (by omega)

/-- A subtraction adds twice the prime. -/
theorem value_differenceLimb {a c : Nat → Nat} (hpad : ∀ i < 32, c i ≤ subPad i) :
    value 256 32 (differenceLimb a c) + value 256 32 c = value 256 32 a + 2 * prime := by
  rw [← value_add, ← value_subPad, ← value_add]
  refine value_congr fun i hi => ?_
  have hyi := hpad i hi
  unfold differenceLimb
  omega

/-- A subtraction of limbs below twice those of the prime does not underflow. -/
theorem Rep.sub_of_le (hx : Rep B x e) (hy : Rep C y f) (hpad : ∀ i < 32, limb y.v i ≤ subPad i)
    (h : B + 510 < 2 ^ 32) : Rep (B + 510) (x - y) (FieldOps.sub e f) := by
  have hle : ∀ i < 32, limb x.v i + 510 < 2 ^ 32 := fun i hi => by
    have := hx.le i hi
    omega
  refine rep_of_holds (sub_holds hx.holds hy.holds hle hpad) (fun i hi => ?_) ?_
  · have hxi := hx.le i hi
    have hp := subPad_le (i := i)
    unfold differenceLimb
    omega
  · have hcast := congrArg (Nat.cast : Nat → Fp) (value_differenceLimb (a := limb x.v) hpad)
    push_cast at hcast
    rw [ZMod.natCast_self, mul_zero, add_zero] at hcast
    rw [Exact.sub_eq, ← hx.residue_eq, ← hy.residue_eq, residue, residue, ← hcast,
      add_sub_cancel_right]

/-- The limbs a subtraction has room for. -/
theorem Rep.le_subPad (hy : Rep 255 y f) (htop : limb y.v 31 ≤ 0xfe) {i : Nat} (hi : i < 32) :
    limb y.v i ≤ subPad i := by
  have hle := hy.le i hi
  unfold subPad
  split_ifs with h0 h31
  · omega
  · subst h31
    exact htop
  · omega

theorem Reduced.le_subPad (hy : Reduced y f) {i : Nat} (hi : i < 32) : limb y.v i ≤ subPad i :=
  hy.toRep.le_subPad (hy.top.trans (by norm_num)) hi

/-- A subtraction of reduced limbs does not underflow. -/
theorem Rep.sub (hx : Rep B x e) (hy : Reduced y f) (h : B + 510 < 2 ^ 32) :
    Rep (B + 510) (x - y) (FieldOps.sub e f) := hx.sub_of_le hy.toRep (fun _ => hy.le_subPad) h

/-! ## Reduction -/

/-- **Four passes reduce.** -/
theorem Rep.reduce (hx : Rep B x e) (hB : B ≤ 3700000000) :
    Reduced (FieldOps.reduceAddSub x) (FieldOps.reduceAddSub e) := by
  have hfits : PassFits (limb x.v) := passFits_of_le hx.le (hx.le 31 (by norm_num)) (by omega)
  have hval : value 256 32 (limb x.v) < 2 ^ 281 := by
    have := value_le_of_limbs hx.le
    omega
  have h1 := passFits_pass hfits
  have h2 := passFits_pass h1
  have h3 := passFits_pass h2
  have hholds : Holds (FieldOps.reduceAddSub x).v (pass (pass (pass (pass (limb x.v))))) :=
    carryPass_holds (carryPass_holds (carryPass_holds (carryPass_holds hx.holds hfits) h1) h2) h3
  refine ⟨rep_of_holds hholds (fun i hi => ?_) ?_, ?_⟩
  · refine (pass4_le hval hi).trans ?_
    split_ifs <;> omega
  · rw [cast_value_pass, cast_value_pass, cast_value_pass, cast_value_pass]
    exact hx.residue_eq
  · rw [hholds.limb_eq (by norm_num)]
    exact pass4_le hval (by norm_num)

theorem Reduced.congr (h : Reduced x e) (he : e = f) : Reduced x f := he ▸ h

theorem isReduced_of_reduced (h : Reduced x e) : x.IsReduced := h.congr h.residue_eq.symm

/-- The limbs `fe25519_freeze` compares with and subtracts: those of the prime. -/
def primeLimb (i : Nat) : Nat := if i = 31 then 127 else if i = 0 then 237 else 255

theorem value_primeLimb : value 256 32 primeLimb = prime := by decide +kernel

/-- The limbs are those of a number from the prime on. -/
def AtLeastPrime (a : Nat → Nat) : Bool :=
  (a 31 == 127) && (List.range 30).all (fun j => a (30 - j) == 255) && (237 ≤ a 0 : Bool)

theorem primeLimb_le {a : Nat → Nat} (h : AtLeastPrime a = true) {i : Nat} (hi : i < 32) :
    primeLimb i ≤ a i := by
  simp only [AtLeastPrime, Bool.and_eq_true, beq_iff_eq, List.all_eq_true, List.mem_range,
    decide_eq_true_eq] at h
  obtain ⟨⟨h31, hmid⟩, h0⟩ := h
  unfold primeLimb
  split_ifs with h1 h2
  · rw [h1, h31]
  · rw [h2]
    exact h0
  · have := hmid (30 - i) (by omega)
    rw [show 30 - (30 - i) = i by omega] at this
    exact this.ge

theorem Word.Is.mul_flag {m w : U32} {b : Bool} {n : Nat} (hm : m.Is b.toNat) (hw : w.Is n)
    (f : Nat → Bool) : (m * w.flag f).Is (b && f n).toNat := by
  have h := hm.mul (hw.flag f (by norm_num)) (by
    have h1 := Bool.toNat_le b
    have h2 := Bool.toNat_le (f n)
    calc b.toNat * (f n).toNat ≤ 1 * 1 := Nat.mul_le_mul h1 h2
      _ < 2 ^ 32 := by norm_num)
  exact h.congr (by cases b <;> cases f n <;> rfl)

theorem freezeMask_is {v : Vector U32 32} {a : Nat → Nat} (h : Holds v a) :
    (freezeMask v).Is (AtLeastPrime a).toNat := by
  have hloop : ∀ k (hk : k ≤ 30),
      (Fin.foldl k (fun (m : U32) j => m * v[30 - j.val].flag (· == 255))
          (v[31].flag (· == 127))).Is
        ((a 31 == 127) && (List.range k).all fun j => a (30 - j) == 255).toNat := by
    intro k hk
    induction k with
    | zero =>
      rw [List.range_zero, List.all_nil, Bool.and_true]
      exact (h 31 (by norm_num)).flag (· == 127) (by norm_num)
    | succ k ih =>
      rw [Fin.foldl_succ_last, List.range_succ, List.all_append, ← Bool.and_assoc]
      refine (Word.Is.mul_flag (ih (by omega)) (h (30 - k) (by omega)) _).congr ?_
      simp
  exact Word.Is.mul_flag (hloop 30 le_rfl) (h 0 (by norm_num)) _

/-- The limbs after a freeze. -/
def frozen (a : Nat → Nat) (i : Nat) : Nat := a i - (AtLeastPrime a).toNat * primeLimb i

theorem freeze_holds {a : Nat → Nat} (h : Holds x.v a) :
    Holds (FieldOps.freeze x).v (frozen a) := by
  intro i hi
  have hmask := freezeMask_is h
  have hlimb : (FieldOps.freeze x).v[i]
      = x.v[i] - freezeMask x.v * Word.lit 32 (primeLimb i) := by
    have hget : (FieldOps.freeze x).v[i]
        = if i = 31 then x.v[31] - freezeMask x.v * 127
          else if i = 0 then x.v[0] - freezeMask x.v * 237
          else x.v[i] - freezeMask x.v * 255 := Vector.getElem_ofFn hi
    rw [hget]
    unfold primeLimb
    split_ifs with h1 h2
    · subst h1
      rfl
    · subst h2
      rfl
    · rfl
  have hp : primeLimb i ≤ 255 := by
    unfold primeLimb
    split_ifs <;> omega
  have hm := Bool.toNat_le (AtLeastPrime a)
  have hsmall : (AtLeastPrime a).toNat * primeLimb i ≤ 1 * 255 := Nat.mul_le_mul hm hp
  rw [hlimb]
  refine (h i hi).sub (hmask.mul (Word.is_lit (by omega)) (by omega)) ?_
  cases hc : AtLeastPrime a with
  | false => simp
  | true =>
    rw [Bool.toNat_true, one_mul]
    exact primeLimb_le hc hi

theorem value_frozen (a : Nat → Nat) :
    value 256 32 (frozen a) + (AtLeastPrime a).toNat * prime = value 256 32 a := by
  rw [← value_primeLimb, ← value_mul_left, ← value_add]
  refine value_congr fun i hi => ?_
  unfold frozen
  cases hc : AtLeastPrime a with
  | false => simp
  | true =>
    have := primeLimb_le hc hi
    rw [Bool.toNat_true, one_mul]
    omega

/-- **A freeze keeps the element.** -/
theorem Rep.freeze (h : Rep B x e) : Rep B (FieldOps.freeze x) (FieldOps.freeze e) := by
  refine rep_of_holds (freeze_holds h.holds) (fun i hi => (Nat.sub_le _ _).trans (h.le i hi)) ?_
  have hcast := congrArg (Nat.cast : Nat → Fp) (value_frozen (limb x.v))
  push_cast at hcast
  rw [ZMod.natCast_self, mul_zero, add_zero] at hcast
  exact hcast.trans h.residue_eq

theorem Reduced.freeze (h : Reduced x e) :
    Reduced (FieldOps.freeze x) (FieldOps.freeze e) := by
  refine ⟨h.toRep.freeze, ?_⟩
  rw [(freeze_holds h.holds).limb_eq (by norm_num)]
  exact (Nat.sub_le _ _).trans h.top

/-! ## Multiplication -/

/-- Byte limbs as a multiplication leaves them: the number is hardly above `2 ^ 255`. -/
structure Multiplied (x : Fe25519) (e : Fp) : Prop extends Rep 255 x e where
  lt : value 256 32 (limb x.v) < 2 ^ 255 + 2 ^ 31

theorem Multiplied.top (h : Multiplied x e) : limb x.v 31 ≤ 128 :=
  limb_top_le (h.lt.trans (by norm_num))

theorem Reduced.multiplied (h : Reduced x e) : Multiplied x e := by
  have hsplit : value 256 32 (limb x.v) = value 256 31 (limb x.v) + limb x.v 31 * 256 ^ 31 :=
    value_succ 256 31 _
  have hlow : value 256 31 (limb x.v) < 256 ^ 31 :=
    value_lt fun i hi => Nat.lt_succ_of_le (h.le i (by omega))
  have htop := h.top
  exact ⟨h.toRep, by omega⟩

theorem value_mulLimbs_lt {a c : Nat → Nat} (hfits : MulFits a c) :
    value 256 32 (mulLimbs a c) < 2 ^ 281 := by
  have hle : value 256 32 (mulLimbs a c) ≤ (2 ^ 32 - 1) * 2 ^ 249 :=
    value_le_of_limbs fun i hi => Nat.le_pred_of_lt (hfits.1 i hi)
  omega

/-- The limbs a multiplication ends with. -/
theorem multiplied_of_holds {z : Fe25519} (hx : Rep B x e) (hy : Rep C y f)
    (hfits : MulFits (limb x.v) (limb y.v)) (hz : Holds z.v (product (limb x.v) (limb y.v))) :
    Multiplied z (FieldOps.mul e f) := by
  have hval := value_mulLimbs_lt hfits
  refine ⟨rep_of_holds hz (fun i hi => ?_) ?_, ?_⟩
  · refine (pass_pass_le hval hi).trans ?_
    split_ifs <;> omega
  · rw [value_product]
    exact congrArg₂ (· * ·) hx.residue_eq hy.residue_eq
  · rw [value_congr fun i hi => hz.limb_eq hi]
    exact value_pass_pass_lt hval

/-- **Limbs that leave room for the product.** -/
theorem Rep.multiply (hx : Rep B x e) (hy : Rep C y f)
    (hfits : MulFits (limb x.v) (limb y.v)) : Multiplied (x * y) (FieldOps.mul e f) :=
  multiplied_of_holds hx hy hfits (mul_holds hx.holds hy.holds hfits)

theorem Rep.mul_of_fits (hx : Rep B x e) (hy : Rep C y f)
    (hfits : MulFits (limb x.v) (limb y.v)) : Rep 255 (x * y) (FieldOps.mul e f) :=
  (hx.multiply hy hfits).toRep

theorem Rep.multiplied (hx : Rep B x e) (hy : Rep C y f) (h : B * C ≤ 3400000) :
    Multiplied (x * y) (FieldOps.mul e f) := hx.multiply hy (mulFits_of_le hx.le hy.le h)

theorem Rep.mul (hx : Rep B x e) (hy : Rep C y f) (h : B * C ≤ 3400000) :
    Rep 255 (x * y) (FieldOps.mul e f) := (hx.multiplied hy h).toRep

/-- A product of bytes. -/
theorem Rep.times (hx : Rep 255 x e) (hy : Rep 255 y f) : Multiplied (x * y) (FieldOps.mul e f) :=
  hx.multiplied hy (by norm_num)

/-- A subtraction of a product does not underflow. -/
theorem Rep.sub_product (hx : Rep B x e) (hy : Multiplied y f) (h : B + 510 < 2 ^ 32) :
    Rep (B + 510) (x - y) (FieldOps.sub e f) :=
  hx.sub_of_le hy.toRep (fun _ => hy.toRep.le_subPad (hy.top.trans (by norm_num))) h

theorem Multiplied.sub (hx : Multiplied x e) (hy : Multiplied y f) :
    Rep 765 (x - y) (FieldOps.sub e f) := hx.toRep.sub_product hy (by norm_num)

/-! ## Assignments -/

theorem limb_ofLimbs (l : Fin 32 → U32) (i : Nat) :
    limb (ofLimbs l : Fe25519).v i = limbNat l i := by
  unfold limb limbNat
  split_ifs with hi
  · exact congrArg Word.toNat (Vector.getElem_ofFn hi)
  · rfl

/-- An assignment to the limbs means the same element in both readings. -/
theorem residue_ofLimbs (l : Fin 32 → U32) : residue (ofLimbs l) = (ofLimbs l : Fp) := by
  rw [residue, value_congr fun i _ => limb_ofLimbs l i, Exact.ofLimbs_eq, limbsValue_eq, limbsNat]

theorem limb_ofLimbs_is {l : Fin 32 → U32} {a : Nat → Nat} (h : ∀ i : Fin 32, (l i).Is (a i)) :
    Holds (ofLimbs l : Fe25519).v a := by
  intro i hi
  have hget : (ofLimbs l : Fe25519).v[i] = l ⟨i, hi⟩ := Vector.getElem_ofFn hi
  rw [hget]
  exact h ⟨i, hi⟩

theorem rep_ofLimbs {l : Fin 32 → U32} {a : Nat → Nat} (h : ∀ i : Fin 32, (l i).Is (a i))
    (hle : ∀ i < 32, a i ≤ B) : Rep B (ofLimbs l) (ofLimbs l : Fp) where
  exact := (limb_ofLimbs_is h).exact
  le i hi := by
    rw [(limb_ofLimbs_is h).limb_eq hi]
    exact hle i hi
  residue_eq := residue_ofLimbs l

theorem reduced_ofLimbs {l : Fin 32 → U32} {a : Nat → Nat} (h : ∀ i : Fin 32, (l i).Is (a i))
    (hle : ∀ i < 32, a i ≤ if i = 31 then 127 else 255) : Reduced (ofLimbs l) (ofLimbs l : Fp) := by
  refine ⟨rep_ofLimbs h fun i hi => (hle i hi).trans ?_, ?_⟩
  · split_ifs <;> omega
  · rw [(limb_ofLimbs_is h).limb_eq (by norm_num)]
    exact hle 31 (by norm_num)

/-- **`unpack` writes reduced limbs.** -/
theorem reduced_unpack (b : Bytes32) : Reduced (unpack b) (unpack b : Fp) := by
  have hlimb : ∀ i : Fin 32,
      limbNat (unpackLimbs b) i = if i = 31 then b[i].toNat % 128 else b[i].toNat :=
    fun i => (limbNat_val _ i).trans (unpackLimbs_is b i).toNat_eq
  refine reduced_ofLimbs (a := limbNat (unpackLimbs b)) (fun i => ?_) fun i hi => ?_
  · exact (unpackLimbs_is b i).congr (hlimb i).symm
  · have hi' := hlimb ⟨i, hi⟩
    have hb := b[i].toNat_lt
    simp only [Fin.ext_iff, Fin.isValue, Fin.getElem_fin] at hi'
    split_ifs at hi' ⊢ with h31 h31' <;> omega

/-- The element of a byte string with bit 255 clear. -/
theorem reduced_unpack_of_lt {b : Bytes32} (hb : leValue b < 2 ^ 255) :
    Reduced (unpack b) (leValue b : Fp) :=
  (reduced_unpack b).congr (by rw [Exact.unpack_eq, Nat.mod_eq_of_lt hb])

theorem rep_setZero : Rep 0 setZero setZero :=
  rep_ofLimbs (a := fun _ => 0) (fun _ => Word.is_ofNat 0 (by norm_num)) fun _ _ => le_rfl

theorem reduced_setZero : Reduced setZero setZero := by
  refine reduced_ofLimbs (a := fun _ => 0) (fun i => ?_) fun i _ => Nat.zero_le _
  exact Word.is_ofNat 0 (by norm_num)

theorem isReduced_setZero : (setZero : Fe25519).IsReduced := isReduced_of_reduced reduced_setZero

theorem reduced_setOne : Reduced setOne setOne := by
  refine reduced_ofLimbs (a := fun i => if i = 0 then 1 else 0) (fun i => ?_) fun i _ => ?_
  · simp only [Fin.ext_iff, Fin.val_zero]
    split_ifs
    · exact Word.is_ofNat 1 (by norm_num)
    · exact Word.is_ofNat 0 (by norm_num)
  · split_ifs <;> omega

/-- `setzero()` followed by one assignment. -/
theorem rep_ofLimb {w : U32} {n i : Nat} (hw : w.Is n) : Rep n (ofLimb i w) (ofLimb i w : Fp) := by
  refine rep_ofLimbs (a := fun j => if j = i then n else 0) (fun j => ?_) fun j _ => ?_
  · split_ifs
    · exact hw
    · exact Word.is_ofNat 0 (by norm_num)
  · split_ifs <;> omega

/-- `for l: v[l] = c * v[l]` when every product fits. -/
theorem Rep.scale {w : U64} {n : Nat} (hx : Rep B x e) (hw : w.Is n) (h : n * B < 2 ^ 32) :
    Rep (n * B) (scaleLimbs w x) (scaleLimbs w e) := by
  refine rep_of_holds (a := fun i => n * limb x.v i) (fun i hi => ?_)
    (fun i hi => Nat.mul_le_mul_left n (hx.le i hi)) ?_
  · have hle : n * limb x.v i ≤ n * B := Nat.mul_le_mul_left n (hx.le i hi)
    have hget : (scaleLimbs w x).v[i] = (w * x.v[i].convert 64).convert 32 :=
      Vector.getElem_ofFn hi
    have hwide : (x.v[i].convert 64).Is (limb x.v i) :=
      (hx.holds i hi).convert ((hx.holds i hi).lt.trans (by norm_num))
    rw [hget]
    exact (hw.mul hwide (by omega)).convert (by omega)
  · rw [value_mul_left, Nat.cast_mul, Exact.scaleLimbs_eq, hw.toNat_eq]
    exact congrArg ((n : Fp) * ·) hx.residue_eq

/-- `fe25519_neg`. -/
theorem Reduced.neg (hx : Reduced x e) : Reduced (FieldOps.neg x) (FieldOps.neg e) := by
  have hzero : Rep 0 (⟨Vector.replicate 32 0⟩ : Fe25519) 0 := by
    refine rep_of_holds (a := fun _ => 0) (fun i hi => ?_) (fun i _ => le_rfl) ?_
    · rw [Vector.getElem_replicate]
      exact Word.is_ofNat 0 (by norm_num)
    · simp [value]
  have h := (hzero.sub hx (by norm_num)).reduce (by norm_num)
  exact h.congr (zero_sub e)

/-! ## Exact results have exact operands -/

theorem exact_add (h : Exact (x + y).v) : Exact x.v ∧ Exact y.v := by
  refine ⟨fun i hi => ?_, fun i hi => ?_⟩
  · have := h i hi
    rw [getElem_add x y hi] at this
    exact (Word.exact_add.mp this).1
  · have := h i hi
    rw [getElem_add x y hi] at this
    exact (Word.exact_add.mp this).2.1

theorem exact_sub (h : Exact (x - y).v) : Exact x.v ∧ Exact y.v := by
  refine ⟨fun i hi => ?_, fun i hi => ?_⟩
  · have := h i hi
    rw [getElem_sub x y hi] at this
    exact (Word.exact_add.mp (Word.exact_sub.mp this).1).1
  · have := h i hi
    rw [getElem_sub x y hi] at this
    exact (Word.exact_sub.mp this).2.1

theorem exact_reduceAddSub (h : Exact (FieldOps.reduceAddSub x).v) : Exact x.v :=
  (exact_carryPass.mp (exact_carryPass.mp (exact_carryPass.mp (exact_carryPass.mp h).1).1).1).1

theorem exact_freeze (h : Exact (FieldOps.freeze x).v) : Exact x.v := by
  intro i hi
  have hi' := h i hi
  have hget : (FieldOps.freeze x).v[i]
      = if i = 31 then x.v[31] - freezeMask x.v * 127
        else if i = 0 then x.v[0] - freezeMask x.v * 237
        else x.v[i] - freezeMask x.v * 255 := Vector.getElem_ofFn hi
  rw [hget] at hi'
  split_ifs at hi' with h31 h0
  · subst h31
    exact (Word.exact_sub.mp hi').1
  · subst h0
    exact (Word.exact_sub.mp hi').1
  · exact (Word.exact_sub.mp hi').1

/-- A product that is exact has exact factors that leave room for it. -/
theorem exact_mul_op (h : Exact (x * y).v) :
    Exact x.v ∧ Exact y.v ∧ MulFits (limb x.v) (limb y.v) := exact_mul.mp h

end

end HocusPocus.Fe25519
