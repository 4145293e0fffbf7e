import HocusPocus.Oprf.Layout
import HocusPocus.Zkp.Constraints

/-!
# The witness of `blindedEval` and the late constraints

`C[56]` to `C[68]` reach `a ^ 781764` through fifth powers, two products and a division. They hold
exactly of what they are meant for: from them the product of the `v_i` is a nonzero `eps'`-th power
with `a` as its inverted root, and the values `blindedEval` computes satisfy them.

* `late_sound`, `witness_late`: the two directions.
* `constraints_mean_root`: both, for the constraints as numbered in the source.
-/

namespace HocusPocus

open Machine FieldOps FastResidue Finset

/-! ## What the late constraints say -/

section

variable {w : Nat → Fp}

/-- `y_n` is the power `5 ^ n` of `a`. -/
theorem late_y (h : ∀ n < 13, lateConstraint w n = 0) {n : Nat} (hn : n ≤ 8) :
    w (yOffset + n) = w yOffset ^ 5 ^ n := by
  induction n with
  | zero => rw [Nat.add_zero, pow_zero, pow_one]
  | succ n ih =>
    have hstep := h (n + 2) (by omega)
    rw [lateConstraint, if_neg (by omega), if_neg (by omega), if_pos (by omega),
      show n + 2 - 1 = n + 1 by omega, show n + 2 - 2 = n by omega, sub_eq_zero] at hstep
    rw [hstep, ih (by omega), ← pow_mul, ← pow_succ]

/-- **The late constraints make the product of the `v_i` the inverse of `a ^ 781764`.** -/
theorem late_sound (h : ∀ n < 13, lateConstraint w n = 0) :
    (∏ i ∈ range 10, w (vOffset + i)) * w yOffset ^ eps = 1 := by
  have hc0 : w c0Pos - w vOffset * w (vOffset + 1) * w (vOffset + 2) * w (vOffset + 3)
      * w (vOffset + 4) = 0 := h 0 (by norm_num)
  have hc1 : w c1Pos - w (vOffset + 5) * w (vOffset + 6) * w (vOffset + 7) * w (vOffset + 8)
      * w (vOffset + 9) = 0 := h 1 (by norm_num)
  have ha0 : w a0Pos - w (yOffset + 8) ^ 2 * w (yOffset + 4) * w (yOffset + 1) ^ 2 = 0 :=
    h 10 (by norm_num)
  have ha1 : w (yOffset + 1) * w a0Pos - w yOffset ^ 2 * w (yOffset + 3) * w a1Pos = 0 :=
    h 11 (by norm_num)
  have hfinal : w c0Pos * w c1Pos * w yOffset * w a1Pos - 1 = 0 := h 12 (by norm_num)
  rw [late_y h (by norm_num), late_y h (by norm_num), late_y h (by norm_num)] at ha0
  rw [late_y h (by norm_num), late_y h (by norm_num)] at ha1
  have hne : w yOffset ≠ 0 := by
    intro hzero
    rw [hzero, mul_zero, zero_mul, zero_sub] at hfinal
    exact neg_ne_zero.mpr one_ne_zero hfinal
  -- the division is by `a ^ 2 * y_3`, which is not 0
  have hroot : w a1Pos = w yOffset ^ 781763 := by
    refine mul_left_cancel₀ (pow_ne_zero 127 hne) ?_
    linear_combination (w yOffset ^ 5) * ha0 - ha1
  have hprod : ∏ i ∈ range 10, w (vOffset + i) = w c0Pos * w c1Pos := by
    simp only [prod_range_succ, prod_range_zero, Nat.add_zero]
    linear_combination (-w c1Pos) * hc0 - (w vOffset * w (vOffset + 1) * w (vOffset + 2)
      * w (vOffset + 3) * w (vOffset + 4)) * hc1
  rw [hprod, eps]
  rw [hroot] at hfinal
  linear_combination hfinal

end

namespace OPRF

/-! ## What `blindedEval` computes -/

theorem product_eq (v : Nat → Fp) (start n : Nat) :
    product v start n = ∏ i ∈ range n, v (start + i) := by
  unfold product
  induction n with
  | zero => exact Exact.setOne_eq
  | succ n ih =>
    rw [List.range_succ, List.foldl_append, List.foldl_cons, List.foldl_nil, ih, prod_range_succ]

theorem yPower_eq (a : Fp) (n : Nat) : yPower a n = a ^ 5 ^ n := by
  induction n with
  | zero => rw [yPower, pow_zero, pow_one]
  | succ n ih => rw [yPower, ih, Exact.pow5_eq, ← pow_mul, ← pow_succ]

theorem witnessA0_eq (a : Fp) : witnessA0 a = a ^ 781885 := by
  unfold witnessA0
  rw [yPower_eq, yPower_eq, yPower_eq]
  ring

theorem witnessA1_eq {a : Fp} (ha : a ≠ 0) : witnessA1 a = a ^ 781763 := by
  unfold witnessA1
  rw [Exact.div_eq, yPower_eq, yPower_eq, witnessA0_eq, div_eq_iff]
  · ring
  · exact mul_ne_zero (mul_ne_zero ha ha) (pow_ne_zero _ ha)

section

variable {o : OPRF Fp} {Key ru rv : Fp} {v b : Nat → Fp}

/-- `w` by position, as `commit_to_witness` reads it. -/
def wAt (o : OPRF Fp) (Key : Fp) (v b : Nat → Fp) (ru rv : Fp) (j : Nat) : Fp :=
  (o.witness Key v b ru rv).getD j setZero

theorem wAt_index {s : Slot} {x : Fp} (hs : s.Named o.zk)
    (hx : slotValue o Key ru rv v b s = some x) : o.wAt Key v b ru rv (s.index o.zk) = x := by
  rw [wAt, List.getD_eq_getElem?_getD, witness_index hs hx, Option.getD_some]

/-- The entry at a position of the source. -/
theorem wAt_pos (hleval : o.lenEval = 10) (hk : o.k = 53) {s : Slot} {x : Fp}
    (hs : s.Named o.zk) (hx : slotValue o Key ru rv v b s = some x) :
    o.wAt Key v b ru rv s.pos = x := by
  have hsize : 1 ≤ o.zk.k := show 1 ≤ o.k by omega
  have hpos := (Slot.pos_eq_index_iff hsize).mpr ⟨hleval, hk⟩
  rw [hpos s hs]
  exact wAt_index hs hx

theorem wAt_K : o.wAt Key v b ru rv kPos = Key := rfl

theorem wAt_v (hleval : o.lenEval = 10) {i : Nat} (hi : i < 10) :
    o.wAt Key v b ru rv (vOffset + i) = v i :=
  wAt_index (s := .v i) (hi.trans_eq hleval.symm) rfl

theorem wAt_b (hleval : o.lenEval = 10) (hk : o.k = 53) {i : Nat} (hi : i < 53) :
    o.wAt Key v b ru rv (bOffset + i) = b i :=
  wAt_pos hleval hk (s := .b i) (hi.trans_eq hk.symm) rfl

theorem wAt_ru (hleval : o.lenEval = 10) (hk : o.k = 53) : o.wAt Key v b ru rv ruPos = ru :=
  wAt_pos hleval hk (s := .ru) trivial rfl

theorem wAt_rv (hleval : o.lenEval = 10) (hk : o.k = 53) : o.wAt Key v b ru rv rvPos = rv :=
  wAt_pos hleval hk (s := .rv) trivial rfl

theorem wAt_y (hleval : o.lenEval = 10) (hk : o.k = 53) {n : Nat} (hn : n ≤ 8) :
    o.wAt Key v b ru rv (yOffset + n) = yPower (powInvEpsPrime (product v 0 10)) n := by
  rw [← hleval]
  exact wAt_pos hleval hk (s := .y n) (Nat.lt_succ_of_le hn) rfl

theorem wAt_a0 (hleval : o.lenEval = 10) (hk : o.k = 53) :
    o.wAt Key v b ru rv a0Pos = witnessA0 (powInvEpsPrime (product v 0 10)) := by
  rw [← hleval]
  exact wAt_pos hleval hk (s := .a0) trivial rfl

theorem wAt_a1 (hleval : o.lenEval = 10) (hk : o.k = 53) :
    o.wAt Key v b ru rv a1Pos = witnessA1 (powInvEpsPrime (product v 0 10)) := by
  rw [← hleval]
  exact wAt_pos hleval hk (s := .a1) trivial rfl

theorem wAt_c0 (hleval : o.lenEval = 10) (hk : o.k = 53) :
    o.wAt Key v b ru rv c0Pos = product v 0 5 := wAt_pos hleval hk (s := .c0) trivial rfl

theorem wAt_c1 (hleval : o.lenEval = 10) (hk : o.k = 53) :
    o.wAt Key v b ru rv c1Pos = product v 5 5 := wAt_pos hleval hk (s := .c1) trivial rfl

/-- The `a` of `blindedEval` inverts the product of `eps`-th powers. -/
theorem root_spec {r : Nat → Fp} (hr : ∀ i < 10, r i ≠ 0) (hv : ∀ i < 10, v i = r i ^ eps) :
    powInvEpsPrime (product v 0 10) ≠ 0 ∧
      product v 0 10 * powInvEpsPrime (product v 0 10) ^ eps = 1 := by
  have hprod : product v 0 10 = (∏ i ∈ range 10, r i) ^ eps := by
    rw [product_eq, ← prod_pow]
    refine prod_congr rfl fun i hi => ?_
    rw [Nat.zero_add, hv i (mem_range.mp hi)]
  have hne : ∏ i ∈ range 10, r i ≠ 0 := prod_ne_zero_iff.mpr fun i hi => hr i (mem_range.mp hi)
  have hone := mul_powInvEpsPrime_pow hne
  rw [hprod]
  refine ⟨?_, hone⟩
  intro hzero
  rw [hzero, zero_pow (by decide), mul_zero] at hone
  exact zero_ne_one hone

/-- **The witness of `blindedEval` satisfies the late constraints.** -/
theorem witness_late (hleval : o.lenEval = 10) (hk : o.k = 53) {r : Nat → Fp}
    (hr : ∀ i < 10, r i ≠ 0) (hv : ∀ i < 10, v i = r i ^ eps) {n : Nat} (hn : n < 13) :
    lateConstraint (o.wAt Key v b ru rv) n = 0 := by
  obtain ⟨hne, hone⟩ := root_spec hr hv
  have hvs : ∀ i < 10, o.wAt Key v b ru rv (vOffset + i) = v i := fun i hi => wAt_v hleval hi
  have hys : ∀ i ≤ 8, o.wAt Key v b ru rv (yOffset + i)
      = yPower (powInvEpsPrime (product v 0 10)) i := fun i hi => wAt_y hleval hk hi
  have hv0 := hvs 0 (by norm_num)
  have hy0 := hys 0 (by norm_num)
  rw [Nat.add_zero] at hv0 hy0
  rw [yPower] at hy0
  unfold lateConstraint
  by_cases h0 : n = 0
  · rw [if_pos h0, wAt_c0 hleval hk, product_eq, hv0, hvs 1 (by norm_num), hvs 2 (by norm_num),
      hvs 3 (by norm_num), hvs 4 (by norm_num)]
    simp only [prod_range_succ, prod_range_zero, Nat.zero_add]
    ring
  by_cases h1 : n = 1
  · rw [if_neg h0, if_pos h1, wAt_c1 hleval hk, product_eq, hvs 5 (by norm_num),
      hvs 6 (by norm_num), hvs 7 (by norm_num), hvs 8 (by norm_num), hvs 9 (by norm_num)]
    simp only [prod_range_succ, prod_range_zero, Nat.add_zero]
    ring
  by_cases h10 : n < 10
  · rw [if_neg h0, if_neg h1, if_pos h10, hys (n - 1) (by omega), hys (n - 2) (by omega),
      show n - 1 = n - 2 + 1 by omega, yPower, Exact.pow5_eq, sub_self]
  by_cases heq10 : n = 10
  · rw [if_neg h0, if_neg h1, if_neg h10, if_pos heq10, wAt_a0 hleval hk, hys 8 le_rfl,
      hys 4 (by norm_num), hys 1 (by norm_num), witnessA0]
    ring
  by_cases h11 : n = 11
  · rw [if_neg h0, if_neg h1, if_neg h10, if_neg heq10, if_pos h11, wAt_a0 hleval hk,
      wAt_a1 hleval hk, hy0, hys 1 (by norm_num), hys 3 (by norm_num), witnessA1_eq hne,
      witnessA0_eq, yPower_eq, yPower_eq]
    ring
  · have hprod : product v 0 5 * product v 5 5 = product v 0 10 := by
      simp only [product_eq, prod_range_succ, prod_range_zero]
      ring
    rw [if_neg h0, if_neg h1, if_neg h10, if_neg heq10, if_neg h11, wAt_c0 hleval hk,
      wAt_c1 hleval hk, wAt_a1 hleval hk, hy0, witnessA1_eq hne, hprod, ← hone, eps]
    ring

end

end OPRF

/-! ## The constraints by number -/

/-- `C[56]` to `C[68]`. -/
theorem ZkParams.constraint_late (zk : ZkParams) (stmt : Statement Fp) (w : Nat → Fp) (n : Nat) :
    zk.constraint stmt w (zk.k + 3 + n) = lateConstraint w n := by
  rw [ZkParams.constraint, if_neg (by omega), if_neg (by omega), if_neg (by omega),
    Nat.add_sub_cancel_left]

namespace OPRF

/-- **The late constraints mean what the protocol needs**: an assignment that satisfies `C[56]` to
`C[68]` has a nonzero product of the `v_i`, inverse to `a ^ 781764` and so an `eps'`-th power; and
for nonzero `r_i` the values `blindedEval` computes satisfy them, with a nonzero divisor. -/
theorem constraints_mean_root (o : OPRF Fp) (hleval : o.lenEval = 10) (hk : o.k = 53)
    (stmt : Statement Fp) :
    (∀ w : Nat → Fp, (∀ i, 56 ≤ i → i ≤ 68 → o.zk.constraint stmt w i = 0) →
      (∏ i ∈ range 10, w (vOffset + i)) ≠ 0 ∧
      (∏ i ∈ range 10, w (vOffset + i)) * w yOffset ^ 781764 = 1 ∧
      ∃ s : Fp, ∏ i ∈ range 10, w (vOffset + i) = s ^ eps) ∧
    ∀ (Key ru rv : Fp) (b r : Nat → Fp), (∀ i < 10, r i ≠ 0) →
      let v : Nat → Fp := fun i => r i ^ 781764
      let a := powInvEpsPrime (product v 0 o.lenEval)
      a * a * yPower a 3 ≠ 0 ∧
      ∀ i, 56 ≤ i → i ≤ 68 → o.zk.constraint stmt (o.wAt Key v b ru rv) i = 0 := by
  have hnum : ∀ (w : Nat → Fp) (n : Nat), o.zk.constraint stmt w (56 + n) = lateConstraint w n := by
    intro w n
    have hzk : o.zk.k + 3 = 56 := by
      rw [show o.zk.k = o.k from rfl, hk]
    rw [← hzk, ZkParams.constraint_late]
  constructor
  · intro w hw
    have hone := late_sound (w := w) fun n hn => by
      rw [← hnum]
      exact hw (56 + n) (by omega) (by omega)
    refine ⟨fun hzero => ?_, hone, (w yOffset)⁻¹, ?_⟩
    · rw [hzero, zero_mul] at hone
      exact zero_ne_one hone
    · rw [inv_pow]
      exact eq_inv_of_mul_eq_one_left hone
  · intro Key ru rv b r hr v a
    have hspec := (root_spec (v := v) hr fun _ _ => rfl).1
    have ha : a ≠ 0 := by
      rw [← hleval] at hspec
      exact hspec
    refine ⟨?_, fun i h56 h68 => ?_⟩
    · rw [yPower_eq]
      exact mul_ne_zero (mul_ne_zero ha ha) (pow_ne_zero _ ha)
    · obtain ⟨n, rfl⟩ : ∃ n, i = 56 + n := ⟨i - 56, by omega⟩
      rw [hnum]
      exact witness_late hleval hk hr (fun _ _ => rfl) (by omega)

/-- All ones satisfy the constraints; the roots 2 give a witness. -/
theorem constraints_mean_root_example :
    let o : OPRF Fp := ⟨10, 53, 53, 64, 8, []⟩
    let stmt : Statement Fp := ⟨fun _ => 0, fun _ => 0, 0, 0, [], []⟩
    let v : Nat → Fp := fun _ => 2 ^ 781764
    let a := powInvEpsPrime (product v 0 10)
    (∃ s : Fp, ∏ _i ∈ range 10, (1 : Fp) = s ^ eps) ∧ a * a * yPower a 3 ≠ 0 ∧
      ∀ i, 56 ≤ i → i ≤ 68 → o.zk.constraint stmt (o.wAt 5 v (fun _ => 3) 1 1) i = 0 := by
  intro o stmt v a
  obtain ⟨hsound, hcomplete⟩ := constraints_mean_root o rfl rfl stmt
  have hones : ∀ i, 56 ≤ i → i ≤ 68 → o.zk.constraint stmt (fun _ => 1) i = 0 := by
    intro i h56 h68
    obtain ⟨n, rfl⟩ : ∃ n, i = o.zk.k + 3 + n := ⟨i - 56, by
      have hk : o.zk.k = 53 := rfl
      omega⟩
    rw [ZkParams.constraint_late]
    unfold lateConstraint
    simp only [mul_one, one_pow, sub_self, ite_self]
  exact ⟨(hsound (fun _ => 1) hones).2.2,
    hcomplete 5 1 1 (fun _ => 3) (fun _ => 2) fun _ _ => fp_two_ne_zero⟩

end OPRF

end HocusPocus
