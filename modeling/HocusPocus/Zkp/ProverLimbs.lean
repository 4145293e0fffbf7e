import HocusPocus.Zkp.Model
import HocusPocus.Zkp.PolyLimbs

/-!
# `prove` on limbs

All additions and subtractions of the prover are lazy. The degree-0 coefficients are sums of
`k_vole` products that are never reduced, and where two of them meet in a multiplication of
polynomials the accumulators of `fe25519_mul` may overflow. `macPairs` lists these places; nothing
else in `prove` can wrap.

* `checkPoly_rep`: with room at these places the whole of `prove` is exact and stands for the run
  in the field.
* `macFits_of_exact`: an exact `check_poly` has room at these places.
-/

namespace HocusPocus.ZkParams

open Machine FieldOps HocusPocus.Poly Fe25519

/-- The products of two degree-0 coefficients in `prove`. -/
def macPairs (k : Nat) : List (Nat × Nat) :=
  [(vOffset, vOffset + 1), (vOffset + 5, vOffset + 6), (yOffset + 1, a0Pos),
    (c0Pos, c1Pos), (yOffset, a1Pos)]
    ++ ((List.range 9).map (fun i => (yOffset + i, yOffset + i))
      ++ (List.range k).map fun i => (bOffset + i, kPos))

theorem mem_macPairs_y {k i : Nat} (hi : i < 9) : (yOffset + i, yOffset + i) ∈ macPairs k :=
  List.mem_append_right _ (List.mem_append_left _
    (List.mem_map.mpr ⟨i, List.mem_range.mpr hi, rfl⟩))

theorem mem_macPairs_b {k i : Nat} (hi : i < k) : (bOffset + i, kPos) ∈ macPairs k :=
  List.mem_append_right _ (List.mem_append_right _
    (List.mem_map.mpr ⟨i, List.mem_range.mpr hi, rfl⟩))

/-- There is room for the product of the degree-0 coefficients of a pair. -/
def MacFits (state : Nat → Poly Fe25519 1) (p : Nat × Nat) : Prop :=
  MulFits (limb ((state p.1).coefs 0).v) (limb ((state p.2).coefs 0).v)

/-! ## The prover in both readings -/

/-- A polynomial of `state`, or one with an offset added to its degree-1 coefficient. -/
structure StateRep (p : Poly Fe25519 1) (q : Poly Fp 1) : Prop where
  mac : Rep 2805 (p.coefs 0) (q.coefs 0)
  witness : Rep 510 (p.coefs 1) (q.coefs 1)

section

variable {p r : Poly Fe25519 1} {q s : Poly Fp 1} {B : Nat}

theorem StateRep.toRep (h : StateRep p q) : PolyRep 2805 p q := by
  intro n hn
  rcases Nat.le_one_iff_eq_zero_or_eq_one.mp hn with rfl | rfl
  · exact h.mac
  · exact h.witness.mono (by norm_num)

/-- **A product of two of them** wraps at the degree-0 coefficients only. -/
theorem StateRep.mul (h : StateRep p q) (h' : StateRep r s)
    (hfits : MulFits (limb (p.coefs 0).v) (limb (r.coefs 0).v)) : PolyReduced (p * r) (q * s) := by
  refine polyReduced_mul (fun i hi j hj => ?_) (by norm_num)
  rcases Nat.le_one_iff_eq_zero_or_eq_one.mp hi with rfl | rfl <;>
    rcases Nat.le_one_iff_eq_zero_or_eq_one.mp hj with rfl | rfl
  · exact h.mac.mul_of_fits h'.mac hfits
  · exact h.mac.mul h'.witness (by norm_num)
  · exact h.witness.mul h'.mac (by norm_num)
  · exact h.witness.mul h'.witness (by norm_num)

/-- A product with reduced coefficients on the left has room. -/
theorem StateRep.mul_left {D : Nat} {l : Poly Fe25519 D} {l' : Poly Fp D} (h : StateRep p q)
    (hl : PolyReduced l l') (hD : D ≤ 9) : PolyReduced (l * p) (l' * q) :=
  hl.toRep.mul h.toRep (by norm_num) hD

/-- A constraint `shift_up(state[j]) - product`. -/
theorem StateRep.shiftUp_sub {D : Nat} {l : Poly Fe25519 D} {l' : Poly Fp D} (h : StateRep p q)
    (hl : PolyReduced l l') :
    PolyRep 3315 ((shiftUp D p).subAssign l) ((shiftUp D q).subAssign l') :=
  (h.toRep.shiftUp D).subAssign hl (by norm_num)

end

/-- One more scalar, in both readings. -/
theorem foldNext_rel {A A' : Type} {R : A → A' → Prop} {acc : A × Prng} {acc' : A' × Prng}
    (hrng : acc.2 = acc'.2) {step : A → Fe25519 → A} {step' : A' → Fp → A'}
    (hstep : ∀ scalar scalar', Reduced scalar scalar' →
      R (step acc.1 scalar) (step' acc'.1 scalar')) :
    R (foldNext acc step).1 (foldNext acc' step').1 ∧
      (foldNext acc step).2 = (foldNext acc' step').2 := by
  unfold foldNext randomFe25519
  rw [hrng]
  exact ⟨hstep _ _ (reduced_unpack _), rfl⟩

/-- A state of the fold: `check_poly` up to `B`, and the same generator. -/
def FoldRep (B : Nat) (acc : Poly Fe25519 5 × Prng) (acc' : Poly Fp 5 × Prng) : Prop :=
  PolyRep B acc.1 acc'.1 ∧ acc.2 = acc'.2

section

variable {B C D : Nat} {acc : Poly Fe25519 5 × Prng} {acc' : Poly Fp 5 × Prng}

theorem FoldRep.next (h : FoldRep B acc acc') {step : Poly Fe25519 5 → Fe25519 → Poly Fe25519 5}
    {step' : Poly Fp 5 → Fp → Poly Fp 5}
    (hstep : ∀ scalar scalar', Reduced scalar scalar' →
      PolyRep C (step acc.1 scalar) (step' acc'.1 scalar')) :
    FoldRep C (foldNext acc step) (foldNext acc' step') := foldNext_rel h.2 hstep

/-- `check_poly += scalar * check`. -/
theorem FoldRep.add (h : FoldRep B acc acc') {q : Poly Fe25519 D} {q' : Poly Fp D}
    (hq : PolyRep C q q') (hC : C ≤ 5355) (hB : B ≤ 100000) :
    FoldRep (B + 255)
      (foldNext acc fun checkPoly (scalar : Fe25519) => checkPoly.addAssign (const scalar * q))
      (foldNext acc' fun checkPoly (scalar : Fp) => checkPoly.addAssign (const scalar * q')) :=
  h.next fun _ _ hs => h.1.addAssign
    ((polyReduced_const hs).toRep.mul hq (by omega) (by norm_num)).toRep (by omega)

/-- `check_poly += shift_up(scalar * check)`. -/
theorem FoldRep.addShifted (h : FoldRep B acc acc') {q : Poly Fe25519 D} {q' : Poly Fp D}
    (hq : PolyRep C q q') (hC : C ≤ 5355) (hB : B ≤ 100000) :
    FoldRep (B + 255)
      (foldNext acc fun checkPoly (scalar : Fe25519) =>
        checkPoly.addAssign (shiftUp 5 (const scalar * q)))
      (foldNext acc' fun checkPoly (scalar : Fp) =>
        checkPoly.addAssign (shiftUp 5 (const scalar * q'))) :=
  h.next fun _ _ hs => h.1.addAssign
    (((polyReduced_const hs).toRep.mul hq (by omega) (by norm_num)).toRep.shiftUp 5) (by omega)

/-- `check_poly -= shift_up(scalar * check)`. -/
theorem FoldRep.subShifted (h : FoldRep B acc acc') {q : Poly Fe25519 D} {q' : Poly Fp D}
    (hq : PolyRep C q q') (hC : C ≤ 5355) (hB : B ≤ 100000) :
    FoldRep (B + 510)
      (foldNext acc fun checkPoly (scalar : Fe25519) =>
        checkPoly.subAssign (shiftUp 5 (const scalar * q)))
      (foldNext acc' fun checkPoly (scalar : Fp) =>
        checkPoly.subAssign (shiftUp 5 (const scalar * q'))) :=
  h.next fun _ _ hs => h.1.subAssign
    (((polyReduced_const hs).toRep.mul hq (by omega) (by norm_num)).shiftUp 5) (by omega)

/-- A loop whose rounds each add `C` to the bound. -/
theorem FoldRep.loop (h : FoldRep B acc acc') (m C : Nat)
    {f : Poly Fe25519 5 × Prng → Nat → Poly Fe25519 5 × Prng}
    {f' : Poly Fp 5 × Prng → Nat → Poly Fp 5 × Prng}
    (hstep : ∀ i < m, ∀ a a',
      FoldRep (B + i * C) a a' → FoldRep (B + i * C + C) (f a i) (f' a' i)) :
    FoldRep (B + m * C) ((List.range m).foldl f acc) ((List.range m).foldl f' acc') := by
  refine foldl_range_rel (P := fun i => FoldRep (B + i * C)) ?_ m fun i hi a a' ha => ?_
  · rw [Nat.zero_mul]
    exact h
  · have hbound : B + (i + 1) * C = B + i * C + C := by ring
    rw [hbound]
    exact hstep i hi a a' ha

end

/-- The two states: sums of at most 11 products and reduced witness elements. -/
structure ProverRep (state : Nat → Poly Fe25519 1) (state' : Nat → Poly Fp 1) : Prop where
  mac : ∀ j < checkPos, Rep 2805 ((state j).coefs 0) ((state' j).coefs 0)
  witness : ∀ j < checkPos, Rep 255 ((state j).coefs 1) ((state' j).coefs 1)

/-- The two statements, as the prover reads them. -/
structure StatementRep (zk : ZkParams) (stmt : Statement Fe25519) (stmt' : Statement Fp) :
    Prop where
  gamma : ∀ i < zk.leval, Reduced (stmt.gamma i) (stmt'.gamma i)
  offset : ∀ i, Reduced (stmt.offsets.getD i setZero) (stmt'.offsets.getD i setZero)
  c : stmt.c = stmt'.c

section

variable {state : Nat → Poly Fe25519 1} {state' : Nat → Poly Fp 1} {zk : ZkParams}
  {stmt : Statement Fe25519} {stmt' : Statement Fp} {B : Nat} {acc : Poly Fe25519 5 × Prng}
  {acc' : Poly Fp 5 × Prng} {rng : Prng}

theorem ProverRep.at (hs : ProverRep state state') {j : Nat} (hj : j < checkPos) :
    StateRep (state j) (state' j) :=
  ⟨hs.mac j hj, (hs.witness j hj).mono (by norm_num)⟩

theorem ProverRep.keyPlus (hs : ProverRep state state') {l : Fe25519} {l' : Fp}
    (hl : Reduced l l') : StateRep (keyPlus state l) (keyPlus state' l') :=
  ⟨hs.mac kPos (by decide), (hs.witness kPos (by decide)).add hl.toRep (by norm_num)⟩

theorem ProverRep.square (hs : ProverRep state state') {k j : Nat} (hj : j < checkPos)
    (hfits : ∀ p ∈ macPairs k, MacFits state p) (hmem : (j, j) ∈ macPairs k) :
    PolyReduced (state j * state j) (state' j * state' j) :=
  (hs.at hj).mul (hs.at hj) (hfits (j, j) hmem)

/-! ### Block by block -/

/-- The loop of block 1 after `m` rounds. -/
def proverInnerTo {F : Type} [FieldOps F] (state : Nat → Poly F 1) (stmt : Statement F) (m : Nat) :
    Poly F 2 × Poly F 1 :=
  (List.range m).foldl (fun (acc : Poly F 2 × Poly F 1) i =>
    let gammav : Poly F 1 := const (stmt.gamma i) * state (vOffset + i)
    (acc.1.addAssign (gammav * ZkParams.keyPlus state (lPrime stmt i)), acc.2.addAssign gammav))
    (Poly.setZero, Poly.setZero)

theorem proverInnerTo_succ {F : Type} [FieldOps F] (state : Nat → Poly F 1) (stmt : Statement F)
    (m : Nat) :
    proverInnerTo state stmt (m + 1)
      = ((proverInnerTo state stmt m).1.addAssign
            ((const (stmt.gamma m) * state (vOffset + m) : Poly F 1)
              * ZkParams.keyPlus state (lPrime stmt m)),
          (proverInnerTo state stmt m).2.addAssign
            (const (stmt.gamma m) * state (vOffset + m) : Poly F 1)) := by
  unfold proverInnerTo
  rw [List.range_succ, List.foldl_append]
  rfl

theorem proverInnerTo_rep (hs : ProverRep state state') (hstmt : StatementRep zk stmt stmt')
    {m : Nat} (hm : m ≤ zk.leval) (h10 : m ≤ 10) :
    PolyRep (m * 255) (proverInnerTo state stmt m).1 (proverInnerTo state' stmt' m).1 ∧
      PolyRep (m * 255) (proverInnerTo state stmt m).2 (proverInnerTo state' stmt' m).2 := by
  induction m with
  | zero => exact ⟨polyRep_setZero, polyRep_setZero⟩
  | succ m ih =>
    obtain ⟨hu, hv⟩ := ih (by omega) (by omega)
    have hsucc : m * 255 + 255 = (m + 1) * 255 := by ring
    have hpos : vOffset + m < checkPos := by
      unfold vOffset checkPos maskPos
      omega
    have hgammav : PolyReduced (const (stmt.gamma m) * state (vOffset + m) : Poly Fe25519 1)
        (const (stmt'.gamma m) * state' (vOffset + m) : Poly Fp 1) :=
      (hs.at hpos).mul_left (polyReduced_const (hstmt.gamma m (by omega))) (by norm_num)
    have hterm := (hs.keyPlus (hstmt.offset m)).mul_left hgammav (by norm_num)
    rw [proverInnerTo_succ, proverInnerTo_succ, ← hsucc]
    exact ⟨hu.addAssign hterm.toRep (by omega), hv.addAssign hgammav.toRep (by omega)⟩

theorem proverInner_rep (hs : ProverRep state state') (hstmt : StatementRep zk stmt stmt')
    (hleval : zk.leval = 10) :
    PolyRep 2550 (zk.proverInner state stmt).1 (zk.proverInner state' stmt').1 ∧
      PolyRep 2550 (zk.proverInner state stmt).2 (zk.proverInner state' stmt').2 := by
  have h := proverInnerTo_rep hs hstmt le_rfl hleval.le
  rw [hleval] at h
  unfold proverInner
  rw [hleval]
  exact h

theorem proverBlock1_rep (hs : ProverRep state state') (hstmt : StatementRep zk stmt stmt')
    (hleval : zk.leval = 10) (rng : Prng) :
    FoldRep 5610 (zk.proverBlock1 state stmt rng) (zk.proverBlock1 state' stmt' rng) := by
  obtain ⟨hu, hv⟩ := proverInner_rep hs hstmt hleval
  have hru : ruPos < checkPos := by decide
  have hrv : rvPos < checkPos := by decide
  have hcheckU := hu.addAssign ((hs.at hru).toRep.shiftUp 2) (by norm_num)
  have hcheck_v := hv.addAssign (hs.at hrv).toRep (by norm_num)
  have hstart : FoldRep 5355
      ((Poly.setZero : Poly Fe25519 5).addAssign (shiftUp 5 ((zk.proverInner state stmt).1.addAssign
        (shiftUp 2 (state ruPos)))), rng)
      ((Poly.setZero : Poly Fp 5).addAssign (shiftUp 5 ((zk.proverInner state' stmt').1.addAssign
        (shiftUp 2 (state' ruPos)))), rng) :=
    ⟨(polyRep_setZero.addAssign (hcheckU.shiftUp 5) (by norm_num)).mono (by norm_num), rfl⟩
  exact hstart.addShifted hcheck_v (by norm_num) (by norm_num)

theorem lt_checkPos_y {i : Nat} (hi : i ≤ 8) : yOffset + i < checkPos := by
  unfold yOffset checkPos maskPos
  omega

theorem lt_checkPos_v {i : Nat} (hi : i < 10) : vOffset + i < checkPos := by
  unfold vOffset checkPos maskPos
  omega

theorem lt_checkPos_b {i : Nat} (hi : i < 53) : bOffset + i < checkPos := by
  unfold bOffset checkPos maskPos
  omega

theorem StatementRep.lc (hstmt : StatementRep zk stmt stmt') (i : Nat) :
    Reduced (zk.lc stmt i) (zk.lc stmt' i) := by
  unfold ZkParams.lc
  rw [← hstmt.c]
  exact hstmt.offset _

theorem proverBlock2_rep (hs : ProverRep state state') (hstmt : StatementRep zk stmt stmt')
    (hk : zk.k = 53) (hfits : ∀ p ∈ macPairs zk.k, MacFits state p) (h : FoldRep 5610 acc acc') :
    FoldRep 32640 (zk.proverBlock2 state stmt acc) (zk.proverBlock2 state' stmt' acc') := by
  have hbound : 5610 + zk.k * 510 = 32640 := by rw [hk]
  rw [← hbound]
  unfold proverBlock2
  refine h.loop zk.k 510 fun i hi a a' ha => ?_
  have hterm := (hs.at (lt_checkPos_b (hk ▸ hi))).mul (hs.keyPlus (hstmt.lc i))
    (hfits (bOffset + i, kPos) (mem_macPairs_b hi))
  exact ha.subShifted hterm.toRep (by norm_num) (by omega)

theorem proverProduct_rep (hs : ProverRep state state') {j : Nat} (hj : j + 4 < checkPos)
    (hfits : MacFits state (j, j + 1)) :
    PolyReduced (proverProduct state j) (proverProduct state' j) := by
  have h01 : PolyReduced (state j * state (j + 1)) (state' j * state' (j + 1)) :=
    (hs.at (by omega)).mul (hs.at (by omega)) hfits
  have h012 := (hs.at (show j + 2 < checkPos by omega)).mul_left h01 (by norm_num)
  have h0123 := (hs.at (show j + 3 < checkPos by omega)).mul_left h012 (by norm_num)
  exact (hs.at hj).mul_left h0123 (by norm_num)

theorem proverBlock3_rep (hs : ProverRep state state')
    (hfits : ∀ p ∈ macPairs zk.k, MacFits state p) (h : FoldRep 32640 acc acc') :
    FoldRep 33150 (proverBlock3 state acc) (proverBlock3 state' acc') := by
  have hfirst := proverProduct_rep hs (j := vOffset) (by decide)
    (hfits (vOffset, vOffset + 1) List.mem_cons_self)
  have hsecond := proverProduct_rep hs (j := vOffset + 5) (by decide)
    (hfits (vOffset + 5, vOffset + 6) (List.mem_cons_of_mem _ List.mem_cons_self))
  have hc0 := ((hs.at (j := c0Pos) (by decide)).shiftUp_sub hfirst).reduce (by norm_num)
  have hc1 := ((hs.at (j := c1Pos) (by decide)).shiftUp_sub hsecond).reduce (by norm_num)
  exact (h.add hc0.toRep (by norm_num) (by norm_num)).add hc1.toRep (by norm_num) (by norm_num)

theorem proverPow5_rep (hs : ProverRep state state') {j : Nat} (hj : j < checkPos)
    (hfits : MacFits state (j, j)) :
    PolyReduced (proverPow5 state j) (proverPow5 state' j) := by
  have h2 : PolyReduced (state j * state j) (state' j * state' j) :=
    (hs.at hj).mul (hs.at hj) hfits
  have h4 := h2.toRep.mul h2.toRep (by norm_num) (by norm_num)
  exact (hs.at hj).mul_left h4 (by norm_num)

theorem proverBlock4_rep (hs : ProverRep state state')
    (hfits : ∀ p ∈ macPairs zk.k, MacFits state p) (h : FoldRep 33150 acc acc') :
    FoldRep 35190 (proverBlock4 state acc) (proverBlock4 state' acc') := by
  unfold proverBlock4
  refine h.loop 8 255 fun i hi a a' ha => ?_
  have hpow := proverPow5_rep hs (lt_checkPos_y (i := i) (by omega))
    (hfits (yOffset + i, yOffset + i) (mem_macPairs_y (by omega)))
  exact ha.add ((hs.at (lt_checkPos_y (i := i + 1) (by omega))).shiftUp_sub hpow) (by norm_num)
    (by omega)

theorem proverBlock5_rep (hs : ProverRep state state')
    (hfits : ∀ p ∈ macPairs zk.k, MacFits state p) (h : FoldRep 35190 acc acc') :
    FoldRep 35445 (proverBlock5 state acc) (proverBlock5 state' acc') := by
  have h8 := hs.square (lt_checkPos_y le_rfl) hfits (mem_macPairs_y (i := 8) (by norm_num))
  have h1 := hs.square (lt_checkPos_y (by norm_num)) hfits (mem_macPairs_y (i := 1) (by norm_num))
  have h84 := (hs.at (lt_checkPos_y (i := 4) (by norm_num))).mul_left h8 (by norm_num)
  have hright := h84.toRep.mul h1.toRep (by norm_num) (by norm_num)
  exact h.add ((hs.at (j := a0Pos) (by decide)).shiftUp_sub hright) (by norm_num) (by norm_num)

theorem proverBlock6_rep (hs : ProverRep state state')
    (hfits : ∀ p ∈ macPairs zk.k, MacFits state p) (h : FoldRep 35445 acc acc') :
    FoldRep 35700 (proverBlock6 state acc) (proverBlock6 state' acc') := by
  have hleft : PolyReduced (state (yOffset + 1) * state a0Pos)
      (state' (yOffset + 1) * state' a0Pos) :=
    (hs.at (lt_checkPos_y (by norm_num))).mul (hs.at (by decide))
      (hfits (yOffset + 1, a0Pos)
        (List.mem_cons_of_mem _ (List.mem_cons_of_mem _ List.mem_cons_self)))
  have h0 := hs.square (lt_checkPos_y (by norm_num)) hfits (mem_macPairs_y (i := 0) (by norm_num))
  have h03 := (hs.at (lt_checkPos_y (i := 3) (by norm_num))).mul_left h0 (by norm_num)
  have hright := (hs.at (j := a1Pos) (by decide)).mul_left h03 (by norm_num)
  have hcheck := (hleft.toRep.shiftUp 4).subAssign hright (by norm_num)
  exact h.addShifted hcheck (by norm_num) (by norm_num)

theorem proverBlock7_rep (hs : ProverRep state state')
    (hfits : ∀ p ∈ macPairs zk.k, MacFits state p) (h : FoldRep 35700 acc acc') :
    FoldRep 35955 (proverBlock7 state acc) (proverBlock7 state' acc') := by
  have hc : PolyReduced (state c0Pos * state c1Pos) (state' c0Pos * state' c1Pos) :=
    (hs.at (by decide)).mul (hs.at (by decide)) (hfits (c0Pos, c1Pos)
      (List.mem_cons_of_mem _ (List.mem_cons_of_mem _ (List.mem_cons_of_mem _ List.mem_cons_self))))
  have hy : PolyReduced (state yOffset * state a1Pos) (state' yOffset * state' a1Pos) :=
    (hs.at (by decide)).mul (hs.at (by decide)) (hfits (yOffset, a1Pos)
      (List.mem_cons_of_mem _ (List.mem_cons_of_mem _ (List.mem_cons_of_mem _
        (List.mem_cons_of_mem _ List.mem_cons_self)))))
  have hfinal := hc.toRep.mul hy.toRep (by norm_num) (by norm_num)
  exact h.addShifted hfinal.toRep (by norm_num) (by norm_num)

theorem proverMasks_rep (hs : ProverRep state state') {p : Poly Fe25519 5} {q : Poly Fp 5}
    (h : PolyRep 35955 p q) : PolyRep 47175 (proverMasks state p) (proverMasks state' q) := by
  have hmask : ∀ i < 4, StateRep (state (maskPos + i)) (state' (maskPos + i)) := fun i hi =>
    hs.at (by unfold checkPos; omega)
  have h0 := h.addAssign (hmask 0 (by norm_num)).toRep (by norm_num)
  have h1 := h0.addAssign ((hmask 1 (by norm_num)).toRep.shiftUp 2) (by norm_num)
  have h2 := h1.addAssign ((hmask 2 (by norm_num)).toRep.shiftUp 3) (by norm_num)
  exact h2.addAssign ((hmask 3 (by norm_num)).toRep.shiftUp 4) (by norm_num)

/-- **With room for the products of degree-0 coefficients** nothing in `prove` wraps, and
`check_poly` is that of the field. -/
theorem checkPoly_rep (hleval : zk.leval = 10) (hk : zk.k = 53) (hs : ProverRep state state')
    (hstmt : StatementRep zk stmt stmt') (hfits : ∀ p ∈ macPairs zk.k, MacFits state p) :
    PolyReduced (zk.checkPoly state stmt rng) (zk.checkPoly state' stmt' rng) := by
  have h1 := proverBlock1_rep hs hstmt hleval rng
  have h2 := proverBlock2_rep hs hstmt hk hfits h1
  have h3 := proverBlock3_rep hs hfits h2
  have h4 := proverBlock4_rep hs hfits h3
  have h5 := proverBlock5_rep hs hfits h4
  have h6 := proverBlock6_rep hs hfits h5
  have h7 := proverBlock7_rep hs hfits h6
  exact (proverMasks_rep hs h7.1).reduce (by norm_num)

end

/-! ## Exact runs have room -/

section

variable {state : Nat → Poly Fe25519 1} {zk : ZkParams} {stmt : Statement Fe25519} {D : Nat}
  {acc : Poly Fe25519 5 × Prng} {rng : Prng} {q : Poly Fe25519 D}

theorem exact_foldAdd (hD : 0 + D ≤ 5)
    (h : AllExact (foldNext acc fun checkPoly (scalar : Fe25519) =>
      checkPoly.addAssign (const scalar * q)).1) : AllExact acc.1 ∧ AllExact q := by
  obtain ⟨hacc, hterm⟩ := exact_addAssign hD h
  exact ⟨hacc, exact_mul_right hterm⟩

theorem exact_foldAddShifted (hD : 0 + D ≤ 5)
    (h : AllExact (foldNext acc fun checkPoly (scalar : Fe25519) =>
      checkPoly.addAssign (shiftUp 5 (const scalar * q))).1) : AllExact acc.1 ∧ AllExact q := by
  obtain ⟨hacc, hterm⟩ := exact_addAssign le_rfl h
  exact ⟨hacc, exact_mul_right (exact_shiftUp hD hterm)⟩

theorem exact_foldSubShifted (hD : 0 + D ≤ 5)
    (h : AllExact (foldNext acc fun checkPoly (scalar : Fe25519) =>
      checkPoly.subAssign (shiftUp 5 (const scalar * q))).1) : AllExact acc.1 ∧ AllExact q := by
  obtain ⟨hacc, hterm⟩ := exact_subAssign le_rfl h
  exact ⟨hacc, exact_mul_right (exact_shiftUp hD hterm)⟩

/-- What each round of a loop needs holds of every round. -/
theorem exact_foldl {f : Poly Fe25519 5 × Prng → Nat → Poly Fe25519 5 × Prng} {Q : Nat → Prop}
    (hstep : ∀ a i, AllExact (f a i).1 → AllExact a.1 ∧ Q i) {m : Nat}
    (h : AllExact ((List.range m).foldl f acc).1) : AllExact acc.1 ∧ ∀ i < m, Q i := by
  induction m with
  | zero => exact ⟨h, fun i hi => absurd hi (Nat.not_lt_zero i)⟩
  | succ m ih =>
    rw [List.range_succ, List.foldl_append] at h
    obtain ⟨hprev, hm⟩ := hstep _ m h
    obtain ⟨hacc, hall⟩ := ih hprev
    refine ⟨hacc, fun i hi => ?_⟩
    rcases Nat.lt_succ_iff_lt_or_eq.mp hi with hlt | rfl
    · exact hall i hlt
    · exact hm

/-- An offset leaves the degree-0 coefficient of the key. -/
theorem keyPlus_zero (l : Fe25519) : (keyPlus state l).coefs 0 = (state kPos).coefs 0 := rfl

theorem exact_proverBlock2 (h : AllExact (zk.proverBlock2 state stmt acc).1) :
    ∀ i < zk.k, MacFits state (bOffset + i, kPos) := by
  refine (exact_foldl (fun a i ha => ?_) h).2
  obtain ⟨hacc, hterm⟩ := exact_foldSubShifted (by norm_num) ha
  have hfits := mulFits_of_exact hterm
  rw [keyPlus_zero] at hfits
  exact ⟨hacc, hfits⟩

theorem exact_proverProduct {j : Nat} (h : AllExact (proverProduct state j)) :
    MacFits state (j, j + 1) :=
  mulFits_of_exact (exact_mul_left (exact_mul_left (exact_mul_left h)))

theorem exact_proverBlock3 (h : AllExact (proverBlock3 state acc).1) :
    AllExact acc.1 ∧ MacFits state (vOffset, vOffset + 1) ∧
      MacFits state (vOffset + 5, vOffset + 6) := by
  obtain ⟨h, hc1⟩ := exact_foldAdd (by norm_num) h
  obtain ⟨hacc, hc0⟩ := exact_foldAdd (by norm_num) h
  exact ⟨hacc, exact_proverProduct (exact_subAssign le_rfl (exact_reduce hc0)).2,
    exact_proverProduct (exact_subAssign le_rfl (exact_reduce hc1)).2⟩

theorem exact_proverBlock4 (h : AllExact (proverBlock4 state acc).1) :
    AllExact acc.1 ∧ ∀ i < 8, MacFits state (yOffset + i, yOffset + i) := by
  refine exact_foldl (fun a i ha => ?_) h
  obtain ⟨hacc, hcheck⟩ := exact_foldAdd (by norm_num) ha
  have hpow := (exact_subAssign le_rfl hcheck).2
  exact ⟨hacc, mulFits_of_exact (exact_mul_left (exact_mul_left hpow))⟩

theorem exact_proverBlock5 (h : AllExact (proverBlock5 state acc).1) :
    AllExact acc.1 ∧ MacFits state (yOffset + 8, yOffset + 8) := by
  obtain ⟨hacc, hcheck⟩ := exact_foldAdd (by norm_num) h
  have hright := (exact_subAssign le_rfl hcheck).2
  exact ⟨hacc, mulFits_of_exact (exact_mul_left (exact_mul_left hright))⟩

theorem exact_proverBlock6 (h : AllExact (proverBlock6 state acc).1) :
    AllExact acc.1 ∧ MacFits state (yOffset + 1, a0Pos) := by
  obtain ⟨hacc, hcheck⟩ := exact_foldAddShifted (by norm_num) h
  have hleft := exact_shiftUp (by norm_num) (exact_subAssign le_rfl hcheck).1
  exact ⟨hacc, mulFits_of_exact hleft⟩

theorem exact_proverBlock7 (h : AllExact (proverBlock7 state acc).1) :
    AllExact acc.1 ∧ MacFits state (c0Pos, c1Pos) ∧ MacFits state (yOffset, a1Pos) := by
  obtain ⟨hacc, hfinal⟩ := exact_foldAddShifted (by norm_num) h
  exact ⟨hacc, mulFits_of_exact (exact_mul_left hfinal), mulFits_of_exact (exact_mul_right hfinal)⟩

theorem exact_proverMasks {p : Poly Fe25519 5} (h : AllExact (proverMasks state p)) :
    AllExact p := by
  have h2 := (exact_addAssign (by norm_num) h).1
  have h1 := (exact_addAssign (by norm_num) h2).1
  have h0 := (exact_addAssign (by norm_num) h1).1
  exact (exact_addAssign (by norm_num) h0).1

/-- **An exact `check_poly` has room for every product of degree-0 coefficients.** -/
theorem macFits_of_exact (h : AllExact (zk.checkPoly state stmt rng)) :
    ∀ p ∈ macPairs zk.k, MacFits state p := by
  obtain ⟨h6, hc, hy⟩ := exact_proverBlock7 (exact_proverMasks (exact_reduce h))
  obtain ⟨h5, hleft⟩ := exact_proverBlock6 h6
  obtain ⟨h4, h8⟩ := exact_proverBlock5 h5
  obtain ⟨h3, hpow⟩ := exact_proverBlock4 h4
  obtain ⟨h2, hv0, hv5⟩ := exact_proverBlock3 h3
  have hb := exact_proverBlock2 h2
  intro p hp
  simp only [macPairs, List.mem_append, List.mem_cons, List.not_mem_nil, or_false, List.mem_map,
    List.mem_range] at hp
  rcases hp with (rfl | rfl | rfl | rfl | rfl) | ⟨i, hi, rfl⟩ | ⟨i, hi, rfl⟩
  · exact hv0
  · exact hv5
  · exact hleft
  · exact hc
  · exact hy
  · rcases Nat.lt_succ_iff_lt_or_eq.mp hi with hlt | rfl
    · exact hpow i hlt
    · exact h8
  · exact hb i hi

end

end HocusPocus.ZkParams
