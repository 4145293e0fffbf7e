import HocusPocus.Consistency
import HocusPocus.Field.Canonical
import HocusPocus.Zkp.Overflow

/-!
# The verifier on limbs

The verifier reduces its state once, so unlike the prover it has room everywhere: a product leaves
bytes, a sum of products stays below `2 ^ 15`, and what is subtracted is reduced or a product. Its
two comparisons are made on reduced and frozen limbs and decide zero in the field.

* `checkRow_residues`, `accepts_residues`: both comparisons have the answer of the field.
* `verifier_decides`: `commit_to_witness` and `verify`, from reduced arguments and on whatever bytes
  the prover sends, return with the answers of the field.
-/

namespace HocusPocus.ZkParams

open Machine Duplex FieldOps Finset Fe25519

variable {zk : ZkParams}

/-! ## The values that are compared -/

section

variable {F : Type} [FieldOps F]

/-- The element that row `i` of `commit_to_witness` freezes and compares with zero. -/
def rowDifference (zk : ZkParams) (checkGamma : Nat → F) (oi : Nat → Nat → F) (hi : Nat → F)
    (buffer : Bytes) (i : Nat) : F :=
  let check := readFe25519 buffer (1 + i) + hi i * readFe25519 buffer 0
  let check := neg (reduceAddSub check)
  reduceAddSub (check + (oi i checkPos + dotProduct (zk.voleLen - 1) (oi i) checkGamma))

theorem checkRow_eq (checkGamma : Nat → F) (oi : Nat → Nat → F) (hi : Nat → F) (buffer : Bytes)
    (i : Nat) :
    zk.checkRow checkGamma oi hi buffer i
      = isZero (freeze (zk.rowDifference checkGamma oi hi buffer i)) := rfl

/-- The element that `verify` freezes and compares with zero. -/
def proofDifference (zk : ZkParams) (ver : ZkVerifier F) (stmt : Statement F) (rng : Prng)
    (buffer : Bytes) : F :=
  reduceAddSub (horner ver buffer - zk.accumulator ver stmt rng)

theorem accepts_eq (ver : ZkVerifier F) (stmt : Statement F) (rng : Prng) (buffer : Bytes) :
    zk.accepts ver stmt rng buffer = isZero (freeze (zk.proofDifference ver stmt rng buffer)) := rfl

end

/-! ## `commit_to_witness` in both readings -/

/-- The rows of the two readings after the shift, and the keys. -/
structure RowsRep (zk : ZkParams) (oi : Nat → Nat → Fe25519) (oi' : Nat → Nat → Fp)
    (hi : Nat → Fe25519) (hi' : Nat → Fp) : Prop where
  oi : ∀ i < zk.kVole, ∀ j < zk.voleLen, Rep 510 (oi i j) (oi' i j)
  hi : ∀ i < zk.kVole, Rep 1023 (hi i) (hi' i)

section

variable {oi : Nat → Nat → Fe25519} {oi' : Nat → Nat → Fp} {hi : Nat → Fe25519} {hi' : Nat → Fp}
  {i j : Nat}

theorem rep_alignRows (oi' : Nat → Nat → Fp) (hi' : Nat → Fp) (hoi : Reduced (oi i j) (oi' i j))
    (hhi : Rep 1023 (hi i) (hi' i)) (buffer : Bytes) :
    Rep 510 (zk.alignRows oi hi buffer i j) (zk.alignRows oi' hi' buffer i j) :=
  hoi.toRep.add (hhi.mul (reduced_unpack _).toRep (by norm_num)) (by norm_num)

/-- Rows under their multipliers, reduced. -/
theorem reduced_rows (hzk : zk.Setting) {B : Nat} (hB : B ≤ 1023) {f : Nat → Fe25519}
    {g : Nat → Fp} (hf : ∀ i < zk.kVole, Rep B (f i) (g i)) :
    Reduced (FieldOps.reduceAddSub (sumLoop zk.kVole setZero fun i => zk.multiplier i * f i))
      (FieldOps.reduceAddSub (sumLoop zk.kVole setZero fun i => zk.multiplier i * g i)) := by
  have hk := hzk.kVole_le
  have hterm : ∀ i < zk.kVole, Rep 255 (zk.multiplier i * f i)
      (FieldOps.mul (zk.multiplier i) (g i)) :=
    fun i hi => rep_multiplier.mul (hf i hi) (by omega)
  exact (rep_sumLoop rep_setZero hterm (by omega)).reduce (by omega)

theorem reduced_keys (hzk : zk.Setting) (h : RowsRep zk oi oi' hi hi') (hj : j < zk.voleLen) :
    Reduced (zk.keys oi j) (zk.keys oi' j) :=
  reduced_rows hzk (by norm_num) fun i hi => h.oi i hi j hj

theorem reduced_delta (hzk : zk.Setting) (h : RowsRep zk oi oi' hi hi') :
    Reduced (zk.delta hi) (zk.delta hi') :=
  reduced_rows hzk le_rfl h.hi

theorem reduced_rowDifference (hzk : zk.Setting) (h : RowsRep zk oi oi' hi hi')
    (checkGamma : Nat → Fe25519) (checkGamma' : Nat → Fp)
    (hgamma : ∀ j < zk.voleLen - 1, Reduced (checkGamma j) (checkGamma' j)) (buffer : Bytes)
    (hik : i < zk.kVole) :
    Reduced (zk.rowDifference checkGamma oi hi buffer i)
      (zk.rowDifference checkGamma' oi' hi' buffer i) := by
  have hlen := hzk.voleLen_eq
  have hcheck : checkPos < zk.voleLen := hlen ▸ by decide
  have hread : ∀ n, Reduced (readFe25519 buffer n) (readFe25519 buffer n : Fp) :=
    fun n => reduced_unpack _
  have hclaimed := (((hread (1 + i)).toRep.add ((h.hi i hik).mul (hread 0).toRep (by norm_num))
    (by norm_num)).reduce (by norm_num)).neg
  have hdot := reduced_dotProduct (fun j hj => h.oi i hik j (by omega))
    (fun j hj => (hgamma j hj).toRep) (by norm_num) (by omega)
  exact (hclaimed.toRep.add ((h.oi i hik checkPos hcheck).add hdot.toRep (by norm_num))
    (by norm_num)).reduce (by norm_num)

end

/-! ## `verify` in both readings -/

/-- The two verifiers after `commit_to_witness`. -/
structure VerifierRep (ver : ZkVerifier Fe25519) (ver' : ZkVerifier Fp) : Prop where
  state : ∀ j < checkPos, Reduced (ver.state j) (ver'.state j)
  Delta : Reduced ver.Delta ver'.Delta

/-- The two statements, as the verifier reads them. -/
structure PublicRep (zk : ZkParams) (stmt : Statement Fe25519) (stmt' : Statement Fp) : Prop
    extends StatementRep zk stmt stmt' where
  mm : ∀ i < zk.k, Reduced (stmt.mm i) (stmt'.mm i)
  cu : Reduced stmt.cu stmt'.cu
  cv : Reduced stmt.cv stmt'.cv

/-- A state of the fold: `check` up to `B`, and the same generator. -/
def CheckRep (B : Nat) (acc : Fe25519 × Prng) (acc' : Fp × Prng) : Prop :=
  Rep B acc.1 acc'.1 ∧ acc.2 = acc'.2

section

variable {ver : ZkVerifier Fe25519} {ver' : ZkVerifier Fp} {stmt : Statement Fe25519}
  {stmt' : Statement Fp} {B C : Nat} {acc : Fe25519 × Prng} {acc' : Fp × Prng} {x y : Fe25519}
  {e f : Fp} {j : Nat}

/-- `check += scalar * term`. -/
theorem CheckRep.add (h : CheckRep B acc acc') (hx : Rep C x e) (hC : C ≤ 5355)
    (hB : B ≤ 100000) :
    CheckRep (B + 255) (foldNext acc fun check (scalar : Fe25519) => check + scalar * x)
      (foldNext acc' fun check (scalar : Fp) => check + scalar * e) :=
  foldNext_rel h.2 fun _ _ hs => h.1.add (hs.toRep.mul hx (by omega)) (by omega)

/-- `check += scalar * factor * term`. -/
theorem CheckRep.addScaled (h : CheckRep B acc acc') (hx : Rep C x e) (hy : Rep C y f)
    (hC : C ≤ 5355) (hB : B ≤ 100000) :
    CheckRep (B + 255) (foldNext acc fun check (scalar : Fe25519) => check + scalar * x * y)
      (foldNext acc' fun check (scalar : Fp) => check + scalar * e * f) :=
  foldNext_rel h.2 fun _ _ hs =>
    h.1.add ((hs.toRep.mul hx (by omega)).mul hy (by omega)) (by omega)

/-- A loop whose rounds each add `C` to the bound. -/
theorem CheckRep.loop (h : CheckRep B acc acc') (m C : Nat)
    {f : Fe25519 × Prng → Nat → Fe25519 × Prng} {f' : Fp × Prng → Nat → Fp × Prng}
    (hstep : ∀ i < m, ∀ a a', CheckRep (B + i * C) a a' →
      CheckRep (B + i * C + C) (f a i) (f' a' i)) :
    CheckRep (B + m * C) ((List.range m).foldl f acc) ((List.range m).foldl f' acc') := by
  refine foldl_range_rel (P := fun i => CheckRep (B + i * C)) ?_ m fun i hi a a' ha => ?_
  · rw [Nat.zero_mul]
    exact h
  · have hbound : B + (i + 1) * C = B + i * C + C := by ring
    rw [hbound]
    exact hstep i hi a a' ha

/-! ### The powers of `Delta` -/

theorem VerifierRep.deltaTwo (h : VerifierRep ver ver') :
    Multiplied (ZkParams.deltaTwo ver) (ZkParams.deltaTwo ver') :=
  h.Delta.toRep.times h.Delta.toRep

theorem VerifierRep.deltaThree (h : VerifierRep ver ver') :
    Multiplied (ZkParams.deltaThree ver) (ZkParams.deltaThree ver') :=
  h.Delta.toRep.times h.deltaTwo.toRep

theorem VerifierRep.deltaFour (h : VerifierRep ver ver') :
    Multiplied (ZkParams.deltaFour ver) (ZkParams.deltaFour ver') :=
  h.deltaTwo.toRep.times h.deltaTwo.toRep

/-- The key plus an offset. -/
theorem VerifierRep.keyPlus (h : VerifierRep ver ver') {l : Fe25519} {l' : Fp}
    (hl : Reduced l l') :
    Rep 510 (ver.state kPos + ver.Delta * l) (ver'.state kPos + ver'.Delta * l') :=
  (h.state kPos (by decide)).toRep.add (h.Delta.toRep.times hl.toRep).toRep (by norm_num)

/-! ### Block by block -/

theorem verifierInner_rep (h : VerifierRep ver ver') (hstmt : PublicRep zk stmt stmt')
    (hleval : zk.leval = 10) :
    Rep 2550 (zk.verifierInner ver stmt).1 (zk.verifierInner ver' stmt').1 ∧
      Rep 2550 (zk.verifierInner ver stmt).2 (zk.verifierInner ver' stmt').2 := by
  have hbound : zk.leval * 255 = 2550 := by rw [hleval]
  unfold verifierInner
  rw [← hbound]
  refine foldl_range_rel (P := fun i (a : Fe25519 × Fe25519) (a' : Fp × Fp) =>
    Rep (i * 255) a.1 a'.1 ∧ Rep (i * 255) a.2 a'.2) ?_ zk.leval fun i hi a a' ha => ?_
  · exact ⟨rep_setZero.mono (Nat.zero_le _), rep_setZero.mono (Nat.zero_le _)⟩
  · have hround : (i + 1) * 255 = i * 255 + 255 := by ring
    have hgammav := (hstmt.gamma i hi).toRep.times (h.state _ (lt_checkPos_v (hleval ▸ hi))).toRep
    have hterm := hgammav.toRep.mul (h.keyPlus (hstmt.offset i)) (by norm_num)
    rw [hround]
    exact ⟨ha.1.add hterm (by omega), ha.2.add hgammav.toRep (by omega)⟩

theorem verifierBlock1_rep (h : VerifierRep ver ver') (hstmt : PublicRep zk stmt stmt')
    (hleval : zk.leval = 10) (rng : Prng) :
    CheckRep 510 (zk.verifierBlock1 ver stmt rng) (zk.verifierBlock1 ver' stmt' rng) := by
  obtain ⟨hu, hv⟩ := verifierInner_rep h hstmt hleval
  have hru := h.Delta.toRep.times (h.state ruPos (by decide)).toRep
  have hcu := (hu.add hru.toRep (by norm_num)).sub_product
    (h.deltaTwo.toRep.times hstmt.cu.toRep) (by norm_num)
  have hcv := (hv.add (h.state rvPos (by decide)).toRep (by norm_num)).sub_product
    (h.Delta.toRep.times hstmt.cv.toRep) (by norm_num)
  have hstart : CheckRep 255 (_, rng) (_, rng) :=
    ⟨hcu.mul h.deltaThree.toRep (by norm_num), rfl⟩
  exact hstart.add (hcv.mul h.deltaFour.toRep (by norm_num)) (by norm_num) (by norm_num)

theorem verifierBlock2_rep (h : VerifierRep ver ver') (hstmt : PublicRep zk stmt stmt')
    (hk : zk.k = 53) (hacc : CheckRep 510 acc acc') :
    CheckRep 14025 (zk.verifierBlock2 ver stmt acc) (zk.verifierBlock2 ver' stmt' acc') := by
  have hbound : 510 + zk.k * 255 = 14025 := by rw [hk]
  unfold verifierBlock2
  rw [← hbound]
  refine hacc.loop zk.k 255 fun i hi a a' ha => ?_
  have hopening := (hstmt.mm i hi).toRep.times h.deltaTwo.toRep
  have hterm := (h.state _ (lt_checkPos_b (hk ▸ hi))).toRep.multiplied
    (h.keyPlus (hstmt.toStatementRep.lc i)) (by norm_num)
  exact ha.addScaled (h.deltaThree.toRep.mono (by norm_num)) (hopening.sub hterm) (by norm_num)
    (by omega)

theorem verifierProduct_rep (h : VerifierRep ver ver') (hj : j + 4 < checkPos) :
    Multiplied (verifierProduct ver j) (verifierProduct ver' j) := by
  have hs : ∀ i ≤ 4, Rep 255 (ver.state (j + i)) (ver'.state (j + i)) := fun i hi =>
    (h.state _ (by omega)).toRep
  have h01 := (hs 0 (by norm_num)).times (hs 1 (by norm_num))
  have h012 := h01.toRep.times (hs 2 (by norm_num))
  exact (h012.toRep.times (hs 3 (by norm_num))).toRep.times (hs 4 (by norm_num))

/-- A constraint `state[j] * deltaFour - product`. -/
theorem VerifierRep.constraint (h : VerifierRep ver ver') (hj : j < checkPos)
    (hx : Multiplied x e) :
    Rep 765 (ver.state j * ZkParams.deltaFour ver - x)
      (ver'.state j * ZkParams.deltaFour ver' - e) :=
  ((h.state j hj).toRep.times h.deltaFour.toRep).sub hx

theorem verifierBlock3_rep (h : VerifierRep ver ver') (hacc : CheckRep 14025 acc acc') :
    CheckRep 14535 (verifierBlock3 ver acc) (verifierBlock3 ver' acc') := by
  have hfirst := verifierProduct_rep h (j := vOffset) (by decide)
  have hsecond := verifierProduct_rep h (j := vOffset + 5) (by decide)
  exact (hacc.add (h.constraint (by decide) hfirst) (by norm_num) (by norm_num)).add
    (h.constraint (by decide) hsecond) (by norm_num) (by norm_num)

theorem verifierBlock4_rep (h : VerifierRep ver ver') (hacc : CheckRep 14535 acc acc') :
    CheckRep 16575 (verifierBlock4 ver acc) (verifierBlock4 ver' acc') := by
  unfold verifierBlock4
  refine hacc.loop 8 255 fun i hi a a' ha => ?_
  have hy := (h.state _ (lt_checkPos_y (i := i) (by omega))).toRep
  have hy2 := hy.times hy
  have hy4 := hy2.toRep.times hy2.toRep
  exact ha.add (h.constraint (lt_checkPos_y (i := i + 1) (by omega)) (hy4.toRep.times hy))
    (by norm_num) (by omega)

theorem verifierBlock5_rep (h : VerifierRep ver ver') (hacc : CheckRep 16575 acc acc') :
    CheckRep 16830 (verifierBlock5 ver acc) (verifierBlock5 ver' acc') := by
  have hy : ∀ i ≤ 8, Rep 255 (ver.state (yOffset + i)) (ver'.state (yOffset + i)) := fun i hi =>
    (h.state _ (lt_checkPos_y hi)).toRep
  have hleft := ((hy 8 le_rfl).times (hy 8 le_rfl)).toRep.times (hy 4 (by norm_num))
  have hright := (hy 1 (by norm_num)).times (hy 1 (by norm_num))
  exact hacc.add (h.constraint (by decide) (hleft.toRep.times hright.toRep)) (by norm_num)
    (by norm_num)

theorem verifierBlock6_rep (h : VerifierRep ver ver') (hacc : CheckRep 16830 acc acc') :
    CheckRep 17085 (verifierBlock6 ver acc) (verifierBlock6 ver' acc') := by
  have hs : ∀ j < checkPos, Rep 255 (ver.state j) (ver'.state j) := fun j hj =>
    (h.state j hj).toRep
  have hleft := ((hs (yOffset + 1) (by decide)).times (hs a0Pos (by decide))).toRep.times
    h.deltaThree.toRep
  have hright := ((((hs yOffset (by decide)).times (hs yOffset (by decide))).toRep.times
    (hs (yOffset + 3) (by decide))).toRep.times (hs a1Pos (by decide))).toRep.times h.Delta.toRep
  exact hacc.add (hleft.sub hright) (by norm_num) (by norm_num)

theorem verifierBlock7_rep (h : VerifierRep ver ver') (hacc : CheckRep 17085 acc acc') :
    CheckRep 17340 (verifierBlock7 ver acc) (verifierBlock7 ver' acc') := by
  have hs : ∀ j < checkPos, Rep 255 (ver.state j) (ver'.state j) := fun j hj =>
    (h.state j hj).toRep
  have hinv := (((hs c0Pos (by decide)).times (hs c1Pos (by decide))).toRep.times
    (hs yOffset (by decide))).toRep.times (hs a1Pos (by decide))
  exact hacc.addScaled (hinv.sub h.deltaFour) (h.Delta.toRep.mono (by norm_num)) (by norm_num)
    (by norm_num)

theorem verifierFold_rep (h : VerifierRep ver ver') (hstmt : PublicRep zk stmt stmt')
    (hleval : zk.leval = 10) (hk : zk.k = 53) (rng : Prng) :
    CheckRep 17340 (zk.verifierFold ver stmt rng) (zk.verifierFold ver' stmt' rng) :=
  verifierBlock7_rep h (verifierBlock6_rep h (verifierBlock5_rep h (verifierBlock4_rep h
    (verifierBlock3_rep h (verifierBlock2_rep h hstmt hk
      (verifierBlock1_rep h hstmt hleval rng))))))

/-- **The accumulator in both readings.** -/
theorem reduced_accumulator (h : VerifierRep ver ver') (hstmt : PublicRep zk stmt stmt')
    (hleval : zk.leval = 10) (hk : zk.k = 53) (rng : Prng) :
    Reduced (zk.accumulator ver stmt rng) (zk.accumulator ver' stmt' rng) := by
  have hs : ∀ j < checkPos, Rep 255 (ver.state j) (ver'.state j) := fun j hj =>
    (h.state j hj).toRep
  have h0 := (verifierFold_rep h hstmt hleval hk rng).1.add (hs maskPos (by decide)) (by norm_num)
  have h1 := h0.add (h.Delta.toRep.times (hs (maskPos + 1) (by decide))).toRep (by norm_num)
  have h2 := h1.add (h.deltaTwo.toRep.times (hs (maskPos + 2) (by decide))).toRep (by norm_num)
  have h3 := h2.add (h.deltaThree.toRep.times (hs (maskPos + 3) (by decide))).toRep (by norm_num)
  exact (h3.reduce (by norm_num)).freeze

/-- **The received polynomial in both readings.** -/
theorem reduced_horner (h : VerifierRep ver ver') (buffer : Bytes) :
    Reduced (horner ver buffer) (horner ver' buffer) := by
  have heval : Rep 510
      ((List.range 4).foldl (fun eval i => ver.Delta * eval + readFe25519 buffer (3 - i))
        (readFe25519 buffer 4))
      ((List.range 4).foldl (fun eval i => ver'.Delta * eval + readFe25519 buffer (3 - i))
        (readFe25519 buffer 4)) := by
    refine foldl_range_rel (P := fun _ => Rep 510) ?_ 4 fun i _ a a' ha => ?_
    · exact (reduced_unpack _).toRep.mono (by norm_num)
    · exact (h.Delta.toRep.mul ha (by norm_num)).add (reduced_unpack _).toRep (by norm_num)
  exact (heval.reduce (by norm_num)).freeze

theorem reduced_proofDifference (h : VerifierRep ver ver') (hstmt : PublicRep zk stmt stmt')
    (hleval : zk.leval = 10) (hk : zk.k = 53) (rng : Prng) (buffer : Bytes) :
    Reduced (zk.proofDifference ver stmt rng buffer) (zk.proofDifference ver' stmt' rng buffer) :=
  ((reduced_horner h buffer).toRep.sub (reduced_accumulator h hstmt hleval hk rng)
    (by norm_num)).reduce (by norm_num)

end

/-! ## A run of the verifier -/

/-- The arguments of `commit_to_witness`: reduced rows, and keys of one limb. -/
structure CommitInputs (zk : ZkParams) (oi : Nat → Nat → Fe25519) (hi : Nat → Fe25519) : Prop where
  oi : ∀ i < zk.kVole, ∀ j < zk.voleLen, (oi i j).IsReduced
  hi : ∀ i < zk.kVole, ∃ (w : U32) (n : Nat),
    w.Is n ∧ n < 2 ^ zk.smallSetBits ∧ hi i = ofLimb 0 w

/-- The public arguments of `verify`, reduced. -/
structure PublicInputs (zk : ZkParams) (stmt : Statement Fe25519) : Prop where
  gamma : ∀ i < zk.leval, (stmt.gamma i).IsReduced
  mm : ∀ i < zk.k, (stmt.mm i).IsReduced
  cu : stmt.cu.IsReduced
  cv : stmt.cv.IsReduced
  offsets : ∀ l ∈ stmt.offsets, l.IsReduced

section

variable {oi : Nat → Nat → Fe25519} {hi : Nat → Fe25519} {stmt : Statement Fe25519}

theorem rep_keyLimb (hzk : zk.Setting) (hin : zk.CommitInputs oi hi) {i : Nat}
    (hik : i < zk.kVole) : Rep 1023 (hi i) (hi i).residue := by
  obtain ⟨w, n, hw, hn, heq⟩ := hin.hi i hik
  have hle : 2 ^ zk.smallSetBits ≤ 1024 := by
    rcases hzk.smallSetBits with h | h | h <;> rw [h] <;> norm_num
  have hrep : Rep n (ofLimb 0 w) (ofLimb 0 w : Fp) := rep_ofLimb hw
  rw [heq]
  exact (hrep.congr hrep.residue_eq.symm).mono (by omega)

/-- The rows after the shift, in both readings. -/
theorem rowsRep_alignRows (hzk : zk.Setting) (hin : zk.CommitInputs oi hi) (shift : Bytes) :
    RowsRep zk (zk.alignRows oi hi shift)
      (zk.alignRows (fun i j => (oi i j).residue) (fun i => (hi i).residue) shift) hi
      fun i => (hi i).residue where
  oi i hik j hj := rep_alignRows (fun i j => (oi i j).residue) (fun i => (hi i).residue)
    (hin.oi i hik j hj) (rep_keyLimb hzk hin hik) shift
  hi _ hik := rep_keyLimb hzk hin hik

theorem verifierRep_commit (hzk : zk.Setting) (hin : zk.CommitInputs oi hi) (shift : Bytes) :
    VerifierRep { state := zk.keys (zk.alignRows oi hi shift), Delta := zk.delta hi }
      { state := zk.keys
          (zk.alignRows (fun i j => (oi i j).residue) (fun i => (hi i).residue) shift)
        Delta := zk.delta fun i => (hi i).residue } where
  state j hj := reduced_keys hzk (rowsRep_alignRows hzk hin shift)
    (hj.trans (hzk.voleLen_eq ▸ by decide))
  Delta := reduced_delta hzk (rowsRep_alignRows hzk hin shift)

theorem publicRep_residues (hpublic : zk.PublicInputs stmt) :
    PublicRep zk stmt stmt.residues where
  toStatementRep := statementRep_residues hpublic.gamma hpublic.offsets
  mm := hpublic.mm
  cu := hpublic.cu
  cv := hpublic.cv

/-- **The check of a row has the answer of the field.** -/
theorem checkRow_residues (hzk : zk.Setting) (hin : zk.CommitInputs oi hi)
    (expand : Block → Nat → UInt8) (seed : Block) (shift values : Bytes) {i : Nat}
    (hik : i < zk.kVole) :
    zk.checkRow (generateF25519VectorFromSeed expand seed) (zk.alignRows oi hi shift) hi values i
        = true ↔
      zk.checkRow (generateF25519VectorFromSeed expand seed)
        (zk.alignRows (fun i j => (oi i j).residue) (fun i => (hi i).residue) shift)
        (fun i => (hi i).residue) values i = true := by
  have hreduced := reduced_rowDifference hzk (rowsRep_alignRows hzk hin shift)
    (generateF25519VectorFromSeed expand seed) (generateF25519VectorFromSeed expand seed)
    (fun j _ => reduced_unpack _) values hik
  rw [checkRow_eq, checkRow_eq, isZero_freeze_iff hreduced, Exact.freeze_eq, Exact.isZero_eq,
    decide_eq_true_eq]

/-- **The comparison of `verify` has the answer of the field.** -/
theorem accepts_residues {ver : ZkVerifier Fe25519} {ver' : ZkVerifier Fp} (hzk : zk.Setting)
    (hver : VerifierRep ver ver') (hpublic : zk.PublicInputs stmt) (rng : Prng) (proof : Bytes) :
    zk.accepts ver stmt rng proof = true ↔ zk.accepts ver' stmt.residues rng proof = true := by
  have hreduced := reduced_proofDifference hver (publicRep_residues hpublic) hzk.leval hzk.k rng
    proof
  rw [accepts_eq, accepts_eq, isZero_freeze_iff hreduced, Exact.freeze_eq, Exact.isZero_eq,
    decide_eq_true_eq]

end

theorem Setting.multipliersFit (hzk : zk.Setting) : zk.multipliersFit = true :=
  List.all_eq_true.mpr fun _ hi => decide_eq_true (hzk.bit_lt (List.mem_range.mp hi))

/-- **What the verifier decides**, on reduced arguments and whatever bytes it is sent: the two
protocols return, `good` says that all rows satisfy their equation in the field, `valid` that the
received polynomial has the value of the accumulator at `Delta`; and nothing has wrapped on the
way. -/
theorem verifier_decides (zk : ZkParams) (hzk : zk.Setting) (expand : Block → Nat → UInt8)
    (oi : Nat → Nat → Fe25519) (hi : Nat → Fe25519) (hin : zk.CommitInputs oi hi) (prng : Prng)
    (shift values : Bytes) (rest : List Bytes)
    (hshift : shift.length = zk.kVole * zk.voleLen * primeBytes)
    (hvalues : values.length = (zk.kVole + 1) * primeBytes) :
    let hi' : Nat → Fp := fun i => (hi i).residue
    let oi' : Nat → Nat → Fp := zk.alignRows (fun i j => (oi i j).residue) hi' shift
    let ver' : ZkVerifier Fp := { state := zk.keys oi', Delta := zk.delta hi' }
    ∃ (good : Bool) (ver : ZkVerifier Fe25519),
      feed (zk.verifierCommit expand oi hi prng) (shift :: values :: rest)
          = .returned (good, ver, prng.skip 16) rest ∧
        (good = true ↔ ∀ i < zk.kVole,
          zk.combination (generateF25519VectorFromSeed expand prng.getBlock.1) (oi' i)
            = readFe25519 values (1 + i) + hi' i * readFe25519 values 0) ∧
        (∀ i < zk.kVole, Exact (FieldOps.freeze (zk.rowDifference
          (generateF25519VectorFromSeed expand prng.getBlock.1) (zk.alignRows oi hi shift) hi
          values i)).v) ∧
        (∀ j < zk.voleLen, Exact (ver.state j).v) ∧ Exact ver.Delta.v ∧
        ∀ (stmt : Statement Fe25519), zk.PublicInputs stmt →
          zk.offsetsFit stmt.offsets stmt.c = true →
          ∀ (rng : Prng) (proof : Bytes) (rest' : List Bytes), proof.length = 5 * primeBytes →
            ∃ valid : Bool,
              feed (zk.verify expand ver stmt.gamma stmt.mm (some stmt.cu) (some stmt.cv)
                  stmt.offsets stmt.c rng) (proof :: rest')
                = .returned (valid, rng.skip 16) rest' ∧
              (valid = true ↔ ∑ i ∈ range 5, readFe25519 proof i * ver'.Delta ^ i
                = zk.accumulator ver' stmt.residues (Prng.ofSeed expand rng.getBlock.1)) ∧
              Exact (FieldOps.freeze (zk.proofDifference ver stmt
                (Prng.ofSeed expand rng.getBlock.1) proof)).v := by
  intro hi' oi' ver'
  have hrows := rowsRep_alignRows hzk hin shift
  have hver := verifierRep_commit hzk hin shift
  refine ⟨_, _, (feed_verifierCommit_returned expand).mpr
    ⟨shift, values, rfl, hshift, hzk.multipliersFit, hvalues, rfl⟩, ?_, fun i hik => ?_,
    fun j hj => ?_, hver.Delta.exact, ?_⟩
  · rw [checks, List.all_eq_true]
    refine forall_congr' fun i => ?_
    rw [List.mem_range]
    refine forall_congr' fun hik => ?_
    rw [checkRow_residues hzk hin expand _ shift values hik, checkRow_iff]
  · exact (reduced_rowDifference hzk hrows _
      (generateF25519VectorFromSeed expand prng.getBlock.1) (fun j _ => reduced_unpack _) values
      hik).freeze.exact
  · exact (reduced_keys hzk hrows hj).exact
  · intro stmt hpublic hfit rng proof rest' hproof
    refine ⟨_, (feed_verify_returned expand).mpr
      ⟨hfit, stmt.cu, rfl, stmt.cv, rfl, proof, rfl, hproof, rfl⟩, ?_, ?_⟩
    · rw [← accepts_iff]
      exact accepts_residues hzk hver hpublic _ proof
    · exact (reduced_proofDifference hver (publicRep_residues hpublic) hzk.leval hzk.k _
        proof).freeze.exact

theorem publicInputs_small (zk : ZkParams) : zk.PublicInputs smallStatement := by
  refine ⟨fun _ _ => isReduced_smallElement _, fun _ _ => isReduced_smallElement _,
    isReduced_smallElement 3, isReduced_smallElement 4, fun l hl => ?_⟩
  obtain ⟨i, -, rfl⟩ := List.mem_map.mp hl
  exact isReduced_smallElement i

/-- The value of a polynomial of degree 1. -/
theorem sum_linear (c d Delta : Fp) :
    ∑ i ∈ range 5, readFe25519 (writeVecToBytes [c, d, 0, 0, 0]) i * Delta ^ i = c + d * Delta := by
  have hread : ∀ i (h : i < 5), readFe25519 (writeVecToBytes [c, d, 0, 0, 0]) i
      = [c, d, 0, 0, 0][i] := fun i h => readFe25519_writeVecToBytes _ h
  rw [sum_range_succ, sum_range_succ, sum_range_succ, sum_range_succ, sum_range_one,
    hread 0 (by norm_num), hread 1 (by norm_num), hread 2 (by norm_num), hread 3 (by norm_num),
    hread 4 (by norm_num)]
  simp

/-- **A run that accepts**: a prover that knows the keys sends values that satisfy every row, and a
polynomial of degree 1 with the value of the accumulator. -/
theorem verifier_decides_example :
    let zk : ZkParams := ⟨10, 53, 8, 64⟩
    let oi : Nat → Nat → Fe25519 := fun i j => smallElement (i + j + 1)
    let hi : Nat → Fe25519 := fun i => ofLimb 0 (Word.lit 32 (i + 200))
    let prng : Prng := ⟨fun i => UInt8.ofNat (3 * i), 0⟩
    ∃ shift values ver,
      feed (zk.verifierCommit shiftedSeed oi hi prng) [shift, values]
          = .returned (true, ver, prng.skip 16) [] ∧
        (∀ j < zk.voleLen, Exact (ver.state j).v) ∧
        ∃ proof,
          feed (zk.verify shiftedSeed ver smallStatement.gamma smallStatement.mm
              (some smallStatement.cu) (some smallStatement.cv) smallStatement.offsets
              smallStatement.c prng) [proof] = .returned (true, prng.skip 16) [] ∧
            Exact (FieldOps.freeze (zk.proofDifference ver smallStatement
              (Prng.ofSeed shiftedSeed prng.getBlock.1) proof)).v := by
  intro zk oi hi prng
  have hk : zk.kVole = 8 := by decide
  have hlen : zk.voleLen = 85 := by decide
  have hzk : zk.Setting := ⟨rfl, Or.inr (Or.inl rfl), rfl, rfl⟩
  have hin : zk.CommitInputs oi hi := by
    refine ⟨fun _ _ _ _ => isReduced_smallElement _,
      fun i hik => ⟨_, i + 200, Word.is_lit ?_, ?_, rfl⟩⟩
    · omega
    · exact lt_of_lt_of_eq (by omega) (rfl : 256 = 2 ^ zk.smallSetBits)
  have hfit : zk.offsetsFit smallStatement.offsets smallStatement.c = true := by
    have hoffsets : smallStatement.offsets.length = 71 := by
      rw [smallStatement, List.length_map, List.length_range]
    unfold offsetsFit
    rw [hoffsets]
    decide
  -- every entry is shifted by 2, `cv` is 5, and each `cu_i` is what its row needs
  obtain ⟨shift, hshift⟩ : ∃ shift, shift = writeVecToBytes (List.replicate 680 (2 : Fp)) :=
    ⟨_, rfl⟩
  let hi' : Nat → Fp := fun i => (hi i).residue
  let oi' : Nat → Nat → Fp := zk.alignRows (fun i j => (oi i j).residue) hi' shift
  let row : Nat → Fp := fun i =>
    zk.combination (generateF25519VectorFromSeed shiftedSeed prng.getBlock.1) (oi' i) - hi' i * 5
  obtain ⟨good, ver, hcommit, hgood, -, hstate, -, hverify⟩ :=
    verifier_decides zk hzk shiftedSeed oi hi hin prng shift
      (writeVecToBytes (5 :: (List.range zk.kVole).map row)) []
      (by rw [hshift, length_writeVecToBytes, List.length_replicate, hk, hlen, primeBytes])
      (by rw [length_writeVecToBytes, List.length_cons, List.length_map, List.length_range,
        Nat.mul_comm])
  obtain rfl : good = true := hgood.mpr fun i hik => by
    rw [readFe25519_cons_map _ _ hik, readFe25519_writeVecToBytes _ (Nat.zero_lt_succ _)]
    exact (sub_add_cancel _ _).symm
  obtain ⟨acc, hacc⟩ : ∃ acc, acc = zk.accumulator { state := zk.keys oi', Delta := zk.delta hi' }
    smallStatement.residues (Prng.ofSeed shiftedSeed prng.getBlock.1) := ⟨_, rfl⟩
  obtain ⟨valid, hrun, hvalid, hexact⟩ := hverify smallStatement (publicInputs_small zk) hfit prng
    (writeVecToBytes [acc - 7 * zk.delta hi', 7, 0, 0, 0]) []
    (by rw [length_writeVecToBytes]; rfl)
  obtain rfl : valid = true := hvalid.mpr ((sum_linear _ _ _).trans
    ((sub_add_cancel acc (7 * zk.delta hi')).trans hacc))
  exact ⟨shift, _, ver, hcommit, hstate, _, hrun, hexact⟩

end HocusPocus.ZkParams
