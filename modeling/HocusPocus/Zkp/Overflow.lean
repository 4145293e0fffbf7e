import HocusPocus.Zkp.ProverLimbs

/-!
# Overflow in the prover

`commit_to_witness` and `prove` from reduced inputs. The degree-0 coefficients are sums of the rows
`ui` under the multipliers; `macLimb` gives their limbs as numbers.

* `NoWraparound.macsFit`, `MacsFit.noWraparound`: nothing wraps, and `check_poly` is that of the
  field, exactly when the products of degree-0 coefficients have room.
* `macsFit_of_ten`: with sets of `2 ^ 10` elements there is always room.
* `not_macsFit_minusOneRow`: with sets of `2 ^ 6` or `2 ^ 8` elements there are reduced rows without
  room, whatever the other arguments are.
* `noWraparound_iff`: so nothing wraps on any reduced rows exactly for the setting 10.
-/

namespace HocusPocus

open Machine Arith FieldOps HocusPocus.Poly Fe25519

/-- The elements the limbs of a statement stand for. -/
def Statement.residues (stmt : Statement Fe25519) : Statement Fp :=
  { gamma := fun i => (stmt.gamma i).residue
    mm := fun i => (stmt.mm i).residue
    cu := stmt.cu.residue
    cv := stmt.cv.residue
    offsets := stmt.offsets.map residue
    c := stmt.c }

namespace ZkParams

/-- The settings of the source. -/
structure Setting (zk : ZkParams) : Prop where
  statisticalSecurityBits : zk.statisticalSecurityBits = 64
  smallSetBits : zk.smallSetBits = 6 ∨ zk.smallSetBits = 8 ∨ zk.smallSetBits = 10
  leval : zk.leval = 10
  k : zk.k = 53

/-- Reduced arguments of `commit_to_witness` and `prove`, but for the rows `ui`. -/
structure ReducedArgs (zk : ZkParams) (w : Nat → Fe25519) (vi : Nat → Nat → Fe25519)
    (stmt : Statement Fe25519) : Prop where
  w : ∀ j < maskPos, (w j).IsReduced
  vi : ∀ i < zk.kVole, ∀ j < zk.voleLen, (vi i j).IsReduced
  gamma : ∀ i < zk.leval, (stmt.gamma i).IsReduced
  offsets : ∀ l ∈ stmt.offsets, l.IsReduced

/-- Reduced rows. -/
def RowsReduced (zk : ZkParams) (ui : Nat → Nat → Fe25519) : Prop :=
  ∀ i < zk.kVole, ∀ j < zk.voleLen, (ui i j).IsReduced

/-- Reduced arguments of `commit_to_witness` and `prove`. -/
structure ReducedInputs (zk : ZkParams) (w : Nat → Fe25519) (ui vi : Nat → Nat → Fe25519)
    (stmt : Statement Fe25519) : Prop extends zk.ReducedArgs w vi stmt where
  ui : zk.RowsReduced ui

section

variable {zk : ZkParams} {w : Nat → Fe25519} {ui vi : Nat → Nat → Fe25519} {prng : Prng}
  {stmt : Statement Fe25519} {i j : Nat}

theorem Setting.kVole_le (hzk : zk.Setting) : zk.kVole ≤ 11 := by
  unfold kVole
  rw [hzk.statisticalSecurityBits]
  rcases hzk.smallSetBits with h | h | h <;> rw [h] <;> decide

theorem Setting.voleLen_eq (hzk : zk.Setting) : zk.voleLen = 85 := by
  rw [voleLen, hzk.leval, hzk.k]

/-! ## The degree-0 coefficients -/

/-- Limb `n` of the multiplier of row `i`. -/
def multiplierLimb (zk : ZkParams) (i n : Nat) : Nat :=
  if n = i * zk.smallSetBits / 8 then 2 ^ (i * zk.smallSetBits % 8) else 0

/-- Limb `n` of the degree-0 coefficient `j`: the rows under their multipliers. -/
def macLimb (zk : ZkParams) (ui : Nat → Nat → Fe25519) (j n : Nat) : Nat :=
  ∑ i ∈ Finset.range zk.kVole, product (zk.multiplierLimb i) (limb (ui i j).v) n

/-- The products of degree-0 coefficients have room. -/
def MacsFit (zk : ZkParams) (ui : Nat → Nat → Fe25519) : Prop :=
  ∀ p ∈ macPairs zk.k, MulFits (zk.macLimb ui p.1) (zk.macLimb ui p.2)

theorem multiplierLimb_le (n : Nat) : zk.multiplierLimb i n ≤ 128 := by
  unfold multiplierLimb
  split_ifs
  · exact two_pow_mod_le _
  · exact Nat.zero_le _

theorem multiplier_holds : Holds (zk.multiplier i : Fe25519).v (zk.multiplierLimb i) := by
  refine limb_ofLimbs_is fun n => ?_
  unfold multiplierLimb
  split_ifs
  · exact zk.multiplier_is i
  · exact Word.is_ofNat 0 (by norm_num)

theorem rep_multiplier : Rep 128 (zk.multiplier i : Fe25519) (zk.multiplier i : Fp) :=
  (rep_ofLimb (zk.multiplier_is i)).mono (two_pow_mod_le _)

/-- A row under its multiplier. -/
theorem row_holds (hu : (ui i j).IsReduced) :
    Holds (zk.multiplier i * ui i j).v (product (zk.multiplierLimb i) (limb (ui i j).v)) :=
  mul_holds multiplier_holds hu.holds
    (mulFits_of_le (fun n _ => multiplierLimb_le n) hu.le (by norm_num))

theorem rep_row (zk : ZkParams) (hu : (ui i j).IsReduced) :
    Rep 255 (zk.multiplier i * ui i j) (FieldOps.mul (zk.multiplier i) (ui i j).residue) :=
  rep_multiplier.mul hu.toRep (by norm_num)

theorem product_row_le (hu : (ui i j).IsReduced) {n : Nat} (hn : n < 32) :
    product (zk.multiplierLimb i) (limb (ui i j).v) n ≤ 255 := by
  rw [← (row_holds hu).limb_eq hn]
  exact (rep_row zk hu).le n hn

theorem macLimb_le (hu : ∀ i < zk.kVole, (ui i j).IsReduced) {n : Nat} (hn : n < 32) :
    zk.macLimb ui j n ≤ zk.kVole * 255 := by
  calc zk.macLimb ui j n ≤ ∑ _i ∈ Finset.range zk.kVole, 255 :=
        Finset.sum_le_sum fun i hi => product_row_le (hu i (Finset.mem_range.mp hi)) hn
    _ = zk.kVole * 255 := by rw [Finset.sum_const, Finset.card_range, smul_eq_mul]

/-- **The degree-0 coefficients on limbs and in the field.** -/
theorem rep_macCoef (hzk : zk.Setting) (hu : ∀ i < zk.kVole, (ui i j).IsReduced) :
    Rep 2805 (zk.macCoef ui j) (zk.macCoef (fun i j => (ui i j).residue) j) := by
  have hk := hzk.kVole_le
  exact (rep_sumLoop rep_setZero (fun i hi => rep_row zk (hu i hi)) (by omega)).mono (by omega)

/-- The first `m` rows, limb by limb. -/
theorem sumLoop_rows_holds (hzk : zk.Setting) (hu : ∀ i < zk.kVole, (ui i j).IsReduced) {m : Nat}
    (hm : m ≤ zk.kVole) :
    Holds (sumLoop m (setZero : Fe25519) fun i => zk.multiplier i * ui i j).v
      fun n => ∑ i ∈ Finset.range m, product (zk.multiplierLimb i) (limb (ui i j).v) n := by
  have hk := hzk.kVole_le
  induction m with
  | zero => exact limb_ofLimbs_is fun _ => Word.is_ofNat 0 (by norm_num)
  | succ m ih =>
    intro n hn
    have hrows : ∀ i < m, Rep 255 (zk.multiplier i * ui i j)
        (FieldOps.mul (zk.multiplier i) (ui i j).residue) :=
      fun i hi => rep_row zk (hu i (by omega))
    have hbefore := (rep_sumLoop rep_setZero hrows (by omega)).le n hn
    have hrow : product (zk.multiplierLimb m) (limb (ui m j).v) n ≤ 255 :=
      product_row_le (hu m hm) hn
    rw [(ih (by omega)).limb_eq hn] at hbefore
    have hfit : (∑ i ∈ Finset.range m, product (zk.multiplierLimb i) (limb (ui i j).v) n)
        + product (zk.multiplierLimb m) (limb (ui m j).v) n < 2 ^ 32 := by omega
    rw [sumLoop_succ, getElem_add _ _ hn]
    simp only [Finset.sum_range_succ]
    exact (ih (by omega) n hn).add (row_holds (hu m hm) n hn) hfit

theorem limb_macCoef (hzk : zk.Setting) (hu : ∀ i < zk.kVole, (ui i j).IsReduced) {n : Nat}
    (hn : n < 32) : limb (zk.macCoef ui j).v n = zk.macLimb ui j n :=
  (sumLoop_rows_holds hzk hu le_rfl).limb_eq hn

/-! ## Both readings of the arguments -/

theorem reduced_witnessCoef (hw : ∀ j < maskPos, (w j).IsReduced) (prng : Prng) (j : Nat) :
    Reduced (witnessCoef w prng j) (witnessCoef (fun j => (w j).residue) prng j) := by
  unfold witnessCoef
  split_ifs with hwitness hmask
  · exact hw j hwitness
  · exact reduced_unpack _
  · exact reduced_setZero

theorem proverState_rep (hzk : zk.Setting) (hin : zk.ReducedInputs w ui vi stmt) (prng : Prng) :
    ProverRep (zk.proverState w ui prng)
      (zk.proverState (fun j => (w j).residue) (fun i j => (ui i j).residue) prng) where
  mac j hj := rep_macCoef hzk fun i hi => hin.ui i hi j (hj.trans (hzk.voleLen_eq ▸ by decide))
  witness j _ := (reduced_witnessCoef hin.w prng j).toRep

/-- A statement and its residues, as both parties read them. -/
theorem statementRep_residues (hgamma : ∀ i < zk.leval, (stmt.gamma i).IsReduced)
    (hoffsets : ∀ l ∈ stmt.offsets, l.IsReduced) : StatementRep zk stmt stmt.residues where
  gamma := hgamma
  offset i := by
    have hd : (setZero : Fp) = residue setZero := reduced_setZero.residue_eq.symm
    unfold Statement.residues
    rw [hd, List.getD_map]
    rcases lt_or_ge i stmt.offsets.length with hi | hi
    · rw [List.getD_eq_getElem _ _ hi]
      exact hoffsets _ (List.getElem_mem hi)
    · rw [List.getD_eq_default _ _ hi, ← hd]
      exact reduced_setZero
  c := rfl

theorem residues_rep (hin : zk.ReducedInputs w ui vi stmt) : StatementRep zk stmt stmt.residues :=
  statementRep_residues hin.gamma hin.offsets

theorem macPairs_lt : ∀ p ∈ macPairs 53, p.1 < 85 ∧ p.2 < 85 := by decide

theorem macsFit_iff (hzk : zk.Setting) (hin : zk.ReducedInputs w ui vi stmt) :
    zk.MacsFit ui ↔ ∀ p ∈ macPairs zk.k, MacFits (zk.proverState w ui prng) p := by
  have hlimb : ∀ j < 85, ∀ n < 32,
      limb ((zk.proverState w ui prng j).coefs 0).v n = zk.macLimb ui j n :=
    fun j hj _ hn => limb_macCoef hzk (fun i hi => hin.ui i hi j (hzk.voleLen_eq ▸ hj)) hn
  unfold MacsFit
  rw [hzk.k]
  refine forall₂_congr fun p hp => ?_
  obtain ⟨h1, h2⟩ := macPairs_lt p hp
  constructor
  · exact mulFits_congr (fun n hn => (hlimb p.1 h1 n hn).symm) fun n hn => (hlimb p.2 h2 n hn).symm
  · exact mulFits_congr (hlimb p.1 h1) (hlimb p.2 h2)

/-! ## `commit_to_witness` -/

theorem exact_proverState (hzk : zk.Setting) (hin : zk.ReducedInputs w ui vi stmt) (prng : Prng)
    (hj : j < zk.voleLen) : AllExact (zk.proverState w ui prng j) := by
  intro n hn
  rcases Nat.le_one_iff_eq_zero_or_eq_one.mp hn with rfl | rfl
  · exact (rep_macCoef hzk fun i hi => hin.ui i hi j hj).exact
  · exact (reduced_witnessCoef hin.w prng j).exact

theorem exact_derandomised (hin : zk.ReducedInputs w ui vi stmt) (prng : Prng)
    (hi : i < zk.kVole) (hj : j < zk.voleLen) :
    Exact (derandomised (zk.proverState w ui prng) vi i j).v :=
  (((reduced_witnessCoef hin.w prng j).toRep.sub (hin.vi i hi j hj) (by norm_num)).reduce
    (by norm_num)).freeze.exact

theorem exact_checkCv (hzk : zk.Setting) (hin : zk.ReducedInputs w ui vi stmt) (prng : Prng)
    (expand : Block → Nat → UInt8) (seed : Block) :
    Exact (zk.checkCv (zk.proverState w ui prng) (generateF25519VectorFromSeed expand seed)).v := by
  have hlen := hzk.voleLen_eq
  have hterm : ∀ i < zk.voleLen - 1,
      Rep 255 (generateF25519VectorFromSeed expand seed i * (zk.proverState w ui prng i).coefs 1)
        (FieldOps.mul (generateF25519VectorFromSeed expand seed i : Fp)
          (witnessCoef (fun j => (w j).residue) prng i)) := fun i _ =>
    (reduced_unpack _).toRep.mul (reduced_witnessCoef hin.w prng i).toRep (by norm_num)
  have hsum := rep_sumLoop (reduced_witnessCoef hin.w prng checkPos).toRep hterm (by omega)
  exact (hsum.reduce (by omega)).freeze.exact

theorem exact_checkCu (hzk : zk.Setting) (hin : zk.ReducedInputs w ui vi stmt)
    (expand : Block → Nat → UInt8) (seed : Block) (hi : i < zk.kVole) :
    Exact (zk.checkCu ui (generateF25519VectorFromSeed expand seed) i).v := by
  have hlen := hzk.voleLen_eq
  have hcheck : checkPos < zk.voleLen := hlen ▸ by decide
  have hrow : ∀ j < zk.voleLen - 1, Rep 255 (ui i j) (ui i j).residue :=
    fun j hj => (hin.ui i hi j (by omega)).toRep
  have hgamma : ∀ j < zk.voleLen - 1, Rep 255 (generateF25519VectorFromSeed expand seed j)
      (generateF25519VectorFromSeed expand seed j : Fp) := fun j _ => (reduced_unpack _).toRep
  have hdot := reduced_dotProduct hrow hgamma (by norm_num) (by omega)
  exact (((hin.ui i hi checkPos hcheck).toRep.add hdot.toRep (by norm_num)).reduce
    (by norm_num)).freeze.exact

end

/-! ## No wraparound -/

/-- Nothing that `commit_to_witness` and `prove` compute has wrapped, and the coefficients of
`check_poly` are those of the field. The verifier sends `checkSeed` and `linCombSeed`. -/
structure NoWraparound (zk : ZkParams) (expand : Block → Nat → UInt8) (w : Nat → Fe25519)
    (ui vi : Nat → Nat → Fe25519) (prng : Prng) (stmt : Statement Fe25519)
    (checkSeed linCombSeed : Block) : Prop where
  state : ∀ j < zk.voleLen, AllExact (zk.proverState w ui prng j)
  derandomised : ∀ i < zk.kVole, ∀ j < zk.voleLen,
    Exact (derandomised (zk.proverState w ui prng) vi i j).v
  cv : Exact (zk.checkCv (zk.proverState w ui prng)
    (generateF25519VectorFromSeed expand checkSeed)).v
  cu : ∀ i < zk.kVole, Exact (zk.checkCu ui (generateF25519VectorFromSeed expand checkSeed) i).v
  checkPoly : AllExact (zk.checkPoly (zk.proverState w ui prng) stmt
    (Prng.ofSeed expand linCombSeed))
  coefs : ∀ n ≤ 5,
    ((zk.checkPoly (zk.proverState w ui prng) stmt
        (Prng.ofSeed expand linCombSeed)).coefs n).residue
      = (zk.checkPoly (zk.proverState (fun j => (w j).residue) (fun i j => (ui i j).residue) prng)
          stmt.residues (Prng.ofSeed expand linCombSeed)).coefs n

section

variable {zk : ZkParams} {expand : Block → Nat → UInt8} {w : Nat → Fe25519}
  {ui vi : Nat → Nat → Fe25519} {prng : Prng} {stmt : Statement Fe25519}
  {checkSeed linCombSeed : Block}

theorem NoWraparound.macsFit (hzk : zk.Setting) (hin : zk.ReducedInputs w ui vi stmt)
    (h : zk.NoWraparound expand w ui vi prng stmt checkSeed linCombSeed) : zk.MacsFit ui :=
  (macsFit_iff hzk hin).mpr (macFits_of_exact h.checkPoly)

theorem MacsFit.noWraparound (hzk : zk.Setting) (hin : zk.ReducedInputs w ui vi stmt)
    (hfits : zk.MacsFit ui) :
    zk.NoWraparound expand w ui vi prng stmt checkSeed linCombSeed := by
  have hpoly : PolyReduced
      (zk.checkPoly (zk.proverState w ui prng) stmt (Prng.ofSeed expand linCombSeed))
      (zk.checkPoly (zk.proverState (fun j => (w j).residue) (fun i j => (ui i j).residue) prng)
        stmt.residues (Prng.ofSeed expand linCombSeed)) :=
    checkPoly_rep hzk.leval hzk.k (proverState_rep hzk hin prng) (residues_rep hin)
      ((macsFit_iff hzk hin).mp hfits)
  exact
    { state := fun j hj => exact_proverState hzk hin prng hj
      derandomised := fun i hi j hj => exact_derandomised hin prng hi hj
      cv := exact_checkCv hzk hin prng expand checkSeed
      cu := fun i hi => exact_checkCu hzk hin expand checkSeed hi
      checkPoly := hpoly.toRep.exact
      coefs := fun n hn => (hpoly n hn).residue_eq }

/-- Sums of seven rows always leave room. -/
theorem macsFit_of_ten (hzk : zk.Setting) (hten : zk.smallSetBits = 10)
    (hin : zk.ReducedInputs w ui vi stmt) : zk.MacsFit ui := by
  have hk : zk.kVole = 7 := by
    unfold kVole
    rw [hzk.statisticalSecurityBits, hten]
  have hle : ∀ j < 85, ∀ n < 32, zk.macLimb ui j n ≤ 1785 := by
    intro j hj n hn
    have h := macLimb_le (fun i hi => hin.ui i hi j (hzk.voleLen_eq ▸ hj)) hn
    rwa [hk] at h
  intro p hp
  rw [hzk.k] at hp
  obtain ⟨h1, h2⟩ := macPairs_lt p hp
  exact mulFits_of_le (hle p.1 h1) (hle p.2 h2) (by norm_num)

end

/-! ## Rows without room -/

/-- The limbs of the prime minus one. -/
def minusOneLimb (i : Nat) : Nat := if i = 0 then 236 else if i = 31 then 127 else 255

theorem value_minusOneLimb : value 256 32 minusOneLimb = prime - 1 := by decide +kernel

/-- **A product that stands for `-1` has the limbs of the prime minus one.** -/
theorem product_eq_minusOne {a c : Nat → Nat} (hfits : MulFits a c)
    (h : (value 256 32 a : Fp) * (value 256 32 c : Fp) = -1) {n : Nat} (hn : n < 32) :
    product a c n = minusOneLimb n := by
  have hprime : prime = 2 ^ 255 - 19 := rfl
  have hbig := value_mulLimbs_lt hfits
  have hlt : value 256 32 (product a c) < 2 ^ 255 + 2 ^ 31 := value_pass_pass_lt hbig
  have hdvd : prime ∣ value 256 32 (product a c) + 1 := by
    rw [← ZMod.natCast_eq_zero_iff, Nat.cast_add, value_product, h, Nat.cast_one]
    exact neg_add_cancel 1
  have hval : value 256 32 (product a c) = value 256 32 minusOneLimb := by
    obtain ⟨q, hq⟩ := hdvd
    have hone : q = 1 := by
      rw [hprime] at hq
      omega
    rw [value_minusOneLimb, ← Nat.add_sub_cancel (value 256 32 (product a c)) 1, hq, hone, mul_one]
  refine digits_unique (fun i hi => ?_) (fun i _ => ?_) hval n hn
  · refine (pass_pass_le hbig hi).trans_lt ?_
    split_ifs <;> norm_num
  · unfold minusOneLimb
    split_ifs <;> norm_num

/-- Rows that stand for `-2 ^ (-bits * i)`: under their multipliers all of them are `-1`. -/
def minusOneRow (bits i _j : Nat) : Fe25519 :=
  unpack (FieldOps.pack (-(((2 : Nat) : Fp) ^ (i * bits))⁻¹))

theorem isReduced_minusOneRow (bits i j : Nat) : (minusOneRow bits i j).IsReduced :=
  isReduced_of_reduced (reduced_unpack _)

theorem value_minusOneRow (bits i j : Nat) :
    (value 256 32 (limb (minusOneRow bits i j).v) : Fp) = -((2 : Fp) ^ (i * bits))⁻¹ :=
  (residue_ofLimbs _).trans (Exact.unpack_pack _)

/-- A single limb. -/
theorem value_single (c : Nat) {m : Nat} (hm : m < 32) :
    value 256 32 (fun n => if n = m then c else 0) = c * 256 ^ m := by
  unfold value
  simp only [ite_mul, zero_mul]
  rw [Finset.sum_ite_eq' (Finset.range 32), if_pos (Finset.mem_range.mpr hm)]

section

variable {zk : ZkParams}

theorem Setting.bit_lt (hzk : zk.Setting) {i : Nat} (hi : i < zk.kVole) :
    i * zk.smallSetBits / 8 < 32 := by
  unfold kVole at hi
  rw [hzk.statisticalSecurityBits] at hi
  rcases hzk.smallSetBits with h | h | h <;> rw [h] at hi ⊢ <;> omega

/-- The limbs of a multiplier are a power of two. -/
theorem value_multiplierLimb {i : Nat} (hi : i * zk.smallSetBits / 8 < 32) :
    value 256 32 (zk.multiplierLimb i) = 2 ^ (i * zk.smallSetBits) := by
  have hsplit : i * zk.smallSetBits
      = i * zk.smallSetBits % 8 + 8 * (i * zk.smallSetBits / 8) := (Nat.mod_add_div _ 8).symm
  unfold multiplierLimb
  rw [value_single _ hi]
  conv_rhs => rw [hsplit, pow_add, pow_mul]
  norm_num

/-- Each degree-0 coefficient of these rows is `k_vole` times the prime minus one. -/
theorem macLimb_minusOneRow (hzk : zk.Setting) (j : Nat) {n : Nat} (hn : n < 32) :
    zk.macLimb (minusOneRow zk.smallSetBits) j n = zk.kVole * minusOneLimb n := by
  have hrow : ∀ i < zk.kVole,
      product (zk.multiplierLimb i) (limb (minusOneRow zk.smallSetBits i j).v) n
        = minusOneLimb n := by
    intro i hi
    refine product_eq_minusOne (mulFits_of_le (fun n _ => multiplierLimb_le n)
      (isReduced_minusOneRow _ i j).le (by norm_num)) ?_ hn
    rw [value_multiplierLimb (hzk.bit_lt hi), value_minusOneRow, Nat.cast_pow, mul_neg]
    exact congrArg Neg.neg (mul_inv_cancel₀ (pow_ne_zero _ fp_two_ne_zero))
  calc zk.macLimb (minusOneRow zk.smallSetBits) j n
      = ∑ _i ∈ Finset.range zk.kVole, minusOneLimb n :=
        Finset.sum_congr rfl fun i hi => hrow i (Finset.mem_range.mp hi)
    _ = zk.kVole * minusOneLimb n := by
        rw [Finset.sum_const, Finset.card_range, smul_eq_mul]

/-- **The square of such a coefficient overflows** from eight rows on. -/
theorem not_mulFits_minusOne {m : Nat} (hm : m = 8 ∨ m = 11) :
    ¬ MulFits (fun n => m * minusOneLimb n) fun n => m * minusOneLimb n := by
  intro h
  have hfirst := h.1 0 (by norm_num)
  rcases hm with rfl | rfl
  · exact absurd hfirst (by decide +kernel)
  · exact absurd hfirst (by decide +kernel)

theorem Setting.kVole_of_ne (hzk : zk.Setting) (hbits : zk.smallSetBits ≠ 10) :
    zk.kVole = 8 ∨ zk.kVole = 11 := by
  unfold kVole
  rw [hzk.statisticalSecurityBits]
  rcases hzk.smallSetBits with h | h | h
  · rw [h]
    exact Or.inr rfl
  · rw [h]
    exact Or.inl rfl
  · exact absurd h hbits

/-- The rows have no room in the square of `y_0`. -/
theorem not_macsFit_minusOneRow (hzk : zk.Setting) (hbits : zk.smallSetBits ≠ 10) :
    ¬ zk.MacsFit (minusOneRow zk.smallSetBits) := by
  intro hfits
  have hpair : (yOffset, yOffset) ∈ macPairs zk.k := by
    rw [hzk.k]
    exact mem_macPairs_y (by norm_num : 0 < 9)
  exact not_mulFits_minusOne (hzk.kVole_of_ne hbits)
    (mulFits_congr (fun n hn => macLimb_minusOneRow hzk yOffset hn)
      (fun n hn => macLimb_minusOneRow hzk yOffset hn) (hfits _ hpair))

end

/-- **The prover does not wrap exactly for sets of `2 ^ 10` elements**: then no reduced rows make it
wrap, and for the other settings some do, whatever the witness, the masks, the statement and the
seeds are. -/
theorem noWraparound_iff (zk : ZkParams) (expand : Block → Nat → UInt8) (w : Nat → Fe25519)
    (vi : Nat → Nat → Fe25519) (prng : Prng) (stmt : Statement Fe25519)
    (checkSeed linCombSeed : Block) (hzk : zk.Setting) (hargs : zk.ReducedArgs w vi stmt) :
    (∀ ui, zk.RowsReduced ui →
        zk.NoWraparound expand w ui vi prng stmt checkSeed linCombSeed) ↔
      zk.smallSetBits = 10 := by
  constructor
  · intro hall
    by_contra hbits
    have hrows : zk.RowsReduced (minusOneRow zk.smallSetBits) :=
      fun i _ j _ => isReduced_minusOneRow _ i j
    exact not_macsFit_minusOneRow hzk hbits ((hall _ hrows).macsFit hzk ⟨hargs, hrows⟩)
  · intro hten ui hrows
    have hin : zk.ReducedInputs w ui vi stmt := ⟨hargs, hrows⟩
    exact (macsFit_of_ten hzk hten hin).noWraparound hzk hin

/-! ## Fixed inputs -/

/-- Small reduced elements. -/
def smallElement (n : Nat) : Fe25519 := unpack (FieldOps.pack ((n : Nat) : Fp))

theorem isReduced_smallElement (n : Nat) : (smallElement n).IsReduced :=
  isReduced_of_reduced (reduced_unpack _)

/-- Small elements, for ten and sixty-one offsets. -/
def smallStatement : Statement Fe25519 where
  gamma i := smallElement (i + 1)
  mm i := smallElement (i + 2)
  cu := smallElement 3
  cv := smallElement 4
  offsets := (List.range 71).map smallElement
  c := (List.range 53).map UInt8.ofNat

theorem reducedArgs_small (zk : ZkParams) :
    zk.ReducedArgs smallElement (fun i j => smallElement (i * j + 5)) smallStatement where
  w j _ := isReduced_smallElement j
  vi _ _ _ _ := isReduced_smallElement _
  gamma _ _ := isReduced_smallElement _
  offsets l hl := by
    obtain ⟨i, -, rfl⟩ := List.mem_map.mp hl
    exact isReduced_smallElement i

/-- The rows that overflow in the other settings have room here. -/
theorem noWraparound_iff_example :
    NoWraparound ⟨10, 53, 10, 64⟩ shiftedSeed smallElement (minusOneRow 10)
      (fun i j => smallElement (i * j + 5)) ⟨fun i => UInt8.ofNat (3 * i), 0⟩ smallStatement
      (Vector.replicate 16 1) (Vector.replicate 16 2) :=
  (noWraparound_iff ⟨10, 53, 10, 64⟩ _ _ _ _ _ _ _ ⟨rfl, Or.inr (Or.inr rfl), rfl, rfl⟩
    (reducedArgs_small _)).mpr rfl _ fun i _ j _ => isReduced_minusOneRow 10 i j

/-- Zeros, for ten and sixty-one offsets. -/
def zeroStatement : Statement Fe25519 where
  gamma _ := setZero
  mm _ := setZero
  cu := setZero
  cv := setZero
  offsets := List.replicate 71 setZero
  c := (List.range 53).map UInt8.ofNat

/-- Reduced rows, and zeros for the other arguments. -/
theorem reducedInputs_zero (zk : ZkParams) {ui : Nat → Nat → Fe25519}
    (hui : ∀ i j, (ui i j).IsReduced) :
    zk.ReducedInputs (fun _ => setZero) ui (fun _ _ => setZero) zeroStatement where
  w _ _ := isReduced_setZero
  ui i _ j _ := hui i j
  vi _ _ _ _ := isReduced_setZero
  gamma _ _ := isReduced_setZero
  offsets l hl := by
    obtain rfl : l = FieldOps.setZero := List.eq_of_mem_replicate hl
    exact isReduced_setZero

/-- With sets of `2 ^ 8` elements reduced rows can wrap. -/
theorem prover_overflow :
    Setting ⟨10, 53, 8, 64⟩ ∧
      ReducedInputs ⟨10, 53, 8, 64⟩ (fun _ => setZero) (minusOneRow 8) (fun _ _ => setZero)
        zeroStatement ∧
      ¬ NoWraparound ⟨10, 53, 8, 64⟩ (fun _ _ => 0) (fun _ => setZero) (minusOneRow 8)
        (fun _ _ => setZero) ⟨fun _ => 0, 0⟩ zeroStatement (Vector.replicate 16 0)
        (Vector.replicate 16 0) := by
  have hzk : Setting ⟨10, 53, 8, 64⟩ := ⟨rfl, Or.inr (Or.inl rfl), rfl, rfl⟩
  have hin := reducedInputs_zero ⟨10, 53, 8, 64⟩ (isReduced_minusOneRow 8)
  exact ⟨hzk, hin, fun h => not_macsFit_minusOneRow hzk (by decide) (h.macsFit hzk hin)⟩

end ZkParams

end HocusPocus
