import HocusPocus.Zkp.Poly

/-!
# The proof system (`ZKP.h`)

`PROPRF_ZKProver` (lines 126 to 429, with `commit_to_witness` from 148 and `prove` from 237) and
`PROPRF_ZKVerifier` (433 to 751, with `commit_to_witness` from 457 and `verify` from 541). The
prover holds for each witness element `w_j` a polynomial `m_j + w_j X`, the verifier its value at
`Delta`; the proof is the sum of 68 homogenised constraints, folded with scalars from a seed of the
verifier. The prover runs it on polynomials and the verifier on values, in two separately written
programs.

The positions of the witness elements are constants of the source, for `leval = 10` and `k = 53`;
`state` and the rows are read at these positions only, so both are functions here. An index that
depends on other data (the limb of `multiplier`, the entry of `offsets`) is checked.

`proverCommitOr`, `proveOr` and `verifyOr` are the bodies; what follows a `recv` that throws is
their argument, since `OPRF.h` runs these three under `macoro::wrap`. `commit_to_witness` of the
verifier is not wrapped. `cu` and `cv` are options in `verifyOr`, since the client may not have
assigned them.

## Out of scope

* The member `lcom` of both classes, which no method reads.
* The rows and the witness are functions, so one that is too short is not modelled.
* The masks and the seeds are reads of a generator. That they are uniform is a matter of the results
  that count them (`Masking.lean`, `Sound.lean`).

## Results

* `feed_verifierCommit_returned`, `feed_verify_returned`: what the verifier's two methods return
  with, whatever the prover sent.
* `feed_verifyOr_wrapped`: `verify` as `OPRF.h` runs it.
-/

namespace HocusPocus

open Machine Duplex FieldOps

/-! ## Witness positions -/

def kPos : Nat := 0

/-- `v_i = w[i + v_offset]` for `i = 0` to 9. -/
def vOffset : Nat := 1

/-- `b_i = w[i + b_offset]` for `i = 0` to 52. -/
def bOffset : Nat := 11

def ruPos : Nat := 64

def rvPos : Nat := 65

/-- `y_i = w[i + y_offset]` for `i = 0` to 8. -/
def yOffset : Nat := 66

def a0Pos : Nat := 75

def a1Pos : Nat := 76

def c0Pos : Nat := 77

def c1Pos : Nat := 78

/-- 5 masks. -/
def maskPos : Nat := 79

/-- The element of the VOLE consistency check. -/
def checkPos : Nat := maskPos + 5

/-- The arguments of the two constructors. -/
structure ZkParams where
  leval : Nat
  k : Nat
  smallSetBits : Nat
  statisticalSecurityBits : Nat

/-- The public arguments of `prove` and `verify`. The verifier's `cu` and `cv` may not have been
assigned. -/
structure Statement (F : Type) where
  gamma : Nat → F
  mm : Nat → F
  cu : F
  cv : F
  offsets : List F
  c : Bytes

/-- The members of `PROPRF_ZKVerifier` that `commit_to_witness` sets. -/
structure ZkVerifier (F : Type) where
  state : Nat → F
  Delta : F

namespace ZkParams

variable (zk : ZkParams)

/-- The constructors' `k_vole`. -/
def kVole : Nat := (zk.statisticalSecurityBits + zk.smallSetBits - 1) / zk.smallSetBits

/-- The constructors' `vole_len`. -/
def voleLen : Nat := 4 + zk.leval + zk.k + 12 + 5 + 1

/-- Every `multiplier` is written inside its array. -/
def multipliersFit : Bool := (List.range zk.kVole).all fun i => i * zk.smallSetBits / 8 < 32

theorem two_pow_mod_le (n : Nat) : 2 ^ (n % 8) ≤ 128 := by
  have hmod : n % 8 ≤ 7 := Nat.le_of_lt_succ (Nat.mod_lt n (by norm_num))
  exact (Nat.pow_le_pow_right (by norm_num) hmod).trans (by norm_num)

/-- The bit a `multiplier` holds is inside its limb. -/
theorem multiplier_is (i : Nat) : (Word.lit 32 (2 ^ (i * zk.smallSetBits % 8))).Is
    (2 ^ (i * zk.smallSetBits % 8)) :=
  Word.is_lit ((two_pow_mod_le _).trans_lt (by norm_num))

section

variable {F : Type} [FieldOps F] (expand : Block → Nat → UInt8)

/-- `multiplier` of row `i`. -/
def multiplier (i : Nat) : F :=
  ofLimb (i * zk.smallSetBits / 8) (Word.lit 32 (2 ^ (i * zk.smallSetBits % 8)))

/-- `random_fe25519(&scalar, LinCombPrng)` and what is then added to the accumulator. -/
def foldNext {A : Type} (acc : A × Prng) (step : A → F → A) : A × Prng :=
  let scalar := randomFe25519 acc.2
  (step acc.1 scalar.1, scalar.2)

/-- `l_prime[i]`. -/
def lPrime (stmt : Statement F) (i : Nat) : F := stmt.offsets.getD i setZero

/-- `offsets[leval + c[i]]`. -/
def lc (stmt : Statement F) (i : Nat) : F :=
  stmt.offsets.getD (zk.leval + (stmt.c.getD i 0).toNat) setZero

/-- Every read of `offsets` is inside the vector. -/
def offsetsFit (offsets : List F) (c : Bytes) : Bool :=
  decide (zk.leval ≤ offsets.length) &&
    (List.range zk.k).all fun i => zk.leval + (c.getD i 0).toNat < offsets.length

/-! ## `PROPRF_ZKProver::commit_to_witness` -/

/-- The degree-1 coefficients: the witness, then the masks. The last one stays as `resize` made
it. -/
def witnessCoef (w : Nat → F) (prng : Prng) (j : Nat) : F :=
  if j < maskPos then w j
  else if j < checkPos then draw prng (j - maskPos)
  else setZero

/-- The degree-0 coefficients. -/
def macCoef (ui : Nat → Nat → F) (j : Nat) : F :=
  sumLoop zk.kVole setZero fun i => zk.multiplier i * ui i j

/-- `state` after `commit_to_witness`. -/
def proverState (w : Nat → F) (ui : Nat → Nat → F) (prng : Prng) (j : Nat) : Poly F 1 :=
  ⟨fun n => if n = 0 then zk.macCoef ui j else witnessCoef w prng j⟩

/-- `temp`, the derandomisation of entry `j` in row `i`. -/
def derandomised (state : Nat → Poly F 1) (vi : Nat → Nat → F) (i j : Nat) : F :=
  freeze (reduceAddSub ((state j).coefs 1 - vi i j))

/-- `cv` of the consistency check. -/
def checkCv (state : Nat → Poly F 1) (checkGamma : Nat → F) : F :=
  freeze (reduceAddSub (sumLoop (zk.voleLen - 1) ((state checkPos).coefs 1)
    fun i => checkGamma i * (state i).coefs 1))

/-- `cu_i` of the consistency check. -/
def checkCu (ui : Nat → Nat → F) (checkGamma : Nat → F) (i : Nat) : F :=
  freeze (reduceAddSub (ui i checkPos + dotProduct (zk.voleLen - 1) (ui i) checkGamma))

/-- `PROPRF_ZKProver::commit_to_witness`; it ends with `state`, which is assigned before the first
message. -/
def proverCommitOr (thrown : OnThrow ((Nat → Poly F 1) × Prng)) (w : Nat → F)
    (ui vi : Nat → Nat → F) (prng : Prng) : Party ((Nat → Poly F 1) × Prng) := do
  let state := zk.proverState w ui prng
  Proc.require .outOfBounds zk.multipliersFit
  Proc.put (writeVecToBytes (grid zk.kVole zk.voleLen (derandomised state vi)))
  recvBlockOr (thrown (state, afterDraws prng 5)) fun seed => do
  let checkGamma : Nat → F := generateF25519VectorFromSeed expand seed
  Proc.put (writeVecToBytes
    (zk.checkCv state checkGamma :: (List.range zk.kVole).map (zk.checkCu ui checkGamma)))
  return (state, afterDraws prng 5)

/-- `PROPRF_ZKProver::commit_to_witness` on its own. -/
def proverCommit (w : Nat → F) (ui vi : Nat → Nat → F) (prng : Prng) :
    Party ((Nat → Poly F 1) × Prng) :=
  zk.proverCommitOr expand uncaught w ui vi prng

/-! ## `PROPRF_ZKProver::prove` -/

section

open HocusPocus.Poly

variable (state : Nat → Poly F 1) (stmt : Statement F)

/-- `state[K_pos]` with `l` added to the degree-1 coefficient. -/
def keyPlus (l : F) : Poly F 1 :=
  ⟨fun n => if n = 1 then (state kPos).coefs 1 + l else (state kPos).coefs n⟩

/-- The loop of block 1: `check_u` and `check_v`. -/
def proverInner : Poly F 2 × Poly F 1 :=
  (List.range zk.leval).foldl (fun (acc : Poly F 2 × Poly F 1) i =>
    let gammav : Poly F 1 := const (stmt.gamma i) * state (vOffset + i)
    (acc.1.addAssign (gammav * keyPlus state (lPrime stmt i)), acc.2.addAssign gammav))
    (Poly.setZero, Poly.setZero)

/-- Block 1: `C[1]` and `C[2]`. -/
def proverBlock1 (rng : Prng) : Poly F 5 × Prng :=
  let checkU := (zk.proverInner state stmt).1.addAssign (shiftUp 2 (state ruPos))
  let checkV := (zk.proverInner state stmt).2.addAssign (state rvPos)
  let checkPoly := (Poly.setZero : Poly F 5).addAssign (shiftUp 5 checkU)
  foldNext (checkPoly, rng) fun checkPoly (scalar : F) =>
    checkPoly.addAssign (shiftUp 5 (const scalar * checkV))

/-- Block 2: `C[3]` to `C[55]`. -/
def proverBlock2 (acc : Poly F 5 × Prng) : Poly F 5 × Prng :=
  (List.range zk.k).foldl (fun acc i =>
    let bTerm := state (bOffset + i) * keyPlus state (zk.lc stmt i)
    foldNext acc fun checkPoly (scalar : F) =>
      checkPoly.subAssign (shiftUp 5 (const scalar * bTerm))) acc

/-- The product of the five `v` from position `j`. -/
def proverProduct (j : Nat) : Poly F 5 :=
  let v01 : Poly F 2 := state j * state (j + 1)
  let v012 : Poly F 3 := v01 * state (j + 2)
  let v0123 : Poly F 4 := v012 * state (j + 3)
  v0123 * state (j + 4)

/-- Block 3: `C[56]` and `C[57]`. -/
def proverBlock3 (acc : Poly F 5 × Prng) : Poly F 5 × Prng :=
  let checkC0 : Poly F 5 := (shiftUp 5 (state c0Pos)).subAssign (proverProduct state vOffset)
  let acc := foldNext acc fun checkPoly (scalar : F) =>
    checkPoly.addAssign (const scalar * checkC0.reduce)
  let checkC1 : Poly F 5 :=
    (shiftUp 5 (state c1Pos)).subAssign (proverProduct state (vOffset + 5))
  foldNext acc fun checkPoly (scalar : F) => checkPoly.addAssign (const scalar * checkC1.reduce)

/-- The fifth power of the polynomial at position `j`. -/
def proverPow5 (j : Nat) : Poly F 5 :=
  let yPrev2 : Poly F 2 := state j * state j
  let yPrev4 : Poly F 4 := yPrev2 * yPrev2
  yPrev4 * state j

/-- Block 4: `C[58]` to `C[65]`; the loop runs from 1 to 8. -/
def proverBlock4 (acc : Poly F 5 × Prng) : Poly F 5 × Prng :=
  (List.range 8).foldl (fun acc i =>
    let checkY : Poly F 5 :=
      (shiftUp 5 (state (yOffset + (i + 1)))).subAssign (proverPow5 state (yOffset + i))
    foldNext acc fun checkPoly (scalar : F) => checkPoly.addAssign (const scalar * checkY)) acc

/-- Block 5: `C[66]`. -/
def proverBlock5 (acc : Poly F 5 × Prng) : Poly F 5 × Prng :=
  let y8Sq : Poly F 2 := state (yOffset + 8) * state (yOffset + 8)
  let y8SqY4 : Poly F 3 := y8Sq * state (yOffset + 4)
  let y1Sq : Poly F 2 := state (yOffset + 1) * state (yOffset + 1)
  let checkA0 : Poly F 5 := (shiftUp 5 (state a0Pos)).subAssign (y8SqY4 * y1Sq)
  foldNext acc fun checkPoly (scalar : F) => checkPoly.addAssign (const scalar * checkA0)

/-- Block 6: `C[67]`. -/
def proverBlock6 (acc : Poly F 5 × Prng) : Poly F 5 × Prng :=
  let left67 : Poly F 2 := state (yOffset + 1) * state a0Pos
  let y0Sq : Poly F 2 := state yOffset * state yOffset
  let y0SqY3 : Poly F 3 := y0Sq * state (yOffset + 3)
  let right67 : Poly F 4 := y0SqY3 * state a1Pos
  let checkA1 : Poly F 4 := (shiftUp 4 left67).subAssign right67
  foldNext acc fun checkPoly (scalar : F) =>
    checkPoly.addAssign (shiftUp 5 (const scalar * checkA1))

/-- Block 7: `C[68]`. -/
def proverBlock7 (acc : Poly F 5 × Prng) : Poly F 5 × Prng :=
  let c0C1 : Poly F 2 := state c0Pos * state c1Pos
  let y0A1 : Poly F 2 := state yOffset * state a1Pos
  let checkFinal : Poly F 4 := c0C1 * y0A1
  foldNext acc fun checkPoly (scalar : F) =>
    checkPoly.addAssign (shiftUp 5 (const scalar * checkFinal))

/-- Block 8: the masks. -/
def proverMasks (checkPoly : Poly F 5) : Poly F 5 :=
  let checkPoly := checkPoly.addAssign (state maskPos)
  let checkPoly := checkPoly.addAssign (shiftUp 2 (state (maskPos + 1)))
  let checkPoly := checkPoly.addAssign (shiftUp 3 (state (maskPos + 2)))
  checkPoly.addAssign (shiftUp 4 (state (maskPos + 3)))

/-- Blocks 1 to 7: `check_poly` before the masks, and the generator after it. -/
def proverFold (rng : Prng) : Poly F 5 × Prng :=
  proverBlock7 state (proverBlock6 state (proverBlock5 state (proverBlock4 state
    (proverBlock3 state (zk.proverBlock2 state stmt (zk.proverBlock1 state stmt rng))))))

/-- `check_poly` when its coefficients are sent. -/
def checkPoly (rng : Prng) : Poly F 5 :=
  (proverMasks state (zk.proverFold state stmt rng).1).reduce

/-- `PROPRF_ZKProver::prove`. -/
def proveOr (thrown : OnThrow Unit) : Party Unit :=
  recvBlockOr (thrown ()) fun seed => do
  Proc.require .outOfBounds (zk.offsetsFit stmt.offsets stmt.c)
  let checkPoly := zk.checkPoly state stmt (Prng.ofSeed expand seed)
  Proc.put (writeVecToBytes ((List.range 5).map checkPoly.coefs))

/-- `PROPRF_ZKProver::prove` on its own. -/
def prove : Party Unit := zk.proveOr expand state stmt uncaught

/-- The prover does not read `mm`, `cu` and `cv`. -/
theorem checkPoly_statement {stmt stmt' : Statement F} (hgamma : stmt.gamma = stmt'.gamma)
    (hoffsets : stmt.offsets = stmt'.offsets) (hc : stmt.c = stmt'.c) (rng : Prng) :
    zk.checkPoly state stmt rng = zk.checkPoly state stmt' rng := by
  obtain ⟨gamma, mm, cu, cv, offsets, c⟩ := stmt
  obtain ⟨gamma', mm', cu', cv', offsets', c'⟩ := stmt'
  obtain rfl : gamma = gamma' := hgamma
  obtain rfl : offsets = offsets' := hoffsets
  obtain rfl : c = c' := hc
  rfl

theorem proveOr_congr (thrown : OnThrow Unit) {stmt' : Statement F}
    (hgamma : stmt.gamma = stmt'.gamma) (hoffsets : stmt.offsets = stmt'.offsets)
    (hc : stmt.c = stmt'.c) :
    zk.proveOr expand state stmt thrown = zk.proveOr expand state stmt' thrown := by
  unfold proveOr
  simp only [zk.checkPoly_statement state hgamma hoffsets hc, hoffsets, hc]

end

/-! ## `PROPRF_ZKVerifier::commit_to_witness` -/

/-- `oi` moved to the witness. -/
def alignRows (oi : Nat → Nat → F) (hi : Nat → F) (buffer : Bytes) (i j : Nat) : F :=
  oi i j + hi i * readFe25519 buffer (i * zk.voleLen + j)

/-- `Delta`. -/
def delta (hi : Nat → F) : F :=
  reduceAddSub (sumLoop zk.kVole setZero fun i => zk.multiplier i * hi i)

/-- `state` of the verifier. -/
def keys (oi : Nat → Nat → F) (j : Nat) : F :=
  reduceAddSub (sumLoop zk.kVole setZero fun i => zk.multiplier i * oi i j)

/-- The consistency check of row `i`. -/
def checkRow (checkGamma : Nat → F) (oi : Nat → Nat → F) (hi : Nat → F) (buffer : Bytes)
    (i : Nat) : Bool :=
  let cv : F := readFe25519 buffer 0
  let check := readFe25519 buffer (1 + i)
  let check := check + hi i * cv
  let check := neg (reduceAddSub check)
  let check := check + (oi i checkPos + dotProduct (zk.voleLen - 1) (oi i) checkGamma)
  isZero (freeze (reduceAddSub check))

/-- All `k_vole` checks. -/
def checks (checkGamma : Nat → F) (oi : Nat → Nat → F) (hi : Nat → F) (buffer : Bytes) : Bool :=
  (List.range zk.kVole).all (zk.checkRow checkGamma oi hi buffer)

/-- `PROPRF_ZKVerifier::commit_to_witness`; it ends with `good` and the members it sets. -/
def verifierCommit (oi : Nat → Nat → F) (hi : Nat → F) (prng : Prng) :
    Party (Bool × ZkVerifier F × Prng) := do
  let buffer ← recvBytes (zk.kVole * zk.voleLen * primeBytes)
  let oi := zk.alignRows oi hi buffer
  Proc.require .outOfBounds zk.multipliersFit
  let verifier : ZkVerifier F := { state := zk.keys oi, Delta := zk.delta hi }
  let seed := prng.getBlock.1
  let prng := prng.getBlock.2
  sendBlock seed
  let checkGamma : Nat → F := generateF25519VectorFromSeed expand seed
  let buffer ← recvBytes ((zk.kVole + 1) * primeBytes)
  return (zk.checks checkGamma oi hi buffer, verifier, prng)

/-! ## `PROPRF_ZKVerifier::verify` -/

section

variable (ver : ZkVerifier F) (stmt : Statement F)

def deltaTwo : F := ver.Delta * ver.Delta

def deltaThree : F := ver.Delta * deltaTwo ver

def deltaFour : F := deltaTwo ver * deltaTwo ver

/-- The loop of block 1: `u_check` and `v_check`. -/
def verifierInner : F × F :=
  (List.range zk.leval).foldl (fun (acc : F × F) i =>
    let kPlusOffset := ver.state kPos + ver.Delta * lPrime stmt i
    let gammav := stmt.gamma i * ver.state (vOffset + i)
    (acc.1 + gammav * kPlusOffset, acc.2 + gammav))
    (setZero, setZero)

/-- Block 1: `C[1]` and `C[2]`. -/
def verifierBlock1 (rng : Prng) : F × Prng :=
  let uCheck := (zk.verifierInner ver stmt).1 + ver.Delta * ver.state ruPos
  let uCheck := uCheck - deltaTwo ver * stmt.cu
  let uCheck := uCheck * deltaThree ver
  let vCheck := (zk.verifierInner ver stmt).2 + ver.state rvPos
  let vCheck := vCheck - ver.Delta * stmt.cv
  let vCheck := vCheck * deltaFour ver
  foldNext (uCheck, rng) fun check (scalar : F) => check + scalar * vCheck

/-- Block 2: `C[3]` to `C[55]`. -/
def verifierBlock2 (acc : F × Prng) : F × Prng :=
  (List.range zk.k).foldl (fun acc i =>
    let klci := ver.state kPos + ver.Delta * zk.lc stmt i
    let bi := ver.state (bOffset + i)
    let checkBi := stmt.mm i * deltaTwo ver - bi * klci
    foldNext acc fun check (scalar : F) => check + scalar * deltaThree ver * checkBi) acc

/-- The product of the five `v` from position `j`. -/
def verifierProduct (j : Nat) : F :=
  let v01 := ver.state j * ver.state (j + 1)
  let v012 := v01 * ver.state (j + 2)
  let v0123 := v012 * ver.state (j + 3)
  v0123 * ver.state (j + 4)

/-- Block 3: `C[56]` and `C[57]`. -/
def verifierBlock3 (acc : F × Prng) : F × Prng :=
  let checkC0 := ver.state c0Pos * deltaFour ver - verifierProduct ver vOffset
  let acc := foldNext acc fun check (scalar : F) => check + scalar * checkC0
  let checkC1 := ver.state c1Pos * deltaFour ver - verifierProduct ver (vOffset + 5)
  foldNext acc fun check (scalar : F) => check + scalar * checkC1

/-- Block 4: `C[58]` to `C[65]`; the loop runs from 1 to 8. -/
def verifierBlock4 (acc : F × Prng) : F × Prng :=
  (List.range 8).foldl (fun acc i =>
    let yPrev := ver.state (yOffset + i)
    let yPrev2 := yPrev * yPrev
    let yPrev4 := yPrev2 * yPrev2
    let yPrev5 := yPrev4 * yPrev
    let checkY := ver.state (yOffset + (i + 1)) * deltaFour ver - yPrev5
    foldNext acc fun check (scalar : F) => check + scalar * checkY) acc

/-- Block 5: `C[66]`. -/
def verifierBlock5 (acc : F × Prng) : F × Prng :=
  let y8Sq := ver.state (yOffset + 8) * ver.state (yOffset + 8)
  let y8SqY4 := y8Sq * ver.state (yOffset + 4)
  let y1Sq := ver.state (yOffset + 1) * ver.state (yOffset + 1)
  let checkA0 := ver.state a0Pos * deltaFour ver - y8SqY4 * y1Sq
  foldNext acc fun check (scalar : F) => check + scalar * checkA0

/-- Block 6: `C[67]`. -/
def verifierBlock6 (acc : F × Prng) : F × Prng :=
  let left67 := ver.state (yOffset + 1) * ver.state a0Pos * deltaThree ver
  let right67 := ver.state yOffset * ver.state yOffset * ver.state (yOffset + 3)
    * ver.state a1Pos * ver.Delta
  let checkA1 := left67 - right67
  foldNext acc fun check (scalar : F) => check + scalar * checkA1

/-- Block 7: `C[68]`. -/
def verifierBlock7 (acc : F × Prng) : F × Prng :=
  let checkInv := ver.state c0Pos * ver.state c1Pos * ver.state yOffset * ver.state a1Pos
  let checkInv := checkInv - deltaFour ver
  foldNext acc fun check (scalar : F) => check + scalar * checkInv * ver.Delta

/-- Block 8: the masks. -/
def verifierMasks (check : F) : F :=
  let check := check + ver.state maskPos
  let check := check + ver.Delta * ver.state (maskPos + 1)
  let check := check + deltaTwo ver * ver.state (maskPos + 2)
  check + deltaThree ver * ver.state (maskPos + 3)

/-- Blocks 1 to 7: `check` before the masks, and the generator after it. -/
def verifierFold (rng : Prng) : F × Prng :=
  verifierBlock7 ver (verifierBlock6 ver (verifierBlock5 ver (verifierBlock4 ver
    (verifierBlock3 ver (zk.verifierBlock2 ver stmt (zk.verifierBlock1 ver stmt rng))))))

/-- `check` when it is compared. -/
def accumulator (rng : Prng) : F :=
  freeze (reduceAddSub (verifierMasks ver (zk.verifierFold ver stmt rng).1))

/-- `eval`: the received coefficients at `Delta`, by Horner's rule. -/
def horner (buffer : Bytes) : F :=
  let eval := (List.range 4).foldl
    (fun eval i => ver.Delta * eval + readFe25519 buffer (3 - i)) (readFe25519 buffer 4)
  freeze (reduceAddSub eval)

/-- The final comparison. -/
def accepts (rng : Prng) (buffer : Bytes) : Bool :=
  isZero (freeze (reduceAddSub (horner ver buffer - zk.accumulator ver stmt rng)))

end

/-- `PROPRF_ZKVerifier::verify`; it ends with `valid`, which is `false` up to the comparison. -/
def verifyOr (thrown : OnThrow (Bool × Prng)) (ver : ZkVerifier F) (gamma mm : Nat → F)
    (cu cv : Option F) (offsets : List F) (c : Bytes) (prng : Prng) : Party (Bool × Prng) := do
  let seed := prng.getBlock.1
  let prng := prng.getBlock.2
  sendBlock seed
  Proc.require .outOfBounds (zk.offsetsFit offsets c)
  let cu ← Proc.ofOption .uninitialised cu
  let cv ← Proc.ofOption .uninitialised cv
  let stmt : Statement F := { gamma, mm, cu, cv, offsets, c }
  recvBytesOr (thrown (false, prng)) (5 * primeBytes) fun buffer =>
    return (zk.accepts ver stmt (Prng.ofSeed expand seed) buffer, prng)

/-- `PROPRF_ZKVerifier::verify` on its own. -/
def verify (ver : ZkVerifier F) (gamma mm : Nat → F) (cu cv : Option F) (offsets : List F)
    (c : Bytes) (prng : Prng) : Party (Bool × Prng) :=
  zk.verifyOr expand uncaught ver gamma mm cu cv offsets c prng

/-! ## The verifier alone -/

section

variable {zk : ZkParams} {prng : Prng} {ms rest : List Bytes}

/-- **What `commit_to_witness` of the verifier returns with**, whatever was sent. -/
theorem feed_verifierCommit_returned {oi : Nat → Nat → F} {hi : Nat → F}
    {r : Bool × ZkVerifier F × Prng} :
    feed (zk.verifierCommit expand oi hi prng) ms = .returned r rest ↔
      ∃ shift values, ms = shift :: values :: rest ∧
        shift.length = zk.kVole * zk.voleLen * primeBytes ∧ zk.multipliersFit = true ∧
        values.length = (zk.kVole + 1) * primeBytes ∧
        (zk.checks (generateF25519VectorFromSeed expand prng.getBlock.1)
            (zk.alignRows oi hi shift) hi values,
          { state := zk.keys (zk.alignRows oi hi shift), Delta := zk.delta hi }, prng.skip 16)
          = r := by
  unfold verifierCommit sendBlock
  simp only [feed_recvBytes_returned, feed_require_returned, Proc.put_bind, feed_send,
    Proc.pure_eq, feed_ret_returned]
  constructor
  · rintro ⟨shift, ms', rfl, hshift, hfit, values, tail, rfl, hvalues, hr, rfl⟩
    exact ⟨shift, values, rfl, hshift, hfit, hvalues, hr⟩
  · rintro ⟨shift, values, rfl, hshift, hfit, hvalues, hr⟩
    exact ⟨shift, _, rfl, hshift, hfit, values, _, rfl, hvalues, hr, rfl⟩

/-- **What `verify` returns with**, whatever was sent: it has read `cu` and `cv`. -/
theorem feed_verify_returned {ver : ZkVerifier F} {gamma mm : Nat → F} {cu cv : Option F}
    {offsets : List F} {c : Bytes} {r : Bool × Prng} :
    feed (zk.verify expand ver gamma mm cu cv offsets c prng) ms = .returned r rest ↔
      zk.offsetsFit offsets c = true ∧ ∃ u, cu = some u ∧ ∃ v, cv = some v ∧
        ∃ buffer, ms = buffer :: rest ∧ buffer.length = 5 * primeBytes ∧
          (zk.accepts ver { gamma, mm, cu := u, cv := v, offsets, c }
            (Prng.ofSeed expand prng.getBlock.1) buffer, prng.skip 16) = r := by
  unfold verify verifyOr sendBlock uncaught
  simp only [feed_recvBytesOr_returned, feed_require_returned, feed_ofOption_returned,
    Proc.put_bind, feed_send, Proc.pure_eq, feed_ret_returned, feed_fault, reduceCtorEq, and_false,
    or_false]
  constructor
  · rintro ⟨hfit, u, rfl, v, rfl, buffer, tail, rfl, hlen, hr, rfl⟩
    exact ⟨hfit, u, rfl, v, rfl, buffer, rfl, hlen, hr⟩
  · rintro ⟨hfit, u, rfl, v, rfl, buffer, rfl, hlen, hr⟩
    exact ⟨hfit, u, rfl, v, rfl, buffer, _, rfl, hlen, hr, rfl⟩

/-- **`verify` under `macoro::wrap`**: a proof of another length is one that is not accepted. -/
theorem feed_verifyOr_wrapped {ver : ZkVerifier F} {gamma mm : Nat → F} {cu cv : Option F}
    {offsets : List F} {c : Bytes} {r : Bool × Prng} :
    feed (zk.verifyOr expand wrapped ver gamma mm cu cv offsets c prng) ms = .returned r rest ↔
      zk.offsetsFit offsets c = true ∧ ∃ u, cu = some u ∧ ∃ v, cv = some v ∧
        ∃ buffer, ms = buffer :: rest ∧
          (decide (buffer.length = 5 * primeBytes) &&
              zk.accepts ver { gamma, mm, cu := u, cv := v, offsets, c }
                (Prng.ofSeed expand prng.getBlock.1) buffer, prng.skip 16) = r := by
  unfold verifyOr sendBlock wrapped
  simp only [feed_recvBytesOr_returned, feed_require_returned, feed_ofOption_returned,
    Proc.put_bind, feed_send, Proc.pure_eq, feed_ret_returned]
  constructor
  · rintro ⟨hfit, u, rfl, v, rfl, buffer, tail, rfl, ⟨hlen, rfl, rfl⟩ | ⟨hlen, rfl, rfl⟩⟩
    · refine ⟨hfit, u, rfl, v, rfl, buffer, rfl, ?_⟩
      rw [decide_eq_true hlen, Bool.true_and]
      rfl
    · refine ⟨hfit, u, rfl, v, rfl, buffer, rfl, ?_⟩
      rw [decide_eq_false hlen, Bool.false_and]
      rfl
  · rintro ⟨hfit, u, rfl, v, rfl, buffer, rfl, rfl⟩
    refine ⟨hfit, u, rfl, v, rfl, buffer, _, rfl, ?_⟩
    by_cases hlen : buffer.length = 5 * primeBytes
    · rw [decide_eq_true hlen, Bool.true_and]
      exact Or.inl ⟨hlen, rfl, rfl⟩
    · rw [decide_eq_false hlen, Bool.false_and]
      exact Or.inr ⟨hlen, rfl, rfl⟩

end

end

end ZkParams

end HocusPocus
