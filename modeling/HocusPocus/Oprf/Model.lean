import HocusPocus.FastResidue
import HocusPocus.SmallSetVole
import HocusPocus.VolePlus
import HocusPocus.Zkp.Model

/-!
# The OPRF (`OPRF.h`)

`OPRF::eval` of the client (lines 153 to 385) and `OPRF::blindedEval` of the server (394 to 612),
from the leaves of the puncturable PRF on. `Oprf/Setup.lean` puts the oblivious transfers and the
puncturable PRF in front of them (client lines 193 to 214, server lines 405 to 428). `blake2` and
`expand` are parameters.

`eval` ends with its result and the output buffer; the loop that draws the challenge runs on fuel,
and the length of the local `sym_buf` is an argument (`symBufBytes` in the source).

## Wrapped sub-protocols

`eval` runs `VolePlus::receive` (line 260) and `verify` (line 343) under
`sync_wait(macoro::wrap(..))` and does not look at what `wrap` returns; `blindedEval` does the same
with `commit_to_witness` (528), `VolePlus::send` (539) and `prove` (607). An exception inside them
is dropped, and the run goes on with the out-parameters as they are: `wrapped` of `VoleUtils.lean`.
The `commit_to_witness` of the verifier (239) and the plain `chl.send` and `chl.recv` are not
wrapped, so an exception there ends the run.

* What a `recv` does with a message of another length is a matter of coproto, whose code is not in
  the repository: it takes the message, throws, and leaves the channel open.
* Out-parameters that are still unassigned are read later: `verify` reads `cu` and `cv` before its
  only `recv`, and `blindedEval` reads `gamma[i]` in phase 7. Both reads are faults here.

## Out of scope

* What the PRINT_PHASE macro prints and counts, and the texts of the aborts.
* The symbols `eps` and `eps_prime` and the byte widths the constructor copies from
  `FastResidue25519`; they are constants here, too.
* The output buffer is a value that `eval` returns; a caller that passes fewer than 32 bytes is not
  modelled.
* Draws are reads of the byte stream of the generator. That the bytes are random is an assumption of
  the results that say so, never of the model.

## Results

* `new_offsets`: the constructor's offsets are distinct.
-/

namespace HocusPocus

open Machine Duplex FieldOps FastResidue

/-- The length of `sym_buf` in `OPRF::eval`. -/
def symBufBytes : Nat := 4

/-- `class OPRF`: its parameters and the public offsets `(l', l)`. -/
structure OPRF (F : Type) where
  lenEval : Nat
  lenCom : Nat
  k : Nat
  statisticalSecurityBits : Nat
  smallSetBits : Nat
  offsets : List F

namespace OPRF

section

variable {F : Type} [FieldOps F] (expand : Block → Nat → UInt8) (blake2 : Bytes → Bytes32)

/-! ## The constructor -/

/-- `do random_fe25519(&offsets[i], offset_prng) while (collision)`. -/
def drawOffset (offsets : List F) : Nat → Prng → Option (F × Prng)
  | 0, _ => none
  | fuel + 1, prng =>
    let drawn := randomFe25519 prng
    if offsets.any (FieldOps.eq drawn.1) then drawOffset offsets fuel drawn.2 else some drawn

/-- The first `n` offsets; each may take `fuel` draws. -/
def drawOffsets (fuel : Nat) : Nat → Prng → Option (List F × Prng)
  | 0, prng => some ([], prng)
  | n + 1, prng => do
    let (offsets, prng) ← drawOffsets fuel n prng
    let (offset, prng) ← drawOffset offsets fuel prng
    return (offsets ++ [offset], prng)

/-- The constructor. -/
def new (fuel lenEval lenCom k statisticalSecurityBits smallSetBits : Nat) :
    Option (OPRF F) := do
  let offsetPrng := Prng.ofSeed expand (Vector.replicate 16 0)
  let (offsets, _) ← drawOffsets fuel (lenCom + lenEval) offsetPrng
  return { lenEval, lenCom, k, statisticalSecurityBits, smallSetBits, offsets }

variable (o : OPRF F)

/-- The member `volePlus`. -/
def volePlus : VolePlus := .new o.lenEval o.smallSetBits o.statisticalSecurityBits

/-- The parameters of the members `prover` and `verifier`. -/
def zk : ZkParams := ⟨o.lenEval, o.k, o.smallSetBits, o.statisticalSecurityBits⟩

/-- `offsets[i]`. -/
def offset (i : Nat) : F := o.offsets.getD i setZero

/-! ## `OPRF::eval` -/

/-- Phase 0: the slow hash of the input. -/
def slowHash (x : Bytes) : Bytes32 :=
  (List.range (2 ^ 16)).foldl (fun hashed i =>
    let hashed := xorAt hashed 0 (UInt8.ofNat i)
    let hashed := xorAt hashed 1 (UInt8.ofNat (i / 256))
    blake2 hashed.toList) (blake2 x)

/-- The hashed input `h`. -/
def hashInput (x : Bytes) : F := unpack (slowHash blake2 x)

/-- Phase 5: indices are drawn until `k` distinct ones are there. -/
def drawChallenge (lenCom k : Nat) : Nat → List Nat → Prng → Option (List Nat × Prng)
  | 0, c, prng => if c.length < k then none else some (c, prng)
  | fuel + 1, c, prng =>
    if c.length < k then
      let idx := prng.getU32.1 % lenCom
      let prng := prng.getU32.2
      if c.contains idx then drawChallenge lenCom k fuel c prng
      else drawChallenge lenCom k fuel (c ++ [idx]) prng
    else some (c, prng)

/-- One symbol into `sym_buf` and from there to the end of the transcript. -/
def appendSymbol (acc : Bytes × Bytes) (symbol : UInt64) : Option (Bytes × Bytes) := do
  let symBuf ← FastResidue.pack acc.2 0 symbol
  return (acc.1 ++ symBuf.take symbolBytes, symBuf)

/-- `uint32_t sym_prime`, as the argument of `pack`. -/
def symPrime (val : F) : UInt64 := (presidueEpsPrime val).toUInt32.toUInt64

/-- Phase 8: the transcript that is hashed. -/
def transcript (symBufLen : Nat) (e : Nat → UInt64) (ovec : List F) (x : Bytes) :
    Option Bytes := do
  let acc ← (List.range o.lenCom).foldlM (fun acc i => appendSymbol acc (e i))
    ([], List.replicate symBufLen 0)
  let acc ← (List.range o.lenEval).foldlM
    (fun acc i => do appendSymbol acc (symPrime (← ovec[i]?))) acc
  return acc.1 ++ x

section

variable (symBufLen fuel : Nat) (x : Bytes) (output : Bytes32)

/-- Phases 7 and 8. -/
def evalVerify (verifier : ZkVerifier F) (plus : VolePlusOutput F) (e : Nat → UInt64)
    (cBuf : Bytes) (m : Nat → F) (prng : Prng) : Party (Bool × Bytes32) := do
  let (valid, _) ←
    o.zk.verifyOr expand wrapped verifier plus.gamma m plus.cu plus.cv o.offsets cBuf prng
  if valid then
    let transcript ← Proc.ofOption .outOfBounds (o.transcript symBufLen e plus.o x)
    return (true, blake2 transcript)
  else
    return (false, output)

/-- The check of phase 6. -/
def openingsMatch (e : Nat → UInt64) (c : List Nat) (m : Nat → F) : Bool :=
  (List.range o.k).all fun i => presidueEps (m i) == e (c.getD i 0)

/-- Phases 5 and 6. -/
def evalChallenge (verifier : ZkVerifier F) (plus : VolePlusOutput F) (e : Nat → UInt64)
    (prng : Prng) : Party (Bool × Bytes32) := do
  let (c, prng) ← Proc.ofOption .outOfFuel (drawChallenge o.lenCom o.k fuel [] prng)
  let cBuf := c.map UInt8.ofNat
  Proc.put cBuf
  let mBuf ← recvBytes (o.k * primeBytes)
  let m : Nat → F := readFe25519 mBuf
  if o.openingsMatch e c m then
    o.evalVerify expand blake2 symBufLen x output verifier plus e cBuf m prng
  else
    return (false, output)

/-- The check of phase 4. -/
def symbolsNonzero (e : Nat → UInt64) : Bool := (List.range o.lenCom).all fun i => e i != 0

/-- `e[i]` from the buffer of phase 4. -/
def readSymbol (buffer : Bytes) (i : Nat) : UInt64 := FastResidue.unpack buffer (i * symbolBytes)

/-- Phases 4 to 8. -/
def evalSymbols (verifier : ZkVerifier F) (plus : VolePlusOutput F) (prng : Prng) :
    Party (Bool × Bytes32) := do
  let buffer ← recvBytes (o.lenCom * symbolBytes)
  let e := readSymbol buffer
  if o.symbolsNonzero e then
    o.evalChallenge expand blake2 symBufLen fuel x output verifier plus e prng
  else
    return (false, output)

/-- `oi_vole` and `hi_vole`. -/
def clientVole (a : Nat → Block) (points : Nat → Nat) : ReceiverRows F :=
  SmallSetVoleReceiver25519.receive expand o.smallSetBits a o.zk.kVole points

/-- `oi_zkp` and `hi_zkp`. -/
def clientZkp (a : Nat → Block) (points : Nat → Nat) : ReceiverRows F :=
  SmallSetVoleReceiver25519.receive expand o.smallSetBits a 0 points

/-- `OPRF::eval`, with the leaves `a` and the points of the puncturable PRF. -/
def eval (a : Nat → Block) (points : Nat → Nat) (prng : Prng) : Party (Bool × Bytes32) := do
  let h : F := hashInput blake2 x
  let vole := o.clientVole expand a points
  let zkp := o.clientZkp expand a points
  let (good, verifier, prng) ← o.zk.verifierCommit expand zkp.o zkp.h prng
  if good then
    -- neither a failed check inside `receive` nor an exception is looked at
    let (plus, prng) ← o.volePlus.receiveOr expand wrapped h vole.o vole.h prng
    o.evalSymbols expand blake2 symBufLen fuel x output verifier plus prng
  else
    return (false, output)

end

/-! ## `OPRF::blindedEval` -/

/-- `v_i`, an `eps'`-th power. -/
def serverV (prng : Prng) (i : Nat) : F := fastPowEps (draw prng i)

/-- `ru`. -/
def serverRu (prng : Prng) : F := draw prng o.lenEval

/-- `rv`. -/
def serverRv (prng : Prng) : F := draw prng (o.lenEval + 1)

/-- `b_i`, an `eps`-th power. -/
def serverB (prng : Prng) (i : Nat) : F := fastPowEps (draw prng (o.lenEval + 2 + i))

/-- `u_i`. -/
def serverU (Key : F) (v : Nat → F) (i : Nat) : F := reduceAddSub (Key + o.offset i) * v i

/-- The loop `c *= v[start + i]` from one. -/
def product (v : Nat → F) (start n : Nat) : F :=
  (List.range n).foldl (fun c i => c * v (start + i)) setOne

/-- `y_n`, with `y_0 = a`; the source keeps `y_1` to `y_8` in `y[0]` to `y[7]`. -/
def yPower (a : F) : Nat → F
  | 0 => a
  | n + 1 => pow5 (yPower a n)

/-- `a0`. -/
def witnessA0 (a : F) : F :=
  yPower a 8 * yPower a 8 * yPower a 4 * yPower a 1 * yPower a 1

/-- `a1`. -/
def witnessA1 (a : F) : F := FieldOps.div (yPower a 1 * witnessA0 a) (a * a * yPower a 3)

/-- `w`: the key, `v`, `b`, and what is computed from them. -/
def witness (Key : F) (v b : Nat → F) (ru rv : F) : List F :=
  let a := powInvEpsPrime (product v 0 o.lenEval)
  Key :: ((List.range o.lenEval).map v ++ ((List.range o.k).map b ++ (ru :: rv :: a ::
    ((List.range 8).map (fun i => yPower a (i + 1)) ++
      [witnessA0 a, witnessA1 a, product v 0 5, product v 5 5]))))

/-- `e_i` of the server. -/
def serverSymbol (Key : F) (i : Nat) : UInt64 := presidueEps (Key + o.offset (i + o.lenEval))

/-- `m_i`. -/
def serverOpening (Key : F) (b : Nat → F) (c : Bytes) (i : Nat) : F :=
  b i * (Key + o.offset (o.lenEval + (c.getD i 0).toNat))

/-- `ui_vole` and `vi_vole`. -/
def serverVole (bOt : Nat → Block) : SenderRows F :=
  SmallSetVoleSender25519.send expand o.smallSetBits bOt o.zk.kVole

/-- `ui_zkp` and `vi_zkp`. -/
def serverZkp (bOt : Nat → Block) : SenderRows F :=
  SmallSetVoleSender25519.send expand o.smallSetBits bOt 0

/-- `OPRF::blindedEval`, with the leaves `b_ot` of the puncturable PRF. -/
def blindedEval (Key : F) (bOt : Nat → Block) (prng : Prng) : Party Unit := do
  let vole := o.serverVole expand bOt
  let zkp := o.serverZkp expand bOt
  if o.offsets.any (FieldOps.eq Key) then
    return ()
  else
    let v : Nat → F := serverV prng
    let u := o.serverU Key v
    let ru := o.serverRu prng
    let rv := o.serverRv prng
    let b := o.serverB prng
    let prng := afterDraws prng (o.lenEval + 2 + o.k)
    let w := o.witness Key v b ru rv
    let (state, _) ← o.zk.proverCommitOr expand wrapped (fun i => w.getD i setZero) zkp.u zkp.v prng
    let gamma ← o.volePlus.sendOr expand wrapped u v ru rv vole.u vole.v
    let packed_e ← Proc.ofOption .outOfBounds
      (packAll (o.serverSymbol Key) o.lenCom (List.replicate (o.lenCom * symbolBytes) 0))
    Proc.put packed_e
    let c ← recvBytes o.k
    Proc.require .outOfBounds ((List.range o.k).all fun i =>
      o.lenEval + (c.getD i 0).toNat < o.offsets.length)
    let m := o.serverOpening Key b c
    Proc.put (writeVecToBytes ((List.range o.k).map m))
    -- phase 7 reads `gamma[i]`, of a vector that `send` may have left empty
    let gamma ← Proc.ofOption .outOfBounds gamma
    let cu := sumLoop o.lenEval ru fun i => gamma i * u i
    let cv := sumLoop o.lenEval rv fun i => gamma i * v i
    o.zk.proveOr expand state { gamma, mm := m, cu, cv, offsets := o.offsets, c } wrapped

end

/-! ## The offsets are distinct -/

theorem drawOffset_notMem {offsets : List Fp} {fuel : Nat} {prng : Prng} {drawn : Fp × Prng}
    (h : drawOffset offsets fuel prng = some drawn) : drawn.1 ∉ offsets := by
  induction fuel generalizing prng with
  | zero => cases h
  | succ fuel ih =>
    unfold drawOffset at h
    simp only at h
    by_cases hcollision : offsets.any (FieldOps.eq (randomFe25519 prng : Fp × Prng).1) = true
    · rw [if_pos hcollision] at h
      exact ih h
    · rw [if_neg hcollision] at h
      obtain rfl := Option.some.inj h
      rintro hmem
      refine hcollision (List.any_eq_true.mpr ⟨_, hmem, ?_⟩)
      rw [Exact.eq_eq, decide_eq_true_eq]

/-- The last of the first `n + 1` offsets is drawn after the others. -/
theorem drawOffsets_succ {F : Type} [FieldOps F] {fuel n : Nat} {prng : Prng}
    {drawn : List F × Prng} (h : drawOffsets fuel (n + 1) prng = some drawn) :
    ∃ before, drawOffsets fuel n prng = some before ∧
      ∃ last, drawOffset before.1 fuel before.2 = some last ∧
        drawn = (before.1 ++ [last.1], last.2) := by
  unfold drawOffsets at h
  simp only [Option.bind_eq_bind, Option.bind_eq_some_iff, Option.pure_def, Option.some.injEq] at h
  obtain ⟨before, hbefore, last, hlast, rfl⟩ := h
  exact ⟨before, hbefore, last, hlast, rfl⟩

theorem drawOffsets_spec {fuel n : Nat} {prng : Prng} {drawn : List Fp × Prng}
    (h : drawOffsets fuel n prng = some drawn) : drawn.1.length = n ∧ drawn.1.Nodup := by
  induction n generalizing drawn with
  | zero =>
    obtain rfl := Option.some.inj h
    exact ⟨rfl, List.nodup_nil⟩
  | succ n ih =>
    obtain ⟨before, hbefore, last, hlast, rfl⟩ := drawOffsets_succ h
    obtain ⟨hlen, hnodup⟩ := ih hbefore
    constructor
    · rw [List.length_append, hlen, List.length_singleton]
    · rw [List.nodup_append]
      refine ⟨hnodup, List.nodup_singleton _, ?_⟩
      rintro l hl l' hl' rfl
      rw [List.mem_singleton] at hl'
      exact drawOffset_notMem hlast (hl' ▸ hl)

/-- **The constructor's offsets are distinct**, one for each symbol. -/
theorem new_offsets {expand : Block → Nat → UInt8} {fuel lenEval lenCom k bits stat : Nat}
    {o : OPRF Fp} (h : OPRF.new expand fuel lenEval lenCom k stat bits = some o) :
    o.offsets.length = o.lenCom + o.lenEval ∧ o.offsets.Nodup := by
  unfold OPRF.new at h
  simp only [Option.bind_eq_bind, Option.bind_eq_some_iff, Option.pure_def, Option.some.injEq] at h
  obtain ⟨drawn, hdrawn, rfl⟩ := h
  exact drawOffsets_spec hdrawn

end OPRF

end HocusPocus
