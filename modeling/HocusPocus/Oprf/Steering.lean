import HocusPocus.Oprf.EndToEnd

/-!
# What acceptance does not bind

The server of VOLE+ learns `gamma` before it sends the second correction, and the correction is
where `u` and `v` come in. The masks `ru` and `rv` have the coefficient 1, so a server that changes
its `u` and `v` there and the masks with them leaves `cu` and `cv` as they were, and these are all
that the proof says of the `u` and `v` the client ends up with.

* `run_late`: VOLE+ with entries that depend on `gamma`.
* `steered_eval`: a server that chooses the values the client takes its evaluation symbols from.
-/

namespace HocusPocus

open Machine Duplex FieldOps FastResidue Finset

/-! ## VOLE+ -/

namespace VolePlus

/-- What the sender of VOLE+ puts in. -/
structure Entries where
  u : Nat → Fp
  v : Nat → Fp
  ru : Fp
  rv : Fp

section

variable (expand : Block → Nat → UInt8) {vp : VolePlus} {hi : Nat → Fp} {h : Fp}
  {ui vi oi : Nat → Nat → Fp}

/-- `VolePlus::send` of a sender that fixes its entries once it has `gamma`. -/
def sendLate (vp : VolePlus) (entries : (Nat → Fp) → Entries) (ui vi : Nat → Nat → Fp) :
    Party (Nat → Fp) := do
  Proc.put (vp.derandomisation vi)
  let gammaSeed ← recvBlock
  let gamma : Nat → Fp := vp.expandGamma expand gammaSeed
  Proc.put (vp.checkValues gamma ui vi)
  let buffer ← recvBytes (16 + primeBytes)
  let lambda : Nat → Fp := generateF25519VectorFromSeed expand (block 16 buffer 0)
  let deltaPrime : Fp := readFe25519 (buffer.drop 16) 0
  let e := entries gamma
  Proc.put (vp.corrections e.u e.v e.ru e.rv lambda deltaPrime ui vi)
  return gamma

/-- **The checks of VOLE+ do not see the entries**: they are over before the entries come. -/
theorem run_late (thrown : OnThrow (VolePlusOutput Fp × Prng))
    (hoi : ∀ i < vp.kVole, ∀ j ≤ vp.len, oi i j = ui i j + hi i * vi i j)
    (entries : (Nat → Fp) → Entries) (prng : Prng) :
    let gamma := vp.sessionGamma expand prng
    let e := entries gamma
    Runs (vp.receiveOr expand thrown h oi hi prng) (sendLate expand vp entries ui vi)
      (honestOutput vp e.u e.v gamma e.ru e.rv h, prng.skip 32) gamma := by
  intro gamma e
  have hchecks : vp.checks (vp.expandGamma expand prng.getBlock.1)
      (vp.correctRows oi hi (vp.derandomisation vi)) hi
      (vp.checkValues (vp.expandGamma expand prng.getBlock.1) ui vi) = true := by
    rw [checks, List.all_eq_true]
    exact fun i hik => checkRow_honest hoi (List.mem_range.mp hik)
  unfold receiveOr sendLate
  refine runs_recvOr_put ?_ ?_
  · rw [derandomisation, length_writeVecToBytes, length_grid, Nat.mul_assoc]
  refine runs_sendBlock_recvBlock ?_
  refine runs_recvOr_put ?_ ?_
  · rw [checkValues, length_writeVecToBytes]
    simp [Nat.mul_comm]
  simp only [hchecks, if_true]
  refine runs_put_recv (by simp [primeBytes]) ?_
  rw [block_append, List.drop_left' (by simp), readFe25519_pack]
  refine runs_recvOr_put ?_ ?_
  · rw [corrections, length_writeVecToBytes]
    simp
    ring
  rw [finish_honest hoi (expandGamma_last expand _)]
  exact runs_ret _ _

end

end VolePlus

/-! ## The server -/

namespace OPRF

section

variable {o : OPRF Fp} {expand : Block → Nat → UInt8} {blake2 : Bytes → Bytes32}
  {symBufLen fuel : Nat} {x : Bytes} {output : Bytes32} {Key : Fp} {a bOt : Nat → Block}
  {points : Nat → Nat} {prng serverPrng : Prng}

/-- The entries for the targets `u` and `v`, with the masks that hide the change. -/
def steeredEntries (o : OPRF Fp) (Key : Fp) (u v : Nat → Fp) (prng : Prng) (gamma : Nat → Fp) :
    VolePlus.Entries where
  u := u
  v := v
  ru := o.serverRu prng
    + ∑ j ∈ range o.lenEval, gamma j * (o.serverU Key (serverV prng) j - u j)
  rv := o.serverRv prng + ∑ j ∈ range o.lenEval, gamma j * (serverV prng j - v j)

/-- `blindedEval`, but for the entries of VOLE+: the commitment, the symbols, the openings and the
proof are those of the server that holds `Key`. -/
def steeredEval (o : OPRF Fp) (expand : Block → Nat → UInt8) (Key : Fp) (u v : Nat → Fp)
    (bOt : Nat → Block) (prng : Prng) : Party Unit := do
  let vole := o.serverVole expand bOt
  let zkp := o.serverZkp expand bOt
  let w := o.witness Key (serverV prng) (o.serverB prng) (o.serverRu prng) (o.serverRv prng)
  let (_, _) ← o.zk.proverCommitOr expand wrapped (fun i => w.getD i setZero) zkp.u zkp.v
    (afterDraws prng (o.lenEval + 2 + o.k))
  let gamma ← VolePlus.sendLate expand o.volePlus (o.steeredEntries Key u v prng) vole.u vole.v
  Proc.put (o.packedSymbols Key)
  o.serverChallenge expand Key bOt prng gamma

/-- What VOLE+ leaves the client with: only `o` differs from a run with the honest server. -/
theorem steered_plus (u v gamma : Nat → Fp) (h : Fp) :
    let e := o.steeredEntries Key u v serverPrng gamma
    o.volePlus.honestOutput e.u e.v gamma e.ru e.rv h
      = { o.honestPlus Key h gamma serverPrng with
          o := (List.range o.lenEval).map fun j => u j + h * v j } := by
  have hcancel : ∀ (r : Fp) (s t : Nat → Fp),
      r + ∑ j ∈ range o.lenEval, gamma j * (s j - t j) + ∑ j ∈ range o.lenEval, gamma j * t j
        = r + ∑ j ∈ range o.lenEval, gamma j * s j := by
    intro r s t
    rw [add_assoc, ← sum_add_distrib]
    exact congrArg (r + ·) (sum_congr rfl fun j _ => by ring)
  have hcu := hcancel (o.serverRu serverPrng) (o.serverU Key (serverV serverPrng)) u
  have hcv := hcancel (o.serverRv serverPrng) (serverV serverPrng) v
  exact congrArg₂ (fun cu cv => VolePlusOutput.mk _ gamma (some cu) (some cv)) hcu hcv

/-- The transcript with the symbols of other values. -/
theorem transcript_values (hbuf : symbolBytes ≤ symBufLen) (f : Nat → Fp) :
    o.transcript symBufLen (readSymbol (o.packedSymbols Key)) ((List.range o.lenEval).map f) x
      = some (o.packed (o.serverSymbol Key) (fun j => symPrime (f j)) x) := by
  rw [transcript_eq hbuf (by simp)]
  refine congrArg some (packed_congr (fun i hi => readSymbol_packedSymbols hi) fun i hi => ?_)
  rw [List.getD_eq_getElem _ _ (by simpa using hi), List.getElem_map, List.getElem_range]

end

/-- **Acceptance does not bind the evaluation symbols**: for all values `u` and `v` there is a
server that every schedule of `eval` ends with `true` against, and with the output made from the
symbols of `u j + h * v j` in the place of those of the key. -/
theorem steered_eval (o : OPRF Fp) (expand : Block → Nat → UInt8) (blake2 : Bytes → Bytes32)
    (symBufLen fuel : Nat) (x : Bytes) (output : Bytes32) (Key : Fp) (a bOt : Nat → Block)
    (points : Nat → Nat) (prng serverPrng : Prng) (u v : Nat → Fp) (hset : o.Supported)
    (hbuf : symbolBytes ≤ symBufLen) (hp : o.Punctured a bOt points)
    (hs : o.HonestServer Key serverPrng)
    (hdistinct : o.k ≤ (indices o.lenCom (prng.skip 48) fuel).card) :
    Completes (o.eval expand blake2 symBufLen fuel x output a points prng)
      (o.steeredEval expand Key u v bOt serverPrng)
      (true, blake2 (o.packed (o.serverSymbol Key)
        (fun j => symPrime (u j + hashInput blake2 x * v j)) x)) () := by
  have hbits : o.smallSetBits ≤ 12 := hset.bits_le.trans (by norm_num)
  refine Runs.completes ?_
  unfold eval steeredEval
  refine Runs.bind (ZkParams.commit_honest expand wrapped hset.lenEval hset.k hset.multipliersFit
    (fun i hi j _ => zkp_correlation hp hset.le_bits hbits hi j) prng _) ?_
  simp only [if_true]
  refine Runs.bind (VolePlus.run_late expand wrapped
    (fun i hi j _ => vole_correlation hp hset.le_bits hbits hi j)
    (o.steeredEntries Key u v serverPrng) (prng.skip 16)) ?_
  rw [steered_plus]
  exact runs_evalSymbols hset hp hs (transcript_values hbuf _) (hashInput blake2 x) hdistinct

/-- The output of a server that gives every client the value 3, whatever its key and its input. -/
theorem steered_eval_example :
    let expand : Block → Nat → UInt8 := shiftedSeed
    let blake2 : Bytes → Bytes32 := fun bytes => Vector.replicate 32 (bytes.getD 0 7)
    let leaves : Nat → Block := fun i => Vector.replicate 16 (UInt8.ofNat i)
    Completes
      (sample.eval expand blake2 5 53 [1, 2] (Vector.replicate 32 0) leaves (fun _ => 0) counter)
      (sample.steeredEval expand 0 (fun _ => 3) (fun _ => 0) leaves ones)
      (true, blake2 (sample.packed (sample.serverSymbol 0)
        (fun j => symPrime ((fun _ => 3 : Nat → Fp) j
          + hashInput blake2 [1, 2] * (fun _ => 0 : Nat → Fp) j)) [1, 2])) () := by
  intro expand blake2 leaves
  exact steered_eval sample expand blake2 5 53 [1, 2] _ 0 leaves leaves _ counter ones
    (fun _ => 3) (fun _ => 0) sample_supported le_rfl (sample_punctured leaves) sample_server
    (by decide +kernel)

end OPRF

end HocusPocus
