import HocusPocus.Oprf.Abort
import HocusPocus.Oprf.Honest

/-!
# The OPRF end to end

`eval` against `blindedEval`, from the commitment to the output.

* `eval_correct`: once the client's generator gives `k` distinct indices, the client ends with
  `true` and an output that depends on the powers `D` and the input only.
* `not_runs_of_indices`: a generator that never does leaves the client in phase 5 for ever.
-/

namespace HocusPocus.OPRF

open Machine Duplex FieldOps FastResidue Finset

section

variable {o : OPRF Fp} {expand : Block → Nat → UInt8} {blake2 : Bytes → Bytes32}
  {symBufLen fuel : Nat} {x : Bytes} {output : Bytes32} {Key : Fp} {a bOt : Nat → Block}
  {points : Nat → Nat} {prng serverPrng : Prng}

/-! ## The values of the run -/

/-- `state` of the prover. -/
def honestState (o : OPRF Fp) (expand : Block → Nat → UInt8) (Key : Fp) (bOt : Nat → Block)
    (prng : Prng) : Nat → Poly Fp 1 :=
  o.zk.proverState (o.wAt Key (serverV prng) (o.serverB prng) (o.serverRu prng) (o.serverRv prng))
    (o.serverZkp expand bOt).u (afterDraws prng (o.lenEval + 2 + o.k))

/-- The members of the verifier. -/
def honestVerifier (o : OPRF Fp) (expand : Block → Nat → UInt8) (Key : Fp) (a bOt : Nat → Block)
    (points : Nat → Nat) (prng : Prng) : ZkVerifier Fp :=
  o.zk.honestVerifier
    (o.wAt Key (serverV prng) (o.serverB prng) (o.serverRu prng) (o.serverRv prng))
    (o.serverZkp expand bOt).u (o.serverZkp expand bOt).v (o.clientZkp expand a points).o
    (o.clientZkp expand a points).h (afterDraws prng (o.lenEval + 2 + o.k))

/-- What VOLE+ leaves the client with. -/
def honestPlus (o : OPRF Fp) (Key h : Fp) (gamma : Nat → Fp) (prng : Prng) : VolePlusOutput Fp :=
  o.volePlus.honestOutput (o.serverU Key (serverV prng)) (serverV prng) gamma (o.serverRu prng)
    (o.serverRv prng) h

/-- The statement the server proves. -/
def provedStatement (o : OPRF Fp) (Key : Fp) (gamma : Nat → Fp) (prng : Prng) (c : Bytes) :
    Statement Fp :=
  { gamma
    mm := o.serverOpening Key (o.serverB prng) c
    cu := sumLoop o.lenEval (o.serverRu prng) fun i =>
      gamma i * o.serverU Key (serverV prng) i
    cv := sumLoop o.lenEval (o.serverRv prng) fun i => gamma i * serverV prng i
    offsets := o.offsets
    c }

/-! ## The proof of the server -/

/-- The members of the client are MACs on the coefficients of the server. -/
theorem honest_macs (hset : o.Supported) (hp : o.Punctured a bOt points) {j : Nat}
    (hj : j < o.zk.voleLen) :
    (o.honestVerifier expand Key a bOt points serverPrng).state j
      = (o.honestState expand Key bOt serverPrng j).coefs 0
        + (o.honestVerifier expand Key a bOt points serverPrng).Delta
          * (o.honestState expand Key bOt serverPrng j).coefs 1 :=
  have hbits : o.smallSetBits ≤ 12 := hset.bits_le.trans (by norm_num)
  ZkParams.keys_eq (fun i hi j _ => zkp_correlation hp hset.le_bits hbits hi j) hj

/-- **The statement of the server is true**: the degree-1 coefficients are the witness wherever a
constraint reads them. -/
theorem honest_foldedSum (hset : o.Supported) (hs : o.HonestServer Key serverPrng)
    (gamma : Nat → Fp) (c : Bytes) (challenges : Nat → Fp) :
    o.zk.foldedSum
      (o.honestStatement Key (serverV serverPrng) (o.serverB serverPrng) gamma
        (o.serverRu serverPrng) (o.serverRv serverPrng) c)
      (fun j => (o.honestState expand Key bOt serverPrng j).coefs 1) challenges = 0 := by
  have hr : ∀ i < 10, (draw serverPrng i : Fp) ≠ 0 := fun i hi =>
    hs.v_ne i (by rw [hset.lenEval]; exact hi)
  refine o.zk.foldedSum_eq_zero _ fun i h1 hi => ?_
  have hw : ∀ j < maskPos, (o.honestState expand Key bOt serverPrng j).coefs 1
      = o.wAt Key (serverV serverPrng) (o.serverB serverPrng) (o.serverRu serverPrng)
          (o.serverRv serverPrng) j := fun j hj => if_pos hj
  rw [o.zk.constraint_congr _ hset.lenEval hset.k hw]
  exact honest_constraint hset.lenEval hset.k hr (fun i _ => serverV_eq i) h1 hi

/-! ## The phases, from the last one on

The values `o` of the client are free here: no check reads them. -/

section

variable {values : List Fp} {packed : Bytes}

/-- The proof says nothing of `o`. -/
theorem runs_verify_honest (hset : o.Supported) (hp : o.Punctured a bOt points)
    (hs : o.HonestServer Key serverPrng) {gamma : Nat → Fp} {c : Bytes}
    (hfit : o.zk.offsetsFit o.offsets c = true) (h : Fp) (prng : Prng) :
    Runs
      (o.zk.verifyOr expand wrapped (o.honestVerifier expand Key a bOt points serverPrng) gamma
        (readFe25519 (o.openings Key (o.serverB serverPrng) c))
        (o.honestPlus Key h gamma serverPrng).cu (o.honestPlus Key h gamma serverPrng).cv o.offsets
        c prng)
      (o.zk.proveOr expand (o.honestState expand Key bOt serverPrng)
        (o.provedStatement Key gamma serverPrng c) wrapped)
      (true, prng.skip 16) () := by
  have hfits : o.zk.offsetsFit
      (o.honestStatement Key (serverV serverPrng) (o.serverB serverPrng) gamma
        (o.serverRu serverPrng) (o.serverRv serverPrng) c).offsets c = true := hfit
  have hrun := o.zk.runs_verify_prove expand wrapped wrapped
    (o.honestState expand Key bOt serverPrng)
    (o.honestVerifier expand Key a bOt points serverPrng) hfits prng
  rw [o.zk.accepts_proof hset.lenEval hset.k (fun j hj => honest_macs hset hp hj)
    (honest_foldedSum hset hs gamma c _)] at hrun
  have hprove : o.zk.proveOr expand (o.honestState expand Key bOt serverPrng)
        (o.provedStatement Key gamma serverPrng c) wrapped
      = o.zk.proveOr expand (o.honestState expand Key bOt serverPrng)
          (o.honestStatement Key (serverV serverPrng) (o.serverB serverPrng) gamma
            (o.serverRu serverPrng) (o.serverRv serverPrng) c) wrapped :=
    o.zk.proveOr_congr expand _ _ _ rfl rfl rfl
  rw [hprove]
  exact hrun

/-- **Phases 7 and 8**, with the transcript that the values make. -/
theorem runs_evalVerify (hset : o.Supported) (hp : o.Punctured a bOt points)
    (hs : o.HonestServer Key serverPrng)
    (htranscript : o.transcript symBufLen (readSymbol (o.packedSymbols Key)) values x
      = some packed) {gamma : Nat → Fp} {c : Bytes}
    (hfit : o.zk.offsetsFit o.offsets c = true) (h : Fp) (prng : Prng) :
    Runs
      (o.evalVerify expand blake2 symBufLen x output
        (o.honestVerifier expand Key a bOt points serverPrng)
        { o.honestPlus Key h gamma serverPrng with o := values }
        (readSymbol (o.packedSymbols Key)) c
        (readFe25519 (o.openings Key (o.serverB serverPrng) c)) prng)
      (o.zk.proveOr expand (o.honestState expand Key bOt serverPrng)
        (o.provedStatement Key gamma serverPrng c) wrapped)
      (true, blake2 packed) () := by
  unfold evalVerify
  rw [← bind_pure (o.zk.proveOr expand _ _ _)]
  refine (runs_verify_honest hset hp hs hfit h prng).bind ?_
  simp only [if_true]
  rw [htranscript]
  exact runs_ret _ _

/-- `blindedEval` from phase 5 on, with the `gamma` that `send` has assigned. -/
def serverChallenge (o : OPRF Fp) (expand : Block → Nat → UInt8) (Key : Fp) (bOt : Nat → Block)
    (prng : Prng) (gamma : Nat → Fp) : Party Unit := do
  let c ← recvBytes o.k
  Proc.require .outOfBounds ((List.range o.k).all fun i =>
    o.lenEval + (c.getD i 0).toNat < o.offsets.length)
  Proc.put (o.openings Key (o.serverB prng) c)
  o.zk.proveOr expand (o.honestState expand Key bOt prng) (o.provedStatement Key gamma prng c)
    wrapped

/-- Phases 5 and 6: the challenge is drawn, and every opening has the symbol it should. -/
theorem runs_evalChallenge (hset : o.Supported) (hp : o.Punctured a bOt points)
    (hs : o.HonestServer Key serverPrng)
    (htranscript : o.transcript symBufLen (readSymbol (o.packedSymbols Key)) values x
      = some packed) {gamma : Nat → Fp} (h : Fp)
    (hdistinct : o.k ≤ (indices o.lenCom prng fuel).card) :
    Runs
      (o.evalChallenge expand blake2 symBufLen fuel x output
        (o.honestVerifier expand Key a bOt points serverPrng)
        { o.honestPlus Key h gamma serverPrng with o := values }
        (readSymbol (o.packedSymbols Key)) prng)
      (o.serverChallenge expand Key bOt serverPrng gamma) (true, blake2 packed) () := by
  have hcom := hset.le_lenCom
  obtain ⟨⟨c, prng'⟩, hdraw⟩ :=
    Option.isSome_iff_exists.mp ((drawChallenge_isSome_iff fuel prng).mpr hdistinct)
  obtain ⟨-, hlen, hlt⟩ := drawChallenge_spec (by omega) List.nodup_nil (Nat.zero_le _)
    (List.forall_mem_nil _) hdraw
  obtain ⟨hfit, hread⟩ := challenge_fits hset.offsets_length hset.lenCom_le hlen hlt
  have hindex : ((List.range o.k).all fun i =>
      o.lenEval + ((c.map UInt8.ofNat).getD i 0).toNat < o.offsets.length) = true := by
    rw [ZkParams.offsetsFit, Bool.and_eq_true] at hfit
    exact hfit.2
  unfold evalChallenge serverChallenge
  rw [hdraw]
  simp only [Proc.ofOption_some, Proc.ret_bind]
  refine runs_put_recv (by rw [List.length_map, hlen]) ?_
  rw [hindex]
  simp only [Proc.require_true, Proc.ret_bind]
  refine runs_recv_put length_openings ?_
  rw [hs.openingsMatch hread]
  simp only [if_true]
  exact runs_evalVerify hset hp hs htranscript hfit h prng'

/-- **Phases 4 to 8.** -/
theorem runs_evalSymbols (hset : o.Supported) (hp : o.Punctured a bOt points)
    (hs : o.HonestServer Key serverPrng)
    (htranscript : o.transcript symBufLen (readSymbol (o.packedSymbols Key)) values x
      = some packed) {gamma : Nat → Fp} (h : Fp)
    (hdistinct : o.k ≤ (indices o.lenCom prng fuel).card) :
    Runs
      (o.evalSymbols expand blake2 symBufLen fuel x output
        (o.honestVerifier expand Key a bOt points serverPrng)
        { o.honestPlus Key h gamma serverPrng with o := values } prng)
      (Proc.put (o.packedSymbols Key) >>= fun _ =>
        o.serverChallenge expand Key bOt serverPrng gamma) (true, blake2 packed) () := by
  unfold evalSymbols
  refine runs_recv_put length_packedSymbols ?_
  simp only [hs.symbolsNonzero, if_true]
  exact runs_evalChallenge hset hp hs htranscript h hdistinct

end

/-! ## The whole run -/

/-- A run of the two parties: three seeds of the client, 48 bytes, come before the challenge. -/
theorem runs_eval (hset : o.Supported) (hbuf : symbolBytes ≤ symBufLen)
    (hp : o.Punctured a bOt points) (hs : o.HonestServer Key serverPrng)
    (hdistinct : o.k ≤ (indices o.lenCom (prng.skip 48) fuel).card) :
    Runs (o.eval expand blake2 symBufLen fuel x output a points prng)
      (o.blindedEval expand Key bOt serverPrng)
      (true, blake2 (o.powersTranscript Key (hashInput blake2 x) x)) () := by
  have hbits : o.smallSetBits ≤ 12 := hset.bits_le.trans (by norm_num)
  have hguard : o.offsets.any (FieldOps.eq Key) = false := by
    refine List.any_eq_false.mpr fun l hl => ?_
    rw [Exact.eq_eq, decide_eq_true_eq]
    rintro rfl
    exact hs.guard hl
  have htranscript : o.transcript symBufLen (readSymbol (o.packedSymbols Key))
      ((List.range o.lenEval).map fun j => o.serverU Key (serverV serverPrng) j
        + hashInput blake2 x * serverV serverPrng j) x
      = some (o.powersTranscript Key (hashInput blake2 x) x) :=
    honest_transcript hbuf hs.v_ne fun i _ => serverV_eq i
  unfold eval blindedEval
  rw [hguard]
  simp only [Bool.false_eq_true, if_false]
  refine Runs.bind (ZkParams.commit_honest expand wrapped hset.lenEval hset.k hset.multipliersFit
    (fun i hi j _ => zkp_correlation hp hset.le_bits hbits hi j) prng _) ?_
  simp only [if_true]
  refine Runs.bind (VolePlus.run_honest expand wrapped wrapped
    (fun i hi j _ => vole_correlation hp hset.le_bits hbits hi j) (prng.skip 16)) ?_
  rw [packAll_symbols]
  exact runs_evalSymbols hset hp hs htranscript (hashInput blake2 x) hdistinct

/-- **A generator without enough distinct indices** keeps the client from ever ending with `true`,
whoever the server is. -/
theorem not_runs_of_indices (hfew : ∀ fuel, (indices o.lenCom (prng.skip 48) fuel).card < o.k)
    {q : Party Unit} {out : Bytes32} :
    ¬ Runs (o.eval expand blake2 symBufLen fuel x output a points prng) q (true, out) () := by
  intro hrun
  obtain ⟨ms, hfeed⟩ := hrun.feed_left
  obtain ⟨_, _, _, _, _, _, _, _, _, c, prng', _, _, -, -, -, -, hdrawn, -, -, -, -, -⟩ :=
    allChecks_of_eval hfeed
  have hsome := (drawChallenge_isSome_iff fuel (prng.skip 48)).mp
    (Option.isSome_iff_exists.mpr ⟨_, hdrawn⟩)
  have hfew := hfew fuel
  omega

end

/-- **The OPRF end to end**: whenever the client's generator gives `k` distinct indices within the
draws of phase 5, every schedule ends with `true` and the output of the powers `D` and the input. -/
theorem eval_correct (o : OPRF Fp) (expand : Block → Nat → UInt8) (blake2 : Bytes → Bytes32)
    (symBufLen fuel : Nat) (x : Bytes) (output : Bytes32) (Key : Fp) (a bOt : Nat → Block)
    (points : Nat → Nat) (prng serverPrng : Prng) (hset : o.Supported)
    (hbuf : symbolBytes ≤ symBufLen) (hp : o.Punctured a bOt points)
    (hs : o.HonestServer Key serverPrng)
    (hdistinct : o.k ≤ (indices o.lenCom (prng.skip 48) fuel).card) :
    Completes (o.eval expand blake2 symBufLen fuel x output a points prng)
      (o.blindedEval expand Key bOt serverPrng)
      (true, blake2 (o.powersTranscript Key (hashInput blake2 x) x)) () :=
  (runs_eval hset hbuf hp hs hdistinct).completes

/-- A run that ends, with a generator that counts. -/
theorem eval_correct_example :
    let expand : Block → Nat → UInt8 := shiftedSeed
    let blake2 : Bytes → Bytes32 := fun bytes => Vector.replicate 32 (bytes.getD 0 7)
    let leaves : Nat → Block := fun i => Vector.replicate 16 (UInt8.ofNat i)
    Completes
      (sample.eval expand blake2 5 53 [1, 2] (Vector.replicate 32 0) leaves (fun _ => 0) counter)
      (sample.blindedEval expand 0 leaves ones)
      (true, blake2 (sample.powersTranscript 0 (hashInput blake2 [1, 2]) [1, 2])) () := by
  intro expand blake2 leaves
  exact eval_correct sample expand blake2 5 53 [1, 2] _ 0 leaves leaves _ counter ones
    sample_supported le_rfl (sample_punctured leaves) sample_server (by decide +kernel)

/-- **A run that never ends**: the client's generator gives the index 0 for ever. -/
theorem eval_stuck :
    let expand : Block → Nat → UInt8 := shiftedSeed
    let blake2 : Bytes → Bytes32 := fun bytes => Vector.replicate 32 (bytes.getD 0 7)
    let leaves : Nat → Block := fun i => Vector.replicate 16 (UInt8.ofNat i)
    let zeros : Prng := ⟨fun _ => 0, 0⟩
    (sample.Supported ∧ sample.offsets.Nodup ∧ sample.Punctured leaves leaves (fun _ => 0) ∧
        sample.HonestServer 0 ones) ∧
      ∀ fuel out, ¬ Runs
        (sample.eval expand blake2 5 fuel [1, 2] (Vector.replicate 32 0) leaves (fun _ => 0) zeros)
        (sample.blindedEval expand 0 leaves ones) (true, out) () := by
  intro expand blake2 leaves zeros
  refine ⟨⟨sample_supported, sample_nodup, sample_punctured leaves, sample_server⟩,
    fun fuel out => not_runs_of_indices fun fuel => ?_⟩
  have hconst : indices sample.lenCom (zeros.skip 48) fuel ⊆ {index sample.lenCom zeros 0} := by
    intro i hi
    obtain ⟨j, -, rfl⟩ := mem_image.mp hi
    exact mem_singleton.mpr rfl
  exact (card_le_card hconst).trans_lt (by decide)

end HocusPocus.OPRF
