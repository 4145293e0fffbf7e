import HocusPocus.Oprf.EndToEnd
import HocusPocus.Zkp.Masking

/-!
# What the server sends to an arbitrary client (`OPRF::blindedEval`)

The eight messages of the server after the base OTs, to a client that has sent whatever it likes:
as a function of what the server draws and of the rows its leaves leave it with. The messages read
these rows inside their bounds only.

* `VolePlus.Moved.corrections_eq`: the rows that hide other inputs of VOLE+.
* `serverMessages_congr`: what the messages read.
* `sent_blindedEval`: they are what `blindedEval` sends.
-/

namespace HocusPocus

open Machine Duplex FieldOps FastResidue Finset

/-! ## What the messages of the parts read -/

theorem grid_congr {α : Type} {rows cols : Nat} {f g : Nat → Nat → α}
    (h : ∀ i < rows, ∀ j < cols, f i j = g i j) : grid rows cols f = grid rows cols g := by
  unfold grid
  refine List.flatMap_congr fun i hi => List.map_congr_left fun j hj => ?_
  exact h i (List.mem_range.mp hi) j (List.mem_range.mp hj)

namespace ZkParams

variable {zk : ZkParams} {state state' : Nat → Poly Fp 1} {ui ui' vi vi' : Nat → Nat → Fp}

theorem shifts_congr (hstate : ∀ j < zk.voleLen, state j = state' j)
    (hv : ∀ i < zk.kVole, ∀ j < zk.voleLen, vi i j = vi' i j) :
    zk.shifts state vi = zk.shifts state' vi' := by
  refine congrArg writeVecToBytes (grid_congr fun i hi j hj => ?_)
  rw [derandomised, derandomised, hstate j hj, hv i hi j hj]

theorem checkValues_congr (hcheck : checkPos < zk.voleLen)
    (hstate : ∀ j < zk.voleLen, state j = state' j)
    (hu : ∀ i < zk.kVole, ∀ j < zk.voleLen, ui i j = ui' i j) (checkGamma : Nat → Fp) :
    zk.checkValues state ui checkGamma = zk.checkValues state' ui' checkGamma := by
  have hcv : zk.checkCv state checkGamma = zk.checkCv state' checkGamma := by
    rw [checkCv_eq, checkCv_eq, hstate _ hcheck]
    refine congrArg _ (sum_congr rfl fun j hj => ?_)
    rw [hstate j (by have := mem_range.mp hj; omega)]
  have hcu : (List.range zk.kVole).map (zk.checkCu ui checkGamma)
      = (List.range zk.kVole).map (zk.checkCu ui' checkGamma) :=
    List.map_congr_left fun i hi => by
      have hi := List.mem_range.mp hi
      rw [checkCu_eq, checkCu_eq, hu i hi _ hcheck]
      refine congrArg _ (sum_congr rfl fun j hj => ?_)
      rw [hu i hi j (by have := mem_range.mp hj; omega)]
  rw [checkValues, checkValues, hcv, hcu]

theorem proof_congr (hleval : zk.leval = 10) (hk : zk.k = 53)
    (hstate : ∀ j < checkPos, state j = state' j) (stmt : Statement Fp) (rng : Prng) :
    zk.proof state stmt rng = zk.proof state' stmt rng := by
  have hfold : zk.proverFold state stmt rng = zk.proverFold state' stmt rng :=
    proverFold_congr hleval hk fun j hj => hstate j (by unfold checkPos; omega)
  unfold proof checkPoly proverMasks
  rw [hfold, hstate maskPos (by decide), hstate (maskPos + 1) (by decide),
    hstate (maskPos + 2) (by decide), hstate (maskPos + 3) (by decide)]

/-- The prover does not read `mm`, `cu` and `cv`. -/
theorem proof_statement {stmt stmt' : Statement Fp} (hgamma : stmt.gamma = stmt'.gamma)
    (hoffsets : stmt.offsets = stmt'.offsets) (hc : stmt.c = stmt'.c)
    (state : Nat → Poly Fp 1) (rng : Prng) :
    zk.proof state stmt rng = zk.proof state stmt' rng := by
  unfold proof
  rw [zk.checkPoly_statement state hgamma hoffsets hc]

end ZkParams

namespace VolePlus

variable {vp : VolePlus} {ui ui' vi vi' : Nat → Nat → Fp} {u u' v v' : Nat → Fp}

theorem derandomisation_congr (hv : ∀ i < vp.kVole, ∀ j ≤ vp.len, vi i j = vi' i j) :
    vp.derandomisation vi = vp.derandomisation vi' := by
  refine congrArg writeVecToBytes (grid_congr fun i hi j hj => ?_)
  rw [hv 0 (by omega) j (by omega), hv (i + 1) (by omega) j (by omega)]

theorem checkValues_congr (hrows : 0 < vp.kVole)
    (hu : ∀ i < vp.kVole, ∀ j ≤ vp.len, ui i j = ui' i j)
    (hv : ∀ i < vp.kVole, ∀ j ≤ vp.len, vi i j = vi' i j) (gamma : Nat → Fp) :
    vp.checkValues gamma ui vi = vp.checkValues gamma ui' vi' := by
  have hdot : ∀ {f g : Nat → Fp}, (∀ j ≤ vp.len, f j = g j) →
      dotProduct (vp.len + 1) gamma f = dotProduct (vp.len + 1) gamma g := fun hfg => by
    rw [Exact.dotProduct_eq, Exact.dotProduct_eq]
    exact sum_congr rfl fun j hj => by rw [hfg j (Nat.le_of_lt_succ (mem_range.mp hj))]
  have hcu : (List.range vp.kVole).map (fun i => dotProduct (vp.len + 1) gamma (ui i))
      = (List.range vp.kVole).map fun i => dotProduct (vp.len + 1) gamma (ui' i) :=
    List.map_congr_left fun i hi => hdot (hu i (List.mem_range.mp hi))
  rw [checkValues, checkValues, hcu, hdot (hv 0 hrows)]

theorem corrections_congr (hrows : 0 < vp.kVole)
    (hu : ∀ i < vp.kVole, ∀ j ≤ vp.len, ui i j = ui' i j)
    (hv : ∀ i < vp.kVole, ∀ j ≤ vp.len, vi i j = vi' i j) (hu' : ∀ j < vp.len, u j = u' j)
    (hv' : ∀ j < vp.len, v j = v' j) (ru rv : Fp) (lambda : Nat → Fp) (delta : Fp) :
    vp.corrections u v ru rv lambda delta ui vi
      = vp.corrections u' v' ru rv lambda delta ui' vi' := by
  have hsecond : ∀ j ≤ vp.len, vp.uPrime u ru lambda delta ui vi j
      = vp.uPrime u' ru lambda delta ui' vi' j ∧ vp.vPrime v rv vi j = vp.vPrime v' rv vi' j := by
    intro j hj
    have hsum : ∑ i ∈ range vp.kVole, lambda i * ui i j
        = ∑ i ∈ range vp.kVole, lambda i * ui' i j :=
      sum_congr rfl fun i hi => by rw [hu i (mem_range.mp hi) j hj]
    unfold uPrime vPrime
    rw [Exact.sumReduceLoop_eq, Exact.sumReduceLoop_eq, hsum, hv 0 hrows j hj]
    split_ifs with hlt
    · rw [hu' j hlt, hv' j hlt]
      exact ⟨rfl, rfl⟩
    · exact ⟨rfl, rfl⟩
  have hle : ∀ j ∈ List.range (vp.len + 1), j ≤ vp.len := fun j hj =>
    Nat.le_of_lt_succ (List.mem_range.mp hj)
  unfold corrections
  rw [List.map_congr_left fun j hj => (hsecond j (hle j hj)).1,
    List.map_congr_left fun j hj => (hsecond j (hle j hj)).2]

/-! ### Other inputs of `VolePlus::send` -/

variable {hi d gamma lambda : Nat → Fp}

/-- Rows `v` moved by one vector, with the rows `u` that go with them at the same points. -/
structure Moved (vp : VolePlus) (hi d : Nat → Fp) (ui vi ui' vi' : Nat → Nat → Fp) : Prop where
  v : ∀ i < vp.kVole, ∀ j ≤ vp.len, vi' i j = vi i j + d j
  u : ∀ i < vp.kVole, ∀ j ≤ vp.len, ui' i j = ui i j - hi i * d j

/-- The differences of the rows stay. -/
theorem Moved.derandomisation_eq (h : vp.Moved hi d ui vi ui' vi') :
    vp.derandomisation vi' = vp.derandomisation vi := by
  refine congrArg writeVecToBytes (grid_congr fun i hi j hj => ?_)
  rw [h.v 0 (by omega) j (by omega), h.v (i + 1) (by omega) j (by omega), add_sub_add_right_eq_sub]

/-- The check values stay when the combination of the vector is 0. -/
theorem Moved.checkValues_eq (h : vp.Moved hi d ui vi ui' vi') (hrows : 0 < vp.kVole)
    (hd : ∑ j ∈ range (vp.len + 1), gamma j * d j = 0) :
    vp.checkValues gamma ui' vi' = vp.checkValues gamma ui vi := by
  have hrow : ∀ i < vp.kVole, dotProduct (vp.len + 1) gamma (ui' i)
      = dotProduct (vp.len + 1) gamma (ui i) := fun i hik => by
    rw [Exact.dotProduct_eq, Exact.dotProduct_eq]
    calc ∑ j ∈ range (vp.len + 1), gamma j * ui' i j
        = ∑ j ∈ range (vp.len + 1), (gamma j * ui i j - hi i * (gamma j * d j)) :=
          sum_congr rfl fun j hj => by
            rw [h.u i hik j (Nat.le_of_lt_succ (mem_range.mp hj))]
            ring
      _ = ∑ j ∈ range (vp.len + 1), gamma j * ui i j := by
          rw [sum_sub_distrib, ← mul_sum, hd, mul_zero, sub_zero]
  have hlast : dotProduct (vp.len + 1) gamma (vi' 0) = dotProduct (vp.len + 1) gamma (vi 0) := by
    rw [Exact.dotProduct_eq, Exact.dotProduct_eq]
    calc ∑ j ∈ range (vp.len + 1), gamma j * vi' 0 j
        = ∑ j ∈ range (vp.len + 1), (gamma j * vi 0 j + gamma j * d j) :=
          sum_congr rfl fun j hj => by
            rw [h.v 0 hrows j (Nat.le_of_lt_succ (mem_range.mp hj)), mul_add]
      _ = ∑ j ∈ range (vp.len + 1), gamma j * vi 0 j := by rw [sum_add_distrib, hd, add_zero]
  unfold checkValues
  rw [hlast, List.map_congr_left fun i hi => hrow i (List.mem_range.mp hi)]

/-- **The second correction stays** when the inputs are moved with the rows, along a line of the
slope the receiver asks for. -/
theorem Moved.corrections_eq (h : vp.Moved hi d ui vi ui' vi') (hrows : 0 < vp.kVole)
    {ru rv ru' rv' delta : Fp} (hv : ∀ j ≤ vp.len, withLast vp v' rv' j = withLast vp v rv j + d j)
    (hu : ∀ j ≤ vp.len, withLast vp u' ru' j
      = withLast vp u ru j - (delta + ∑ i ∈ range vp.kVole, lambda i * hi i) * d j) :
    vp.corrections u' v' ru' rv' lambda delta ui' vi'
      = vp.corrections u v ru rv lambda delta ui vi := by
  have hpair : ∀ j ≤ vp.len, vp.uPrime u' ru' lambda delta ui' vi' j
      = vp.uPrime u ru lambda delta ui vi j ∧ vp.vPrime v' rv' vi' j = vp.vPrime v rv vi j := by
    intro j hj
    have hsum : ∑ i ∈ range vp.kVole, lambda i * ui' i j
        = ∑ i ∈ range vp.kVole, lambda i * ui i j
          - (∑ i ∈ range vp.kVole, lambda i * hi i) * d j := by
      rw [sum_mul, ← sum_sub_distrib]
      refine sum_congr rfl fun i hik => ?_
      rw [h.u i (mem_range.mp hik) j hj]
      ring
    have hvj := hv j hj
    have huj := hu j hj
    unfold withLast at hvj huj
    unfold uPrime vPrime
    simp only [Exact.sumReduceLoop_eq, Exact.reduceAddSub_eq, hsum, h.v 0 hrows j hj, hvj, huj]
    constructor <;> ring
  have hle : ∀ j ∈ List.range (vp.len + 1), j ≤ vp.len := fun j hj =>
    Nat.le_of_lt_succ (List.mem_range.mp hj)
  unfold corrections
  rw [List.map_congr_left fun j hj => (hpair j (hle j hj)).1,
    List.map_congr_left fun j hj => (hpair j (hle j hj)).2]

end VolePlus

namespace OPRF

/-! ## The client -/

/-- A client after the base OTs, its leaves and points, and every byte string it sends. -/
structure Client where
  a : Nat → Block
  points : Nat → Nat
  seed : Bytes
  gammaSeed : Bytes
  correction : Bytes
  c : Bytes
  proofSeed : Bytes

namespace Client

variable (client : Client)

/-- What the client sends, in order. -/
def messages : List Bytes :=
  [client.seed, client.gammaSeed, client.correction, client.c, client.proofSeed]

variable (o : OPRF Fp) (expand : Block → Nat → UInt8)

/-- The coefficients of the consistency check of the proof system. -/
def checkGamma : Nat → Fp := generateF25519VectorFromSeed expand (block 16 client.seed 0)

/-- The coefficients of VOLE+. -/
def gamma : Nat → Fp := o.volePlus.expandGamma expand (block 16 client.gammaSeed 0)

/-- The combination of the rows of VOLE+. -/
def lambda : Nat → Fp := generateF25519VectorFromSeed expand (block 16 client.correction 0)

def deltaPrime : Fp := readFe25519 (client.correction.drop 16) 0

/-- The rows of the proof system. -/
def zkp : ReceiverRows Fp := o.clientZkp expand client.a client.points

/-- The rows of VOLE+. -/
def vole : ReceiverRows Fp := o.clientVole expand client.a client.points

/-- The input of the client: what an honest client would have sent this `Delta_prime` for. -/
def input : Fp :=
  client.deltaPrime
    + ∑ i ∈ range o.volePlus.kVole, client.lambda expand i * (client.vole o expand).h i

/-- The generator of the scalars of the proof. -/
def proofPrng : Prng := Prng.ofSeed expand (block 16 client.proofSeed 0)

/-- Every message has the length the server waits for, and the challenge is inside the offsets. -/
structure WellFormed : Prop where
  seed_length : client.seed.length = 16
  gammaSeed_length : client.gammaSeed.length = 16
  correction_length : client.correction.length = 16 + primeBytes
  c_length : client.c.length = o.k
  c_lt : ∀ i < o.k, (client.c.getD i 0).toNat < o.lenCom
  proofSeed_length : client.proofSeed.length = 16

end Client

/-! ## The messages of the server -/

section

variable (o : OPRF Fp) (expand : Block → Nat → UInt8) (client : Client) (Key : Fp)
  (v b : Nat → Fp) (ru rv : Fp) (masks : Fin 5 → Fp) (zu zv pu pv : Nat → Nat → Fp)

/-- `state` of the prover. -/
def proverPolys (j : Nat) : Poly Fp 1 :=
  ⟨fun n => if n = 0 then o.zk.macCoef zu j
    else ZkParams.maskedCoef (o.wAt Key v b ru rv) masks j⟩

/-- The messages of `blindedEval`: the two of the commitment, the three of VOLE+, the symbols, the
openings and the proof. -/
def serverMessages : List Bytes :=
  let state := o.proverPolys Key v b ru rv masks zu
  [o.zk.shifts state zv,
    o.zk.checkValues state zu (client.checkGamma expand),
    o.volePlus.derandomisation pv,
    o.volePlus.checkValues (client.gamma o expand) pu pv,
    o.volePlus.corrections (o.serverU Key v) v ru rv (client.lambda expand) client.deltaPrime pu
      pv,
    o.packedSymbols Key,
    o.openings Key b client.c,
    o.zk.proof state (o.honestStatement Key v b (client.gamma o expand) ru rv client.c)
      (client.proofPrng expand)]

end

section

variable {o : OPRF Fp} {expand : Block → Nat → UInt8} {client : Client} {Key ru rv : Fp}
  {v v' b b' : Nat → Fp} {masks : Fin 5 → Fp} {zu zu' zv zv' pu pu' pv pv' : Nat → Nat → Fp}

/-- The witness reads `len_eval` of the `v_i` and `k` of the `b_i`. -/
theorem wAt_congr (hleval : o.lenEval = 10) (hv : ∀ i < o.lenEval, v i = v' i)
    (hb : ∀ i < o.k, b i = b' i) : o.wAt Key v b ru rv = o.wAt Key v' b' ru rv := by
  have hproduct : ∀ start n, start + n ≤ o.lenEval → product v start n = product v' start n := by
    intro start n hle
    rw [product_eq, product_eq]
    exact prod_congr rfl fun i hi => hv _ (by have := mem_range.mp hi; omega)
  have hvs : (List.range o.lenEval).map v = (List.range o.lenEval).map v' :=
    List.map_congr_left fun i hi => hv i (List.mem_range.mp hi)
  have hbs : (List.range o.k).map b = (List.range o.k).map b' :=
    List.map_congr_left fun i hi => hb i (List.mem_range.mp hi)
  unfold wAt witness
  rw [hvs, hbs, hproduct 0 _ (by omega), hproduct 0 5 (by omega), hproduct 5 5 (by omega)]

theorem openings_congr {c : Bytes} (hb : ∀ i < o.k, b i = b' i) :
    o.openings Key b c = o.openings Key b' c := by
  unfold openings
  rw [List.map_congr_left fun i hi => ?_]
  rw [serverOpening, serverOpening, hb i (List.mem_range.mp hi)]

/-- The statement of the proof reads the same. -/
theorem honestStatement_congr {gamma : Nat → Fp} {c : Bytes} (hv : ∀ i < o.lenEval, v i = v' i)
    (hb : ∀ i < o.k, b i = b' i) :
    o.honestStatement Key v b gamma ru rv c = o.honestStatement Key v' b' gamma ru rv c := by
  have hu : ∑ j ∈ range o.lenEval, gamma j * o.serverU Key v j
      = ∑ j ∈ range o.lenEval, gamma j * o.serverU Key v' j :=
    sum_congr rfl fun j hj => by rw [serverU, serverU, hv j (mem_range.mp hj)]
  have hsum : ∑ j ∈ range o.lenEval, gamma j * v j = ∑ j ∈ range o.lenEval, gamma j * v' j :=
    sum_congr rfl fun j hj => by rw [hv j (mem_range.mp hj)]
  rw [honestStatement, honestStatement, hu, hsum, openings_congr hb]

/-- **What the messages read**: the draws and the rows inside their bounds. -/
theorem serverMessages_congr (hset : o.Supported) (hv : ∀ i < o.lenEval, v i = v' i)
    (hb : ∀ i < o.k, b i = b' i)
    (hzu : ∀ i < o.zk.kVole, ∀ j < o.zk.voleLen, zu i j = zu' i j)
    (hzv : ∀ i < o.zk.kVole, ∀ j < o.zk.voleLen, zv i j = zv' i j)
    (hpu : ∀ i < o.volePlus.kVole, ∀ j ≤ o.lenEval, pu i j = pu' i j)
    (hpv : ∀ i < o.volePlus.kVole, ∀ j ≤ o.lenEval, pv i j = pv' i j) :
    o.serverMessages expand client Key v b ru rv masks zu zv pu pv
      = o.serverMessages expand client Key v' b' ru rv masks zu' zv' pu' pv' := by
  have hlen : o.zk.voleLen = 85 := by
    show 4 + o.lenEval + o.k + 12 + 5 + 1 = 85
    rw [hset.lenEval, hset.k]
  have hcheck : checkPos < o.zk.voleLen := by
    rw [hlen]
    decide
  have hrows : 0 < o.volePlus.kVole := by
    have hbits := hset.le_bits
    exact Nat.div_pos (by unfold primeBits; omega) (by omega)
  have hstate : ∀ j < o.zk.voleLen, o.proverPolys Key v b ru rv masks zu j
      = o.proverPolys Key v' b' ru rv masks zu' j := fun j hj => by
    have hmac : o.zk.macCoef zu j = o.zk.macCoef zu' j := by
      rw [ZkParams.macCoef, ZkParams.macCoef, Exact.sumLoop_eq, Exact.sumLoop_eq]
      refine congrArg _ (sum_congr rfl fun i hi => ?_)
      rw [hzu i (mem_range.mp hi) j hj]
    rw [proverPolys, proverPolys, hmac, wAt_congr hset.lenEval hv hb]
  have hu : ∀ j < o.lenEval, o.serverU Key v j = o.serverU Key v' j := fun j hj => by
    rw [serverU, serverU, hv j hj]
  have hstatement : o.honestStatement Key v b (client.gamma o expand) ru rv client.c
      = o.honestStatement Key v' b' (client.gamma o expand) ru rv client.c :=
    honestStatement_congr hv hb
  simp only [serverMessages]
  rw [ZkParams.shifts_congr hstate hzv, ZkParams.checkValues_congr hcheck hstate hzu,
    ZkParams.proof_congr hset.lenEval hset.k fun j hj => hstate j (hj.trans hcheck),
    VolePlus.derandomisation_congr hpv, VolePlus.checkValues_congr hrows hpu hpv,
    VolePlus.corrections_congr hrows hpu hpv hu hv, openings_congr hb, hstatement]

/-! ## The messages of `blindedEval` -/

/-- **What `blindedEval` sends** to a client whose messages are well formed. -/
theorem sent_blindedEval (hset : o.Supported) (hguard : Key ∉ o.offsets)
    (hclient : client.WellFormed o) (bOt : Nat → Block) (prng : Prng) :
    sent (o.blindedEval expand Key bOt prng) client.messages
      = o.serverMessages expand client Key (serverV prng) (o.serverB prng) (o.serverRu prng)
          (o.serverRv prng) (fun i => draw (afterDraws prng (o.lenEval + 2 + o.k)) i)
          (o.serverZkp expand bOt).u (o.serverZkp expand bOt).v
          (o.serverVole expand bOt).u (o.serverVole expand bOt).v := by
  have hoff : o.offsets.any (FieldOps.eq Key) = false := by
    refine List.any_eq_false.mpr fun l hl => ?_
    rw [Exact.eq_eq, decide_eq_true_eq]
    rintro rfl
    exact hguard hl
  have hindex : ((List.range o.k).all fun i =>
      decide (o.lenEval + (client.c.getD i 0).toNat < o.offsets.length)) = true := by
    refine List.all_eq_true.mpr fun i hi => decide_eq_true ?_
    have hlt := hclient.c_lt i (List.mem_range.mp hi)
    rw [hset.offsets_length]
    omega
  have hfit : o.zk.offsetsFit o.offsets client.c = true := by
    rw [ZkParams.offsetsFit, Bool.and_eq_true]
    exact ⟨decide_eq_true (hset.offsets_length.symm ▸ Nat.le_add_left _ _), hindex⟩
  unfold blindedEval ZkParams.proverCommitOr VolePlus.sendOr ZkParams.proveOr recvBlockOr
    Client.messages
  rw [hoff, hset.multipliersFit, packAll_symbols]
  simp only [Bool.false_eq_true, if_false, Proc.require_true, Proc.ofOption_some, Proc.put_bind,
    Proc.ret_bind, Proc.send_bind, Proc.pure_eq, recvBytes_bind, recvBytesOr, Proc.recv_bind,
    sent_send, sent_recv_cons, hclient.seed_length, hclient.gammaSeed_length,
    hclient.correction_length, hclient.c_length, hclient.proofSeed_length, hindex, hfit, if_true]
  have hstate : o.honestState expand Key bOt prng
      = o.proverPolys Key (serverV prng) (o.serverB prng) (o.serverRu prng) (o.serverRv prng)
          (fun i => draw (afterDraws prng (o.lenEval + 2 + o.k)) i)
          (o.serverZkp expand bOt).u := by
    funext j
    rw [honestState, ZkParams.proverState, proverPolys, ZkParams.witnessCoef_eq]
  have hproof : o.zk.proof (o.honestState expand Key bOt prng)
        (o.honestStatement Key (serverV prng) (o.serverB prng) (client.gamma o expand)
          (o.serverRu prng) (o.serverRv prng) client.c) (client.proofPrng expand)
      = o.zk.proof (o.honestState expand Key bOt prng)
        (o.provedStatement Key (client.gamma o expand) prng client.c)
        (client.proofPrng expand) := by
    refine ZkParams.proof_statement ?_ ?_ ?_ _ _
    · rfl
    · rfl
    · rfl
  simp only [serverMessages]
  rw [← hstate, hproof]
  rfl

end

end OPRF

end HocusPocus
