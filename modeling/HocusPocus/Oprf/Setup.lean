import HocusPocus.BaseOt
import HocusPocus.Oprf.EndToEnd
import HocusPocus.OtExt.Iknp
import HocusPocus.Pprf.Expand

/-!
# The OPRF from the base OTs on (`OPRF.h`)

Phase 1 of `eval` and phase 0 of `blindedEval`: 128 base OTs from the server's choice bits, as many
OTs as the trees have levels, and the puncturable PRF. What they leave the two parties with are the
leaves and the points that the other phases start from.

* `runs_setup`: the leaves of the two parties differ at the points only.
* `evalWhole_correct`: the whole protocol, on every schedule.
-/

namespace HocusPocus.OPRF

open Machine Duplex FieldOps FastResidue RegularPprf

section

variable (o : OPRF Fp) (p : RegularPprf) (kyber : KyberOt) (aes : Aes)
  (expand : Block → Nat → UInt8)

/-- `pprfSender` and `pprfReceiver`, as the constructor configures them. -/
def pprf : Option RegularPprf := RegularPprf.configure (2 ^ o.smallSetBits) o.trees

/-- Phase 1 of `eval`: the leaves `a`, the points, and the generator after them. -/
def evalSetup (coins : Nat → kyber.Coins) (prng : Prng) :
    Party ((Nat → Block) × (Nat → Nat) × Prng) := do
  let (baseSend, prng) ← MasnyRindalKyber.send kyber coins prng
  let mBaseChoices := Receiver.sampleChoiceBits p prng
  let recvBits := Receiver.choices p mBaseChoices
  let prng := Receiver.afterSample p prng
  let (recvOTs, _) ← Iknp.receive aes baseSend 0 recvBits p.baseOtCount
  let a ← p.receiverExpand aes expand mBaseChoices (Receiver.setBase p recvOTs)
  return (a, Receiver.getPoints p mBaseChoices, prng)

/-- Phase 0 of `blindedEval`: the leaves `b_ot`, and the generator after it. -/
def blindedEvalSetup (coins : Nat → kyber.Coins) (prng : Prng) : Party ((Nat → Block) × Prng) := do
  let baseChoice := prng.getBlock.1
  let prng := prng.getBlock.2
  let baseRecv ← MasnyRindalKyber.receive kyber coins (bitAt baseChoice)
  let (sendOTs, _) ← Iknp.send aes baseRecv baseChoice 0 p.baseOtCount
  let seed := prng.getBlock.1
  let prng := prng.getBlock.2
  let bOt ← p.senderExpand aes expand (Sender.setBase p sendOTs) seed
  return (bOt, prng)

/-- `OPRF::eval`, from the first message on. -/
def evalWhole (blake2 : Bytes → Bytes32) (symBufLen fuel : Nat) (x : Bytes) (output : Bytes32)
    (coins : Nat → kyber.Coins) (prng : Prng) : Party (Bool × Bytes32) := do
  let (a, points, prng) ← evalSetup p kyber aes expand coins prng
  o.eval expand blake2 symBufLen fuel x output a points prng

/-- `OPRF::blindedEval`, from the first message on. -/
def blindedEvalWhole (Key : Fp) (coins : Nat → kyber.Coins) (prng : Prng) : Party Unit := do
  let (bOt, prng) ← blindedEvalSetup p kyber aes expand coins prng
  o.blindedEval expand Key bOt prng

/-- The client's generator after phase 1: 256 blocks, then one number for each tree. -/
def afterEvalSetup (prng : Prng) : Prng :=
  Receiver.afterSample p (MasnyRindalKyber.afterMessages prng)

/-- The server's generator after phase 0: the choice bits and a seed. -/
def afterBlindedEvalSetup (prng : Prng) : Prng := prng.getBlock.2.getBlock.2

end

/-! ## The leaves -/

section

variable {o : OPRF Fp} {p : RegularPprf} {kyber : KyberOt}

/-- The sizes the proof system is written for give trees. -/
theorem pprf_spec (hp : o.pprf = some p) :
    p.mDomain = 2 ^ o.smallSetBits ∧ p.mPntCount = o.trees := by
  unfold pprf configure at hp
  split at hp
  · obtain rfl := Option.some.inj hp
    exact ⟨rfl, rfl⟩
  · cases hp

/-- Outputs that agree off the points are punctured leaves. -/
theorem punctured_of_outputsAgree (hp : o.pprf = some p) {prng : Prng} {a bOt : Nat → Block}
    (h : OutputsAgree p (Receiver.sampleChoiceBits p prng) p.mPntCount a bOt) :
    o.Punctured a bOt (Receiver.getPoints p (Receiver.sampleChoiceBits p prng)) := by
  obtain ⟨hdomain, htrees⟩ := pprf_spec hp
  constructor
  · intro j _
    rw [getPoints_sampleChoiceBits, ← hdomain]
    exact Nat.mod_lt _ (Nat.zero_lt_of_lt p.two_le)
  · intro j hj i hi hne
    rw [← hdomain] at hi ⊢
    rw [← htrees] at hj
    rw [h j hj hj i hi, if_neg hne]

/-- **The setup**: it ends with leaves that differ at the points only. -/
theorem runs_setup (aes : Aes) (expand : Block → Nat → UInt8) (hp : o.pprf = some p)
    {clientCoins serverCoins : Nat → kyber.Coins} {prng serverPrng : Prng}
    (hkyber : MasnyRindalKyber.Correct kyber serverCoins clientCoins
      (bitAt serverPrng.getBlock.1) (MasnyRindalKyber.drawMessages prng)) :
    ∃ a bOt points, Runs (evalSetup p kyber aes expand clientCoins prng)
        (blindedEvalSetup p kyber aes expand serverCoins serverPrng)
        (a, points, afterEvalSetup p prng) (bOt, afterBlindedEvalSetup serverPrng)
      ∧ o.Punctured a bOt points := by
  obtain ⟨baseRecv, hbase, hstrings⟩ := MasnyRindalKyber.runs_send_receive hkyber
  obtain ⟨recvOTs, sendOTs, hext, htransferred⟩ := Iknp.runs_receive_send hstrings
    (Receiver.choices p (Receiver.sampleChoiceBits p (MasnyRindalKyber.afterMessages prng)))
    0 p.baseOtCount
  obtain ⟨a, bOt, hexpand, hagree⟩ := runs_sampled aes expand p
    (MasnyRindalKyber.afterMessages prng) serverPrng.getBlock.2.getBlock.1 sendOTs recvOTs
    fun m hm => (htransferred m hm).symm
  exact ⟨a, bOt, _, hbase.bind (hext.bind (hexpand.bind (runs_ret _ _))),
    punctured_of_outputsAgree hp hagree⟩

end

/-! ## The whole protocol -/

/-- **The OPRF from its first message to its output**: the client's generator gives `k` distinct
indices within the draws of phase 5, no decryption of the base OTs fails, the key passes the guard
and has no symbol 0; then every schedule ends with `true` and the output of the powers `D` and the
input. -/
theorem evalWhole_correct (o : OPRF Fp) {p : RegularPprf} (hp : o.pprf = some p) (kyber : KyberOt)
    (aes : Aes) (expand : Block → Nat → UInt8) (blake2 : Bytes → Bytes32) (symBufLen fuel : Nat)
    (x : Bytes) (output : Bytes32) (Key : Fp) (clientCoins serverCoins : Nat → kyber.Coins)
    (prng serverPrng : Prng) (hset : o.Supported) (hbuf : symbolBytes ≤ symBufLen)
    (hkyber : MasnyRindalKyber.Correct kyber serverCoins clientCoins
      (bitAt serverPrng.getBlock.1) (MasnyRindalKyber.drawMessages prng))
    (hs : o.HonestServer Key (afterBlindedEvalSetup serverPrng))
    (hdistinct : o.k ≤ (indices o.lenCom ((afterEvalSetup p prng).skip 48) fuel).card) :
    Completes
      (o.evalWhole p kyber aes expand blake2 symBufLen fuel x output clientCoins prng)
      (o.blindedEvalWhole p kyber aes expand Key serverCoins serverPrng)
      (true, blake2 (o.powersTranscript Key (hashInput blake2 x) x)) () := by
  obtain ⟨a, bOt, points, hsetup, hpunctured⟩ := runs_setup aes expand hp hkyber
  exact (hsetup.bind (runs_eval hset hbuf hpunctured hs hdistinct)).completes

/-- An OT that sends the choice bit and the string it selects. -/
def plainOt : KyberOt where
  Coins := Unit
  pkBytes := 1
  ctxtBytes := 32
  sotBytes := 32
  le_sot := by decide
  receiverMessage := fun _ b => Vector.replicate 1 (if b then 1 else 0)
  senderMessage := fun _ sot pk => sot pk[0].toNat
  receiverStrings := fun _ _ ctxt => ctxt

theorem plainOt_correct (choices : Nat → Bool) (messages : Nat → Nat → Block) :
    MasnyRindalKyber.Correct plainOt (fun _ => ()) (fun _ => ()) choices messages := by
  intro i _
  cases hbit : choices i <;> simp [plainOt]

/-- The instance with a generator of ones: 32 bytes on, it gives ones again. -/
theorem sample_server_setup : sample.HonestServer 0 (afterBlindedEvalSetup ones) := by
  have hdraw : ∀ i, (draw (afterBlindedEvalSetup ones) i : Fp) = 1 := fun i => by
    have hskip : afterBlindedEvalSetup ones = afterDraws ones 1 := rfl
    rw [hskip, draw_afterDraws, draw_ones]
  refine ⟨sample_server.guard, sample_server.symbol_ne, fun i _ => ?_, fun i _ => ?_⟩
  · rw [hdraw]
    exact one_ne_zero
  · rw [hdraw]
    exact one_ne_zero

/-- A run from the first message on, with a generator that counts. -/
theorem evalWhole_correct_example :
    let p : RegularPprf := ⟨2 ^ 8, sample.trees, rfl, by decide⟩
    let aes : Aes := ⟨fun key x => key ^^^ addEpi64 x key, fun state key => addEpi64 state key⟩
    let blake2 : Bytes → Bytes32 := fun bytes => Vector.replicate 32 (bytes.getD 0 7)
    Completes
      (sample.evalWhole p plainOt aes shiftedSeed blake2 5 106 [1, 2] (Vector.replicate 32 0)
        (fun _ => ()) counter)
      (sample.blindedEvalWhole p plainOt aes shiftedSeed 0 (fun _ => ()) ones)
      (true, blake2 (sample.powersTranscript 0 (hashInput blake2 [1, 2]) [1, 2])) () := by
  intro p aes blake2
  exact evalWhole_correct sample rfl plainOt aes shiftedSeed blake2 5 106 [1, 2] _ 0 _ _ counter
    ones sample_supported le_rfl (plainOt_correct _ _) sample_server_setup (by decide +kernel)

end HocusPocus.OPRF
