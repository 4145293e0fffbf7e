import HocusPocus.VoleUtils

/-!
# The base oblivious transfers (`MasnyRindalKyber.cpp`)

128 OTs in one round: the receiver sends one public key for each choice bit, the sender one
ciphertext for each pair. The OT of a single pair is the Kyber library's, which is a parameter.

* `runs_send_receive`: when no decryption fails, the receiver gets of each pair the block its choice
  bit selects.
-/

namespace HocusPocus

open Machine Duplex

/-- `NUM_BASE_OT`. -/
def numBaseOt : Nat := 128

/-- The OT of the Kyber library. A party draws coins of its own; `sotBytes` is the length of a
string of `KyberOTPtxt`. -/
structure KyberOt where
  Coins : Type
  pkBytes : Nat
  ctxtBytes : Nat
  sotBytes : Nat
  le_sot : 16 ≤ sotBytes
  /-- The public keys of `KyberReceiverMessage`, for a choice bit. -/
  receiverMessage : Coins → Bool → Vector UInt8 pkBytes
  /-- The ciphertext of `KyberSenderMessage`, for the two strings `sot`. -/
  senderMessage : Coins → (Nat → Vector UInt8 sotBytes) → Vector UInt8 pkBytes →
    Vector UInt8 ctxtBytes
  /-- `rot` after `KyberReceiverStrings`. -/
  receiverStrings : Coins → Bool → Vector UInt8 ctxtBytes → Vector UInt8 sotBytes

namespace MasnyRindalKyber

variable (kyber : KyberOt)

/-- `ptxt.sot[k]`: the block and zeros after it. -/
def sot (messages : Nat → Block) (k : Nat) : Vector UInt8 kyber.sotBytes :=
  Vector.ofFn fun j => (messages k).toList.getD j 0

/-- The block at the start of `rot`. -/
def fromRot (rot : Vector UInt8 kyber.sotBytes) : Block :=
  Vector.ofFn fun j => rot.toList.getD j 0

/-- The pairs that `send` draws: `prng.get(messages.data(), messages.size())`. -/
def drawMessages (prng : Prng) (i k : Nat) : Block := (prng.skip (16 * (2 * i + k))).bytes 16

/-- The generator after `drawMessages`. -/
def afterMessages (prng : Prng) : Prng := prng.skip (16 * (2 * numBaseOt))

section

variable (coins : Nat → kyber.Coins)

/-- `pkBuff`. -/
def pkBuff (choices : Nat → Bool) : Bytes :=
  concat ((List.range numBaseOt).map fun i => kyber.receiverMessage (coins i) (choices i))

/-- `ctxts`, for the public keys received. -/
def ctxts (messages : Nat → Nat → Block) (pkBuff : Bytes) : Bytes :=
  concat ((List.range numBaseOt).map fun i =>
    kyber.senderMessage (coins i) (sot kyber (messages i)) (block kyber.pkBytes pkBuff i))

/-- `MasnyRindalKyber::receive`. -/
def receive (choices : Nat → Bool) : Party (Nat → Block) := do
  Proc.put (pkBuff kyber coins choices)
  let ctxts ← recvBytes (kyber.ctxtBytes * numBaseOt)
  return fun i => fromRot kyber
    (kyber.receiverStrings (coins i) (choices i) (block kyber.ctxtBytes ctxts i))

/-- `MasnyRindalKyber::send`, with the generator after it. -/
def send (prng : Prng) : Party ((Nat → Nat → Block) × Prng) := do
  let messages := drawMessages prng
  let pkBuff ← recvBytes (kyber.pkBytes * numBaseOt)
  Proc.put (ctxts kyber coins messages pkBuff)
  return (messages, afterMessages prng)

end

/-- No decryption fails: for the coins of the two parties, `KyberReceiverStrings` recovers the
string that the choice bit selects. -/
def Correct (recvCoins sendCoins : Nat → kyber.Coins) (choices : Nat → Bool)
    (messages : Nat → Nat → Block) : Prop :=
  ∀ i < numBaseOt,
    kyber.receiverStrings (recvCoins i) (choices i)
        (kyber.senderMessage (sendCoins i) (sot kyber (messages i))
          (kyber.receiverMessage (recvCoins i) (choices i)))
      = sot kyber (messages i) (choices i).toNat

variable {kyber}

/-- The zeros after the block are dropped again. -/
theorem fromRot_sot (messages : Nat → Block) (k : Nat) :
    fromRot kyber (sot kyber messages k) = messages k := by
  refine Vector.ext fun j hj => ?_
  have hsot : j < kyber.sotBytes := hj.trans_le kyber.le_sot
  rw [fromRot, Vector.getElem_ofFn, List.getD_eq_getElem _ _ (by simpa using hsot),
    Vector.getElem_toList, sot, Vector.getElem_ofFn, List.getD_eq_getElem _ _ (by simpa using hj),
    Vector.getElem_toList]

/-- What a buffer of one entry for each OT holds. -/
theorem block_base {n : Nat} (f : Nat → Vector UInt8 n) {i : Nat} (hi : i < numBaseOt) :
    block n (concat ((List.range numBaseOt).map f)) i = f i := by
  rw [block_concat _ (by simpa using hi), List.getElem_map, List.getElem_range]

theorem length_base {n : Nat} (f : Nat → Vector UInt8 n) :
    (concat ((List.range numBaseOt).map f)).length = n * numBaseOt := by
  rw [length_concat, List.length_map, List.length_range]

/-- **The base OTs.** -/
theorem runs_send_receive {recvCoins sendCoins : Nat → kyber.Coins} {choices : Nat → Bool}
    {prng : Prng} (h : Correct kyber recvCoins sendCoins choices (drawMessages prng)) :
    ∃ messages, Runs (send kyber sendCoins prng) (receive kyber recvCoins choices)
        (drawMessages prng, afterMessages prng) messages
      ∧ ∀ i < numBaseOt, messages i = drawMessages prng i (choices i).toNat := by
  refine ⟨_, runs_recv_put (length_base _) (runs_put_recv (length_base _) (runs_ret _ _)),
    fun i hi => ?_⟩
  rw [ctxts, block_base _ hi, pkBuff, block_base _ hi, h i hi, fromRot_sot]

end MasnyRindalKyber

end HocusPocus
