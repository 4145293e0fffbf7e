import HocusPocus.Aes
import HocusPocus.Duplex.Loop
import HocusPocus.OtExt.TransposeAvx

/-!
# OT extension (`KosOtExtReceiver.cpp`, `KosOtExtSender.cpp`, as `IknpOtExt*` configures them)

The semi-honest protocol with `HashType::AesHash`. Each 128 OTs are one square of bits: the receiver
expands both strings of 128 base OTs and sends their sum with its choice bits, 512 squares in one
message; both parties transpose what they then have and hash the rows. `mPrngIdx` counts the squares
over all calls, on both sides.

* `row_sender`: a row of the sender is that of the receiver, shifted by `delta` if the choice bit is
  set.
* `runs_receive_send`: one call, of any length.
* `runs_calls`: any sequence of calls with one set of base OTs.
-/

namespace HocusPocus.Iknp

open Machine Duplex Tools

/-- `commStepSize`. -/
def commStepSize : Nat := 512

/-- `divCeil(n, 128)`: `sizeBlocks` of `n` choice bits. -/
def numBlocks (n : Nat) : Nat := (n + 128 - 1) / 128

/-- The number of messages of a call. -/
def numSteps (n : Nat) : Nat := (numBlocks n + commStepSize - 1) / commStepSize

/-- `step`: the number of squares in message `q`. -/
def step (n q : Nat) : Nat := min (numBlocks n - commStepSize * q) commStepSize

variable (aes : Aes)

/-! ## The receiver -/

section

variable (baseOTs : Nat → Nat → Block) (mPrngIdx : Nat) (choices : Nat → Bool)

/-- Column `col` of square `i`: the first string of the base OT, expanded. -/
def tColumn (i col : Nat) : Block := aes.ecbEncBlock (baseOTs col 0) (toBlock 0 (mPrngIdx + i))

/-- Block `i` of the choice bits. -/
def choiceBlock (i : Nat) : Block := ofBits 16 fun k => choices (128 * i + k)

/-- Column `col` of square `i` of what is sent. -/
def uColumn (i col : Nat) : Block :=
  aes.ecbEncBlock (baseOTs col 1) (toBlock 0 (mPrngIdx + i)) ^^^ choiceBlock choices i
    ^^^ tColumn aes baseOTs mPrngIdx i col

/-- Message `m` of the receiver. -/
def recvMessage (m : Nat) : Block :=
  aes.hashBlock Aes.fixedKey (transpose128 (tColumn aes baseOTs mPrngIdx (m / 128)) (m % 128))

/-- The squares of message `q`. -/
def uBuffer (n q : Nat) : Bytes :=
  concat (grid (step n q) 128 fun i col =>
    uColumn aes baseOTs mPrngIdx choices (commStepSize * q + i) col)

/-- `KosOtExtReceiver::receive` for `n` OTs: the messages, and `mPrngIdx` after it. -/
def receive (n : Nat) : Party ((Nat → Block) × Nat) := do
  let _ ← (List.range (numSteps n)).foldlM
    (fun _ q => Proc.put (uBuffer aes baseOTs mPrngIdx choices n q)) ()
  return (recvMessage aes baseOTs mPrngIdx, mPrngIdx + numBlocks n)

end

/-! ## The sender -/

section

variable (baseRecvOts : Nat → Block) (delta : Block) (mPrngIdx : Nat)

/-- `choiceMask[col]`. -/
def choiceMask (col : Nat) : Block := if bitAt delta col then allOneBytes 16 else zeroBlock

/-- Column `col` of square `i`, from the square `u` received. -/
def qColumn (u : Nat → Block) (i col : Nat) : Block :=
  aes.ecbEncBlock (baseRecvOts col) (toBlock 0 (mPrngIdx + i)) ^^^ (u col &&& choiceMask delta col)

/-- The two messages made of a row. -/
def sendRow (row : Block) (k : Nat) : Block :=
  aes.hashBlock Aes.fixedKey (if k = 0 then row else row ^^^ delta)

/-- The messages after those of the squares in the buffer `u`, message `q`, are written. -/
def stepMessages (n q : Nat) (u : Bytes) (messages : Nat → Nat → Block) (m : Nat) : Nat → Block :=
  let i := m / 128
  if commStepSize * q ≤ i ∧ i < commStepSize * q + step n q then
    let column := fun col => block 16 u ((i - commStepSize * q) * 128 + col)
    sendRow aes delta (transpose128 (qColumn aes baseRecvOts delta mPrngIdx column i) (m % 128))
  else messages m

/-- One buffer received, and its squares. -/
def sendStep (n : Nat) (messages : Nat → Nat → Block) (q : Nat) : Party (Nat → Nat → Block) := do
  let u ← recvBytes (16 * (step n q * 128))
  return stepMessages aes baseRecvOts delta mPrngIdx n q u messages

/-- `KosOtExtSender::send` for `n` OTs: the pairs of messages, and `mPrngIdx` after it. -/
def send (n : Nat) : Party ((Nat → Nat → Block) × Nat) := do
  let messages ← (List.range (numSteps n)).foldlM (sendStep aes baseRecvOts delta mPrngIdx n)
    fun _ _ => zeroBlock
  return (messages, mPrngIdx + numBlocks n)

end

/-! ## One square -/

section

variable {aes} {baseOTs : Nat → Nat → Block} {baseRecvOts : Nat → Block} {delta : Block}
  {choices : Nat → Bool} {mPrngIdx : Nat}

/-- A column of the sender: the receiver's, with the choice bits where `delta` is set. -/
theorem qColumn_eq (hbase : ∀ col < 128, baseRecvOts col = baseOTs col (bitAt delta col).toNat)
    (i : Nat) {col : Nat} (hcol : col < 128) :
    qColumn aes baseRecvOts delta mPrngIdx (uColumn aes baseOTs mPrngIdx choices i) i col
      = if bitAt delta col then tColumn aes baseOTs mPrngIdx i col ^^^ choiceBlock choices i
        else tColumn aes baseOTs mPrngIdx i col := by
  rw [qColumn, hbase col hcol, choiceMask]
  cases bitAt delta col with
  | false =>
    rw [if_neg Bool.false_ne_true, if_neg Bool.false_ne_true, zeroBlock, and_zeroBytes,
      xor_zeroBytes]
    rfl
  | true =>
    rw [if_pos rfl, if_pos rfl, and_allOneBytes, uColumn, Bool.toNat_true, xorBytes_assoc,
      xorBytes_cancel_left, xorBytes_comm]

/-- **A row of the sender is that of the receiver, shifted by `delta` if the choice bit is set.** -/
theorem row_sender (hbase : ∀ col < 128, baseRecvOts col = baseOTs col (bitAt delta col).toNat)
    (i : Nat) {j : Nat} (hj : j < 128) :
    transpose128
        (qColumn aes baseRecvOts delta mPrngIdx (uColumn aes baseOTs mPrngIdx choices i) i) j
      = if choices (128 * i + j) then
          transpose128 (tColumn aes baseOTs mPrngIdx i) j ^^^ delta
        else transpose128 (tColumn aes baseOTs mPrngIdx i) j := by
  refine eq_of_bitAt fun c hc => ?_
  have hchoice : bitAt (choiceBlock choices i) j = choices (128 * i + j) := bitAt_ofBits _ hj
  rw [bitAt_transpose128 _ hj hc, qColumn_eq hbase i hc]
  cases hbit : choices (128 * i + j) with
  | false =>
    rw [hbit] at hchoice
    rw [if_neg Bool.false_ne_true, bitAt_transpose128 _ hj hc]
    split
    · rw [bitAt_xor, hchoice, Bool.xor_false]
    · rfl
  | true =>
    rw [hbit] at hchoice
    rw [if_pos rfl, bitAt_xor, bitAt_transpose128 _ hj hc]
    cases hdelta : bitAt delta c with
    | false => rw [if_neg Bool.false_ne_true, Bool.xor_false]
    | true => rw [if_pos rfl, bitAt_xor, hchoice]

/-- The message of the receiver is the one of the sender's two that its choice bit selects. -/
theorem sendRow_choice
    (hbase : ∀ col < 128, baseRecvOts col = baseOTs col (bitAt delta col).toNat) (m : Nat) :
    sendRow aes delta (transpose128 (qColumn aes baseRecvOts delta mPrngIdx
        (uColumn aes baseOTs mPrngIdx choices (m / 128)) (m / 128)) (m % 128)) (choices m).toNat
      = recvMessage aes baseOTs mPrngIdx m := by
  have hsum : 128 * (m / 128) + m % 128 = m := Nat.div_add_mod m 128
  rw [row_sender hbase (m / 128) (Nat.mod_lt m (by decide)), hsum, sendRow, recvMessage]
  cases choices m with
  | false => rfl
  | true =>
    rw [if_pos rfl, Bool.toNat_true, if_neg one_ne_zero, xorBytes_cancel_right]

/-! ## One call -/

/-- The sender reads the columns of a square off a message. -/
theorem block_uBuffer {n q i col : Nat} (hi : i < step n q) (hcol : col < 128) :
    block 16 (uBuffer aes baseOTs mPrngIdx choices n q) (i * 128 + col)
      = uColumn aes baseOTs mPrngIdx choices (commStepSize * q + i) col := by
  have hlt : i * 128 + col < step n q * 128 := by omega
  rw [uBuffer, block_concat _ (by rw [length_grid]; exact hlt)]
  exact getElem_grid _ hi hcol _

theorem length_uBuffer (n q : Nat) :
    (uBuffer aes baseOTs mPrngIdx choices n q).length = 16 * (step n q * 128) := by
  rw [uBuffer, length_concat, length_grid]

theorem qColumn_congr {u u' : Nat → Block} {i : Nat} (h : ∀ col < 128, u col = u' col) {col : Nat}
    (hcol : col < 128) :
    qColumn aes baseRecvOts delta mPrngIdx u i col = qColumn aes baseRecvOts delta mPrngIdx u' i col
      := by
  rw [qColumn, qColumn, h col hcol]

/-- The transposed square depends on 128 columns. -/
theorem transpose128_congr {x y : Nat → Block} (h : ∀ col < 128, x col = y col) {j : Nat}
    (hj : j < 128) : transpose128 x j = transpose128 y j := by
  refine eq_of_bitAt fun c hc => ?_
  rw [bitAt_transpose128 _ hj hc, bitAt_transpose128 _ hj hc, h c hc]

/-- The messages agree, for the first `blocks` squares. -/
def Agree (blocks : Nat) (choices : Nat → Bool) (received : Nat → Block)
    (messages : Nat → Nat → Block) : Prop :=
  ∀ m, m / 128 < blocks → messages m (choices m).toNat = received m

/-- The squares of one buffer. -/
theorem Agree.step (hbase : ∀ col < 128, baseRecvOts col = baseOTs col (bitAt delta col).toNat)
    {n q : Nat} {messages : Nat → Nat → Block}
    (h : Agree (min (commStepSize * q) (numBlocks n)) choices (recvMessage aes baseOTs mPrngIdx)
      messages) :
    Agree (min (commStepSize * (q + 1)) (numBlocks n)) choices (recvMessage aes baseOTs mPrngIdx)
      (stepMessages aes baseRecvOts delta mPrngIdx n q
        (uBuffer aes baseOTs mPrngIdx choices n q) messages) := by
  intro m hm
  unfold stepMessages
  by_cases hin : commStepSize * q ≤ m / 128 ∧ m / 128 < commStepSize * q + Iknp.step n q
  · simp only [if_pos hin]
    obtain ⟨i, hi⟩ := Nat.exists_eq_add_of_le hin.1
    have hi' : m / 128 - commStepSize * q = i := by omega
    rw [hi', ← sendRow_choice hbase m]
    refine congrArg (sendRow aes delta · _) (transpose128_congr (fun col hcol => ?_)
      (Nat.mod_lt m (by decide)))
    refine qColumn_congr (fun col hcol => ?_) hcol
    rw [block_uBuffer (by omega) hcol, ← hi]
  · simp only [if_neg hin]
    refine h m ?_
    unfold Iknp.step at hin
    rw [Nat.mul_succ] at hm
    omega

/-- What the two parties have after a call for `n` OTs. -/
def Transferred (n : Nat) (choices : Nat → Bool) (received : Nat → Block)
    (messages : Nat → Nat → Block) : Prop :=
  ∀ m < n, messages m (choices m).toNat = received m

/-- **One call**: with correct base OTs and equal counters a run ends, each message of the receiver
is the one of the sender's pair that its choice bit selects, and the counters stay equal. -/
theorem runs_receive_send
    (hbase : ∀ col < 128, baseRecvOts col = baseOTs col (bitAt delta col).toNat)
    (choices : Nat → Bool) (mPrngIdx n : Nat) :
    ∃ received messages,
      Runs (receive aes baseOTs mPrngIdx choices n) (send aes baseRecvOts delta mPrngIdx n)
        (received, mPrngIdx + numBlocks n) (messages, mPrngIdx + numBlocks n)
      ∧ Transferred n choices received messages := by
  have hround : ∀ q < numSteps n, ∀ (a : Unit) (messages : Nat → Nat → Block),
      Agree (min (commStepSize * q) (numBlocks n)) choices (recvMessage aes baseOTs mPrngIdx)
        messages →
      ∃ (a' : Unit) (messages' : Nat → Nat → Block),
        Runs (Proc.put (uBuffer aes baseOTs mPrngIdx choices n q) : Party Unit)
          (sendStep aes baseRecvOts delta mPrngIdx n messages q) a' messages'
        ∧ Agree (min (commStepSize * (q + 1)) (numBlocks n)) choices
            (recvMessage aes baseOTs mPrngIdx) messages' := by
    intro q _ _ messages h
    refine ⟨(), _, ?_, h.step hbase⟩
    rw [← bind_pure (Proc.put _)]
    exact runs_put_recv (length_uBuffer n q) (runs_ret _ _)
  obtain ⟨_, messages, hruns, hagree⟩ := runs_foldlM
    (P := fun q _ messages => Agree (min (commStepSize * q) (numBlocks n)) choices
      (recvMessage aes baseOTs mPrngIdx) messages)
    (fun m hm => absurd hm (by omega)) (numSteps n) hround
  refine ⟨_, messages, hruns.bind (runs_ret _ _), fun m hm => hagree m ?_⟩
  unfold numSteps numBlocks commStepSize
  omega

/-! ## Any sequence of calls -/

/-- The calls of the receiver, one after the other; `mPrngIdx` is carried from each to the next. -/
def receiveAll (aes : Aes) (baseOTs : Nat → Nat → Block) :
    List (Nat × (Nat → Bool)) → Nat → Party (List (Nat → Block))
  | [], _ => return []
  | call :: calls, mPrngIdx => do
    let (received, mPrngIdx) ← receive aes baseOTs mPrngIdx call.2 call.1
    let rest ← receiveAll aes baseOTs calls mPrngIdx
    return received :: rest

/-- The calls of the sender. -/
def sendAll (aes : Aes) (baseRecvOts : Nat → Block) (delta : Block) :
    List Nat → Nat → Party (List (Nat → Nat → Block))
  | [], _ => return []
  | n :: calls, mPrngIdx => do
    let (messages, mPrngIdx) ← send aes baseRecvOts delta mPrngIdx n
    let rest ← sendAll aes baseRecvOts delta calls mPrngIdx
    return messages :: rest

/-- The results of the two parties, call by call. -/
def AllTransferred :
    List (Nat × (Nat → Bool)) → List (Nat → Block) → List (Nat → Nat → Block) → Prop
  | [], [], [] => True
  | call :: calls, received :: r, messages :: s =>
    Transferred call.1 call.2 received messages ∧ AllTransferred calls r s
  | _, _, _ => False

/-- **Any sequence of calls**, of any lengths, with one set of base OTs. -/
theorem runs_calls
    (hbase : ∀ col < 128, baseRecvOts col = baseOTs col (bitAt delta col).toNat)
    (calls : List (Nat × (Nat → Bool))) (mPrngIdx : Nat) :
    ∃ received messages,
      Runs (receiveAll aes baseOTs calls mPrngIdx)
        (sendAll aes baseRecvOts delta (calls.map Prod.fst) mPrngIdx) received messages
      ∧ AllTransferred calls received messages := by
  induction calls generalizing mPrngIdx with
  | nil => exact ⟨[], [], runs_ret _ _, trivial⟩
  | cons call calls ih =>
    obtain ⟨received, messages, hcall, htransferred⟩ :=
      runs_receive_send hbase call.2 mPrngIdx call.1
    obtain ⟨r, s, hrest, hall⟩ := ih (mPrngIdx + numBlocks call.1)
    exact ⟨received :: r, messages :: s, hcall.bind (hrest.bind (runs_ret _ _)),
      htransferred, hall⟩

end

/-- **OT extension**: with correct base OTs, any sequence of calls of any lengths after `setBaseOts`
ends on every schedule, and in each call the receiver has of each pair the message its choice bit
selects. -/
theorem calls_correct (aes : Aes) (baseOTs : Nat → Nat → Block) (baseRecvOts : Nat → Block)
    (delta : Block)
    (hbase : ∀ col < 128, baseRecvOts col = baseOTs col (bitAt delta col).toNat)
    (calls : List (Nat × (Nat → Bool))) :
    ∃ received messages,
      Completes (receiveAll aes baseOTs calls 0)
        (sendAll aes baseRecvOts delta (calls.map Prod.fst) 0) received messages
      ∧ AllTransferred calls received messages := by
  obtain ⟨received, messages, hruns, hall⟩ := runs_calls hbase calls 0
  exact ⟨received, messages, hruns.completes, hall⟩

/-- Three calls, the second longer than a message, with the strings `(col, k)` as base OTs. -/
theorem calls_correct_example :
    let aes : Aes := ⟨fun key x => key ^^^ addEpi64 x key, fun state key => addEpi64 state key⟩
    let baseOTs : Nat → Nat → Block := fun col k => toBlock col k
    let delta : Block := Vector.replicate 16 0xa5
    let calls : List (Nat × (Nat → Bool)) :=
      [(5, fun i => i.testBit 0), (70000, fun i => i.testBit 3), (0, fun _ => true)]
    ∃ received messages,
      Completes (receiveAll aes baseOTs calls 0)
        (sendAll aes (fun col => baseOTs col (bitAt delta col).toNat) delta [5, 70000, 0] 0)
        received messages
      ∧ AllTransferred calls received messages := by
  intro aes baseOTs delta calls
  exact calls_correct aes baseOTs _ delta (fun _ _ => rfl) calls

end HocusPocus.Iknp
