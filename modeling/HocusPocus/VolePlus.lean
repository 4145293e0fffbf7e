import HocusPocus.VoleUtils

/-!
# VOLE+ (`VolePlus.h`)

The receiver holds `h` and small correlations `o_i = u_i + h_i * v_i`. The sender moves all of them
to the first `v_i`, both check a random combination, the receiver re-targets the combined point to
`h`, and a second correction puts the sender's own `u` and `v` in. Position `len` carries `ru` and
`rv` under the coefficient 1.

## The out-parameters

`VolePlus::receive` (`VolePlus.h`, 52 to 168) has `o`, `gamma`, `cu` and `cv` as out-parameters. It
returns from a failed check (line 101) before it assigns `o`, `cu` and `cv`, and each of its three
`recv` throws on a message of another length. `cu` and `cv` are options here, and an `o` that was
not assigned is empty. `receiveOr` and `sendOr` are the two bodies; what follows an exception is
their argument, since `OPRF.h` runs them under `macoro::wrap`. `receive` and `send` are the two on
their own.

Out of scope: the rows `oi` and `ui` are read at the positions the loops reach, so a row vector that
is too short is not modelled.

## Results

* `volePlus_correct`: against the honest sender every check passes and the receiver ends with
  `o = u + h * v`, `cv = rv + Σ γ_j v_j` and `cu = ru + Σ γ_j u_j`.
-/

namespace HocusPocus

open Machine Duplex FieldOps

/-- `class VolePlus`. -/
structure VolePlus where
  len : Nat
  kVole : Nat

/-- The constructor's `k_vole`. -/
def VolePlus.new (len smallSetBits statisticalSecurityBits : Nat) : VolePlus :=
  { len
    kVole := (2 * statisticalSecurityBits + primeBits + smallSetBits - 1) / smallSetBits }

/-- What `VolePlus::receive` has assigned when it returns. -/
structure VolePlusOutput (F : Type) where
  o : List F
  gamma : Nat → F
  cu : Option F
  cv : Option F

/-- Only `gamma` has been assigned. -/
def VolePlusOutput.unassigned {F : Type} (gamma : Nat → F) : VolePlusOutput F :=
  { o := [], gamma, cu := none, cv := none }

namespace VolePlus

section

variable {F : Type} [FieldOps F] (expand : Block → Nat → UInt8) (vp : VolePlus)

/-- `expand_gamma`. -/
def expandGamma (seed : Block) (i : Nat) : F :=
  if i < vp.len then draw (Prng.ofSeed expand seed) i else setOne

/-! ## The receiver -/

/-- The first correction: rows 1 to `k_vole - 1` move to the sender's row 0. -/
def correctRows (oi : Nat → Nat → F) (hi : Nat → F) (buffer : Bytes) (i j : Nat) : F :=
  if i = 0 then oi 0 j
  else reduceAddSub (oi i j + hi i * readFe25519 buffer ((i - 1) * (vp.len + 1) + j))

/-- The check of row `i`. -/
def checkRow (gamma : Nat → F) (oi : Nat → Nat → F) (hi : Nat → F) (buffer : Bytes) (i : Nat) :
    Bool :=
  let cv1 : F := readFe25519 buffer vp.kVole
  let check := readFe25519 buffer i
  let check := check - dotProduct (vp.len + 1) gamma (oi i)
  let check := reduceAddSub check
  let check := check + hi i * cv1
  let check := reduceAddSub check
  isZero (freeze check)

/-- All `k_vole` checks. -/
def checks (gamma : Nat → F) (oi : Nat → Nat → F) (hi : Nat → F) (buffer : Bytes) : Bool :=
  (List.range vp.kVole).all (vp.checkRow gamma oi hi buffer)

/-- `Delta_prime`. -/
def deltaPrime (h : F) (lambda hi : Nat → F) : F :=
  reduceAddSub (h - sumReduceLoop vp.kVole setZero fun i => lambda i * hi i)

/-- Entry `j` of `o` before it is cut to `len`. -/
def outputRow (h : F) (lambda : Nat → F) (oi : Nat → Nat → F) (buffer : Bytes) (j : Nat) : F :=
  let o := sumReduceLoop vp.kVole setZero fun i => lambda i * oi i j
  let o := reduceAddSub (o + readFe25519 buffer j)
  reduceAddSub (o + h * readFe25519 buffer (vp.len + 1 + j))

/-- `o`, `cv` and `cu` from the second correction. -/
def finish (h : F) (gamma lambda : Nat → F) (oi : Nat → Nat → F) (cv1 : F) (buffer : Bytes) :
    VolePlusOutput F :=
  let o := vp.outputRow h lambda oi buffer
  let vPrime := fun j => readFe25519 buffer (vp.len + 1 + j)
  let cv := reduceAddSub (dotProduct (vp.len + 1) gamma vPrime + cv1)
  let cu := reduceAddSub (dotProduct (vp.len + 1) gamma o - h * cv)
  { o := (List.range vp.len).map o, gamma, cu := some cu, cv := some cv }

/-- `VolePlus::receive`. Before it is expanded `gamma` is empty; it is then read only where the
unassigned `cu` is read, too. -/
def receiveOr (thrown : OnThrow (VolePlusOutput F × Prng)) (h : F) (oi : Nat → Nat → F)
    (hi : Nat → F) (prng : Prng) : Party (VolePlusOutput F × Prng) :=
  recvBytesOr (thrown (.unassigned fun _ => setZero, prng))
    (primeBytes * (vp.kVole - 1) * (vp.len + 1)) fun buffer => do
  let oi := vp.correctRows oi hi buffer
  let gammaSeed := prng.getBlock.1
  let prng := prng.getBlock.2
  sendBlock gammaSeed
  let gamma : Nat → F := vp.expandGamma expand gammaSeed
  recvBytesOr (thrown (.unassigned gamma, prng)) ((vp.kVole + 1) * primeBytes) fun buffer => do
  let cv1 : F := readFe25519 buffer vp.kVole
  if vp.checks gamma oi hi buffer then
    let lambdaSeed := prng.getBlock.1
    let prng := prng.getBlock.2
    let lambda : Nat → F := generateF25519VectorFromSeed expand lambdaSeed
    Proc.put (lambdaSeed.toList ++ (pack (vp.deltaPrime h lambda hi)).toList)
    recvBytesOr (thrown (.unassigned gamma, prng)) (2 * (vp.len + 1) * primeBytes) fun buffer =>
      return (vp.finish h gamma lambda oi cv1 buffer, prng)
  else
    return (.unassigned gamma, prng)

/-- `VolePlus::receive` on its own. -/
def receive (h : F) (oi : Nat → Nat → F) (hi : Nat → F) (prng : Prng) :
    Party (VolePlusOutput F × Prng) :=
  vp.receiveOr expand uncaught h oi hi prng

/-! ## The sender -/

/-- The differences `v_i prime`. -/
def derandomisation (vi : Nat → Nat → F) : Bytes :=
  writeVecToBytes (grid (vp.kVole - 1) (vp.len + 1) fun i j =>
    reduceAddSub (vi 0 j - vi (i + 1) j))

/-- The check values. -/
def checkValues (gamma : Nat → F) (ui vi : Nat → Nat → F) : Bytes :=
  writeVecToBytes ((List.range vp.kVole).map (fun i => dotProduct (vp.len + 1) gamma (ui i))
    ++ [dotProduct (vp.len + 1) gamma (vi 0)])

/-- `u_prime`, with `ru` in the last place. -/
def uPrime (u : Nat → F) (ru : F) (lambda : Nat → F) (deltaPrime : F) (ui vi : Nat → Nat → F)
    (j : Nat) : F :=
  let uPrime := sumReduceLoop vp.kVole setZero fun i => lambda i * ui i j
  let uPrime := reduceAddSub (deltaPrime * vi 0 j - uPrime)
  reduceAddSub (uPrime + if j < vp.len then u j else ru)

/-- `v_prime`, with `rv` in the last place. -/
def vPrime (v : Nat → F) (rv : F) (vi : Nat → Nat → F) (j : Nat) : F :=
  reduceAddSub ((if j < vp.len then v j else rv) - vi 0 j)

/-- The second correction. -/
def corrections (u v : Nat → F) (ru rv : F) (lambda : Nat → F) (deltaPrime : F)
    (ui vi : Nat → Nat → F) : Bytes :=
  writeVecToBytes ((List.range (vp.len + 1)).map (vp.uPrime u ru lambda deltaPrime ui vi)
    ++ (List.range (vp.len + 1)).map (vp.vPrime v rv vi))

/-- `VolePlus::send`; it ends with `gamma`, which is empty up to the first `recv`. -/
def sendOr (thrown : OnThrow (Option (Nat → F))) (u v : Nat → F) (ru rv : F)
    (ui vi : Nat → Nat → F) : Party (Option (Nat → F)) := do
  Proc.put (vp.derandomisation vi)
  recvBlockOr (thrown none) fun gammaSeed => do
  let gamma : Nat → F := vp.expandGamma expand gammaSeed
  Proc.put (vp.checkValues gamma ui vi)
  recvBytesOr (thrown (some gamma)) (16 + primeBytes) fun buffer => do
  let lambdaSeed : Block := block 16 buffer 0
  let lambda : Nat → F := generateF25519VectorFromSeed expand lambdaSeed
  let deltaPrime : F := readFe25519 (buffer.drop 16) 0
  Proc.put (vp.corrections u v ru rv lambda deltaPrime ui vi)
  return some gamma

/-- `VolePlus::send` on its own. -/
def send (u v : Nat → F) (ru rv : F) (ui vi : Nat → Nat → F) : Party (Nat → F) := do
  Proc.ofOption .outOfBounds (← vp.sendOr expand uncaught u v ru rv ui vi)

end

/-! ## The receiver alone -/

section

variable {F : Type} [FieldOps F] (expand : Block → Nat → UInt8) (vp : VolePlus)

/-- The `gamma` of a run: the receiver draws its seed. -/
def sessionGamma (prng : Prng) : Nat → F := vp.expandGamma expand prng.getBlock.1

/-- **What the receiver returns with**: everything it assigns when the checks pass, and neither
`o` nor `cu` nor `cv` when one fails. -/
theorem feed_receive_returned {h : F} {oi : Nat → Nat → F} {hi : Nat → F} {prng : Prng}
    {ms rest : List Bytes} {r : VolePlusOutput F × Prng} :
    feed (vp.receive expand h oi hi prng) ms = .returned r rest ↔
      ∃ shift values tail, ms = shift :: values :: tail ∧
        shift.length = primeBytes * (vp.kVole - 1) * (vp.len + 1) ∧
        values.length = (vp.kVole + 1) * primeBytes ∧
        (vp.checks (vp.sessionGamma expand prng) (vp.correctRows oi hi shift) hi values = true ∧
            (∃ correction, tail = correction :: rest ∧
              correction.length = 2 * (vp.len + 1) * primeBytes ∧
              (vp.finish h (vp.sessionGamma expand prng)
                (generateF25519VectorFromSeed expand (prng.skip 16).getBlock.1)
                (vp.correctRows oi hi shift) (readFe25519 values vp.kVole) correction,
                prng.skip 32) = r) ∨
          vp.checks (vp.sessionGamma expand prng) (vp.correctRows oi hi shift) hi values = false ∧
            ({ o := [], gamma := vp.sessionGamma expand prng, cu := none, cv := none },
              prng.skip 16) = r ∧ tail = rest) := by
  unfold receive receiveOr sendBlock uncaught
  simp only [feed_recvBytesOr_returned, Proc.put_bind, feed_send, feed_ite_returned, Proc.pure_eq,
    feed_ret_returned, feed_fault, reduceCtorEq, and_false, or_false]
  constructor
  · rintro ⟨shift, ms', rfl, hshift, values, tail, rfl, hvalues, h⟩
    refine ⟨shift, values, tail, rfl, hshift, hvalues, ?_⟩
    rcases h with ⟨hpass, correction, rest', rfl, hlen, hr, rfl⟩ | h
    · exact Or.inl ⟨hpass, correction, rfl, hlen, hr⟩
    · exact Or.inr h
  · rintro ⟨shift, values, tail, rfl, hshift, hvalues, h⟩
    refine ⟨shift, _, rfl, hshift, values, tail, rfl, hvalues, ?_⟩
    rcases h with ⟨hpass, correction, rfl, hlen, hr⟩ | h
    · exact Or.inl ⟨hpass, correction, _, rfl, hlen, hr, rfl⟩
    · exact Or.inr h

/-! ### Under `macoro::wrap` -/

/-- The messages the receiver reads up to its check, of the right lengths. -/
structure Read (vp : VolePlus) (shift values : Bytes) : Prop where
  shift_length : shift.length = primeBytes * (vp.kVole - 1) * (vp.len + 1)
  values_length : values.length = (vp.kVole + 1) * primeBytes

/-- The messages on which the receiver ends without `o`, `cu` and `cv`: a message has the wrong
length, or a row does not pass. -/
inductive Fails (vp : VolePlus) (expand : Block → Nat → UInt8) (oi : Nat → Nat → F) (hi : Nat → F)
    (prng : Prng) : List Bytes → Prop
  | shiftLength (shift : Bytes)
      (length : shift.length ≠ primeBytes * (vp.kVole - 1) * (vp.len + 1)) :
      Fails vp expand oi hi prng [shift]
  | valuesLength (shift values : Bytes)
      (shift_length : shift.length = primeBytes * (vp.kVole - 1) * (vp.len + 1))
      (length : values.length ≠ (vp.kVole + 1) * primeBytes) :
      Fails vp expand oi hi prng [shift, values]
  | row (shift values : Bytes) (read : vp.Read shift values)
      (checks : vp.checks (vp.sessionGamma expand prng) (vp.correctRows oi hi shift) hi values
        = false) :
      Fails vp expand oi hi prng [shift, values]
  | correctionLength (shift values correction : Bytes) (read : vp.Read shift values)
      (checks : vp.checks (vp.sessionGamma expand prng) (vp.correctRows oi hi shift) hi values
        = true)
      (length : correction.length ≠ 2 * (vp.len + 1) * primeBytes) :
      Fails vp expand oi hi prng [shift, values, correction]

/-- The messages on which it assigns everything, and the output. -/
inductive Passes (vp : VolePlus) (expand : Block → Nat → UInt8) (h : F) (oi : Nat → Nat → F)
    (hi : Nat → F) (prng : Prng) : List Bytes → VolePlusOutput F → Prop
  | intro (shift values correction : Bytes) (read : vp.Read shift values)
      (checks : vp.checks (vp.sessionGamma expand prng) (vp.correctRows oi hi shift) hi values
        = true)
      (length : correction.length = 2 * (vp.len + 1) * primeBytes) :
      Passes vp expand h oi hi prng [shift, values, correction]
        (vp.finish h (vp.sessionGamma expand prng)
          (generateF25519VectorFromSeed expand (prng.skip 16).getBlock.1)
          (vp.correctRows oi hi shift) (readFe25519 values vp.kVole) correction)

/-- **A failed receiver ends like one that succeeds**, whatever is sent later, with neither `o` nor
`cu` nor `cv`; it has drawn a block after each message but the last. -/
theorem Fails.feed_receiveOr {oi : Nat → Nat → F} {hi : Nat → F} {prng : Prng} {ms : List Bytes}
    (hfails : Fails vp expand oi hi prng ms) (h : F) :
    ∃ gamma, ∀ later, feed (vp.receiveOr expand wrapped h oi hi prng) (ms ++ later)
      = .returned (.unassigned gamma, prng.skip (16 * (ms.length - 1))) later := by
  cases hfails with
  | shiftLength shift hlen =>
    refine ⟨fun _ => setZero, fun later => ?_⟩
    rw [receiveOr, List.singleton_append, feed_recvBytesOr_thrown hlen]
    exact feed_ret _ _
  | valuesLength shift values hshift hlen =>
    refine ⟨vp.sessionGamma expand prng, fun later => ?_⟩
    rw [receiveOr, List.cons_append, List.singleton_append, feed_recvBytesOr hshift]
    simp only [sendBlock, Proc.put_bind, feed_send]
    rw [feed_recvBytesOr_thrown hlen]
    exact feed_ret _ _
  | row shift values hread hchecks =>
    rw [sessionGamma] at hchecks
    refine ⟨vp.sessionGamma expand prng, fun later => ?_⟩
    rw [receiveOr, List.cons_append, List.singleton_append, feed_recvBytesOr hread.shift_length]
    simp only [sendBlock, Proc.put_bind, feed_send]
    rw [feed_recvBytesOr hread.values_length, if_neg (ne_true_of_eq_false hchecks)]
    exact feed_ret _ _
  | correctionLength shift values correction hread hchecks hlen =>
    rw [sessionGamma] at hchecks
    refine ⟨vp.sessionGamma expand prng, fun later => ?_⟩
    rw [receiveOr, List.cons_append, List.cons_append, List.singleton_append,
      feed_recvBytesOr hread.shift_length]
    simp only [sendBlock, Proc.put_bind, feed_send]
    rw [feed_recvBytesOr hread.values_length, if_pos hchecks, feed_send,
      feed_recvBytesOr_thrown hlen]
    exact feed_ret _ _

/-- **The two ends of a receiver whose exceptions are dropped.** -/
theorem feed_wrapped_returned {h : F} {oi : Nat → Nat → F} {hi : Nat → F} {prng : Prng}
    {ms rest : List Bytes} {r : VolePlusOutput F × Prng}
    (hrun : feed (vp.receiveOr expand wrapped h oi hi prng) ms = .returned r rest) :
    ∃ read, ms = read ++ rest ∧
      (Passes vp expand h oi hi prng read r.1 ∧ r.2 = prng.skip 32 ∨
        Fails vp expand oi hi prng read ∧ ∃ gamma, r.1 = .unassigned gamma) := by
  unfold receiveOr sendBlock wrapped at hrun
  simp only [feed_recvBytesOr_returned, Proc.put_bind, feed_send, feed_ite_returned, Proc.pure_eq,
    feed_ret_returned] at hrun
  obtain ⟨shift, ms', rfl, ⟨hshift, values, tail, rfl, h⟩ | ⟨hshift, rfl, rfl⟩⟩ := hrun
  · rcases h with ⟨hvalues, ⟨hchecks, correction, tail', rfl, h⟩ | ⟨hchecks, rfl, rfl⟩⟩ |
      ⟨hvalues, rfl, rfl⟩
    · rcases h with ⟨hlen, rfl, rfl⟩ | ⟨hlen, rfl, rfl⟩
      · exact ⟨[shift, values, correction], rfl, Or.inl
          ⟨.intro shift values correction ⟨hshift, hvalues⟩ hchecks hlen, rfl⟩⟩
      · exact ⟨[shift, values, correction], rfl, Or.inr
          ⟨.correctionLength shift values correction ⟨hshift, hvalues⟩ hchecks hlen, _, rfl⟩⟩
    · exact ⟨[shift, values], rfl, Or.inr
        ⟨.row shift values ⟨hshift, hvalues⟩ hchecks, _, rfl⟩⟩
    · exact ⟨[shift, values], rfl, Or.inr ⟨.valuesLength shift values hshift hvalues, _, rfl⟩⟩
  · exact ⟨[shift], rfl, Or.inr ⟨.shiftLength shift hshift, _, rfl⟩⟩

end

/-! ## Correctness in the field -/

section

open Finset

variable (expand : Block → Nat → UInt8) {vp : VolePlus} {u v gamma lambda hi : Nat → Fp}
  {h ru rv delta : Fp} {ui vi oi : Nat → Nat → Fp}

/-- The first correction moves every row to the sender's row 0. -/
theorem correctRows_eq (hoi : ∀ i < vp.kVole, ∀ j ≤ vp.len, oi i j = ui i j + hi i * vi i j)
    {i j : Nat} (hik : i < vp.kVole) (hj : j ≤ vp.len) :
    vp.correctRows oi hi (vp.derandomisation vi) i j = ui i j + hi i * vi 0 j := by
  unfold correctRows
  by_cases h0 : i = 0
  · rw [if_pos h0, ← h0, hoi i hik j hj]
  · have hlen : (i - 1) * (vp.len + 1) + j < (grid (vp.kVole - 1) (vp.len + 1) fun i j =>
        reduceAddSub (vi 0 j - vi (i + 1) j)).length := by
      rw [length_grid]
      calc (i - 1) * (vp.len + 1) + j < (i - 1) * (vp.len + 1) + (vp.len + 1) := by omega
        _ = (i - 1 + 1) * (vp.len + 1) := by ring
        _ ≤ (vp.kVole - 1) * (vp.len + 1) := Nat.mul_le_mul_right _ (by omega)
    rw [if_neg h0, derandomisation, readFe25519_writeVecToBytes _ hlen,
      getElem_grid _ (by omega) (by omega), show i - 1 + 1 = i by omega, hoi i hik j hj,
      Exact.reduceAddSub_eq, Exact.reduceAddSub_eq]
    ring

theorem readFe25519_checkValues {i : Nat} (hi : i < vp.kVole) :
    readFe25519 (vp.checkValues gamma ui vi) i = dotProduct (vp.len + 1) gamma (ui i) := by
  rw [checkValues, readFe25519_writeVecToBytes _ (by simp; omega),
    List.getElem_append_left (by simpa using hi)]
  simp

theorem readFe25519_checkValues_last :
    readFe25519 (vp.checkValues gamma ui vi) vp.kVole = dotProduct (vp.len + 1) gamma (vi 0) := by
  rw [checkValues, readFe25519_writeVecToBytes _ (by simp), List.getElem_append_right (by simp)]
  simp

/-- **What the check of row `i` decides**: whether the value sent for it is that of the row `ui i`
of the correlation. -/
theorem checkRow_iff (hoi : ∀ i < vp.kVole, ∀ j ≤ vp.len, oi i j = ui i j + hi i * vi i j)
    (ui' : Nat → Nat → Fp) {i : Nat} (hik : i < vp.kVole) :
    vp.checkRow gamma (vp.correctRows oi hi (vp.derandomisation vi)) hi
        (vp.checkValues gamma ui' vi) i = true ↔
      ∑ j ∈ range (vp.len + 1), gamma j * ui' i j = ∑ j ∈ range (vp.len + 1), gamma j * ui i j := by
  have hrow : ∑ j ∈ range (vp.len + 1),
        gamma j * vp.correctRows oi hi (vp.derandomisation vi) i j
      = ∑ j ∈ range (vp.len + 1), gamma j * ui i j
        + hi i * ∑ j ∈ range (vp.len + 1), gamma j * vi 0 j := by
    rw [mul_sum, ← sum_add_distrib]
    refine sum_congr rfl fun j hj => ?_
    rw [correctRows_eq hoi hik (Nat.le_of_lt_succ (mem_range.mp hj))]
    ring
  unfold checkRow
  simp only [readFe25519_checkValues hik, readFe25519_checkValues_last, Exact.dotProduct_eq, hrow,
    Exact.reduceAddSub_eq, Exact.freeze_eq, Exact.isZero_eq, decide_eq_true_eq]
  constructor
  · intro h
    linear_combination h
  · intro h
    linear_combination h

/-- Every check of the receiver passes against the honest sender. -/
theorem checkRow_honest (hoi : ∀ i < vp.kVole, ∀ j ≤ vp.len, oi i j = ui i j + hi i * vi i j)
    {i : Nat} (hik : i < vp.kVole) :
    vp.checkRow gamma (vp.correctRows oi hi (vp.derandomisation vi)) hi
      (vp.checkValues gamma ui vi) i = true := (checkRow_iff hoi ui hik).mpr rfl

/-- The entry of the second correction, for the masked `u` and `v`. -/
theorem readFe25519_corrections {j : Nat} (hj : j ≤ vp.len) :
    readFe25519 (vp.corrections u v ru rv lambda delta ui vi) j
        = vp.uPrime u ru lambda delta ui vi j ∧
      readFe25519 (vp.corrections u v ru rv lambda delta ui vi) (vp.len + 1 + j)
        = vp.vPrime v rv vi j := by
  constructor
  · rw [corrections, readFe25519_writeVecToBytes _ (by simp; omega),
      List.getElem_append_left (by simp; omega)]
    simp
  · rw [corrections, readFe25519_writeVecToBytes _ (by simp; omega),
      List.getElem_append_right (by simp)]
    simp

/-- The vector the sender puts in: its own entries, and `r` in the last place. -/
def withLast (vp : VolePlus) (u : Nat → Fp) (r : Fp) (j : Nat) : Fp := if j < vp.len then u j else r

/-- Under a coefficient 1 in the last place. -/
theorem sum_withLast (hgamma : gamma vp.len = 1) (r : Fp) :
    ∑ j ∈ range (vp.len + 1), gamma j * withLast vp u r j
      = r + ∑ j ∈ range vp.len, gamma j * u j := by
  rw [sum_range_succ, hgamma, one_mul, add_comm]
  congr 1
  · exact if_neg (lt_irrefl _)
  · exact sum_congr rfl fun j hj => by rw [withLast, if_pos (mem_range.mp hj)]

/-- **Re-targeting**: after the second correction the receiver's row is the sender's, at `h`. -/
theorem outputRow_honest (hoi : ∀ i < vp.kVole, ∀ j ≤ vp.len, oi i j = ui i j + hi i * vi i j)
    {j : Nat} (hj : j ≤ vp.len) :
    vp.outputRow h lambda (vp.correctRows oi hi (vp.derandomisation vi))
        (vp.corrections u v ru rv lambda (vp.deltaPrime h lambda hi) ui vi) j
      = withLast vp u ru j + h * withLast vp v rv j := by
  have hrow : ∑ i ∈ range vp.kVole,
        lambda i * vp.correctRows oi hi (vp.derandomisation vi) i j
      = ∑ i ∈ range vp.kVole, lambda i * ui i j
        + (∑ i ∈ range vp.kVole, lambda i * hi i) * vi 0 j := by
    rw [sum_mul, ← sum_add_distrib]
    refine sum_congr rfl fun i hik => ?_
    rw [correctRows_eq hoi (mem_range.mp hik) hj]
    ring
  unfold outputRow
  simp only [(readFe25519_corrections hj).1, (readFe25519_corrections hj).2, uPrime, vPrime,
    deltaPrime, withLast, Exact.sumReduceLoop_eq, Exact.setZero_eq, hrow, Exact.reduceAddSub_eq,
    zero_add]
  ring

/-- The last check element: `cv` of the receiver. -/
theorem cv_honest (hgamma : gamma vp.len = 1) :
    reduceAddSub (dotProduct (vp.len + 1) gamma
        (fun j => readFe25519 (vp.corrections u v ru rv lambda delta ui vi) (vp.len + 1 + j))
        + readFe25519 (vp.checkValues gamma ui vi) vp.kVole)
      = rv + ∑ j ∈ range vp.len, gamma j * v j := by
  rw [← sum_withLast hgamma, readFe25519_checkValues_last, Exact.reduceAddSub_eq,
    Exact.dotProduct_eq, Exact.dotProduct_eq, ← sum_add_distrib]
  refine sum_congr rfl fun j hj => ?_
  rw [(readFe25519_corrections (Nat.le_of_lt_succ (mem_range.mp hj))).2, vPrime, withLast,
    Exact.reduceAddSub_eq]
  ring

theorem expandGamma_last (seed : Block) : (vp.expandGamma expand seed vp.len : Fp) = 1 := by
  rw [expandGamma, if_neg (lt_irrefl _), Exact.setOne_eq]

/-- What the receiver ends with against the honest sender. -/
def honestOutput (vp : VolePlus) (u v gamma : Nat → Fp) (ru rv h : Fp) : VolePlusOutput Fp :=
  { o := (List.range vp.len).map fun j => u j + h * v j
    gamma
    cu := some (ru + ∑ j ∈ range vp.len, gamma j * u j)
    cv := some (rv + ∑ j ∈ range vp.len, gamma j * v j) }

/-- The output the receiver computes from the honest messages. -/
theorem finish_honest (hoi : ∀ i < vp.kVole, ∀ j ≤ vp.len, oi i j = ui i j + hi i * vi i j)
    (hgamma : gamma vp.len = 1) :
    vp.finish h gamma lambda (vp.correctRows oi hi (vp.derandomisation vi))
        (readFe25519 (vp.checkValues gamma ui vi) vp.kVole)
        (vp.corrections u v ru rv lambda (vp.deltaPrime h lambda hi) ui vi)
      = honestOutput vp u v gamma ru rv h := by
  have ho : ∀ j ≤ vp.len, vp.outputRow h lambda (vp.correctRows oi hi (vp.derandomisation vi))
      (vp.corrections u v ru rv lambda (vp.deltaPrime h lambda hi) ui vi) j
      = withLast vp u ru j + h * withLast vp v rv j := fun j hj => outputRow_honest hoi hj
  have hsum : ∑ j ∈ range (vp.len + 1), gamma j
        * vp.outputRow h lambda (vp.correctRows oi hi (vp.derandomisation vi))
          (vp.corrections u v ru rv lambda (vp.deltaPrime h lambda hi) ui vi) j
      = (ru + ∑ j ∈ range vp.len, gamma j * u j)
        + h * (rv + ∑ j ∈ range vp.len, gamma j * v j) := by
    rw [← sum_withLast hgamma, ← sum_withLast hgamma, mul_sum, ← sum_add_distrib]
    refine sum_congr rfl fun j hj => ?_
    rw [ho j (Nat.le_of_lt_succ (mem_range.mp hj))]
    ring
  have hlist : (List.range vp.len).map (vp.outputRow h lambda
        (vp.correctRows oi hi (vp.derandomisation vi))
        (vp.corrections u v ru rv lambda (vp.deltaPrime h lambda hi) ui vi))
      = (List.range vp.len).map fun j => u j + h * v j := by
    refine List.map_congr_left fun j hj => ?_
    have hlt := List.mem_range.mp hj
    rw [ho j hlt.le, withLast, withLast, if_pos hlt, if_pos hlt]
  unfold finish honestOutput
  simp only [cv_honest hgamma]
  rw [hlist, Exact.reduceAddSub_eq, Exact.dotProduct_eq, hsum, add_sub_cancel_right]

/-- **VOLE+ against the honest sender**: all checks pass, both sides end with the same `gamma`,
and the receiver holds `u + h * v` and the two check elements. Nothing throws. -/
theorem run_honest (thrown : OnThrow (VolePlusOutput Fp × Prng))
    (thrown' : OnThrow (Option (Nat → Fp)))
    (hoi : ∀ i < vp.kVole, ∀ j ≤ vp.len, oi i j = ui i j + hi i * vi i j) (prng : Prng) :
    Runs (vp.receiveOr expand thrown h oi hi prng) (vp.sendOr expand thrown' u v ru rv ui vi)
      (honestOutput vp u v (vp.sessionGamma expand prng) ru rv h, prng.skip 32)
      (some (vp.sessionGamma expand prng)) := by
  have hchecks : vp.checks (vp.expandGamma expand prng.getBlock.1)
      (vp.correctRows oi hi (vp.derandomisation vi)) hi
      (vp.checkValues (vp.expandGamma expand prng.getBlock.1) ui vi) = true := by
    rw [checks, List.all_eq_true]
    exact fun i hik => checkRow_honest hoi (List.mem_range.mp hik)
  unfold receiveOr sendOr
  refine runs_recvOr_put ?_ ?_
  · rw [derandomisation, length_writeVecToBytes, length_grid, Nat.mul_assoc]
  refine runs_sendBlock_recvBlockOr ?_
  refine runs_recvOr_put ?_ ?_
  · rw [checkValues, length_writeVecToBytes]
    simp [Nat.mul_comm]
  simp only [hchecks, if_true]
  refine runs_put_recvOr (by simp [primeBytes]) ?_
  rw [block_append, List.drop_left' (by simp), readFe25519_pack]
  refine runs_recvOr_put ?_ ?_
  · rw [corrections, length_writeVecToBytes]
    simp
    ring
  rw [finish_honest hoi (expandGamma_last expand _)]
  exact runs_ret _ _

/-- **VOLE+ is correct**: whatever the schedule, all checks pass, both sides end with the same
`gamma`, and the receiver ends with `u + h * v`, `cv = rv + Σ γ_j v_j` and `cu = ru + Σ γ_j u_j`. -/
theorem volePlus_correct (vp : VolePlus) (u v hi : Nat → Fp) (h ru rv : Fp)
    (ui vi oi : Nat → Nat → Fp) (prng : Prng)
    (hoi : ∀ i < vp.kVole, ∀ j ≤ vp.len, oi i j = ui i j + hi i * vi i j) :
    Completes (vp.receive expand h oi hi prng) (vp.send expand u v ru rv ui vi)
        ({ o := (List.range vp.len).map fun j => u j + h * v j
           gamma := vp.sessionGamma expand prng
           cu := some (ru + ∑ j ∈ range vp.len, vp.sessionGamma expand prng j * u j)
           cv := some (rv + ∑ j ∈ range vp.len, vp.sessionGamma expand prng j * v j) },
          prng.skip 32)
        (vp.sessionGamma expand prng) ∧
      ∀ i < vp.kVole, vp.checkRow (vp.sessionGamma expand prng)
        (vp.correctRows oi hi (vp.derandomisation vi)) hi
        (vp.checkValues (vp.sessionGamma expand prng) ui vi) i = true := by
  refine ⟨Runs.completes ?_, fun _ hik => checkRow_honest hoi hik⟩
  rw [← bind_pure (vp.receive expand h oi hi prng)]
  exact (run_honest expand uncaught uncaught hoi prng).bind (runs_ret _ _)

/-- Two rows of two elements, with all the sender's values nonzero. -/
theorem volePlus_correct_example :
    let expand : Block → Nat → UInt8 := shiftedSeed
    let prng : Prng := ⟨fun i => UInt8.ofNat (3 * i), 0⟩
    let vp : VolePlus := ⟨1, 2⟩
    let u : Nat → Fp := fun _ => 2
    let v : Nat → Fp := fun _ => 3
    let hi : Nat → Fp := fun i => i + 5
    let ui : Nat → Nat → Fp := fun i j => i + 2 * j + 1
    let vi : Nat → Nat → Fp := fun i j => i * j + 7
    let oi : Nat → Nat → Fp := fun i j => ui i j + hi i * vi i j
    Completes (vp.receive expand 9 oi hi prng) (vp.send expand u v 4 6 ui vi)
        ({ o := (List.range vp.len).map fun j => u j + 9 * v j
           gamma := vp.sessionGamma expand prng
           cu := some (4 + ∑ j ∈ range vp.len, vp.sessionGamma expand prng j * u j)
           cv := some (6 + ∑ j ∈ range vp.len, vp.sessionGamma expand prng j * v j) },
          prng.skip 32)
        (vp.sessionGamma expand prng) ∧
      ∀ i < vp.kVole, vp.checkRow (vp.sessionGamma expand prng)
        (vp.correctRows oi hi (vp.derandomisation vi)) hi
        (vp.checkValues (vp.sessionGamma expand prng) ui vi) i = true := by
  intro expand prng vp u v hi ui vi oi
  exact volePlus_correct expand vp u v hi 9 4 6 ui vi oi prng fun _ _ _ _ => rfl

end

end VolePlus

end HocusPocus
