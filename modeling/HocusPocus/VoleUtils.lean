import HocusPocus.Duplex.Run
import HocusPocus.Field.Rep

/-!
# Randomness, buffers and sums (`voleUtils.h`)

The parts every protocol of the repository shares.

* A `PRNG` is a byte stream and a position. `expand` is the stream a seed is expanded to; it is a
  parameter throughout.
* A party sends and receives byte strings over the socket. A `recv` into a buffer of another size
  takes the message and throws. `Fault` lists what ends a party without a result: that exception
  when nobody catches it, a read of a variable that was never assigned, an access outside a vector,
  and a loop cut off by its fuel.
* `OPRF.h` runs most of its sub-protocols under `sync_wait(macoro::wrap(..))` and drops what `wrap`
  returns, so an exception inside them ends the sub-protocol and not the run. Such a sub-protocol
  takes an `OnThrow`: what follows an exception, given the out-parameters as they are at that point.
  `uncaught` and `wrapped` are the two that occur.
* `sumLoop` and `sumReduceLoop` are the accumulation loops, lazy and reduced in each round.
-/

namespace HocusPocus

open Machine Duplex FieldOps

/-- `osuCrypto::block`. -/
abbrev Block := Vector UInt8 16

/-- An expansion of seeds for runs on fixed inputs. -/
def shiftedSeed (seed : Block) (i : Nat) : UInt8 := seed[i % 16] + UInt8.ofNat i

/-- `PRIME_BYTES`. -/
abbrev primeBytes : Nat := 32

/-- `PRIME_BITS`. -/
def primeBits : Nat := 255

/-! ## Pseudorandom generators -/

/-- `osuCrypto::PRNG`: its byte stream and the position of the next byte. -/
structure Prng where
  stream : Nat → UInt8
  pos : Nat

namespace Prng

/-- `PRNG(seed)`. -/
def ofSeed (expand : Block → Nat → UInt8) (seed : Block) : Prng := ⟨expand seed, 0⟩

/-- The generator after `n` more bytes. -/
def skip (p : Prng) (n : Nat) : Prng := { p with pos := p.pos + n }

/-- The next `n` bytes. -/
def bytes (p : Prng) (n : Nat) : Vector UInt8 n := Vector.ofFn fun i => p.stream (p.pos + i)

@[simp] theorem skip_zero (p : Prng) : p.skip 0 = p := rfl

@[simp] theorem skip_skip (p : Prng) (m n : Nat) : (p.skip m).skip n = p.skip (m + n) := by
  simp only [skip, Nat.add_assoc]

/-- `prng.get()` for a block. -/
def getBlock (p : Prng) : Block × Prng := (p.bytes 16, p.skip 16)

/-- `prng.get<uint32_t>()`. -/
def getU32 (p : Prng) : Nat × Prng := (leValue (p.bytes 4), p.skip 4)

end Prng

section

variable {F : Type} [FieldOps F]

/-- `random_fe25519`. -/
def randomFe25519 (p : Prng) : F × Prng := (unpack (p.bytes primeBytes), p.skip primeBytes)

/-- The `i`-th of a row of calls of `random_fe25519`. -/
def draw (p : Prng) (i : Nat) : F := unpack ((p.skip (primeBytes * i)).bytes primeBytes)

/-- The generator after a row of `n` calls of `random_fe25519`. -/
def afterDraws (p : Prng) (n : Nat) : Prng := p.skip (primeBytes * n)

theorem randomFe25519_eq (p : Prng) :
    (randomFe25519 p : F × Prng) = (draw p 0, afterDraws p 1) := rfl

@[simp] theorem draw_afterDraws (p : Prng) (n i : Nat) :
    (draw (afterDraws p n) i : F) = draw p (n + i) := by
  unfold draw afterDraws
  rw [Prng.skip_skip, Nat.mul_add]

@[simp] theorem afterDraws_afterDraws (p : Prng) (m n : Nat) :
    afterDraws (afterDraws p m) n = afterDraws p (m + n) := by
  unfold afterDraws
  rw [Prng.skip_skip, Nat.mul_add]

/-- `generateF25519VectorFromSeed`: entry `i` is read from the `i`-th 32 bytes of the expanded
seed. -/
def generateF25519VectorFromSeed (expand : Block → Nat → UInt8) (seed : Block) (i : Nat) : F :=
  draw (Prng.ofSeed expand seed) i

/-! ## Sums -/

/-- `for i < n: acc += f i`. -/
def sumLoop (n : Nat) (acc : F) (f : Nat → F) : F :=
  (List.range n).foldl (fun acc i => acc + f i) acc

/-- `for i < n: acc += f i; acc.reduce_add_sub()`. -/
def sumReduceLoop (n : Nat) (acc : F) (f : Nat → F) : F :=
  (List.range n).foldl (fun acc i => reduceAddSub (acc + f i)) acc

/-- `dot_product`, over the `n` entries of `vec`. -/
def dotProduct (n : Nat) (gamma vec : Nat → F) : F :=
  reduceAddSub (sumLoop n setZero fun i => gamma i * vec i)

theorem sumLoop_succ (n : Nat) (acc : F) (f : Nat → F) :
    sumLoop (n + 1) acc f = sumLoop n acc f + f n := by
  simp only [sumLoop, List.range_succ, List.foldl_append, List.foldl_cons, List.foldl_nil]

theorem sumReduceLoop_succ (n : Nat) (acc : F) (f : Nat → F) :
    sumReduceLoop (n + 1) acc f = reduceAddSub (sumReduceLoop n acc f + f n) := by
  simp only [sumReduceLoop, List.range_succ, List.foldl_append, List.foldl_cons, List.foldl_nil]

end

/-- Two loops side by side keep a relation that may depend on the round. -/
theorem foldl_range_rel {α β : Type} {P : Nat → α → β → Prop} {f : α → Nat → α} {g : β → Nat → β}
    {a : α} {b : β} (h : P 0 a b) (m : Nat)
    (hstep : ∀ i < m, ∀ a b, P i a b → P (i + 1) (f a i) (g b i)) :
    P m ((List.range m).foldl f a) ((List.range m).foldl g b) := by
  induction m with
  | zero => exact h
  | succ m ih =>
    rw [List.range_succ, List.foldl_append, List.foldl_append]
    exact hstep m (Nat.lt_succ_self m) _ _ (ih fun i hi => hstep i (hi.trans (Nat.lt_succ_self m)))

/-! ### In the field -/

namespace Exact

theorem sumLoop_eq (n : Nat) (acc : Fp) (f : Nat → Fp) :
    sumLoop n acc f = acc + ∑ i ∈ Finset.range n, f i := by
  induction n with
  | zero => simp [sumLoop]
  | succ n ih => rw [sumLoop_succ, ih, Finset.sum_range_succ, add_assoc]

theorem sumReduceLoop_eq (n : Nat) (acc : Fp) (f : Nat → Fp) :
    sumReduceLoop n acc f = acc + ∑ i ∈ Finset.range n, f i := by
  induction n with
  | zero => simp [sumReduceLoop]
  | succ n ih => rw [sumReduceLoop_succ, ih, Finset.sum_range_succ, add_assoc, reduceAddSub_eq]

theorem dotProduct_eq (n : Nat) (gamma vec : Nat → Fp) :
    dotProduct n gamma vec = ∑ i ∈ Finset.range n, gamma i * vec i := by
  rw [dotProduct, sumLoop_eq, reduceAddSub_eq, setZero_eq, zero_add]

end Exact

/-! ### On limbs -/

namespace Fe25519

/-- `n` lazy additions of limbs up to `C`. -/
theorem rep_sumLoop {B C n : Nat} {x : Fe25519} {e : Fp} {f : Nat → Fe25519} {g : Nat → Fp}
    (hx : Rep B x e) (hf : ∀ i < n, Rep C (f i) (g i)) (h : B + n * C < 2 ^ 32) :
    Rep (B + n * C) (sumLoop n x f) (sumLoop n e g) := by
  induction n with
  | zero =>
    rw [Nat.zero_mul]
    exact hx
  | succ n ih =>
    have hn : B + n * C + C = B + (n + 1) * C := by ring
    rw [← hn] at h ⊢
    have ih := ih (fun i hi => hf i (by omega)) (by omega)
    rw [sumLoop_succ, sumLoop_succ]
    exact ih.add (hf n (by omega)) h

/-- `dot_product` of limbs with room for each product and for their sum. -/
theorem reduced_dotProduct {B C n : Nat} {gamma vec : Nat → Fe25519} {g w : Nat → Fp}
    (hgamma : ∀ i < n, Rep B (gamma i) (g i)) (hvec : ∀ i < n, Rep C (vec i) (w i))
    (hBC : B * C ≤ 3400000) (hn : n * 255 ≤ 3600000000) :
    Reduced (dotProduct n gamma vec) (dotProduct n g w) := by
  have hprod : ∀ i < n, Rep 255 (gamma i * vec i) (FieldOps.mul (g i) (w i)) :=
    fun i hi => (hgamma i hi).mul (hvec i hi) hBC
  exact (rep_sumLoop reduced_setZero.toRep hprod (by omega)).reduce (by omega)

end Fe25519

/-! ## Messages -/

/-- What ends a party without a result. -/
inductive Fault where
  /-- `recv` into a buffer of another size than the message. -/
  | badLength
  /-- A read of a variable that was never assigned. -/
  | uninitialised
  /-- An access outside a vector or an array. -/
  | outOfBounds
  /-- A loop that was cut off. -/
  | outOfFuel
  deriving DecidableEq

/-- A party of a protocol: messages are byte strings. -/
abbrev Party := Proc Fault Bytes

/-- `chl.recv(buffer)` into a buffer of `n` bytes. -/
def recvBytes (n : Nat) : Party Bytes := do
  let buffer ← Proc.get
  Proc.require .badLength (buffer.length == n)
  return buffer

/-- `chl.recv` of a block. -/
def recvBlock : Party Block := do
  let buffer ← recvBytes 16
  return block 16 buffer 0

/-- What follows an exception inside a sub-protocol, given its out-parameters at that point. -/
abbrev OnThrow (α : Type) : Type := α → Party α

/-- An exception that nobody catches. -/
def uncaught {α : Type} : OnThrow α := fun _ => Proc.fault .badLength

/-- `sync_wait(macoro::wrap(..))`: the caller goes on with the out-parameters as they are. -/
def wrapped {α : Type} : OnThrow α := Proc.ret

/-- `chl.recv(buffer)` into a buffer of `n` bytes, then `next`; `thrown` is what follows when it
throws. -/
def recvBytesOr {α : Type} (thrown : Party α) (n : Nat) (next : Bytes → Party α) : Party α :=
  Proc.recv fun m => if m.length = n then next m else thrown

/-- `chl.recv` of a block, then `next`. -/
def recvBlockOr {α : Type} (thrown : Party α) (next : Block → Party α) : Party α :=
  recvBytesOr thrown 16 fun buffer => next (block 16 buffer 0)

/-- `chl.send` of a block. -/
def sendBlock (b : Block) : Party Unit := Proc.put b.toList

/-- `write_vec_to_bytes`: the packed elements in a row. -/
def writeVecToBytes {F : Type} [FieldOps F] (v : List F) : Bytes := concat (v.map pack)

/-- The `i`-th packed element of a buffer. -/
def readFe25519 {F : Type} [FieldOps F] (buffer : Bytes) (i : Nat) : F :=
  unpack (block primeBytes buffer i)

@[simp] theorem length_writeVecToBytes {F : Type} [FieldOps F] (v : List F) :
    (writeVecToBytes v).length = primeBytes * v.length := by
  rw [writeVecToBytes, length_concat, List.length_map]

/-- In exact arithmetic the element read from a buffer is the one written. -/
theorem readFe25519_writeVecToBytes (v : List Fp) {i : Nat} (h : i < v.length) :
    readFe25519 (writeVecToBytes v) i = v[i] := by
  have hblock : block primeBytes (writeVecToBytes v) i = pack v[i] := by
    rw [writeVecToBytes, block_concat _ (by rw [List.length_map]; exact h), List.getElem_map]
  rw [readFe25519, hblock, Exact.unpack_pack]

/-- A row of elements behind a first one. -/
theorem readFe25519_cons_map (first : Fp) (f : Nat → Fp) {n i : Nat} (hi : i < n) :
    readFe25519 (writeVecToBytes (first :: (List.range n).map f)) (1 + i) = f i := by
  rw [readFe25519_writeVecToBytes _ (by simp; omega)]
  simp [Nat.add_comm 1]

theorem readFe25519_pack (x : Fp) : readFe25519 (pack x).toList 0 = x := by
  rw [readFe25519, block_toList, Exact.unpack_pack]

/-! ### Running two parties message by message -/

section

variable {α β : Type} {a : α} {b : β}

/-- A `recv` on its own is one whose exception nobody catches. -/
theorem recvBytes_bind (n : Nat) (f : Bytes → Party α) :
    recvBytes n >>= f = recvBytesOr (Proc.fault .badLength) n f := by
  unfold recvBytes recvBytesOr
  simp only [Proc.get_bind, Proc.recv_bind, bind_assoc]
  refine congrArg Proc.recv (funext fun m => ?_)
  by_cases h : m.length = n
  · rw [if_pos h, show (m.length == n) = true from beq_iff_eq.mpr h]
    rfl
  · rw [if_neg h, show (m.length == n) = false from beq_eq_false_iff_ne.mpr h]
    rfl

section

variable {thrown : Party α} {n : Nat} {m : Bytes} {next : Bytes → Party α} {ms rest : List Bytes}

@[simp] theorem feed_recvBytesOr (hlen : m.length = n) :
    feed (recvBytesOr thrown n next) (m :: ms) = feed (next m) ms := by
  rw [recvBytesOr, feed_recv_cons, if_pos hlen]

theorem feed_recvBytesOr_thrown (hlen : m.length ≠ n) :
    feed (recvBytesOr thrown n next) (m :: ms) = feed thrown ms := by
  rw [recvBytesOr, feed_recv_cons, if_neg hlen]

/-- A `recv` takes the next message, whatever its length. -/
theorem feed_recvBytesOr_returned :
    feed (recvBytesOr thrown n next) ms = .returned a rest ↔
      ∃ m ms', ms = m :: ms' ∧ (m.length = n ∧ feed (next m) ms' = .returned a rest ∨
        m.length ≠ n ∧ feed thrown ms' = .returned a rest) := by
  cases ms with
  | nil =>
    constructor
    · rintro ⟨⟩
    · rintro ⟨m, ms', ⟨⟩, -⟩
  | cons m ms =>
    by_cases hlen : m.length = n
    · rw [feed_recvBytesOr hlen]
      constructor
      · exact fun h => ⟨m, ms, rfl, Or.inl ⟨hlen, h⟩⟩
      · rintro ⟨_, _, ⟨⟩, ⟨-, h⟩ | ⟨hne, -⟩⟩
        · exact h
        · exact absurd hlen hne
    · rw [feed_recvBytesOr_thrown hlen]
      constructor
      · exact fun h => ⟨m, ms, rfl, Or.inr ⟨hlen, h⟩⟩
      · rintro ⟨_, _, ⟨⟩, ⟨heq, -⟩ | ⟨-, h⟩⟩
        · exact absurd heq hlen
        · exact h

end

theorem feed_recvBytes {n : Nat} {m : Bytes} (hlen : m.length = n) (f : Bytes → Party α)
    (ms : List Bytes) : feed (recvBytes n >>= f) (m :: ms) = feed (f m) ms := by
  rw [recvBytes_bind, feed_recvBytesOr hlen]

/-- A `recv` into a buffer goes on with the next message when it has the right length. -/
theorem feed_recvBytes_returned {n : Nat} {f : Bytes → Party α} {ms rest : List Bytes} :
    feed (recvBytes n >>= f) ms = .returned a rest ↔
      ∃ m ms', ms = m :: ms' ∧ m.length = n ∧ feed (f m) ms' = .returned a rest := by
  rw [recvBytes_bind, feed_recvBytesOr_returned]
  constructor
  · rintro ⟨m, ms', rfl, ⟨hlen, h⟩ | ⟨-, h⟩⟩
    · exact ⟨m, ms', rfl, hlen, h⟩
    · rw [feed_fault] at h
      cases h
  · rintro ⟨m, ms', rfl, hlen, h⟩
    exact ⟨m, ms', rfl, Or.inl ⟨hlen, h⟩⟩

/-- The left party reads the buffer the right party sends. -/
theorem runs_recvOr_put {thrown : Party α} {n : Nat} {m : Bytes} {next : Bytes → Party α}
    {q : Unit → Party β} (hlen : m.length = n) (h : Runs (next m) (q ()) a b) :
    Runs (recvBytesOr thrown n next) (Proc.put m >>= q) a b := by
  rw [recvBytesOr, Proc.put_bind]
  refine runs_recv_send ?_
  rw [if_pos hlen]
  exact h

theorem runs_recv_put {n : Nat} {m : Bytes} {f : Bytes → Party α} {q : Unit → Party β}
    (hlen : m.length = n) (h : Runs (f m) (q ()) a b) :
    Runs (recvBytes n >>= f) (Proc.put m >>= q) a b := by
  rw [recvBytes_bind]
  exact runs_recvOr_put hlen h

/-- The right party reads the buffer the left party sends. -/
theorem runs_put_recvOr {thrown : Party β} {n : Nat} {m : Bytes} {p : Unit → Party α}
    {next : Bytes → Party β} (hlen : m.length = n) (h : Runs (p ()) (next m) a b) :
    Runs (Proc.put m >>= p) (recvBytesOr thrown n next) a b := by
  rw [recvBytesOr, Proc.put_bind]
  refine runs_send_recv ?_
  rw [if_pos hlen]
  exact h

theorem runs_put_recv {n : Nat} {m : Bytes} {p : Unit → Party α} {f : Bytes → Party β}
    (hlen : m.length = n) (h : Runs (p ()) (f m) a b) :
    Runs (Proc.put m >>= p) (recvBytes n >>= f) a b := by
  rw [recvBytes_bind]
  exact runs_put_recvOr hlen h

/-- The right party reads the block the left party sends. -/
theorem runs_sendBlock_recvBlockOr {thrown : Party β} {s : Block} {p : Unit → Party α}
    {next : Block → Party β} (h : Runs (p ()) (next s) a b) :
    Runs (sendBlock s >>= p) (recvBlockOr thrown next) a b := by
  unfold sendBlock recvBlockOr
  refine runs_put_recvOr (Vector.length_toList) ?_
  rw [block_toList]
  exact h

theorem runs_sendBlock_recvBlock {s : Block} {p : Unit → Party α} {f : Block → Party β}
    (h : Runs (p ()) (f s) a b) : Runs (sendBlock s >>= p) (recvBlock >>= f) a b := by
  unfold recvBlock
  rw [bind_assoc, recvBytes_bind]
  exact runs_sendBlock_recvBlockOr h

end

end HocusPocus
