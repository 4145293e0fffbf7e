import HocusPocus.Blake2.Model

/-!
# Hashing piece by piece

The digest of a byte string, block by block with the counters written out, and what the state holds
between two `Update`s: all blocks but the last are compressed, and the last one, which may be full,
is in the buffer.

* `Compressed`, `Absorbed`: what holds during and between the calls.
* `update_spec`, `final_spec`: one lemma for each call.
* `hashPieces_eq`: the hash does not depend on how the bytes were cut.
-/

namespace HocusPocus.Blake2b

open Machine

/-! ## The digest -/

/-- The two words of the counter. -/
def counter (n : Nat) : BitVec 64 × BitVec 64 := (BitVec.ofNat 64 n, BitVec.ofNat 64 (n / 2 ^ 64))

/-- The state that an unkeyed digest of `outlen` bytes starts from. -/
def initialH (outlen : Nat) : Vector (BitVec 64) 8 :=
  blake2bIV.setIfInBounds 0 (blake2bIV.getD 0 0 ^^^ 0x01010000 ^^^ BitVec.ofNat 64 outlen)

section

variable (compression : Compression)

/-- The state after the first blocks of `msg`, none of them the last. -/
def chain (h : Vector (BitVec 64) 8) (msg : Bytes) : Nat → Vector (BitVec 64) 8
  | 0 => h
  | q + 1 => compression (chain h msg q) (counter (128 * (q + 1))) (0, 0) (block 128 msg q)

/-- The number of blocks before the last; the empty string has one block. -/
def lastBlock (msg : Bytes) : Nat := (msg.length - 1) / 128

/-- The digest of `msg`. -/
def digest (outlen : Nat) (msg : Bytes) : Bytes :=
  let h := compression (chain compression (initialH outlen) msg (lastBlock msg))
    (counter msg.length) (BitVec.allOnes 64, 0) (block 128 msg (lastBlock msg))
  (concat (h.toList.map store64)).take outlen

end

/-! ## Bytes -/

theorem block_append_of_le {n : Nat} (msg rest : Bytes) {i : Nat} (h : n * (i + 1) ≤ msg.length) :
    block n (msg ++ rest) i = block n msg i := by
  refine Vector.ext fun j hj => ?_
  have hlt : n * i + j < msg.length := by
    rw [Nat.mul_succ] at h
    omega
  simp only [block, Vector.getElem_ofFn]
  exact List.getD_append _ _ _ _ hlt

theorem block_drop {n : Nat} (msg : Bytes) (q : Nat) :
    block n (msg.drop (n * q)) 0 = block n msg q := by
  refine Vector.ext fun j hj => ?_
  simp only [block, Vector.getElem_ofFn, List.getD_eq_getElem?_getD, List.getElem?_drop,
    Nat.mul_zero, Nat.zero_add]

/-- A block is the bytes that are there, with zeros after the end of the string. -/
theorem toList_block {n : Nat} (msg : Bytes) (q : Nat) :
    (block n msg q).toList
      = (msg.drop (n * q)).take n ++ List.replicate (n - (msg.length - n * q)) 0 := by
  refine List.ext_getElem ?_ fun j h1 h2 => ?_
  · simp only [Vector.length_toList, List.length_append, List.length_take, List.length_drop,
      List.length_replicate]
    omega
  · rw [Vector.length_toList] at h1
    simp only [Vector.getElem_toList, block, Vector.getElem_ofFn, List.getElem_append]
    split
    · next hlt =>
      rw [List.length_take, List.length_drop] at hlt
      rw [List.getD_eq_getElem _ _ (by omega), List.getElem_take, List.getElem_drop]
    · next hge =>
      rw [List.length_take, List.length_drop] at hge
      rw [List.getElem_replicate, List.getD_eq_default _ _ (by omega)]

theorem eq_block {n : Nat} {buf : Vector UInt8 n} {msg : Bytes} {q : Nat}
    (h : buf.toList.take n
      = (msg.drop (n * q)).take n ++ List.replicate (n - (msg.length - n * q)) 0) :
    buf = block n msg q := by
  rw [List.take_of_length_le Vector.length_toList.le, ← toList_block] at h
  exact Vector.toList_inj.mp h

/-- **A `memcpy` inside the buffer**: the bytes before it stay. -/
theorem copyInto_spec (buf : Vector UInt8 128) {off : Nat} {src : Bytes}
    (h : off + src.length ≤ 128) :
    ∃ buf', copyInto buf off src = some buf' ∧
      buf'.toList.take (off + src.length) = buf.toList.take off ++ src := by
  refine ⟨_, if_pos h, List.ext_getElem ?_ fun j h1 h2 => ?_⟩
  · simp only [List.length_take, List.length_append, Vector.length_toList]
    omega
  · rw [List.length_take, Vector.length_toList] at h1
    have hlen : (buf.toList.take off).length = off := by
      rw [List.length_take, Vector.length_toList]
      omega
    rw [List.getElem_take, Vector.getElem_toList, Vector.getElem_ofFn]
    change (if off ≤ j ∧ j < off + src.length then src.getD (j - off) 0 else buf[j]) = _
    by_cases hj : off ≤ j
    · rw [if_pos ⟨hj, by omega⟩, List.getD_eq_getElem _ _ (by omega),
        List.getElem_append_right (hlen.trans_le hj)]
      simp only [hlen]
    · rw [if_neg (fun hin => hj hin.1), List.getElem_append_left (by omega), List.getElem_take,
        Vector.getElem_toList]

/-! ## The counter -/

/-- **The carry** of the counter. -/
theorem counter_add (n : Nat) {inc : Nat} (hinc : inc < 2 ^ 64) :
    ((counter n).1 + BitVec.ofNat 64 inc,
      (counter n).2 + if (counter n).1 + BitVec.ofNat 64 inc < BitVec.ofNat 64 inc then 1 else 0)
      = counter (n + inc) := by
  have hsum : BitVec.ofNat 64 n + BitVec.ofNat 64 inc = BitVec.ofNat 64 (n + inc) :=
    (BitVec.ofNat_add n inc).symm
  have hlt : (BitVec.ofNat 64 (n + inc) < BitVec.ofNat 64 inc) ↔ 2 ^ 64 ≤ n % 2 ^ 64 + inc := by
    rw [BitVec.lt_def, BitVec.toNat_ofNat, BitVec.toNat_ofNat, Nat.mod_eq_of_lt hinc]
    omega
  simp only [counter, hsum, hlt]
  refine Prod.ext rfl ?_
  have hone : (1 : BitVec 64) = BitVec.ofNat 64 1 := rfl
  have hzero : (0 : BitVec 64) = BitVec.ofNat 64 0 := rfl
  split
  · next hcarry =>
    rw [hone, ← BitVec.ofNat_add]
    refine congrArg (BitVec.ofNat 64) ?_
    omega
  · next hcarry =>
    rw [hzero, ← BitVec.ofNat_add]
    refine congrArg (BitVec.ofNat 64) ?_
    omega

/-! ## The state -/

section

variable {compression : Compression} {outlen q : Nat} {S : Blake2b} {msg rest : Bytes}

theorem chain_append (h : Vector (BitVec 64) 8) (hq : 128 * q ≤ msg.length) :
    chain compression h (msg ++ rest) q = chain compression h msg q := by
  induction q with
  | zero => rfl
  | succ q ih => rw [chain, chain, ih (by omega), block_append_of_le msg rest hq]

/-- The first `q` blocks of `msg` are compressed. -/
structure Compressed (compression : Compression) (outlen : Nat) (S : Blake2b) (msg : Bytes)
    (q : Nat) : Prop where
  h : S.h = chain compression (initialH outlen) msg q
  t : S.t = counter (128 * q)
  f : S.f = (0, 0)
  outlen_eq : S.outlen = outlen
  lastNode : S.lastNode = 0

/-- All blocks of `msg` before the last are compressed, and the last one is in the buffer. -/
structure Absorbed (compression : Compression) (outlen : Nat) (S : Blake2b) (msg : Bytes) :
    Prop where
  compressed : Compressed compression outlen S msg (lastBlock msg)
  buflen : S.buflen = msg.length - 128 * lastBlock msg
  buf : S.buf.toList.take S.buflen = msg.drop (128 * lastBlock msg)

/-- The last block is not too long, and not empty unless `msg` is. -/
theorem lastBlock_spec (msg : Bytes) :
    128 * lastBlock msg ≤ msg.length ∧ msg.length ≤ 128 * lastBlock msg + 128 ∧
      (0 < msg.length → 128 * lastBlock msg < msg.length) := by
  unfold lastBlock
  omega

theorem Compressed.append (hc : Compressed compression outlen S msg q)
    (hq : 128 * q ≤ msg.length) : Compressed compression outlen S (msg ++ rest) q :=
  { hc with h := hc.h.trans (chain_append _ hq).symm }

/-- One more block. -/
theorem Compressed.compress (hc : Compressed compression outlen S msg q) :
    Compressed compression outlen
      (compress compression (blake2bIncrementCounter S 128) (block 128 msg q)) msg (q + 1) := by
  have ht : (blake2bIncrementCounter S 128).t = counter (128 * (q + 1)) := by
    have hadd := @counter_add (128 * q) 128 (by norm_num)
    rw [← hc.t] at hadd
    exact hadd
  refine ⟨?_, ht, hc.f, hc.outlen_eq, hc.lastNode⟩
  rw [chain, ← hc.h, ← ht]
  exact congrArg (compression S.h _ · _) hc.f

/-- **The loop of `blake2b_update`** leaves the last block. -/
theorem compressBlocks_spec (hc : Compressed compression outlen S msg q)
    (hq : 128 * q < msg.length) :
    ∃ S', compressBlocks compression S (msg.drop (128 * q))
        = (S', msg.drop (128 * lastBlock msg)) ∧
      Compressed compression outlen S' msg (lastBlock msg) ∧ S'.buflen = S.buflen := by
  induction hn : lastBlock msg - q generalizing S q with
  | zero =>
    have hlast : lastBlock msg = q := by
      unfold lastBlock at hn ⊢
      omega
    rw [compressBlocks, dif_neg, hlast]
    · exact ⟨S, rfl, hc, rfl⟩
    · rw [List.length_drop]
      unfold lastBlock at hlast
      unfold blake2bBlockBytes
      omega
  | succ n ih =>
    have hlong : blake2bBlockBytes < (msg.drop (128 * q)).length := by
      rw [List.length_drop]
      unfold lastBlock at hn
      unfold blake2bBlockBytes
      omega
    rw [compressBlocks, dif_pos hlong, block_drop, List.drop_drop]
    refine ih hc.compress ?_ (by omega)
    rw [List.length_drop, blake2bBlockBytes] at hlong
    omega

/-- **The last bytes are kept**, after the ones that were in the buffer. -/
theorem keep_spec {input : Bytes} (hc : Compressed compression outlen S msg (lastBlock msg))
    (hbuflen : S.buflen ≤ 128)
    (hbuf : S.buf.toList.take S.buflen ++ input = msg.drop (128 * lastBlock msg)) :
    ∃ S', keep S input = some S' ∧ Absorbed compression outlen S' msg := by
  have hlen : S.buflen + input.length = msg.length - 128 * lastBlock msg := by
    have h := congrArg List.length hbuf
    rw [List.length_append, List.length_take, Vector.length_toList, List.length_drop] at h
    omega
  have hlast := lastBlock_spec msg
  obtain ⟨buf', hcopy, htake⟩ := copyInto_spec S.buf (show S.buflen + input.length ≤ 128 by omega)
  refine ⟨{ S with buf := buf', buflen := S.buflen + input.length }, by rw [keep, hcopy]; rfl, ?_⟩
  exact ⟨⟨hc.h, hc.t, hc.f, hc.outlen_eq, hc.lastNode⟩, hlen, htake.trans hbuf⟩

/-! ## The calls -/

theorem Absorbed.buflen_le (ha : Absorbed compression outlen S msg) : S.buflen ≤ 128 := by
  have hlast := lastBlock_spec msg
  rw [ha.buflen]
  omega

/-- The chaining value that the parameter block gives. -/
theorem init_h : ∀ k < 65,
    (Vector.ofFn fun i : Fin 8 => blake2bIV.get i ^^^ load64 (block 8 (param k) i))
      = initialH k := by
  decide +kernel

/-- **`blake2b_init`** starts on the empty string. -/
theorem init_spec (compression : Compression) (h0 : 0 < outlen) (h64 : outlen ≤ 64) :
    ∃ S, blake2bInit outlen = some S ∧ Absorbed compression outlen S [] := by
  refine ⟨_, if_neg ?_, ⟨⟨init_h outlen (by omega), rfl, rfl, rfl, rfl⟩, rfl, rfl⟩⟩
  unfold blake2bOutBytes
  omega

/-- **`blake2b_update`** absorbs its bytes. -/
theorem update_spec (ha : Absorbed compression outlen S msg) (input : Bytes) :
    ∃ S', blake2bUpdate compression S input = some S' ∧
      Absorbed compression outlen S' (msg ++ input) := by
  have hlast := lastBlock_spec msg
  have hbuflen := ha.buflen
  rw [blake2bUpdate]
  split
  · next hpos =>
    dsimp only
    split
    · next hfill =>
      unfold blake2bBlockBytes at *
      -- the buffer and the first bytes of the input are one block
      have hlong : 128 * (lastBlock msg + 1) < (msg ++ input).length := by
        rw [List.length_append]
        omega
      have htake : (input.take (128 - S.buflen)).length = 128 - S.buflen :=
        List.length_take_of_le hfill.le
      obtain ⟨buf', hcopy, hbuf'⟩ := copyInto_spec S.buf
        (show S.buflen + (input.take (128 - S.buflen)).length ≤ 128 by omega)
      have hblock : buf' = block 128 (msg ++ input) (lastBlock msg) := by
        rw [ha.buf, htake, Nat.add_sub_cancel' ha.buflen_le] at hbuf'
        refine eq_block ?_
        have hall : (msg.drop (128 * lastBlock msg)).take 128 = msg.drop (128 * lastBlock msg) :=
          List.take_of_length_le (by rw [List.length_drop]; omega)
        have hnone : 128 - ((msg ++ input).length - 128 * lastBlock msg) = 0 := by omega
        rw [hbuf', List.drop_append_of_le_length hlast.1, List.take_append, hall, List.length_drop,
          ← hbuflen, hnone, List.replicate_zero, List.append_nil]
      have hdrop : input.drop (128 - S.buflen)
          = (msg ++ input).drop (128 * (lastBlock msg + 1)) := by
        have hnone : msg.drop (128 * (lastBlock msg + 1)) = [] :=
          List.drop_eq_nil_of_le (by omega)
        rw [List.drop_append, hnone, List.nil_append]
        congr 1
        omega
      have hc : Compressed compression outlen S (msg ++ input) (lastBlock msg) :=
        ha.compressed.append hlast.1
      have hc' : Compressed compression outlen { S with buf := buf', buflen := 0 } (msg ++ input)
          (lastBlock msg) := ⟨hc.h, hc.t, hc.f, hc.outlen_eq, hc.lastNode⟩
      obtain ⟨S', hrest, hdone, hzero⟩ := compressBlocks_spec hc'.compress hlong
      rw [← hblock, ← hdrop] at hrest
      have hzero' : S'.buflen = 0 := hzero
      obtain ⟨S'', hkeep, habs⟩ := keep_spec hdone (by omega)
        (show S'.buf.toList.take S'.buflen ++ _ = _ by rw [hzero', List.take_zero, List.nil_append])
      refine ⟨S'', ?_, habs⟩
      rw [hcopy]
      simp only [Option.bind_eq_bind, Option.bind_some, hrest]
      exact hkeep
    · next hfit =>
      unfold blake2bBlockBytes at hfit
      have hsame : lastBlock (msg ++ input) = lastBlock msg := by
        unfold lastBlock at *
        rw [List.length_append]
        omega
      refine keep_spec ?_ ha.buflen_le ?_
      · rw [hsame]
        exact ha.compressed.append hlast.1
      · rw [hsame, ha.buf, List.drop_append_of_le_length hlast.1]
  · next hnil =>
    have hempty : input = [] := List.eq_nil_of_length_eq_zero (by omega)
    rw [hempty, List.append_nil]
    exact ⟨S, rfl, ha⟩

/-- **`blake2b_final`** compresses the last block. -/
theorem final_spec (ha : Absorbed compression outlen S msg) :
    blake2bFinal compression S S.outlen = some (digest compression outlen msg) := by
  have hlast := lastBlock_spec msg
  have hbuflen := ha.buflen
  have hle := ha.buflen_le
  have hc := ha.compressed
  obtain ⟨buf', hcopy, hbuf'⟩ := copyInto_spec S.buf
    (show S.buflen + (List.replicate (128 - S.buflen) (0 : UInt8)).length ≤ 128 by
      rw [List.length_replicate]; omega)
  have hblock : buf' = block 128 msg (lastBlock msg) := by
    rw [ha.buf, List.length_replicate, Nat.add_sub_cancel' hle] at hbuf'
    have hall : (msg.drop (128 * lastBlock msg)).take 128 = msg.drop (128 * lastBlock msg) :=
      List.take_of_length_le (by rw [List.length_drop]; omega)
    exact eq_block (by rw [hbuf', hall, hbuflen])
  have hadd := @counter_add (128 * lastBlock msg) S.buflen (by omega)
  have hfit : 128 * lastBlock msg + S.buflen = msg.length := by omega
  rw [← hc.t, hfit] at hadd
  have hf : (blake2bSetLastblock S).f = (BitVec.allOnes 64, 0) := by
    rw [blake2bSetLastblock, if_neg (not_not.mpr hc.lastNode), hc.f]
  rw [blake2bFinal, if_neg]
  · change (copyInto S.buf S.buflen (List.replicate (128 - S.buflen) 0)).bind _ = _
    rw [hcopy, Option.bind_some, hblock, digest, ← hadd, ← hc.h, ← hf, ← hc.outlen_eq]
    rfl
  · rw [hc.f]
    simp

/-- Any number of `blake2b_update`s. -/
theorem updates_spec (ha : Absorbed compression outlen S msg) (pieces : List Bytes) :
    ∃ S', pieces.foldlM (blake2bUpdate compression) S = some S' ∧
      Absorbed compression outlen S' (msg ++ pieces.flatten) := by
  induction pieces generalizing S msg with
  | nil =>
    rw [List.flatten_nil, List.append_nil]
    exact ⟨S, rfl, ha⟩
  | cons input pieces ih =>
    obtain ⟨S₁, hone, ha₁⟩ := update_spec ha input
    obtain ⟨S₂, hrest, ha₂⟩ := ih ha₁
    refine ⟨S₂, ?_, ?_⟩
    · rw [List.foldlM_cons, hone]
      exact hrest
    · rwa [List.flatten_cons, ← List.append_assoc]

end

/-- **Cutting the bytes differently does not change the hash**: with any compression, any number of
`Update`s of any lengths, empty ones and whole blocks included, give the digest of all the bytes in
order, for every output length that `blake2b_init` takes. No `memcpy` leaves the buffer and no call
fails. -/
theorem hashPieces_eq (compression : Compression) {outputLength : Nat} (h0 : 0 < outputLength)
    (h64 : outputLength ≤ 64) (pieces : List Bytes) :
    hashPieces compression outputLength pieces
      = some (digest compression outputLength pieces.flatten) := by
  obtain ⟨S, hinit, ha⟩ := init_spec compression h0 h64
  obtain ⟨S', hupdates, ha'⟩ := updates_spec ha pieces
  rw [hashPieces, hinit]
  simp only [Option.bind_eq_bind, Option.bind_some, hupdates]
  rw [final_spec ha', List.nil_append]

/-- Two `Update`s that fill the buffer and then run over it. -/
theorem hashPieces_eq_example :
    hashPieces blake2bCompress 64 [List.replicate 128 1, [], List.replicate 3 2]
      = some (digest blake2bCompress 64 (List.replicate 128 1 ++ List.replicate 3 2)) :=
  hashPieces_eq blake2bCompress (by decide) (by decide) [List.replicate 128 1, [], _]

end HocusPocus.Blake2b
