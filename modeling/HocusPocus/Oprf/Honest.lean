import HocusPocus.Oprf.Challenge
import HocusPocus.Oprf.Transcript
import HocusPocus.Oprf.Witness
import HocusPocus.Zkp.Agree
import HocusPocus.Zkp.Commit

/-!
# What the two honest parties compute

The values of a run of `eval` against `blindedEval`, part by part: the correlations, the symbols,
the openings, the constraints and the transcript.

* `zkp_correlation`, `vole_correlation`: the rows of the two parties.
* `symbol_opening`: the opening of a challenged index has the symbol sent for it.
* `honest_constraint`: the witness satisfies every constraint of the run's statement.
* `honest_transcript`: the transcript depends on the powers `D` and the input only.
-/

namespace HocusPocus.OPRF

open Machine FieldOps FastResidue Finset

/-! ## The assumptions of a run -/

section

variable {F : Type}

/-- The trees of a run: those of the proof system, then those of VOLE+. -/
def trees (o : OPRF F) : Nat := o.zk.kVole + o.volePlus.kVole

/-- The leaves `a` of the client and `b_ot` of the server differ at the points only. -/
structure Punctured (o : OPRF F) (a bOt : Nat → Block) (points : Nat → Nat) : Prop where
  point_lt : ∀ j < o.trees, points j < 2 ^ o.smallSetBits
  leaf_eq : ∀ j < o.trees, ∀ i < 2 ^ o.smallSetBits, i ≠ points j →
    a (2 ^ o.smallSetBits * j + i) = bOt (2 ^ o.smallSetBits * j + i)

end

/-- The sizes the proof system and the challenge are written for. -/
structure Supported (o : OPRF Fp) : Prop where
  lenEval : o.lenEval = 10
  k : o.k = 53
  le_lenCom : 53 ≤ o.lenCom
  lenCom_le : o.lenCom ≤ 256
  offsets_length : o.offsets.length = o.lenCom + o.lenEval
  le_bits : 2 ≤ o.smallSetBits
  bits_le : o.smallSetBits ≤ 10
  multipliersFit : o.zk.multipliersFit = true

/-- The key passes the guard and has no symbol 0, and the roots of the `v_i` and `b_i` are not 0. -/
structure HonestServer (o : OPRF Fp) (Key : Fp) (prng : Prng) : Prop where
  guard : Key ∉ o.offsets
  symbol_ne : ∀ i < o.lenCom, o.serverSymbol Key i ≠ 0
  v_ne : ∀ i < o.lenEval, (draw prng i : Fp) ≠ 0
  b_ne : ∀ i < o.k, (draw prng (o.lenEval + 2 + i) : Fp) ≠ 0

/-! ## The correlations -/

section

variable {o : OPRF Fp} {expand : Block → Nat → UInt8} {a bOt : Nat → Block} {points : Nat → Nat}

/-- The correlation of one tree. -/
theorem Punctured.correlation (hp : o.Punctured a bOt points) (h2 : 2 ≤ o.smallSetBits)
    (h12 : o.smallSetBits ≤ 12) {off i : Nat} (hi : off + i < o.trees) (j : Nat) :
    (SmallSetVoleReceiver25519.receive expand o.smallSetBits a off points : ReceiverRows Fp).o i j
      = (SmallSetVoleSender25519.send expand o.smallSetBits bOt off : SenderRows Fp).u i j
        + (SmallSetVoleReceiver25519.receive expand o.smallSetBits a off points
            : ReceiverRows Fp).h i
          * (SmallSetVoleSender25519.send expand o.smallSetBits bOt off : SenderRows Fp).v i j := by
  refine SmallSetVole.exact_correlation expand h2 h12 (hp.point_lt _ hi) (fun m hm hne => ?_) j
  have hpos : off * 2 ^ o.smallSetBits + 2 ^ o.smallSetBits * i + m
      = 2 ^ o.smallSetBits * (off + i) + m := by ring
  rw [SmallSetVole.treeLeaf, SmallSetVole.treeLeaf, hpos]
  exact hp.leaf_eq _ hi m hm hne

/-- The rows of the proof system. -/
theorem zkp_correlation (hp : o.Punctured a bOt points) (h2 : 2 ≤ o.smallSetBits)
    (h12 : o.smallSetBits ≤ 12) {i : Nat} (hi : i < o.zk.kVole) (j : Nat) :
    (o.clientZkp expand a points).o i j
      = (o.serverZkp expand bOt).u i j
        + (o.clientZkp expand a points).h i * (o.serverZkp expand bOt).v i j :=
  hp.correlation h2 h12 (by unfold trees; omega) j

/-- The rows of VOLE+. -/
theorem vole_correlation (hp : o.Punctured a bOt points) (h2 : 2 ≤ o.smallSetBits)
    (h12 : o.smallSetBits ≤ 12) {i : Nat} (hi : i < o.volePlus.kVole) (j : Nat) :
    (o.clientVole expand a points).o i j
      = (o.serverVole expand bOt).u i j
        + (o.clientVole expand a points).h i * (o.serverVole expand bOt).v i j :=
  hp.correlation h2 h12 (by unfold trees; omega) j

end

/-! ## Symbols and openings -/

section

variable {o : OPRF Fp} {Key : Fp} {prng : Prng}

theorem serverV_eq (i : Nat) : (serverV prng i : Fp) = draw prng i ^ eps := by
  rw [serverV, fastPowEps_eq]

theorem serverB_eq (i : Nat) : o.serverB prng i = draw prng (o.lenEval + 2 + i) ^ eps := by
  rw [serverB, fastPowEps_eq]

/-- The message of phase 4. -/
def packedSymbols (o : OPRF Fp) (Key : Fp) : Bytes :=
  concat ((List.range o.lenCom).map fun i => bytesOfSymbol (o.serverSymbol Key i))

theorem packAll_symbols :
    packAll (o.serverSymbol Key) o.lenCom (List.replicate (o.lenCom * symbolBytes) 0)
      = some (o.packedSymbols Key) := by
  rw [packAll_eq _ (by rw [List.length_replicate]), List.drop_of_length_le (by simp),
    List.append_nil]
  rfl

theorem length_packedSymbols : (o.packedSymbols Key).length = o.lenCom * symbolBytes := by
  rw [packedSymbols, length_concat, List.length_map, List.length_range, Nat.mul_comm]

/-- The client reads the symbols the server packed. -/
theorem readSymbol_packedSymbols {i : Nat} (hi : i < o.lenCom) :
    readSymbol (o.packedSymbols Key) i = o.serverSymbol Key i := by
  refine unpack_bytesOfSymbol ?_ (presidueEps_lt _)
  rw [packedSymbols, block_concat _ (by simpa using hi), List.getElem_map, List.getElem_range]

/-- The symbols of an honest server pass the check of phase 4. -/
theorem HonestServer.symbolsNonzero (hs : o.HonestServer Key prng) :
    o.symbolsNonzero (readSymbol (o.packedSymbols Key)) = true := by
  refine List.all_eq_true.mpr fun i hi => bne_iff_ne.mpr ?_
  have hi := List.mem_range.mp hi
  rw [readSymbol_packedSymbols hi]
  exact hs.symbol_ne i hi

/-- **The blinding `b_i` is invisible**: an opening has the symbol of the index it opens. -/
theorem symbol_opening {b : Nat → Fp} {r : Fp} (hr : r ≠ 0) {c : Bytes} {i : Nat}
    (hb : b i = r ^ eps) :
    presidueEps (o.serverOpening Key b c i) = o.serverSymbol Key (c.getD i 0).toNat := by
  rw [serverOpening, serverSymbol, hb, presidueEps_eq, presidueEps_eq, pow_eps_mul_pow_D hr,
    Nat.add_comm o.lenEval]

/-- The message of phase 6. -/
def openings (o : OPRF Fp) (Key : Fp) (b : Nat → Fp) (c : Bytes) : Bytes :=
  writeVecToBytes ((List.range o.k).map (o.serverOpening Key b c))

theorem readFe25519_openings {b : Nat → Fp} {c : Bytes} {i : Nat} (hi : i < o.k) :
    readFe25519 (o.openings Key b c) i = o.serverOpening Key b c i := by
  rw [openings, readFe25519_writeVecToBytes _ (by simpa using hi), List.getElem_map,
    List.getElem_range]

/-- The openings of an honest server pass the check of phase 6. -/
theorem HonestServer.openingsMatch (hs : o.HonestServer Key prng) {c : List Nat}
    (hread : ∀ i < o.k,
      ((c.map UInt8.ofNat).getD i 0).toNat = c.getD i 0 ∧ c.getD i 0 < o.lenCom) :
    o.openingsMatch (readSymbol (o.packedSymbols Key)) c
      (readFe25519 (o.openings Key (o.serverB prng) (c.map UInt8.ofNat))) = true := by
  refine List.all_eq_true.mpr fun i hi => beq_iff_eq.mpr ?_
  have hi := List.mem_range.mp hi
  obtain ⟨hbyte, hci⟩ := hread i hi
  rw [readFe25519_openings hi, readSymbol_packedSymbols hci,
    symbol_opening (hs.b_ne i hi) (serverB_eq i), hbyte]

theorem length_openings {b : Nat → Fp} {c : Bytes} :
    (o.openings Key b c).length = o.k * primeBytes := by
  rw [openings, length_writeVecToBytes, List.length_map, List.length_range, Nat.mul_comm]

end

/-! ## The constraints -/

section

variable {o : OPRF Fp} {Key ru rv : Fp} {v b gamma : Nat → Fp} {c : Bytes}

/-- The statement of an honest run, as the client has it. -/
def honestStatement (o : OPRF Fp) (Key : Fp) (v b gamma : Nat → Fp) (ru rv : Fp) (c : Bytes) :
    Statement Fp :=
  { gamma
    mm := readFe25519 (o.openings Key b c)
    cu := ru + ∑ j ∈ range o.lenEval, gamma j * o.serverU Key v j
    cv := rv + ∑ j ∈ range o.lenEval, gamma j * v j
    offsets := o.offsets
    c }

/-- **The witness of `blindedEval` satisfies every constraint.** -/
theorem honest_constraint (hleval : o.lenEval = 10) (hk : o.k = 53) {r : Nat → Fp}
    (hr : ∀ i < 10, r i ≠ 0) (hv : ∀ i < 10, v i = r i ^ eps) {i : Nat} (h1 : 1 ≤ i)
    (hi : i ≤ o.zk.k + 15) :
    o.zk.constraint (o.honestStatement Key v b gamma ru rv c) (o.wAt Key v b ru rv) i = 0 := by
  have hzk : o.zk.k = 53 := hk
  have hrange : o.zk.leval = o.lenEval := rfl
  by_cases hlate : o.zk.k + 3 ≤ i
  · obtain ⟨n, rfl⟩ := Nat.exists_eq_add_of_le hlate
    rw [ZkParams.constraint_late]
    exact witness_late hleval hk hr hv (by omega)
  unfold ZkParams.constraint
  by_cases heq1 : i = 1
  · rw [if_pos heq1, wAt_ru hleval hk, wAt_K, hrange]
    have hsum : ∑ j ∈ range o.lenEval,
          (o.honestStatement Key v b gamma ru rv c).gamma j
            * (Key + ZkParams.lPrime (o.honestStatement Key v b gamma ru rv c) j)
            * o.wAt Key v b ru rv (vOffset + j)
        = ∑ j ∈ range o.lenEval, gamma j * o.serverU Key v j := by
      refine sum_congr rfl fun j hj => ?_
      have hj := mem_range.mp hj
      have hl : ZkParams.lPrime (o.honestStatement Key v b gamma ru rv c) j = o.offset j := rfl
      rw [wAt_v hleval (by omega), serverU, Exact.reduceAddSub_eq, hl]
      simp only [honestStatement]
      ring
    rw [hsum]
    simp only [honestStatement]
    ring
  by_cases heq2 : i = 2
  · rw [if_neg heq1, if_pos heq2, wAt_rv hleval hk, hrange]
    have hsum : ∑ j ∈ range o.lenEval,
          (o.honestStatement Key v b gamma ru rv c).gamma j * o.wAt Key v b ru rv (vOffset + j)
        = ∑ j ∈ range o.lenEval, gamma j * v j := by
      refine sum_congr rfl fun j hj => ?_
      have hj := mem_range.mp hj
      rw [wAt_v hleval (by omega)]
      rfl
    rw [hsum]
    simp only [honestStatement]
    ring
  · have hopen : (o.honestStatement Key v b gamma ru rv c).mm (i - 3)
        = o.serverOpening Key b c (i - 3) := readFe25519_openings (by omega)
    have hlc : o.zk.lc (o.honestStatement Key v b gamma ru rv c) (i - 3)
        = o.offset (o.lenEval + (c.getD (i - 3) 0).toNat) := rfl
    rw [if_neg heq1, if_neg heq2, if_pos (by omega), hopen, hlc, wAt_K,
      wAt_b hleval hk (by omega), serverOpening, sub_self]

end

/-! ## The transcript -/

section

variable {o : OPRF Fp} {Key h : Fp} {v : Nat → Fp} {x : Bytes}

/-- The transcript in terms of the powers `D`. -/
def powersTranscript (o : OPRF Fp) (Key h : Fp) (x : Bytes) : Bytes :=
  o.packed (fun i => truncate ((Key + o.offset (i + o.lenEval)) ^ powDExp))
    (fun i => (truncate ((Key + o.offset i + h) ^ powDExp)).toUInt32.toUInt64) x

theorem packed_congr {e e' s s' : Nat → UInt64} (he : ∀ i < o.lenCom, e i = e' i)
    (hs : ∀ i < o.lenEval, s i = s' i) : o.packed e s x = o.packed e' s' x := by
  have hcom : (List.range o.lenCom).map (fun i => bytesOfSymbol (e i))
      = (List.range o.lenCom).map fun i => bytesOfSymbol (e' i) :=
    List.map_congr_left fun i hi => by rw [he i (List.mem_range.mp hi)]
  have heval : (List.range o.lenEval).map (fun i => bytesOfSymbol (s i))
      = (List.range o.lenEval).map fun i => bytesOfSymbol (s' i) :=
    List.map_congr_left fun i hi => by rw [hs i (List.mem_range.mp hi)]
  rw [packed, packed, hcom, heval]

/-- **The blinding `v_i` is invisible**: the transcript of the client is that of the powers. -/
theorem honest_transcript {symBufLen : Nat} (hbuf : symbolBytes ≤ symBufLen) {r : Nat → Fp}
    (hr : ∀ i < o.lenEval, r i ≠ 0) (hv : ∀ i < o.lenEval, v i = r i ^ eps) :
    o.transcript symBufLen (readSymbol (o.packedSymbols Key))
        ((List.range o.lenEval).map fun j => o.serverU Key v j + h * v j) x
      = some (o.powersTranscript Key h x) := by
  rw [transcript_eq hbuf (by simp), powersTranscript]
  refine congrArg some (packed_congr (fun i hi => ?_) fun i hi => ?_)
  · rw [readSymbol_packedSymbols hi, serverSymbol, presidueEps_eq]
  · have hmask : o.serverU Key v i + h * v i = r i ^ eps * (Key + o.offset i + h) := by
      rw [serverU, Exact.reduceAddSub_eq, hv i hi]
      ring
    rw [List.getD_eq_getElem _ _ (by simpa using hi), List.getElem_map, List.getElem_range, hmask,
      symPrime, presidueEpsPrime, presidueEps_eq, pow_eps_mul_pow_D (hr i hi)]

end

/-! ## A small instance -/

/-- The smallest number of symbols, with powers of one `eps`-th power as offsets. -/
def sample : OPRF Fp :=
  ⟨10, 53, 53, 64, 8, (List.range 63).map fun i => (((2 : Nat) : Fp) ^ eps) ^ i⟩

theorem sample_supported : sample.Supported :=
  ⟨rfl, rfl, le_rfl, by decide, by simp [sample], by decide, by decide, by decide⟩

/-- The offsets of the instance are distinct, as the constructor's are: `2 ^ EPS` has the prime
order `D`. -/
theorem sample_nodup : sample.offsets.Nodup := by
  have hne : (2 : Fp) ^ eps ≠ 1 := by
    intro h
    have hcast : ((2 ^ eps : Nat) : Fp) = (1 : Nat) := by
      rw [Nat.cast_pow, Nat.cast_one]
      exact h
    rw [ZMod.natCast_eq_natCast_iff'] at hcast
    revert hcast
    decide +kernel
  have horder : orderOf ((2 : Fp) ^ eps) = powDExp :=
    haveI : Fact powDExp.Prime := ⟨powDExp_prime⟩
    orderOf_eq_prime (pow_eps_pow_D fp_two_ne_zero) hne
  refine List.Nodup.map_on (fun i hi j hj h => ?_) List.nodup_range
  have hbound : 63 ≤ orderOf ((2 : Fp) ^ eps) := by
    rw [horder]
    decide +kernel
  exact pow_injOn_Iio_orderOf ((List.mem_range.mp hi).trans_le hbound)
    ((List.mem_range.mp hj).trans_le hbound) h

/-- A stream of ones, as `random_fe25519` reads it. -/
def ones : Prng := ⟨fun i => if i % 32 = 0 then 1 else 0, 0⟩

theorem draw_ones (i : Nat) : (draw ones i : Fp) = 1 := by
  have hone : FieldOps.pack (1 : Fp)
      = Vector.ofFn fun j : Fin 32 => if j.val = 0 then (1 : UInt8) else 0 := by
    rw [Exact.pack_eq, ZMod.val_one]
    decide
  have hbytes : (ones.skip (primeBytes * i)).bytes primeBytes = FieldOps.pack (1 : Fp) := by
    rw [hone]
    refine Vector.ext fun j hj => ?_
    have hj : j < 32 := hj
    have hmod : (0 + 32 * i + j) % 32 = j := by omega
    rw [Prng.bytes, Vector.getElem_ofFn, Vector.getElem_ofFn]
    simp only [Prng.skip, ones, primeBytes, hmod]
  rw [draw, hbytes, Exact.unpack_pack]

/-- Every symbol of the instance is 1: with the key 0 all sums are `eps`-th powers. -/
theorem sample_symbol {i : Nat} (hi : i < 53) : sample.serverSymbol 0 i = truncate 1 := by
  have hget : sample.offset (i + sample.lenEval) = ((2 : Fp) ^ eps) ^ (i + 10) := by
    have hlt : i + sample.lenEval < sample.offsets.length := by
      rw [sample_supported.offsets_length]
      exact Nat.add_lt_add_right hi _
    rw [offset, List.getD_eq_getElem _ _ hlt]
    simp only [sample, List.getElem_map, List.getElem_range, Nat.cast_ofNat]
  rw [serverSymbol, zero_add, hget, presidueEps_eq, pow_right_comm, pow_eps_pow_D fp_two_ne_zero,
    one_pow]

theorem sample_server : sample.HonestServer 0 ones := by
  refine ⟨fun hmem => ?_, fun i hi hzero => ?_, fun i _ => ?_, fun i _ => ?_⟩
  · obtain ⟨i, -, hi⟩ := List.mem_map.mp hmem
    exact pow_ne_zero i (pow_ne_zero eps fp_two_ne_zero) hi
  · rw [sample_symbol hi] at hzero
    have hnat := congrArg UInt64.toNat hzero
    rw [toNat_truncate, ZMod.val_one] at hnat
    revert hnat
    decide
  · rw [draw_ones]
    exact one_ne_zero
  · rw [draw_ones]
    exact one_ne_zero

theorem sample_punctured (leaves : Nat → Block) :
    sample.Punctured leaves leaves fun _ => 0 :=
  ⟨fun _ _ => Nat.two_pow_pos _, fun _ _ _ _ _ => rfl⟩

/-- The little-endian numbers 0, 1, 2, … as `get<uint32_t>` reads them. -/
def counter : Prng := ⟨fun i => if i % 4 = 0 then UInt8.ofNat (i / 4) else 0, 0⟩

end HocusPocus.OPRF
