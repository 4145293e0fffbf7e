import HocusPocus.Oprf.Honest

/-!
# Opening the challenged positions

The challenge is a list of indices to the client and a byte string to the server. The server uses
each byte as an index without a check, and the client makes each index a byte without a check.

* `blindedEval_at`: the run of the server up to the challenge.
* `answers_iff`: the server is safe on a challenge exactly when every byte is below `len_com`.
* `positions_iff`: both parties open the same positions exactly when every index drawn is a byte.
-/

namespace HocusPocus.OPRF

open Machine Arith Duplex FieldOps FastResidue Finset

section

variable {F : Type} [FieldOps F] {o : OPRF F} {expand : Block → Nat → UInt8} {Key : F}
  {bOt : Nat → Block} {prng : Prng} {seed gammaSeed correction c : Bytes} {ms : List Bytes}

/-! ## The server around the challenge -/

/-- Phases 5 to 8 of `blindedEval`, with what the earlier phases leave: `state`, `gamma`, and the
random values of the witness. -/
def answer (o : OPRF F) (expand : Block → Nat → UInt8) (Key : F) (prng : Prng)
    (state : Nat → Poly F 1) (gamma : Nat → F) : Party Unit := do
  let c ← recvBytes o.k
  Proc.require .outOfBounds ((List.range o.k).all fun i =>
    o.lenEval + (c.getD i 0).toNat < o.offsets.length)
  let m := o.serverOpening Key (o.serverB prng) c
  Proc.put (writeVecToBytes ((List.range o.k).map m))
  let v : Nat → F := serverV prng
  let cu := sumLoop o.lenEval (o.serverRu prng) fun i => gamma i * o.serverU Key v i
  let cv := sumLoop o.lenEval (o.serverRv prng) fun i => gamma i * v i
  o.zk.proveOr expand state { gamma, mm := m, cu, cv, offsets := o.offsets, c } wrapped

/-- A server that gets to the challenge: the key passes the guard, and the client's messages
before the challenge are of the right lengths. -/
structure AtChallenge (o : OPRF F) (Key : F) (seed gammaSeed correction : Bytes) : Prop where
  guard : o.offsets.any (FieldOps.eq Key) = false
  multipliersFit : o.zk.multipliersFit = true
  seed_length : seed.length = 16
  gammaSeed_length : gammaSeed.length = 16
  correction_length : correction.length = 16 + primeBytes

/-- The server fills its buffer of symbols. -/
theorem packAll_isSome (symbol : Nat → UInt64) (n : Nat) :
    ∃ packed, packAll symbol n (List.replicate (n * symbolBytes) 0) = some packed :=
  ⟨_, packAll_eq symbol (List.length_replicate ..).ge⟩

/-- **The server up to the challenge**: what it sends does not depend on the challenge. -/
theorem blindedEval_at (expand : Block → Nat → UInt8) (bOt : Nat → Block) (prng : Prng)
    (h : o.AtChallenge Key seed gammaSeed correction) :
    ∃ state gamma before, ∀ ms,
      feed (o.blindedEval expand Key bOt prng) (seed :: gammaSeed :: correction :: ms)
          = feed (o.answer expand Key prng state gamma) ms ∧
        sent (o.blindedEval expand Key bOt prng) (seed :: gammaSeed :: correction :: ms)
          = before ++ sent (o.answer expand Key prng state gamma) ms := by
  obtain ⟨packed, hpacked⟩ := packAll_isSome (o.serverSymbol Key) o.lenCom
  unfold blindedEval answer ZkParams.proverCommitOr VolePlus.sendOr recvBlockOr
  rw [h.guard, h.multipliersFit, hpacked]
  simp only [Bool.false_eq_true, if_false, Proc.require_true, Proc.ofOption_some, Proc.put_bind,
    Proc.ret_bind, Proc.send_bind, Proc.pure_eq, recvBytesOr, Proc.recv_bind, feed_send,
    feed_recv_cons, sent_send, sent_recv_cons, h.seed_length, h.gammaSeed_length,
    h.correction_length, if_true]
  exact ⟨_, _, [_, _, _, _, _, _], fun ms => ⟨rfl, rfl⟩⟩

/-- The server on a challenge that leaves the offsets. -/
theorem answer_outside {state : Nat → Poly F 1} {gamma : Nat → F} (hc : c.length = o.k) {i : Nat}
    (hi : i < o.k) (hout : o.offsets.length ≤ o.lenEval + (c.getD i 0).toNat) :
    feed (o.answer expand Key prng state gamma) (c :: ms) = .faulted .outOfBounds := by
  have hall : ((List.range o.k).all fun i =>
      decide (o.lenEval + (c.getD i 0).toNat < o.offsets.length)) = false := by
    refine List.all_eq_false.mpr ⟨i, List.mem_range.mpr hi, ?_⟩
    simpa using hout
  unfold answer
  rw [feed_recvBytes hc, hall]
  rfl

/-- The server on a challenge inside the offsets: it may wait for the seed of the proof, or end
without a proof on a seed of another length. -/
theorem answer_inside {state : Nat → Poly F 1} {gamma : Nat → F} (hc : c.length = o.k)
    (hoffsets : o.lenEval ≤ o.offsets.length)
    (hin : ∀ i < o.k, o.lenEval + (c.getD i 0).toNat < o.offsets.length) :
    feed (o.answer expand Key prng state gamma) (c :: ms) ≠ .faulted .outOfBounds := by
  have hall : ((List.range o.k).all fun i =>
      decide (o.lenEval + (c.getD i 0).toNat < o.offsets.length)) = true := by
    simpa using hin
  have hfit : o.zk.offsetsFit o.offsets c = true := by
    rw [ZkParams.offsetsFit, Bool.and_eq_true]
    exact ⟨decide_eq_true hoffsets, hall⟩
  unfold answer ZkParams.proveOr recvBlockOr recvBytesOr
  rw [feed_recvBytes hc, hall]
  simp only [hfit, Proc.require_true, Proc.ret_bind, Proc.put_bind, feed_send]
  cases ms with
  | nil => simp
  | cons m ms =>
    rw [feed_recv_cons]
    split_ifs
    · simp [Proc.put]
    · simp [wrapped]

/-- What is wanted of the server on a challenge: it reads inside the offsets, its openings and its
proof take the entries at the challenged positions, and it stops, with nothing more sent, when a
position is not below `len_com`. -/
structure Survives (o : OPRF F) (expand : Block → Nat → UInt8) (Key : F) (bOt : Nat → Block)
    (prng : Prng) (before : List Bytes) (c : Bytes) (after : List Bytes) : Prop where
  inside : feed (o.blindedEval expand Key bOt prng) (before ++ c :: after)
    ≠ .faulted .outOfBounds
  entries : (∀ i < o.k, (c.getD i 0).toNat < o.lenCom) → ∀ i < o.k,
    ∃ l, o.offsets[o.lenEval + (c.getD i 0).toNat]? = some l ∧
      (∀ b, o.serverOpening Key b c i = b i * (Key + l)) ∧
      ∀ stmt : Statement F, stmt.offsets = o.offsets → stmt.c = c → o.zk.lc stmt i = l
  refused : (∃ i < o.k, o.lenCom ≤ (c.getD i 0).toNat) →
    feed (o.blindedEval expand Key bOt prng) (before ++ c :: after) = .returned () after ∧
      sent (o.blindedEval expand Key bOt prng) (before ++ c :: after)
        = sent (o.blindedEval expand Key bOt prng) before

theorem survives_iff (hoffsets : o.offsets.length = o.lenCom + o.lenEval)
    (hat : o.AtChallenge Key seed gammaSeed correction) (hc : c.length = o.k) :
    o.Survives expand Key bOt prng [seed, gammaSeed, correction] c ms ↔
      ∀ i < o.k, (c.getD i 0).toNat < o.lenCom := by
  obtain ⟨state, gamma, before, hrun⟩ := blindedEval_at expand bOt prng hat
  constructor
  · intro hsurvives i hi
    by_contra hout
    refine hsurvives.inside ((hrun (c :: ms)).1.trans (answer_outside hc hi ?_))
    omega
  · intro hin
    refine ⟨?_, fun _ i hi => ?_, ?_⟩
    · rw [List.cons_append, List.cons_append, List.cons_append, List.nil_append, (hrun _).1]
      refine answer_inside hc (by omega) fun i hi => ?_
      have := hin i hi
      omega
    · have hlt : o.lenEval + (c.getD i 0).toNat < o.offsets.length := by
        have := hin i hi
        omega
      refine ⟨o.offsets[o.lenEval + (c.getD i 0).toNat], List.getElem?_eq_getElem hlt, fun b => ?_,
        ?_⟩
      · rw [serverOpening, offset, List.getD_eq_getElem _ _ hlt]
      · rintro stmt hstmt rfl
        rw [ZkParams.lc, hstmt]
        exact List.getD_eq_getElem _ _ hlt
    · rintro ⟨i, hi, hout⟩
      exact absurd (hin i hi) (Nat.not_lt.mpr hout)

end

/-- **The server on an arbitrary challenge**: it is safe exactly when every byte of the challenge is
below `len_com`, and safe on all challenges exactly when a byte cannot be anything else. -/
theorem answers_iff {F : Type} [FieldOps F] (o : OPRF F) (expand : Block → Nat → UInt8) (Key : F)
    (bOt : Nat → Block) (prng : Prng) (seed gammaSeed correction : Bytes) (after : List Bytes)
    (hoffsets : o.offsets.length = o.lenCom + o.lenEval)
    (hat : o.AtChallenge Key seed gammaSeed correction) :
    (∀ c : Bytes, c.length = o.k →
      (o.Survives expand Key bOt prng [seed, gammaSeed, correction] c after ↔
        ∀ i < o.k, (c.getD i 0).toNat < o.lenCom)) ∧
      ((∀ c : Bytes, c.length = o.k →
          o.Survives expand Key bOt prng [seed, gammaSeed, correction] c after) ↔
        o.k = 0 ∨ 256 ≤ o.lenCom) := by
  refine ⟨fun c hc => survives_iff hoffsets hat hc, fun hall => ?_, fun hsize c hc => ?_⟩
  · by_contra hsmall
    obtain ⟨hk, hlen⟩ := not_or.mp hsmall
    have hin := (survives_iff hoffsets hat (by simp)).mp
      (hall (List.replicate o.k 255) (by simp)) 0 (by omega)
    rw [List.getD_replicate _ (by omega)] at hin
    have hbyte : (255 : UInt8).toNat = 255 := rfl
    omega
  · refine (survives_iff hoffsets hat hc).mpr fun i hi => ?_
    have hbyte := (c.getD i 0).toNat_lt
    omega

theorem sample_atChallenge : sample.AtChallenge 0 (List.replicate 16 0) (List.replicate 16 0)
    (List.replicate 48 0) where
  guard := by
    refine List.any_eq_false.mpr fun l hl => ?_
    rw [Exact.eq_eq, decide_eq_true_eq]
    rintro rfl
    exact sample_server.guard hl
  multipliersFit := sample_supported.multipliersFit
  seed_length := rfl
  gammaSeed_length := rfl
  correction_length := rfl

/-- The challenge of an honest client is below `len_com`. -/
theorem answers_iff_example :
    let expand : Block → Nat → UInt8 := shiftedSeed
    let leaves : Nat → Block := fun i => Vector.replicate 16 (UInt8.ofNat i)
    sample.Survives expand 0 leaves ones
      [List.replicate 16 0, List.replicate 16 0, List.replicate 48 0]
      ((List.range 53).map UInt8.ofNat) [List.replicate 16 0] := by
  intro expand leaves
  exact ((answers_iff sample expand 0 leaves ones _ _ _ _ sample_supported.offsets_length
    sample_atChallenge).1 _ rfl).mpr (by decide)

/-- **An index the server does not have**: a challenge of bytes 255 takes it out of the offsets. -/
theorem answers_outside :
    let expand : Block → Nat → UInt8 := shiftedSeed
    let leaves : Nat → Block := fun i => Vector.replicate 16 (UInt8.ofNat i)
    feed (sample.blindedEval expand 0 leaves ones) [List.replicate 16 0, List.replicate 16 0,
        List.replicate 48 0, List.replicate 53 255, List.replicate 16 0]
      = .faulted .outOfBounds := by
  intro expand leaves
  obtain ⟨state, gamma, before, hrun⟩ := blindedEval_at expand leaves ones sample_atChallenge
  exact (hrun _).1.trans (answer_outside (by simp; rfl) (Nat.zero_lt_succ 52) (by decide))

/-! ## The positions of the two parties -/

section

variable {o : OPRF Fp} {fuel : Nat} {prng prng' : Prng} {c : List Nat}

/-- What is wanted of the indices `c` that the client draws: they are distinct and below `len_com`,
and the byte sent for an index stands for it wherever a party uses it. -/
structure SamePositions (o : OPRF Fp) (c : List Nat) : Prop where
  length : c.length = o.k
  nodup : c.Nodup
  lt : ∀ i ∈ c, i < o.lenCom
  byte : ∀ i < o.k, ((c.map UInt8.ofNat).getD i 0).toNat = c.getD i 0
  served : ∀ i < o.k, ∀ (Key : Fp) (b : Nat → Fp),
    o.serverOpening Key b (c.map UInt8.ofNat) i
      = b i * (Key + o.offset (o.lenEval + c.getD i 0))
  proved : ∀ i < o.k, ∀ stmt : Statement Fp, stmt.offsets = o.offsets →
    stmt.c = c.map UInt8.ofNat → o.zk.lc stmt i = o.offset (o.lenEval + c.getD i 0)
  opened : ∀ i < o.k, ∀ (Key : Fp) (b : Nat → Fp), (∃ r, r ≠ 0 ∧ b i = r ^ eps) →
    presidueEps (o.serverOpening Key b (c.map UInt8.ofNat) i) = o.serverSymbol Key (c.getD i 0)

theorem getD_bytes {i : Nat} (hi : i < c.length) :
    ((c.map UInt8.ofNat).getD i 0).toNat = c.getD i 0 % 256 := by
  rw [List.getD_eq_getElem _ _ (by simpa using hi), List.getD_eq_getElem _ _ hi, List.getElem_map,
    UInt8.toNat_ofNat']

/-- What phase 5 ends with, for every size the constructor takes. -/
theorem drawChallenge_result (hk : o.k ≤ o.lenCom)
    (h : drawChallenge o.lenCom o.k fuel [] prng = some (c, prng')) :
    c.Nodup ∧ c.length = o.k ∧ ∀ i ∈ c, i < o.lenCom := by
  rcases Nat.eq_zero_or_pos o.lenCom with hzero | hpos
  · rw [drawChallenge_done (by simp; omega)] at h
    cases h
    exact ⟨List.nodup_nil, by simp; omega, by simp⟩
  · exact drawChallenge_spec hpos List.nodup_nil (Nat.zero_le _) (by simp) h

/-- Indices that are bytes. -/
theorem samePositions_of_bytes (hlen : c.length = o.k) (hnodup : c.Nodup)
    (hlt : ∀ i ∈ c, i < o.lenCom) (hbyte : ∀ i < o.k, c.getD i 0 < 256) :
    o.SamePositions c := by
  have hread : ∀ i < o.k, ((c.map UInt8.ofNat).getD i 0).toNat = c.getD i 0 := fun i hi => by
    rw [getD_bytes (by omega), Nat.mod_eq_of_lt (hbyte i hi)]
  refine ⟨hlen, hnodup, hlt, hread, fun i hi Key b => ?_, fun i hi stmt hoffsets hc => ?_,
    fun i hi Key b => ?_⟩
  · rw [serverOpening, hread i hi]
  · rw [ZkParams.lc, hoffsets, hc, hread i hi]
    rfl
  · rintro ⟨r, hr, hb⟩
    rw [symbol_opening hr hb, hread i hi]

end

/-- **The positions the two parties open**: they are the same exactly when every index drawn before
`k` distinct ones are there is below 256, which it always is for `len_com ≤ 256`. -/
theorem positions_iff (o : OPRF Fp) (fuel : Nat) (prng prng' : Prng) (c : List Nat)
    (hk : o.k ≤ o.lenCom) (h : drawChallenge o.lenCom o.k fuel [] prng = some (c, prng')) :
    o.SamePositions c ↔
      ∀ j, (indices o.lenCom prng j).card < o.k → index o.lenCom prng j < 256 := by
  obtain ⟨hnodup, hlen, hlt⟩ := drawChallenge_result hk h
  have hdrawn : ∀ i, i ∈ c ↔
      ∃ j, (indices o.lenCom prng j).card < o.k ∧ index o.lenCom prng j = i := fun i => by
    have hmem := mem_drawChallenge (i := i) List.nodup_nil h
    simpa [Drawn] using hmem
  constructor
  · intro hsame j hj
    obtain ⟨i, hi, hget⟩ := List.getElem_of_mem ((hdrawn _).mpr ⟨j, hj, rfl⟩)
    have hbyte := hsame.byte i (by omega)
    rw [List.getD_eq_getElem c _ hi, hget] at hbyte
    rw [← hbyte]
    exact UInt8.toNat_lt _
  · intro hbytes
    refine samePositions_of_bytes hlen hnodup hlt fun i hi => ?_
    have hic : i < c.length := by omega
    rw [List.getD_eq_getElem _ _ hic]
    obtain ⟨j, hj, hget⟩ := (hdrawn _).mp (List.getElem_mem hic)
    rw [← hget]
    exact hbytes j hj

/-- A generator that counts, and 53 symbols. -/
theorem positions_iff_example : ∃ c prng', drawChallenge 53 53 53 [] counter = some (c, prng') ∧
    sample.SamePositions c := by
  have hsome : (drawChallenge 53 53 53 [] counter).isSome = true :=
    (drawChallenge_isSome_iff 53 counter).mpr (by decide +kernel)
  obtain ⟨⟨c, prng'⟩, h⟩ := Option.isSome_iff_exists.mp hsome
  refine ⟨c, prng', h, (positions_iff sample 53 counter prng' c le_rfl h).mpr fun j _ => ?_⟩
  exact (Nat.mod_lt _ (Nat.zero_lt_succ 52)).trans (by norm_num)

/-- The symbol of a small number. -/
theorem presidueEps_natCast (n : Nat) :
    (presidueEps (n : Fp)).toNat = powMod prime 256 n powDExp % 2 ^ 40 := by
  have hexp : powDExp < 2 ^ 256 := by decide +kernel
  rw [presidueEps_eq, toNat_truncate, powMod_eq _ _ _ _ hexp, ← Nat.cast_pow, ZMod.val_natCast]

/-- **An index that is not a byte**: with 512 symbols the client draws 300 and sends 44, and the
opening of an honest server fails its check. -/
theorem positions_differ :
    let o : OPRF Fp := ⟨10, 512, 1, 64, 8, (List.range 522).map Nat.cast⟩
    let prng : Prng := ⟨fun i => if i = 0 then 44 else if i = 1 then 1 else 0, 0⟩
    drawChallenge o.lenCom o.k 1 [] prng = some ([300], prng.skip 4) ∧
      ([300].map UInt8.ofNat).map UInt8.toNat = [44] ∧
      presidueEps (o.serverOpening 0 (fun _ => (1 : Fp) ^ eps) ([300].map UInt8.ofNat) 0)
        ≠ o.serverSymbol 0 300 := by
  intro o prng
  have hindex : index 512 prng 0 = 300 := by decide +kernel
  have hdraw : drawChallenge 512 1 1 [] prng = some ([300], prng.skip 4) := by
    rw [drawChallenge_succ Nat.zero_lt_one, hindex, drawChallenge_done (by simp)]
    simp
  have hoffset : ∀ i < 522, o.offset i = (i : Fp) := fun i hi => by
    have hlt : i < o.offsets.length := by simpa [o] using hi
    rw [offset, List.getD_eq_getElem _ _ hlt]
    simp [o]
  have hbyte : o.lenEval + (([300].map UInt8.ofNat).getD 0 0).toNat = 54 := rfl
  have hposition : 300 + o.lenEval = 310 := rfl
  refine ⟨hdraw, rfl, fun h => ?_⟩
  have hopening : o.serverOpening 0 (fun _ => (1 : Fp) ^ eps) ([300].map UInt8.ofNat) 0
      = ((54 : Nat) : Fp) := by
    rw [serverOpening, one_pow, one_mul, zero_add, hbyte, hoffset 54 (by norm_num)]
  have hsymbol : o.serverSymbol 0 300 = presidueEps ((310 : Nat) : Fp) := by
    rw [serverSymbol, zero_add, hposition, hoffset 310 (by norm_num)]
  rw [hopening, hsymbol] at h
  have hnat := congrArg UInt64.toNat h
  rw [presidueEps_natCast, presidueEps_natCast] at hnat
  revert hnat
  decide +kernel

end HocusPocus.OPRF
