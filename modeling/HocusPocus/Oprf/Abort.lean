import HocusPocus.Oprf.Honest

/-!
# What makes the client abort

`eval` alone against the messages of a server that may send anything. The checks live in
`commit_to_witness`, `VolePlus::receive`, phases 4 and 6, and `verify`. All but one end the run with
`false` when they fail; `VolePlus::receive` only returns, and `eval` goes on with `o`, `cu` and `cv`
that were never assigned. An exception inside `VolePlus::receive` has the same effect, since `eval`
drops it; one inside `verify` leaves `valid` at `false`.

* `allChecks_of_eval`: a run that returns `true` has passed every check.
* `output_of_eval`: a run that returns `false` has left the output buffer as it was.
* `aborts_iff`: on the messages read so far the client aborts as it should, whatever is sent later,
  exactly when no beginning of them fails VOLE+.
* `returns_false_iff`: after a failed VOLE+ a run returns `false` exactly when a later check fails
  before `verify`.
* `reads_unassigned`: when none does it reads `cu`, against a server that differs from the honest
  one in the values of the VOLE+ check only.
-/

namespace HocusPocus.OPRF

open Machine Duplex FieldOps FastResidue Finset

section

variable {F : Type} [FieldOps F] {o : OPRF F} {expand : Block → Nat → UInt8}
  {blake2 : Bytes → Bytes32} {symBufLen fuel : Nat} {x : Bytes} {output : Bytes32}
  {a : Nat → Block} {points : Nat → Nat} {prng : Prng} {ms rest : List Bytes}

/-! ## The phases alone -/

/-- A proof of the wrong length is one that is not accepted. -/
theorem feed_evalVerify_returned {verifier : ZkVerifier F} {plus : VolePlusOutput F}
    {e : Nat → UInt64} {cBuf : Bytes} {m : Nat → F} {r : Bool × Bytes32} :
    feed (o.evalVerify expand blake2 symBufLen x output verifier plus e cBuf m prng) ms
        = .returned r rest ↔
      o.zk.offsetsFit o.offsets cBuf = true ∧ ∃ u, plus.cu = some u ∧ ∃ v, plus.cv = some v ∧
        ∃ proof, ms = proof :: rest ∧
          let valid := decide (proof.length = 5 * primeBytes) && o.zk.accepts verifier
            { gamma := plus.gamma, mm := m, cu := u, cv := v, offsets := o.offsets, c := cBuf }
            (Prng.ofSeed expand prng.getBlock.1) proof
          (valid = true ∧ (∃ t, o.transcript symBufLen e plus.o x = some t ∧ (true, blake2 t) = r)
            ∨ valid = false ∧ (false, output) = r) := by
  unfold evalVerify
  rw [feed_bind_returned]
  simp only [ZkParams.feed_verifyOr_wrapped]
  constructor
  · rintro ⟨⟨valid, prng'⟩, mid, ⟨hfit, u, hu, v, hv, proof, rfl, hr⟩, h⟩
    obtain ⟨rfl, -⟩ := Prod.mk.inj hr
    simp only [feed_ite_returned, feed_ofOption_returned, Proc.pure_eq, feed_ret_returned] at h
    refine ⟨hfit, u, hu, v, hv, proof, ?_⟩
    rcases h with ⟨hvalid, t, ht, hout, rfl⟩ | ⟨hvalid, hout, rfl⟩
    · exact ⟨rfl, Or.inl ⟨hvalid, t, ht, hout⟩⟩
    · exact ⟨rfl, Or.inr ⟨hvalid, hout⟩⟩
  · rintro ⟨hfit, u, hu, v, hv, proof, rfl, h⟩
    refine ⟨_, rest, ⟨hfit, u, hu, v, hv, proof, rfl, rfl⟩, ?_⟩
    simp only [feed_ite_returned, feed_ofOption_returned, Proc.pure_eq, feed_ret_returned]
    rcases h with ⟨hvalid, t, ht, hout⟩ | ⟨hvalid, hout⟩
    · exact Or.inl ⟨hvalid, t, ht, hout, trivial⟩
    · exact Or.inr ⟨hvalid, hout, trivial⟩

theorem feed_evalChallenge_returned {verifier : ZkVerifier F} {plus : VolePlusOutput F}
    {e : Nat → UInt64} {r : Bool × Bytes32} :
    feed (o.evalChallenge expand blake2 symBufLen fuel x output verifier plus e prng) ms
        = .returned r rest ↔
      ∃ c prng', drawChallenge o.lenCom o.k fuel [] prng = some (c, prng') ∧
        ∃ mBuf tail, ms = mBuf :: tail ∧ mBuf.length = o.k * primeBytes ∧
          (o.openingsMatch e c (readFe25519 mBuf) = true ∧
              feed (o.evalVerify expand blake2 symBufLen x output verifier plus e
                (c.map UInt8.ofNat) (readFe25519 mBuf) prng') tail = .returned r rest ∨
            o.openingsMatch e c (readFe25519 mBuf) = false ∧ (false, output) = r ∧
              tail = rest) := by
  unfold evalChallenge
  rw [feed_ofOption_returned]
  simp only [Proc.put_bind, feed_send, feed_recvBytes_returned, feed_ite_returned, Proc.pure_eq]
  constructor
  · rintro ⟨⟨c, prng'⟩, hc, mBuf, tail, rfl, hlen, h⟩
    exact ⟨c, prng', hc, mBuf, tail, rfl, hlen, h⟩
  · rintro ⟨c, prng', hc, mBuf, tail, rfl, hlen, h⟩
    exact ⟨(c, prng'), hc, mBuf, tail, rfl, hlen, h⟩

theorem feed_evalSymbols_returned {verifier : ZkVerifier F} {plus : VolePlusOutput F}
    {r : Bool × Bytes32} :
    feed (o.evalSymbols expand blake2 symBufLen fuel x output verifier plus prng) ms
        = .returned r rest ↔
      ∃ buffer tail, ms = buffer :: tail ∧ buffer.length = o.lenCom * symbolBytes ∧
        (o.symbolsNonzero (readSymbol buffer) = true ∧
            feed (o.evalChallenge expand blake2 symBufLen fuel x output verifier plus
              (readSymbol buffer) prng) tail = .returned r rest ∨
          o.symbolsNonzero (readSymbol buffer) = false ∧ (false, output) = r ∧ tail = rest) := by
  unfold evalSymbols
  simp only [feed_recvBytes_returned, feed_ite_returned, Proc.pure_eq]

/-! ## The run up to VOLE+ -/

/-- The challenge of the consistency check of `commit_to_witness`. -/
def commitGamma (expand : Block → Nat → UInt8) (prng : Prng) : Nat → F :=
  generateF25519VectorFromSeed expand prng.getBlock.1

/-- The rows of the client after the shift of the commitment. -/
def commitRows (o : OPRF F) (expand : Block → Nat → UInt8) (a : Nat → Block) (points : Nat → Nat)
    (shift : Bytes) : Nat → Nat → F :=
  o.zk.alignRows (o.clientZkp expand a points).o (o.clientZkp expand a points).h shift

/-- The verifier of the client after the commitment. -/
def clientVerifier (o : OPRF F) (expand : Block → Nat → UInt8) (a : Nat → Block)
    (points : Nat → Nat) (shift : Bytes) : ZkVerifier F :=
  { state := o.zk.keys (o.commitRows expand a points shift)
    Delta := o.zk.delta (o.clientZkp expand a points).h }

/-- The rows of the client after the first correction of VOLE+. -/
def plusRows (o : OPRF F) (expand : Block → Nat → UInt8) (a : Nat → Block) (points : Nat → Nat)
    (shift : Bytes) : Nat → Nat → F :=
  o.volePlus.correctRows (o.clientVole expand a points).o (o.clientVole expand a points).h shift

/-- What `VolePlus::receive` assigns when its check passes. -/
def plusOutput (o : OPRF F) (expand : Block → Nat → UInt8) (blake2 : Bytes → Bytes32) (x : Bytes)
    (a : Nat → Block) (points : Nat → Nat) (prng : Prng) (shift values correction : Bytes) :
    VolePlusOutput F :=
  o.volePlus.finish (hashInput blake2 x) (o.volePlus.sessionGamma expand (prng.skip 16))
    (generateF25519VectorFromSeed expand (prng.skip 32).getBlock.1)
    (o.plusRows expand a points shift) (readFe25519 values o.volePlus.kVole) correction

/-- The two messages of the commitment, of the right lengths. -/
structure CommitRead (o : OPRF F) (shift values : Bytes) : Prop where
  shift_length : shift.length = o.zk.kVole * o.zk.voleLen * primeBytes
  multipliersFit : o.zk.multipliersFit = true
  values_length : values.length = (o.zk.kVole + 1) * primeBytes

/-- **The run of `eval` phase by phase**: after the commitment and VOLE+ the phases 4 to 8 run,
however VOLE+ has ended. -/
theorem feed_eval_returned {r : Bool × Bytes32} :
    feed (o.eval expand blake2 symBufLen fuel x output a points prng) ms = .returned r rest ↔
      ∃ shift values tail, ms = shift :: values :: tail ∧ CommitRead o shift values ∧
        (o.zk.checks (commitGamma expand prng) (o.commitRows expand a points shift)
            (o.clientZkp expand a points).h values = true ∧
          (∃ plus prng' mid, feed (o.volePlus.receiveOr expand wrapped (hashInput blake2 x)
              (o.clientVole expand a points).o (o.clientVole expand a points).h (prng.skip 16)) tail
                = .returned (plus, prng') mid ∧
            feed (o.evalSymbols expand blake2 symBufLen fuel x output
              (o.clientVerifier expand a points shift) plus prng') mid = .returned r rest) ∨
          o.zk.checks (commitGamma expand prng) (o.commitRows expand a points shift)
            (o.clientZkp expand a points).h values = false ∧ (false, output) = r ∧
              tail = rest) := by
  unfold eval
  simp only [feed_bind_returned, ZkParams.feed_verifierCommit_returned]
  constructor
  · rintro ⟨⟨good, verifier, prng'⟩, tail, ⟨shift, values, rfl, hshift, hfit, hvalues, hr⟩, h⟩
    simp only [Prod.mk.injEq] at hr
    obtain ⟨rfl, rfl, rfl⟩ := hr
    simp only [feed_ite_returned, Proc.pure_eq, feed_bind_returned] at h
    refine ⟨shift, values, tail, rfl, ⟨hshift, hfit, hvalues⟩, ?_⟩
    rcases h with ⟨hpass, ⟨plus, prng''⟩, mid, hplus, h⟩ | h
    · exact Or.inl ⟨hpass, plus, prng'', mid, hplus, h⟩
    · exact Or.inr h
  · rintro ⟨shift, values, tail, rfl, hread, h⟩
    refine ⟨_, tail, ⟨shift, values, rfl, hread.shift_length, hread.multipliersFit,
      hread.values_length, rfl⟩, ?_⟩
    simp only [feed_ite_returned, Proc.pure_eq, feed_bind_returned]
    rcases h with ⟨hpass, plus, prng', mid, hplus, h⟩ | h
    · exact Or.inl ⟨hpass, (plus, prng'), mid, hplus, h⟩
    · exact Or.inr h

/-! ## The checks of a run -/

/-- The statement of `verify` in a run that got there. -/
def clientStatement (o : OPRF F) (plus : VolePlusOutput F) (u v : F) (openings : Bytes)
    (c : List Nat) : Statement F :=
  { gamma := plus.gamma, mm := readFe25519 openings, cu := u, cv := v, offsets := o.offsets
    c := c.map UInt8.ofNat }

/-- Every check of the run has passed on the messages `ms`. -/
inductive AllChecks (o : OPRF F) (expand : Block → Nat → UInt8) (blake2 : Bytes → Bytes32)
    (fuel : Nat) (x : Bytes) (a : Nat → Block) (points : Nat → Nat) (prng : Prng)
    (ms : List Bytes) : Prop
  | intro (shift values shift' values' correction symbols openings proof : Bytes)
      (rest : List Bytes) (c : List Nat) (prng' : Prng) (u v : F)
      (messages : ms = shift :: values :: shift' :: values' :: correction :: symbols :: openings
        :: proof :: rest)
      (commit : ∀ i < o.zk.kVole, o.zk.checkRow (commitGamma expand prng)
        (o.commitRows expand a points shift) (o.clientZkp expand a points).h values i = true)
      (plus : ∀ i < o.volePlus.kVole, o.volePlus.checkRow
        (o.volePlus.sessionGamma expand (prng.skip 16)) (o.plusRows expand a points shift')
        (o.clientVole expand a points).h values' i = true)
      (nonzero : ∀ i < o.lenCom, readSymbol symbols i ≠ 0)
      (drawn : drawChallenge o.lenCom o.k fuel [] (prng.skip 48) = some (c, prng'))
      (opened : ∀ i < o.k,
        presidueEps (readFe25519 openings i : F) = readSymbol symbols (c.getD i 0))
      (cu : (o.plusOutput expand blake2 x a points prng shift' values' correction).cu = some u)
      (cv : (o.plusOutput expand blake2 x a points prng shift' values' correction).cv = some v)
      (proof_length : proof.length = 5 * primeBytes)
      (verified : o.zk.accepts (o.clientVerifier expand a points shift)
        (o.clientStatement (o.plusOutput expand blake2 x a points prng shift' values' correction)
          u v openings c) (Prng.ofSeed expand prng'.getBlock.1) proof = true)

/-- `ms` are the messages of the commitment, which passes, and those of VOLE+, which ends without
`o`, `cu` and `cv`. -/
inductive PlusFails (o : OPRF F) (expand : Block → Nat → UInt8) (a : Nat → Block)
    (points : Nat → Nat) (prng : Prng) : List Bytes → Prop
  | intro (shift values : Bytes) (plus : List Bytes) (read : CommitRead o shift values)
      (commit : o.zk.checks (commitGamma expand prng) (o.commitRows expand a points shift)
        (o.clientZkp expand a points).h values = true)
      (fails : o.volePlus.Fails expand (o.clientVole expand a points).o
        (o.clientVole expand a points).h (prng.skip 16) plus) :
      PlusFails o expand a points prng (shift :: values :: plus)

/-- Phase 4 or phase 6 aborts on the messages `later` after a failed VOLE+. -/
inductive LaterAbort (o : OPRF F) (fuel : Nat) (prng : Prng) (later : List Bytes) : Prop
  | zeroSymbol (symbols : Bytes) (rest : List Bytes) (messages : later = symbols :: rest)
      (length : symbols.length = o.lenCom * symbolBytes)
      (zero : o.symbolsNonzero (readSymbol symbols) = false)
  | mismatch (symbols openings : Bytes) (rest : List Bytes) (c : List Nat) (prng' : Prng)
      (messages : later = symbols :: openings :: rest)
      (length : symbols.length = o.lenCom * symbolBytes)
      (openings_length : openings.length = o.k * primeBytes)
      (nonzero : o.symbolsNonzero (readSymbol symbols) = true)
      (drawn : drawChallenge o.lenCom o.k fuel [] prng = some (c, prng'))
      (differ : o.openingsMatch (readSymbol symbols) c (readFe25519 openings : Nat → F) = false)

/-- Without `cu` the phases 4 to 8 can only return in phase 4 or 6, and with `false`. -/
theorem feed_evalSymbols_of_unassigned {verifier : ZkVerifier F} {gamma : Nat → F}
    {r : Bool × Bytes32} {later : List Bytes} :
    feed (o.evalSymbols expand blake2 symBufLen fuel x output verifier (.unassigned gamma) prng)
        later = .returned r rest → r = (false, output) ∧ o.LaterAbort fuel prng later := by
  intro h
  obtain ⟨symbols, tail, rfl, hlen, h⟩ := feed_evalSymbols_returned.mp h
  rcases h with ⟨hnonzero, h⟩ | ⟨hzero, rfl, rfl⟩
  · obtain ⟨c, prng', hdrawn, openings, tail, rfl, hlen', h⟩ := feed_evalChallenge_returned.mp h
    rcases h with ⟨-, h⟩ | ⟨hdiffer, rfl, rfl⟩
    · -- `verify` would have read `cu`
      obtain ⟨-, u, hu, -⟩ := feed_evalVerify_returned.mp h
      cases hu
    · exact ⟨rfl, .mismatch symbols openings tail c prng' rfl hlen hlen' hnonzero hdrawn hdiffer⟩
  · exact ⟨rfl, .zeroSymbol symbols tail rfl hlen hzero⟩

/-- **A run that returns `true` has passed every check.** -/
theorem allChecks_of_eval {out : Bytes32}
    (h : feed (o.eval expand blake2 symBufLen fuel x output a points prng) ms
      = .returned (true, out) rest) : AllChecks o expand blake2 fuel x a points prng ms := by
  obtain ⟨shift, values, tail, rfl, -, h⟩ := feed_eval_returned.mp h
  rcases h with ⟨hcommit, plus, prng', mid, hplus, h⟩ | ⟨-, hr, -⟩
  · obtain ⟨read, rfl, ⟨hpasses, hprng⟩ | ⟨-, gamma, hfailed⟩⟩ :=
      VolePlus.feed_wrapped_returned expand o.volePlus hplus
    · obtain ⟨shift', values', correction, -, hchecks, -⟩ := hpasses
      obtain rfl : prng' = prng.skip 48 := hprng
      obtain ⟨symbols, tail, rfl, -, h⟩ := feed_evalSymbols_returned.mp h
      rcases h with ⟨hnonzero, h⟩ | ⟨-, hr, -⟩
      · obtain ⟨c, prng', hdrawn, openings, tail, rfl, -, h⟩ := feed_evalChallenge_returned.mp h
        rcases h with ⟨hmatch, h⟩ | ⟨-, hr, -⟩
        · obtain ⟨-, u, hu, v, hv, proof, rfl, hverify⟩ := feed_evalVerify_returned.mp h
          rcases hverify with ⟨hvalid, -⟩ | ⟨-, hr⟩
          · obtain ⟨hlen, haccepts⟩ := (Bool.and_eq_true _ _).mp hvalid
            refine .intro shift values shift' values' correction symbols openings proof rest c prng'
              u v rfl ?_ ?_ ?_ hdrawn ?_ hu hv (of_decide_eq_true hlen) haccepts
            · exact fun i hi => List.all_eq_true.mp hcommit i (List.mem_range.mpr hi)
            · exact fun i hi => List.all_eq_true.mp hchecks i (List.mem_range.mpr hi)
            · exact fun i hi =>
                bne_iff_ne.mp (List.all_eq_true.mp hnonzero i (List.mem_range.mpr hi))
            · exact fun i hi => beq_iff_eq.mp (List.all_eq_true.mp hmatch i (List.mem_range.mpr hi))
          · cases hr
        · cases hr
      · cases hr
    · obtain rfl : plus = .unassigned gamma := hfailed
      cases (feed_evalSymbols_of_unassigned h).1
  · cases hr

theorem output_of_evalSymbols {verifier : ZkVerifier F} {plus : VolePlusOutput F} {out : Bytes32}
    (h : feed (o.evalSymbols expand blake2 symBufLen fuel x output verifier plus prng) ms
      = .returned (false, out) rest) : out = output := by
  obtain ⟨symbols, tail, rfl, -, h⟩ := feed_evalSymbols_returned.mp h
  rcases h with ⟨-, h⟩ | ⟨-, hr, -⟩
  · obtain ⟨c, prng', -, openings, tail, rfl, -, h⟩ := feed_evalChallenge_returned.mp h
    rcases h with ⟨-, h⟩ | ⟨-, hr, -⟩
    · obtain ⟨-, u, -, v, -, proof, rfl, hverify⟩ := feed_evalVerify_returned.mp h
      rcases hverify with ⟨-, t, -, hr⟩ | ⟨-, hr⟩
      · cases hr
      · exact (Prod.mk.inj hr).2.symm
    · exact (Prod.mk.inj hr).2.symm
  · exact (Prod.mk.inj hr).2.symm

/-- **A run that returns `false` has left the output buffer as it was.** -/
theorem output_of_eval {out : Bytes32}
    (h : feed (o.eval expand blake2 symBufLen fuel x output a points prng) ms
      = .returned (false, out) rest) : out = output := by
  obtain ⟨shift, values, tail, rfl, -, h⟩ := feed_eval_returned.mp h
  rcases h with ⟨-, plus, prng', mid, -, h⟩ | ⟨-, hr, -⟩
  · exact output_of_evalSymbols h
  · exact (Prod.mk.inj hr).2.symm

/-! ## After a failed VOLE+ -/

/-- The client's generator after a failed VOLE+ on the messages `ms`: a block was drawn for the
commitment, and one for each message of VOLE+ but the last. -/
def afterPlusFails (prng : Prng) (ms : List Bytes) : Prng := prng.skip (16 * (ms.length - 2))

/-- **The run goes on** with what `receive` has not assigned. -/
theorem feed_eval_of_plusFails (blake2 : Bytes → Bytes32) (symBufLen fuel : Nat) (x : Bytes)
    (output : Bytes32) (hfails : PlusFails o expand a points prng ms) :
    ∃ (verifier : ZkVerifier F) (gamma : Nat → F), ∀ later,
      feed (o.eval expand blake2 symBufLen fuel x output a points prng) (ms ++ later)
        = feed (o.evalSymbols expand blake2 symBufLen fuel x output verifier (.unassigned gamma)
            (afterPlusFails prng ms)) later := by
  obtain ⟨shift, values, plus, hread, hcommit, hplus⟩ := hfails
  have hfirst : ∀ tail, feed (o.zk.verifierCommit expand (o.clientZkp expand a points).o
        (o.clientZkp expand a points).h prng) (shift :: values :: tail)
      = .returned (true, o.clientVerifier expand a points shift, prng.skip 16) tail := by
    intro tail
    refine (ZkParams.feed_verifierCommit_returned expand).mpr ⟨shift, values, rfl,
      hread.shift_length, hread.multipliersFit, hread.values_length, ?_⟩
    rw [← hcommit]
    rfl
  have hpos : 0 < plus.length := by
    cases hplus <;> exact Nat.zero_lt_succ _
  have hprng : (prng.skip 16).skip (16 * (plus.length - 1))
      = afterPlusFails prng (shift :: values :: plus) := by
    rw [Prng.skip_skip, afterPlusFails, List.length_cons, List.length_cons]
    congr 1
    omega
  obtain ⟨gamma, hsecond⟩ := hplus.feed_receiveOr expand o.volePlus (hashInput blake2 x)
  refine ⟨o.clientVerifier expand a points shift, gamma, fun later => ?_⟩
  unfold eval
  rw [List.cons_append, List.cons_append, feed_bind, hfirst]
  simp only [Outcome.andThen, if_true]
  rw [feed_bind, hsecond, hprng]
  rfl

/-- **After a failed VOLE+** a run returns `false` exactly when a later check fails before
`verify`. -/
theorem returns_false_iff {later : List Bytes} (hfails : PlusFails o expand a points prng ms) :
    (∃ rest, feed (o.eval expand blake2 symBufLen fuel x output a points prng) (ms ++ later)
        = .returned (false, output) rest) ↔ o.LaterAbort fuel (afterPlusFails prng ms) later := by
  obtain ⟨verifier, gamma, hrun⟩ := feed_eval_of_plusFails blake2 symBufLen fuel x output hfails
  rw [hrun]
  constructor
  · rintro ⟨rest, h⟩
    exact (feed_evalSymbols_of_unassigned h).2
  · rintro (⟨symbols, rest, rfl, hlen, hzero⟩ |
      ⟨symbols, openings, rest, c, prng', rfl, hlen, hlen', hnonzero, hdrawn, hdiffer⟩)
    · exact ⟨rest, feed_evalSymbols_returned.mpr
        ⟨symbols, rest, rfl, hlen, Or.inr ⟨hzero, rfl, rfl⟩⟩⟩
    · refine ⟨rest, feed_evalSymbols_returned.mpr
        ⟨symbols, _, rfl, hlen, Or.inl ⟨hnonzero, ?_⟩⟩⟩
      exact feed_evalChallenge_returned.mpr
        ⟨c, prng', hdrawn, openings, rest, rfl, hlen', Or.inr ⟨hdiffer, rfl, rfl⟩⟩

/-- **When phases 4 to 6 pass**, the run reads `cu`. -/
theorem reads_unassigned {symbols openings : Bytes} {rest : List Bytes} {c : List Nat}
    {prng' : Prng} (hfails : PlusFails o expand a points prng ms)
    (hlen : symbols.length = o.lenCom * symbolBytes)
    (hlen' : openings.length = o.k * primeBytes)
    (hnonzero : o.symbolsNonzero (readSymbol symbols) = true)
    (hdrawn : drawChallenge o.lenCom o.k fuel [] (afterPlusFails prng ms) = some (c, prng'))
    (hmatch : o.openingsMatch (readSymbol symbols) c (readFe25519 openings : Nat → F) = true)
    (hfit : o.zk.offsetsFit o.offsets (c.map UInt8.ofNat) = true) :
    feed (o.eval expand blake2 symBufLen fuel x output a points prng)
      (ms ++ symbols :: openings :: rest) = .faulted .uninitialised := by
  obtain ⟨verifier, gamma, hrun⟩ := feed_eval_of_plusFails blake2 symBufLen fuel x output hfails
  have hcu : (VolePlusOutput.unassigned gamma).cu = none := rfl
  rw [hrun, evalSymbols, feed_recvBytes hlen]
  simp only [hnonzero, if_true]
  rw [evalChallenge, hdrawn]
  simp only [Proc.ofOption_some, Proc.ret_bind, Proc.put_bind, feed_send]
  rw [feed_recvBytes hlen']
  simp only [hmatch, if_true]
  rw [evalVerify, ZkParams.verifyOr, hfit, hcu]
  rfl

/-- A run that has failed VOLE+ listens to the server again. -/
theorem waits_of_plusFails (hfails : PlusFails o expand a points prng ms) :
    feed (o.eval expand blake2 symBufLen fuel x output a points prng) ms = .waiting := by
  obtain ⟨verifier, gamma, hrun⟩ := feed_eval_of_plusFails blake2 symBufLen fuel x output hfails
  have hend := hrun []
  rw [List.append_nil] at hend
  rw [hend, evalSymbols, recvBytes_bind]
  rfl

/-- What the checks of the client are for, once the messages `ms` are read, whatever is sent
`later`: a run that returns `true` has passed them all, one that returns `false` leaves the output
buffer as it was, and one that has failed VOLE+ on the way returns `false` from there on. -/
structure Aborts (o : OPRF F) (expand : Block → Nat → UInt8) (blake2 : Bytes → Bytes32)
    (symBufLen fuel : Nat) (x : Bytes) (output : Bytes32) (a : Nat → Block)
    (points : Nat → Nat) (prng : Prng) (ms : List Bytes) : Prop where
  checked : ∀ later out rest,
    feed (o.eval expand blake2 symBufLen fuel x output a points prng) (ms ++ later)
      = .returned (true, out) rest → AllChecks o expand blake2 fuel x a points prng (ms ++ later)
  unchanged : ∀ later out rest,
    feed (o.eval expand blake2 symBufLen fuel x output a points prng) (ms ++ later)
      = .returned (false, out) rest → out = output
  plus : ∀ read, read <+: ms → PlusFails o expand a points prng read → ∀ later, ∃ rest,
    feed (o.eval expand blake2 symBufLen fuel x output a points prng) (read ++ later)
      = .returned (false, output) rest

end

/-- **The client aborts as it should exactly when VOLE+ does not fail**: the messages read so far
do not reach the end of VOLE+, or those of VOLE+ have the right lengths and pass every row of its
check. -/
theorem aborts_iff {F : Type} [FieldOps F] (o : OPRF F) (expand : Block → Nat → UInt8)
    (blake2 : Bytes → Bytes32) (symBufLen fuel : Nat) (x : Bytes) (output : Bytes32)
    (a : Nat → Block) (points : Nat → Nat) (prng : Prng) (ms : List Bytes) :
    Aborts o expand blake2 symBufLen fuel x output a points prng ms ↔
      ∀ read, read <+: ms → ¬ PlusFails o expand a points prng read := by
  constructor
  · intro haborts read hread hfails
    obtain ⟨rest, hfalse⟩ := haborts.plus read hread hfails []
    rw [List.append_nil, waits_of_plusFails hfails] at hfalse
    cases hfalse
  · exact fun h => ⟨fun _ _ _ => allChecks_of_eval, fun _ _ _ => output_of_eval,
      fun read hread hfails => absurd hfails (h read hread)⟩

/-! ## A server that lies in the VOLE+ check -/

section

variable {o : OPRF Fp} {expand : Block → Nat → UInt8} {a bOt : Nat → Block} {points : Nat → Nat}
  {prng : Prng} {state : Nat → Poly Fp 1}

/-- The values of the VOLE+ check, each too large by one. -/
def wrongValues (o : OPRF Fp) (expand : Block → Nat → UInt8) (bOt : Nat → Block) (prng : Prng) :
    Bytes :=
  o.volePlus.checkValues (o.volePlus.sessionGamma expand (prng.skip 16))
    (fun i j => (o.serverVole expand bOt).u i j + if j = o.volePlus.len then 1 else 0)
    (o.serverVole expand bOt).v

/-- What the server sends before phase 4. -/
def lyingMessages (o : OPRF Fp) (expand : Block → Nat → UInt8) (bOt : Nat → Block)
    (state : Nat → Poly Fp 1) (prng : Prng) : List Bytes :=
  [o.zk.shifts state (o.serverZkp expand bOt).v,
    o.zk.checkValues state (o.serverZkp expand bOt).u (commitGamma expand prng),
    o.volePlus.derandomisation (o.serverVole expand bOt).v, o.wrongValues expand bOt prng]

/-- **These messages pass the commitment and fail VOLE+.** -/
theorem plusFails_of_wrongValues (hset : o.Supported) (hp : o.Punctured a bOt points)
    (hrow : 0 < o.volePlus.kVole) :
    PlusFails o expand a points prng (o.lyingMessages expand bOt state prng) := by
  have hbits : o.smallSetBits ≤ 12 := hset.bits_le.trans (by norm_num)
  refine .intro _ _ _ ⟨?_, hset.multipliersFit, ?_⟩ ?_ (.row _ _ ⟨?_, ?_⟩ ?_)
  · rw [ZkParams.shifts, length_writeVecToBytes, length_grid, Nat.mul_comm]
  · rw [ZkParams.checkValues, length_writeVecToBytes, List.length_cons, List.length_map,
      List.length_range, Nat.mul_comm]
  · refine List.all_eq_true.mpr fun i hi => ?_
    exact ZkParams.checkRow_honest hset.lenEval hset.k
      (fun i hi j _ => zkp_correlation hp hset.le_bits hbits hi j) (List.mem_range.mp hi)
  · rw [VolePlus.derandomisation, length_writeVecToBytes, length_grid, Nat.mul_assoc]
  · rw [wrongValues, VolePlus.checkValues, length_writeVecToBytes, List.length_append,
      List.length_map, List.length_range, List.length_singleton, Nat.mul_comm]
  · refine List.all_eq_false.mpr ⟨0, List.mem_range.mpr hrow, fun hpass => ?_⟩
    have hsum := (VolePlus.checkRow_iff
      (fun i hi j _ => vole_correlation hp hset.le_bits hbits hi j) _ hrow).mp hpass
    simp only [mul_add, sum_add_distrib, mul_ite, mul_one, mul_zero] at hsum
    have hgamma : o.volePlus.sessionGamma expand (prng.skip 16) o.volePlus.len = (1 : Fp) :=
      VolePlus.expandGamma_last expand _
    rw [sum_ite_eq' (range (o.volePlus.len + 1)), if_pos (self_mem_range_succ _), hgamma] at hsum
    exact one_ne_zero (left_eq_add.mp hsum.symm)

end

/-- **A run that reads `cu` unassigned**: the server is honest but for the values of the VOLE+
check, and every opening is 1. -/
theorem not_aborts :
    let expand : Block → Nat → UInt8 := shiftedSeed
    let blake2 : Bytes → Bytes32 := fun bytes => Vector.replicate 32 (bytes.getD 0 7)
    let leaves : Nat → Block := fun i => Vector.replicate 16 (UInt8.ofNat i)
    let ms := sample.lyingMessages expand leaves (fun _ => ⟨fun _ => 1⟩) counter
    let later := [sample.packedSymbols 0, writeVecToBytes (List.replicate 53 (1 : Fp))]
    feed (sample.eval expand blake2 symBufBytes 53 [1, 2] (Vector.replicate 32 0) leaves
        (fun _ => 0) counter) (ms ++ later) = .faulted .uninitialised ∧
      ¬ Aborts sample expand blake2 symBufBytes 53 [1, 2] (Vector.replicate 32 0) leaves
        (fun _ => 0) counter ms := by
  intro expand blake2 leaves ms later
  have hfails : PlusFails sample expand leaves (fun _ => 0) counter ms :=
    plusFails_of_wrongValues sample_supported (sample_punctured leaves) (by decide)
  have hdraw : (drawChallenge 53 53 53 [] (afterPlusFails counter ms)).isSome = true :=
    (drawChallenge_isSome_iff 53 (counter.skip 32)).mpr (by decide +kernel)
  obtain ⟨⟨c, prng'⟩, hdrawn⟩ := Option.isSome_iff_exists.mp hdraw
  obtain ⟨-, hlen, hlt⟩ := drawChallenge_spec (by norm_num) List.nodup_nil (Nat.zero_le _)
    (List.forall_mem_nil _) hdrawn
  have hfit : sample.zk.offsetsFit sample.offsets (c.map UInt8.ofNat) = true :=
    (challenge_fits sample_supported.offsets_length sample_supported.lenCom_le hlen hlt).1
  have hsymbol : ∀ i < 53, readSymbol (sample.packedSymbols 0) i = truncate 1 := fun i hi =>
    (readSymbol_packedSymbols hi).trans (sample_symbol hi)
  have hmatch : sample.openingsMatch (readSymbol (sample.packedSymbols 0)) c
      (readFe25519 (writeVecToBytes (List.replicate 53 (1 : Fp)))) = true := by
    refine List.all_eq_true.mpr fun i hi => beq_iff_eq.mpr ?_
    have hi : i < 53 := List.mem_range.mp hi
    have hci : c.getD i 0 < 53 := by
      rw [List.getD_eq_getElem _ _ (by omega)]
      exact hlt _ (List.getElem_mem _)
    rw [hsymbol _ hci, readFe25519_writeVecToBytes _ (by simpa using hi), List.getElem_replicate,
      presidueEps_eq, one_pow]
  have hopenings : (writeVecToBytes (List.replicate 53 (1 : Fp))).length
      = sample.k * primeBytes := by
    rw [length_writeVecToBytes, List.length_replicate]
    rfl
  have hfault : feed (sample.eval expand blake2 symBufBytes 53 [1, 2] (Vector.replicate 32 0)
      leaves (fun _ => 0) counter) (ms ++ later) = .faulted .uninitialised :=
    reads_unassigned hfails length_packedSymbols hopenings sample_server.symbolsNonzero hdrawn
      hmatch hfit
  refine ⟨hfault, fun haborts => ?_⟩
  obtain ⟨rest, hfalse⟩ := haborts.plus ms List.prefix_rfl hfails later
  rw [hfault] at hfalse
  cases hfalse

end HocusPocus.OPRF
