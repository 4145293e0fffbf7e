import HocusPocus.Oprf.Model

/-!
# The transcript of `eval` (phase 8)

The transcript should be the packed symbols `e_i`, the packed symbols of the `o_i`, and the input.
The symbols have five bytes, `sym_buf` has four and `sym_prime` 32 bits.

* `transcript_eq`, `transcript_eq_none`: the transcript for a `sym_buf` of five bytes or more, and
  none for a shorter one.
* `transcript_encodes_iff`: with the buffer of the source the transcript is as it should be only
  when there is no symbol at all; with a longer one, when every symbol of an `o_i` has 32 bits.
-/

namespace HocusPocus.OPRF

open Machine FieldOps FastResidue

/-! ## Appending symbols -/

theorem appendSymbol_eq {acc : Bytes × Bytes} (h : symbolBytes ≤ acc.2.length) (symbol : UInt64) :
    appendSymbol acc symbol
      = some (acc.1 ++ (bytesOfSymbol symbol).toList,
          (bytesOfSymbol symbol).toList ++ acc.2.drop symbolBytes) := by
  rw [appendSymbol, pack_eq, if_pos (by omega), List.take_zero, List.nil_append, Nat.zero_add]
  simp only [Option.bind_eq_bind, Option.bind_some, Option.pure_def]
  rw [List.take_left' Vector.length_toList]

/-- **A buffer that is too short** is overrun by the first symbol. -/
theorem appendSymbol_eq_none {acc : Bytes × Bytes} (h : acc.2.length < symbolBytes)
    (symbol : UInt64) : appendSymbol acc symbol = none := by
  rw [appendSymbol, pack_eq, if_neg (by omega)]
  rfl

/-- A loop that appends one symbol in each round. -/
theorem foldlM_appendSymbol (step : Bytes × Bytes → Nat → Option (Bytes × Bytes))
    (f : Nat → UInt64) {n : Nat} (hstep : ∀ acc, ∀ i < n, step acc i = appendSymbol acc (f i))
    (t : Bytes) {symBuf : Bytes} (h : symbolBytes ≤ symBuf.length) :
    ∃ symBuf' : Bytes, symbolBytes ≤ symBuf'.length ∧
      (List.range n).foldlM step (t, symBuf)
        = some (t ++ concat ((List.range n).map fun i => bytesOfSymbol (f i)), symBuf') := by
  induction n with
  | zero => exact ⟨symBuf, h, by simp⟩
  | succ n ih =>
    obtain ⟨symBuf', hlen, heq⟩ := ih fun acc i hi => hstep acc i (by omega)
    refine ⟨(bytesOfSymbol (f n)).toList ++ symBuf'.drop symbolBytes, ?_, ?_⟩
    · rw [List.length_append, Vector.length_toList]
      omega
    · rw [List.range_succ, List.foldlM_append, heq, Option.bind_eq_bind, Option.bind_some,
        List.foldlM_cons, hstep _ n (by omega), appendSymbol_eq hlen, List.map_append,
        concat_append, ← List.append_assoc]
      simp [concat_cons]

theorem foldlM_eq_none {step : Bytes × Bytes → Nat → Option (Bytes × Bytes)} {n : Nat}
    (hn : n ≠ 0) {acc : Bytes × Bytes} (hstep : step acc 0 = none) :
    (List.range n).foldlM step acc = none := by
  obtain ⟨m, rfl⟩ := Nat.exists_eq_succ_of_ne_zero hn
  rw [List.range_succ_eq_map, List.foldlM_cons, hstep]
  rfl

/-! ## The transcript -/

section

variable {F : Type} [FieldOps F] {o : OPRF F} {symBufLen : Nat} {e : Nat → UInt64}
  {ovec : List F} {x : Bytes}

/-- The transcript with the symbols of the `o_i` as given. -/
def packed (o : OPRF F) (e s : Nat → UInt64) (x : Bytes) : Bytes :=
  concat ((List.range o.lenCom).map fun i => bytesOfSymbol (e i))
    ++ concat ((List.range o.lenEval).map fun i => bytesOfSymbol (s i)) ++ x

/-- `o[i]` as phase 8 reads it. -/
theorem getElem?_ovec (hlen : ovec.length = o.lenEval) {i : Nat} (hi : i < o.lenEval) :
    ovec[i]? = some (ovec.getD i setZero) := by
  rw [List.getD_eq_getElem _ _ (by omega), List.getElem?_eq_getElem]

/-- **The transcript for a buffer of five bytes or more.** -/
theorem transcript_eq (hbuf : symbolBytes ≤ symBufLen) (hlen : ovec.length = o.lenEval) :
    o.transcript symBufLen e ovec x
      = some (o.packed e (fun i => symPrime (ovec.getD i setZero)) x) := by
  have hzero : symbolBytes ≤ (List.replicate symBufLen (0 : UInt8)).length := by
    rw [List.length_replicate]
    exact hbuf
  obtain ⟨buf, hbuf', hcom⟩ := foldlM_appendSymbol (fun acc i => appendSymbol acc (e i)) e
    (n := o.lenCom) (fun _ _ _ => rfl) [] hzero
  obtain ⟨buf', -, heval⟩ := foldlM_appendSymbol
    (fun acc i => do appendSymbol acc (symPrime (← ovec[i]?)))
    (fun i => symPrime (ovec.getD i setZero)) (n := o.lenEval)
    (fun acc i hi => by
      rw [getElem?_ovec hlen hi]
      rfl)
    ([] ++ concat ((List.range o.lenCom).map fun i => bytesOfSymbol (e i))) hbuf'
  unfold transcript packed
  rw [hcom, Option.bind_eq_bind, Option.bind_some, heval, Option.bind_some, List.nil_append]
  rfl

/-! ## What the transcript encodes -/

/-- The transcript phase 8 should hash: packed symbols, then the input. -/
def symbols (o : OPRF F) (e : Nat → UInt64) (ovec : List F) (x : Bytes) : Bytes :=
  o.packed e (fun i => presidueEpsPrime (ovec.getD i setZero)) x

theorem toNat_symPrime (val : F) : (symPrime val).toNat = (presidueEpsPrime val).toNat % 2 ^ 32 :=
  UInt64.toNat_toUInt32 _

/-- A symbol has 40 bits. -/
theorem presidueEpsPrime_lt (val : F) : (presidueEpsPrime val).toNat < 2 ^ 40 := by
  rw [presidueEpsPrime, presidueEps, toNat_assemble]
  exact Arith.value_lt fun i _ => UInt8.toNat_lt _

omit [FieldOps F] in
/-- **The groups of the transcript** unpack to the symbols. -/
theorem unpack_packed {e s : Nat → UInt64} (he : ∀ i < o.lenCom, (e i).toNat < 2 ^ 40)
    (hs : ∀ i < o.lenEval, (s i).toNat < 2 ^ 40) :
    (∀ i < o.lenCom, FastResidue.unpack (o.packed e s x) (i * symbolBytes) = e i) ∧
      ∀ i < o.lenEval,
        FastResidue.unpack (o.packed e s x) ((o.lenCom + i) * symbolBytes) = s i := by
  have hjoin : o.packed e s x = concat ((List.range o.lenCom).map (fun i => bytesOfSymbol (e i))
      ++ (List.range o.lenEval).map fun i => bytesOfSymbol (s i)) ++ x := by
    rw [packed, concat_append]
  rw [hjoin]
  constructor
  · intro i hi
    refine unpack_bytesOfSymbol ?_ (he i hi)
    rw [block_concat_append _ _ (by simp; omega), List.getElem_append_left (by simpa using hi)]
    simp
  · intro i hi
    refine unpack_bytesOfSymbol ?_ (hs i hi)
    rw [block_concat_append _ _ (by simp; omega), List.getElem_append_right (by simp)]
    simp

/-- The transcript of phase 8 is the packed symbols, every group unpacks to its symbol, and no
other symbols or input have the same transcript. -/
structure Encodes (o : OPRF F) (symBufLen : Nat) (e : Nat → UInt64) (ovec : List F) (x : Bytes) :
    Prop where
  written : o.transcript symBufLen e ovec x = some (o.symbols e ovec x)
  e_read : ∀ i < o.lenCom, FastResidue.unpack (o.symbols e ovec x) (i * symbolBytes) = e i
  s_read : ∀ i < o.lenEval,
    FastResidue.unpack (o.symbols e ovec x) ((o.lenCom + i) * symbolBytes)
      = presidueEpsPrime (ovec.getD i setZero)
  determined : ∀ (e' : Nat → UInt64) (ovec' : List F) (x' : Bytes),
    (∀ i < o.lenCom, (e' i).toNat < 2 ^ 40) → ovec'.length = o.lenEval →
    o.transcript symBufLen e' ovec' x' = o.transcript symBufLen e ovec x →
    (∀ i < o.lenCom, e' i = e i) ∧
      (∀ i < o.lenEval, presidueEpsPrime (ovec'.getD i setZero)
        = presidueEpsPrime (ovec.getD i setZero)) ∧
      x' = x

/-- **A shorter buffer leaves no transcript** once there is a symbol. -/
theorem transcript_eq_none (hbuf : symBufLen < symbolBytes)
    (hsymbol : ¬ (o.lenCom = 0 ∧ o.lenEval = 0)) :
    o.transcript symBufLen e ovec x = none := by
  have hnone : ∀ symbol, appendSymbol ([], List.replicate symBufLen 0) symbol = none :=
    fun symbol => appendSymbol_eq_none (by simpa using hbuf) symbol
  unfold transcript
  by_cases hcom : o.lenCom = 0
  · have heval : o.lenEval ≠ 0 := fun h => hsymbol ⟨hcom, h⟩
    rw [hcom, List.range_zero, List.foldlM_nil, Option.pure_def, Option.bind_eq_bind,
      Option.bind_some, foldlM_eq_none heval]
    · rfl
    · simp only [hnone]
      exact Option.bind_fun_none _
  · rw [foldlM_eq_none hcom (hnone _)]
    rfl

/-- **With a longer `sym_buf`** only the symbols above 32 bits go wrong. -/
theorem transcript_eq_symbols_iff (hbuf : symbolBytes ≤ symBufLen)
    (hlen : ovec.length = o.lenEval) :
    o.transcript symBufLen e ovec x = some (o.symbols e ovec x) ↔
      ∀ i < o.lenEval, (presidueEpsPrime (ovec.getD i setZero)).toNat < 2 ^ 32 := by
  rw [transcript_eq hbuf hlen, Option.some.injEq]
  constructor
  · intro h i hi
    have hblocks :=
      concat_injective (by simp) (List.append_cancel_left (List.append_cancel_right h))
    have hblock := List.map_inj_left.mp hblocks i (List.mem_range.mpr hi)
    have hs := presidueEpsPrime_lt (ovec.getD i setZero)
    have hsym := toNat_symPrime (ovec.getD i setZero)
    have heq := congrArg leValue hblock
    simp only at heq
    rw [leValue_bytesOfSymbol, leValue_bytesOfSymbol, hsym] at heq
    omega
  · intro h
    have hblocks : (List.range o.lenEval).map
          (fun i => bytesOfSymbol (symPrime (ovec.getD i setZero)))
        = (List.range o.lenEval).map
          fun i => bytesOfSymbol (presidueEpsPrime (ovec.getD i setZero)) := by
      refine List.map_congr_left fun i hi => congrArg bytesOfSymbol (UInt64.toNat_inj.mp ?_)
      rw [toNat_symPrime, Nat.mod_eq_of_lt (h i (List.mem_range.mp hi))]
    rw [symbols, packed, packed, hblocks]

/-- **The transcript of the source** is as it should be only without any symbol. -/
theorem encodes_iff (he : ∀ i < o.lenCom, (e i).toNat < 2 ^ 40) :
    o.Encodes symBufBytes e ovec x ↔ o.lenCom = 0 ∧ o.lenEval = 0 := by
  have hshort : symBufBytes < symbolBytes := by decide
  constructor
  · intro h
    by_contra hsymbol
    have hwritten := h.written
    rw [transcript_eq_none hshort hsymbol] at hwritten
    cases hwritten
  · rintro ⟨hcom, heval⟩
    have htranscript : ∀ (e : Nat → UInt64) (ovec : List F) (x : Bytes),
        o.transcript symBufBytes e ovec x = some x := by
      intro e ovec x
      rw [transcript, hcom, heval]
      rfl
    obtain ⟨hread, hsread⟩ := unpack_packed (x := x) he fun i _ =>
      presidueEpsPrime_lt (ovec.getD i setZero)
    refine ⟨?_, hread, hsread, fun e' ovec' x' _ _ h => ⟨?_, ?_, ?_⟩⟩
    · rw [htranscript, symbols, packed, hcom, heval]
      rfl
    · rw [hcom]
      exact fun i hi => absurd hi (Nat.not_lt_zero i)
    · rw [heval]
      exact fun i hi => absurd hi (Nat.not_lt_zero i)
    · rw [htranscript, htranscript] at h
      exact Option.some.inj h

end

/-- **Phase 8**: with the `sym_buf` of the source the transcript encodes its symbols and the input
exactly when there is no symbol; with five bytes or more, exactly when every symbol of an `o_i`
fits `sym_prime`. -/
theorem transcript_encodes_iff {F : Type} [FieldOps F] (o : OPRF F) (e : Nat → UInt64)
    (ovec : List F) (x : Bytes) (he : ∀ i < o.lenCom, (e i).toNat < 2 ^ 40)
    (hlen : ovec.length = o.lenEval) :
    (o.Encodes symBufBytes e ovec x ↔ o.lenCom = 0 ∧ o.lenEval = 0) ∧
      ∀ n, symbolBytes ≤ n →
        (o.transcript n e ovec x = some (o.symbols e ovec x) ↔
          ∀ i < o.lenEval, (presidueEpsPrime (ovec.getD i setZero)).toNat < 2 ^ 32) :=
  ⟨encodes_iff he, fun _ hn => transcript_eq_symbols_iff hn hlen⟩

/-- The protocol's sizes, all symbols 1. -/
theorem transcript_encodes_iff_example :
    let o : OPRF Fp := ⟨10, 53, 53, 64, 8, []⟩
    let e : Nat → UInt64 := fun _ => 1
    let ovec : List Fp := List.replicate 10 1
    (o.Encodes symBufBytes e ovec [3] ↔ o.lenCom = 0 ∧ o.lenEval = 0) ∧
      ∀ n, symbolBytes ≤ n →
        (o.transcript n e ovec [3] = some (o.symbols e ovec [3]) ↔
          ∀ i < o.lenEval, (presidueEpsPrime (ovec.getD i setZero)).toNat < 2 ^ 32) := by
  intro o e ovec
  exact transcript_encodes_iff o e ovec [3] (fun _ _ => by decide) List.length_replicate

/-- The symbol of -1. -/
theorem toNat_presidueEpsPrime_neg_one :
    (presidueEpsPrime (-1 : Fp)).toNat = 0xffffffffec := by
  have hodd : Odd powDExp := by decide +kernel
  have hone : (1 : Fp) ≠ 0 := one_ne_zero
  have : Fact (1 < prime) := ⟨prime_prime.one_lt⟩
  rw [presidueEpsPrime, presidueEps_eq, hodd.neg_one_pow, toNat_truncate, ZMod.neg_val,
    if_neg hone, ZMod.val_one]
  decide +kernel

/-- **Failing transcripts**: `e_i = 1` and `o_i = -1`. The first symbol overruns `sym_buf`; with
five bytes the symbol of each `o_i` loses its high byte. -/
theorem transcript_overrun :
    let o : OPRF Fp := ⟨10, 53, 53, 64, 8, []⟩
    let e : Nat → UInt64 := fun _ => 1
    let ovec : List Fp := List.replicate 10 (-1)
    ¬ o.Encodes symBufBytes e ovec [] ∧
      o.transcript symBufBytes e ovec [] = none ∧
      o.transcript symbolBytes e ovec [] ≠ some (o.symbols e ovec []) := by
  intro o e ovec
  have hsymbol : ¬ (o.lenCom = 0 ∧ o.lenEval = 0) := by decide
  have hlen : ovec.length = o.lenEval := List.length_replicate
  refine ⟨fun h => ?_, transcript_eq_none (by decide) hsymbol, fun h => ?_⟩
  · exact hsymbol ((encodes_iff fun _ _ => by decide).mp h)
  · have hfit := (transcript_eq_symbols_iff le_rfl hlen).mp h 0 (by decide)
    have hget : ovec.getD 0 setZero = -1 := rfl
    rw [hget, toNat_presidueEpsPrime_neg_one] at hfit
    norm_num at hfit

end HocusPocus.OPRF
