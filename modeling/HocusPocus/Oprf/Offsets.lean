import HocusPocus.Field.Canonical
import HocusPocus.Oprf.Model

/-!
# The offsets on limbs

The constructor draws an offset again when `operator==` finds it among the earlier ones. On limbs
`operator==` holds only of two numbers whose difference is the prime, so a draw is skipped exactly
when an earlier one is larger by the prime.

* `drawOffsets_kept`: the offsets are the draws that are not skipped.
* `kept_nodup_iff`: when they are distinct elements.
* `equality_iff`: `operator==` and the constructor, for all reduced operands and every stream.
-/

namespace HocusPocus.OPRF

open Machine Arith FieldOps Fe25519

variable {prng : Prng}

/-- The number of draw `j`; it is below `2 ^ 255`. -/
def drawNumber (prng : Prng) (j : Nat) : Nat := value 256 32 (limb (draw prng j : Fe25519).v)

/-- An earlier draw is larger than draw `j` by the prime. -/
def Skipped (prng : Prng) (j : Nat) : Prop := ∃ i < j, drawNumber prng i = drawNumber prng j + prime

instance (prng : Prng) (j : Nat) : Decidable (Skipped prng j) :=
  inferInstanceAs (Decidable (∃ i < j, _))

/-- The draws below `n` that are not skipped. -/
def kept (prng : Prng) (n : Nat) : List Fe25519 :=
  ((List.range n).filter fun j => ¬ Skipped prng j).map (draw prng)

theorem isReduced_draw (prng : Prng) (j : Nat) : (draw prng j : Fe25519).IsReduced :=
  isReduced_of_reduced (reduced_unpack _)

theorem drawNumber_le (prng : Prng) (j : Nat) : drawNumber prng j ≤ prime + 18 :=
  (isReduced_draw prng j).value_le

/-- A draw larger than another by the prime is never skipped itself. -/
theorem not_skipped_of_eq {i j : Nat} (h : drawNumber prng i = drawNumber prng j + prime) :
    ¬ Skipped prng i := by
  rintro ⟨l, -, hl⟩
  have hle := drawNumber_le prng l
  have hbig : 18 < prime := lt_prime_of_le (by norm_num)
  omega

theorem mem_kept {n : Nat} {x : Fe25519} :
    x ∈ kept prng n ↔ ∃ j < n, ¬ Skipped prng j ∧ draw prng j = x := by
  simp only [kept, List.mem_map, List.mem_filter, List.mem_range, decide_eq_true_eq, and_assoc]

theorem kept_succ (prng : Prng) (n : Nat) :
    kept prng (n + 1) = if Skipped prng n then kept prng n else kept prng n ++ [draw prng n] := by
  unfold kept
  rw [List.range_succ, List.filter_append, List.map_append]
  split_ifs with hskip <;> simp [hskip]

/-- **The collision test of the constructor** finds the draw exactly when it is to be skipped. -/
theorem any_kept_iff (n : Nat) :
    (kept prng n).any (FieldOps.eq (draw prng n)) = true ↔ Skipped prng n := by
  rw [List.any_eq_true]
  constructor
  · rintro ⟨x, hmem, heq⟩
    obtain ⟨j, hj, -, rfl⟩ := mem_kept.mp hmem
    exact ⟨j, hj, (eq_iff_value (isReduced_draw prng n) (isReduced_draw prng j)).mp heq⟩
  · rintro ⟨i, hi, heq⟩
    exact ⟨draw prng i, mem_kept.mpr ⟨i, hi, not_skipped_of_eq heq, rfl⟩,
      (eq_iff_value (isReduced_draw prng n) (isReduced_draw prng i)).mpr heq⟩

theorem randomFe25519_afterDraws (prng : Prng) (n : Nat) :
    (randomFe25519 (afterDraws prng n) : Fe25519 × Prng)
      = (draw prng n, afterDraws prng (n + 1)) := by
  rw [randomFe25519_eq, draw_afterDraws, afterDraws_afterDraws, add_zero]

/-- One offset: the draws up to it are skipped. -/
theorem drawOffset_kept {fuel n : Nat} {drawn : Fe25519 × Prng}
    (h : drawOffset (kept prng n) fuel (afterDraws prng n) = some drawn) :
    ∃ m, kept prng n ++ [drawn.1] = kept prng m ∧ drawn.2 = afterDraws prng m := by
  induction fuel generalizing n with
  | zero => cases h
  | succ fuel ih =>
    unfold drawOffset at h
    rw [randomFe25519_afterDraws] at h
    simp only at h
    have hnext := kept_succ prng n
    by_cases hskip : Skipped prng n
    · rw [if_pos ((any_kept_iff n).mpr hskip)] at h
      rw [if_pos hskip] at hnext
      rw [← hnext] at h ⊢
      exact ih h
    · rw [if_neg (fun hany => hskip ((any_kept_iff n).mp hany))] at h
      rw [if_neg hskip] at hnext
      obtain rfl := Option.some.inj h
      exact ⟨n + 1, hnext.symm, rfl⟩

/-- **The offsets are the draws that are not skipped.** -/
theorem drawOffsets_kept {fuel n : Nat} {drawn : List Fe25519 × Prng}
    (h : drawOffsets fuel n prng = some drawn) :
    ∃ m, drawn.1 = kept prng m ∧ drawn.2 = afterDraws prng m := by
  induction n generalizing drawn with
  | zero =>
    obtain rfl := Option.some.inj h
    exact ⟨0, rfl, rfl⟩
  | succ n ih =>
    obtain ⟨before, hbefore, last, hlast, rfl⟩ := drawOffsets_succ h
    obtain ⟨m, hkept, hprng⟩ := ih hbefore
    rw [hkept, hprng] at hlast
    rw [hkept]
    exact drawOffset_kept hlast

/-- **When the draws that are kept are distinct elements**: a draw that repeats an earlier one
modulo the prime has to be skipped. -/
theorem kept_nodup_iff (prng : Prng) (n : Nat) :
    ((kept prng n).map residue).Nodup ↔
      ∀ j < n, ∀ i < j, residue (draw prng i) = residue (draw prng j) → Skipped prng j := by
  have hrange : ((List.range n).filter fun j => ¬ Skipped prng j).Nodup :=
    List.nodup_range.filter _
  rw [kept, List.map_map, List.nodup_map_iff_inj_on hrange]
  simp only [List.mem_filter, List.mem_range, decide_eq_true_eq, Function.comp_apply]
  constructor
  · intro hinj j hj i hi heq
    by_contra hkeep
    by_cases hskip : Skipped prng i
    · -- the draw that made `i` skipped is kept, and is the same element as `j`
      obtain ⟨l, hl, hvalue⟩ := hskip
      have hlj : residue (draw prng l) = residue (draw prng j) := by
        rw [← heq]
        exact (residue_eq_iff (isReduced_draw prng l) (isReduced_draw prng i)).mpr
          (Or.inr (Or.inr hvalue))
      have := hinj l ⟨by omega, not_skipped_of_eq hvalue⟩ j ⟨hj, hkeep⟩ hlj
      omega
    · have := hinj i ⟨by omega, hskip⟩ j ⟨hj, hkeep⟩ heq
      omega
  · rintro hskips i ⟨hi, hkeepi⟩ j ⟨hj, hkeepj⟩ heq
    rcases lt_trichotomy i j with hlt | hlt | hgt
    · exact absurd (hskips j hj i hlt heq) hkeepj
    · exact hlt
    · exact absurd (hskips i hi j hgt heq.symm) hkeepi

theorem new_kept {expand : Block → Nat → UInt8} {fuel lenEval lenCom k stat bits : Nat}
    {o : OPRF Fe25519} (h : OPRF.new expand fuel lenEval lenCom k stat bits = some o) :
    ∃ n, o.offsets = kept (Prng.ofSeed expand (Vector.replicate 16 0)) n := by
  unfold OPRF.new at h
  simp only [Option.bind_eq_bind, Option.bind_eq_some_iff, Option.pure_def, Option.some.injEq] at h
  obtain ⟨drawn, hdrawn, rfl⟩ := h
  obtain ⟨n, hkept, -⟩ := drawOffsets_kept hdrawn
  exact ⟨n, hkept⟩

/-- **Field equality on limbs**: `operator==` decides congruence modulo the prime exactly on
operands that are not congruent or of which the second is larger by the prime, and the constructor
ends with distinct offsets exactly when every draw that repeats an earlier one is skipped. -/
theorem equality_iff (x y : Fe25519) (hx : x.IsReduced) (hy : y.IsReduced)
    (expand : Block → Nat → UInt8) (fuel lenEval lenCom k stat bits : Nat) (o : OPRF Fe25519)
    (ho : OPRF.new expand fuel lenEval lenCom k stat bits = some o) :
    let prng := Prng.ofSeed expand (Vector.replicate 16 0)
    ((FieldOps.eq x y = true ↔ x.residue = y.residue) ↔
        x.residue ≠ y.residue ∨ value 256 32 (limb y.v) = value 256 32 (limb x.v) + prime) ∧
      FieldOps.ne x y = !FieldOps.eq x y ∧
      ∃ n, o.offsets = kept prng n ∧
        ((o.offsets.map residue).Nodup ↔
          ∀ j < n, ∀ i < j, residue (draw prng i) = residue (draw prng j) → Skipped prng j) := by
  intro prng
  have heq := eq_iff_value hx hy
  have hcongr : value 256 32 (limb y.v) = value 256 32 (limb x.v) + prime →
      x.residue = y.residue :=
    fun hvalue => (residue_eq_iff hx hy).mpr (Or.inr (Or.inl hvalue))
  refine ⟨⟨fun hiff => ?_, ?_⟩, rfl, ?_⟩
  · by_cases hresidue : x.residue = y.residue
    · exact Or.inr (heq.mp (hiff.mpr hresidue))
    · exact Or.inl hresidue
  · rintro (hresidue | hvalue)
    · exact ⟨fun h => hcongr (heq.mp h), fun h => absurd h hresidue⟩
    · exact ⟨fun _ => hcongr hvalue, fun _ => heq.mpr hvalue⟩
  · obtain ⟨n, hkept⟩ := new_kept ho
    rw [hkept]
    exact ⟨n, rfl, kept_nodup_iff _ n⟩

/-- A stream of three draws: the numbers `p`, 0 and 5. -/
def repeatedDraws (_ : Block) (i : Nat) : UInt8 :=
  ((leBytes 32 prime).toList ++ (leBytes 32 0).toList ++ (leBytes 32 5).toList).getD i 0

/-- The numbers 0 and `p`, in this order, are found equal. Of the draws `p`, 0 and 5 the constructor
skips the second, which repeats the first, and its two offsets are distinct. -/
theorem equality_iff_example :
    let zero : Fe25519 := unpack (leBytes 32 0)
    let p : Fe25519 := unpack (leBytes 32 prime)
    let five : Fe25519 := unpack (leBytes 32 5)
    let prng := Prng.ofSeed repeatedDraws (Vector.replicate 16 0)
    (FieldOps.eq zero p = true ↔ zero.residue = p.residue) ∧ FieldOps.ne zero p = false ∧
      ∃ o : OPRF Fe25519, OPRF.new repeatedDraws 2 1 1 1 64 8 = some o ∧ o.offsets = [p, five] ∧
        Skipped prng 1 ∧ (o.offsets.map residue).Nodup ∧
        ∃ n, o.offsets = kept prng n ∧
          ∀ j < n, ∀ i < j, residue (draw prng i) = residue (draw prng j) → Skipped prng j := by
  intro zero p five prng
  have hzero : zero.IsReduced := isReduced_of_reduced (reduced_unpack _)
  have hp : p.IsReduced := isReduced_of_reduced (reduced_unpack _)
  have hfive : five.IsReduced := isReduced_of_reduced (reduced_unpack _)
  have hvalue : value 256 32 (limb p.v) = value 256 32 (limb zero.v) + prime := by decide +kernel
  have hnew : (OPRF.new repeatedDraws 2 1 1 1 64 8 : Option (OPRF Fe25519)).map OPRF.offsets
      = some [p, five] := by decide +kernel
  obtain ⟨o, ho, hoffsets⟩ := Option.map_eq_some_iff.mp hnew
  obtain ⟨hiff, hne, n, hkept, hnodup⟩ := equality_iff zero p hzero hp _ _ _ _ _ _ _ o ho
  have hdistinct : residue p ≠ residue five := by
    rw [Ne, residue_eq_iff hp hfive]
    decide +kernel
  have hnodup_offsets : (o.offsets.map residue).Nodup := by
    rw [hoffsets]
    simpa using hdistinct
  refine ⟨hiff.mpr (Or.inr hvalue), ?_, o, ho, hoffsets, by decide +kernel, hnodup_offsets, n,
    hkept, hnodup.mp hnodup_offsets⟩
  rw [hne, (eq_iff_value hzero hp).mpr hvalue]
  rfl

/-- **An element is not equal to itself**, and a stream of zeros gives the constructor the offset 0
again and again. -/
theorem equality_fails :
    let zero : Fe25519 := unpack (leBytes 32 0)
    zero.IsReduced ∧ FieldOps.eq zero zero = false ∧
      ∃ o : OPRF Fe25519, OPRF.new (fun _ _ => 0) 1 1 1 1 64 8 = some o ∧
        ¬ (o.offsets.map residue).Nodup := by
  intro zero
  have hnew : (OPRF.new (fun _ _ => 0) 1 1 1 1 64 8 : Option (OPRF Fe25519)).map OPRF.offsets
      = some [zero, zero] := by decide +kernel
  obtain ⟨o, ho, hoffsets⟩ := Option.map_eq_some_iff.mp hnew
  refine ⟨isReduced_of_reduced (reduced_unpack _), by decide +kernel, o, ho, ?_⟩
  rw [hoffsets]
  simp

end HocusPocus.OPRF
