import HocusPocus.Oprf.Layout
import HocusPocus.SafeTrunc.Symbols

/-!
# The key guard

`blindedEval` returns when `operator==` finds the key among the offsets, `K ∉ L`. What the protocol
works with is the sum `K + l`, which is zero for the negative of an offset; and `operator==` holds
only of an offset that is larger than the key by the prime.

* `key_sum_rep`, `serverU_rep`: the sums and the `u_i` of a key with byte limbs.
* `keyGuard_iff`: when the guard keeps zero symbols away.
-/

namespace HocusPocus.OPRF

open Machine Arith FieldOps Fe25519 FastResidue

/-- No offset cancels the key: the sums are not zero, nor the symbols, the client finds none in the
message of phase 4, and a nonzero `v_i` has a nonzero `u_i`. -/
structure NoZero (o : OPRF Fe25519) (Key : Fe25519) : Prop where
  sum : ∀ i < o.lenCom + o.lenEval, residue Key + residue (o.offset i) ≠ 0
  e : ∀ i < o.lenCom, o.serverSymbol Key i ≠ 0
  message : ∀ packed, packAll (o.serverSymbol Key) o.lenCom
    (List.replicate (o.lenCom * symbolBytes) 0) = some packed →
      o.symbolsNonzero (readSymbol packed) = true
  u : ∀ prng, ∀ i < o.lenEval, residue (serverV prng i : Fe25519) ≠ 0 →
    residue (o.serverU Key (serverV prng) i) ≠ 0

variable {o : OPRF Fe25519} {Key : Fe25519} {K : Fp}

/-! ## The key on limbs -/

section

variable (hoffsets : ∀ x ∈ o.offsets, x.IsReduced)

include hoffsets

theorem isReduced_offset (i : Nat) : (o.offset i).IsReduced := by
  unfold offset
  rcases Nat.lt_or_ge i o.offsets.length with hlt | hge
  · rw [List.getD_eq_getElem _ _ hlt]
    exact hoffsets _ (List.getElem_mem hlt)
  · rw [List.getD_eq_default _ _ hge]
    exact isReduced_setZero

theorem key_sum_rep (hKey : Rep 255 Key K) (i : Nat) :
    Rep 510 (Key + o.offset i) (K + residue (o.offset i)) :=
  hKey.add (isReduced_offset hoffsets i).toRep (by norm_num)

theorem serverU_rep (hKey : Rep 255 Key K) (prng : Prng) (i : Nat) :
    Rep 255 (o.serverU Key (serverV prng) i)
      ((K + residue (o.offset i)) * residue (serverV prng i : Fe25519)) :=
  ((key_sum_rep hoffsets hKey i).reduce (by norm_num)).toRep.mul (fastPowEps_draw_rep prng i)
    (by norm_num)

/-! ## What the guard lets through -/

theorem serverSymbol_eq (hKey : Rep 255 Key K) (i : Nat) :
    o.serverSymbol Key i = presidueEps (K + residue (o.offset (i + o.lenEval))) :=
  SafeTrunc.presidueEps_limbs (key_sum_rep hoffsets hKey _)

/-- The client reads the symbols the server packed. -/
theorem readSymbol_packAll (hKey : Rep 255 Key K) {packed : Bytes}
    (h : packAll (o.serverSymbol Key) o.lenCom (List.replicate (o.lenCom * symbolBytes) 0)
      = some packed) {i : Nat} (hi : i < o.lenCom) :
    readSymbol packed i = o.serverSymbol Key i := by
  rw [packAll_eq _ (by rw [List.length_replicate]), List.drop_of_length_le (by simp),
    List.append_nil, Option.some.injEq] at h
  refine unpack_bytesOfSymbol ?_ ?_
  · rw [← h, block_concat _ (by simpa using hi), List.getElem_map, List.getElem_range]
  · rw [serverSymbol_eq hoffsets hKey]
    exact presidueEps_lt _

/-- Nothing is zero when no sum is. -/
theorem noZero_of_sum (hKey : Key.IsReduced)
    (hsum : ∀ i < o.lenCom + o.lenEval, residue Key + residue (o.offset i) ≠ 0) :
    NoZero o Key := by
  have hrep : Rep 255 Key (residue Key) := hKey.toRep
  have he : ∀ i < o.lenCom, o.serverSymbol Key i ≠ 0 := by
    intro i hi
    rw [serverSymbol_eq hoffsets hrep, Ne, SafeTrunc.presidueEps_eq_zero_iff]
    exact hsum _ (by omega)
  refine ⟨hsum, he, fun packed hpacked => ?_, fun prng i hi hv => ?_⟩
  · refine List.all_eq_true.mpr fun i hi => ?_
    have hi := List.mem_range.mp hi
    rw [readSymbol_packAll hoffsets hrep hpacked hi, bne_iff_ne]
    exact he i hi
  · rw [(serverU_rep hoffsets hrep prng i).residue_eq]
    exact mul_ne_zero (hsum i (by omega)) hv

/-- When the guard lets a key through. -/
theorem guard_eq_false_iff (hKey : Key.IsReduced) :
    o.offsets.any (FieldOps.eq Key) = false ↔
      ¬ ∃ x ∈ o.offsets, value 256 32 (limb x.v) = value 256 32 (limb Key.v) + prime := by
  rw [← Bool.not_eq_true, List.any_eq_true, not_iff_not]
  exact exists_congr fun x => and_congr_right fun hx => eq_iff_value hKey (hoffsets x hx)

end

/-- **When the guard keeps zeros away**: it stops the key, or no offset is the key's negative. -/
theorem keyGuard_iff (hKey : Key.IsReduced) (hoffsets : ∀ x ∈ o.offsets, x.IsReduced)
    (hlen : o.offsets.length = o.lenCom + o.lenEval) :
    (o.offsets.any (FieldOps.eq Key) = false → NoZero o Key) ↔
      (∃ x ∈ o.offsets, value 256 32 (limb x.v) = value 256 32 (limb Key.v) + prime) ∨
        ∀ x ∈ o.offsets, residue Key + residue x ≠ 0 := by
  rw [guard_eq_false_iff hoffsets hKey]
  have hoffset : ∀ i (hi : i < o.offsets.length), o.offset i = o.offsets[i] := fun i hi =>
    List.getD_eq_getElem _ _ hi
  constructor
  · intro h
    by_cases hstop : ∃ x ∈ o.offsets, value 256 32 (limb x.v) = value 256 32 (limb Key.v) + prime
    · exact Or.inl hstop
    · refine Or.inr fun x hx => ?_
      obtain ⟨i, hi, rfl⟩ := List.getElem_of_mem hx
      have hsum := (h hstop).sum i (by omega)
      rwa [hoffset i hi] at hsum
  · rintro (hstop | hsum) hpass
    · exact absurd hstop hpass
    · refine noZero_of_sum hoffsets hKey fun i hi => ?_
      rw [hoffset i (by omega)]
      exact hsum _ (List.getElem_mem _)

/-! ## The negative of an offset -/

/-- The offset of a stream of ones. -/
def onesOffset : Fe25519 := unpack (Vector.replicate 32 1)

/-- The number of this offset. -/
def onesNumber : Nat := leValue (Vector.replicate 32 1)

theorem new_ones : ∃ o : OPRF Fe25519, OPRF.new (fun _ _ => 1) 1 1 1 1 64 8 = some o ∧
    o.offsets = [onesOffset, onesOffset] ∧ o.lenEval = 1 ∧ o.lenCom = 1 := by
  have hnew : (OPRF.new (fun _ _ => 1) 1 1 1 1 64 8 : Option (OPRF Fe25519)).map
      (fun o => (o.offsets, o.lenEval, o.lenCom))
        = some ([onesOffset, onesOffset], 1, 1) := by decide +kernel
  obtain ⟨o, ho, hfields⟩ := Option.map_eq_some_iff.mp hnew
  obtain ⟨hoffsets, hlens⟩ := Prod.mk.inj hfields
  exact ⟨o, ho, hoffsets, (Prod.mk.inj hlens).1, (Prod.mk.inj hlens).2⟩

theorem isReduced_onesOffset : onesOffset.IsReduced := isReduced_of_reduced (reduced_unpack _)

theorem residue_onesOffset : residue onesOffset = (onesNumber : Fp) :=
  (reduced_unpack_of_lt (by decide +kernel)).residue_eq

/-- The key 1. -/
theorem keyGuard_iff_example :
    ∃ o : OPRF Fe25519, OPRF.new (fun _ _ => 1) 1 1 1 1 64 8 = some o ∧
      NoZero o (unpack (leBytes 32 1)) := by
  obtain ⟨o, ho, hoffsets, heval, hcom⟩ := new_ones
  have hreduced : ∀ x ∈ o.offsets, x.IsReduced := by
    rw [hoffsets]
    simp [isReduced_onesOffset]
  have hlen : o.offsets.length = o.lenCom + o.lenEval := by rw [hoffsets, heval, hcom]; rfl
  have hone : leValue (leBytes 32 1) = 1 := by decide +kernel
  have hsum : residue (unpack (leBytes 32 1) : Fe25519) + residue onesOffset ≠ 0 := by
    rw [(reduced_unpack_of_lt (by decide +kernel)).residue_eq, hone, residue_onesOffset,
      ← Nat.cast_add, Ne, ZMod.natCast_eq_zero_iff, Nat.dvd_iff_mod_eq_zero]
    decide +kernel
  refine ⟨o, ho, (keyGuard_iff (isReduced_of_reduced (reduced_unpack _)) hreduced hlen).mpr
    (Or.inr ?_) ?_⟩
  · rw [hoffsets]
    simpa using hsum
  · rw [hoffsets]
    decide +kernel

/-- **The negative of an offset**: the guard lets it through, and the symbol is zero. -/
theorem keyGuard_fails :
    let Key : Fe25519 := unpack (leBytes 32 (prime - onesNumber))
    Key.IsReduced ∧ ∃ o : OPRF Fe25519, OPRF.new (fun _ _ => 1) 1 1 1 1 64 8 = some o ∧
      (∀ x ∈ o.offsets, x.IsReduced) ∧ o.offsets.any (FieldOps.eq Key) = false ∧
      residue Key + residue (o.offset 1) = 0 ∧ o.serverSymbol Key 0 = 0 := by
  intro Key
  obtain ⟨o, ho, hoffsets, heval, hcom⟩ := new_ones
  have hKey : Reduced Key (unpack (leBytes 32 (prime - onesNumber))) := reduced_unpack _
  have hreduced : ∀ x ∈ o.offsets, x.IsReduced := by
    rw [hoffsets]
    simp [isReduced_onesOffset]
  have hoffset : o.offset 1 = onesOffset := by rw [offset, hoffsets]; rfl
  have hnumber : leValue (leBytes 32 (prime - onesNumber)) + onesNumber = prime := by
    decide +kernel
  have hsum : residue Key + residue onesOffset = 0 := by
    rw [residue_onesOffset, (reduced_unpack_of_lt (by decide +kernel)).residue_eq, ← Nat.cast_add,
      hnumber, ZMod.natCast_self]
  refine ⟨isReduced_of_reduced hKey, o, ho, hreduced, ?_, ?_, ?_⟩
  · rw [hoffsets]
    decide +kernel
  · rw [hoffset, hsum]
  · rw [serverSymbol_eq hreduced (isReduced_of_reduced hKey).toRep, heval, Nat.zero_add, hoffset,
      hsum, SafeTrunc.presidueEps_eq_zero_iff]

end HocusPocus.OPRF
