import HocusPocus.Oprf.Offsets
import HocusPocus.SymbolLimbs

/-!
# The layout of the witness

`blindedEval` fills `w`, and the two constructors size the VOLE vectors, from their parameters
`leval` and `k`. The positions of the entries, the 79 of the copy loop and the two products of five
are constants.

* `witness_index`: `w` has each entry at its place in the order of filling, for all sizes.
* `index_injective`, `index_lt`: these places are distinct and inside the VOLE vectors.
* `pos_eq_index_iff`: the constants are these places for `leval = 10` and `k = 53` only.
* `layout_iff`: and only then do they lay out the witness.
-/

namespace HocusPocus

open Machine Duplex FieldOps Fe25519 FastResidue

/-! ## Entries -/

/-- A named entry of the VOLE vectors. -/
inductive Slot where
  | K
  | v (i : Nat)
  | b (i : Nat)
  | ru
  | rv
  | y (i : Nat)
  | a0
  | a1
  | c0
  | c1
  | mask (i : Nat)
  | check
  deriving DecidableEq

namespace Slot

/-- The entries of a proof with the parameters `zk`. -/
def Named (zk : ZkParams) : Slot → Prop
  | v i => i < zk.leval
  | b i => i < zk.k
  | y i => i < 9
  | mask i => i < 5
  | _ => True

/-- The constants of the source. -/
def pos : Slot → Nat
  | K => kPos
  | v i => vOffset + i
  | b i => bOffset + i
  | ru => ruPos
  | rv => rvPos
  | y i => yOffset + i
  | a0 => a0Pos
  | a1 => a1Pos
  | c0 => c0Pos
  | c1 => c1Pos
  | mask i => maskPos + i
  | check => checkPos

/-- The first place after the `b_i`. -/
def afterB (zk : ZkParams) : Nat := 1 + zk.leval + zk.k

/-- The place in the order `K, v, b, ru, rv, y, a0, a1, c0, c1`, masks, check element. -/
def index (zk : ZkParams) : Slot → Nat
  | K => 0
  | v i => 1 + i
  | b i => 1 + zk.leval + i
  | ru => afterB zk + 0
  | rv => afterB zk + 1
  | y i => afterB zk + (2 + i)
  | a0 => afterB zk + 11
  | a1 => afterB zk + 12
  | c0 => afterB zk + 13
  | c1 => afterB zk + 14
  | mask i => afterB zk + (15 + i)
  | check => afterB zk + 20

/-- The entry `n` places after the `b_i`. -/
def tail (n : Nat) : Slot :=
  if n = 0 then ru
  else if n = 1 then rv
  else if n < 11 then y (n - 2)
  else if n = 11 then a0
  else if n = 12 then a1
  else if n = 13 then c0
  else if n = 14 then c1
  else if n < 20 then mask (n - 15)
  else check

/-- The entry at a place. -/
def ofIndex (zk : ZkParams) (n : Nat) : Slot :=
  if n = 0 then K
  else if n < 1 + zk.leval then v (n - 1)
  else if n < afterB zk then b (n - (1 + zk.leval))
  else tail (n - afterB zk)

variable {zk : ZkParams} {s t : Slot}

theorem ofIndex_tail (zk : ZkParams) (n : Nat) : ofIndex zk (afterB zk + n) = tail n := by
  unfold ofIndex afterB
  rw [if_neg (by omega), if_neg (by omega), if_neg (by omega), Nat.add_sub_cancel_left]

/-- The place of an entry tells the entry. -/
theorem ofIndex_index (hs : s.Named zk) : ofIndex zk (s.index zk) = s := by
  cases s with
  | K => rfl
  | v i =>
    have hi : i < zk.leval := hs
    rw [index, ofIndex, if_neg (by omega), if_pos (by omega), Nat.add_sub_cancel_left]
  | b i =>
    have hi : i < zk.k := hs
    rw [index, ofIndex, afterB, if_neg (by omega), if_neg (by omega), if_pos (by omega),
      Nat.add_sub_cancel_left]
  | ru => exact ofIndex_tail zk 0
  | rv => exact ofIndex_tail zk 1
  | y i =>
    have hi : i < 9 := hs
    rw [index, ofIndex_tail, tail, if_neg (by omega), if_neg (by omega), if_pos (by omega),
      Nat.add_sub_cancel_left]
  | a0 => exact ofIndex_tail zk 11
  | a1 => exact ofIndex_tail zk 12
  | c0 => exact ofIndex_tail zk 13
  | c1 => exact ofIndex_tail zk 14
  | mask i =>
    have hi : i < 5 := hs
    rw [index, ofIndex_tail, tail, if_neg (by omega), if_neg (by omega), if_neg (by omega),
      if_neg (by omega), if_neg (by omega), if_neg (by omega), if_neg (by omega), if_pos (by omega),
      Nat.add_sub_cancel_left]
  | check => exact ofIndex_tail zk 20

/-- **The places are distinct**, for all sizes. -/
theorem index_injective (hs : s.Named zk) (ht : t.Named zk) (h : s.index zk = t.index zk) :
    s = t := by
  rw [← ofIndex_index hs, h, ofIndex_index ht]

/-- **The places are inside the VOLE vectors**, for all sizes. -/
theorem index_lt (hs : s.Named zk) : s.index zk < zk.voleLen := by
  cases s <;> simp only [Named] at hs <;> simp only [index, afterB, ZkParams.voleLen] <;> omega

/-- **The constants are the places for one size only.** -/
theorem pos_eq_index_iff (hk : 1 ≤ zk.k) :
    (∀ s : Slot, s.Named zk → s.pos = s.index zk) ↔ zk.leval = 10 ∧ zk.k = 53 := by
  constructor
  · intro h
    have hb : bOffset + 0 = 1 + zk.leval + 0 := h (b 0) hk
    have hru : ruPos = afterB zk + 0 := h ru trivial
    unfold afterB at hru
    rw [bOffset] at hb
    rw [ruPos] at hru
    omega
  · rintro ⟨hleval, hk⟩ s -
    have hafter : 64 = afterB zk := by rw [afterB, hleval, hk]
    cases s with
    | K => rfl
    | v i => rfl
    | b i =>
      rw [index, hleval]
      rfl
    | y i =>
      rw [index, ← hafter, pos, yOffset]
      omega
    | mask i =>
      rw [index, ← hafter, pos, maskPos]
      omega
    | _ =>
      rw [index, ← hafter]
      rfl

/-- **The constants are distinct** as long as no `v_i` reaches `b_0` and no `b_i` reaches `ru`. -/
theorem pos_injective_iff (hk : 1 ≤ zk.k) :
    (∀ s t : Slot, s.Named zk → t.Named zk → s.pos = t.pos → s = t)
      ↔ zk.leval ≤ 10 ∧ zk.k ≤ 53 := by
  constructor
  · intro h
    constructor
    · by_contra hlt
      have hv : (v 10).Named zk := Nat.lt_of_not_le hlt
      cases h (v 10) (b 0) hv hk rfl
    · by_contra hlt
      have hb : (b 53).Named zk := Nat.lt_of_not_le hlt
      cases h (b 53) ru hb trivial rfl
  · rintro ⟨hleval, hk53⟩ s t hs ht h
    let full : ZkParams := { zk with leval := 10, k := 53 }
    -- an entry of a smaller proof is one of the full size
    have hfull : ∀ s : Slot, s.Named zk → s.Named full := by
      intro s hs
      cases s with
      | v i => exact Nat.lt_of_lt_of_le hs hleval
      | b i => exact Nat.lt_of_lt_of_le hs hk53
      | y i => exact hs
      | mask i => exact hs
      | _ => trivial
    have hpos : ∀ s : Slot, s.Named full → s.pos = s.index full :=
      (pos_eq_index_iff (show 1 ≤ 53 by norm_num)).mpr ⟨rfl, rfl⟩
    rw [hpos s (hfull s hs), hpos t (hfull t ht)] at h
    exact index_injective (hfull s hs) (hfull t ht) h

/-- **The constants are inside the VOLE vectors** when these have 85 entries. -/
theorem pos_lt_iff : (∀ s : Slot, s.Named zk → s.pos < zk.voleLen) ↔ 63 ≤ zk.leval + zk.k := by
  constructor
  · intro h
    have hcheck : checkPos < zk.voleLen := h check trivial
    rw [checkPos, maskPos, ZkParams.voleLen] at hcheck
    omega
  · intro h s hs
    have hlast : checkPos < zk.voleLen := by
      rw [checkPos, maskPos, ZkParams.voleLen]
      omega
    cases s with
    | v i =>
      have hi : i < zk.leval := hs
      rw [pos, vOffset, ZkParams.voleLen]
      omega
    | b i =>
      have hi : i < zk.k := hs
      rw [pos, bOffset, ZkParams.voleLen]
      omega
    | y i =>
      have hi : i < 9 := hs
      have hy : yOffset + i < checkPos := by
        rw [yOffset, checkPos, maskPos]
        omega
      exact Nat.lt_trans hy hlast
    | mask i => exact Nat.lt_trans (Nat.add_lt_add_left hs maskPos) hlast
    | check => exact hlast
    | _ => exact Nat.lt_trans (by decide) hlast

end Slot

/-! ## The vector of `blindedEval` -/

namespace OPRF

/-- A segment of a list, and what follows it. -/
theorem getElem?_range_append {α : Type} (f : Nat → α) (n : Nat) (rest : List α) (i : Nat) :
    ((List.range n).map f ++ rest)[i]? = if i < n then some (f i) else rest[i - n]? := by
  by_cases h : i < n
  · rw [if_pos h, List.getElem?_append_left (by simpa using h), List.getElem?_map,
      List.getElem?_range h, Option.map_some]
  · rw [if_neg h, List.getElem?_append_right (by simpa using h), List.length_map,
      List.length_range]

section

variable {F : Type} [FieldOps F] (o : OPRF F) (Key ru rv : F) (v b : Nat → F)

/-- What is meant for an entry; the masks and the check element are not in `w`. -/
def slotValue : Slot → Option F
  | .K => some Key
  | .v i => some (v i)
  | .b i => some (b i)
  | .ru => some ru
  | .rv => some rv
  | .y i => some (yPower (powInvEpsPrime (product v 0 o.lenEval)) i)
  | .a0 => some (witnessA0 (powInvEpsPrime (product v 0 o.lenEval)))
  | .a1 => some (witnessA1 (powInvEpsPrime (product v 0 o.lenEval)))
  | .c0 => some (product v 0 5)
  | .c1 => some (product v 5 5)
  | .mask _ => none
  | .check => none

variable {o Key ru rv v b}

theorem length_witness : (o.witness Key v b ru rv).length = o.lenEval + o.k + 16 := by
  simp only [witness, List.length_cons, List.length_append, List.length_map, List.length_range,
    List.length_nil]
  omega

/-- The entries after the `b_i`. -/
theorem witness_tail (i : Nat) :
    (o.witness Key v b ru rv)[Slot.afterB o.zk + i]?
      = (ru :: rv :: powInvEpsPrime (product v 0 o.lenEval) ::
          ((List.range 8).map (fun i => yPower (powInvEpsPrime (product v 0 o.lenEval)) (i + 1)) ++
            [witnessA0 (powInvEpsPrime (product v 0 o.lenEval)),
              witnessA1 (powInvEpsPrime (product v 0 o.lenEval)), product v 0 5,
              product v 5 5]))[i]? := by
  have hafter : Slot.afterB o.zk + i = o.lenEval + o.k + i + 1 := by
    show 1 + o.lenEval + o.k + i = _
    omega
  rw [hafter, witness, List.getElem?_cons_succ, getElem?_range_append, if_neg (by omega),
    getElem?_range_append, if_neg (by omega), Nat.add_assoc, Nat.add_sub_cancel_left,
    Nat.add_sub_cancel_left]

/-- **`w` has each value at its place**, for all sizes. -/
theorem witness_index {s : Slot} {x : F} (hs : s.Named o.zk)
    (hx : slotValue o Key ru rv v b s = some x) :
    (o.witness Key v b ru rv)[s.index o.zk]? = some x := by
  rw [← hx]
  cases s with
  | K => rfl
  | v i =>
    have hi : i < o.lenEval := hs
    rw [Slot.index, witness, Nat.add_comm, List.getElem?_cons_succ, getElem?_range_append,
      if_pos hi]
    rfl
  | b i =>
    have hi : i < o.k := hs
    have hplace : 1 + o.zk.leval + i = o.lenEval + i + 1 := by
      show 1 + o.lenEval + i = _
      omega
    rw [Slot.index, hplace, witness, List.getElem?_cons_succ, getElem?_range_append,
      if_neg (by omega), Nat.add_sub_cancel_left, getElem?_range_append, if_pos hi]
    rfl
  | ru => exact witness_tail 0
  | rv => exact witness_tail 1
  | y i =>
    have hi : i < 9 := hs
    rw [Slot.index, witness_tail, Nat.add_comm]
    cases i with
    | zero => rfl
    | succ i =>
      rw [List.getElem?_cons_succ, List.getElem?_cons_succ, List.getElem?_cons_succ,
        getElem?_range_append, if_pos (by omega)]
      rfl
  | a0 => exact witness_tail 11
  | a1 => exact witness_tail 12
  | c0 => exact witness_tail 13
  | c1 => exact witness_tail 14
  | mask i => cases hx
  | check => cases hx

end

/-! ## When the constants lay out the witness -/

section

variable (o : OPRF Fe25519) (Key : Fe25519) (prng : Prng)

/-- `w` of `blindedEval`. -/
def serverWitness : List Fe25519 :=
  o.witness Key (serverV prng) (o.serverB prng) (o.serverRu prng) (o.serverRv prng)

/-- What `blindedEval` means for an entry. -/
def serverSlot : Slot → Option Fe25519 :=
  o.slotValue Key (o.serverRu prng) (o.serverRv prng) (serverV prng) (o.serverB prng)

/-- The constants of the source fit the vectors of a run with the parameters of `o`. -/
structure WitnessLayout : Prop where
  distinct : ∀ s t : Slot, s.Named o.zk → t.Named o.zk → s.pos = t.pos → s = t
  lt : ∀ s : Slot, s.Named o.zk → s.pos < o.zk.voleLen
  holds : ∀ Key prng s x, s.Named o.zk → o.serverSlot Key prng s = some x →
    (o.serverWitness Key prng)[s.pos]? = some x
  committed : ∀ Key prng ui j x, (o.serverWitness Key prng)[j]? = some x →
    (o.zk.proverState (fun i => (o.serverWitness Key prng).getD i setZero) ui
      (afterDraws prng (o.lenEval + 2 + o.k)) j).coefs 1 = x
  product_eq : ∀ prng,
    residue (product (serverV prng) 0 5 : Fe25519) * residue (product (serverV prng) 5 5 : Fe25519)
      = ∏ i ∈ Finset.range o.lenEval, residue (serverV prng i : Fe25519)

/-- The `v_i` and `b_i` of the server. -/
theorem fastPowEps_draw_rep (i : Nat) :
    Rep 510 (fastPowEps (draw prng i : Fe25519)) (residue (fastPowEps (draw prng i : Fe25519))) :=
  (fastPowEps_rep ((isReduced_draw prng i).toRep.mono (by norm_num))).atMost

theorem product_rep (start n : Nat) :
    Rep 255 (product (serverV prng) start n : Fe25519)
      (∏ i ∈ Finset.range n, residue (serverV prng (start + i) : Fe25519)) := by
  unfold product
  induction n with
  | zero =>
    rw [Finset.prod_range_zero, ← Exact.setOne_eq]
    exact reduced_setOne.toRep
  | succ n ih =>
    rw [List.range_succ, List.foldl_append, Finset.prod_range_succ]
    exact ih.mul (fastPowEps_draw_rep prng (start + n)) (by norm_num)

/-- The two products of five are the product of ten. -/
theorem residue_products :
    residue (product (serverV prng) 0 5 : Fe25519) * residue (product (serverV prng) 5 5 : Fe25519)
      = ∏ i ∈ Finset.range 10, residue (serverV prng i : Fe25519) := by
  rw [(product_rep prng 0 5).residue_eq, (product_rep prng 5 5).residue_eq,
    Finset.prod_range_add _ 5 5]
  simp only [Nat.zero_add]

/-- The copy loop takes the first 79 entries. -/
theorem proverState_coef {w : List Fe25519} {ui : Nat → Nat → Fe25519} {j : Nat} {x : Fe25519}
    (hj : j < maskPos) (hx : w[j]? = some x) :
    (o.zk.proverState (fun i => w.getD i setZero) ui prng j).coefs 1 = x := by
  have hcoef : (o.zk.proverState (fun i => w.getD i setZero) ui prng j).coefs 1
      = ZkParams.witnessCoef (fun i => w.getD i setZero) prng j := rfl
  rw [hcoef, ZkParams.witnessCoef, if_pos hj, List.getD_eq_getElem?_getD, hx, Option.getD_some]

variable {o}

/-- **The constants lay out the witness for one size only**: 10 values `v_i` and 53 values `b_i`. -/
theorem layout_iff (hk : 1 ≤ o.k) : o.WitnessLayout ↔ o.lenEval = 10 ∧ o.k = 53 := by
  constructor
  · intro h
    have hdistinct : o.lenEval ≤ 10 ∧ o.k ≤ 53 := (Slot.pos_injective_iff hk).mp h.distinct
    have hlt : 63 ≤ o.lenEval + o.k := Slot.pos_lt_iff.mp h.lt
    omega
  · rintro ⟨hten, hk53⟩
    have hpos : ∀ s : Slot, s.Named o.zk → s.pos = s.index o.zk :=
      (Slot.pos_eq_index_iff hk).mpr ⟨hten, hk53⟩
    have hlength : ∀ Key prng, (o.serverWitness Key prng).length = maskPos := by
      intro Key prng
      rw [serverWitness, length_witness, hten, hk53]
      rfl
    constructor
    · intro s t hs ht h
      rw [hpos s hs, hpos t ht] at h
      exact Slot.index_injective hs ht h
    · intro s hs
      rw [hpos s hs]
      exact Slot.index_lt hs
    · intro Key prng s x hs hx
      rw [hpos s hs]
      exact witness_index hs hx
    · intro Key prng ui j x hx
      obtain ⟨hj, -⟩ := List.getElem?_eq_some_iff.mp hx
      rw [hlength] at hj
      exact o.proverState_coef _ hj hx
    · intro prng
      rw [hten]
      exact residue_products prng

/-- The sizes of `main.cpp`; the offsets play no part. -/
theorem layout_iff_example : (⟨10, 61, 53, 64, 8, []⟩ : OPRF Fe25519).WitnessLayout :=
  (layout_iff (by norm_num)).mpr ⟨rfl, rfl⟩

/-- With the `k` of `params.sage` the value `b_53` is where the proof reads `ru`, and `w` is longer
than the copy loop. -/
theorem layout_overlap :
    let o : OPRF Fe25519 := ⟨10, 61, 55, 64, 8, []⟩
    10 ≤ o.lenEval ∧ 1 ≤ o.k ∧ ¬ o.WitnessLayout ∧ (∀ Key prng,
      (o.serverWitness Key prng)[ruPos]? = some (o.serverB prng 53) ∧
      maskPos < (o.serverWitness Key prng).length) := by
  intro o
  have hb : (Slot.b 53).Named o.zk := show 53 < 55 by norm_num
  refine ⟨by decide, by decide, fun h => ?_, fun Key prng => ⟨?_, ?_⟩⟩
  · cases h.distinct (.b 53) .ru hb trivial rfl
  · exact witness_index hb rfl
  · rw [serverWitness, length_witness]
    decide

end

end OPRF

end HocusPocus
