import HocusPocus.OtExt.TransposeAvx

/-!
# The SSE2 transposition (`sse_transpose128`)

The square is cut into 8 by 8 subsquares of 16 by 16 bits. A subsquare is loaded as two blocks, one
for each of its two columns of bytes, and written transposed: the sign bits of the 16 bytes of a
block are a row, and a shift brings up the next. Two subsquares that change places are loaded before
either is written.

* `bitAt_transposeSubSquare`: what one subsquare is written with.
* `bitAt_sseTranspose128`: the subsquares make up the transposed square.
* `transpose128_agree`: the three branches of `transpose128` give the same blocks.
-/

namespace HocusPocus.Tools

open Machine

/-! ## The code -/

/-- `block::movemask_epi8`. -/
def movemaskEpi8 (b : Vector UInt8 16) : Nat := orBits (fun i => bitAt b (8 * i + 7)) 16

/-- `block::slli_epi64`. -/
def slliEpi64 (b : Vector UInt8 16) (n : Nat) : Vector UInt8 16 :=
  ((M128.ofBlock b).slliEpi64 n).toBlock

/-- Write entry `y` of row `r`, seen as 16-bit numbers. -/
def setU16 (out : Nat → Vector UInt8 16) (r y v : Nat) : Nat → Vector UInt8 16 := fun r' =>
  if r' = r then
    Vector.ofFn fun i => if i.val / 2 = y then UInt8.ofNat (v >>> (8 * (i.val % 2))) else (out r)[i]
  else out r'

/-- `sse_loadSubSquare`. -/
def sseLoadSubSquare (inOut : Nat → Vector UInt8 16) (x y : Nat) :
    Vector UInt8 16 × Vector UInt8 16 :=
  (Vector.ofFn fun l => (inOut (16 * x + l)).toList.getD (2 * y) 0,
    Vector.ofFn fun l => (inOut (16 * x + l)).toList.getD (2 * y + 1) 0)

/-- One round of `sse_transposeSubSquare`, on the rows and the two blocks. -/
def sseRound (x y : Nat)
    (s : (Nat → Vector UInt8 16) × Vector UInt8 16 × Vector UInt8 16) (j : Nat) :
    (Nat → Vector UInt8 16) × Vector UInt8 16 × Vector UInt8 16 :=
  (setU16 (setU16 s.1 (16 * x + 7 - j) y (movemaskEpi8 s.2.1)) (16 * x + 15 - j) y
      (movemaskEpi8 s.2.2),
    slliEpi64 s.2.1 1, slliEpi64 s.2.2 1)

/-- `sse_transposeSubSquare`. -/
def sseTransposeSubSquare (out : Nat → Vector UInt8 16)
    (a : Vector UInt8 16 × Vector UInt8 16) (x y : Nat) : Nat → Vector UInt8 16 :=
  ((List.range 8).foldl (sseRound x y) (out, a)).1

/-- The body of the inner loop of `sse_transpose128`. -/
def ssePair (j : Nat) (inOut : Nat → Vector UInt8 16) (k : Nat) : Nat → Vector UInt8 16 :=
  let a := sseLoadSubSquare inOut k j
  let b := sseLoadSubSquare inOut j k
  sseTransposeSubSquare (sseTransposeSubSquare inOut a j k) b k j

/-- The body of the outer loop. -/
def sseDiagonal (inOut : Nat → Vector UInt8 16) (j : Nat) : Nat → Vector UInt8 16 :=
  (List.range j).foldl (ssePair j)
    (sseTransposeSubSquare inOut (sseLoadSubSquare inOut j j) j j)

/-- `sse_transpose128`. -/
def sseTranspose128 (inOut : Nat → Vector UInt8 16) : Nat → Vector UInt8 16 :=
  (List.range 8).foldl sseDiagonal inOut

/-! ## One subsquare -/

/-- A shift by one moves each bit of a lane up. -/
theorem bitAt_slli (b : Vector UInt8 16) {i : Nat} (hi : i + 1 < 128) (hlane : (i + 1) % 64 ≠ 0) :
    bitAt (slliEpi64 b 1) (i + 1) = bitAt b i := by
  rw [slliEpi64, M128.bitAt_toBlock _ hi,
    M128.bit_slliEpi64 _ hi (Nat.one_le_iff_ne_zero.mpr hlane), Nat.add_sub_cancel,
    M128.bit_ofBlock b (Nat.lt_of_succ_lt hi)]

/-- The bits of a row after one entry is written. -/
theorem bitAt_setU16 (out : Nat → Vector UInt8 16) (r y v r' : Nat) {c : Nat} (hc : c < 128) :
    bitAt (setU16 out r y v r') c
      = if r' = r ∧ c / 16 = y then v.testBit (c % 16) else bitAt (out r') c := by
  unfold setU16
  by_cases hr : r' = r
  · subst hr
    have hhalf : c / 8 / 2 = c / 16 := by omega
    have hbit : 8 * (c / 8 % 2) + c % 8 = c % 16 := by omega
    rw [if_pos rfl, bitAt_eq (by omega), Vector.getElem_ofFn]
    simp only [hhalf, true_and, Fin.getElem_fin]
    split
    · rw [UInt8.toNat_ofNat', Nat.testBit_mod_two_pow,
        decide_eq_true (Nat.mod_lt _ (by decide) : c % 8 < 8), Bool.true_and,
        Nat.testBit_shiftRight, hbit]
    · rw [bitAt_eq (by omega)]
  · rw [if_neg hr, if_neg fun h => hr h.1]

/-- The bits of a subsquare. -/
theorem bitAt_loadSubSquare (inOut : Nat → Vector UInt8 16) (x y : Nat) {l b : Nat} (hl : l < 16)
    (hb : b < 8) :
    bitAt (sseLoadSubSquare inOut x y).1 (8 * l + b) = bitAt (inOut (16 * x + l)) (16 * y + b)
      ∧ bitAt (sseLoadSubSquare inOut x y).2 (8 * l + b)
        = bitAt (inOut (16 * x + l)) (16 * y + (8 + b)) := by
  have hdiv : (8 * l + b) / 8 = l := by omega
  have hmod : (8 * l + b) % 8 = b := by omega
  have hbyte0 : (16 * y + b) / 8 = 2 * y ∧ (16 * y + b) % 8 = b := by omega
  have hbyte1 : (16 * y + (8 + b)) / 8 = 2 * y + 1 ∧ (16 * y + (8 + b)) % 8 = b := by omega
  constructor
  · rw [bitAt_eq (by omega), sseLoadSubSquare, Vector.getElem_ofFn, bitAt, hbyte0.1, hbyte0.2]
    simp only [hdiv, hmod]
  · rw [bitAt_eq (by omega), sseLoadSubSquare, Vector.getElem_ofFn, bitAt, hbyte1.1, hbyte1.2]
    simp only [hdiv, hmod]

/-- The bit of the subsquare `a` that belongs at `(r, c)`. -/
def subBit (a : Vector UInt8 16 × Vector UInt8 16) (r c : Nat) : Bool :=
  if r % 16 < 8 then bitAt a.1 (8 * (c % 16) + r % 8) else bitAt a.2 (8 * (c % 16) + r % 8)

/-- **After `j` rounds** the last `j` rows of both halves are written, and the blocks are shifted so
that the next row is on top. -/
theorem sseRound_invariant (out : Nat → Vector UInt8 16) (a : Vector UInt8 16 × Vector UInt8 16)
    (x y : Nat) {j : Nat} (hj : j ≤ 8)
    {s : (Nat → Vector UInt8 16) × Vector UInt8 16 × Vector UInt8 16}
    (hs : (List.range j).foldl (sseRound x y) (out, a) = s) :
    (∀ l < 16, ∀ b < 8, j ≤ b → bitAt s.2.1 (8 * l + b) = bitAt a.1 (8 * l + (b - j))
        ∧ bitAt s.2.2 (8 * l + b) = bitAt a.2 (8 * l + (b - j)))
      ∧ ∀ r c, c < 128 → bitAt (s.1 r) c
        = if r / 16 = x ∧ c / 16 = y ∧ 8 ≤ r % 8 + j then subBit a r c else bitAt (out r) c := by
  induction j generalizing s with
  | zero =>
    subst hs
    refine ⟨fun l _ b _ _ => ⟨rfl, rfl⟩, fun r c _ => ?_⟩
    rw [if_neg (by omega)]
    rfl
  | succ j ih =>
    rw [List.range_succ, List.foldl_append] at hs
    obtain ⟨hblocks, hrows⟩ := ih (by omega) rfl
    subst hs
    refine ⟨fun l hl b hb hjb => ?_, fun r c hc => ?_⟩
    · obtain ⟨b, rfl⟩ := Nat.exists_eq_add_of_le' (show 1 ≤ b by omega)
      obtain ⟨h1, h2⟩ := hblocks l hl b (by omega) (by omega)
      simp only [List.foldl_cons, List.foldl_nil, sseRound]
      rw [← Nat.add_assoc, bitAt_slli _ (by omega) (by omega), bitAt_slli _ (by omega) (by omega),
        h1, h2, Nat.add_sub_add_right]
      exact ⟨rfl, rfl⟩
    · -- the sign bits of the two blocks are rows `7 - j` and `15 - j` of the subsquare
      have hsign : c % 16 < 16 := Nat.mod_lt c (by decide)
      obtain ⟨h1, h2⟩ := hblocks (c % 16) hsign 7 (by decide) (by omega)
      simp only [List.foldl_cons, List.foldl_nil, sseRound]
      rw [bitAt_setU16 _ _ _ _ _ hc, bitAt_setU16 _ _ _ _ _ hc, hrows r c hc, movemaskEpi8,
        movemaskEpi8, testBit_orBits, testBit_orBits, decide_eq_true hsign, Bool.true_and,
        Bool.true_and, h1, h2]
      by_cases hhigh : r = 16 * x + 15 - j ∧ c / 16 = y
      · rw [if_pos hhigh, if_pos (by omega), subBit, if_neg (by omega),
          show r % 8 = 7 - j by omega]
      rw [if_neg hhigh]
      by_cases hlow : r = 16 * x + 7 - j ∧ c / 16 = y
      · rw [if_pos hlow, if_pos (by omega), subBit, if_pos (by omega), show r % 8 = 7 - j by omega]
      rw [if_neg hlow]
      refine if_congr ?_ rfl rfl
      omega

/-- **A subsquare, written transposed.** -/
theorem bitAt_transposeSubSquare (out inOut : Nat → Vector UInt8 16) (x y : Nat) {r c : Nat}
    (hc : c < 128) :
    bitAt (sseTransposeSubSquare out (sseLoadSubSquare inOut y x) x y r) c
      = if r / 16 = x ∧ c / 16 = y then bitAt (inOut c) r else bitAt (out r) c := by
  have hbit := (sseRound_invariant out (sseLoadSubSquare inOut y x) x y le_rfl rfl).2 r c hc
  rw [sseTransposeSubSquare, hbit]
  by_cases hin : r / 16 = x ∧ c / 16 = y
  · obtain ⟨hlow, hhigh⟩ := bitAt_loadSubSquare inOut y x (Nat.mod_lt c (by decide : 0 < 16))
      (Nat.mod_lt r (by decide : 0 < 8))
    rw [if_pos hin, if_pos (by omega), subBit, hlow, hhigh, show 16 * y + c % 16 = c by omega]
    split
    · rw [show 16 * x + r % 8 = r by omega]
    · rw [show 16 * x + (8 + r % 8) = r by omega]
  · rw [if_neg hin, if_neg (by omega)]

/-! ## The square -/

/-- The subsquares in `S` are transposed, the others are as they were. -/
def Transposed (S : Nat → Nat → Prop) (inOut out : Nat → Vector UInt8 16) : Prop :=
  ∀ r < 128, ∀ c < 128,
    (S (r / 16) (c / 16) → bitAt (out r) c = bitAt (inOut c) r)
      ∧ (¬ S (r / 16) (c / 16) → bitAt (out r) c = bitAt (inOut r) c)

/-- Two subsquares that were not yet transposed change places. -/
theorem Transposed.pair {S T : Nat → Nat → Prop} {inOut out : Nat → Vector UInt8 16} {j k : Nat}
    (h : Transposed S inOut out) (hjk : ¬ S j k) (hkj : ¬ S k j)
    (hS : ∀ x y, T x y ↔ S x y ∨ (x = j ∧ y = k) ∨ (x = k ∧ y = j)) :
    Transposed T inOut (ssePair j out k) := by
  intro r hr c hc
  obtain ⟨hin, hout⟩ := h r hr c hc
  have hswap := h c hc r hr
  rw [hS]
  simp only [ssePair]
  rw [bitAt_transposeSubSquare _ _ _ _ hc]
  by_cases hfirst : r / 16 = k ∧ c / 16 = j
  · obtain ⟨rfl, rfl⟩ := hfirst
    rw [if_pos ⟨rfl, rfl⟩]
    exact ⟨fun _ => hswap.2 hjk, fun hno => absurd (Or.inr (Or.inr ⟨rfl, rfl⟩)) hno⟩
  rw [if_neg hfirst, bitAt_transposeSubSquare _ _ _ _ hc]
  by_cases hsecond : r / 16 = j ∧ c / 16 = k
  · obtain ⟨rfl, rfl⟩ := hsecond
    rw [if_pos ⟨rfl, rfl⟩]
    exact ⟨fun _ => hswap.2 hkj, fun hno => absurd (Or.inr (Or.inl ⟨rfl, rfl⟩)) hno⟩
  rw [if_neg hsecond]
  refine ⟨fun hor => hin ?_, fun hno => hout fun hmem => hno (Or.inl hmem)⟩
  rcases hor with hmem | h' | h'
  · exact hmem
  · exact absurd h' hsecond
  · exact absurd h' hfirst

/-- A subsquare on the diagonal. -/
theorem Transposed.diagonal {S T : Nat → Nat → Prop} {inOut out : Nat → Vector UInt8 16} {j : Nat}
    (h : Transposed S inOut out) (hj : ¬ S j j) (hS : ∀ x y, T x y ↔ S x y ∨ (x = j ∧ y = j)) :
    Transposed T inOut (sseTransposeSubSquare out (sseLoadSubSquare out j j) j j) := by
  intro r hr c hc
  obtain ⟨hin, hout⟩ := h r hr c hc
  have hswap := h c hc r hr
  rw [hS, bitAt_transposeSubSquare _ _ _ _ hc]
  by_cases hdiag : r / 16 = j ∧ c / 16 = j
  · rw [hdiag.1, hdiag.2] at hswap
    rw [if_pos hdiag]
    exact ⟨fun _ => hswap.2 hj, fun hno => absurd (Or.inr hdiag) hno⟩
  · rw [if_neg hdiag]
    exact ⟨fun hor => hin (hor.resolve_right hdiag), fun hno => hout fun hmem => hno (Or.inl hmem)⟩

/-- What is transposed before the pair `(j, k)`. -/
def sseDone (j k x y : Nat) : Prop :=
  (x < j ∧ y < j) ∨ (x = j ∧ y = j) ∨ (x = j ∧ y < k) ∨ (x < k ∧ y = j)

/-- The inner loop. -/
theorem transposed_pairs {inOut out : Nat → Vector UInt8 16} {j k : Nat} (hk : k ≤ j)
    (h : Transposed (sseDone j 0) inOut out) :
    Transposed (sseDone j k) inOut ((List.range k).foldl (ssePair j) out) := by
  induction k with
  | zero => exact h
  | succ k ih =>
    rw [List.range_succ, List.foldl_append]
    refine (ih (by omega)).pair ?_ ?_ fun x y => ?_
    · unfold sseDone
      omega
    · unfold sseDone
      omega
    · unfold sseDone
      omega

/-- The outer loop. -/
theorem transposed_diagonals (inOut : Nat → Vector UInt8 16) (j : Nat) :
    Transposed (fun x y => x < j ∧ y < j) inOut ((List.range j).foldl sseDiagonal inOut) := by
  induction j with
  | zero =>
    intro r _ c _
    exact ⟨fun h => absurd h.1 (Nat.not_lt_zero _), fun _ => rfl⟩
  | succ j ih =>
    rw [List.range_succ, List.foldl_append]
    have hdiag := ih.diagonal (T := sseDone j 0) (j := j) (by omega) fun x y => by
      unfold sseDone
      omega
    have hpairs := transposed_pairs le_rfl hdiag
    intro r hr c hc
    have hiff : (r / 16 < j + 1 ∧ c / 16 < j + 1) ↔ sseDone j j (r / 16) (c / 16) := by
      unfold sseDone
      omega
    simp only [hiff]
    exact hpairs r hr c hc

/-- **`sse_transpose128` transposes.** -/
theorem bitAt_sseTranspose128 (inOut : Nat → Vector UInt8 16) {r c : Nat} (hr : r < 128)
    (hc : c < 128) : bitAt (sseTranspose128 inOut r) c = bitAt (inOut c) r :=
  (transposed_diagonals inOut 8 r hr c hc).1 (by omega)

/-! ## The three branches -/

/-- `eklundh_transpose128` on blocks. -/
def portableTranspose128 (inOut : Nat → Vector UInt8 16) (r : Nat) : Vector UInt8 16 :=
  (eklundhTranspose128 (fun r => M128.ofBlock (inOut r)) r).toBlock

/-- **The three branches of `transpose128` give the same blocks**, those of the transposed
square. -/
theorem transpose128_agree (inOut : Nat → Vector UInt8 16) {r : Nat} (hr : r < 128) :
    transpose128 inOut r = sseTranspose128 inOut r
      ∧ transpose128 inOut r = portableTranspose128 inOut r
      ∧ ∀ c < 128, bitAt (transpose128 inOut r) c = bitAt (inOut c) r := by
  refine ⟨eq_of_bitAt fun c hc => ?_, eq_of_bitAt fun c hc => ?_,
    fun c hc => bitAt_transpose128 inOut hr hc⟩
  · rw [bitAt_transpose128 inOut hr hc, bitAt_sseTranspose128 inOut hr hc]
  · have h := eklundh_transposes (fun r => M128.ofBlock (inOut r)) hr hc
    simp only [square] at h
    rw [bitAt_transpose128 inOut hr hc, portableTranspose128, M128.bitAt_toBlock _ hc, h,
      M128.bit_ofBlock _ hr]

theorem transpose128_agree_example :
    let inOut : Nat → Vector UInt8 16 := fun r => Vector.replicate 16 (UInt8.ofNat (3 * r))
    transpose128 inOut 77 = sseTranspose128 inOut 77
      ∧ transpose128 inOut 77 = portableTranspose128 inOut 77
      ∧ ∀ c < 128, bitAt (transpose128 inOut 77) c = bitAt (inOut c) 77 := by
  intro inOut
  exact transpose128_agree inOut (by decide)

end HocusPocus.Tools
