import HocusPocus.VoleUtils

/-!
# Small-set VOLE (`smallSetVoleFast.h`, the AVX2 path)

One tree of `2 ^ bits` leaf seeds gives one row of correlations. For each element of the row the
code keeps two accumulators of eight 64-bit lanes and runs over the leaves from the last to the
first: `u += v`, then `v += t`. So `v` ends with the sum of the leaf values `t i` and `u` with the
sum of `i * t i`. The even 32-bit words of an expanded leaf go to lanes 0 to 3 and the odd ones to
lanes 4 to 7, and `bytes_to_fe25519` takes the lanes in this order.

* `lanes_leafRun`: what the lanes hold after the leaves, with nothing wrapped.
* `bytesToFe25519_eq`, `reduced_bytesToFe25519`: the element the lanes stand for, in both readings.
* `exact_correlation`: `o = u + h * v` in the field, whatever the receiver has at the punctured
  leaf.
* `limb_correlation`: the same on limbs, with nothing wrapped in any lane or limb.
-/

namespace HocusPocus

open Machine Arith FieldOps

namespace SmallSetVole

/-! ## The lanes -/

/-- The two accumulators of one element. -/
structure Acc where
  u : Vector U64 8
  v : Vector U64 8

/-- The 32-bit word that ends up in a lane: the even words first, then the odd ones. -/
def laneWord (l : Nat) : Nat := if l < 4 then 2 * l else 2 * (l - 4) + 1

/-- The 32-bit word `w` of element `k` of an expanded seed. -/
def dataWord (data : Nat → UInt8) (k w : Nat) : Nat :=
  leValue (Vector.ofFn fun j : Fin 4 => data (32 * k + 4 * w + j))

/-- The even and odd halves of element `k`, as 64-bit lanes. -/
def loadLanes (data : Nat → UInt8) (k : Nat) : Vector U64 8 :=
  Vector.ofFn fun l => Word.lit 64 (dataWord data k (laneWord l))

/-- Lanewise `_mm256_add_epi64`. -/
def addLanes (x y : Vector U64 8) : Vector U64 8 := Vector.ofFn fun l => x[l] + y[l]

/-- One leaf: `u += v`, then `v += t`. -/
def addLeaf (acc : Acc) (t : Vector U64 8) : Acc := ⟨addLanes acc.u acc.v, addLanes acc.v t⟩

/-- `avx2_expand_and_add4`, element by element. -/
def avx2ExpandAndAdd4 (expand : Block → Nat → UInt8) (acc : Nat → Acc)
    (seed1 seed2 seed3 seed4 : Block) (k : Nat) : Acc :=
  let acc := addLeaf (acc k) (loadLanes (expand seed1) k)
  let acc := addLeaf acc (loadLanes (expand seed2) k)
  let acc := addLeaf acc (loadLanes (expand seed3) k)
  addLeaf acc (loadLanes (expand seed4) k)

/-- The buffers after `memset`. -/
def zeroAcc : Acc := ⟨Vector.replicate 8 0, Vector.replicate 8 0⟩

/-- `for (i = N - 4; i >= 0; i -= 4)` over the leaves of one tree. -/
def treeSums (expand : Block → Nat → UInt8) (leaf : Nat → Block) (N : Nat) : Nat → Acc :=
  ((List.range (N / 4)).map fun q => N - 4 * (q + 1)).foldl
    (fun acc i =>
      avx2ExpandAndAdd4 expand acc (leaf (i + 3)) (leaf (i + 2)) (leaf (i + 1)) (leaf i))
    fun _ => zeroAcc

/-- The limbs `bytes_to_fe25519` fills from eight lanes. -/
def laneLimbs (data : Vector U64 8) (l : Fin 32) : U32 :=
  let w := data[l.val / 4]
  if l.val % 4 = 0 then (w.low 16).convert 32
  else if l.val % 4 = 2 then ((w.shr 16).low 8).convert 32
  else if l.val % 4 = 3 then (w.shr 24).convert 32
  else 0

section

variable {F : Type} [FieldOps F]

/-- `bytes_to_fe25519`. -/
def bytesToFe25519 (data : Vector U64 8) : F := reduceAddSub (ofLimbs (laneLimbs data))

end

end SmallSetVole

open SmallSetVole

section

variable {F : Type} [FieldOps F]

/-- What the sender ends with: the rows `u` and `v` of each tree. -/
structure SenderRows (F : Type) where
  u : Nat → Nat → F
  v : Nat → Nat → F

/-- What the receiver ends with: the rows `o` and the points `h`. -/
structure ReceiverRows (F : Type) where
  o : Nat → Nat → F
  h : Nat → F

/-- `SmallSetVoleSender25519::send`. -/
def SmallSetVoleSender25519.send (expand : Block → Nat → UInt8) (bits : Nat) (b : Nat → Block)
    (bOffset : Nat) : SenderRows F :=
  let N := 1 <<< bits
  let sums := fun j => treeSums expand (fun i => b (bOffset * N + N * j + i)) N
  { u := fun j i => bytesToFe25519 (sums j i).u
    v := fun j i => neg (bytesToFe25519 (sums j i).v) }

/-- `SmallSetVoleReceiver25519::receive`. -/
def SmallSetVoleReceiver25519.receive (expand : Block → Nat → UInt8) (bits : Nat)
    (a : Nat → Block) (aOffset : Nat) (points : Nat → Nat) : ReceiverRows F :=
  let N := 1 <<< bits
  let sums := fun j => treeSums expand (fun i => a (aOffset * N + N * j + i)) N
  let point := fun j => Word.lit 64 (points (aOffset + j))
  { o := fun j k =>
      let temp : F := bytesToFe25519 (sums j k).v
      let temp := reduceAddSub temp
      let temp := scaleLimbs (point j) temp
      let temp := reduceAddSub temp
      reduceAddSub (bytesToFe25519 (sums j k).u - temp)
    h := fun j => ofLimb 0 ((point j).convert 32) }

end

namespace SmallSetVole

/-! ## What the lanes hold -/

theorem dataWord_lt (data : Nat → UInt8) (k w : Nat) : dataWord data k w < 2 ^ 32 := leValue_lt _

theorem getElem_addLanes (x y : Vector U64 8) {l : Nat} (hl : l < 8) :
    (addLanes x y)[l] = x[l] + y[l] := Vector.getElem_ofFn hl

theorem loadLanes_is (data : Nat → UInt8) (k : Nat) {l : Nat} (hl : l < 8) :
    ((loadLanes data k)[l]).Is (dataWord data k (laneWord l)) := by
  have hget : (loadLanes data k)[l] = Word.lit 64 (dataWord data k (laneWord l)) :=
    Vector.getElem_ofFn hl
  rw [hget]
  exact Word.is_lit ((dataWord_lt _ _ _).trans (by norm_num))

theorem avx2ExpandAndAdd4_eq (expand : Block → Nat → UInt8) (acc : Nat → Acc)
    (seed1 seed2 seed3 seed4 : Block) (k : Nat) :
    avx2ExpandAndAdd4 expand acc seed1 seed2 seed3 seed4 k
      = addLeaf (addLeaf (addLeaf (addLeaf (acc k) (loadLanes (expand seed1) k))
          (loadLanes (expand seed2) k)) (loadLanes (expand seed3) k))
          (loadLanes (expand seed4) k) := rfl

/-- The leaves from the last one on, one at a time. -/
def leafRun (expand : Block → Nat → UInt8) (leaf : Nat → Block) (N k : Nat) : Nat → Acc
  | 0 => zeroAcc
  | n + 1 => addLeaf (leafRun expand leaf N k n) (loadLanes (expand (leaf (N - 1 - n))) k)

/-- The groups of four run over all leaves, from the last to the first. -/
theorem treeSums_eq (expand : Block → Nat → UInt8) (leaf : Nat → Block) {N : Nat} (hN : N % 4 = 0)
    (k : Nat) : treeSums expand leaf N k = leafRun expand leaf N k N := by
  have hgroups : ∀ q, 4 * q ≤ N →
      (((List.range q).map fun q => N - 4 * (q + 1)).foldl
        (fun acc i =>
          avx2ExpandAndAdd4 expand acc (leaf (i + 3)) (leaf (i + 2)) (leaf (i + 1)) (leaf i))
        fun _ => zeroAcc) k = leafRun expand leaf N k (4 * q) := by
    intro q
    induction q with
    | zero => exact fun _ => rfl
    | succ q ih =>
      intro hq
      have ih := ih (by omega)
      rw [List.range_succ, List.map_append, List.foldl_append, List.map_singleton, List.foldl_cons,
        List.foldl_nil]
      rw [avx2ExpandAndAdd4_eq, ih, show 4 * (q + 1) = 4 * q + 1 + 1 + 1 + 1 by ring]
      simp only [leafRun]
      rw [show N - 1 - 4 * q = N - (4 * q + 1 + 1 + 1 + 1) + 3 by omega,
        show N - 1 - (4 * q + 1) = N - (4 * q + 1 + 1 + 1 + 1) + 2 by omega,
        show N - 1 - (4 * q + 1 + 1) = N - (4 * q + 1 + 1 + 1 + 1) + 1 by omega,
        show N - 1 - (4 * q + 1 + 1 + 1) = N - (4 * q + 1 + 1 + 1 + 1) by omega]
  have h := hgroups (N / 4) (by omega)
  rw [show 4 * (N / 4) = N by omega] at h
  exact h

section

open Finset

/-- Lane `l` of leaf `i`. -/
def leafLane (expand : Block → Nat → UInt8) (leaf : Nat → Block) (k i l : Nat) : Nat :=
  dataWord (expand (leaf i)) k (laneWord l)

variable (expand : Block → Nat → UInt8) (leaf : Nat → Block)

/-- Leaf by leaf: `v` sums the leaves so far, `u` sums what `v` was. -/
theorem lanes_leafRun_partial (N k : Nat) {n : Nat} (hn : n ≤ 4096) {l : Nat} (hl : l < 8) :
    ((leafRun expand leaf N k n).v[l]).Is (∑ j ∈ range n, leafLane expand leaf k (N - 1 - j) l) ∧
      ((leafRun expand leaf N k n).u[l]).Is
        (∑ m ∈ range n, ∑ j ∈ range m, leafLane expand leaf k (N - 1 - j) l) := by
  have hsum : ∀ n, ∑ j ∈ range n, leafLane expand leaf k (N - 1 - j) l ≤ n * 2 ^ 32 := by
    intro n
    calc _ ≤ ∑ _j ∈ range n, 2 ^ 32 := sum_le_sum fun j _ => (dataWord_lt _ _ _).le
      _ = n * 2 ^ 32 := by rw [sum_const_nat fun _ _ => rfl, card_range]
  have hsum2 : ∀ n ≤ 4096,
      ∑ m ∈ range n, ∑ j ∈ range m, leafLane expand leaf k (N - 1 - j) l ≤ n * 2 ^ 44 := by
    intro n hn
    calc _ ≤ ∑ _m ∈ range n, 2 ^ 44 := by
          refine sum_le_sum fun m hm => (hsum m).trans ?_
          have := mem_range.mp hm
          omega
      _ = n * 2 ^ 44 := by rw [sum_const_nat fun _ _ => rfl, card_range]
  induction n with
  | zero =>
    rw [range_zero, sum_empty]
    unfold leafRun zeroAcc
    simp only [Vector.getElem_replicate]
    exact ⟨Word.is_ofNat 0 (by norm_num), Word.is_ofNat 0 (by norm_num)⟩
  | succ n ih =>
    obtain ⟨hv, hu⟩ := ih (by omega)
    have hv1 := hsum (n + 1)
    have hu1 := hsum2 (n + 1) hn
    rw [sum_range_succ] at hv1 hu1 ⊢
    rw [sum_range_succ (n := n)]
    rw [leafRun, addLeaf, getElem_addLanes _ _ hl, getElem_addLanes _ _ hl]
    exact ⟨hv.add (loadLanes_is _ k hl) (by omega), hu.add hv (by omega)⟩

/-- Summing the partial sums counts every term as often as terms follow it. -/
theorem sum_partial_sums (s : Nat → Nat) (n : Nat) :
    ∑ m ∈ range n, ∑ j ∈ range m, s j = ∑ j ∈ range n, (n - 1 - j) * s j := by
  induction n with
  | zero => rfl
  | succ n ih =>
    rw [sum_range_succ, ih, ← sum_add_distrib, sum_range_succ, show n + 1 - 1 - n = 0 by omega,
      Nat.zero_mul, Nat.add_zero]
    refine sum_congr rfl fun j hj => ?_
    have hj := mem_range.mp hj
    rw [show n + 1 - 1 - j = n - 1 - j + 1 by omega]
    ring

/-- **What the lanes hold after a tree**: the sums of `t i` and of `i * t i`, unwrapped. -/
theorem lanes_leafRun {N : Nat} (hN : N ≤ 4096) (k : Nat) {l : Nat} (hl : l < 8) :
    ((leafRun expand leaf N k N).v[l]).Is (∑ i ∈ range N, leafLane expand leaf k i l) ∧
      ((leafRun expand leaf N k N).u[l]).Is (∑ i ∈ range N, i * leafLane expand leaf k i l) := by
  obtain ⟨hv, hu⟩ := lanes_leafRun_partial expand leaf N k hN hl
  refine ⟨hv.congr (sum_range_reflect (fun i => leafLane expand leaf k i l) N), hu.congr ?_⟩
  rw [sum_partial_sums]
  exact sum_range_reflect (fun i => i * leafLane expand leaf k i l) N

end

/-! ## From lanes to limbs -/

/-- The limbs of lanes that hold `n`. -/
def splitLanes (n : Nat → Nat) (i : Nat) : Nat :=
  if i % 4 = 0 then n (i / 4) % 2 ^ 16
  else if i % 4 = 2 then n (i / 4) / 2 ^ 16 % 2 ^ 8
  else if i % 4 = 3 then n (i / 4) / 2 ^ 24
  else 0

/-- The limbs give the number the lanes stand for in radix `2 ^ 32`. -/
theorem value_splitLanes (n : Nat → Nat) : value 256 32 (splitLanes n) = value (2 ^ 32) 8 n := by
  rw [show (32 : Nat) = 4 * 8 from rfl, value_group]
  refine value_congr fun i _ => ?_
  have h0 : splitLanes n (4 * i + 0) = n i % 2 ^ 16 := by
    unfold splitLanes
    rw [if_pos (by omega), show (4 * i + 0) / 4 = i by omega]
  have h1 : splitLanes n (4 * i + 1) = 0 := by
    unfold splitLanes
    rw [if_neg (by omega), if_neg (by omega), if_neg (by omega)]
  have h2 : splitLanes n (4 * i + 2) = n i / 2 ^ 16 % 2 ^ 8 := by
    unfold splitLanes
    rw [if_neg (by omega), if_pos (by omega), show (4 * i + 2) / 4 = i by omega]
  have h3 : splitLanes n (4 * i + 3) = n i / 2 ^ 24 := by
    unfold splitLanes
    rw [if_neg (by omega), if_neg (by omega), if_pos (by omega), show (4 * i + 3) / 4 = i by omega]
  rw [value_succ 256 3, value_succ 256 2, value_succ 256 1, value_succ 256 0, value_zero, h0, h1,
    h2, h3]
  omega

section

variable {data : Vector U64 8} {n : Nat → Nat}

theorem laneLimbs_is (h : ∀ (l : Nat) (hl : l < 8), data[l].Is (n l))
    (hfit : ∀ l < 8, n l / 2 ^ 24 < 2 ^ 32) (i : Fin 32) :
    (laneLimbs data i).Is (splitLanes n i) := by
  have hl : i.val / 4 < 8 := by omega
  have hw := h (i.val / 4) hl
  unfold laneLimbs splitLanes
  simp only
  split_ifs
  · exact (hw.low 16 (by norm_num)).convert ((Nat.mod_lt _ (by norm_num)).trans (by norm_num))
  · exact ((hw.shr 16).low 8 (by norm_num)).convert
      ((Nat.mod_lt _ (by norm_num)).trans (by norm_num))
  · exact (hw.shr 24).convert (hfit _ hl)
  · exact Word.is_ofNat 0 (by norm_num)

/-- **The element of the lanes, in the field.** -/
theorem bytesToFe25519_eq (h : ∀ (l : Nat) (hl : l < 8), data[l].Is (n l))
    (hfit : ∀ l < 8, n l / 2 ^ 24 < 2 ^ 32) :
    (bytesToFe25519 data : Fp) = (value (2 ^ 32) 8 n : Nat) := by
  have hvalue : limbsNat (laneLimbs data) = value (2 ^ 32) 8 n := by
    rw [limbsNat, ← value_splitLanes]
    refine value_congr fun i hi => ?_
    rw [limbNat, dif_pos hi, (laneLimbs_is h hfit ⟨i, hi⟩).toNat_eq]
  rw [bytesToFe25519, Exact.reduceAddSub_eq, Exact.ofLimbs_eq, limbsValue_eq, hvalue]

theorem splitLanes_le (hfit : ∀ l < 8, n l / 2 ^ 24 ≤ 3700000000) {i : Nat} (hi : i < 32) :
    splitLanes n i ≤ 3700000000 := by
  have := hfit (i / 4) (by omega)
  unfold splitLanes
  split_ifs <;> omega

/-- **The element of the lanes, on limbs.** -/
theorem reduced_bytesToFe25519 (h : ∀ (l : Nat) (hl : l < 8), data[l].Is (n l))
    (hfit : ∀ l < 8, n l / 2 ^ 24 ≤ 3700000000) :
    Fe25519.Reduced (bytesToFe25519 data) (bytesToFe25519 data) := by
  have hlimbs : Fe25519.Rep 3700000000 (ofLimbs (laneLimbs data)) (ofLimbs (laneLimbs data)) :=
    Fe25519.rep_ofLimbs (laneLimbs_is h fun l hl => (hfit l hl).trans_lt (by norm_num))
      fun i hi => splitLanes_le hfit hi
  exact hlimbs.reduce le_rfl

end

/-! ## The correlation -/

section

open Finset

variable {expand : Block → Nat → UInt8} {leaf : Nat → Block} {N : Nat}

/-- Element `k` of leaf `i`, as the lanes order its words. -/
def leafValue (expand : Block → Nat → UInt8) (seed : Block) (k : Nat) : Nat :=
  value (2 ^ 32) 8 fun l => dataWord (expand seed) k (laneWord l)

/-- A sum over the leaves fits a lane with room for the top limb. -/
theorem lane_fit {c : Nat → Nat} (hN : N ≤ 4096) (hc : ∀ i < N, c i ≤ i ∨ c i ≤ 1) (k l : Nat) :
    (∑ i ∈ range N, c i * leafLane expand leaf k i l) / 2 ^ 24 ≤ 3700000000 := by
  have hc2 : ∑ i ∈ range N, c i ≤ 8386560 + 4096 := by
    calc ∑ i ∈ range N, c i ≤ ∑ i ∈ range 4096, (i + 1) := by
          refine (sum_le_sum fun i hi => ?_).trans
            (sum_le_sum_of_subset (range_mono hN) : _ ≤ ∑ i ∈ range 4096, (i + 1))
          have := hc i (mem_range.mp hi)
          omega
      _ = 8386560 + 4096 := by
          rw [sum_add_distrib, sum_range_id]
          simp
  have hle : ∑ i ∈ range N, c i * leafLane expand leaf k i l ≤ (∑ i ∈ range N, c i) * 2 ^ 32 := by
    rw [sum_mul]
    exact sum_le_sum fun i _ => Nat.mul_le_mul_left _ (dataWord_lt _ _ _).le
  have : (∑ i ∈ range N, c i) * 2 ^ 32 ≤ (8386560 + 4096) * 2 ^ 32 := Nat.mul_le_mul_right _ hc2
  omega

/-- The lanes of `u` and of `v` after a tree, as weighted sums of the leaves. -/
theorem lanes_treeSums (hN4 : N % 4 = 0) (hN : N ≤ 4096) (k l : Nat) (hl : l < 8) :
    (treeSums expand leaf N k).u[l].Is (∑ i ∈ range N, i * leafLane expand leaf k i l) ∧
      (treeSums expand leaf N k).v[l].Is (∑ i ∈ range N, 1 * leafLane expand leaf k i l) := by
  rw [treeSums_eq expand leaf hN4]
  obtain ⟨hv, hu⟩ := lanes_leafRun expand leaf hN k hl
  refine ⟨hu, hv.congr (sum_congr rfl fun i _ => ?_)⟩
  rw [Nat.one_mul]

theorem exact_lanes {data : Vector U64 8} {c : Nat → Nat} (hN : N ≤ 4096)
    (hc : ∀ i < N, c i ≤ i ∨ c i ≤ 1) {k : Nat}
    (h : ∀ (l : Nat) (hl : l < 8), data[l].Is (∑ i ∈ range N, c i * leafLane expand leaf k i l)) :
    (bytesToFe25519 data : Fp) = ∑ i ∈ range N, (c i : Fp) * leafValue expand (leaf i) k := by
  rw [bytesToFe25519_eq h fun l _ => (lane_fit hN hc k l).trans_lt (by norm_num),
    value_sum _ _ _ c (leafLane expand leaf k)]
  push_cast
  rfl

/-- The element of `u`: each leaf counts as often as its index says. -/
theorem exact_u (hN4 : N % 4 = 0) (hN : N ≤ 4096) (k : Nat) :
    (bytesToFe25519 (treeSums expand leaf N k).u : Fp)
      = ∑ i ∈ range N, (i : Fp) * leafValue expand (leaf i) k :=
  exact_lanes hN (fun _ _ => Or.inl le_rfl) fun l hl => (lanes_treeSums hN4 hN k l hl).1

/-- The element of `v`: each leaf counts once. -/
theorem exact_v (hN4 : N % 4 = 0) (hN : N ≤ 4096) (k : Nat) :
    (bytesToFe25519 (treeSums expand leaf N k).v : Fp)
      = ∑ i ∈ range N, (leafValue expand (leaf i) k : Fp) := by
  rw [exact_lanes hN (fun _ _ => Or.inr le_rfl) fun l hl => (lanes_treeSums hN4 hN k l hl).2]
  simp only [Nat.cast_one, one_mul]

theorem reduced_u (hN4 : N % 4 = 0) (hN : N ≤ 4096) (k : Nat) :
    Fe25519.Reduced (bytesToFe25519 (treeSums expand leaf N k).u)
      (bytesToFe25519 (treeSums expand leaf N k).u) :=
  reduced_bytesToFe25519 (fun l hl => (lanes_treeSums hN4 hN k l hl).1) fun l _ =>
    lane_fit hN (fun _ _ => Or.inl le_rfl) k l

theorem reduced_v (hN4 : N % 4 = 0) (hN : N ≤ 4096) (k : Nat) :
    Fe25519.Reduced (bytesToFe25519 (treeSums expand leaf N k).v)
      (bytesToFe25519 (treeSums expand leaf N k).v) :=
  reduced_bytesToFe25519 (fun l hl => (lanes_treeSums hN4 hN k l hl).2) fun l _ =>
    lane_fit hN (fun _ _ => Or.inr le_rfl) k l

end

section

open Finset

variable (expand : Block → Nat → UInt8) {bits off : Nat} {a b : Nat → Block}
  {points : Nat → Nat} {j : Nat}

/-- The seeds of tree `j`. -/
def treeLeaf (seeds : Nat → Block) (bits off j i : Nat) : Block :=
  seeds (off * 2 ^ bits + 2 ^ bits * j + i)

theorem size_of_bits (h2 : 2 ≤ bits) (h12 : bits ≤ 12) : 2 ^ bits % 4 = 0 ∧ 2 ^ bits ≤ 4096 := by
  refine ⟨?_, Nat.pow_le_pow_right (by norm_num) h12⟩
  obtain ⟨m, rfl⟩ : ∃ m, bits = 2 + m := ⟨bits - 2, by omega⟩
  rw [pow_add]
  omega

theorem point_is (h12 : bits ≤ 12) (hpoint : points (off + j) < 2 ^ bits) :
    (Word.lit 64 (points (off + j))).Is (points (off + j)) ∧
      ((Word.lit 64 (points (off + j))).convert 32).Is (points (off + j)) ∧
      points (off + j) < 4096 := by
  have hle : 2 ^ bits ≤ 4096 := Nat.pow_le_pow_right (by norm_num) h12
  have h64 : (Word.lit 64 (points (off + j))).Is (points (off + j)) := Word.is_lit (by omega)
  exact ⟨h64, h64.convert (by omega), by omega⟩

variable {F : Type} [FieldOps F]

theorem send_u (b : Nat → Block) (k : Nat) :
    (SmallSetVoleSender25519.send expand bits b off : SenderRows F).u j k
      = bytesToFe25519 (treeSums expand (treeLeaf b bits off j) (2 ^ bits) k).u := by
  unfold SmallSetVoleSender25519.send
  rw [Nat.one_shiftLeft]
  rfl

theorem send_v (b : Nat → Block) (k : Nat) :
    (SmallSetVoleSender25519.send expand bits b off : SenderRows F).v j k
      = neg (bytesToFe25519 (treeSums expand (treeLeaf b bits off j) (2 ^ bits) k).v) := by
  unfold SmallSetVoleSender25519.send
  rw [Nat.one_shiftLeft]
  rfl

theorem receive_o (a : Nat → Block) (points : Nat → Nat) (k : Nat) :
    (SmallSetVoleReceiver25519.receive expand bits a off points : ReceiverRows F).o j k
      = reduceAddSub (bytesToFe25519 (treeSums expand (treeLeaf a bits off j) (2 ^ bits) k).u
          - reduceAddSub (scaleLimbs (Word.lit 64 (points (off + j)))
            (reduceAddSub (bytesToFe25519
              (treeSums expand (treeLeaf a bits off j) (2 ^ bits) k).v)))) := by
  unfold SmallSetVoleReceiver25519.receive
  rw [Nat.one_shiftLeft]
  rfl

theorem receive_h (a : Nat → Block) (points : Nat → Nat) :
    (SmallSetVoleReceiver25519.receive expand bits a off points : ReceiverRows F).h j
      = ofLimb 0 ((Word.lit 64 (points (off + j))).convert 32) := rfl

/-- **The correlation in the field**: the receiver's leaves may be anything at the point. -/
theorem exact_correlation (h2 : 2 ≤ bits) (h12 : bits ≤ 12) (hpoint : points (off + j) < 2 ^ bits)
    (hleaf : ∀ i < 2 ^ bits, i ≠ points (off + j) →
      treeLeaf a bits off j i = treeLeaf b bits off j i) (k : Nat) :
    (SmallSetVoleReceiver25519.receive expand bits a off points : ReceiverRows Fp).o j k
      = (SmallSetVoleSender25519.send expand bits b off : SenderRows Fp).u j k
        + (SmallSetVoleReceiver25519.receive expand bits a off points : ReceiverRows Fp).h j
          * (SmallSetVoleSender25519.send expand bits b off : SenderRows Fp).v j k := by
  obtain ⟨hN4, hN⟩ := size_of_bits h2 h12
  obtain ⟨h64, h32, -⟩ := point_is h12 hpoint
  -- a leaf away from the point is the same on both sides; the one at the point has weight zero
  have hzero : ∑ i ∈ range (2 ^ bits), ((i : Fp) - points (off + j))
      * ((leafValue expand (treeLeaf a bits off j i) k : Fp)
        - leafValue expand (treeLeaf b bits off j i) k) = 0 := by
    refine sum_eq_zero fun i hi => ?_
    by_cases hpt : i = points (off + j)
    · rw [hpt, sub_self, zero_mul]
    · rw [hleaf i (mem_range.mp hi) hpt, sub_self, mul_zero]
  simp only [sub_mul, mul_sub, sum_sub_distrib, ← mul_sum] at hzero
  rw [receive_o, receive_h, send_u, send_v, Exact.reduceAddSub_eq, Exact.reduceAddSub_eq,
    Exact.reduceAddSub_eq, Exact.scaleLimbs_eq, Exact.neg_eq, Exact.ofLimb_eq (by norm_num),
    h64.toNat_eq, h32.toNat_eq, exact_u hN4 hN, exact_u hN4 hN, exact_v hN4 hN, exact_v hN4 hN]
  linear_combination hzero

/-- The limbs of every output stand for the element of the exact reading, unwrapped. -/
theorem reduced_send (h2 : 2 ≤ bits) (h12 : bits ≤ 12) (k : Nat) :
    Fe25519.Reduced ((SmallSetVoleSender25519.send expand bits b off : SenderRows Fe25519).u j k)
        ((SmallSetVoleSender25519.send expand bits b off : SenderRows Fp).u j k) ∧
      Fe25519.Reduced ((SmallSetVoleSender25519.send expand bits b off : SenderRows Fe25519).v j k)
        ((SmallSetVoleSender25519.send expand bits b off : SenderRows Fp).v j k) := by
  obtain ⟨hN4, hN⟩ := size_of_bits h2 h12
  rw [send_u, send_v, send_u, send_v]
  exact ⟨reduced_u hN4 hN k, (reduced_v hN4 hN k).neg⟩

theorem rep_receive (h2 : 2 ≤ bits) (h12 : bits ≤ 12) (hpoint : points (off + j) < 2 ^ bits)
    (k : Nat) :
    Fe25519.Reduced
        ((SmallSetVoleReceiver25519.receive expand bits a off points : ReceiverRows Fe25519).o j k)
        ((SmallSetVoleReceiver25519.receive expand bits a off points : ReceiverRows Fp).o j k) ∧
      Fe25519.Rep 4095
        ((SmallSetVoleReceiver25519.receive expand bits a off points : ReceiverRows Fe25519).h j)
        ((SmallSetVoleReceiver25519.receive expand bits a off points : ReceiverRows Fp).h j) := by
  obtain ⟨hN4, hN⟩ := size_of_bits h2 h12
  obtain ⟨h64, h32, hlt⟩ := point_is h12 hpoint
  rw [receive_o, receive_o, receive_h, receive_h]
  have hv : Fe25519.Reduced
      (bytesToFe25519 (treeSums expand (treeLeaf a bits off j) (2 ^ bits) k).v)
      (bytesToFe25519 (treeSums expand (treeLeaf a bits off j) (2 ^ bits) k).v) :=
    reduced_v hN4 hN k
  have htemp := (hv.reduce (by norm_num)).toRep
  have hscaled := (htemp.scale h64 (by omega)).reduce (by omega)
  exact ⟨((reduced_u hN4 hN k).sub hscaled (by norm_num)).reduce (by norm_num),
    (Fe25519.rep_ofLimb h32).mono (by omega)⟩

/-- **The correlation on limbs**: for every row and element the two classes end with
`o = u + h * v` modulo the prime, and no lane and no limb wrapped on the way. -/
theorem limb_correlation (len repeats : Nat) (h2 : 2 ≤ bits) (h12 : bits ≤ 12)
    (hpoints : ∀ j < repeats, points (off + j) < 2 ^ bits)
    (hleaves : ∀ j < repeats, ∀ i < 2 ^ bits, i ≠ points (off + j) →
      a (off * 2 ^ bits + 2 ^ bits * j + i) = b (off * 2 ^ bits + 2 ^ bits * j + i)) :
    let s : SenderRows Fe25519 := SmallSetVoleSender25519.send expand bits b off
    let r : ReceiverRows Fe25519 := SmallSetVoleReceiver25519.receive expand bits a off points
    ∀ j < repeats, ∀ k < len,
      (r.o j k).residue = (s.u j k).residue + (r.h j).residue * (s.v j k).residue ∧
        Fe25519.Exact (s.u j k).v ∧ Fe25519.Exact (s.v j k).v ∧
        Fe25519.Exact (r.o j k).v ∧ Fe25519.Exact (r.h j).v := by
  intro s r j hj k _
  obtain ⟨hu, hv⟩ := reduced_send (b := b) (j := j) expand h2 h12 k
  obtain ⟨ho, hh⟩ := rep_receive expand (a := a) h2 h12 (hpoints j hj) k
  refine ⟨?_, hu.exact, hv.exact, ho.exact, hh.exact⟩
  rw [ho.residue_eq, hu.residue_eq, hv.residue_eq, hh.residue_eq]
  exact exact_correlation expand h2 h12 (hpoints j hj) (hleaves j hj) k

/-- Four leaves, the receiver without the seed at its point 3. -/
theorem limb_correlation_example :
    let expand : Block → Nat → UInt8 := shiftedSeed
    let b : Nat → Block := fun i => Vector.replicate 16 (UInt8.ofNat (7 * i))
    let a : Nat → Block := fun i => if i = 3 then Vector.replicate 16 99 else b i
    let s : SenderRows Fe25519 := SmallSetVoleSender25519.send expand 2 b 0
    let r : ReceiverRows Fe25519 := SmallSetVoleReceiver25519.receive expand 2 a 0 fun _ => 3
    ∀ j < 1, ∀ k < 2,
      (r.o j k).residue = (s.u j k).residue + (r.h j).residue * (s.v j k).residue ∧
        Fe25519.Exact (s.u j k).v ∧ Fe25519.Exact (s.v j k).v ∧
        Fe25519.Exact (r.o j k).v ∧ Fe25519.Exact (r.h j).v := by
  intro expand b a
  refine limb_correlation expand (a := a) (b := b) 2 1 le_rfl (by norm_num) (fun _ _ => by norm_num)
    fun j hj i hi hne => ?_
  obtain rfl : j = 0 := by omega
  have hne : i ≠ 3 := hne
  show (if 0 * 2 ^ 2 + 2 ^ 2 * 0 + i = 3 then _ else _) = _
  rw [if_neg (by omega)]

end

end SmallSetVole

end HocusPocus
