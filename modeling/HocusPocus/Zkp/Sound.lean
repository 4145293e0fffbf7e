import HocusPocus.Zkp.Agree
import Mathlib.Algebra.Polynomial.Roots

/-!
# Soundness of `verify`

For fixed committed values the verifier's accumulator is a polynomial of degree 5 in `Delta`, and
its top coefficient is the folded constraint sum. The prover sends a polynomial of degree 4, so a
nonzero sum is accepted for at most five `Delta`; and the sum is affine in each scalar, with the
constraint as its slope.

* `ncard_accepting_le`: at most five accepting `Delta`.
* `foldedSum_subsingleton`: at most one bad scalar for a constraint that fails.
-/

namespace HocusPocus.ZkParams

open Machine Duplex FieldOps Finset HocusPocus.Poly

/-- A polynomial with a nonzero coefficient at `d`, its last, has at most `d` roots. -/
theorem ncard_roots_le {K : Type} [Field K] (a : Nat → K) (d : Nat) (ha : a d ≠ 0) :
    Set.ncard {x | ∑ i ∈ range (d + 1), a i * x ^ i = 0} ≤ d := by
  classical
  let P : Polynomial K := ∑ i ∈ range (d + 1), Polynomial.C (a i) * Polynomial.X ^ i
  have hcoeff : P.coeff d = a d := by
    simp [P, Polynomial.coeff_C_mul, Polynomial.coeff_X_pow]
  have hne : P ≠ 0 := fun h => ha (by rw [← hcoeff, h, Polynomial.coeff_zero])
  have hdeg : P.natDegree ≤ d := by
    refine Polynomial.natDegree_sum_le_of_forall_le _ _ fun i hi => ?_
    exact (Polynomial.natDegree_C_mul_X_pow_le _ _).trans (Nat.le_of_lt_succ (mem_range.mp hi))
  have hsub : {x | ∑ i ∈ range (d + 1), a i * x ^ i = 0} ⊆ (P.roots.toFinset : Set K) := by
    intro x hx
    rw [Finset.mem_coe, Multiset.mem_toFinset, Polynomial.mem_roots hne, Polynomial.IsRoot.def]
    simpa [P, Polynomial.eval_finsetSum] using hx
  calc Set.ncard {x | ∑ i ∈ range (d + 1), a i * x ^ i = 0}
      ≤ Set.ncard (P.roots.toFinset : Set K) := Set.ncard_le_ncard hsub (Finset.finite_toSet _)
    _ = P.roots.toFinset.card := Set.ncard_coe_finset _
    _ ≤ Multiset.card P.roots := Multiset.toFinset_card_le _
    _ ≤ d := (Polynomial.card_roots' P).trans hdeg

variable (expand : Block → Nat → UInt8) (zk : ZkParams)

section

variable {m w s : Nat → Fp} {stmt : Statement Fp} {prng rng : Prng}

/-- The verifier's members for the committed values `w` and the MACs `m`. -/
def verifierAt (m w : Nat → Fp) (Delta : Fp) : ZkVerifier Fp := ⟨fun j => m j + Delta * w j, Delta⟩

/-- The prover's state for the same values. -/
def committed (m w : Nat → Fp) (j : Nat) : Poly Fp 1 := ⟨fun n => if n = 0 then m j else w j⟩

/-- The difference of the accumulator and the sent polynomial, by coefficients. -/
def difference (zk : ZkParams) (stmt : Statement Fp) (m w : Nat → Fp) (rng : Prng) (buffer : Bytes)
    (i : Nat) : Fp :=
  if i < 5 then (zk.checkPoly (committed m w) stmt rng).coefs i - readFe25519 buffer i
  else zk.foldedSum stmt w (draw rng)

/-- An accepting `Delta` is a root of the difference. -/
theorem difference_root {Delta : Fp} {buffer : Bytes}
    (h : zk.accepts (verifierAt m w Delta) stmt rng buffer = true) :
    ∑ i ∈ range (5 + 1), zk.difference stmt m w rng buffer i * Delta ^ i = 0 := by
  have htop := zk.checkPoly_top (committed m w) stmt rng
  have hw : (fun j => (committed m w j).coefs 1) = w := rfl
  have hlow : ∑ i ∈ range 5, zk.difference stmt m w rng buffer i * Delta ^ i
      = ∑ i ∈ range 5, (zk.checkPoly (committed m w) stmt rng).coefs i * Delta ^ i
        - ∑ i ∈ range 5, readFe25519 buffer i * Delta ^ i := by
    rw [← sum_sub_distrib]
    refine sum_congr rfl fun i hi => ?_
    rw [difference, if_pos (mem_range.mp hi)]
    ring
  have hDelta : (verifierAt m w Delta).Delta = Delta := rfl
  rw [hw] at htop
  have hstate : ∀ j, heval (verifierAt m w Delta).Delta 1 (committed m w j)
      = (verifierAt m w Delta).state j := fun j => by
    have h0 : (committed m w j).coefs 0 = m j := rfl
    have h1 : (committed m w j).coefs 1 = w j := rfl
    have hkey : (verifierAt m w Delta).state j = m j + Delta * w j := rfl
    rw [heval_degree_one, h0, h1, hkey, hDelta]
    ring
  rw [accepts_iff, zk.accumulator_eq_heval_of_eq hstate, heval_one, sum_range_succ _ 5, hDelta] at h
  rw [sum_range_succ, hlow, difference, if_neg (lt_irrefl 5), h, ← htop]
  ring

/-- A verifier that ends with `valid` has read a buffer it accepts. -/
theorem accepts_of_verify {ver : ZkVerifier Fp} {ms rest : List Bytes} {prng' : Prng}
    (h : feed (zk.verify expand ver stmt.gamma stmt.mm (some stmt.cu) (some stmt.cv) stmt.offsets
      stmt.c prng) ms = .returned (true, prng') rest) :
    ∃ buffer, ms = buffer :: rest ∧
      zk.accepts ver stmt (Prng.ofSeed expand prng.getBlock.1) buffer = true := by
  obtain ⟨-, u, hu, v, hv, buffer, hms, -, hr⟩ := (feed_verify_returned expand).mp h
  obtain rfl := Option.some.inj hu
  obtain rfl := Option.some.inj hv
  exact ⟨buffer, hms, (Prod.mk.inj hr).1⟩

/-- **At most five `Delta` accept** what was sent when the folded sum is not 0. -/
theorem ncard_accepting_le (ms : List Bytes)
    (hne : zk.foldedSum stmt w (draw (Prng.ofSeed expand prng.getBlock.1)) ≠ 0) :
    Set.ncard {Delta | ∃ prng' rest, feed (zk.verify expand (verifierAt m w Delta) stmt.gamma
      stmt.mm (some stmt.cu) (some stmt.cv) stmt.offsets stmt.c prng) ms
        = .returned (true, prng') rest} ≤ 5 := by
  cases ms with
  | nil =>
    refine (Set.ncard_eq_zero (Set.toFinite _)).mpr ?_ |>.trans_le (Nat.zero_le 5)
    refine Set.eq_empty_iff_forall_notMem.mpr ?_
    rintro Delta ⟨prng', rest, h⟩
    obtain ⟨buffer, hms, -⟩ := zk.accepts_of_verify expand h
    cases hms
  | cons buffer ms =>
    have hsub : {Delta | ∃ prng' rest, feed (zk.verify expand (verifierAt m w Delta) stmt.gamma
        stmt.mm (some stmt.cu) (some stmt.cv) stmt.offsets stmt.c prng) (buffer :: ms)
          = .returned (true, prng') rest}
        ⊆ {Delta | ∑ i ∈ range (5 + 1), zk.difference stmt m w
            (Prng.ofSeed expand prng.getBlock.1) buffer i * Delta ^ i = 0} := by
      rintro Delta ⟨prng', rest, h⟩
      obtain ⟨buffer', hms, haccepts⟩ := zk.accepts_of_verify expand h
      obtain ⟨hbuffer, -⟩ := List.cons.inj hms
      rw [← hbuffer] at haccepts
      exact zk.difference_root haccepts
    have htop : zk.difference stmt m w (Prng.ofSeed expand prng.getBlock.1) buffer 5 ≠ 0 := by
      rw [difference, if_neg (lt_irrefl 5)]
      exact hne
    exact (Set.ncard_le_ncard hsub (Set.toFinite _)).trans (ncard_roots_le _ 5 htop)

/-- The folded sum is affine in each scalar. -/
theorem foldedSum_update {i : Nat} (h2 : 2 ≤ i) (hi : i ≤ zk.k + 15) (a : Fp) :
    zk.foldedSum stmt w (Function.update s (i - 2) a)
      = zk.foldedSum stmt w s + (a - s (i - 2)) * (sign i * zk.constraint stmt w i) := by
  have hmem : i - 2 ∈ range zk.scalars := by
    rw [mem_range, scalars]
    omega
  have hidx : i - 2 + 2 = i := by omega
  unfold foldedSum
  rw [← add_sum_erase _ _ hmem, ← add_sum_erase (range zk.scalars) (fun n => s n * _) hmem,
    Function.update_self, hidx]
  have hrest : ∑ n ∈ (range zk.scalars).erase (i - 2), Function.update s (i - 2) a n
        * (sign (n + 2) * zk.constraint stmt w (n + 2))
      = ∑ n ∈ (range zk.scalars).erase (i - 2), s n
        * (sign (n + 2) * zk.constraint stmt w (n + 2)) :=
    sum_congr rfl fun n hn => by rw [Function.update_of_ne (ne_of_mem_erase hn)]
  rw [hrest]
  ring

theorem sign_ne_zero (i : Nat) : sign i ≠ 0 := by
  unfold sign
  split_ifs
  · exact neg_ne_zero.mpr one_ne_zero
  · exact one_ne_zero

/-- **At most one value of a scalar** hides a constraint that fails. -/
theorem foldedSum_subsingleton {i : Nat} (h2 : 2 ≤ i) (hi : i ≤ zk.k + 15)
    (hne : zk.constraint stmt w i ≠ 0) :
    {a | zk.foldedSum stmt w (Function.update s (i - 2) a) = 0}.Subsingleton := by
  intro a ha b hb
  have ha' : zk.foldedSum stmt w (Function.update s (i - 2) a) = 0 := ha
  have hb' : zk.foldedSum stmt w (Function.update s (i - 2) b) = 0 := hb
  rw [zk.foldedSum_update h2 hi] at ha' hb'
  have hprod : (a - b) * (sign i * zk.constraint stmt w i) = 0 := by
    linear_combination ha' - hb'
  rcases mul_eq_zero.mp hprod with h | h
  · exact sub_eq_zero.mp h
  · exact absurd h (mul_ne_zero (sign_ne_zero i) hne)

end

/-- **`verify` is sound**: when the folded constraint sum is not 0, at most five `Delta` make it end
with `valid` on what was sent; and for a constraint other than `C[1]` that fails, at most one value
of its scalar makes the sum 0. -/
theorem verify_sound (m w : Nat → Fp) (stmt : Statement Fp) (prng : Prng) (ms : List Bytes) :
    (zk.foldedSum stmt w (draw (Prng.ofSeed expand prng.getBlock.1)) ≠ 0 →
      Set.ncard {Delta | ∃ prng' rest, feed (zk.verify expand (verifierAt m w Delta) stmt.gamma
        stmt.mm (some stmt.cu) (some stmt.cv) stmt.offsets stmt.c prng) ms
          = .returned (true, prng') rest} ≤ 5) ∧
    ∀ i, 2 ≤ i → i ≤ zk.k + 15 → zk.constraint stmt w i ≠ 0 → ∀ s : Nat → Fp,
      {a | zk.foldedSum stmt w (Function.update s (i - 2) a) = 0}.Subsingleton :=
  ⟨zk.ncard_accepting_le expand ms, fun _ h2 hi hne _ => zk.foldedSum_subsingleton h2 hi hne⟩

/-- All committed values 0, `cu = 1`, and the zero generator: `C[1]` and `C[68]` fail. -/
theorem verify_sound_example :
    let expand : Block → Nat → UInt8 := fun _ _ => 0
    let prng : Prng := ⟨fun i => UInt8.ofNat (3 * i), 0⟩
    let zk : ZkParams := ⟨10, 53, 8, 64⟩
    let stmt : Statement Fp :=
      { gamma := fun j => j, mm := fun _ => 0, cu := 1, cv := 0, offsets := List.replicate 63 5
        c := List.replicate 53 1 }
    let buffer : Bytes := List.replicate 160 7
    Set.ncard {Delta | ∃ prng' rest, feed (zk.verify expand (verifierAt (fun j => j) (fun _ => 0)
        Delta) stmt.gamma stmt.mm (some stmt.cu) (some stmt.cv) stmt.offsets stmt.c prng) [buffer]
          = .returned (true, prng') rest} ≤ 5 ∧
      ∀ s : Nat → Fp,
        {a | zk.foldedSum stmt (fun _ => 0) (Function.update s 66 a) = 0}.Subsingleton := by
  intro expand prng zk stmt buffer
  have hdraw : ∀ i, (draw (Prng.ofSeed expand prng.getBlock.1) i : Fp) = 0 := by
    intro i
    have hbytes : ((Prng.ofSeed expand prng.getBlock.1).skip (primeBytes * i)).bytes primeBytes
        = Vector.replicate 32 0 :=
      Vector.ext fun j hj => by rw [Prng.bytes, Vector.getElem_ofFn, Vector.getElem_replicate]; rfl
    have hvalue : leValue (Vector.replicate 32 (0 : UInt8)) = 0 := by decide +kernel
    rw [draw, hbytes, Exact.unpack_eq, hvalue, Nat.zero_mod, Nat.cast_zero]
  have hfirst : zk.constraint stmt (fun _ => 0) 1 = 1 := by
    have hfirst : zk.constraint stmt (fun _ => 0) 1
        = 1 - 0 - ∑ j ∈ range 10, stmt.gamma j * (0 + lPrime stmt j) * 0 := rfl
    rw [hfirst, sum_eq_zero fun j _ => mul_zero _, sub_zero, sub_zero]
  have hlast : zk.constraint stmt (fun _ => 0) 68 = -1 := by
    have hlate : zk.constraint stmt (fun _ => 0) 68 = lateConstraint (fun _ => 0) 12 := rfl
    have hvalue : lateConstraint (fun _ => 0) 12 = 0 * 0 * 0 * 0 - 1 := rfl
    rw [hlate, hvalue]
    ring
  have hsum : zk.foldedSum stmt (fun _ => 0) (draw (Prng.ofSeed expand prng.getBlock.1)) ≠ 0 := by
    have hrest : ∑ i ∈ range zk.scalars, draw (Prng.ofSeed expand prng.getBlock.1) i
        * (sign (i + 2) * zk.constraint stmt (fun _ => 0) (i + 2)) = 0 :=
      sum_eq_zero fun i _ => by rw [hdraw, zero_mul]
    rw [foldedSum, hrest, hfirst, mul_one, add_zero]
    exact sign_ne_zero 1
  obtain ⟨hcard, hscalar⟩ := verify_sound expand zk (fun j => j) (fun _ => 0) stmt prng [buffer]
  have hne : zk.constraint stmt (fun _ => 0) 68 ≠ 0 := by
    rw [hlast]
    exact neg_ne_zero.mpr one_ne_zero
  exact ⟨hcard hsum, hscalar 68 (by norm_num) le_rfl hne⟩

end HocusPocus.ZkParams
