import Mathlib.Algebra.BigOperators.Field
import Mathlib.Algebra.Order.BigOperators.Ring.Finset
import Mathlib.Algebra.Order.Chebyshev
import Mathlib.Data.Fintype.BigOperators
import Mathlib.Data.Real.Basic
import Mathlib.GroupTheory.Coset.Card
import Mathlib.Tactic.Linarith
import Mathlib.Tactic.FieldSimp
import Mathlib.Tactic.Positivity

/-!
# The leftover hash lemma for inner products

Over a finite field the inner products with a random key are a universal family of hashes: two
different vectors collide for one key in `q`. So the hash of an element of a large enough set is
close to uniform, even to one who sees the key.

* `card_collisions`: two vectors collide for one key in `q`.
* `sum_sq_hits`: the pairs of the set that collide, over all keys.
* `leftover_hash`: the distance to uniform, over all keys.
* `leftover_hash_shift`: two shifts of the hash are close to each other.
-/

namespace Arith

open Finset

variable {F ι : Type*} [Field F] [Fintype F] [DecidableEq F] [Fintype ι]

/-- The number of elements of `X` whose inner product with the key is `t`. -/
def hits (X : Finset (ι → F)) (key : ι → F) (t : F) : ℕ := #{x ∈ X | ∑ i, key i * x i = t}

/-- **Two different vectors collide for one key in `q`.** -/
theorem card_collisions [DecidableEq ι] {x y : ι → F} (h : x ≠ y) :
    Fintype.card F * #{key : ι → F | ∑ i, key i * x i = ∑ i, key i * y i}
      = Fintype.card (ι → F) := by
  obtain ⟨i, hi⟩ := Function.ne_iff.mp h
  have hne : x i - y i ≠ 0 := sub_ne_zero.mpr hi
  -- the keys are spread evenly over the differences of the two inner products
  let diff : (ι → F) →+ F :=
    { toFun := fun key => ∑ i, key i * (x i - y i)
      map_zero' := by simp
      map_add' := fun a b => by simp only [Pi.add_apply, add_mul, sum_add_distrib] }
  have hsurj : ∀ t, t ∈ Set.range diff := fun t => by
    refine ⟨Pi.single i (t / (x i - y i)), ?_⟩
    have hsingle : diff (Pi.single i (t / (x i - y i))) = t / (x i - y i) * (x i - y i) := by
      refine (sum_eq_single i (fun j _ hj => ?_) fun h => absurd (mem_univ i) h).trans ?_
      · rw [Pi.single_eq_of_ne hj, zero_mul]
      · rw [Pi.single_eq_same]
    rw [hsingle, div_mul_cancel₀ t hne]
  have hfiber : ∀ t : F, #{key | diff key = t} = #{key | diff key = 0} := fun t =>
    AddMonoidHom.card_fiber_eq_of_mem_range diff (hsurj t) (hsurj 0)
  have hzero : ∀ key : ι → F,
      diff key = 0 ↔ ∑ i, key i * x i = ∑ i, key i * y i := fun key => by
    rw [← sub_eq_zero (a := ∑ i, key i * x i), ← sum_sub_distrib]
    exact iff_of_eq (congrArg (· = 0) (sum_congr rfl fun i _ => mul_sub _ _ _))
  calc Fintype.card F * #{key : ι → F | ∑ i, key i * x i = ∑ i, key i * y i}
      = ∑ _t : F, #{key | diff key = 0} := by
        rw [sum_const, card_univ, smul_eq_mul]
        exact congrArg _ (congrArg card (filter_congr fun key _ => (hzero key).symm))
    _ = ∑ t : F, #{key | diff key = t} := sum_congr rfl fun t _ => (hfiber t).symm
    _ = Fintype.card (ι → F) := by
        rw [← card_univ]
        exact (card_eq_sum_card_fiberwise fun key _ => mem_univ (diff key)).symm

/-- Every element has some hash. -/
theorem sum_hits (X : Finset (ι → F)) (key : ι → F) : ∑ t, hits X key t = #X :=
  (card_eq_sum_card_fiberwise fun _ _ => mem_univ _).symm

/-- The pairs that collide for one key. -/
theorem sum_sq_hits_key (X : Finset (ι → F)) (key : ι → F) :
    ∑ t, hits X key t ^ 2
      = ∑ x ∈ X, ∑ y ∈ X, if ∑ i, key i * x i = ∑ i, key i * y i then 1 else 0 := by
  simp only [hits, card_filter, sq, sum_mul_sum]
  rw [sum_comm]
  refine sum_congr rfl fun x _ => ?_
  rw [sum_comm]
  refine sum_congr rfl fun y _ => ?_
  rw [sum_eq_single (∑ i, key i * x i) (fun t _ ht => by rw [if_neg ht.symm, zero_mul])
    fun h => absurd (mem_univ _) h, if_pos rfl, one_mul]
  exact if_congr eq_comm rfl rfl

/-- **The pairs that collide, over all keys.** -/
theorem sum_sq_hits [DecidableEq ι] (X : Finset (ι → F)) :
    Fintype.card F * (∑ key, ∑ t, hits X key t ^ 2) + #X * Fintype.card (ι → F)
      = #X * (Fintype.card F * Fintype.card (ι → F)) + #X ^ 2 * Fintype.card (ι → F) := by
  have hpair : ∀ x ∈ X, ∑ y ∈ X, Fintype.card F
        * #{key : ι → F | ∑ i, key i * x i = ∑ i, key i * y i} + Fintype.card (ι → F)
      = Fintype.card F * Fintype.card (ι → F) + #X * Fintype.card (ι → F) := by
    intro x hx
    rw [← add_sum_erase X _ hx]
    have hself : #{key : ι → F | ∑ i, key i * x i = ∑ i, key i * x i} = Fintype.card (ι → F) := by
      rw [filter_true_of_mem fun _ _ => rfl, card_univ]
    rw [hself, sum_congr rfl fun y hy => card_collisions (ne_of_mem_erase hy).symm, sum_const,
      smul_eq_mul, add_assoc, ← Nat.succ_mul, Nat.succ_eq_add_one, card_erase_add_one hx]
  have hswap : ∑ key, ∑ t, hits X key t ^ 2
      = ∑ x ∈ X, ∑ y ∈ X, #{key : ι → F | ∑ i, key i * x i = ∑ i, key i * y i} := by
    simp only [sum_sq_hits_key, card_filter]
    rw [sum_comm]
    refine sum_congr rfl fun x _ => ?_
    rw [sum_comm]
  calc Fintype.card F * (∑ key, ∑ t, hits X key t ^ 2) + #X * Fintype.card (ι → F)
      = ∑ x ∈ X, (∑ y ∈ X, Fintype.card F
          * #{key : ι → F | ∑ i, key i * x i = ∑ i, key i * y i} + Fintype.card (ι → F)) := by
        rw [hswap, mul_sum, sum_add_distrib, sum_const, smul_eq_mul]
        simp only [mul_sum]
    _ = #X * (Fintype.card F * Fintype.card (ι → F)) + #X ^ 2 * Fintype.card (ι → F) := by
        rw [sum_congr rfl hpair, sum_const, smul_eq_mul]
        ring

section

variable [DecidableEq ι] {X : Finset (ι → F)}

/-- The variance of the hits, over all keys. -/
theorem sum_sq_sub_le (X : Finset (ι → F)) :
    ∑ key, ∑ t, ((hits X key t : ℝ) - #X / Fintype.card F) ^ 2
      ≤ #X * Fintype.card (ι → F) := by
  have hq : (0 : ℝ) < Fintype.card F := Nat.cast_pos.mpr Fintype.card_pos
  have hsq : (Fintype.card F : ℝ) * (∑ key, ∑ t, (hits X key t : ℝ) ^ 2)
        + #X * Fintype.card (ι → F)
      = #X * (Fintype.card F * Fintype.card (ι → F)) + (#X : ℝ) ^ 2 * Fintype.card (ι → F) := by
    exact_mod_cast sum_sq_hits X
  have hmean : ∑ key : ι → F, ∑ t, (hits X key t : ℝ) = Fintype.card (ι → F) * #X := by
    have hkey : ∀ key : ι → F, ∑ t, (hits X key t : ℝ) = #X := fun key => by
      exact_mod_cast sum_hits X key
    rw [sum_congr rfl fun key _ => hkey key, sum_const, nsmul_eq_mul, card_univ]
  have hexpand : ∑ key, ∑ t, ((hits X key t : ℝ) - #X / Fintype.card F) ^ 2
      = (∑ key, ∑ t, (hits X key t : ℝ) ^ 2)
        - 2 * (#X / Fintype.card F) * (Fintype.card (ι → F) * #X)
        + Fintype.card (ι → F) * (Fintype.card F * (#X / Fintype.card F) ^ 2) := by
    simp only [sub_sq, sum_add_distrib, sum_sub_distrib, sum_const, nsmul_eq_mul, card_univ]
    rw [← hmean, mul_sum]
    congr 2
    refine sum_congr rfl fun key _ => ?_
    rw [mul_sum]
    exact sum_congr rfl fun t _ => by ring
  refine le_of_mul_le_mul_left ?_ hq
  rw [hexpand]
  have hkeys : (0 : ℝ) ≤ #X * Fintype.card (ι → F) := by positivity
  have hsum : (Fintype.card F : ℝ) * ((∑ key, ∑ t, (hits X key t : ℝ) ^ 2)
        - 2 * (#X / Fintype.card F) * (Fintype.card (ι → F) * #X)
        + Fintype.card (ι → F) * (Fintype.card F * (#X / Fintype.card F) ^ 2))
      = Fintype.card F * (∑ key, ∑ t, (hits X key t : ℝ) ^ 2)
        - (#X : ℝ) ^ 2 * Fintype.card (ι → F) := by
    field_simp
    ring
  rw [hsum]
  linarith

/-- **The leftover hash lemma**: with `q * c ^ 2` elements or more, the hash and the key together
are within `1 / (2 * c)` of uniform. -/
theorem leftover_hash {c : ℝ} (hX : Fintype.card F * c ^ 2 ≤ #X) :
    c * ∑ key, ∑ t, |(hits X key t : ℝ) - #X / Fintype.card F| ≤ #X * Fintype.card (ι → F) := by
  have hq : (0 : ℝ) < Fintype.card F := Nat.cast_pos.mpr Fintype.card_pos
  have hK : (0 : ℝ) ≤ Fintype.card (ι → F) := Nat.cast_nonneg _
  have hM : (0 : ℝ) ≤ #X := Nat.cast_nonneg _
  have hvar := sum_sq_sub_le X
  rw [← sum_product' univ univ fun key t => ((hits X key t : ℝ) - #X / Fintype.card F) ^ 2] at hvar
  rw [← sum_product' univ univ fun key t => |(hits X key t : ℝ) - #X / Fintype.card F|]
  have hcauchy := sq_sum_le_card_mul_sum_sq
    (s := (univ : Finset (ι → F)) ×ˢ (univ : Finset F))
    (f := fun p => |(hits X p.1 p.2 : ℝ) - #X / Fintype.card F|)
  simp only [sq_abs, card_product, card_univ, Nat.cast_mul] at hcauchy
  refine abs_le_of_sq_le_sq' ?_ (by positivity) |>.2
  calc (c * ∑ p ∈ univ ×ˢ univ, |(hits X p.1 p.2 : ℝ) - #X / Fintype.card F|) ^ 2
      = c ^ 2 * (∑ p ∈ univ ×ˢ univ, |(hits X p.1 p.2 : ℝ) - #X / Fintype.card F|) ^ 2 := by ring
    _ ≤ c ^ 2 * (Fintype.card (ι → F) * Fintype.card F * (#X * Fintype.card (ι → F))) := by
        refine mul_le_mul_of_nonneg_left (hcauchy.trans ?_) (sq_nonneg c)
        exact mul_le_mul_of_nonneg_left hvar (mul_nonneg hK hq.le)
    _ = Fintype.card F * c ^ 2 * (#X * (Fintype.card (ι → F) : ℝ) ^ 2) := by ring
    _ ≤ #X * (#X * (Fintype.card (ι → F) : ℝ) ^ 2) :=
        mul_le_mul_of_nonneg_right hX (mul_nonneg hM (sq_nonneg _))
    _ = (#X * Fintype.card (ι → F)) ^ 2 := by ring

/-- **Two shifts of the hash** are close to each other. -/
theorem leftover_hash_shift {c : ℝ} (hc : 0 ≤ c) (hX : Fintype.card F * c ^ 2 ≤ #X) (a b : F) :
    c * ∑ key, ∑ t, |(hits X key (a - t) : ℝ) - hits X key (b - t)|
      ≤ 2 * (#X * Fintype.card (ι → F)) := by
  have hshift : ∀ s : F, ∀ key : ι → F,
      ∑ t, |(hits X key (s - t) : ℝ) - #X / Fintype.card F|
        = ∑ t, |(hits X key t : ℝ) - #X / Fintype.card F| := fun s key =>
    Equiv.sum_comp (Equiv.subLeft s) fun t => |(hits X key t : ℝ) - #X / Fintype.card F|
  have htriangle : ∀ key : ι → F, ∑ t, |(hits X key (a - t) : ℝ) - hits X key (b - t)|
      ≤ 2 * ∑ t, |(hits X key t : ℝ) - #X / Fintype.card F| := by
    intro key
    calc ∑ t, |(hits X key (a - t) : ℝ) - hits X key (b - t)|
        ≤ ∑ t, (|(hits X key (a - t) : ℝ) - #X / Fintype.card F|
            + |(hits X key (b - t) : ℝ) - #X / Fintype.card F|) := by
          refine sum_le_sum fun t _ => ?_
          rw [abs_sub_comm (hits X key (b - t) : ℝ)]
          exact abs_sub_le _ _ _
      _ = 2 * ∑ t, |(hits X key t : ℝ) - #X / Fintype.card F| := by
          rw [sum_add_distrib, hshift a, hshift b, two_mul]
  calc c * ∑ key, ∑ t, |(hits X key (a - t) : ℝ) - hits X key (b - t)|
      ≤ c * ∑ key, 2 * ∑ t, |(hits X key t : ℝ) - #X / Fintype.card F| :=
        mul_le_mul_of_nonneg_left (sum_le_sum fun key _ => htriangle key) hc
    _ = 2 * (c * ∑ key, ∑ t, |(hits X key t : ℝ) - #X / Fintype.card F|) := by
        rw [← mul_sum]
        ring
    _ ≤ 2 * (#X * Fintype.card (ι → F)) :=
        mul_le_mul_of_nonneg_left (leftover_hash hX) zero_le_two

end

end Arith
