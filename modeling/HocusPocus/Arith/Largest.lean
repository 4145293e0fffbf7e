import Mathlib.Data.List.Sort
import Mathlib.Algebra.Order.BigOperators.Group.List
import Mathlib.Data.Nat.Factorial.BigOperators
import Mathlib.Algebra.Order.Ring.Nat
import Mathlib.Tactic.Common

/-!
# The largest elements of a list

`descending` sorts a list from its largest element on. An element of the sorted list is at least
`v` exactly when enough elements of the list are (`le_getElem_descending_iff`), so lists compare
through the numbers of their elements from a bound on: `getElem_descending_le` for one element,
`prod_take_le` for the product of the largest ones, and `prod_le_of_subperm` for any other choice of
as many elements.
-/

namespace Arith

section

variable {α : Type*} [LinearOrder α]

/-- The elements from the largest on. -/
def descending (S : List α) : List α := S.mergeSort fun a b => b ≤ a

theorem descending_perm (S : List α) : (descending S).Perm S := List.mergeSort_perm _ _

@[simp] theorem length_descending (S : List α) : (descending S).length = S.length :=
  (descending_perm S).length_eq

theorem pairwise_descending (S : List α) : (descending S).Pairwise fun a b => b ≤ a :=
  List.pairwise_mergeSort' (fun a b : α => b ≤ a) S

theorem getElem_descending_mono (S : List α) {i j : ℕ} (hij : i ≤ j)
    (hj : j < (descending S).length) : (descending S)[j] ≤ (descending S)[i] := by
  rcases hij.lt_or_eq with hlt | rfl
  · exact List.pairwise_iff_getElem.mp (pairwise_descending S) i j _ hj hlt
  · exact le_rfl

/-- **The `j`-th largest element is at least `v` when more than `j` elements are.** -/
theorem le_getElem_descending_iff (S : List α) (v : α) {j : ℕ} (hj : j < (descending S).length) :
    v ≤ (descending S)[j] ↔ j < S.countP (v ≤ ·) := by
  have hcount : S.countP (v ≤ ·)
      = ((descending S).take j).countP (v ≤ ·) + ((descending S).drop j).countP (v ≤ ·) := by
    rw [← List.countP_append, List.take_append_drop]
    exact ((descending_perm S).countP_eq _).symm
  rw [hcount]
  have htake : ((descending S).take j).countP (v ≤ ·) ≤ j := by
    have hlen := List.countP_le_length (p := (v ≤ ·)) (l := (descending S).take j)
    exact hlen.trans (List.length_take_le _ _)
  constructor
  · intro hle
    -- the elements before the `j`-th are at least `v` as well
    have hall : ((descending S).take j).countP (v ≤ ·) = j := by
      rw [List.countP_eq_length.mpr, List.length_take, min_eq_left hj.le]
      intro a ha
      obtain ⟨i, hi, rfl⟩ := List.getElem_of_mem ha
      rw [List.length_take] at hi
      rw [List.getElem_take, decide_eq_true_iff]
      exact hle.trans (getElem_descending_mono S (by omega) hj)
    rw [hall, List.drop_eq_getElem_cons hj, List.countP_cons_of_pos (by simpa using hle)]
    omega
  · intro hlt
    by_contra hgt
    have hnone : ((descending S).drop j).countP (v ≤ ·) = 0 := by
      rw [List.countP_eq_zero]
      intro a ha
      obtain ⟨i, hi, rfl⟩ := List.getElem_of_mem ha
      rw [List.length_drop] at hi
      rw [List.getElem_drop, decide_eq_true_iff]
      exact fun hle => hgt (hle.trans (getElem_descending_mono S (by omega) (by omega)))
    omega

/-- More elements from every bound on make every element of the sorted list larger. -/
theorem getElem_descending_le {S T : List α}
    (h : ∀ v, S.countP (v ≤ ·) ≤ T.countP (v ≤ ·)) {j : ℕ} (hS : j < (descending S).length)
    (hT : j < (descending T).length) : (descending S)[j] ≤ (descending T)[j] :=
  (le_getElem_descending_iff T _ hT).mpr
    (((le_getElem_descending_iff S _ hS).mp le_rfl).trans_le (h _))

end

/-! ## Products of the largest elements -/

/-- The product of the `k` largest elements grows with the list. -/
theorem prod_take_le {S T : List ℕ} (h : ∀ v, S.countP (v ≤ ·) ≤ T.countP (v ≤ ·)) {k : ℕ}
    (hS : k ≤ S.length) (hT : k ≤ T.length) :
    ((descending S).take k).prod ≤ ((descending T).take k).prod := by
  induction k with
  | zero => rfl
  | succ k ih =>
    have hkS : k < (descending S).length := by rwa [length_descending]
    have hkT : k < (descending T).length := by rwa [length_descending]
    rw [List.prod_take_succ _ k hkS, List.prod_take_succ _ k hkT]
    exact Nat.mul_le_mul (ih (Nat.le_of_succ_le hS) (Nat.le_of_succ_le hT))
      (getElem_descending_le h hkS hkT)

/-- **No choice of elements has a larger product than the largest ones.** -/
theorem prod_le_of_subperm {S T : List ℕ} (h : T.Subperm S) :
    T.prod ≤ ((descending S).take T.length).prod := by
  have hprod : T.prod = ((descending T).take T.length).prod := by
    rw [← length_descending T, List.take_length]
    exact (descending_perm T).prod_eq.symm
  rw [hprod]
  exact prod_take_le (fun v => h.countP_le _) le_rfl h.length_le

end Arith
