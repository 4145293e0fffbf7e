import Mathlib.GroupTheory.Perm.DomMulAct
import Mathlib.Data.Fintype.CardEmbedding
import Mathlib.Data.Nat.Factorial.BigOperators
import Mathlib.Algebra.Order.BigOperators.Group.Finset
import Mathlib.Algebra.BigOperators.Group.Finset.Sigma

/-!
# Arrangements of values

The functions with the same number of arguments for each value as `g` are the ones `g` gives after a
permutation of its arguments (`mem_arrangements`); permuting the arguments of one value gives the
same function, so there are as many as a multinomial coefficient says
(`card_arrangements_mul`).

The sizes of the fibres of a function are themselves such a function, on its values. Counting twice
gives the number of functions with prescribed multiplicities, without saying which value has which
(`card_multiplicities`). `card_embeddings` counts injections that keep values.
-/

namespace Arith

open Finset Equiv Nat

variable {α β V : Type*} [Fintype α] [DecidableEq V]

/-- The number of arguments of each value. -/
def fiberSizes (g : α → V) (v : V) : ℕ := #{a | g a = v}

theorem sum_fiberSizes {A : Finset V} {g : α → V} (h : ∀ a, g a ∈ A) :
    ∑ v ∈ A, fiberSizes g v = Fintype.card α :=
  (card_eq_sum_card_fiberwise fun a _ => h a).symm

theorem fiberSizes_eq_zero_iff {g : α → V} {v : V} : fiberSizes g v = 0 ↔ v ∉ univ.image g := by
  simp [fiberSizes, filter_eq_empty_iff]

/-- Every family of sizes with the right sum has a function. -/
theorem exists_fiberSizes {A : Finset V} {κ : V → ℕ} (h : ∑ v ∈ A, κ v = Fintype.card α) :
    ∃ g : α → V, (∀ a, g a ∈ A) ∧ ∀ v ∈ A, fiberSizes g v = κ v := by
  have hcard : Fintype.card α = Fintype.card (Σ v : A, Fin (κ v)) := by
    simp only [Fintype.card_sigma, Fintype.card_fin]
    rw [← h, ← Finset.sum_coe_sort]
  obtain ⟨e⟩ := Fintype.card_eq.mp hcard
  refine ⟨fun a => (e a).1, fun a => (e a).1.2, fun v hv => ?_⟩
  have hfiber : {a // ((e a).1 : V) = v} ≃ Fin (κ v) :=
    (e.subtypeEquiv fun _ => ⟨fun h => Subtype.ext h, congrArg Subtype.val⟩).trans
      (Equiv.sigmaSubtype (⟨v, hv⟩ : A))
  rw [fiberSizes, ← Fintype.card_subtype, Fintype.card_congr hfiber, Fintype.card_fin]

theorem fiberSizes_comp (g : α → V) (σ : Perm α) : fiberSizes (g ∘ σ) = fiberSizes g := by
  funext v
  exact card_bijective σ σ.bijective fun a => by simp

/-! ## Multiplicities -/

/-- How often each value occurs, without saying which value it is. -/
def multiplicities (g : α → V) : Multiset ℕ := (univ.image g).val.map (fiberSizes g)

theorem pos_of_mem_multiplicities {g : α → V} {n : ℕ} (h : n ∈ multiplicities g) : 0 < n := by
  obtain ⟨v, hv, rfl⟩ := Multiset.mem_map.mp h
  exact Nat.pos_of_ne_zero fun hzero => fiberSizes_eq_zero_iff.mp hzero hv

theorem sum_multiplicities (g : α → V) : (multiplicities g).sum = Fintype.card α :=
  sum_fiberSizes fun a => mem_image_of_mem g (mem_univ a)

theorem count_map_univ (g : α → V) (v : V) : (univ.val.map g).count v = fiberSizes g v := by
  rw [Multiset.count_map]
  exact congrArg Multiset.card (Multiset.filter_congr fun _ _ => eq_comm)

/-- A product over the sizes of the fibres leaves out the values that do not occur. -/
theorem prod_factorial_fiberSizes {A : Finset V} {g : α → V} (h : ∀ a, g a ∈ A) :
    ∏ v ∈ univ.image g, (fiberSizes g v)! = ∏ v ∈ A, (fiberSizes g v)! := by
  refine prod_subset (fun v hv => ?_) fun v _ hv => ?_
  · obtain ⟨a, -, rfl⟩ := mem_image.mp hv
    exact h a
  · rw [fiberSizes_eq_zero_iff.mpr hv, factorial_zero]

/-- A multiset of multiplicities, with a zero for each of the `n` values left out. -/
def padded (n : ℕ) (P : Multiset ℕ) : Multiset ℕ :=
  P + Multiset.replicate (n - Multiset.card P) 0

theorem filter_padded {P : Multiset ℕ} (hpos : ∀ n ∈ P, 0 < n) (n : ℕ) :
    (padded n P).filter (0 < ·) = P := by
  rw [padded, Multiset.filter_add, Multiset.filter_eq_self.mpr hpos,
    Multiset.filter_eq_nil.mpr fun a ha => ?_, add_zero]
  rw [Multiset.eq_of_mem_replicate ha]
  exact lt_irrefl 0

section

variable [Fintype β] [DecidableEq β]

theorem card_multiplicities_le (g : α → β) : Multiset.card (multiplicities g) ≤ Fintype.card β := by
  rw [multiplicities, Multiset.card_map]
  exact Finset.card_le_univ _

/-- The sizes of all fibres. -/
theorem map_fiberSizes (g : α → β) :
    univ.val.map (fiberSizes g) = padded (Fintype.card β) (multiplicities g) := by
  have himage : univ.image g = univ.filter (0 < fiberSizes g ·) := by
    ext v
    rw [mem_filter_univ, Nat.pos_iff_ne_zero, ne_eq, fiberSizes_eq_zero_iff, not_not]
  have hfilter : (univ.val.map (fiberSizes g)).filter (0 < ·) = multiplicities g := by
    rw [multiplicities, himage, Multiset.filter_map]
    rfl
  have hsplit := Multiset.filter_add_not (0 < ·) (univ.val.map (fiberSizes g))
  rw [hfilter] at hsplit
  have hcard := congrArg Multiset.card hsplit
  rw [Multiset.card_add, Multiset.card_map, card_val, Finset.card_univ] at hcard
  rw [← hsplit, padded]
  refine congrArg _ (Multiset.eq_replicate.mpr ⟨by omega, fun n hn => ?_⟩)
  exact Nat.eq_zero_of_not_pos (Multiset.mem_filter.mp hn).2

/-- The multiplicities are `P` when the sizes of all fibres are those of `P` and zeros. -/
theorem multiplicities_eq_iff {P : Multiset ℕ} (hpos : ∀ n ∈ P, 0 < n) (g : α → β) :
    multiplicities g = P ↔ univ.val.map (fiberSizes g) = padded (Fintype.card β) P := by
  rw [map_fiberSizes]
  constructor
  · intro h
    rw [h]
  · intro h
    have hfilter := congrArg (Multiset.filter (0 < ·)) h
    rwa [filter_padded fun _ hn => pos_of_mem_multiplicities hn, filter_padded hpos] at hfilter

end

/-! ## Arrangements -/

variable [DecidableEq α]

/-- The functions that permuting the arguments of `g` gives. -/
def arrangements (g : α → V) : Finset (α → V) := univ.image fun σ : Perm α => g ∘ σ

/-- **An arrangement has as many arguments of each value.** -/
theorem mem_arrangements {g g' : α → V} : g' ∈ arrangements g ↔ fiberSizes g' = fiberSizes g := by
  constructor
  · intro h
    obtain ⟨σ, -, rfl⟩ := mem_image.mp h
    exact fiberSizes_comp g σ
  · intro h
    have hfiber : ∀ v, Nonempty ({a // g' a = v} ≃ {a // g a = v}) := fun v => by
      rw [← Fintype.card_eq, Fintype.card_subtype, Fintype.card_subtype]
      exact congrFun h v
    refine mem_image.mpr ⟨Equiv.ofFiberEquiv fun v => (hfiber v).some, mem_univ _, ?_⟩
    funext a
    exact Equiv.ofFiberEquiv_map _ a

/-- **The number of arrangements**, as a multinomial coefficient. -/
theorem card_arrangements_mul (g : α → V) :
    #(arrangements g) * ∏ v ∈ univ.image g, (fiberSizes g v)! = (Fintype.card α)! := by
  have hstab : ∀ g' ∈ arrangements g, #{σ : Perm α | g ∘ σ = g'}
      = ∏ v ∈ univ.image g, (fiberSizes g v)! := by
    intro g' hg'
    obtain ⟨τ, -, rfl⟩ := mem_image.mp hg'
    have hshift : #{σ : Perm α | g ∘ σ = g ∘ τ} = #{σ : Perm α | g ∘ σ = g} := by
      refine card_bijective (fun σ => σ * τ⁻¹) (Group.mulRight_bijective τ⁻¹) fun σ => ?_
      simp only [mem_filter_univ, funext_iff, Function.comp_apply, Perm.coe_mul]
      exact τ.forall_congr fun a => by simp
    rw [hshift, ← Fintype.card_subtype, DomMulAct.stabilizer_card']
    refine prod_congr rfl fun v _ => ?_
    rw [Fintype.card_subtype]
    rfl
  rw [← Fintype.card_perm, ← Finset.card_univ, card_eq_sum_card_image fun σ : Perm α => g ∘ σ,
    ← arrangements, sum_congr rfl hstab, sum_const, smul_eq_mul]

/-! ## Functions with given multiplicities -/

section

variable [Fintype β] {P : Multiset ℕ} {f : β → ℕ}

theorem exists_padded (hcard : Multiset.card P ≤ Fintype.card β) :
    ∃ f : β → ℕ, univ.val.map f = padded (Fintype.card β) P := by
  have hpad : ∑ n ∈ (padded (Fintype.card β) P).toFinset, (padded (Fintype.card β) P).count n
      = Fintype.card β := by
    rw [Multiset.toFinset_sum_count_eq, padded, Multiset.card_add, Multiset.card_replicate]
    omega
  obtain ⟨f, hmem, hf⟩ := exists_fiberSizes hpad
  refine ⟨f, Multiset.ext.mpr fun n => ?_⟩
  rw [count_map_univ]
  by_cases hn : n ∈ (padded (Fintype.card β) P).toFinset
  · exact hf n hn
  · have himage : n ∉ univ.image f := fun h => by
      obtain ⟨b, -, rfl⟩ := mem_image.mp h
      exact hn (hmem b)
    rw [fiberSizes_eq_zero_iff.mpr himage]
    exact (Multiset.count_eq_zero.mpr fun h => hn (Multiset.mem_toFinset.mpr h)).symm

/-- The factorials of the zeros are 1. -/
theorem prod_factorial_padded (hf : univ.val.map f = padded (Fintype.card β) P) :
    ∏ b, (f b)! = (P.map factorial).prod := by
  calc ∏ b, (f b)! = ((univ.val.map f).map factorial).prod := by
        rw [Multiset.map_map]
        rfl
    _ = (P.map factorial).prod := by
        rw [hf, padded, Multiset.map_add, Multiset.prod_add, Multiset.map_replicate,
          Multiset.prod_replicate, factorial_zero, one_pow, mul_one]

variable [DecidableEq β]

/-- The choices of the multiplicity of each value. -/
theorem card_arrangements_padded (hpos : ∀ n ∈ P, 0 < n)
    (hcard : Multiset.card P ≤ Fintype.card β)
    (hf : univ.val.map f = padded (Fintype.card β) P) :
    #(arrangements f) * ∏ n ∈ P.toFinset, (P.count n)!
      = (Fintype.card β).descFactorial (Multiset.card P) := by
  have hsize : ∀ n, fiberSizes f n = (padded (Fintype.card β) P).count n := fun n => by
    rw [← hf, count_map_univ]
  have hmem : ∀ b, f b ∈ insert 0 P.toFinset := by
    intro b
    have hb : f b ∈ padded (Fintype.card β) P := hf ▸ Multiset.mem_map_of_mem f (mem_univ b)
    rcases Multiset.mem_add.mp hb with h | h
    · exact mem_insert_of_mem (Multiset.mem_toFinset.mpr h)
    · rw [Multiset.eq_of_mem_replicate h]
      exact mem_insert_self _ _
  have hzero : 0 ∉ P.toFinset := fun h => lt_irrefl 0 (hpos 0 (Multiset.mem_toFinset.mp h))
  have hP : ∏ n ∈ P.toFinset, (fiberSizes f n)! = ∏ n ∈ P.toFinset, (P.count n)! := by
    refine prod_congr rfl fun n hn => ?_
    have hne : n ≠ 0 := fun h => hzero (h ▸ hn)
    rw [hsize, padded, Multiset.count_add, Multiset.count_replicate, if_neg hne.symm, add_zero]
  have htotal := card_arrangements_mul f
  rw [prod_factorial_fiberSizes hmem, prod_insert hzero, hP, hsize, padded, Multiset.count_add,
    Multiset.count_eq_zero.mpr fun h => lt_irrefl 0 (hpos 0 h), Multiset.count_replicate_self,
    zero_add, ← factorial_mul_descFactorial hcard] at htotal
  refine Nat.eq_of_mul_eq_mul_left (factorial_pos (Fintype.card β - Multiset.card P)) ?_
  rw [← htotal]
  ring

/-- The arrangements of the values, when their numbers are known. -/
theorem card_fiberSizes_eq (hsum : ∑ b, f b = Fintype.card α) :
    #{g : α → β | fiberSizes g = f} * ∏ b, (f b)! = (Fintype.card α)! := by
  obtain ⟨g, -, hg⟩ := exists_fiberSizes hsum
  have hgf : fiberSizes g = f := funext fun b => hg b (mem_univ b)
  have harr : ({g' : α → β | fiberSizes g' = f} : Finset (α → β)) = arrangements g := by
    ext g'
    rw [mem_filter_univ, mem_arrangements, hgf]
  rw [harr, ← card_arrangements_mul g, prod_factorial_fiberSizes fun a => mem_univ (g a), hgf]

/-- **The number of functions with given multiplicities**: a choice of the multiplicity of each
value, then an arrangement of the values. -/
theorem card_multiplicities (hpos : ∀ n ∈ P, 0 < n) (hsum : P.sum = Fintype.card α)
    (hcard : Multiset.card P ≤ Fintype.card β) :
    ∃ assignments sequences : ℕ,
      assignments * ∏ n ∈ P.toFinset, (P.count n)!
        = (Fintype.card β).descFactorial (Multiset.card P) ∧
      sequences * (P.map factorial).prod = (Fintype.card α)! ∧
      #{g : α → β | multiplicities g = P} = assignments * sequences := by
  obtain ⟨f, hf⟩ := exists_padded hcard
  have hsizes (g : α → β) : multiplicities g = P ↔ fiberSizes g ∈ arrangements f := by
    rw [multiplicities_eq_iff hpos, mem_arrangements, ← hf, Multiset.ext, funext_iff]
    simp only [count_map_univ]
  have hfiber : ∀ f' ∈ arrangements f,
      #{g : α → β | fiberSizes g = f'} * (P.map factorial).prod = (Fintype.card α)! := by
    intro f' hf'
    have hpad : univ.val.map f' = padded (Fintype.card β) P := by
      rw [← hf, Multiset.ext]
      simp only [count_map_univ]
      exact congrFun (mem_arrangements.mp hf')
    have hsum' : ∑ b, f' b = Fintype.card α := by
      rw [← hsum]
      calc ∑ b, f' b = (univ.val.map f').sum := rfl
        _ = P.sum := by
          rw [hpad, padded, Multiset.sum_add, Multiset.sum_replicate, smul_zero, add_zero]
    rw [← prod_factorial_padded hpad, card_fiberSizes_eq hsum']
  have hmem : f ∈ arrangements f := mem_arrangements.mpr rfl
  refine ⟨#(arrangements f), #{g : α → β | fiberSizes g = f},
    card_arrangements_padded hpos hcard hf, hfiber f hmem, ?_⟩
  have hprod : 0 < (P.map factorial).prod :=
    Nat.pos_of_ne_zero fun hzero => (factorial_ne_zero _) (by rw [← hfiber f hmem, hzero, mul_zero])
  have heach : ∀ f' ∈ arrangements f,
      #{g ∈ ({g | multiplicities g = P} : Finset (α → β)) | fiberSizes g = f'}
        = #{g : α → β | fiberSizes g = f} := by
    intro f' hf'
    have hfilter : ({g ∈ ({g | multiplicities g = P} : Finset (α → β)) | fiberSizes g = f'})
        = ({g | fiberSizes g = f'} : Finset (α → β)) := by
      ext g
      rw [mem_filter, mem_filter_univ, mem_filter_univ, hsizes]
      exact ⟨And.right, fun h => ⟨h ▸ hf', h⟩⟩
    rw [hfilter]
    exact Nat.eq_of_mul_eq_mul_right hprod ((hfiber f' hf').trans (hfiber f hmem).symm)
  rw [card_eq_sum_card_fiberwise fun g hg => (hsizes g).mp (mem_filter.mp (mem_coe.mp hg)).2,
    sum_congr rfl heach, sum_const, smul_eq_mul]

end

/-! ## Injections over a map -/

section

variable {ι κ V : Type*} [Fintype ι] [Fintype κ] [DecidableEq V]

/-- An injection over a map is an injection of each fibre. -/
def embeddingFibers {δ : κ → V} {β : ι → V} {A : Finset V} (h : ∀ i, β i ∈ A) :
    {c : ι ↪ κ // ∀ i, δ (c i) = β i} ≃ ∀ a : A, ({i // β i = a} ↪ {j // δ j = a}) where
  toFun c a :=
    ⟨fun i => ⟨c.1 i.1, (c.2 i.1).trans i.2⟩, fun i j hij =>
      Subtype.ext (c.1.injective (congrArg Subtype.val hij))⟩
  invFun f :=
    ⟨⟨fun i => (f ⟨β i, h i⟩ ⟨i, rfl⟩).1, fun i j hij => by
      have hβ : β i = β j :=
        (f ⟨β i, h i⟩ ⟨i, rfl⟩).2.symm.trans
          ((congrArg δ hij).trans (f ⟨β j, h j⟩ ⟨j, rfl⟩).2)
      have hmove : ∀ (a : A) (ha : a = ⟨β j, h j⟩) (hi : β i = a),
          (f a ⟨i, hi⟩).1 = (f ⟨β j, h j⟩ ⟨j, rfl⟩).1 → i = j := by
        rintro a rfl hi hval
        exact congrArg Subtype.val ((f ⟨β j, h j⟩).injective (Subtype.ext hval))
      exact hmove ⟨β i, h i⟩ (Subtype.ext hβ) rfl hij⟩,
    fun i => (f ⟨β i, h i⟩ ⟨i, rfl⟩).2⟩
  left_inv c := rfl
  right_inv f := by
    funext ⟨a, ha⟩
    ext ⟨i, hi⟩
    obtain rfl : β i = a := hi
    rfl

/-- **The number of injections over a map**, a falling factorial for each value. -/
theorem card_embeddings [DecidableEq ι] [DecidableEq κ] (δ : κ → V) {β : ι → V} {A : Finset V}
    (h : ∀ i, β i ∈ A) :
    #{c : ι ↪ κ | ∀ i, δ (c i) = β i}
      = ∏ a ∈ A, (fiberSizes δ a).descFactorial (fiberSizes β a) := by
  rw [← Fintype.card_subtype, Fintype.card_congr (embeddingFibers h), Fintype.card_pi,
    ← prod_coe_sort A fun a => (fiberSizes δ a).descFactorial (fiberSizes β a)]
  refine prod_congr rfl fun a _ => ?_
  rw [Fintype.card_embedding_eq, Fintype.card_subtype, Fintype.card_subtype]
  rfl

end

end Arith
