import HocusPocus.Oprf.Model

/-!
# The challenge of `eval` (phase 5)

The client draws indices until `k` distinct ones are there.

* `drawChallenge_isSome_iff`: the loop ends within `fuel` draws exactly when the first `fuel`
  indices of the stream have `k` distinct ones among them.
* `drawChallenge_spec`: it ends with `k` distinct indices below `len_com`.
-/

namespace HocusPocus.OPRF

open Machine Finset

variable {lenCom k : Nat}

/-- The `j`-th index of the stream. -/
def index (lenCom : Nat) (prng : Prng) (j : Nat) : Nat := (prng.skip (4 * j)).getU32.1 % lenCom

/-- The indices of the first `n` draws. -/
def indices (lenCom : Nat) (prng : Prng) (n : Nat) : Finset Nat :=
  (range n).image (index lenCom prng)

theorem index_skip (prng : Prng) (j : Nat) :
    index lenCom (prng.skip 4) j = index lenCom prng (j + 1) := by
  rw [index, index, Prng.skip_skip, Nat.mul_succ, Nat.add_comm]

theorem indices_succ (prng : Prng) (n : Nat) :
    indices lenCom prng (n + 1)
      = insert (index lenCom prng 0) (indices lenCom (prng.skip 4) n) := by
  have himage : indices lenCom (prng.skip 4) n
      = (range n).image fun j => index lenCom prng (j + 1) :=
    congrArg (fun f => (range n).image f) (funext (index_skip prng))
  rw [himage]
  ext i
  simp only [indices, mem_image, mem_range, mem_insert]
  constructor
  · rintro ⟨j, hj, rfl⟩
    cases j with
    | zero => exact Or.inl rfl
    | succ j => exact Or.inr ⟨j, by omega, rfl⟩
  · rintro (rfl | ⟨j, hj, rfl⟩)
    · exact ⟨0, by omega, rfl⟩
    · exact ⟨j + 1, by omega, rfl⟩

/-- One round of the loop. -/
theorem drawChallenge_succ {c : List Nat} (h : c.length < k) (fuel : Nat) (prng : Prng) :
    drawChallenge lenCom k (fuel + 1) c prng
      = drawChallenge lenCom k fuel
          (if index lenCom prng 0 ∈ c then c else c ++ [index lenCom prng 0]) (prng.skip 4) := by
  have hidx : prng.getU32.1 % lenCom = index lenCom prng 0 := rfl
  rw [drawChallenge, if_pos h]
  simp only [hidx, List.contains_iff_mem]
  by_cases hmem : index lenCom prng 0 ∈ c
  · rw [if_pos hmem, if_pos hmem]
    rfl
  · rw [if_neg hmem, if_neg hmem]
    rfl

theorem drawChallenge_done {c : List Nat} (h : ¬ c.length < k) (fuel : Nat) (prng : Prng) :
    drawChallenge lenCom k fuel c prng = some (c, prng) := by
  cases fuel with
  | zero => rw [drawChallenge, if_neg h]
  | succ fuel => rw [drawChallenge, if_neg h]

/-- The next list of the loop. -/
theorem nodup_next {c : List Nat} (hc : c.Nodup) (i : Nat) :
    (if i ∈ c then c else c ++ [i]).Nodup ∧
      (if i ∈ c then c else c ++ [i]).toFinset = insert i c.toFinset := by
  by_cases hmem : i ∈ c
  · rw [if_pos hmem]
    exact ⟨hc, (insert_eq_of_mem (List.mem_toFinset.mpr hmem)).symm⟩
  · rw [if_neg hmem]
    constructor
    · rw [List.nodup_append]
      refine ⟨hc, List.nodup_singleton i, ?_⟩
      rintro j hj j' hj' rfl
      rw [List.mem_singleton] at hj'
      exact hmem (hj' ▸ hj)
    · rw [List.toFinset_append, union_comm]
      rfl

/-- One round of the loop, as sets: the next list and the later indices. -/
theorem union_next {c : List Nat} (hc : c.Nodup) (prng : Prng) (n : Nat) :
    (if index lenCom prng 0 ∈ c then c else c ++ [index lenCom prng 0]).toFinset
        ∪ indices lenCom (prng.skip 4) n
      = c.toFinset ∪ indices lenCom prng (n + 1) := by
  rw [(nodup_next hc (index lenCom prng 0)).2, indices_succ, insert_union, union_insert]

theorem le_card_union {c : List Nat} (hc : c.Nodup) (s : Finset Nat) :
    c.length ≤ (c.toFinset ∪ s).card := by
  rw [← List.toFinset_card_of_nodup hc]
  exact card_le_card subset_union_left

theorem drawChallenge_isSome_iff_of_nodup (fuel : Nat) {c : List Nat} (hc : c.Nodup)
    (prng : Prng) : (drawChallenge lenCom k fuel c prng).isSome = true ↔
      k ≤ (c.toFinset ∪ indices lenCom prng fuel).card := by
  by_cases hlt : c.length < k
  · induction fuel generalizing c prng with
    | zero =>
      have hcard : (c.toFinset ∪ indices lenCom prng 0).card = c.length := by
        rw [indices, range_zero, image_empty, union_empty, List.toFinset_card_of_nodup hc]
      rw [drawChallenge, if_pos hlt, hcard, Option.isSome_none]
      constructor
      · rintro ⟨⟩
      · exact fun h => absurd h (by omega)
    | succ fuel ih =>
      have hnodup := (nodup_next hc (index lenCom prng 0)).1
      rw [drawChallenge_succ hlt, ← union_next hc]
      by_cases hnext :
          (if index lenCom prng 0 ∈ c then c else c ++ [index lenCom prng 0]).length < k
      · exact ih hnodup (prng.skip 4) hnext
      · have hle := le_card_union hnodup (indices lenCom (prng.skip 4) fuel)
        rw [drawChallenge_done hnext]
        exact ⟨fun _ => by omega, fun _ => rfl⟩
  · have hle := le_card_union hc (indices lenCom prng fuel)
    rw [drawChallenge_done hlt]
    exact ⟨fun _ => by omega, fun _ => rfl⟩

/-- **The loop ends exactly when the stream has `k` distinct indices** among the first `fuel`. -/
theorem drawChallenge_isSome_iff (fuel : Nat) (prng : Prng) :
    (drawChallenge lenCom k fuel [] prng).isSome = true ↔
      k ≤ (indices lenCom prng fuel).card := by
  rw [drawChallenge_isSome_iff_of_nodup fuel List.nodup_nil prng, List.toFinset_nil, empty_union]

/-- **What the loop ends with**: `k` distinct indices below `len_com`. -/
theorem drawChallenge_spec (hlen : 0 < lenCom) {fuel : Nat} {c c' : List Nat} {prng prng' : Prng}
    (hc : c.Nodup) (hk : c.length ≤ k) (hlt : ∀ i ∈ c, i < lenCom)
    (h : drawChallenge lenCom k fuel c prng = some (c', prng')) :
    c'.Nodup ∧ c'.length = k ∧ ∀ i ∈ c', i < lenCom := by
  induction fuel generalizing c prng with
  | zero =>
    by_cases hdone : c.length < k
    · rw [drawChallenge, if_pos hdone] at h
      cases h
    · rw [drawChallenge_done hdone] at h
      cases h
      exact ⟨hc, by omega, hlt⟩
  | succ fuel ih =>
    by_cases hdone : c.length < k
    · rw [drawChallenge_succ hdone] at h
      refine ih (nodup_next hc _).1 ?_ ?_ h
      · split_ifs
        · exact hk
        · rw [List.length_append, List.length_singleton]
          exact hdone
      · intro i hi
        split_ifs at hi
        · exact hlt i hi
        · rcases List.mem_append.mp hi with hi | hi
          · exact hlt i hi
          · rw [List.mem_singleton.mp hi]
            exact Nat.mod_lt _ hlen
    · rw [drawChallenge_done hdone] at h
      cases h
      exact ⟨hc, by omega, hlt⟩

/-- Index `j` is drawn while the loop, started from `c`, still lacks indices. -/
def Drawn (lenCom k : Nat) (c : List Nat) (prng : Prng) (j : Nat) : Prop :=
  (c.toFinset ∪ indices lenCom prng j).card < k

theorem not_drawn {c : List Nat} (hc : c.Nodup) (h : ¬ c.length < k) (prng : Prng) (j : Nat) :
    ¬ Drawn lenCom k c prng j :=
  fun hj => h ((le_card_union hc _).trans_lt hj)

theorem drawn_zero {c : List Nat} (hc : c.Nodup) (h : c.length < k) (prng : Prng) :
    Drawn lenCom k c prng 0 := by
  unfold Drawn indices
  rw [range_zero, image_empty, union_empty, List.toFinset_card_of_nodup hc]
  exact h

theorem drawn_succ {c : List Nat} (hc : c.Nodup) (prng : Prng) (j : Nat) :
    Drawn lenCom k c prng (j + 1) ↔
      Drawn lenCom k (if index lenCom prng 0 ∈ c then c else c ++ [index lenCom prng 0])
        (prng.skip 4) j := by
  unfold Drawn
  rw [union_next hc]

/-- **The members of the list the loop ends with**: those it started from and the indices it has
drawn. -/
theorem mem_drawChallenge {fuel i : Nat} {c c' : List Nat} {prng prng' : Prng} (hc : c.Nodup)
    (h : drawChallenge lenCom k fuel c prng = some (c', prng')) :
    i ∈ c' ↔ i ∈ c ∨ ∃ j, Drawn lenCom k c prng j ∧ index lenCom prng j = i := by
  by_cases hlt : c.length < k
  · induction fuel generalizing c prng with
    | zero =>
      rw [drawChallenge, if_pos hlt] at h
      cases h
    | succ fuel ih =>
      obtain ⟨hnodup, hset⟩ := nodup_next hc (index lenCom prng 0)
      have hmem : i ∈ (if index lenCom prng 0 ∈ c then c else c ++ [index lenCom prng 0]) ↔
          index lenCom prng 0 = i ∨ i ∈ c := by
        rw [← List.mem_toFinset, hset, mem_insert, List.mem_toFinset, eq_comm]
      have hlater : (i ∈ (if index lenCom prng 0 ∈ c then c else c ++ [index lenCom prng 0]) ∨
          ∃ j, Drawn lenCom k c prng (j + 1) ∧ index lenCom prng (j + 1) = i) ↔
          i ∈ c ∨ ∃ j, Drawn lenCom k c prng j ∧ index lenCom prng j = i := by
        rw [hmem]
        constructor
        · rintro ((hi | hi) | ⟨j, hj, hi⟩)
          · exact Or.inr ⟨0, drawn_zero hc hlt prng, hi⟩
          · exact Or.inl hi
          · exact Or.inr ⟨j + 1, hj, hi⟩
        · rintro (hi | ⟨j, hj, hi⟩)
          · exact Or.inl (Or.inr hi)
          · cases j with
            | zero => exact Or.inl (Or.inl hi)
            | succ j => exact Or.inr ⟨j, hj, hi⟩
      rw [drawChallenge_succ hlt] at h
      rw [← hlater]
      simp only [drawn_succ hc, ← index_skip]
      by_cases hnext :
          (if index lenCom prng 0 ∈ c then c else c ++ [index lenCom prng 0]).length < k
      · exact ih hnodup h hnext
      · rw [drawChallenge_done hnext] at h
        cases h
        simp [not_drawn hnodup hnext]
  · rw [drawChallenge_done hlt] at h
    cases h
    simp [not_drawn hc hlt]

/-- **The challenge as bytes** reads inside `offsets` and gives the indices back. -/
theorem challenge_fits {F : Type} {o : OPRF F} {c : List Nat}
    (hoffsets : o.offsets.length = o.lenCom + o.lenEval) (hbyte : o.lenCom ≤ 256)
    (hlen : c.length = o.k) (hlt : ∀ i ∈ c, i < o.lenCom) :
    o.zk.offsetsFit o.offsets (c.map UInt8.ofNat) = true ∧
      ∀ i < o.k, ((c.map UInt8.ofNat).getD i 0).toNat = c.getD i 0 ∧ c.getD i 0 < o.lenCom := by
  have hread : ∀ i < o.k,
      ((c.map UInt8.ofNat).getD i 0).toNat = c.getD i 0 ∧ c.getD i 0 < o.lenCom := by
    intro i hi
    have hic : i < c.length := by omega
    have hci := hlt _ (List.getElem_mem hic)
    rw [List.getD_eq_getElem _ _ (by simpa using hic), List.getD_eq_getElem _ _ hic,
      List.getElem_map, UInt8.toNat_ofNat']
    exact ⟨Nat.mod_eq_of_lt (by omega), hci⟩
  refine ⟨?_, hread⟩
  have heval : o.zk.leval = o.lenEval := rfl
  have hk : o.zk.k = o.k := rfl
  rw [ZkParams.offsetsFit, Bool.and_eq_true, decide_eq_true_eq, List.all_eq_true]
  refine ⟨by omega, fun i hi => ?_⟩
  obtain ⟨hbyte, hlt⟩ := hread i (List.mem_range.mp hi)
  rw [decide_eq_true_eq, hbyte]
  omega

end HocusPocus.OPRF
