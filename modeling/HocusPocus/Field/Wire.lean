import HocusPocus.Field.Rep

/-!
# The wire format of field elements

`fe25519_pack` truncates the limbs to bytes and subtracts the prime when the bytes are those of a
number from the prime on. Its comparison loop ends at byte 2, so it never looks at byte 1: on
limbs that agree with the prime everywhere else, the subtraction runs although the number is
below the prime, and byte 1 wraps. `fe25519_freeze` compares all limbs.

* `prime_le_value_iff`: the comparison a canonical encoding needs.
* `leValue_pack`: the number `pack` writes.
* `pack_encodes_iff`: exactly when `pack` writes the canonical encoding, when `unpack` undoes it,
  and when it undoes `unpack`.
-/

namespace HocusPocus.Fe25519

open Machine Arith FieldOps

/-- Limbs 0 to 30 are bytes and limb 31 is below 128, as after `fe25519_reduce_add_sub`. -/
def ByteLimbs (x : Fe25519) : Prop := ∀ i < 32, limb x.v i ≤ if i = 31 then 127 else 255

theorem Reduced.byteLimbs {x : Fe25519} {e : Fp} (h : Reduced x e) : ByteLimbs x := by
  intro i hi
  split_ifs with h31
  · rw [h31]
    exact h.top
  · exact h.le i hi

/-- The limbs agree with the prime's wherever `fe25519_pack` compares, and differ from it in
limb 1, where it does not. -/
def MissedByte (x : Fe25519) : Prop :=
  limb x.v 31 = 127 ∧ (∀ i, 2 ≤ i → i ≤ 30 → limb x.v i = 255) ∧ 237 ≤ limb x.v 0 ∧
    limb x.v 1 ≠ 255

/-! ## Numbers from the prime on -/

/-- The largest limbs of a number below `2 ^ 255`. -/
def maxLimb (i : Nat) : Nat := if i = 31 then 127 else 255

theorem value_maxLimb : value 256 32 maxLimb = prime + 18 := by decide +kernel

theorem value_le_of_maxLimb {a : Nat → Nat} (h : ∀ i < 32, a i ≤ maxLimb i) :
    value 256 32 a ≤ prime + 18 := by
  rw [← value_maxLimb]
  exact value_mono h

/-- The number of limbs that are the largest from limb 2 on. -/
theorem value_of_middle {a : Nat → Nat} (h31 : a 31 = 127)
    (hmid : ∀ i, 2 ≤ i → i ≤ 30 → a i = 255) :
    value 256 32 a = a 0 + 256 * a 1 + (2 ^ 255 - 2 ^ 16) := by
  have hrest : value 256 30 (fun i => a (i + 1 + 1))
      = value 256 30 fun i => maxLimb (i + 1 + 1) := by
    refine value_congr fun i hi => ?_
    by_cases hlast : i = 29
    · rw [hlast, h31]
      rfl
    · rw [hmid (i + 1 + 1) (by omega) (by omega), maxLimb, if_neg (by omega)]
  have hmax : value 256 30 (fun i => maxLimb (i + 1 + 1)) = 2 ^ 239 - 1 := by decide +kernel
  rw [value_head 256 31, value_head 256 30, hrest, hmax, Nat.zero_add]
  omega

/-- The complement of the limbs from 1 on is zero when they are the largest. -/
theorem value_complement_eq_zero_iff {a : Nat → Nat} (h : ∀ i < 32, a i ≤ maxLimb i) :
    value 256 31 (fun i => maxLimb (i + 1) - a (i + 1)) = 0
      ↔ a 31 = 127 ∧ ∀ i, 1 ≤ i → i ≤ 30 → a i = 255 := by
  rw [value, Finset.sum_eq_zero_iff]
  constructor
  · intro hz
    have hlimb : ∀ i, 1 ≤ i → i ≤ 31 → maxLimb i - a i = 0 := by
      intro i h1 h31
      have hi := hz (i - 1) (Finset.mem_range.mpr (by omega))
      rw [show i - 1 + 1 = i by omega] at hi
      exact (Nat.mul_eq_zero.mp hi).resolve_right (Nat.pow_pos (by norm_num)).ne'
    refine ⟨?_, fun i h1 h30 => ?_⟩
    · have h0 := hlimb 31 (by norm_num) le_rfl
      have hle := h 31 (by norm_num)
      have hmax : maxLimb 31 = 127 := rfl
      omega
    · have h0 := hlimb i h1 (by omega)
      have hle := h i (by omega)
      have hmax : maxLimb i = 255 := if_neg (by omega)
      omega
  · rintro ⟨h31, hmid⟩ i hi
    have hi := Finset.mem_range.mp hi
    by_cases hlast : i = 30
    · rw [hlast, h31]
      rfl
    · rw [hmid (i + 1) (by omega) (by omega), show maxLimb (i + 1) = 255 from if_neg (by omega),
        Nat.sub_self, Nat.zero_mul]

/-- **Among byte limbs, those from the prime on are the ones the freeze looks for.** -/
theorem prime_le_value_iff {a : Nat → Nat} (h : ∀ i < 32, a i ≤ maxLimb i) :
    prime ≤ value 256 32 a ↔ a 31 = 127 ∧ (∀ i, 1 ≤ i → i ≤ 30 → a i = 255) ∧ 237 ≤ a 0 := by
  -- the complement to `2 ^ 255 - 1` is at most 18 exactly when only its limb 0 is nonzero
  have hcompl : value 256 32 a + value 256 32 (fun i => maxLimb i - a i) = prime + 18 := by
    rw [← value_maxLimb, ← value_add]
    refine value_congr fun i hi => ?_
    have := h i hi
    omega
  have hhead : value 256 32 (fun i => maxLimb i - a i)
      = (255 - a 0) + 256 * value 256 31 (fun i => maxLimb (i + 1) - a (i + 1)) :=
    value_head 256 31 _
  have hrest := value_complement_eq_zero_iff h
  have h0 : a 0 ≤ 255 := h 0 (by norm_num)
  constructor
  · intro hle
    obtain ⟨h31, hmid⟩ := hrest.mp (by omega)
    exact ⟨h31, hmid, by omega⟩
  · rintro ⟨h31, hmid, hge⟩
    have := hrest.mpr ⟨h31, hmid⟩
    omega

/-! ## What `pack` writes -/

section

variable {x : Fe25519}

/-- The comparison `fe25519_pack` makes. -/
def packTest (a : Nat → Nat) : Bool :=
  (a 31 == 127) && (List.range 29).all (fun j => a (30 - j) == 255) && (237 ≤ a 0 : Bool)

theorem packTest_iff {a : Nat → Nat} :
    packTest a = true ↔ a 31 = 127 ∧ (∀ i, 2 ≤ i → i ≤ 30 → a i = 255) ∧ 237 ≤ a 0 := by
  simp only [packTest, Bool.and_eq_true, beq_iff_eq, List.all_eq_true, List.mem_range,
    decide_eq_true_eq, and_assoc]
  refine and_congr_right fun _ => and_congr_left fun _ => ⟨fun h i h2 h30 => ?_, fun h j hj => ?_⟩
  · have := h (30 - i) (by omega)
    rwa [show 30 - (30 - i) = i by omega] at this
  · exact h (30 - j) (by omega) (by omega)

theorem toNat_limbBytes (hx : ByteLimbs x) {i : Nat} (hi : i < 32) :
    (limbBytes x)[i].toNat = limb x.v i := by
  have hle : limb x.v i ≤ 255 := (hx i hi).trans (by split_ifs <;> omega)
  rw [limbBytes, Vector.getElem_map, ← limb_eq x.v hi, UInt8.toNat_ofNat']
  omega

theorem packMask_eq {r : Vector UInt8 32} {a : Nat → Nat}
    (h : ∀ (i : Nat) (hi : i < 32), r[i].toNat = a i) :
    packMask r = if packTest a then 1 else 0 := by
  have hbyte : ∀ (i : Nat) (hi : i < 32) (c : UInt8), r[i] = c ↔ a i = c.toNat := by
    intro i hi c
    rw [← h i hi]
    exact UInt8.toNat_inj.symm
  have hloop : ∀ k (hk : k ≤ 29),
      (Fin.foldl k (fun (m : UInt8) j => m * if r[30 - j.val] = (255 : UInt8) then 1 else 0)
        (if r[31] = 127 then 1 else 0))
      = if (a 31 == 127) && (List.range k).all fun j => a (30 - j) == 255 then 1 else 0 := by
    intro k hk
    induction k with
    | zero =>
      rw [List.range_zero, List.all_nil, Bool.and_true]
      simp only [Fin.foldl_zero, hbyte 31 (by norm_num), beq_iff_eq]
      rfl
    | succ k ih =>
      rw [Fin.foldl_succ_last, List.range_succ, List.all_append, ← Bool.and_assoc]
      have ih := ih (by omega)
      simp only [Fin.val_castSucc, Fin.val_last] at ih ⊢
      rw [ih]
      have hk' := hbyte (30 - k) (by omega) 255
      by_cases hlast : a (30 - k) = 255
      · rw [if_pos (hk'.mpr hlast), UInt8.mul_one]
        simp [hlast]
      · rw [if_neg (fun e => hlast (hk'.mp e)), UInt8.mul_zero]
        simp [hlast]
  have h0 : (237 : UInt8) ≤ r[0] ↔ 237 ≤ a 0 := by
    rw [UInt8.le_iff_toNat_le, h 0 (by norm_num)]
    rfl
  have hall := hloop 29 le_rfl
  unfold packMask packTest
  simp only at hall ⊢
  rw [hall]
  by_cases hge : 237 ≤ a 0
  · rw [if_pos (h0.mpr hge), UInt8.mul_one]
    simp [hge]
  · rw [if_neg (fun e => hge (h0.mp e)), UInt8.mul_zero]
    simp [hge]

theorem getElem_pack (x : Fe25519) {i : Nat} (hi : i < 32) :
    (pack x)[i] = (limbBytes x)[i] - packMask (limbBytes x) * UInt8.ofNat (primeLimb i) := by
  have hget : (pack x)[i] = if i = 31 then (limbBytes x)[31] - packMask (limbBytes x) * 127
      else if i = 0 then (limbBytes x)[0] - packMask (limbBytes x) * 237
      else (limbBytes x)[i] - packMask (limbBytes x) * 255 := Vector.getElem_ofFn hi
  rw [hget]
  unfold primeLimb
  split_ifs with h31 h0
  · subst h31
    rfl
  · subst h0
    rfl
  · rfl

/-- **The number `pack` writes.** -/
theorem leValue_pack (hx : ByteLimbs x) :
    leValue (pack x)
      = if packTest (limb x.v) then limb x.v 0 - 237 + 256 * ((limb x.v 1 + 1) % 256)
        else value 256 32 (limb x.v) := by
  have hmask := packMask_eq (r := limbBytes x) fun i hi => toNat_limbBytes hx hi
  cases htest : packTest (limb x.v) with
  | false =>
    rw [if_neg (by simp)]
    refine value_congr fun i hi => ?_
    rw [dif_pos hi, getElem_pack x hi, hmask, htest, if_neg (by simp), UInt8.zero_mul,
      UInt8.sub_zero]
    exact toNat_limbBytes hx hi
  | true =>
    obtain ⟨h31, hmid, h0⟩ := packTest_iff.mp htest
    have hbyte : ∀ (i : Nat) (hi : i < 32),
        (pack x)[i].toNat = (256 - primeLimb i + limb x.v i) % 256 := by
      intro i hi
      have hp : primeLimb i < 256 := by
        unfold primeLimb
        split_ifs <;> omega
      rw [getElem_pack x hi, hmask, htest, if_pos rfl, UInt8.one_mul, UInt8.toNat_sub,
        toNat_limbBytes hx hi, UInt8.toNat_ofNat']
      omega
    have hzero : value 256 30 (fun i => if h : i + 1 + 1 < 32 then (pack x)[i + 1 + 1].toNat else 0)
        = value 256 30 fun _ => 0 := by
      refine value_congr fun i hi => ?_
      rw [dif_pos (by omega), hbyte (i + 1 + 1) (by omega)]
      by_cases hlast : i + 1 + 1 = 31
      · rw [hlast, h31]
        rfl
      · rw [hmid (i + 1 + 1) (by omega) (by omega),
          show primeLimb (i + 1 + 1) = 255 by
            unfold primeLimb; rw [if_neg hlast, if_neg (by omega)]]
    have hle : limb x.v 0 ≤ 255 := hx 0 (by norm_num)
    have hb0 := hbyte 0 (by norm_num)
    have hb1 := hbyte 1 (by norm_num)
    rw [show primeLimb 0 = 237 from rfl] at hb0
    rw [show primeLimb 1 = 255 from rfl] at hb1
    rw [if_pos rfl, leValue, value_head 256 31, value_head 256 30, hzero, dif_pos (by norm_num),
      dif_pos (by norm_num), hb0, hb1]
    have hnil : value 256 30 (fun _ => 0) = 0 := by simp [value]
    rw [hnil]
    omega

/-! ## When the format is canonical -/

theorem missedByte_iff : MissedByte x ↔ packTest (limb x.v) = true ∧ limb x.v 1 ≠ 255 := by
  rw [packTest_iff]
  unfold MissedByte
  tauto

/-- The number of limbs with a missed byte. -/
theorem MissedByte.value_eq (h : MissedByte x) :
    value 256 32 (limb x.v) = limb x.v 0 + 256 * limb x.v 1 + (2 ^ 255 - 2 ^ 16) :=
  value_of_middle h.1 h.2.1

/-- Away from the missed byte, `pack` writes the canonical residue. -/
theorem leValue_pack_of_not_missed (hx : ByteLimbs x) (h : ¬ MissedByte x) :
    leValue (pack x) = value 256 32 (limb x.v) % prime := by
  have hmax : ∀ i < 32, limb x.v i ≤ maxLimb i := hx
  have hge := prime_le_value_iff hmax
  rw [missedByte_iff] at h
  rw [leValue_pack hx]
  cases htest : packTest (limb x.v) with
  | false =>
    have hsmall : value 256 32 (limb x.v) < prime := by
      by_contra hle
      obtain ⟨h31, hmid, h0⟩ := hge.mp (by omega)
      have := packTest_iff.mpr ⟨h31, fun i h2 h30 => hmid i (by omega) h30, h0⟩
      rw [htest] at this
      exact absurd this (by simp)
    rw [if_neg (by simp), Nat.mod_eq_of_lt hsmall]
  | true =>
    have h1 : limb x.v 1 = 255 := by
      by_contra hne
      exact h ⟨htest, hne⟩
    obtain ⟨h31, hmid, h0⟩ := packTest_iff.mp htest
    have hvalue := value_of_middle h31 hmid
    have hle := value_le_of_maxLimb hmax
    have hp := prime_add
    have hmod : value 256 32 (limb x.v) % prime = value 256 32 (limb x.v) - prime := by
      rw [Nat.mod_eq_sub_mod (by omega), Nat.mod_eq_of_lt (by omega)]
    rw [if_pos rfl, h1, hmod]
    omega

/-- On the missed byte, `pack` writes two bytes of a number that has more. -/
theorem leValue_pack_of_missed (hx : ByteLimbs x) (h : MissedByte x) :
    leValue (pack x) < value 256 32 (limb x.v) ∧ value 256 32 (limb x.v) < prime := by
  obtain ⟨htest, h1⟩ := missedByte_iff.mp h
  obtain ⟨h31, hmid, h0, -⟩ := h
  constructor
  · have hle : limb x.v 0 ≤ 255 := hx 0 (by norm_num)
    have htop : limb x.v 31 * 256 ^ 31 ≤ value 256 32 (limb x.v) := by
      rw [value_succ 256 31]
      exact Nat.le_add_left _ _
    rw [leValue_pack hx, if_pos htest]
    omega
  · by_contra hge
    obtain ⟨-, hall, -⟩ := (prime_le_value_iff hx).mp (by omega)
    exact h1 (hall 1 le_rfl (by norm_num))

/-- **`pack` writes the canonical residue exactly away from the missed byte.** -/
theorem leValue_pack_eq_iff (hx : ByteLimbs x) :
    leValue (pack x) = value 256 32 (limb x.v) % prime ↔ ¬ MissedByte x := by
  constructor
  · intro heq h
    obtain ⟨hlt, hprime⟩ := leValue_pack_of_missed hx h
    rw [Nat.mod_eq_of_lt hprime] at heq
    omega
  · exact leValue_pack_of_not_missed hx

theorem value_limb_unpack (b : Bytes32) :
    value 256 32 (limb (unpack b : Fe25519).v) = leValue b % 2 ^ 255 := by
  rw [← limbsNat_unpackLimbs, limbsNat]
  exact value_congr fun i _ => limb_ofLimbs _ i

theorem byteLimbs_unpack (b : Bytes32) : ByteLimbs (unpack b) := (reduced_unpack b).byteLimbs

/-- The element read back from what `pack` wrote. -/
theorem residue_unpack_pack (hx : ByteLimbs x) :
    residue (unpack (pack x)) = (leValue (pack x) : Fp) := by
  have hle : value 256 32 (limb x.v) ≤ prime + 18 := value_le_of_maxLimb hx
  have hp := prime_add
  have hlt : leValue (pack x) < 2 ^ 255 := by
    by_cases h : MissedByte x
    · have := leValue_pack_of_missed hx h
      omega
    · rw [leValue_pack_of_not_missed hx h]
      exact (Nat.mod_lt _ prime_prime.pos).trans (by omega)
  rw [residue, value_limb_unpack, Nat.mod_eq_of_lt hlt]

theorem residue_unpack_pack_iff (hx : ByteLimbs x) :
    residue (unpack (pack x)) = residue x ↔ ¬ MissedByte x := by
  rw [residue_unpack_pack hx, residue]
  constructor
  · intro heq h
    obtain ⟨hlt, hprime⟩ := leValue_pack_of_missed hx h
    have := (ZMod.natCast_eq_natCast_iff' _ _ _).mp heq
    rw [Nat.mod_eq_of_lt (hlt.trans hprime), Nat.mod_eq_of_lt hprime] at this
    omega
  · intro h
    rw [leValue_pack_of_not_missed hx h, ZMod.natCast_mod]

theorem pack_unpack_iff {b : Bytes32} (hb : leValue b < prime) :
    pack (unpack b) = b ↔ ¬ MissedByte (unpack b) := by
  have hbound : prime < 2 ^ 255 := by
    have := prime_add
    omega
  have hval : value 256 32 (limb (unpack b : Fe25519).v) % prime = leValue b := by
    rw [value_limb_unpack, Nat.mod_eq_of_lt (hb.trans hbound), Nat.mod_eq_of_lt hb]
  rw [← leValue_pack_eq_iff (byteLimbs_unpack b), hval]
  exact leValue_injective.eq_iff.symm

end

/-- **The wire format is canonical exactly away from the missed byte**: `pack` writes the residue
below the prime, `unpack` reads the element back, and `pack` writes a canonical string back. -/
theorem pack_encodes_iff (x : Fe25519) (b : Bytes32) (hx : ByteLimbs x) (hb : leValue b < prime) :
    (leValue (pack x) = value 256 32 (limb x.v) % prime ↔ ¬ MissedByte x) ∧
      (residue (unpack (pack x)) = residue x ↔ ¬ MissedByte x) ∧
      (pack (unpack b) = b ↔ ¬ MissedByte (unpack b)) :=
  ⟨leValue_pack_eq_iff hx, residue_unpack_pack_iff hx, pack_unpack_iff hb⟩

/-- The canonical string whose byte 1 is 0 and which agrees with the prime everywhere else. -/
def missedBytes : Bytes32 :=
  Vector.ofFn fun i : Fin 32 =>
    if i.val = 31 then 127 else if i.val = 0 then 237 else if i.val = 1 then 0 else 255

theorem missedByte_missedBytes : MissedByte (unpack missedBytes) := by
  refine ⟨by decide +kernel, fun i h2 h30 => ?_, by decide +kernel, by decide +kernel⟩
  have hall : ∀ i ∈ List.range 31, 2 ≤ i → limb (unpack missedBytes : Fe25519).v i = 255 := by
    decide +kernel
  exact hall i (List.mem_range.mpr (by omega)) h2

theorem pack_encodes_iff_example :
    ByteLimbs (unpack missedBytes) ∧ leValue (leBytes 32 1) < prime ∧
      (leValue (pack (unpack missedBytes))
          = value 256 32 (limb (unpack missedBytes : Fe25519).v) % prime
        ↔ ¬ MissedByte (unpack missedBytes)) ∧
      (residue (unpack (pack (unpack missedBytes))) = residue (unpack missedBytes)
        ↔ ¬ MissedByte (unpack missedBytes)) ∧
      (pack (unpack (leBytes 32 1)) = leBytes 32 1 ↔ ¬ MissedByte (unpack (leBytes 32 1))) := by
  have hb : leValue (leBytes 32 1) < prime := by decide +kernel
  exact ⟨byteLimbs_unpack _, hb, pack_encodes_iff _ _ (byteLimbs_unpack _) hb⟩

/-- **The canonical string `missedBytes` is not written back**: the format fails on a number the
reader accepts. -/
theorem pack_missedBytes :
    ByteLimbs (unpack missedBytes) ∧ leValue missedBytes < prime ∧
      leValue (pack (unpack missedBytes))
        ≠ value 256 32 (limb (unpack missedBytes : Fe25519).v) % prime ∧
      residue (unpack (pack (unpack missedBytes))) ≠ residue (unpack missedBytes) ∧
      pack (unpack missedBytes) ≠ missedBytes := by
  have hx := byteLimbs_unpack missedBytes
  have hb : leValue missedBytes < prime := by decide +kernel
  have hmissed := missedByte_missedBytes
  refine ⟨hx, hb, fun h => (leValue_pack_eq_iff hx).mp h hmissed,
    fun h => (residue_unpack_pack_iff hx).mp h hmissed, fun h => (pack_unpack_iff hb).mp h hmissed⟩

end HocusPocus.Fe25519
