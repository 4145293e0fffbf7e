import HocusPocus.Oprf.KeyGuard

/-!
# The server key of `main.cpp`

The command line program copies the characters of the key into limbs through `static_cast`. A
`char` is signed on the x86-64 targets of the repository, so a byte from 128 on arrives as a
negative number, that is, as a limb close to `2 ^ 32`.

* `FieldKey`: the limbs hold the bytes of the string, and every phase of `blindedEval` computes with
  the number they spell.
* `fieldKey_iff`: this is so exactly for the strings of 7-bit characters.
-/

namespace HocusPocus.Main

open Machine Arith FieldOps Fe25519 FastResidue

/-- `static_cast<uint32_t>(c)` of a signed `char`. -/
def charLimb (c : UInt8) : U32 :=
  Word.lit 32 (if c.toNat < 128 then c.toNat else 2 ^ 32 - 256 + c.toNat)

/-- `server_key`: `setzero()`, then one limb for each of the first 32 characters. -/
def serverKey (serverKeyStr : Bytes) : Fe25519 :=
  ⟨(List.range (min serverKeyStr.length 32)).foldl
    (fun v i => v.setIfInBounds i (charLimb (serverKeyStr.getD i 0))) (setZero : Fe25519).v⟩

/-- The little-endian number of the first 32 bytes. -/
def keyNumber (serverKeyStr : Bytes) : Nat :=
  value 256 (min serverKeyStr.length 32) fun i => (serverKeyStr.getD i 0).toNat

/-- The phases of `blindedEval` all work with the key `K`, and nothing wraps on the way: the lazy
sums, `u`, the powers behind the symbols `e`, the openings `m` and the witness. -/
structure UsesKey (o : OPRF Fe25519) (Key : Fe25519) (K : Fp) : Prop where
  sum : ∀ i, Exact (Key + o.offset i).v ∧ residue (Key + o.offset i) = K + residue (o.offset i)
  u : ∀ prng i, Exact (o.serverU Key (OPRF.serverV prng) i).v ∧
    residue (o.serverU Key (OPRF.serverV prng) i)
      = (K + residue (o.offset i)) * residue (OPRF.serverV prng i : Fe25519)
  e : ∀ i, Exact (powD (Key + o.offset i)).v ∧
    residue (powD (Key + o.offset i)) = (K + residue (o.offset i)) ^ powDExp
  m : ∀ prng c i, Exact (o.serverOpening Key (o.serverB prng) c i).v ∧
    residue (o.serverOpening Key (o.serverB prng) c i)
      = residue (o.serverB prng i)
        * (K + residue (o.offset (o.lenEval + (c.getD i 0).toNat)))
  witness : ∀ v b ru rv, residue ((o.witness Key v b ru rv).getD 0 setZero) = K

/-- The typed key is a field element. -/
structure FieldKey (o : OPRF Fe25519) (serverKeyStr : Bytes) : Prop where
  le : ∀ i < 31, limb (serverKey serverKeyStr).v i ≤ 255
  top : limb (serverKey serverKeyStr).v 31 ≤ 255
  value_eq : value 256 32 (limb (serverKey serverKeyStr).v) = keyNumber serverKeyStr
  usesKey : UsesKey o (serverKey serverKeyStr) (keyNumber serverKeyStr : Fp)

/-! ## The limbs -/

variable {o : OPRF Fe25519} {str : Bytes}

/-- The number of a character's limb. -/
def charNumber (c : UInt8) : Nat := if c.toNat < 128 then c.toNat else 2 ^ 32 - 256 + c.toNat

theorem charLimb_is (c : UInt8) : (charLimb c).Is (charNumber c) := by
  have hc := c.toNat_lt
  refine Word.is_lit ?_
  split_ifs <;> omega

theorem serverKey_holds (str : Bytes) :
    Holds (serverKey str).v fun i =>
      if i < min str.length 32 then charNumber (str.getD i 0) else 0 := by
  intro i hi
  unfold serverKey
  rw [getElem_foldl_set _ (fun i => charLimb (str.getD i 0)) _ hi]
  simp only
  split_ifs with h
  · exact charLimb_is _
  · exact rep_setZero.exact.holds i hi |>.congr (Nat.le_zero.mp (rep_setZero.le i hi))

theorem limb_serverKey (str : Bytes) {i : Nat} (hi : i < 32) :
    limb (serverKey str).v i = if i < min str.length 32 then charNumber (str.getD i 0) else 0 :=
  (serverKey_holds str).limb_eq hi

/-- A 7-bit character is its own limb. -/
theorem charNumber_of_lt {c : UInt8} (h : c.toNat < 128) : charNumber c = c.toNat := if_pos h

/-- A byte from 128 on is a limb close to `2 ^ 32`. -/
theorem charNumber_of_ge {c : UInt8} (h : 128 ≤ c.toNat) : 255 < charNumber c := by
  unfold charNumber
  rw [if_neg (by omega)]
  omega

/-- The first 32 characters, by position. -/
theorem forall_mem_take {p : UInt8 → Prop} :
    (∀ c ∈ str.take 32, p c) ↔ ∀ i < min str.length 32, p (str.getD i 0) := by
  rw [List.forall_mem_iff_forall_getElem]
  constructor
  · intro h i hi
    have hlen : i < (str.take 32).length := by
      rw [List.length_take]
      omega
    have hget := h i hlen
    rw [List.getElem_take] at hget
    rwa [List.getD_eq_getElem _ _ (by omega)]
  · intro h i hi
    rw [List.length_take] at hi
    have hget := h i (by omega)
    rw [List.getElem_take]
    rwa [List.getD_eq_getElem _ _ (by omega)] at hget

/-! ## Keys of 7-bit characters -/

section

variable (hstr : ∀ c ∈ str.take 32, c.toNat < 128)

include hstr

theorem limb_serverKey_of_ascii {i : Nat} (hi : i < 32) :
    limb (serverKey str).v i = if i < min str.length 32 then (str.getD i 0).toNat else 0 := by
  rw [limb_serverKey str hi]
  split_ifs with h
  · exact charNumber_of_lt (forall_mem_take.mp hstr i h)
  · rfl

theorem limb_serverKey_le {i : Nat} (hi : i < 32) : limb (serverKey str).v i ≤ 127 := by
  rw [limb_serverKey_of_ascii hstr hi]
  split_ifs with h
  · exact Nat.le_of_lt_succ (forall_mem_take.mp hstr i h)
  · exact Nat.zero_le _

theorem value_serverKey : value 256 32 (limb (serverKey str).v) = keyNumber str := by
  have hsplit : 32 = min str.length 32 + (32 - min str.length 32) := by omega
  have hhigh : value 256 (32 - min str.length 32)
      (fun i => limb (serverKey str).v (min str.length 32 + i)) = 0 := by
    unfold value
    refine Finset.sum_eq_zero fun i hi => ?_
    have hi := Finset.mem_range.mp hi
    beta_reduce
    rw [limb_serverKey_of_ascii hstr (by omega), if_neg (by omega), zero_mul]
  rw [hsplit, value_split, hhigh, mul_zero, add_zero]
  refine value_congr fun i hi => ?_
  rw [limb_serverKey_of_ascii hstr (by omega), if_pos hi]

theorem rep_serverKey : Rep 127 (serverKey str) (keyNumber str : Fp) where
  exact := (serverKey_holds str).exact
  le _ hi := limb_serverKey_le hstr hi
  residue_eq := by rw [residue, value_serverKey hstr]

/-- With reduced offsets every phase uses the number of the key. -/
theorem usesKey_of_ascii (ho : ∀ x ∈ o.offsets, x.IsReduced) :
    UsesKey o (serverKey str) (keyNumber str : Fp) := by
  have hKey : Rep 255 (serverKey str) (keyNumber str : Fp) :=
    (rep_serverKey hstr).mono (by norm_num)
  have hsum := OPRF.key_sum_rep ho hKey
  refine ⟨fun i => ⟨(hsum i).exact, (hsum i).residue_eq⟩, fun prng i => ?_, fun i => ?_,
    fun prng c i => ?_, fun v b ru rv => hKey.residue_eq⟩
  · have hu := OPRF.serverU_rep ho hKey prng i
    exact ⟨hu.exact, hu.residue_eq⟩
  · have hpow := powD_rep (hsum i)
    exact ⟨hpow.exact, hpow.residue_eq⟩
  · have hm := (OPRF.fastPowEps_draw_rep prng (o.lenEval + 2 + i)).mul
      (hsum (o.lenEval + (c.getD i 0).toNat)) (by norm_num)
    exact ⟨hm.exact, hm.residue_eq⟩

end

/-- **Which typed keys are field elements**: those of 7-bit characters, whatever their length. -/
theorem fieldKey_iff {expand : Block → Nat → UInt8} {fuel lenEval lenCom k stat bits : Nat}
    (ho : OPRF.new expand fuel lenEval lenCom k stat bits = some o) (str : Bytes) :
    FieldKey o str ↔ ∀ c ∈ str.take 32, c.toNat < 128 := by
  constructor
  · intro h
    refine forall_mem_take.mpr fun i hi => ?_
    by_contra hge
    have hbig := charNumber_of_ge (not_lt.mp hge)
    have hlimb := limb_serverKey str (i := i) (by omega)
    rw [if_pos hi] at hlimb
    rcases Nat.lt_or_ge i 31 with hlt | hge
    · have := h.le i hlt
      omega
    · obtain rfl : i = 31 := by omega
      have := h.top
      omega
  · intro hstr
    obtain ⟨n, hkept⟩ := OPRF.new_kept ho
    have hreduced : ∀ x ∈ o.offsets, x.IsReduced := by
      intro x hx
      rw [hkept] at hx
      obtain ⟨j, -, -, rfl⟩ := OPRF.mem_kept.mp hx
      exact OPRF.isReduced_draw _ j
    exact ⟨fun i hi => (limb_serverKey_le hstr (by omega)).trans (by norm_num),
      (limb_serverKey_le hstr (by norm_num)).trans (by norm_num), value_serverKey hstr,
      usesKey_of_ascii hstr hreduced⟩

/-- The key `abc`, with the offset of a stream of ones. -/
theorem fieldKey_iff_example :
    ∃ o : OPRF Fe25519, OPRF.new (fun _ _ => 1) 1 1 0 1 64 8 = some o ∧
      FieldKey o [0x61, 0x62, 0x63] := by
  have hsome : (OPRF.new (fun _ _ => 1) 1 1 0 1 64 8 : Option (OPRF Fe25519)).isSome = true := by
    decide +kernel
  obtain ⟨o, ho⟩ := Option.isSome_iff_exists.mp hsome
  exact ⟨o, ho, (fieldKey_iff ho [0x61, 0x62, 0x63]).mpr (by simp)⟩

/-- **A letter outside the 7-bit characters**: the two bytes of `é` in UTF-8 give the limbs
`0xFFFFFFC3` and `0xFFFFFFA9`. -/
theorem fieldKey_fails :
    limb (serverKey [0xC3, 0xA9]).v 0 = 0xFFFFFFC3 ∧
      limb (serverKey [0xC3, 0xA9]).v 1 = 0xFFFFFFA9 ∧
      ∃ o : OPRF Fe25519, OPRF.new (fun _ _ => 1) 1 1 0 1 64 8 = some o ∧
        ¬ FieldKey o [0xC3, 0xA9] := by
  have hlimb : limb (serverKey [0xC3, 0xA9]).v 0 = 0xFFFFFFC3 := by decide +kernel
  have hsome : (OPRF.new (fun _ _ => 1) 1 1 0 1 64 8 : Option (OPRF Fe25519)).isSome = true := by
    decide +kernel
  obtain ⟨o, ho⟩ := Option.isSome_iff_exists.mp hsome
  refine ⟨hlimb, by decide +kernel, o, ho, fun h => ?_⟩
  have hle := h.le 0 (by norm_num)
  rw [hlimb] at hle
  exact absurd hle (by norm_num)

end HocusPocus.Main
