import HocusPocus.Machine.Bytes

/-!
# 128-bit blocks

A block is 16 bytes. `^` works on its bits, and `add_epi64` and `sub_epi64` work on its two 64-bit
lanes, each with wraparound; the low lane comes first.

* `xorBytes_comm`, `xorBytes_assoc`, `xorBytes_cancel_left`: byte strings under `^`.
* `addEpi64_comm`, `addEpi64_assoc`, `subEpi64_add`, `addEpi64_sub`: blocks under lane addition.
-/

namespace Machine

variable {n : Nat}

/-! ## Exclusive or -/

instance bytesXor : XorOp (Vector UInt8 n) := ⟨fun a b => Vector.ofFn fun i => a[i] ^^^ b[i]⟩

/-- `ZeroBlock`, at any length. -/
def zeroBytes (n : Nat) : Vector UInt8 n := Vector.replicate n 0

theorem getElem_xor (a b : Vector UInt8 n) {i : Nat} (hi : i < n) :
    (a ^^^ b)[i] = a[i] ^^^ b[i] := Vector.getElem_ofFn hi

@[simp] theorem getElem_zeroBytes {i : Nat} (hi : i < n) : (zeroBytes n)[i] = 0 :=
  Vector.getElem_replicate hi

theorem xorBytes_comm (a b : Vector UInt8 n) : a ^^^ b = b ^^^ a := by
  refine Vector.ext fun i hi => ?_
  rw [getElem_xor, getElem_xor, UInt8.xor_comm]

theorem xorBytes_assoc (a b c : Vector UInt8 n) : a ^^^ b ^^^ c = a ^^^ (b ^^^ c) := by
  refine Vector.ext fun i hi => ?_
  simp only [getElem_xor, UInt8.xor_assoc]

@[simp] theorem xorBytes_self (a : Vector UInt8 n) : a ^^^ a = zeroBytes n := by
  refine Vector.ext fun i hi => ?_
  rw [getElem_xor, UInt8.xor_self, getElem_zeroBytes]

@[simp] theorem zeroBytes_xor (a : Vector UInt8 n) : zeroBytes n ^^^ a = a := by
  refine Vector.ext fun i hi => ?_
  rw [getElem_xor, getElem_zeroBytes, UInt8.zero_xor]

@[simp] theorem xor_zeroBytes (a : Vector UInt8 n) : a ^^^ zeroBytes n = a := by
  rw [xorBytes_comm, zeroBytes_xor]

/-- A mask comes off where it was put on. -/
@[simp] theorem xorBytes_cancel_left (a b : Vector UInt8 n) : a ^^^ (a ^^^ b) = b := by
  rw [← xorBytes_assoc, xorBytes_self, zeroBytes_xor]

@[simp] theorem xorBytes_cancel_right (a b : Vector UInt8 n) : a ^^^ b ^^^ b = a := by
  rw [xorBytes_assoc, xorBytes_self, xor_zeroBytes]

instance bytesXor_commutative : Std.Commutative (fun a b : Vector UInt8 n => a ^^^ b) :=
  ⟨xorBytes_comm⟩

instance bytesXor_associative : Std.Associative (fun a b : Vector UInt8 n => a ^^^ b) :=
  ⟨xorBytes_assoc⟩

/-! ## Masks -/

instance bytesAnd : AndOp (Vector UInt8 n) := ⟨fun a b => Vector.ofFn fun i => a[i] &&& b[i]⟩

/-- `AllOneBlock`, at any length. -/
def allOneBytes (n : Nat) : Vector UInt8 n := Vector.replicate n 255

theorem getElem_and (a b : Vector UInt8 n) {i : Nat} (hi : i < n) :
    (a &&& b)[i] = a[i] &&& b[i] := Vector.getElem_ofFn hi

@[simp] theorem and_zeroBytes (a : Vector UInt8 n) : a &&& zeroBytes n = zeroBytes n := by
  refine Vector.ext fun i hi => ?_
  rw [getElem_and, getElem_zeroBytes, UInt8.and_zero]

@[simp] theorem and_allOneBytes (a : Vector UInt8 n) : a &&& allOneBytes n = a := by
  refine Vector.ext fun i hi => ?_
  rw [getElem_and, allOneBytes, Vector.getElem_replicate hi]
  exact UInt8.and_neg_one

/-! ## 64-bit lanes -/

/-- `block(x1, x0)`, from its lanes taken modulo `2 ^ 64`. -/
def ofLanes (x1 x0 : Nat) : Vector UInt8 16 := leBytes 8 x0 ++ leBytes 8 x1

/-- The lane `i` of a block. -/
def lane (b : Vector UInt8 16) (i : Nat) : Nat := leValue (block 8 b.toList i)

/-- `a.add_epi64(b)`. -/
def addEpi64 (a b : Vector UInt8 16) : Vector UInt8 16 :=
  ofLanes (lane a 1 + lane b 1) (lane a 0 + lane b 0)

/-- `a.sub_epi64(b)`. -/
def subEpi64 (a b : Vector UInt8 16) : Vector UInt8 16 :=
  ofLanes (lane a 1 + (2 ^ 64 - lane b 1)) (lane a 0 + (2 ^ 64 - lane b 0))

theorem lane_lt (b : Vector UInt8 16) (i : Nat) : lane b i < 2 ^ 64 := leValue_lt _

theorem toList_ofLanes (x1 x0 : Nat) :
    (ofLanes x1 x0).toList = concat [leBytes 8 x0, leBytes 8 x1] := by
  rw [ofLanes, Vector.toList_append, concat_cons, concat_cons, concat_nil, List.append_nil]

@[simp] theorem lane_ofLanes_zero (x1 x0 : Nat) : lane (ofLanes x1 x0) 0 = x0 % 2 ^ 64 := by
  rw [lane, toList_ofLanes, block_concat _ Nat.zero_lt_two]
  exact leValue_leBytes x0

@[simp] theorem lane_ofLanes_one (x1 x0 : Nat) : lane (ofLanes x1 x0) 1 = x1 % 2 ^ 64 := by
  rw [lane, toList_ofLanes, block_concat _ Nat.one_lt_two]
  exact leValue_leBytes x1

theorem getD_toList (v : Vector UInt8 n) {i : Nat} (hi : i < n) : v.toList.getD i 0 = v[i] := by
  rw [List.getD_eq_getElem _ _ (by simpa using hi), Vector.getElem_toList]

theorem getElem_block {m : Nat} (v : Vector UInt8 n) {i j : Nat} (hj : j < m)
    (hij : m * i + j < n) : (block m v.toList i)[j] = v[m * i + j] := by
  rw [block, Vector.getElem_ofFn, getD_toList v hij]

/-- A block is determined by its two lanes. -/
theorem eq_of_lanes {a b : Vector UInt8 16} (h0 : lane a 0 = lane b 0)
    (h1 : lane a 1 = lane b 1) : a = b := by
  refine Vector.ext fun k hk => ?_
  rcases Nat.lt_or_ge k 8 with hlt | hge
  · have hbyte := getElem_block a (i := 0) hlt (by omega)
    rw [leValue_injective h0, getElem_block b hlt (by omega)] at hbyte
    simpa using hbyte.symm
  · have hbyte := getElem_block a (m := 8) (i := 1) (j := k - 8) (by omega) (by omega)
    rw [leValue_injective h1, getElem_block b (by omega) (by omega)] at hbyte
    simpa [Nat.add_sub_cancel' hge] using hbyte.symm

theorem addEpi64_comm (a b : Vector UInt8 16) : addEpi64 a b = addEpi64 b a := by
  rw [addEpi64, addEpi64, Nat.add_comm (lane a 1), Nat.add_comm (lane a 0)]

theorem addEpi64_assoc (a b c : Vector UInt8 16) :
    addEpi64 (addEpi64 a b) c = addEpi64 a (addEpi64 b c) := by
  refine eq_of_lanes ?_ ?_
  · simp only [addEpi64, lane_ofLanes_zero, Nat.mod_add_mod, Nat.add_mod_mod, Nat.add_assoc]
  · simp only [addEpi64, lane_ofLanes_one, Nat.mod_add_mod, Nat.add_mod_mod, Nat.add_assoc]

@[simp] theorem addEpi64_sub (a b : Vector UInt8 16) : addEpi64 (subEpi64 a b) b = a := by
  have hlane : ∀ i, (lane a i + (2 ^ 64 - lane b i) + lane b i) % 2 ^ 64 = lane a i := by
    intro i
    have ha := lane_lt a i
    have hb := lane_lt b i
    rw [Nat.add_assoc, Nat.sub_add_cancel hb.le, Nat.add_mod_right, Nat.mod_eq_of_lt ha]
  refine eq_of_lanes ?_ ?_
  · simp only [addEpi64, subEpi64, lane_ofLanes_zero, Nat.mod_add_mod, hlane]
  · simp only [addEpi64, subEpi64, lane_ofLanes_one, Nat.mod_add_mod, hlane]

@[simp] theorem subEpi64_add (a b : Vector UInt8 16) : subEpi64 (addEpi64 b a) b = a := by
  have hlane : ∀ i, (lane b i + lane a i + (2 ^ 64 - lane b i)) % 2 ^ 64 = lane a i := by
    intro i
    have ha := lane_lt a i
    have hb := lane_lt b i
    rw [Nat.add_right_comm, Nat.add_sub_cancel' hb.le, Nat.add_mod_left, Nat.mod_eq_of_lt ha]
  refine eq_of_lanes ?_ ?_
  · simp only [addEpi64, subEpi64, lane_ofLanes_zero, Nat.mod_add_mod, hlane]
  · simp only [addEpi64, subEpi64, lane_ofLanes_one, Nat.mod_add_mod, hlane]

@[simp] theorem addEpi64_zeroBytes (a : Vector UInt8 16) : addEpi64 a (zeroBytes 16) = a := by
  have hlane : ∀ i, lane (zeroBytes 16) i = 0 := by
    intro i
    have hzero : block 8 (zeroBytes 16).toList i = leBytes 8 0 := by
      refine Vector.ext fun j hj => ?_
      rw [block, leBytes, Vector.getElem_ofFn, Vector.getElem_ofFn, zeroBytes,
        Vector.toList_replicate, List.getD_eq_getElem?_getD,
        List.getElem?_getD_replicate_default_eq, Nat.zero_div]
      rfl
    rw [lane, hzero, leValue_leBytes, Nat.zero_mod]
  refine eq_of_lanes ?_ ?_
  · rw [addEpi64, lane_ofLanes_zero, hlane, Nat.add_zero, Nat.mod_eq_of_lt (lane_lt a 0)]
  · rw [addEpi64, lane_ofLanes_one, hlane, Nat.add_zero, Nat.mod_eq_of_lt (lane_lt a 1)]

@[simp] theorem zeroBytes_addEpi64 (a : Vector UInt8 16) : addEpi64 (zeroBytes 16) a = a := by
  rw [addEpi64_comm, addEpi64_zeroBytes]

@[simp] theorem subEpi64_zeroBytes (a : Vector UInt8 16) : subEpi64 a (zeroBytes 16) = a := by
  have h := addEpi64_sub a (zeroBytes 16)
  rwa [addEpi64_zeroBytes] at h

instance addEpi64_commutative : Std.Commutative addEpi64 := ⟨addEpi64_comm⟩

instance addEpi64_associative : Std.Associative addEpi64 := ⟨addEpi64_assoc⟩

end Machine
