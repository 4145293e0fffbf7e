import HocusPocus.Machine.Bytes
import HocusPocus.Machine.Word

/-!
# The interface of `struct fe25519`

The protocol code uses `fe25519` through the operators and functions of `fe25519.h`. `FieldOps F`
is that interface, and every function of the protocol is written once over it, with two readings:

* `Fp` (`Field/Exact.lean`): exact arithmetic in the field of `2 ^ 255 - 19` elements;
* `Fe25519` (`Field/Fe25519.lean`): the 32 limbs of the C++ code.

`ofLimbs` stands for an assignment to the array `v`; `setZero`, `setOne`, `ofLimb` and `unpack` are
the assignments the source makes.
-/

namespace HocusPocus

open Machine

/-- `crypto_uint32`. -/
abbrev U32 := Word 32

/-- `uint64_t`, and the 64-bit lanes of a `__m256i`. -/
abbrev U64 := Word 64

/-- A field element on the wire: `PRIME_BYTES` bytes. -/
abbrev Bytes32 := Vector UInt8 32

/-- The limbs as numbers, zero past the array. -/
def limbNat (v : Fin 32 → U32) (i : Nat) : Nat := if h : i < 32 then (v ⟨i, h⟩).toNat else 0

theorem limbNat_val (v : Fin 32 → U32) (i : Fin 32) : limbNat v i = (v i).toNat := dif_pos i.isLt

/-- The number a limb array stands for. -/
def limbsNat (v : Fin 32 → U32) : Nat := Arith.value 256 32 (limbNat v)

/-- The operations of `fe25519.h`. -/
class FieldOps (F : Type) where
  /-- `fe25519_add_lazy`. -/
  add : F → F → F
  /-- `fe25519_sub_lazy`. -/
  sub : F → F → F
  /-- `fe25519_mul`. -/
  mul : F → F → F
  /-- The element whose array `v` has the given limbs. -/
  ofLimbs : (Fin 32 → U32) → F
  /-- `for l: v[l] = c * v[l]` for a 64-bit `c`. -/
  scaleLimbs : U64 → F → F
  /-- `fe25519_neg`. -/
  neg : F → F
  /-- `fe25519_square`. -/
  square : F → F
  /-- `fe25519_invert`. -/
  invert : F → F
  /-- `fe25519_reduce_add_sub`. -/
  reduceAddSub : F → F
  /-- `fe25519_freeze`. -/
  freeze : F → F
  /-- `fe25519_iszero`. -/
  isZero : F → Bool
  /-- `fe25519_pack`. -/
  pack : F → Bytes32

namespace FieldOps

variable {F : Type} [FieldOps F]

-- the operators `+`, `-`, `*`; the low priority lets those of a ring come first

instance (priority := 50) : Add F := ⟨add⟩

instance (priority := 50) : Sub F := ⟨sub⟩

instance (priority := 50) : Mul F := ⟨mul⟩

/-- `fe25519_setzero`. -/
def setZero : F := ofLimbs fun _ => 0

/-- `fe25519_setone`. -/
def setOne : F := ofLimbs fun i => if i = 0 then 1 else 0

/-- `setzero()` followed by `v[i] = x`; `i` must be below 32. -/
def ofLimb (i : Nat) (x : U32) : F := ofLimbs fun j => if j.val = i then x else 0

/-- The limbs `fe25519_unpack` writes: the bytes, with bit 255 cleared. -/
def unpackLimbs (x : Bytes32) (i : Fin 32) : U32 :=
  if i = 31 then (Word.lit 32 (x.get i).toNat).low 7 else Word.lit 32 (x.get i).toNat

/-- `fe25519_unpack`. -/
def unpack (x : Bytes32) : F := ofLimbs (unpackLimbs x)

/-- The limbs `unpack` writes hold the bytes, the last one without its top bit. -/
theorem unpackLimbs_is (x : Bytes32) (i : Fin 32) :
    (unpackLimbs x i).Is (if i = 31 then (x.get i).toNat % 128 else (x.get i).toNat) := by
  have hlt : (x.get i).toNat < 2 ^ 32 := (x.get i).toNat_lt.trans (by norm_num)
  unfold unpackLimbs
  split
  · exact (Word.is_lit hlt).low 7 (by norm_num)
  · exact Word.is_lit hlt

theorem top_mod {low top : Nat} (h : low < 256 ^ 31) :
    (low + top * 256 ^ 31) % 2 ^ 255 = low + top % 128 * 256 ^ 31 := by
  omega

/-- `unpack` reads the encoded number with bit 255 dropped. -/
theorem limbsNat_unpackLimbs (x : Bytes32) : limbsNat (unpackLimbs x) = leValue x % 2 ^ 255 := by
  have hlow : Arith.value 256 31 (limbNat (unpackLimbs x))
      = Arith.value 256 31 (fun i => if h : i < 32 then x[i].toNat else 0) := by
    refine Arith.value_congr fun i hi => ?_
    have h32 : i < 32 := by omega
    have hne : (⟨i, h32⟩ : Fin 32) ≠ 31 := fun e => by
      have := congrArg Fin.val e
      simp only [Fin.isValue] at this
      omega
    rw [limbNat, dif_pos h32, dif_pos h32, (unpackLimbs_is x _).toNat_eq, if_neg hne]
    rfl
  have htop : limbNat (unpackLimbs x) 31 = x[31].toNat % 128 := (unpackLimbs_is x 31).toNat_eq
  have hlt : Arith.value 256 31 (fun i => if h : i < 32 then x[i].toNat else 0) < 256 ^ 31 :=
    Arith.value_lt fun i hi => by rw [dif_pos (by omega)]; exact x[i].toNat_lt
  rw [limbsNat, Arith.value_succ 256 31, hlow, htop, leValue, Arith.value_succ 256 31,
    dif_pos (by norm_num), top_mod hlt]

/-- `operator/`: `fe25519_invert`, then `fe25519_mul`. -/
def div (x y : F) : F := x * invert y

/-- `operator==`: the difference, frozen and compared with zero. -/
def eq (x y : F) : Bool := isZero (freeze (x - y))

/-- `operator!=`. -/
def ne (x y : F) : Bool := !eq x y

/-- `pow5` of `fe25519.h`. -/
def pow5 (x : F) : F :=
  let x2 := x * x
  x2 * x2 * x

end FieldOps

end HocusPocus
