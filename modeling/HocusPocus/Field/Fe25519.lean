import HocusPocus.Field.Ops

/-!
# The limbs of `fe25519.cpp`

A `Fe25519` is the array `v` of 32 words of 32 bits, in radix 256 and not necessarily reduced. The
functions follow `field25519/fe25519.cpp` line by line: loops are folds in the order of the source,
and every word operation keeps the ghost bit of `Machine.Word`, so that a wrapped addition,
subtraction or multiplication anywhere on the way to a limb shows on the limb.
-/

namespace HocusPocus

open Machine

/-- `struct fe25519`. -/
@[ext]
structure Fe25519 where
  v : Vector U32 32
  deriving DecidableEq

namespace Fe25519

/-- `x->v[0]`. -/
def v0 (x : Fe25519) : U32 := x.v[0]

/-! ## Carries and reductions -/

/-- The head of a pass: the bits of `v[31]` above 7 come back into `v[0]` with factor 19. -/
def carryTop (v : Vector U32 32) : Vector U32 32 :=
  let t := v[31].shr 7
  let v := v.set 31 (v[31].low 7)
  let t := t * 19
  v.set 0 (v[0] + t)

/-- One round of the inner loop: the bits of `v[i]` above 8 go to `v[i + 1]`. -/
def carryStep (v : Vector U32 32) (i : Fin 31) : Vector U32 32 :=
  let t := v[i.val].shr 8
  let v := v.set (i + 1) (v[i.val + 1] + t)
  v.set i (v[i.val].low 8)

/-- One pass of `fe25519_reduce_add_sub` and of `reduce_mul`. -/
def carryPass (v : Vector U32 32) : Vector U32 32 := Fin.foldl 31 carryStep (carryTop v)

/-- `fe25519_reduce_add_sub`: four passes. -/
def reduceAddSub (r : Fe25519) : Fe25519 := ⟨carryPass (carryPass (carryPass (carryPass r.v)))⟩

/-- `reduce_mul`: two passes. -/
def reduceMul (r : Fe25519) : Fe25519 := ⟨carryPass (carryPass r.v)⟩

/-- The mask `m` of `fe25519_freeze`: 1 when the limbs are those of a number from `p` to
`2 ^ 255 - 1`. -/
def freezeMask (v : Vector U32 32) : U32 :=
  let m := v[31].flag (· == 127)
  let m := Fin.foldl 30 (fun m j => m * v[30 - j.val].flag (· == 255)) m
  m * v[0].flag (237 ≤ ·)

/-- `fe25519_freeze`. -/
def freeze (r : Fe25519) : Fe25519 :=
  let m := freezeMask r.v
  ⟨Vector.ofFn fun i : Fin 32 =>
    if i.val = 31 then r.v[31] - m * 127
    else if i.val = 0 then r.v[0] - m * 237
    else r.v[i] - m * 255⟩

/-- `fe25519_iszero`. -/
def isZero (x : Fe25519) : Bool := (List.finRange 32).all fun i => x.v[i].toNat == 0

/-! ## Addition, subtraction, multiplication -/

/-- `fe25519_add_lazy`. -/
def addLazy (x y : Fe25519) : Fe25519 := ⟨Vector.ofFn fun i : Fin 32 => x.v[i] + y.v[i]⟩

/-- `fe25519_sub_lazy`: twice the prime is added to avoid an underflow. -/
def subLazy (x y : Fe25519) : Fe25519 :=
  ⟨Vector.ofFn fun i : Fin 32 =>
    let t :=
      if i.val = 0 then x.v[0] + 0x1da
      else if i.val = 31 then x.v[31] + 0xfe
      else x.v[i] + 0x1fe
    t - y.v[i]⟩

/-- `fe25519_sub`. -/
def sub (x y : Fe25519) : Fe25519 := reduceAddSub (subLazy x y)

/-- `fe25519_neg`. -/
def neg (x : Fe25519) : Fe25519 := sub ⟨Vector.replicate 32 0⟩ x

/-- The accumulator `t[n]` of `fe25519_mul`: the products `x[i] * y[j]` with `i + j = n`, added in
the order of the loops. -/
def mulAcc (x y : Vector U32 32) (n : Nat) : U32 :=
  Fin.foldl 32 (fun t i => if h : i.val ≤ n ∧ n - i < 32 then t + x[i] * y[n - i] else t) 0

/-- The folding of the upper half: `r[i] = t[i] + 38 * t[i + 32]`, and `r[31] = t[31]`. -/
def mulFold (t : Nat → U32) : Fe25519 :=
  ⟨Vector.ofFn fun i : Fin 32 => if i.val = 31 then t 31 else t i + 38 * t (i + 32)⟩

/-- `fe25519_mul`. -/
def mul (x y : Fe25519) : Fe25519 := reduceMul (mulFold (mulAcc x.v y.v))

/-- The accumulator `t[n]` of `fe25519_square`: for each `i`, the square if `2 * i = n` and the
doubled product with the later `j = n - i`. -/
def squareAcc (x : Vector U32 32) (n : Nat) : U32 :=
  Fin.foldl 32 (fun t i =>
    if 2 * i.val = n then t + x[i] * x[i]
    else if h : i.val < n - i ∧ n - i < 32 then t + 2 * x[i] * x[n - i]
    else t) 0

/-- `fe25519_square`. -/
def square (x : Fe25519) : Fe25519 := reduceMul (mulFold (squareAcc x.v))

/-! ## Inversion -/

/-- `n` rounds of `square(a, b); square(b, a)` on the two temporaries. -/
def squarePairs : Nat → Fe25519 × Fe25519 → Fe25519 × Fe25519
  | 0, ab => ab
  | n + 1, (_, b) =>
    let a := square b
    let b := square a
    squarePairs n (a, b)

/-- `fe25519_invert`: the power `2 ^ 255 - 21`. -/
def invert (x : Fe25519) : Fe25519 :=
  let z2 := square x
  let t1 := square z2
  let t0 := square t1
  let z9 := mul t0 x
  let z11 := mul z9 z2
  let t0 := square z11
  let z2_5_0 := mul t0 z9
  let t0 := square z2_5_0
  let t1 := square t0
  let t0 := square t1
  let t1 := square t0
  let t0 := square t1
  let z2_10_0 := mul t0 z2_5_0
  let t0 := square z2_10_0
  let t1 := square t0
  let (_, t1) := squarePairs 4 (t0, t1)
  let z2_20_0 := mul t1 z2_10_0
  let t0 := square z2_20_0
  let t1 := square t0
  let (_, t1) := squarePairs 9 (t0, t1)
  let t0 := mul t1 z2_20_0
  let t1 := square t0
  let t0 := square t1
  let (_, t0) := squarePairs 4 (t1, t0)
  let z2_50_0 := mul t0 z2_10_0
  let t0 := square z2_50_0
  let t1 := square t0
  let (_, t1) := squarePairs 24 (t0, t1)
  let z2_100_0 := mul t1 z2_50_0
  let t1 := square z2_100_0
  let t0 := square t1
  let (_, t0) := squarePairs 49 (t1, t0)
  let t1 := mul t0 z2_100_0
  let t0 := square t1
  let t1 := square t0
  let (_, t1) := squarePairs 24 (t0, t1)
  let t0 := mul t1 z2_50_0
  let t1 := square t0
  let t0 := square t1
  let t1 := square t0
  let t0 := square t1
  let t1 := square t0
  mul t1 z11

/-! ## The wire format -/

/-- The bytes `fe25519_pack` starts from: each limb truncated to a byte. -/
def limbBytes (x : Fe25519) : Vector UInt8 32 := x.v.map fun l => UInt8.ofNat l.toNat

/-- The mask `m` of `fe25519_pack`. Its loop runs down to `i = 2`, so byte 1 is not compared. -/
def packMask (r : Vector UInt8 32) : UInt8 :=
  let m : UInt8 := if r[31] = 127 then 1 else 0
  let m := Fin.foldl 29 (fun m j => m * if r[30 - j.val] = (255 : UInt8) then 1 else 0) m
  m * if (237 : UInt8) ≤ r[0] then 1 else 0

/-- `fe25519_pack`: the subtractions are on bytes and wrap. -/
def pack (x : Fe25519) : Bytes32 :=
  let r := limbBytes x
  let m := packMask r
  Vector.ofFn fun i : Fin 32 =>
    if i.val = 31 then r[31] - m * 127
    else if i.val = 0 then r[0] - m * 237
    else r[i] - m * 255

instance : FieldOps Fe25519 where
  add := addLazy
  sub := subLazy
  mul := mul
  ofLimbs v := ⟨Vector.ofFn v⟩
  scaleLimbs c x := ⟨Vector.ofFn fun l : Fin 32 => (c * x.v[l].convert 64).convert 32⟩
  neg := neg
  square := square
  invert := invert
  reduceAddSub := reduceAddSub
  freeze := freeze
  isZero := isZero
  pack := pack

end Fe25519

end HocusPocus
