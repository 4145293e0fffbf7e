import HocusPocus.Machine.Bytes

/-!
# BLAKE2b (`Blake2.h`, `blake2b-ref.cpp`)

The hash class of `OPRF.h`. `blake2b_update` keeps the last block back, full or not, since only
`blake2b_final` may compress it; `t` counts the bytes compressed, in two words with a carry. A
`memcpy` past the end of `buf` is `none`, and so are the calls that return `-1`.

The functions that compress take the compression as an argument: `blake2b.cpp` has the same text
with another one. Keyed hashing is left out; the class does not use it.
-/

namespace HocusPocus

open Machine

/-- `blake2b_state`. -/
structure Blake2b where
  h : Vector (BitVec 64) 8
  t : BitVec 64 × BitVec 64
  f : BitVec 64 × BitVec 64
  buf : Vector UInt8 128
  buflen : Nat
  outlen : Nat
  lastNode : UInt8

namespace Blake2b

/-- `BLAKE2B_BLOCKBYTES`. -/
abbrev blake2bBlockBytes : Nat := 128

/-- `BLAKE2B_OUTBYTES`. -/
def blake2bOutBytes : Nat := 64

/-- `blake2b_IV`. -/
def blake2bIV : Vector (BitVec 64) 8 :=
  #v[0x6a09e667f3bcc908, 0xbb67ae8584caa73b, 0x3c6ef372fe94f82b, 0xa54ff53a5f1d36f1,
    0x510e527fade682d1, 0x9b05688c2b3e6c1f, 0x1f83d9abfb41bd6b, 0x5be0cd19137e2179]

/-- `blake2b_sigma`. -/
def blake2bSigma : List (List Nat) :=
  [[0, 1, 2, 3, 4, 5, 6, 7, 8, 9, 10, 11, 12, 13, 14, 15],
    [14, 10, 4, 8, 9, 15, 13, 6, 1, 12, 0, 2, 11, 7, 5, 3],
    [11, 8, 12, 0, 5, 2, 15, 13, 10, 14, 3, 6, 7, 1, 9, 4],
    [7, 9, 3, 1, 13, 12, 11, 14, 2, 6, 5, 10, 4, 0, 15, 8],
    [9, 0, 5, 7, 2, 4, 10, 15, 14, 1, 11, 12, 6, 8, 3, 13],
    [2, 12, 6, 10, 0, 11, 8, 3, 4, 13, 7, 5, 15, 14, 1, 9],
    [12, 5, 1, 15, 14, 13, 4, 10, 0, 7, 6, 3, 9, 2, 8, 11],
    [13, 11, 7, 14, 12, 1, 3, 9, 5, 0, 15, 4, 8, 6, 2, 10],
    [6, 15, 14, 9, 11, 3, 0, 8, 12, 2, 13, 7, 1, 4, 10, 5],
    [10, 2, 8, 4, 7, 6, 1, 5, 15, 11, 9, 14, 3, 12, 13, 0],
    [0, 1, 2, 3, 4, 5, 6, 7, 8, 9, 10, 11, 12, 13, 14, 15],
    [14, 10, 4, 8, 9, 15, 13, 6, 1, 12, 0, 2, 11, 7, 5, 3]]

/-- `blake2b_sigma[r][i]`. -/
def sigma (r i : Nat) : Nat := (blake2bSigma.getD r []).getD i 0

/-- `rotr64`. -/
def rotr64 (w : BitVec 64) (c : Nat) : BitVec 64 := (w >>> c) ||| (w <<< (64 - c))

/-- `load64`. -/
def load64 (b : Vector UInt8 8) : BitVec 64 := BitVec.ofNat 64 (leValue b)

/-- `store64`. -/
def store64 (w : BitVec 64) : Vector UInt8 8 := leBytes 8 w.toNat

/-! ## The compression -/

/-- The macro `G`, on the four words it names. -/
def g (m : Nat → BitVec 64) (r i : Nat) (a b c d : BitVec 64) :
    BitVec 64 × BitVec 64 × BitVec 64 × BitVec 64 :=
  let a := a + b + m (sigma r (2 * i))
  let d := rotr64 (d ^^^ a) 32
  let c := c + d
  let b := rotr64 (b ^^^ c) 24
  let a := a + b + m (sigma r (2 * i + 1))
  let d := rotr64 (d ^^^ a) 16
  let c := c + d
  let b := rotr64 (b ^^^ c) 63
  (a, b, c, d)

/-- `v[i] = x`. -/
def setAt {α : Type} {n : Nat} (v : Vector α n) (i : Fin n) (x : α) : Vector α n :=
  v.set i.val x i.isLt

/-- `G(r, i, v[ia], v[ib], v[ic], v[id])`. -/
def applyG (m : Nat → BitVec 64) (r i : Nat) (ia ib ic id : Fin 16) (v : Vector (BitVec 64) 16) :
    Vector (BitVec 64) 16 :=
  let (a, b, c, d) := g m r i (v.get ia) (v.get ib) (v.get ic) (v.get id)
  setAt (setAt (setAt (setAt v ia a) ib b) ic c) id d

/-- The macro `ROUND`. -/
def round (m : Nat → BitVec 64) (r : Nat) (v : Vector (BitVec 64) 16) : Vector (BitVec 64) 16 :=
  let v := applyG m r 0 0 4 8 12 v
  let v := applyG m r 1 1 5 9 13 v
  let v := applyG m r 2 2 6 10 14 v
  let v := applyG m r 3 3 7 11 15 v
  let v := applyG m r 4 0 5 10 15 v
  let v := applyG m r 5 1 6 11 12 v
  let v := applyG m r 6 2 7 8 13 v
  applyG m r 7 3 4 9 14 v

/-- The word `m[i]` of a block. -/
def word (buf : Vector UInt8 128) (i : Nat) : BitVec 64 := load64 (block 8 buf.toList i)

/-- `v` before the rounds. -/
def initialV (h : Vector (BitVec 64) 8) (t f : BitVec 64 × BitVec 64) : Vector (BitVec 64) 16 :=
  let IV := fun i => blake2bIV.getD i 0
  #v[h.getD 0 0, h.getD 1 0, h.getD 2 0, h.getD 3 0, h.getD 4 0, h.getD 5 0, h.getD 6 0, h.getD 7 0,
    IV 0, IV 1, IV 2, IV 3, IV 4 ^^^ t.1, IV 5 ^^^ t.2, IV 6 ^^^ f.1, IV 7 ^^^ f.2]

/-- `h` after the rounds. -/
def finalH (h : Vector (BitVec 64) 8) (v : Vector (BitVec 64) 16) : Vector (BitVec 64) 8 :=
  Vector.ofFn fun i => h.getD i 0 ^^^ v.getD i 0 ^^^ v.getD (i + 8) 0

/-- `blake2b_compress`: the new `h`. -/
def blake2bCompress (h : Vector (BitVec 64) 8) (t f : BitVec 64 × BitVec 64)
    (buf : Vector UInt8 128) : Vector (BitVec 64) 8 :=
  finalH h ((List.range 12).foldl (fun v r => round (word buf) r v) (initialV h t f))

/-- The type of a compression: `h`, `t`, `f` and a block. -/
abbrev Compression : Type :=
  Vector (BitVec 64) 8 → BitVec 64 × BitVec 64 → BitVec 64 × BitVec 64 → Vector UInt8 128 →
    Vector (BitVec 64) 8

/-! ## The functions on the state -/

section

variable (compression : Compression)

/-- `blake2b_compress(S, block)`. -/
def compress (S : Blake2b) (buf : Vector UInt8 128) : Blake2b :=
  { S with h := compression S.h S.t S.f buf }

/-- `blake2b_increment_counter`. -/
def blake2bIncrementCounter (S : Blake2b) (inc : BitVec 64) : Blake2b :=
  let t0 := S.t.1 + inc
  { S with t := (t0, S.t.2 + if t0 < inc then 1 else 0) }

/-- `blake2b_set_lastblock`. -/
def blake2bSetLastblock (S : Blake2b) : Blake2b :=
  { S with f := (BitVec.allOnes 64, if S.lastNode ≠ 0 then BitVec.allOnes 64 else S.f.2) }

/-- The parameter block of `blake2b_init`. -/
def param (outlen : Nat) : Bytes := [UInt8.ofNat outlen, 0, 1, 1] ++ List.replicate 60 0

/-- `blake2b_init`. -/
def blake2bInit (outlen : Nat) : Option Blake2b :=
  if outlen = 0 ∨ blake2bOutBytes < outlen then none
  else some
    { h := Vector.ofFn fun i => blake2bIV.get i ^^^ load64 (block 8 (param outlen) i)
      t := (0, 0)
      f := (0, 0)
      buf := Vector.replicate 128 0
      buflen := 0
      outlen
      lastNode := 0 }

/-- `memcpy(buf + off, src, src.length)`. -/
def copyInto (buf : Vector UInt8 128) (off : Nat) (src : Bytes) : Option (Vector UInt8 128) :=
  if off + src.length ≤ blake2bBlockBytes then
    some (Vector.ofFn fun i =>
      if off ≤ i ∧ i < off + src.length then src.getD (i - off) 0 else buf.get i)
  else none

/-- `while (inlen > BLAKE2B_BLOCKBYTES)`: the state and the input that is left. -/
def compressBlocks (S : Blake2b) (input : Bytes) : Blake2b × Bytes :=
  if h : blake2bBlockBytes < input.length then
    compressBlocks
      (compress compression (blake2bIncrementCounter S 128) (block blake2bBlockBytes input 0))
      (input.drop blake2bBlockBytes)
  else (S, input)
termination_by input.length
decreasing_by
  rw [List.length_drop]
  exact Nat.sub_lt (Nat.zero_lt_of_lt h) (by decide)

/-- `memcpy(S->buf + S->buflen, in, inlen); S->buflen += inlen;`. -/
def keep (S : Blake2b) (input : Bytes) : Option Blake2b := do
  let buf ← copyInto S.buf S.buflen input
  return { S with buf, buflen := S.buflen + input.length }

/-- `blake2b_update`. -/
def blake2bUpdate (S : Blake2b) (input : Bytes) : Option Blake2b :=
  if 0 < input.length then
    let fill := blake2bBlockBytes - S.buflen
    if fill < input.length then do
      let buf ← copyInto S.buf S.buflen (input.take fill)
      let S := { S with buf, buflen := 0 }
      let S := compress compression (blake2bIncrementCounter S 128) S.buf
      let (S, input) := compressBlocks compression S (input.drop fill)
      keep S input
    else keep S input
  else some S

/-- `blake2b_final`. -/
def blake2bFinal (S : Blake2b) (outlen : Nat) : Option Bytes :=
  if outlen < S.outlen ∨ S.f.1 ≠ 0 then none
  else do
    let S := blake2bSetLastblock (blake2bIncrementCounter S (BitVec.ofNat 64 S.buflen))
    -- `memset(S->buf + S->buflen, 0, BLAKE2B_BLOCKBYTES - S->buflen)`
    let buf ← copyInto S.buf S.buflen (List.replicate (blake2bBlockBytes - S.buflen) 0)
    let S := compress compression S buf
    return (concat (S.h.toList.map store64)).take S.outlen

end

/-! ## The class `Blake2` -/

/-- `Blake2 hash(outputLength)`, any number of `Update`s, and `Final`. -/
def hashPieces (compression : Compression) (outputLength : Nat) (pieces : List Bytes) :
    Option Bytes := do
  let S ← blake2bInit outputLength
  let S ← pieces.foldlM (blake2bUpdate compression) S
  blake2bFinal compression S S.outlen

end Blake2b

end HocusPocus
