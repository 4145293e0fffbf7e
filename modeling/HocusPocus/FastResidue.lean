import HocusPocus.Arith.PowerProgram
import HocusPocus.Field.Exact

/-!
# Power residue symbols (`fast_residue_25519.h`)

The three generated exponentiations `pow_eps`, `pow_D`, `pow_Y` as the straight-line programs they
are, and the symbol functions built on them. A symbol is the low `SYMBOL_BYTES` bytes of
`x ^ D` with `D = (p - 1) / 781764`.

* `fastPowEps_eq`, `powD_eq`, `powInvEpsPrime_eq`: the exponents, each read off its program once.
* `presidueEps_eq`, `pow_eps_mul_pow_D`: a symbol is the truncated power `D`, to which an `eps`-th
  power is invisible.
* `mul_powInvEpsPrime_pow`: `pow_inv_eps_prime` inverts an `eps'`-th power up to `eps'`-th roots.
* `blinding`: what both mean for a symbol and for an inverse.
* `pack_eq`, `unpack_bytesOfSymbol`: `unpack` undoes `pack` on a symbol, and `pack` stays inside the
  buffer when five bytes are left.
-/

namespace HocusPocus.FastResidue

open Machine Arith FieldOps

/-- `EPS` and `EPS_PRIME`. -/
def eps : Nat := 781764

/-- `SYMBOL_BYTES`. -/
def symbolBytes : Nat := 5

/-! ## The generated programs -/

/-- The variables of a generated function: `x`, the powers `xk` of the window table, and `t`. -/
inductive Var where
  | x
  | pow (k : Nat)
  | t
  deriving DecidableEq

/-- The table entry `x`, `x2`, `x3`, …; `x` itself is the entry 1. -/
def entry (k : Nat) : Var := if k = 1 then .x else .pow k

/-- The precomputation: `x2`, then `x3`, `x5`, …, `x(2 * n + 1)`. -/
def table (n : Nat) : List (Instr Var) :=
  .square (.pow 2) .x ::
    (List.range n).map fun i => .mul (entry (2 * i + 3)) (.pow 2) (entry (2 * i + 1))

/-- `n` lines `fe25519_square(&t, &t)`. -/
def squarings (n : Nat) : List (Instr Var) := List.replicate n (.square .t .t)

/-- A window: `n` squarings of `t`, then a product with the table entry `k`. -/
def window (n k : Nat) : List (Instr Var) := squarings n ++ [.mul .t .t (entry k)]

/-- `pow_eps`. -/
def powEpsProgram : List (Instr Var) :=
  table 7 ++ [.copy .t (entry 11)] ++ window 3 7 ++ window 5 13 ++ window 2 3 ++ window 4 1 ++
    squarings 2

/-- `pow_D`. -/
def powDProgram : List (Instr Var) :=
  table 15 ++ [.copy .t (entry 21)] ++
    window 6 29 ++ window 6 31 ++ window 5 3 ++ window 7 13 ++ window 3 3 ++ window 8 9 ++
    window 6 19 ++ window 4 15 ++ window 2 1 ++ window 8 15 ++ window 7 25 ++ window 3 3 ++
    window 8 11 ++ window 7 25 ++ window 6 21 ++ window 4 13 ++ window 6 23 ++ window 9 25 ++
    window 7 27 ++ window 6 31 ++ window 6 25 ++ window 4 11 ++ window 7 25 ++ window 6 5 ++
    window 8 17 ++ window 5 19 ++ window 5 25 ++ window 2 3 ++ window 9 13 ++ window 6 27 ++
    window 4 15 ++ window 12 9 ++ window 8 19 ++ window 8 31 ++ window 6 25 ++ window 7 1 ++
    window 9 21 ++ window 1 1

/-- `pow_Y`. -/
def powYProgram : List (Instr Var) :=
  table 15 ++ [.copy .t (entry 21)] ++
    window 7 25 ++ window 7 31 ++ window 1 1 ++ window 10 31 ++ window 3 3 ++ window 7 13 ++
    window 9 13 ++ window 6 25 ++ window 3 5 ++ window 7 29 ++ window 5 19 ++ window 6 5 ++
    window 10 17 ++ window 5 21 ++ window 3 5 ++ window 11 19 ++ window 5 23 ++ window 7 17 ++
    window 5 9 ++ window 6 21 ++ window 8 19 ++ window 2 3 ++ window 7 13 ++ window 2 1 ++
    window 11 29 ++ window 4 1 ++ window 9 23 ++ window 5 19 ++ window 6 11 ++ window 9 27 ++
    window 4 7 ++ window 7 15 ++ window 8 21 ++ window 7 17 ++ window 3 5 ++ window 10 23 ++
    window 2 3 ++ squarings 3

section

variable {F : Type} [FieldOps F]

/-- A generated function: run the program and copy `t` to `out`. -/
def runPow (prog : List (Instr Var)) (inVal : F) : F :=
  (runProgram FieldOps.square (· * ·) prog .x .t inVal).getD setZero

/-- `pow_eps`. -/
def powEps (inVal : F) : F := runPow powEpsProgram inVal

/-- `pow_D`. -/
def powD (inVal : F) : F := runPow powDProgram inVal

/-- `pow_Y`. -/
def powY (inVal : F) : F := runPow powYProgram inVal

/-! ## Symbols -/

/-- `symbol |= (uint64_t)bytes[i] << (8 * i)` for the `SYMBOL_BYTES` bytes. -/
def assemble (bytes : Nat → UInt8) : UInt64 :=
  (List.range symbolBytes).foldl
    (fun symbol i => symbol ||| ((bytes i).toUInt64 <<< UInt64.ofNat (8 * i))) 0

/-- `presidue_eps`. -/
def presidueEps (val : F) : UInt64 :=
  let res := freeze (powD val)
  let packed := FieldOps.pack res
  assemble fun i => packed.toList.getD i 0

/-- `presidue_eps_prime`. -/
def presidueEpsPrime (val : F) : UInt64 := presidueEps val

/-- `pow_inv_eps_prime`. -/
def powInvEpsPrime (a : F) : F := powY a

/-- `fast_pow_eps`. -/
def fastPowEps (val : F) : F := powEps val

end

/-- The byte `pack` writes at `buffer[i]`. -/
def symbolByte (symbol : UInt64) (i : Nat) : UInt8 :=
  ((symbol >>> UInt64.ofNat (8 * i)) &&& 0xFF).toUInt8

/-- `pack(&buffer[off], symbol)`: one write for each symbol byte, `none` when one lies outside the
buffer. -/
def pack (buffer : Bytes) (off : Nat) (symbol : UInt64) : Option Bytes :=
  (List.range symbolBytes).foldlM
    (fun buf i =>
      if off + i < buf.length then some (buf.set (off + i) (symbolByte symbol i)) else none)
    buffer

/-- `unpack(&buffer[off])`. -/
def unpack (buffer : Bytes) (off : Nat) : UInt64 := assemble fun i => buffer.getD (off + i) 0

/-- The loop that packs symbol after symbol into one array. -/
def packAll (symbol : Nat → UInt64) (n : Nat) (buffer : Bytes) : Option Bytes :=
  (List.range n).foldlM (fun buf i => pack buf (i * symbolBytes) (symbol i)) buffer

/-! ## Symbols as numbers -/

/-- Shifted bytes below `2 ^ 64` do not overlap, so the `or` of them is their sum. -/
theorem toNat_foldl_or (bytes : Nat → UInt8) {n : Nat} (hn : n ≤ 8) :
    ((List.range n).foldl
      (fun symbol i => symbol ||| ((bytes i).toUInt64 <<< UInt64.ofNat (8 * i))) 0).toNat
      = value 256 n fun i => (bytes i).toNat := by
  induction n with
  | zero => rfl
  | succ n ih =>
    have hlow : value 256 n (fun i => (bytes i).toNat) < 2 ^ (8 * n) := by
      rw [pow_mul]
      exact value_lt fun i _ => (bytes i).toNat_lt
    have hshift : ((bytes n).toUInt64 <<< UInt64.ofNat (8 * n)).toNat
        = 2 ^ (8 * n) * (bytes n).toNat := by
      have hb := (bytes n).toNat_lt
      have hmod : (UInt64.ofNat (8 * n)).toNat % 64 = 8 * n := by
        rw [UInt64.toNat_ofNat']
        omega
      have hfit : (bytes n).toNat * 2 ^ (8 * n) < 2 ^ 64 := by
        calc (bytes n).toNat * 2 ^ (8 * n) < 2 ^ 8 * 2 ^ (8 * n) :=
              Nat.mul_lt_mul_of_pos_right hb (Nat.two_pow_pos _)
          _ = 2 ^ (8 * n + 8) := by rw [pow_add, mul_comm]
          _ ≤ 2 ^ 64 := Nat.pow_le_pow_right (by norm_num) (by omega)
      rw [UInt64.toNat_shiftLeft, hmod, UInt8.toNat_toUInt64, Nat.shiftLeft_eq,
        Nat.mod_eq_of_lt hfit, mul_comm]
    rw [List.range_succ, List.foldl_append, List.foldl_cons, List.foldl_nil, UInt64.toNat_or,
      ih (by omega), hshift, Nat.or_comm, ← Nat.two_pow_add_eq_or_of_lt hlow, value_succ,
      show (256 : Nat) ^ n = 2 ^ (8 * n) from (pow_mul 2 8 n).symm, mul_comm, add_comm]

theorem toNat_assemble (bytes : Nat → UInt8) :
    (assemble bytes).toNat = value 256 symbolBytes fun i => (bytes i).toNat :=
  toNat_foldl_or bytes (by decide)

theorem toNat_symbolByte (symbol : UInt64) {i : Nat} (hi : i < 8) :
    (symbolByte symbol i).toNat = symbol.toNat / 256 ^ i % 256 := by
  have hmod : (UInt64.ofNat (8 * i)).toNat % 64 = 8 * i := by
    rw [UInt64.toNat_ofNat']
    omega
  have hmask : (symbol.toNat >>> (8 * i)) &&& (0xFF : UInt64).toNat
      = symbol.toNat / 256 ^ i % 256 := by
    rw [show (0xFF : UInt64).toNat = 2 ^ 8 - 1 from rfl, Nat.and_two_pow_sub_one_eq_mod,
      Nat.shiftRight_eq_div_pow, pow_mul]
    rfl
  rw [symbolByte, UInt64.toNat_toUInt8, UInt64.toNat_and, UInt64.toNat_shiftRight, hmod, hmask]
  omega

/-- The five bytes of a symbol. -/
def bytesOfSymbol (symbol : UInt64) : Vector UInt8 symbolBytes :=
  Vector.ofFn fun i => symbolByte symbol i

theorem leValue_bytesOfSymbol (symbol : UInt64) :
    leValue (bytesOfSymbol symbol) = symbol.toNat % 2 ^ 40 := by
  rw [leValue, ← show 256 ^ symbolBytes = 2 ^ 40 from rfl, ← value_digits 256 symbolBytes]
  refine value_congr fun i hi => ?_
  rw [dif_pos hi, bytesOfSymbol, Vector.getElem_ofFn]
  exact toNat_symbolByte symbol (hi.trans (by decide))

/-- The first `n` writes of `pack`. -/
theorem foldlM_symbolByte (buffer : Bytes) (off : Nat) (symbol : UInt64) (n : Nat) :
    (List.range n).foldlM
      (fun buf i =>
        if off + i < buf.length then some (buf.set (off + i) (symbolByte symbol i)) else none)
      buffer
      = if n = 0 ∨ off + n ≤ buffer.length then
          some (buffer.take off ++ (List.range n).map (symbolByte symbol) ++ buffer.drop (off + n))
        else none := by
  induction n with
  | zero => simp
  | succ n ih =>
    rw [List.range_succ, List.foldlM_append, ih]
    by_cases hn : n = 0 ∨ off + n ≤ buffer.length
    · have hlength : (buffer.take off ++ (List.range n).map (symbolByte symbol)
          ++ buffer.drop (off + n)).length = buffer.length := by
        simp only [List.length_append, List.length_take, List.length_map, List.length_range,
          List.length_drop]
        omega
      rw [if_pos hn, Option.bind_eq_bind, Option.bind_some, List.foldlM_cons, hlength]
      simp only [List.foldlM_nil, bind_pure]
      by_cases hlt : off + n < buffer.length
      · have hlen : (buffer.take off).length = off := by rw [List.length_take]; omega
        have hdrop : buffer.drop (off + n) = buffer[off + n] :: buffer.drop (off + (n + 1)) :=
          List.drop_eq_getElem_cons hlt
        rw [if_pos hlt, if_pos (Or.inr (by omega)), List.set_append_right _ _ (by simp [hlen]),
          hdrop]
        simp [hlen]
      · rw [if_neg hlt, if_neg (by omega)]
    · rw [if_neg hn, if_neg (by omega)]
      rfl

/-- **`pack` writes the five bytes of the symbol, or fails on a buffer that ends before them.** -/
theorem pack_eq (buffer : Bytes) (off : Nat) (symbol : UInt64) :
    pack buffer off symbol
      = if off + symbolBytes ≤ buffer.length then
          some (buffer.take off ++ (bytesOfSymbol symbol).toList ++ buffer.drop (off + symbolBytes))
        else none := by
  have hbytes : (List.range symbolBytes).map (symbolByte symbol) = (bytesOfSymbol symbol).toList :=
    rfl
  rw [pack, foldlM_symbolByte, hbytes]
  simp only [show ¬ symbolBytes = 0 by decide, false_or]

theorem toNat_unpack (buffer : Bytes) (off : Nat) :
    (unpack buffer off).toNat = value 256 symbolBytes fun i => (buffer.getD (off + i) 0).toNat :=
  toNat_assemble _

/-- `unpack` reads the number of a five-byte block. -/
theorem toNat_unpack_block (buffer : Bytes) (i : Nat) :
    (unpack buffer (i * symbolBytes)).toNat = leValue (block symbolBytes buffer i) := by
  rw [toNat_unpack, leValue]
  refine value_congr fun j hj => ?_
  rw [dif_pos hj, block, Vector.getElem_ofFn, mul_comm]

/-- **`unpack` undoes `pack`** on a 40-bit symbol. -/
theorem unpack_bytesOfSymbol {buffer : Bytes} {i : Nat} {symbol : UInt64}
    (hblock : block symbolBytes buffer i = bytesOfSymbol symbol) (h : symbol.toNat < 2 ^ 40) :
    unpack buffer (i * symbolBytes) = symbol := by
  refine UInt64.toNat_inj.mp ?_
  rw [toNat_unpack_block, hblock, leValue_bytesOfSymbol, Nat.mod_eq_of_lt h]

/-- **Symbol after symbol, the array fills with their five-byte blocks.** -/
theorem packAll_eq (symbol : Nat → UInt64) {n : Nat} {buffer : Bytes}
    (h : n * symbolBytes ≤ buffer.length) :
    packAll symbol n buffer
      = some (concat ((List.range n).map fun i => bytesOfSymbol (symbol i))
          ++ buffer.drop (n * symbolBytes)) := by
  induction n with
  | zero => simp [packAll]
  | succ n ih =>
    have hn : n * symbolBytes + symbolBytes = (n + 1) * symbolBytes := by ring
    have ih := ih (by omega)
    have hlen : (concat ((List.range n).map fun i => bytesOfSymbol (symbol i))).length
        = n * symbolBytes := by
      rw [length_concat, List.length_map, List.length_range, mul_comm]
    unfold packAll at ih ⊢
    rw [List.range_succ, List.foldlM_append, ih, Option.bind_eq_bind, Option.bind_some,
      List.foldlM_cons]
    simp only [List.foldlM_nil, bind_pure]
    rw [pack_eq, if_pos (by simp only [List.length_append, hlen, List.length_drop]; omega),
      List.take_left' hlen, List.drop_append, hlen, List.map_append, concat_append, ← hn]
    have hnil : List.drop (n * symbolBytes + symbolBytes)
        (concat ((List.range n).map fun i => bytesOfSymbol (symbol i))) = [] :=
      List.drop_eq_nil_of_le (by omega)
    rw [hnil, List.nil_append, List.drop_drop]
    congr 2
    simp

/-! ## The exponents -/

/-- `781764 * powYExp ≡ -1` modulo `powDExp`. -/
def powYExp : Nat := 36574486605197331800134488920570034742531724273031656826081930983670520

theorem powYExp_mul : eps * powYExp + 1 = powDExp * 386083 := by decide +kernel

theorem exponent_powEps : exponent powEpsProgram Var.x Var.t = some eps := by decide +kernel

theorem exponent_powD : exponent powDProgram Var.x Var.t = some powDExp := by decide +kernel

theorem exponent_powY : exponent powYProgram Var.x Var.t = some powYExp := by decide +kernel

/-! ## Power residues in the field -/

/-- A generated function computes the power its exponent says. -/
theorem runPow_eq {prog : List (Instr Var)} {e : Nat}
    (h : exponent prog Var.x Var.t = some e) (x : Fp) : runPow prog x = x ^ e := by
  have hrun : runProgram FieldOps.square (· * ·) prog Var.x Var.t x = some (x ^ e) :=
    exec_pow h x
  rw [runPow, hrun, Option.getD_some]

theorem fastPowEps_eq (x : Fp) : fastPowEps x = x ^ eps := runPow_eq exponent_powEps x

theorem powD_eq (x : Fp) : powD x = x ^ powDExp := runPow_eq exponent_powD x

theorem powInvEpsPrime_eq (x : Fp) : powInvEpsPrime x = x ^ powYExp := runPow_eq exponent_powY x

/-- The symbol that truncates a residue to its low 40 bits. -/
def truncate (y : Fp) : UInt64 := UInt64.ofNat (y.val % 2 ^ 40)

theorem toNat_truncate (y : Fp) : (truncate y).toNat = y.val % 2 ^ 40 := by
  rw [truncate, UInt64.toNat_ofNat']
  omega

/-- **A symbol is the truncation of the power `D`.** -/
theorem presidueEps_eq (x : Fp) : presidueEps x = truncate (x ^ powDExp) := by
  refine UInt64.toNat_inj.mp ?_
  rw [toNat_truncate, presidueEps, toNat_assemble, powD_eq, Exact.freeze_eq, Exact.pack_eq,
    show (2 : Nat) ^ 40 = 256 ^ symbolBytes from rfl, ← value_digits]
  refine value_congr fun i hi => ?_
  have h32 : i < 32 := hi.trans (by decide)
  rw [List.getD_eq_getElem?_getD, Vector.getElem?_toList, Vector.getElem?_eq_getElem h32,
    Option.getD_some, toNat_leBytes]

theorem presidueEps_lt (x : Fp) : (presidueEps x).toNat < 2 ^ 40 := by
  rw [presidueEps_eq, toNat_truncate]
  exact Nat.mod_lt _ (by norm_num)

/-- A nonzero `eps`-th power is in the kernel of the power `D`. -/
theorem pow_eps_pow_D {r : Fp} (hr : r ≠ 0) : (r ^ eps) ^ powDExp = 1 := by
  have h := ZMod.pow_card_sub_one_eq_one hr
  rw [prime_sub_one] at h
  rw [← pow_mul]
  exact h

/-- **A nonzero `eps`-th power is invisible to the power `D`.** -/
theorem pow_eps_mul_pow_D {r : Fp} (hr : r ≠ 0) (x : Fp) :
    (r ^ eps * x) ^ powDExp = x ^ powDExp := by
  rw [mul_pow, pow_eps_pow_D hr, one_mul]

/-- **`pow_inv_eps_prime` of an `eps'`-th power** is an `eps'`-th root of its inverse. -/
theorem mul_powInvEpsPrime_pow {s : Fp} (hs : s ≠ 0) :
    s ^ eps * powInvEpsPrime (s ^ eps) ^ eps = 1 := by
  have hexp : eps + eps * (powYExp * eps) = eps * (powDExp * 386083) := by
    rw [← powYExp_mul]
    ring
  rw [powInvEpsPrime_eq, ← pow_mul, ← pow_mul, ← pow_add, hexp, ← mul_assoc, pow_mul, pow_mul,
    pow_eps_pow_D hs, one_pow]

/-- **Blinding by an `eps`-th power** leaves every symbol as it is, and `pow_inv_eps_prime` finds an
`eps`-th root of its inverse. -/
theorem blinding (x : Fp) {r : Fp} (hr : r ≠ 0) :
    presidueEps (x * fastPowEps r) = presidueEps x ∧
      powInvEpsPrime (fastPowEps r) ^ eps * fastPowEps r = 1 := by
  constructor
  · rw [presidueEps_eq, presidueEps_eq, fastPowEps_eq, mul_comm, pow_eps_mul_pow_D hr]
  · rw [fastPowEps_eq, mul_comm]
    exact mul_powInvEpsPrime_pow hr

/-- The blinding of 5 by the power of 2. -/
theorem blinding_example :
    presidueEps (5 * fastPowEps 2 : Fp) = presidueEps (5 : Fp) ∧
      powInvEpsPrime (fastPowEps (2 : Fp)) ^ eps * fastPowEps 2 = 1 :=
  blinding 5 fp_two_ne_zero

end HocusPocus.FastResidue
