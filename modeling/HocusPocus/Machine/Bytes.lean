import HocusPocus.Arith.Radix
import Mathlib.Data.List.GetD
import Mathlib.Tactic.Linarith

/-!
# Byte strings in blocks

A message is a byte string, and most messages are rows of `n`-byte blocks. `block n buf i` is the
`i`-th block of a buffer and `concat` is the buffer with the given blocks. `leValue` and `leBytes`
are the little-endian reading and writing of a block.
-/

namespace Machine

open Arith

/-- A byte string. -/
abbrev Bytes := List UInt8

variable {n : Nat}

/-- The `i`-th `n`-byte block of a buffer. -/
def block (n : Nat) (buf : Bytes) (i : Nat) : Vector UInt8 n :=
  Vector.ofFn fun j => buf.getD (n * i + j) 0

/-- `b[i] ^= x`, inside the block. -/
def xorAt (b : Vector UInt8 n) (i : Nat) (x : UInt8) : Vector UInt8 n :=
  if h : i < n then b.set i (b[i] ^^^ x) else b

/-- The buffer with the given blocks. -/
def concat (blocks : List (Vector UInt8 n)) : Bytes := blocks.flatMap Vector.toList

@[simp] theorem concat_nil : concat ([] : List (Vector UInt8 n)) = [] := rfl

theorem concat_cons (b : Vector UInt8 n) (l : List (Vector UInt8 n)) :
    concat (b :: l) = b.toList ++ concat l := rfl

@[simp] theorem length_concat (l : List (Vector UInt8 n)) : (concat l).length = n * l.length := by
  induction l with
  | nil => rfl
  | cons b l ih =>
    rw [concat_cons, List.length_append, Vector.length_toList, ih, List.length_cons]
    ring

theorem concat_append (l l' : List (Vector UInt8 n)) :
    concat (l ++ l') = concat l ++ concat l' := List.flatMap_append

theorem getD_concat (l : List (Vector UInt8 n)) {i j : Nat} (hi : i < l.length) (hj : j < n) :
    (concat l).getD (n * i + j) 0 = l[i][j] := by
  induction l generalizing i with
  | nil => exact absurd hi (Nat.not_lt_zero _)
  | cons b l ih =>
    rw [concat_cons]
    cases i with
    | zero =>
      rw [Nat.mul_zero, Nat.zero_add, List.getD_append _ _ _ _ (by simpa using hj)]
      simp [List.getD_eq_getElem?_getD, hj]
    | succ i =>
      have hlt : i < l.length := Nat.lt_of_succ_lt_succ hi
      rw [List.getD_append_right _ _ _ _ (by simp only [Vector.length_toList]; nlinarith),
        Vector.length_toList, show n * (i + 1) + j - n = n * i + j by rw [Nat.mul_succ]; omega]
      exact ih hlt

/-- **The blocks of a buffer are the blocks it was made of.** -/
theorem block_concat (l : List (Vector UInt8 n)) {i : Nat} (hi : i < l.length) :
    block n (concat l) i = l[i] := by
  refine Vector.ext fun j hj => ?_
  rw [block, Vector.getElem_ofFn]
  exact getD_concat l hi hj

/-- The blocks of a buffer that goes on after them. -/
theorem block_concat_append (l : List (Vector UInt8 n)) (rest : Bytes) {i : Nat}
    (hi : i < l.length) : block n (concat l ++ rest) i = l[i] := by
  refine Vector.ext fun j hj => ?_
  have hlt : n * i + j < (concat l).length := by
    rw [length_concat]
    calc n * i + j < n * i + n := by omega
      _ = n * (i + 1) := by ring
      _ ≤ n * l.length := Nat.mul_le_mul_left n hi
  rw [block, Vector.getElem_ofFn, List.getD_append _ _ _ _ hlt]
  exact getD_concat l hi hj

/-- Blocks of the same number are read off their buffer. -/
theorem concat_injective {l l' : List (Vector UInt8 n)} (hlen : l.length = l'.length)
    (h : concat l = concat l') : l = l' := by
  refine List.ext_getElem hlen fun i hi hi' => ?_
  rw [← block_concat l hi, h, block_concat l' hi']

/-- The first block of a buffer that starts with it. -/
@[simp] theorem block_append (b : Vector UInt8 n) (rest : Bytes) :
    block n (b.toList ++ rest) 0 = b := by
  refine Vector.ext fun j hj => ?_
  rw [block, Vector.getElem_ofFn, Nat.mul_zero, Nat.zero_add,
    List.getD_append _ _ _ _ (by simpa using hj)]
  simp [List.getD_eq_getElem?_getD, hj]

@[simp] theorem block_toList (b : Vector UInt8 n) : block n b.toList 0 = b := by
  have h := block_append b []
  rwa [List.append_nil] at h

/-- The blocks of a two-dimensional array, row by row. -/
def grid {α : Type} (rows cols : Nat) (f : Nat → Nat → α) : List α :=
  (List.range rows).flatMap fun i => (List.range cols).map (f i)

@[simp] theorem length_grid {α : Type} (rows cols : Nat) (f : Nat → Nat → α) :
    (grid rows cols f).length = rows * cols := by
  simp [grid, List.length_flatMap, List.map_const']

theorem grid_succ {α : Type} (rows cols : Nat) (f : Nat → Nat → α) :
    grid (rows + 1) cols f = grid rows cols f ++ (List.range cols).map (f rows) := by
  simp [grid, List.range_succ]

theorem getElem_grid {α : Type} {rows cols : Nat} (f : Nat → Nat → α) {i j : Nat} (hi : i < rows)
    (hj : j < cols) (h : i * cols + j < (grid rows cols f).length) :
    (grid rows cols f)[i * cols + j] = f i j := by
  induction rows with
  | zero => exact absurd hi (Nat.not_lt_zero _)
  | succ rows ih =>
    have hsplit := grid_succ rows cols f
    rcases Nat.lt_succ_iff_lt_or_eq.mp hi with hlt | rfl
    · have hin : i * cols + j < (grid rows cols f).length := by
        rw [length_grid]
        nlinarith
      rw [List.getElem_of_eq hsplit h, List.getElem_append_left hin]
      exact ih hlt hin
    · rw [List.getElem_of_eq hsplit h, List.getElem_append_right (by rw [length_grid]; omega)]
      simp

/-! ## Little-endian numbers -/

/-- The number a block stands for, low byte first. -/
def leValue (b : Vector UInt8 n) : Nat :=
  value 256 n fun i => if h : i < n then b[i].toNat else 0

/-- The low `n` bytes of a number, low byte first. -/
def leBytes (n x : Nat) : Vector UInt8 n := Vector.ofFn fun i => UInt8.ofNat (x / 256 ^ i.val)

theorem leValue_lt (b : Vector UInt8 n) : leValue b < 256 ^ n :=
  value_lt fun i hi => by rw [dif_pos hi]; exact b[i].toNat_lt

theorem toNat_leBytes (x : Nat) {i : Nat} (hi : i < n) :
    (leBytes n x)[i].toNat = x / 256 ^ i % 256 := by
  rw [leBytes, Vector.getElem_ofFn]
  rfl

@[simp] theorem leValue_leBytes (x : Nat) : leValue (leBytes n x) = x % 256 ^ n := by
  rw [← value_digits]
  refine value_congr fun i hi => ?_
  rw [dif_pos hi, toNat_leBytes]

/-- A block is determined by its number. -/
theorem leValue_injective : Function.Injective (leValue : Vector UInt8 n → Nat) := by
  intro b b' h
  refine Vector.ext fun i hi => ?_
  have := digits_unique (b := 256) (fun i hi => by rw [dif_pos hi]; exact b[i].toNat_lt)
    (fun i hi => by rw [dif_pos hi]; exact b'[i].toNat_lt) h i hi
  rw [dif_pos hi, dif_pos hi] at this
  exact UInt8.toNat_inj.mp this

end Machine
