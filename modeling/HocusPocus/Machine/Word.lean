import Mathlib.Data.Nat.Bitwise
import Mathlib.Tactic.Common

/-!
# Machine words that remember a wraparound

An unsigned `w`-bit word computes modulo `2 ^ w`. `Word w` pairs the bits with a ghost bit
`exact`, which is true as long as every operation on the way to the word had its exact result in
range. The ghost bit never influences the bits, so a program over `Word w` computes what the
machine computes, and "nothing wrapped on the way to `x`" is the statement `x.exact = true`.

`x.Is n` says both at once: nothing wrapped and `x` holds `n`. The rules `Is.add`, `Is.sub`, … run
a program on natural numbers, one side condition for each operation, and the lemmas `exact_add`,
`exact_mul`, … read an operation's side condition back off its ghost bit. `x.IsMod n` is what holds
of a word whether or not something wrapped, and its rules have no side condition.
-/

namespace Machine

/-- A `w`-bit unsigned word with its ghost bit. -/
@[ext]
structure Word (w : Nat) where
  bits : BitVec w
  /-- No operation on the way to this word left the range. -/
  exact : Bool
  deriving DecidableEq

namespace Word

variable {w v : Nat}

/-- The number the bits stand for. -/
def toNat (x : Word w) : Nat := x.bits.toNat

theorem toNat_lt (x : Word w) : x.toNat < 2 ^ w := x.bits.isLt

/-- A literal of the source. -/
def lit (w n : Nat) : Word w := ⟨BitVec.ofNat w n, decide (n < 2 ^ w)⟩

instance (n : Nat) : OfNat (Word w) n := ⟨lit w n⟩

instance : Inhabited (Word w) := ⟨0⟩

instance : Add (Word w) where
  add x y := ⟨x.bits + y.bits, x.exact && y.exact && decide (x.toNat + y.toNat < 2 ^ w)⟩

instance : Sub (Word w) where
  sub x y := ⟨x.bits - y.bits, x.exact && y.exact && decide (y.toNat ≤ x.toNat)⟩

instance : Mul (Word w) where
  mul x y := ⟨x.bits * y.bits, x.exact && y.exact && decide (x.toNat * y.toNat < 2 ^ w)⟩

/-- `x >> k`. -/
def shr (x : Word w) (k : Nat) : Word w := ⟨x.bits >>> k, x.exact⟩

/-- `x & (2 ^ k - 1)`. -/
def low (x : Word w) (k : Nat) : Word w := ⟨x.bits &&& BitVec.ofNat w (2 ^ k - 1), x.exact⟩

/-- A conversion to `v` bits: it drops the bits above. -/
def convert (v : Nat) (x : Word w) : Word v :=
  ⟨x.bits.setWidth v, x.exact && decide (x.toNat < 2 ^ v)⟩

/-- A comparison used as a number, 0 or 1. -/
def flag (x : Word w) (b : Nat → Bool) : Word w :=
  ⟨BitVec.ofBool (b x.toNat) |>.setWidth w, x.exact⟩

/-- Nothing wrapped, and the word holds `n`. -/
def Is (x : Word w) (n : Nat) : Prop := x.exact = true ∧ x.toNat = n

theorem Is.exact {x : Word w} {n : Nat} (h : x.Is n) : x.exact = true := h.1

theorem Is.toNat_eq {x : Word w} {n : Nat} (h : x.Is n) : x.toNat = n := h.2

theorem Is.lt {x : Word w} {n : Nat} (h : x.Is n) : n < 2 ^ w := h.2 ▸ x.toNat_lt

theorem is_toNat {x : Word w} (h : x.exact = true) : x.Is x.toNat := ⟨h, rfl⟩

theorem Is.congr {x : Word w} {m n : Nat} (h : x.Is m) (e : m = n) : x.Is n := e ▸ h

theorem Is.unique {x : Word w} {m n : Nat} (h : x.Is m) (h' : x.Is n) : m = n :=
  h.2.symm.trans h'.2

/-! ## Ghost bits -/

theorem exact_add {x y : Word w} :
    (x + y).exact = true ↔ x.exact = true ∧ y.exact = true ∧ x.toNat + y.toNat < 2 ^ w := by
  show (x.exact && y.exact && decide _) = true ↔ _
  simp only [Bool.and_eq_true, decide_eq_true_eq, and_assoc]

theorem exact_sub {x y : Word w} :
    (x - y).exact = true ↔ x.exact = true ∧ y.exact = true ∧ y.toNat ≤ x.toNat := by
  show (x.exact && y.exact && decide _) = true ↔ _
  simp only [Bool.and_eq_true, decide_eq_true_eq, and_assoc]

theorem exact_mul {x y : Word w} :
    (x * y).exact = true ↔ x.exact = true ∧ y.exact = true ∧ x.toNat * y.toNat < 2 ^ w := by
  show (x.exact && y.exact && decide _) = true ↔ _
  simp only [Bool.and_eq_true, decide_eq_true_eq, and_assoc]

@[simp] theorem exact_shr (x : Word w) (k : Nat) : (x.shr k).exact = x.exact := rfl

@[simp] theorem exact_low (x : Word w) (k : Nat) : (x.low k).exact = x.exact := rfl

@[simp] theorem exact_flag (x : Word w) (b : Nat → Bool) : (x.flag b).exact = x.exact := rfl

/-! ## Running a program on natural numbers -/

theorem is_lit {n : Nat} (h : n < 2 ^ w) : (lit w n).Is n :=
  ⟨decide_eq_true h, BitVec.toNat_ofNat .. |>.trans (Nat.mod_eq_of_lt h)⟩

theorem is_ofNat (n : Nat) (h : n < 2 ^ w) : (OfNat.ofNat n : Word w).Is n := is_lit h

theorem Is.add {x y : Word w} {m n : Nat} (hx : x.Is m) (hy : y.Is n) (h : m + n < 2 ^ w) :
    (x + y).Is (m + n) := by
  obtain ⟨ex, rfl⟩ := hx
  obtain ⟨ey, rfl⟩ := hy
  refine ⟨exact_add.mpr ⟨ex, ey, h⟩, ?_⟩
  exact (BitVec.toNat_add ..).trans (Nat.mod_eq_of_lt h)

theorem Is.sub {x y : Word w} {m n : Nat} (hx : x.Is m) (hy : y.Is n) (h : n ≤ m) :
    (x - y).Is (m - n) := by
  obtain ⟨ex, rfl⟩ := hx
  obtain ⟨ey, rfl⟩ := hy
  refine ⟨exact_sub.mpr ⟨ex, ey, h⟩, ?_⟩
  exact BitVec.toNat_sub_of_le h

theorem Is.mul {x y : Word w} {m n : Nat} (hx : x.Is m) (hy : y.Is n) (h : m * n < 2 ^ w) :
    (x * y).Is (m * n) := by
  obtain ⟨ex, rfl⟩ := hx
  obtain ⟨ey, rfl⟩ := hy
  refine ⟨exact_mul.mpr ⟨ex, ey, h⟩, ?_⟩
  exact (BitVec.toNat_mul ..).trans (Nat.mod_eq_of_lt h)

theorem Is.shr {x : Word w} {n : Nat} (hx : x.Is n) (k : Nat) : (x.shr k).Is (n / 2 ^ k) := by
  obtain ⟨ex, rfl⟩ := hx
  refine ⟨ex, ?_⟩
  exact (BitVec.toNat_ushiftRight ..).trans (Nat.shiftRight_eq_div_pow ..)

theorem Is.low {x : Word w} {n : Nat} (hx : x.Is n) (k : Nat) (hk : k ≤ w) :
    (x.low k).Is (n % 2 ^ k) := by
  obtain ⟨ex, rfl⟩ := hx
  refine ⟨ex, ?_⟩
  have hpow : 2 ^ k ≤ 2 ^ w := Nat.pow_le_pow_right (by decide) hk
  have hpos : 0 < 2 ^ k := Nat.two_pow_pos k
  have hmask : (BitVec.ofNat w (2 ^ k - 1)).toNat = 2 ^ k - 1 := by
    rw [BitVec.toNat_ofNat]
    exact Nat.mod_eq_of_lt (by omega)
  show (x.bits &&& BitVec.ofNat w (2 ^ k - 1)).toNat = _
  rw [BitVec.toNat_and, hmask, Nat.and_two_pow_sub_one_eq_mod]
  rfl

theorem Is.convert {x : Word w} {n : Nat} (hx : x.Is n) (h : n < 2 ^ v) :
    (x.convert v).Is n := by
  obtain ⟨ex, rfl⟩ := hx
  refine ⟨?_, (BitVec.toNat_setWidth ..).trans (Nat.mod_eq_of_lt h)⟩
  show (x.exact && decide (x.toNat < 2 ^ v)) = true
  rw [ex, decide_eq_true h]
  rfl

theorem Is.flag {x : Word w} {n : Nat} (hx : x.Is n) (b : Nat → Bool) (hw : 0 < w) :
    (x.flag b).Is (b n).toNat := by
  obtain ⟨ex, rfl⟩ := hx
  refine ⟨ex, ?_⟩
  show ((BitVec.ofBool (b x.toNat)).setWidth w).toNat = _
  have h1 : 1 < 2 ^ w := Nat.one_lt_two_pow (by omega)
  rw [BitVec.toNat_setWidth, BitVec.toNat_ofBool]
  exact Nat.mod_eq_of_lt (lt_of_le_of_lt (Bool.toNat_le _) h1)

/-! ## Words that may have wrapped -/

@[simp] theorem bits_add (x y : Word w) : (x + y).bits = x.bits + y.bits := rfl

@[simp] theorem bits_mul (x y : Word w) : (x * y).bits = x.bits * y.bits := rfl

@[simp] theorem bits_shr (x : Word w) (k : Nat) : (x.shr k).bits = x.bits >>> k := rfl

@[simp] theorem bits_low (x : Word w) (k : Nat) :
    (x.low k).bits = x.bits &&& BitVec.ofNat w (2 ^ k - 1) := rfl

/-- The word holds `n` modulo `2 ^ w`. -/
def IsMod (x : Word w) (n : Nat) : Prop := x.bits = BitVec.ofNat w n

theorem isMod_toNat (x : Word w) : x.IsMod x.toNat :=
  ((BitVec.ofNat_toNat w x.bits).trans (BitVec.setWidth_eq x.bits)).symm

theorem isMod_ofNat (n : Nat) : (OfNat.ofNat n : Word w).IsMod n := rfl

theorem IsMod.add {x y : Word w} {m n : Nat} (hx : x.IsMod m) (hy : y.IsMod n) :
    (x + y).IsMod (m + n) := by
  rw [IsMod, bits_add, hx, hy, BitVec.ofNat_add]

theorem IsMod.mul {x y : Word w} {m n : Nat} (hx : x.IsMod m) (hy : y.IsMod n) :
    (x * y).IsMod (m * n) := by
  rw [IsMod, bits_mul, hx, hy, BitVec.ofNat_mul]

theorem IsMod.bits_eq {x y : Word w} {n : Nat} (hx : x.IsMod n) (hy : y.IsMod n) :
    x.bits = y.bits := hx.trans hy.symm

end Word

end Machine
