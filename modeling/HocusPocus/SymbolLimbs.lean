import HocusPocus.FastResidue
import HocusPocus.Field.Lazy

/-!
# The generated powers on limbs

The programs of `fast_residue_25519.h` over the limbs of `fe25519.cpp`: a lazy sum of two reduced
elements leaves room for every square and product on the way.

* `powD_rep`, `fastPowEps_rep`: the powers on limbs stand for the powers in the field.
-/

namespace HocusPocus.FastResidue

open Machine Arith FieldOps Fe25519

variable {x : Fe25519} {e : Fp}

/-- What relates the two runs of a generated function relates its value to the power. -/
theorem runPow_of_rel {S : Fe25519 → Fp → Prop} {prog : List (Instr Var)} {n : Nat}
    (h : exponent prog Var.x Var.t = some n)
    (hrel : Option.Rel S (runProgram FieldOps.square (· * ·) prog Var.x Var.t x)
      (runProgram FieldOps.square (· * ·) prog Var.x Var.t e)) : S (runPow prog x) (e ^ n) := by
  have hfield : runProgram FieldOps.square (· * ·) prog Var.x Var.t e = some (e ^ n) := exec_pow h e
  rw [hfield] at hrel
  unfold runPow
  cases hrun : runProgram FieldOps.square (· * ·) prog Var.x Var.t x with
  | none =>
    rw [hrun] at hrel
    cases hrel
  | some y =>
    rw [hrun] at hrel
    cases hrel with
    | some hy => exact hy

theorem square_rep {y : Fe25519} {b : Fp} (hy : Rep 510 y b) :
    Rep 510 (FieldOps.square y) (FieldOps.square b) :=
  (hy.squared (by norm_num)).toRep.mono (by norm_num)

theorem mul_rep {y z : Fe25519} {b c : Fp} (hy : Rep 510 y b) (hz : Rep 510 z c) :
    Rep 510 (y * z) (FieldOps.mul b c) := (hy.mul hz (by norm_num)).mono (by norm_num)

/-- A generated function on limbs of at most 510. -/
theorem runPow_rep (hx : Rep 510 x e) {prog : List (Instr Var)} {n : Nat}
    (h : exponent prog Var.x Var.t = some n) : Rep 510 (runPow prog x) (e ^ n) :=
  runPow_of_rel h (runProgram_rel (fun _ _ => square_rep) (fun _ _ _ _ => mul_rep) prog Var.x Var.t
    hx)

theorem powD_rep (hx : Rep 510 x e) : Rep 510 (powD x) (e ^ powDExp) := by
  unfold powD
  exact runPow_rep hx exponent_powD

/-- `pow_D` ends with a product. -/
theorem powD_multiplied (hx : Rep 510 x e) : Multiplied (powD x) (e ^ powDExp) := by
  have hlast : powDProgram = powDProgram.dropLast ++ [.mul .t .t .x] := by decide +kernel
  refine runPow_of_rel (S := Multiplied) exponent_powD ?_
  rw [hlast]
  exact runProgram_mul_rel (fun _ _ => square_rep) (fun _ _ _ _ => mul_rep)
    (fun _ _ _ _ hy hz => hy.multiplied hz (by norm_num))
    powDProgram.dropLast Var.x Var.t Var.t Var.x hx

theorem fastPowEps_rep (hx : Rep 510 x e) : Rep 510 (fastPowEps x) (e ^ eps) := by
  unfold fastPowEps powEps
  exact runPow_rep hx exponent_powEps

end HocusPocus.FastResidue
