import Mathlib.Data.Nat.Size
import Mathlib.Tactic.Ring

/-!
# Trees of seeds, punctured at one leaf

A binary tree is grown level by level: node `i` has the children `2 * i` and `2 * i + 1`, and each
is a function of its parent and of its side. Two parties hold rows that agree at every node but
one. `accumulate` adds up a row with an operation that need not have inverses.

* `AgreeOff.accumulate`, `AgreeOff.accumulate_cancel`: the sums of two such rows differ by the entry
  they differ in.
* `AgreeOff.children`, `AgreeOff.repair`: the children of such rows agree at every node but the two
  below the missing one, and at every node but one once the other child is put in.
* `ancestor_lt`, `ancestor_succ`: the missing nodes are the ancestors of one leaf.
-/

namespace Arith

variable {S G : Type*} {w p q : Nat}

/-! ## Sums of a row -/

section

variable (op : G → G → G)

/-- `for i < w: acc = op(acc, f i)`. -/
def accumulate (w : Nat) (acc : G) (f : Nat → G) : G :=
  (List.range w).foldl (fun acc i => op acc (f i)) acc

@[simp] theorem accumulate_zero (acc : G) (f : Nat → G) : accumulate op 0 acc f = acc := rfl

theorem accumulate_succ (w : Nat) (acc : G) (f : Nat → G) :
    accumulate op (w + 1) acc f = op (accumulate op w acc f) (f w) := by
  simp only [accumulate, List.range_succ, List.foldl_append, List.foldl_cons, List.foldl_nil]

theorem accumulate_congr {acc : G} {f g : Nat → G} (h : ∀ i < w, f i = g i) :
    accumulate op w acc f = accumulate op w acc g := by
  induction w with
  | zero => rfl
  | succ w ih =>
    rw [accumulate_succ, accumulate_succ, ih fun i hi => h i (hi.trans (Nat.lt_succ_self w)),
      h w (Nat.lt_succ_self w)]

variable [Std.Commutative op] [Std.Associative op]

theorem op_right_comm (a b c : G) : op (op a b) c = op (op a c) b := by
  have hassoc : ∀ a b c : G, op (op a b) c = op a (op b c) := Std.Associative.assoc
  have hcomm : op b c = op c b := Std.Commutative.comm b c
  rw [hassoc, hcomm, hassoc]

/-- What the sum starts from may as well come last. -/
theorem op_accumulate (w : Nat) (acc x : G) (f : Nat → G) :
    op (accumulate op w acc f) x = accumulate op w (op acc x) f := by
  induction w with
  | zero => rfl
  | succ w ih => rw [accumulate_succ, accumulate_succ, ← ih, op_right_comm op]

end

/-! ## Rows that agree off one position -/

/-- The rows agree at every position below `w` but `p`. -/
def AgreeOff (w p : Nat) (x y : Nat → S) : Prop := ∀ i < w, i ≠ p → x i = y i

theorem AgreeOff.mono {v : Nat} {x y : Nat → S} (h : AgreeOff w p x y) (hv : v ≤ w) :
    AgreeOff v p x y :=
  fun i hi hne => h i (hi.trans_le hv) hne

theorem AgreeOff.map {x y : Nat → S} (h : AgreeOff w p x y) (f : S → G) :
    AgreeOff w p (fun i => f (x i)) fun i => f (y i) :=
  fun i hi hne => congrArg f (h i hi hne)

/-- **The sums of two rows differ by the entry the rows differ in.** -/
theorem AgreeOff.accumulate (op : G → G → G) [Std.Commutative op] [Std.Associative op]
    {f g : Nat → G} (h : AgreeOff w p f g) (hp : p < w) (acc : G) :
    op (accumulate op w acc f) (g p) = op (accumulate op w acc g) (f p) := by
  induction w with
  | zero => exact absurd hp (Nat.not_lt_zero p)
  | succ w ih =>
    rw [accumulate_succ, accumulate_succ]
    rcases Nat.lt_succ_iff_lt_or_eq.mp hp with hlt | rfl
    · have hlast : f w = g w := h w (Nat.lt_succ_self w) (Nat.ne_of_gt hlt)
      rw [hlast, op_right_comm op, ih (h.mono (Nat.le_succ w)) hlt, op_right_comm op]
    · have hbefore : Arith.accumulate op p acc f = Arith.accumulate op p acc g :=
        accumulate_congr op fun i hi => h i (hi.trans (Nat.lt_succ_self p)) (Nat.ne_of_lt hi)
      rw [hbefore, op_right_comm op]

/-- A sum that starts from what cancels the other's entry falls short by the missing entry. -/
theorem AgreeOff.accumulate_cancel (op : G → G → G) [Std.Commutative op] [Std.Associative op]
    {f g : Nat → G} (h : AgreeOff w p f g) (hp : p < w) {zero neg : G}
    (hneg : op neg (g p) = zero) :
    Arith.accumulate op w zero f = op (Arith.accumulate op w neg g) (f p) := by
  rw [← h.accumulate op hp neg, op_accumulate op, hneg]

/-! ## One level -/

/-- The children of a row: node `i` is on side `i % 2` of its parent `i / 2`. -/
def children (child : Nat → S → S) (x : Nat → S) (i : Nat) : S := child (i % 2) (x (i / 2))

/-- The other child of the same parent. -/
def sibling (i : Nat) : Nat := i ^^^ 1

theorem sibling_eq (i : Nat) : sibling i = 2 * (i / 2) + (1 - i % 2) := by
  have hdiv : (i ^^^ 1) / 2 = i / 2 := by
    have h := Nat.xor_div_two_pow (a := i) (b := 1) (n := 1)
    rwa [Nat.pow_one, Nat.div_eq_of_lt (by decide : 1 < 2), Nat.xor_zero] at h
  have hmod : (i ^^^ 1) % 2 = 1 - i % 2 := by
    have h := Nat.xor_mod_two_pow (a := i) (b := 1) (n := 1)
    rw [Nat.pow_one] at h
    rcases Nat.mod_two_eq_zero_or_one i with hi | hi
    · rw [h, hi]
      rfl
    · rw [h, hi]
      rfl
  unfold sibling
  omega

theorem sibling_div (i : Nat) : sibling i / 2 = i / 2 := by
  have := sibling_eq i
  omega

theorem sibling_mod (i : Nat) : sibling i % 2 = 1 - i % 2 := by
  have := sibling_eq i
  omega

theorem sibling_ne (i : Nat) : sibling i ≠ i := by
  have := sibling_eq i
  omega

theorem eq_or_eq_sibling {i : Nat} (h : i / 2 = q / 2) : i = q ∨ i = sibling q := by
  have := sibling_eq q
  omega

variable {child : Nat → S → S} {x y : Nat → S}

/-- The children of nodes that agree, agree. -/
theorem AgreeOff.children (h : AgreeOff w p x y) {i : Nat} (hi : i < 2 * w) (hne : i / 2 ≠ p) :
    children child x i = children child y i :=
  congrArg (child (i % 2)) (h (i / 2) (by omega) hne)

/-- **One level down**: the rows of children agree off `q` once the sibling of `q` is put in. -/
theorem AgreeOff.repair (h : AgreeOff w p x y) (hq : q / 2 = p) {z : Nat → S}
    (hsibling : z (sibling q) = child (1 - q % 2) (x p))
    (hrest : ∀ i, i / 2 ≠ p → z i = Arith.children child y i) :
    AgreeOff (2 * w) q (Arith.children child x) z := by
  intro i hi hne
  by_cases hparent : i / 2 = p
  · rcases eq_or_eq_sibling (hparent.trans hq.symm) with heq | rfl
    · exact absurd heq hne
    · rw [hsibling, Arith.children, sibling_mod, sibling_div, hq]
  · rw [hrest i hparent]
    exact h.children hi hparent

/-! ## The path to a leaf -/

/-- The node of level `d` above leaf `leaf`, in a tree whose leaves are at level `depth`. -/
def ancestor (depth leaf d : Nat) : Nat := leaf >>> (depth - d)

/-- The number of nodes of level `d` above `n` leaves. -/
def width (n depth d : Nat) : Nat := (n + 2 ^ (depth - d) - 1) / 2 ^ (depth - d)

theorem ancestor_eq (depth leaf d : Nat) : ancestor depth leaf d = leaf / 2 ^ (depth - d) :=
  Nat.shiftRight_eq_div_pow _ _

@[simp] theorem ancestor_depth (depth leaf : Nat) : ancestor depth leaf depth = leaf := by
  rw [ancestor, Nat.sub_self, Nat.shiftRight_zero]

theorem ancestor_lt {n depth leaf : Nat} (h : leaf < n) (d : Nat) :
    ancestor depth leaf d < width n depth d := by
  have hpos : 0 < 2 ^ (depth - d) := Nat.two_pow_pos _
  rw [ancestor_eq, width, Nat.lt_iff_add_one_le, Nat.le_div_iff_mul_le hpos, Nat.add_mul,
    Nat.one_mul]
  have hle : leaf / 2 ^ (depth - d) * 2 ^ (depth - d) ≤ leaf := Nat.div_mul_le_self _ _
  omega

/-- The parent of an ancestor is the next ancestor. -/
theorem ancestor_succ {depth d : Nat} (h : d < depth) (leaf : Nat) :
    ancestor depth leaf (d + 1) / 2 = ancestor depth leaf d := by
  rw [ancestor_eq, ancestor_eq, Nat.div_div_eq_div_mul, ← Nat.pow_succ]
  congr 2
  omega

/-- A level has at most twice the nodes of the level above it. -/
theorem width_succ_le {depth d : Nat} (h : d < depth) (n : Nat) :
    width n depth (d + 1) ≤ 2 * width n depth d := by
  have hpow : 2 ^ (depth - d) = 2 ^ (depth - (d + 1)) * 2 := by
    rw [← Nat.pow_succ]
    congr 1
    omega
  unfold width
  rw [hpow]
  have hpos : 0 < 2 ^ (depth - (d + 1)) := Nat.two_pow_pos _
  generalize 2 ^ (depth - (d + 1)) = m at hpos
  have hle : n ≤ m * (2 * ((n + m * 2 - 1) / (m * 2))) := by
    have hceil := Nat.lt_div_mul_add (a := n + m * 2 - 1) (b := m * 2) (by omega)
    have hring : m * (2 * ((n + m * 2 - 1) / (m * 2))) = (n + m * 2 - 1) / (m * 2) * (m * 2) := by
      ring
    omega
  generalize 2 * ((n + m * 2 - 1) / (m * 2)) = k at hle
  calc (n + m - 1) / m ≤ (m - 1 + m * k) / m := Nat.div_le_div_right (by omega)
    _ = k := by rw [Nat.add_mul_div_left _ _ hpos, Nat.div_eq_of_lt (by omega), Nat.zero_add]

/-- Above an even number of leaves there are half as many parents. -/
theorem two_mul_width_pred {n depth : Nat} (heven : n % 2 = 0) (hdepth : 1 ≤ depth) :
    2 * width n depth (depth - 1) = n := by
  have hone : depth - (depth - 1) = 1 := by omega
  rw [width, hone, Nat.pow_one]
  omega

end Arith
