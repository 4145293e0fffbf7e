import Mathlib.Algebra.Group.Basic
import Mathlib.Tactic.Common

/-!
# Straight-line programs of squarings and products

A fast exponentiation is a straight-line program over a few variables. `exec` runs it over any
carrier with a squaring and a product; a variable that was never written has no value, so `exec`
is `none` for a program that reads one.

Over the natural numbers with doubling and addition a program computes its exponent
(`exponent`), and `exec_pow` transfers that to every monoid: the program sets its result to the
input to the power `exponent`. One evaluation of a program on exponents is thus a proof about
every input. `runProgram_rel` runs a program over two carriers side by side.
-/

namespace Arith

/-- An instruction over variables `ι`. -/
inductive Instr (ι : Type) where
  | square (dst src : ι)
  | mul (dst a b : ι)
  | copy (dst src : ι)
  deriving DecidableEq

/-- What the variables hold; `none` before the first write. -/
abbrev Store (ι : Type) (α : Type*) := ι → Option α

variable {ι : Type} {α : Type*} {β : Type*} [DecidableEq ι]

/-- Write `v` to `dst`. -/
def Store.set (s : Store ι α) (dst : ι) (v : α) : Store ι α :=
  fun i => if i = dst then some v else s i

/-- One instruction; `none` if it reads an unwritten variable. -/
def Instr.step (sq : α → α) (mul : α → α → α) (s : Store ι α) : Instr ι → Option (Store ι α)
  | .square dst src => (s src).map fun a => s.set dst (sq a)
  | .mul dst a b => (s a).bind fun x => (s b).map fun y => s.set dst (mul x y)
  | .copy dst src => (s src).map fun a => s.set dst a

/-- A program, instruction by instruction. -/
def exec (sq : α → α) (mul : α → α → α) (prog : List (Instr ι)) (s : Store ι α) :
    Option (Store ι α) :=
  prog.foldlM (Instr.step sq mul) s

theorem exec_append (sq : α → α) (mul : α → α → α) (prog rest : List (Instr ι)) (s : Store ι α) :
    exec sq mul (prog ++ rest) s = (exec sq mul prog s).bind (exec sq mul rest) :=
  List.foldlM_append

/-- The result in `out` of a program started with its input in `inp`. -/
def runProgram (sq : α → α) (mul : α → α → α) (prog : List (Instr ι)) (inp out : ι) (x : α) :
    Option α :=
  (exec sq mul prog (Store.set (fun _ => none) inp x)).bind fun s => s out

/-- The power a program raises its input to. -/
def exponent (prog : List (Instr ι)) (inp out : ι) : Option Nat :=
  runProgram (fun e => 2 * e) (· + ·) prog inp out 1

/-! ## Programs commute with homomorphisms -/

/-- The store with a function applied to every value. -/
def Store.map (f : α → β) (s : Store ι α) : Store ι β := fun i => (s i).map f

omit [DecidableEq ι] in
@[simp] theorem Store.map_apply (f : α → β) (s : Store ι α) (i : ι) :
    s.map f i = (s i).map f := rfl

theorem Store.map_set (f : α → β) (s : Store ι α) (dst : ι) (v : α) :
    (s.set dst v).map f = (s.map f).set dst (f v) := by
  funext i
  simp only [Store.map, Store.set]
  split <;> rfl

variable {sq : α → α} {mul : α → α → α} {sq' : β → β} {mul' : β → β → β} {f : α → β}

theorem step_map (hsq : ∀ a, f (sq a) = sq' (f a)) (hmul : ∀ a b, f (mul a b) = mul' (f a) (f b))
    (s : Store ι α) (i : Instr ι) :
    i.step sq' mul' (s.map f) = (i.step sq mul s).map (Store.map f) := by
  cases i with
  | square dst src => cases h : s src <;> simp [Instr.step, h, hsq, Store.map_set]
  | mul dst a b =>
    cases ha : s a <;> cases hb : s b <;> simp [Instr.step, ha, hb, hmul, Store.map_set]
  | copy dst src => cases h : s src <;> simp [Instr.step, h, Store.map_set]

theorem exec_map (hsq : ∀ a, f (sq a) = sq' (f a)) (hmul : ∀ a b, f (mul a b) = mul' (f a) (f b))
    (prog : List (Instr ι)) (s : Store ι α) :
    exec sq' mul' prog (s.map f) = (exec sq mul prog s).map (Store.map f) := by
  induction prog generalizing s with
  | nil => rfl
  | cons i prog ih =>
    simp only [exec, List.foldlM_cons] at ih ⊢
    rw [step_map hsq hmul]
    cases h : i.step sq mul s with
    | none => rfl
    | some s' => exact ih s'

theorem runProgram_map (hsq : ∀ a, f (sq a) = sq' (f a))
    (hmul : ∀ a b, f (mul a b) = mul' (f a) (f b)) (prog : List (Instr ι)) (inp out : ι) (x : α) :
    runProgram sq' mul' prog inp out (f x) = (runProgram sq mul prog inp out x).map f := by
  have hinit : (Store.set (fun _ => none) inp (f x) : Store ι β)
      = Store.map f (Store.set (fun _ => none) inp x) := by
    rw [Store.map_set]
    rfl
  rw [runProgram, hinit, exec_map hsq hmul, runProgram]
  cases exec sq mul prog (Store.set (fun _ => none) inp x) <;> rfl

/-! ## Programs keep a relation -/

section

variable {R : α → β → Prop}

/-- The same variables are written in both stores, with related values. -/
def Store.Rel (R : α → β → Prop) (s : Store ι α) (s' : Store ι β) : Prop :=
  ∀ i, Option.Rel R (s i) (s' i)

theorem Store.Rel.set {s : Store ι α} {s' : Store ι β} (h : Store.Rel R s s') (dst : ι) {v : α}
    {v' : β} (hv : R v v') : Store.Rel R (s.set dst v) (s'.set dst v') := by
  intro i
  unfold Store.set
  split
  · exact .some hv
  · exact h i

omit [DecidableEq ι] in
theorem rel_bind {γ : Type*} {δ : Type*} {S : γ → δ → Prop} {a : Option α} {b : Option β}
    {k : α → Option γ} {l : β → Option δ} (h : Option.Rel R a b)
    (hkl : ∀ x y, R x y → Option.Rel S (k x) (l y)) : Option.Rel S (a.bind k) (b.bind l) := by
  cases h with
  | none => exact .none
  | some hxy => exact hkl _ _ hxy

theorem step_rel (hsq : ∀ a b, R a b → R (sq a) (sq' b))
    (hmul : ∀ a b c d, R a b → R c d → R (mul a c) (mul' b d)) {s : Store ι α} {s' : Store ι β}
    (h : Store.Rel R s s') (i : Instr ι) :
    Option.Rel (Store.Rel R) (i.step sq mul s) (i.step sq' mul' s') := by
  cases i with
  | square dst src =>
    simp only [Instr.step, Option.map_eq_bind]
    exact rel_bind (h src) fun x y hxy => .some (h.set dst (hsq x y hxy))
  | mul dst a b =>
    simp only [Instr.step, Option.map_eq_bind]
    exact rel_bind (h a) fun x y hxy => rel_bind (h b) fun z w hzw =>
      .some (h.set dst (hmul x y z w hxy hzw))
  | copy dst src =>
    simp only [Instr.step, Option.map_eq_bind]
    exact rel_bind (h src) fun x y hxy => .some (h.set dst hxy)

theorem exec_rel (hsq : ∀ a b, R a b → R (sq a) (sq' b))
    (hmul : ∀ a b c d, R a b → R c d → R (mul a c) (mul' b d)) (prog : List (Instr ι))
    {s : Store ι α} {s' : Store ι β} (h : Store.Rel R s s') :
    Option.Rel (Store.Rel R) (exec sq mul prog s) (exec sq' mul' prog s') := by
  induction prog generalizing s s' with
  | nil => exact .some h
  | cons i prog ih =>
    simp only [exec, List.foldlM_cons] at ih ⊢
    exact rel_bind (step_rel hsq hmul h i) fun _ _ hnext => ih hnext

/-- **A program keeps every relation its operations keep.** -/
theorem runProgram_rel (hsq : ∀ a b, R a b → R (sq a) (sq' b))
    (hmul : ∀ a b c d, R a b → R c d → R (mul a c) (mul' b d)) (prog : List (Instr ι)) (inp out : ι)
    {x : α} {y : β} (h : R x y) :
    Option.Rel R (runProgram sq mul prog inp out x) (runProgram sq' mul' prog inp out y) := by
  have hinit : Store.Rel R (Store.set (fun _ => none) inp x) (Store.set (fun _ => none) inp y) :=
    Store.Rel.set (fun _ => .none) inp h
  exact rel_bind (exec_rel hsq hmul prog hinit) fun _ _ hrel => hrel out

/-- The result of a product. -/
theorem exec_mul_result (sq : α → α) (mul : α → α → α) (out v w : ι) (s : Store ι α) :
    (exec sq mul [.mul out v w] s).bind (fun s => s out)
      = (s v).bind fun a => (s w).bind fun c => some (mul a c) := by
  cases hv : s v with
  | none => simp [exec, Instr.step, hv]
  | some a => cases hw : s w <;> simp [exec, Instr.step, hv, hw, Store.set]

/-- What the last product of a program gives its result. -/
theorem runProgram_mul_rel {S : α → β → Prop} (hsq : ∀ a b, R a b → R (sq a) (sq' b))
    (hmul : ∀ a b c d, R a b → R c d → R (mul a c) (mul' b d))
    (hlast : ∀ a b c d, R a b → R c d → S (mul a c) (mul' b d)) (prog : List (Instr ι))
    (inp out v w : ι) {x : α} {y : β} (h : R x y) :
    Option.Rel S (runProgram sq mul (prog ++ [.mul out v w]) inp out x)
      (runProgram sq' mul' (prog ++ [.mul out v w]) inp out y) := by
  have hinit : Store.Rel R (Store.set (fun _ => none) inp x) (Store.set (fun _ => none) inp y) :=
    Store.Rel.set (fun _ => .none) inp h
  unfold runProgram
  rw [exec_append, exec_append, Option.bind_assoc, Option.bind_assoc]
  refine rel_bind (exec_rel hsq hmul prog hinit) fun s s' hrel => ?_
  rw [exec_mul_result, exec_mul_result]
  exact rel_bind (hrel v) fun a b hab => rel_bind (hrel w) fun c d hcd =>
    .some (hlast a b c d hab hcd)

end

/-- **A program computes the power its exponent says**, in every monoid. -/
theorem exec_pow {M : Type*} [Monoid M] {prog : List (Instr ι)} {inp out : ι} {e : Nat}
    (h : exponent prog inp out = some e) (x : M) :
    runProgram (fun a => a * a) (· * ·) prog inp out x = some (x ^ e) := by
  have hrun : runProgram (fun a => a * a) (· * ·) prog inp out (x ^ 1)
      = (runProgram (fun e => 2 * e) (· + ·) prog inp out 1).map fun e => x ^ e :=
    runProgram_map (fun a => by rw [Nat.two_mul, pow_add]) (fun a b => pow_add x a b) prog inp out 1
  rw [show runProgram (fun e => 2 * e) (· + ·) prog inp out 1 = some e from h] at hrun
  rw [pow_one] at hrun
  exact hrun

end Arith
