import HocusPocus.Duplex.Run

/-!
# Loops of two parties

Two parties that loop over the same range run round by round: `runs_foldlM` is the rule with an
invariant on the values the two loops carry.
-/

namespace Duplex

variable {ε ε' μ α β : Type}

theorem foldlM_range_succ {m : Type → Type} [Monad m] [LawfulMonad m] (n : Nat)
    (f : α → Nat → m α) (a : α) :
    (List.range (n + 1)).foldlM f a = (List.range n).foldlM f a >>= fun a => f a n := by
  rw [List.range_succ, List.foldlM_append]
  simp

/-- **The rule of loops**: rounds that run and keep an invariant make a loop that runs and ends
with it. -/
theorem runs_foldlM {P : Nat → α → β → Prop} {f : α → Nat → Proc ε μ α}
    {g : β → Nat → Proc ε' μ β} {a : α} {b : β} (h : P 0 a b) (n : Nat)
    (hround : ∀ i < n, ∀ a b, P i a b → ∃ a' b', Runs (f a i) (g b i) a' b' ∧ P (i + 1) a' b') :
    ∃ a' b', Runs ((List.range n).foldlM f a) ((List.range n).foldlM g b) a' b' ∧ P n a' b' := by
  induction n with
  | zero => exact ⟨a, b, runs_ret a b, h⟩
  | succ n ih =>
    obtain ⟨a₁, b₁, hruns, hP⟩ := ih fun i hi => hround i (Nat.lt_succ_of_lt hi)
    obtain ⟨a₂, b₂, hlast, hP'⟩ := hround n (Nat.lt_succ_self n) a₁ b₁ hP
    rw [foldlM_range_succ, foldlM_range_succ]
    exact ⟨a₂, b₂, hruns.bind hlast, hP'⟩

end Duplex
