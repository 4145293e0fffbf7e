import HocusPocus.Duplex.Proc

/-!
# Two parties over FIFO channels

A configuration is two parties and the two queues of messages under way. A step lets either party
send (its message joins the queue) or receive (it takes the head of the other queue). The
scheduler is arbitrary, so a run is any sequence of steps.

* `step_diamond`: two steps from one configuration close a diamond, since each party is
  sequential and each queue has one writer and one reader.
* `step_wf`: no schedule is infinite.
* `Runs.completes`: if some schedule brings both parties to values with empty queues, then every
  schedule ends, and there.
* `Runs.feed_left`: a run, from the side of one party alone.
* `Runs.bind`, `runs_send_recv`, `runs_recv_send`: the rules a protocol is run with, phase by phase
  and message by message.
-/

namespace Duplex

open Relation

variable {ε ε' μ α β γ δ : Type}

/-- Two parties and the messages under way: `toRight` from the left party to the right one,
`toLeft` the other way. -/
structure Config (ε ε' μ α β : Type) where
  left : Proc ε μ α
  right : Proc ε' μ β
  toRight : List μ
  toLeft : List μ

/-- One action of one of the two parties. -/
inductive Step : Config ε ε' μ α β → Config ε ε' μ α β → Prop
  | sendLeft (m : μ) (p : Proc ε μ α) (q : Proc ε' μ β) (r l : List μ) :
      Step ⟨.send m p, q, r, l⟩ ⟨p, q, r ++ [m], l⟩
  | recvLeft (k : μ → Proc ε μ α) (q : Proc ε' μ β) (m : μ) (r l : List μ) :
      Step ⟨.recv k, q, r, m :: l⟩ ⟨k m, q, r, l⟩
  | sendRight (p : Proc ε μ α) (m : μ) (q : Proc ε' μ β) (r l : List μ) :
      Step ⟨p, .send m q, r, l⟩ ⟨p, q, r, l ++ [m]⟩
  | recvRight (p : Proc ε μ α) (k : μ → Proc ε' μ β) (m : μ) (r l : List μ) :
      Step ⟨p, .recv k, m :: r, l⟩ ⟨p, k m, r, l⟩

/-- Any number of actions, in any order. -/
abbrev Reduces : Config ε ε' μ α β → Config ε ε' μ α β → Prop := ReflTransGen Step

/-- The start of a run: nothing is under way. -/
def start (p : Proc ε μ α) (q : Proc ε' μ β) : Config ε ε' μ α β := ⟨p, q, [], []⟩

/-- Both parties have ended with a value and every message has been read. -/
def done (a : α) (b : β) : Config ε ε' μ α β := ⟨.ret a, .ret b, [], []⟩

/-! ## Every schedule ends alike -/

/-- **The diamond**: two actions possible in one configuration are the same action, or each can
be followed by the other. -/
theorem step_diamond {c c₁ c₂ : Config ε ε' μ α β} (h₁ : Step c c₁) (h₂ : Step c c₂) :
    c₁ = c₂ ∨ ∃ d, Step c₁ d ∧ Step c₂ d := by
  cases h₁ with
  | sendLeft m p q r l =>
    cases h₂ with
    | sendLeft => exact Or.inl rfl
    | sendRight _ m' q' => exact Or.inr ⟨_, .sendRight _ _ _ _ _, .sendLeft _ _ _ _ _⟩
    | recvRight _ k m' r' => exact Or.inr ⟨_, .recvRight _ _ _ _ _, .sendLeft _ _ _ _ _⟩
  | recvLeft k q m r l =>
    cases h₂ with
    | recvLeft => exact Or.inl rfl
    | sendRight _ m' q' => exact Or.inr ⟨_, .sendRight _ _ _ _ _, .recvLeft _ _ _ _ _⟩
    | recvRight _ k' m' r' => exact Or.inr ⟨_, .recvRight _ _ _ _ _, .recvLeft _ _ _ _ _⟩
  | sendRight p m q r l =>
    cases h₂ with
    | sendLeft m' p' => exact Or.inr ⟨_, .sendLeft _ _ _ _ _, .sendRight _ _ _ _ _⟩
    | recvLeft k _ m' => exact Or.inr ⟨_, .recvLeft _ _ _ _ _, .sendRight _ _ _ _ _⟩
    | sendRight => exact Or.inl rfl
  | recvRight p k m r l =>
    cases h₂ with
    | sendLeft m' p' => exact Or.inr ⟨_, .sendLeft _ _ _ _ _, .recvRight _ _ _ _ _⟩
    | recvLeft k' _ m' => exact Or.inr ⟨_, .recvLeft _ _ _ _ _, .recvRight _ _ _ _ _⟩
    | recvRight => exact Or.inl rfl

theorem reduces_join {c c₁ c₂ : Config ε ε' μ α β} (h₁ : Reduces c c₁) (h₂ : Reduces c c₂) :
    Join Reduces c₁ c₂ := by
  refine church_rosser (fun a b c hb hc => ?_) h₁ h₂
  rcases step_diamond hb hc with rfl | ⟨d, hbd, hcd⟩
  · exact ⟨b, .refl, .refl⟩
  · exact ⟨d, .single hbd, .single hcd⟩

theorem not_step_done {a : α} {b : β} {c : Config ε ε' μ α β} : ¬ Step (done a b) c := by
  intro h
  cases h

theorem eq_of_done_reduces {a : α} {b : β} {c : Config ε ε' μ α β}
    (h : Reduces (done a b) c) : c = done a b := by
  rcases h.cases_head with h | ⟨d, hd, -⟩
  · exact h.symm
  · exact absurd hd not_step_done

/-! ## No schedule is infinite -/

/-- `p'` is what an action of `p` leaves. -/
inductive Rest : Proc ε μ α → Proc ε μ α → Prop
  | send (m : μ) (p : Proc ε μ α) : Rest p (.send m p)
  | recv (k : μ → Proc ε μ α) (m : μ) : Rest (k m) (.recv k)

theorem rest_acc (p : Proc ε μ α) : Acc Rest p := by
  induction p with
  | ret a => exact ⟨_, fun p' h => by cases h⟩
  | fault e => exact ⟨_, fun p' h => by cases h⟩
  | send m p ih => exact ⟨_, fun p' h => by cases h; exact ih⟩
  | recv k ih => exact ⟨_, fun p' h => by cases h; exact ih _⟩

/-- A step is an action of one party and leaves the other as it is. -/
theorem step_rest {c c' : Config ε ε' μ α β} (h : Step c c') :
    (Rest c'.left c.left ∧ c'.right = c.right) ∨ (c'.left = c.left ∧ Rest c'.right c.right) := by
  cases h with
  | sendLeft m p q r l => exact Or.inl ⟨.send m p, rfl⟩
  | recvLeft k q m r l => exact Or.inl ⟨.recv k m, rfl⟩
  | sendRight p m q r l => exact Or.inr ⟨rfl, .send m q⟩
  | recvRight p k m r l => exact Or.inr ⟨rfl, .recv k m⟩

/-- **No schedule is infinite**: a step leaves a part of one of the two parties. -/
theorem step_wf : WellFounded (fun c' c : Config ε ε' μ α β => Step c c') := by
  have hacc : ∀ p : Proc ε μ α, ∀ q : Proc ε' μ β, ∀ c : Config ε ε' μ α β,
      c.left = p → c.right = q → Acc (fun c' c => Step c c') c := by
    intro p
    induction rest_acc p with
    | intro p _ ihp =>
      intro q
      induction rest_acc q with
      | intro q _ ihq =>
        rintro c rfl rfl
        refine ⟨_, fun c' h => ?_⟩
        rcases step_rest h with ⟨hleft, -⟩ | ⟨hleft, hright⟩
        · exact ihp _ hleft _ c' rfl rfl
        · exact ihq _ hright c' hleft rfl
  exact ⟨fun c => hacc c.left c.right c rfl rfl⟩

/-! ## Runs -/

/-- Some schedule brings the two parties to the values `a` and `b`. -/
def Runs (p : Proc ε μ α) (q : Proc ε' μ β) (a : α) (b : β) : Prop :=
  Reduces (start p q) (done a b)

/-- Every schedule ends, and with `a` and `b`: whatever it has done so far, the run can still end
so, and it cannot end otherwise. -/
structure Completes (p : Proc ε μ α) (q : Proc ε' μ β) (a : α) (b : β) : Prop where
  /-- No schedule is infinite. -/
  ends : Acc (fun c' c => Step c c') (start p q)
  reaches : ∀ c, Reduces (start p q) c → Reduces c (done a b)
  only : ∀ c, Reduces (start p q) c → (∀ d, ¬ Step c d) → c = done a b

/-- **One good schedule is enough.** -/
theorem Runs.completes {p : Proc ε μ α} {q : Proc ε' μ β} {a : α} {b : β}
    (h : Runs p q a b) : Completes p q a b := by
  have hreach : ∀ c, Reduces (start p q) c → Reduces c (done a b) := by
    intro c hc
    obtain ⟨d, hcd, hd⟩ := reduces_join hc h
    rw [eq_of_done_reduces hd] at hcd
    exact hcd
  refine ⟨step_wf.apply _, hreach, fun c hc hstuck => ?_⟩
  rcases (hreach c hc).cases_head with h | ⟨d, hd, -⟩
  · exact h
  · exact absurd hd (hstuck d)

/-- The values a run ends with do not depend on the schedule. -/
theorem Runs.unique {p : Proc ε μ α} {q : Proc ε' μ β} {a a' : α} {b b' : β}
    (h : Runs p q a b) (h' : Runs p q a' b') : a = a' ∧ b = b' := by
  have := h.completes.only _ h' fun d => not_step_done
  simp only [done, Config.mk.injEq, Proc.ret.injEq] at this
  exact ⟨this.1.symm, this.2.1.symm⟩

/-- **A run as the left party sees it**: it has read some list of messages and no more. -/
theorem Runs.feed_left {p : Proc ε μ α} {q : Proc ε' μ β} {a : α} {b : β} (h : Runs p q a b) :
    ∃ ms, feed p ms = .returned a [] := by
  have hqueue : ∀ c : Config ε ε' μ α β, Reduces c (done a b) →
      ∃ ms, feed c.left (c.toLeft ++ ms) = .returned a [] := by
    intro c hc
    induction hc using ReflTransGen.head_induction_on with
    | refl => exact ⟨[], feed_ret a []⟩
    | head hs _ ih =>
      obtain ⟨ms, hms⟩ := ih
      cases hs with
      | sendLeft m p q r l => exact ⟨ms, (feed_send m p _).trans hms⟩
      | recvLeft k q m r l => exact ⟨ms, hms⟩
      | sendRight p m q r l =>
        refine ⟨m :: ms, ?_⟩
        rw [List.append_assoc] at hms
        exact hms
      | recvRight p k m r l => exact ⟨ms, hms⟩
  exact hqueue (start p q) h

/-! ## Running a protocol phase by phase -/

/-- A step of two parties is a step of what follows them. -/
theorem Step.bind {c c' : Config ε ε' μ α β} (h : Step c c') (f : α → Proc ε μ γ)
    (g : β → Proc ε' μ δ) :
    Step ⟨c.left >>= f, c.right >>= g, c.toRight, c.toLeft⟩
      ⟨c'.left >>= f, c'.right >>= g, c'.toRight, c'.toLeft⟩ := by
  cases h with
  | sendLeft => exact .sendLeft _ _ _ _ _
  | recvLeft => exact .recvLeft _ _ _ _ _
  | sendRight => exact .sendRight _ _ _ _ _
  | recvRight => exact .recvRight _ _ _ _ _

/-- **Sequencing**: two parties that run to `a` and `b` hand over to what follows. -/
theorem Runs.bind {p : Proc ε μ α} {q : Proc ε' μ β} {a : α} {b : β} (h : Runs p q a b)
    {f : α → Proc ε μ γ} {g : β → Proc ε' μ δ} {c : γ} {d : δ} (h' : Runs (f a) (g b) c d) :
    Runs (p >>= f) (q >>= g) c d := by
  have hlift : ∀ {c c' : Config ε ε' μ α β}, Reduces c c' →
      Reduces (⟨c.left >>= f, c.right >>= g, c.toRight, c.toLeft⟩ : Config ε ε' μ γ δ)
        ⟨c'.left >>= f, c'.right >>= g, c'.toRight, c'.toLeft⟩ := by
    intro c c' hr
    induction hr with
    | refl => exact .refl
    | tail _ hs ih => exact ih.tail (hs.bind f g)
  exact (hlift h).trans h'

theorem runs_ret (a : α) (b : β) :
    Runs (.ret a : Proc ε μ α) (.ret b : Proc ε' μ β) a b := .refl

/-- The left party's message reaches the right party. -/
theorem runs_send_recv {m : μ} {p : Proc ε μ α} {k : μ → Proc ε' μ β} {a : α} {b : β}
    (h : Runs p (k m) a b) : Runs (.send m p) (.recv k) a b :=
  .head (.sendLeft _ _ _ _ _) (.head (.recvRight _ _ _ _ _) h)

/-- The right party's message reaches the left party. -/
theorem runs_recv_send {m : μ} {k : μ → Proc ε μ α} {q : Proc ε' μ β} {a : α} {b : β}
    (h : Runs (k m) q a b) : Runs (.recv k) (.send m q) a b :=
  .head (.sendRight _ _ _ _ _) (.head (.recvLeft _ _ _ _ _) h)

end Duplex
