import Mathlib.Logic.Relation

/-!
# Sequential parties over a message channel

A party of a two-party protocol as a tree of the messages it sends and receives: `Proc ε μ α`
sends and receives messages of type `μ` and ends with a value of type `α` or a fault of type `ε`.
A fault is the end of every guarantee (an undefined read, an exception), so nothing runs after it.

`feed` runs a party alone against the messages its peer has sent, in order. It is the view in
which a peer is adversarial: whatever the peer does, the party sees some list of messages.

`sent` are the messages it sends meanwhile.

* `feed_bind`: a sequence of two parties reads its messages in sequence.
-/

namespace Duplex

/-- A sequential party: it sends and receives messages and ends with a value or a fault. -/
inductive Proc (ε μ α : Type) where
  | ret (a : α)
  | fault (e : ε)
  | send (m : μ) (next : Proc ε μ α)
  | recv (next : μ → Proc ε μ α)

variable {ε μ α β γ : Type}

namespace Proc

/-- Run `p`, then `f` on its value. -/
def bind : Proc ε μ α → (α → Proc ε μ β) → Proc ε μ β
  | ret a, f => f a
  | fault e, _ => fault e
  | send m p, f => send m (p.bind f)
  | recv k, f => recv fun m => (k m).bind f

instance : Monad (Proc ε μ) where
  pure := ret
  bind := bind

@[simp] theorem pure_eq (a : α) : (pure a : Proc ε μ α) = ret a := rfl

@[simp] theorem ret_bind (a : α) (f : α → Proc ε μ β) : ret a >>= f = f a := rfl

@[simp] theorem fault_bind (e : ε) (f : α → Proc ε μ β) : fault e >>= f = fault e := rfl

@[simp] theorem send_bind (m : μ) (p : Proc ε μ α) (f : α → Proc ε μ β) :
    send m p >>= f = send m (p >>= f) := rfl

@[simp] theorem recv_bind (k : μ → Proc ε μ α) (f : α → Proc ε μ β) :
    recv k >>= f = recv fun m => k m >>= f := rfl

theorem bind_ret (p : Proc ε μ α) : p >>= ret = p := by
  induction p with
  | ret a => rfl
  | fault e => rfl
  | send m p ih => rw [send_bind, ih]
  | recv k ih => rw [recv_bind]; exact congrArg recv (funext ih)

theorem bind_assoc (p : Proc ε μ α) (f : α → Proc ε μ β) (g : β → Proc ε μ γ) :
    p >>= f >>= g = p >>= fun a => f a >>= g := by
  induction p with
  | ret a => rfl
  | fault e => rfl
  | send m p ih => rw [send_bind, send_bind, send_bind, ih]
  | recv k ih => simp only [recv_bind, ih]

instance : LawfulMonad (Proc ε μ) :=
  LawfulMonad.mk' (Proc ε μ) bind_ret (fun _ _ => rfl) bind_assoc

/-- Send one message. -/
def put (m : μ) : Proc ε μ Unit := send m (ret ())

/-- Receive one message. -/
def get : Proc ε μ μ := recv ret

@[simp] theorem put_bind (m : μ) (f : Unit → Proc ε μ β) : put m >>= f = send m (f ()) := rfl

@[simp] theorem get_bind (f : μ → Proc ε μ β) : get >>= f = recv f := rfl

/-- Go on when the condition holds, fault otherwise. -/
def require (e : ε) (b : Bool) : Proc ε μ Unit := if b then ret () else fault e

@[simp] theorem require_true (e : ε) : (require e true : Proc ε μ Unit) = ret () := rfl

@[simp] theorem require_false (e : ε) : (require e false : Proc ε μ Unit) = fault e := rfl

/-- The value of an option, a fault when there is none. -/
def ofOption (e : ε) : Option α → Proc ε μ α
  | some a => ret a
  | none => fault e

@[simp] theorem ofOption_some (e : ε) (a : α) : (ofOption e (some a) : Proc ε μ α) = ret a := rfl

@[simp] theorem ofOption_none (e : ε) : (ofOption e none : Proc ε μ α) = fault e := rfl

end Proc

/-! ## A party alone against a list of messages -/

/-- How a party stands after reading the messages it was given. -/
inductive Outcome (ε μ α : Type) where
  /-- It ended with a value; `rest` are the messages it did not read. -/
  | returned (a : α) (rest : List μ)
  /-- It ended in a fault. -/
  | faulted (e : ε)
  /-- It waits for a message that was not sent. -/
  | waiting

/-- Run a party on the messages its peer sends. -/
def feed : Proc ε μ α → List μ → Outcome ε μ α
  | .ret a, ms => .returned a ms
  | .fault e, _ => .faulted e
  | .send _ p, ms => feed p ms
  | .recv _, [] => .waiting
  | .recv k, m :: ms => feed (k m) ms

/-- What a party sends while it reads the messages of its peer. -/
def sent : Proc ε μ α → List μ → List μ
  | .ret _, _ => []
  | .fault _, _ => []
  | .send m p, ms => m :: sent p ms
  | .recv _, [] => []
  | .recv k, m :: ms => sent (k m) ms

/-- What a run does after a first part that ended as given. -/
def Outcome.andThen : Outcome ε μ α → (α → Proc ε μ β) → Outcome ε μ β
  | .returned a rest, f => feed (f a) rest
  | .faulted e, _ => .faulted e
  | .waiting, _ => .waiting

/-- **A sequence of two parties reads its messages in sequence.** -/
theorem feed_bind (p : Proc ε μ α) (f : α → Proc ε μ β) (ms : List μ) :
    feed (p >>= f) ms = (feed p ms).andThen f := by
  induction p generalizing ms with
  | ret a => rfl
  | fault e => rfl
  | send m p ih => exact ih ms
  | recv k ih =>
    cases ms with
    | nil => rfl
    | cons m ms => exact ih m ms

@[simp] theorem sent_ret (a : α) (ms : List μ) : sent (Proc.ret a : Proc ε μ α) ms = [] := by
  cases ms <;> rfl

@[simp] theorem sent_fault (e : ε) (ms : List μ) : sent (Proc.fault e : Proc ε μ α) ms = [] := by
  cases ms <;> rfl

@[simp] theorem sent_send (m : μ) (p : Proc ε μ α) (ms : List μ) :
    sent (Proc.send m p) ms = m :: sent p ms := by
  cases ms <;> rfl

@[simp] theorem sent_recv_nil (k : μ → Proc ε μ α) : sent (Proc.recv k) [] = [] := rfl

@[simp] theorem sent_recv_cons (k : μ → Proc ε μ α) (m : μ) (ms : List μ) :
    sent (Proc.recv k) (m :: ms) = sent (k m) ms := rfl

@[simp] theorem feed_ret (a : α) (ms : List μ) :
    feed (Proc.ret a : Proc ε μ α) ms = .returned a ms := by
  cases ms <;> rfl

@[simp] theorem feed_fault (e : ε) (ms : List μ) :
    feed (Proc.fault e : Proc ε μ α) ms = .faulted e := by
  cases ms <;> rfl

@[simp] theorem feed_send (m : μ) (p : Proc ε μ α) (ms : List μ) :
    feed (Proc.send m p) ms = feed p ms := by
  cases ms <;> rfl

@[simp] theorem feed_recv_nil (k : μ → Proc ε μ α) : feed (Proc.recv k) [] = .waiting := rfl

@[simp] theorem feed_recv_cons (k : μ → Proc ε μ α) (m : μ) (ms : List μ) :
    feed (Proc.recv k) (m :: ms) = feed (k m) ms := rfl

/-- A sequence ends with a value exactly when its parts do, one after the other. -/
theorem feed_bind_returned {p : Proc ε μ α} {f : α → Proc ε μ β} {ms rest : List μ} {b : β} :
    feed (p >>= f) ms = .returned b rest ↔
      ∃ a mid, feed p ms = .returned a mid ∧ feed (f a) mid = .returned b rest := by
  rw [feed_bind]
  constructor
  · intro h
    cases hp : feed p ms with
    | returned a mid => exact ⟨a, mid, rfl, by rw [hp] at h; exact h⟩
    | faulted e => rw [hp] at h; cases h
    | waiting => rw [hp] at h; cases h
  · rintro ⟨a, mid, hp, hf⟩
    rw [hp]
    exact hf

open Proc in
theorem feed_require_returned {e : ε} {c : Bool} {f : Unit → Proc ε μ β} {ms rest : List μ}
    {b : β} : feed (Proc.require e c >>= f) ms = .returned b rest ↔
      c = true ∧ feed (f ()) ms = .returned b rest := by
  cases c with
  | false =>
    rw [require_false, fault_bind, feed_fault]
    constructor
    · rintro ⟨⟩
    · rintro ⟨⟨⟩, -⟩
  | true => exact ⟨fun h => ⟨rfl, h⟩, fun h => h.2⟩

open Proc in
theorem feed_ofOption_returned {e : ε} {v : Option α} {f : α → Proc ε μ β} {ms rest : List μ}
    {b : β} : feed (Proc.ofOption e v >>= f) ms = .returned b rest ↔
      ∃ a, v = some a ∧ feed (f a) ms = .returned b rest := by
  cases v with
  | none =>
    rw [ofOption_none, fault_bind, feed_fault]
    constructor
    · rintro ⟨⟩
    · rintro ⟨a, ⟨⟩, -⟩
  | some a =>
    constructor
    · exact fun h => ⟨a, rfl, h⟩
    · rintro ⟨a', ⟨⟩, h⟩
      exact h

theorem feed_ret_returned {a b : α} {ms rest : List μ} :
    feed (Proc.ret a : Proc ε μ α) ms = .returned b rest ↔ a = b ∧ ms = rest := by
  rw [feed_ret, Outcome.returned.injEq]

/-- A party that goes on when the condition holds and else ends with `a`. -/
theorem feed_ite_returned {c : Bool} {p : Proc ε μ α} {a b : α} {ms rest : List μ} :
    feed (if c then p else Proc.ret a) ms = .returned b rest ↔
      c = true ∧ feed p ms = .returned b rest ∨ c = false ∧ a = b ∧ ms = rest := by
  cases c with
  | false =>
    rw [if_neg Bool.false_ne_true, feed_ret_returned]
    constructor
    · exact fun h => Or.inr ⟨rfl, h⟩
    · rintro (⟨⟨⟩, -⟩ | ⟨-, h⟩)
      exact h
  | true =>
    rw [if_pos rfl]
    constructor
    · exact fun h => Or.inl ⟨rfl, h⟩
    · rintro (⟨-, h⟩ | ⟨⟨⟩, -⟩)
      exact h

end Duplex
