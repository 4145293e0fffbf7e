import HocusPocus.Field.Pow

/-!
# Exponentiations with their local variables

`fe25519_pow` and `fe25519_invert` work in variables of their own and write the result last, and
`operator/` divides in a variable of its own. Here they run on the variables: `Vars (ι ⊕ L)` holds
the variables `ι` of the caller and the locals `L`, which hold anything at the start.

* `invertInto_inverse`: inversion and division of limbs up to 510.
* `powWindowInto_eq`, `powPreRound_table`: what a window and a round of the precomputation change.
* `powInto_power`: the windowed power of limbs up to 1020.
-/

namespace HocusPocus.Fe25519

open Machine Arith
open FieldOps (setOne ofLimbs)

variable {ι : Type} [DecidableEq ι]

/-! ## Reading the variables -/

@[simp] theorem mulInto_self (s : Vars ι) (r x y : ι) : mulInto s r x y r = mul (s x) (s y) := by
  rw [mulInto_eq, Function.update_self]

theorem mulInto_of_ne (s : Vars ι) {r z : ι} (h : z ≠ r) (x y : ι) : mulInto s r x y z = s z := by
  rw [mulInto_eq, Function.update_of_ne h]

@[simp] theorem squareInto_self (s : Vars ι) (r x : ι) : squareInto s r x r = square (s x) := by
  rw [squareInto_eq, Function.update_self]

theorem squareInto_of_ne (s : Vars ι) {r z : ι} (h : z ≠ r) (x : ι) : squareInto s r x z = s z := by
  rw [squareInto_eq, Function.update_of_ne h]

/-- `n` rounds of `square(a, b); square(b, a)`. -/
def squareRounds (n : Nat) (a b : ι) (s : Vars ι) : Vars ι :=
  (fun s => squareInto (squareInto s a b) b a)^[n] s

theorem squareRounds_snd (n : Nat) {a b : ι} (s : Vars ι) :
    squareRounds n a b s b = square^[2 * n] (s b) := by
  induction n generalizing s with
  | zero => rfl
  | succ n ih =>
    have hround : squareInto (squareInto s a b) b a b = square (square (s b)) := by
      rw [squareInto_self, squareInto_self]
    rw [squareRounds, Function.iterate_succ_apply]
    exact (ih _).trans (congrArg _ hround)

theorem squareRounds_of_ne (n : Nat) {a b z : ι} (ha : z ≠ a) (hb : z ≠ b) (s : Vars ι) :
    squareRounds n a b s z = s z := by
  induction n generalizing s with
  | zero => rfl
  | succ n ih =>
    rw [squareRounds, Function.iterate_succ_apply]
    exact (ih _).trans ((squareInto_of_ne _ hb a).trans (squareInto_of_ne s ha b))

/-! ## Inversion -/

/-- The locals of `fe25519_invert`. -/
inductive InvertLocal where
  | z2 | z9 | z11 | z2_5_0 | z2_10_0 | z2_20_0 | z2_50_0 | z2_100_0 | t0 | t1
  deriving DecidableEq

open InvertLocal

/-- `fe25519_invert(r, x)`. -/
def invertInto (s : Vars (ι ⊕ InvertLocal)) (r x : ι) : Vars (ι ⊕ InvertLocal) :=
  let s := squareInto s (.inr z2) (.inl x)
  let s := squareInto s (.inr t1) (.inr z2)
  let s := squareInto s (.inr t0) (.inr t1)
  let s := mulInto s (.inr z9) (.inr t0) (.inl x)
  let s := mulInto s (.inr z11) (.inr z9) (.inr z2)
  let s := squareInto s (.inr t0) (.inr z11)
  let s := mulInto s (.inr z2_5_0) (.inr t0) (.inr z9)
  let s := squareInto s (.inr t0) (.inr z2_5_0)
  let s := squareInto s (.inr t1) (.inr t0)
  let s := squareInto s (.inr t0) (.inr t1)
  let s := squareInto s (.inr t1) (.inr t0)
  let s := squareInto s (.inr t0) (.inr t1)
  let s := mulInto s (.inr z2_10_0) (.inr t0) (.inr z2_5_0)
  let s := squareInto s (.inr t0) (.inr z2_10_0)
  let s := squareInto s (.inr t1) (.inr t0)
  let s := squareRounds 4 (.inr t0) (.inr t1) s
  let s := mulInto s (.inr z2_20_0) (.inr t1) (.inr z2_10_0)
  let s := squareInto s (.inr t0) (.inr z2_20_0)
  let s := squareInto s (.inr t1) (.inr t0)
  let s := squareRounds 9 (.inr t0) (.inr t1) s
  let s := mulInto s (.inr t0) (.inr t1) (.inr z2_20_0)
  let s := squareInto s (.inr t1) (.inr t0)
  let s := squareInto s (.inr t0) (.inr t1)
  let s := squareRounds 4 (.inr t1) (.inr t0) s
  let s := mulInto s (.inr z2_50_0) (.inr t0) (.inr z2_10_0)
  let s := squareInto s (.inr t0) (.inr z2_50_0)
  let s := squareInto s (.inr t1) (.inr t0)
  let s := squareRounds 24 (.inr t0) (.inr t1) s
  let s := mulInto s (.inr z2_100_0) (.inr t1) (.inr z2_50_0)
  let s := squareInto s (.inr t1) (.inr z2_100_0)
  let s := squareInto s (.inr t0) (.inr t1)
  let s := squareRounds 49 (.inr t1) (.inr t0) s
  let s := mulInto s (.inr t1) (.inr t0) (.inr z2_100_0)
  let s := squareInto s (.inr t0) (.inr t1)
  let s := squareInto s (.inr t1) (.inr t0)
  let s := squareRounds 24 (.inr t0) (.inr t1) s
  let s := mulInto s (.inr t0) (.inr t1) (.inr z2_50_0)
  let s := squareInto s (.inr t1) (.inr t0)
  let s := squareInto s (.inr t0) (.inr t1)
  let s := squareInto s (.inr t1) (.inr t0)
  let s := squareInto s (.inr t0) (.inr t1)
  let s := squareInto s (.inr t1) (.inr t0)
  mulInto s (.inl r) (.inr t1) (.inr z11)

/-- What `fe25519_invert(r, x)` leaves in `r`, also for `r = x`. -/
theorem invertInto_self (s : Vars (ι ⊕ InvertLocal)) (r x : ι) :
    invertInto s r x (.inl r) = invert (s (.inl x)) := by
  rw [invert_eq]
  simp only [invertInto, chain, squarePairs_snd, mulInto_self, squareInto_self, squareRounds_snd,
    mulInto_of_ne, squareInto_of_ne, squareRounds_of_ne, ne_eq, reduceCtorEq, not_false_eq_true,
    Sum.inr.injEq]
  rfl

theorem invertInto_of_ne (s : Vars (ι ⊕ InvertLocal)) {r z : ι} (h : z ≠ r) (x : ι) :
    invertInto s r x (.inl z) = s (.inl z) := by
  simp only [invertInto, mulInto_of_ne, squareInto_of_ne, squareRounds_of_ne, ne_eq, reduceCtorEq,
    not_false_eq_true, Sum.inl.injEq, h]

/-- The local of `operator/`. -/
inductive DivLocal where
  | tmp
  deriving DecidableEq

/-- `operator/`; its value is left in `tmp`, which is an operand of the product as well. -/
def divInto (s : Vars ((ι ⊕ DivLocal) ⊕ InvertLocal)) (this op : ι) :
    Vars ((ι ⊕ DivLocal) ⊕ InvertLocal) :=
  let s := invertInto s (.inr .tmp) (.inl op)
  mulInto s (.inl (.inr .tmp)) (.inl (.inl this)) (.inl (.inr .tmp))

theorem divInto_tmp (s : Vars ((ι ⊕ DivLocal) ⊕ InvertLocal)) (this op : ι) :
    divInto s this op (.inl (.inr .tmp))
      = FieldOps.div (s (.inl (.inl this))) (s (.inl (.inl op))) := by
  rw [divInto, mulInto_self, invertInto_self, invertInto_of_ne s (by simp)]
  rfl

theorem mul_pow_prime_sub_two {a : Fp} (ha : a ≠ 0) : a * a ^ (prime - 2) = 1 := by
  have hexp : prime - 2 + 1 = prime - 1 := by
    have := prime_add
    omega
  rw [← pow_succ', hexp]
  exact ZMod.pow_card_sub_one_eq_one ha

/-- **Inversion and division.** From limbs of at most 510 on, `fe25519_invert(r, x)` leaves the
power `p - 2` of `x` in `r`, also for `r = x`: an inverse of `x` if there is one, else zero. The
quotient of `operator/` times the divisor is the dividend unless the divisor is zero. -/
theorem invertInto_inverse (m : Vars ((ι ⊕ DivLocal) ⊕ InvertLocal)) (r : ι ⊕ DivLocal) (a x : ι)
    (ha : (m (.inl (.inl a))).AtMost 510) (hx : (m (.inl (.inl x))).AtMost 510) :
    let dividend := m (.inl (.inl a))
    let divisor := m (.inl (.inl x))
    let inverse := invertInto m r (.inl x) (.inl r)
    let back := FieldOps.mul (divInto m a x (.inl (.inr .tmp))) divisor
    (Exact inverse.v ∧ residue inverse = residue divisor ^ (prime - 2)) ∧
      (residue divisor ≠ 0 → residue divisor * residue inverse = 1) ∧
      (residue divisor = 0 → residue inverse = 0) ∧
      (∀ z, z ≠ r → invertInto m r (.inl x) (.inl z) = m (.inl z)) ∧
      Exact back.v ∧ (residue divisor ≠ 0 → residue back = residue dividend) := by
  intro dividend divisor inverse back
  have hexp : 2 ^ 255 - 21 = prime - 2 := by
    have := prime_add
    omega
  have hinv : Rep 255 (invert divisor) (residue divisor ^ (prime - 2)) := hexp ▸ invert_rep hx
  have hinverse : inverse = invert divisor := invertInto_self m r (.inl x)
  have hquotient : Rep 255 (divInto m a x (.inl (.inr .tmp)))
      (residue dividend * residue divisor ^ (prime - 2)) := by
    rw [divInto_tmp]
    exact ha.mul hinv (by norm_num)
  have hback : Rep 255 back (residue dividend * residue divisor ^ (prime - 2) * residue divisor) :=
    hquotient.mul hx (by norm_num)
  rw [hinverse, hinv.residue_eq, hback.residue_eq]
  refine ⟨⟨hinv.exact, rfl⟩, mul_pow_prime_sub_two, fun h0 => ?_,
    fun z hz => invertInto_of_ne m hz _, hback.exact, fun h0 => ?_⟩
  · rw [h0, zero_pow]
    have := prime_add
    omega
  · rw [mul_assoc, mul_comm (residue divisor ^ _), mul_pow_prime_sub_two h0, mul_one]

/-- The inverse of an element of limbs 510, written over the element, and its quotient by itself. -/
theorem invertInto_inverse_example :
    let m : Vars ((Unit ⊕ DivLocal) ⊕ InvertLocal) := fun _ => ofLimbs fun _ => 510
    let dividend := m (.inl (.inl ()))
    let divisor := m (.inl (.inl ()))
    let inverse := invertInto m (.inl ()) (.inl ()) (.inl (.inl ()))
    let back := FieldOps.mul (divInto m () () (.inl (.inr .tmp))) divisor
    (Exact inverse.v ∧ residue inverse = residue divisor ^ (prime - 2)) ∧
      (residue divisor ≠ 0 → residue divisor * residue inverse = 1) ∧
      (residue divisor = 0 → residue inverse = 0) ∧
      (∀ z, z ≠ .inl () → invertInto m (.inl ()) (.inl ()) (.inl z) = m (.inl z)) ∧
      Exact back.v ∧ (residue divisor ≠ 0 → residue back = residue dividend) :=
  invertInto_inverse _ _ _ _ (atMost_ofLimbs 510 (by norm_num)) (atMost_ofLimbs 510 (by norm_num))

/-! ## The windowed power -/

/-- The locals of `fe25519_pow`; the table `pre` has the indices below 16. -/
inductive PowLocal where
  | g
  | t
  | pre (i : Nat)
  deriving DecidableEq

open PowLocal

/-- `fe25519_cmov(r, x, b)`: a limb of `r` is read before it is written. -/
def cmovInto (s : Vars ι) (r x : ι) (b : UInt8) : Vars ι :=
  Function.update s r (cmov (s r) (s x) b)

/-- A round of the precomputation, `i = 2 * n + 2`. -/
def powPreRound (s : Vars (ι ⊕ PowLocal)) (n : Nat) : Vars (ι ⊕ PowLocal) :=
  let i := 2 * n + 2
  let s := squareInto s (.inr (pre i)) (.inr (pre (i / 2)))
  mulInto s (.inr (pre (i + 1))) (.inr (pre i)) (.inr (pre 1))

/-- The precomputation. -/
def powPre (s : Vars (ι ⊕ PowLocal)) (x : ι) : Vars (ι ⊕ PowLocal) :=
  let s := Function.update s (.inr (pre 0)) setOne
  let s := Function.update s (.inr (pre 1)) (s (.inl x))
  (List.range 7).foldl powPreRound s

/-- One window: four squarings of `g`, the entry `w` moved to `t`, and their product. -/
def powWindowInto (s : Vars (ι ⊕ PowLocal)) (w : UInt8) : Vars (ι ⊕ PowLocal) :=
  let s := (fun s => squareInto s (.inr g) (.inr g))^[windowSize] s
  let s := Function.update s (.inr t) (s (.inr (pre 0)))
  let s := (List.range 15).foldl (fun s n =>
    cmovInto s (.inr t) (.inr (pre (n + 1))) (if n + 1 = w.toNat then 1 else 0)) s
  mulInto s (.inr g) (.inr g) (.inr t)

/-- The two windows of the byte `b`. -/
def powByteInto (s : Vars (ι ⊕ PowLocal)) (b : UInt8) : Vars (ι ⊕ PowLocal) :=
  powWindowInto (powWindowInto s (b >>> 4 &&& 15)) (b &&& 15)

/-- `fe25519_pow(r, x, e)`. -/
def powInto (s : Vars (ι ⊕ PowLocal)) (r x : ι) (e : Bytes32) : Vars (ι ⊕ PowLocal) :=
  let s := Function.update s (.inr g) setOne
  let s := powPre s x
  let s := (List.range 32).foldl (fun s i => powByteInto s (e.toList.getD (31 - i) 0)) s
  Function.update s (.inl r) (s (.inr g))

/-- Squarings in place. -/
theorem iterate_squareInto (s : Vars ι) (v : ι) (n : Nat) :
    (fun s => squareInto s v v)^[n] s = Function.update s v (square^[n] (s v)) := by
  induction n with
  | zero => exact (Function.update_eq_self v s).symm
  | succ n ih =>
    rw [Function.iterate_succ_apply', Function.iterate_succ_apply', ih, squareInto_eq,
      Function.update_self, Function.update_idem]

/-- Conditional moves to one variable. -/
theorem foldl_cmovInto (s : Vars ι) (v : ι) (p : Nat → ι) (b : Nat → UInt8) (n : Nat)
    (hp : ∀ i, p i ≠ v) :
    (List.range n).foldl (fun s i => cmovInto s v (p i) (b i)) s
      = Function.update s v ((List.range n).foldl (fun y i => cmov y (s (p i)) (b i)) (s v)) := by
  induction n with
  | zero => exact (Function.update_eq_self v s).symm
  | succ n ih =>
    rw [List.range_succ, List.foldl_append, List.foldl_append, ih]
    simp only [List.foldl_cons, List.foldl_nil, cmovInto, Function.update_self,
      Function.update_of_ne (hp n), Function.update_idem]

/-- **What a window changes**: `t` and `g`. -/
theorem powWindowInto_eq (s : Vars (ι ⊕ PowLocal)) (w : UInt8) :
    powWindowInto s w
      = Function.update (Function.update s (.inr t) (select (fun i => s (.inr (pre i))) w)) (.inr g)
          (powWindow (fun i => s (.inr (pre i))) (s (.inr g)) w) := by
  have hg : (Sum.inr g : ι ⊕ PowLocal) ≠ .inr t := by simp
  have hpre : ∀ i, (Sum.inr (pre i) : ι ⊕ PowLocal) ≠ .inr t := by simp
  have hpre' : ∀ i, (Sum.inr (pre i) : ι ⊕ PowLocal) ≠ .inr g := by simp
  have hmoves := fun s : Vars (ι ⊕ PowLocal) =>
    foldl_cmovInto s (.inr t) (fun n => .inr (pre (n + 1)))
      (fun n => if n + 1 = w.toNat then 1 else 0) 15 fun i => hpre (i + 1)
  simp only [powWindowInto, iterate_squareInto, hmoves, mulInto_eq, Function.update_self,
    Function.update_idem, Function.update_of_ne hg, Function.update_of_ne (hpre _),
    Function.update_of_ne (hpre' _)]
  rw [Function.update_comm hg, Function.update_idem]
  rfl

theorem select_congr {p q : Nat → Fe25519} (h : ∀ i < 16, p i = q i) (w : UInt8) :
    select p w = select q w := by
  unfold select
  rw [h 0 (by norm_num)]
  refine List.foldl_ext _ _ _ fun y n hn => ?_
  rw [h (n + 1) (by have := List.mem_range.mp hn; omega)]

/-- The variables between two windows: the caller's are untouched, the table is complete, and `g`
holds `y`. -/
structure PowState (m : Vars (ι ⊕ PowLocal)) (x : ι) (y : Fe25519) (s : Vars (ι ⊕ PowLocal)) :
    Prop where
  arg : ∀ z, s (.inl z) = m (.inl z)
  table : ∀ i < 16, s (.inr (pre i)) = powTable (m (.inl x)) i
  acc : s (.inr g) = y

variable {m s : Vars (ι ⊕ PowLocal)} {x : ι} {y : Fe25519}

theorem PowState.window (h : PowState m x y s) (w : UInt8) :
    PowState m x (powWindow (powTable (m (.inl x))) y w) (powWindowInto s w) := by
  rw [powWindowInto_eq]
  refine ⟨fun z => ?_, fun i hi => ?_, ?_⟩
  · rw [Function.update_of_ne (by simp), Function.update_of_ne (by simp)]
    exact h.arg z
  · rw [Function.update_of_ne (by simp), Function.update_of_ne (by simp)]
    exact h.table i hi
  · rw [Function.update_self, h.acc, powWindow, select_congr h.table]
    rfl

theorem PowState.byte (h : PowState m x y s) (b : UInt8) :
    PowState m x (powByte (powTable (m (.inl x))) y b) (powByteInto s b) :=
  (h.window _).window _

/-- **A round fills two more entries**, and reads filled ones. -/
theorem powPreRound_table {p : Nat → Fe25519} {n : Nat}
    (h : ∀ i < 2 * n + 2, s (.inr (pre i)) = p i) :
    ∀ i < 2 * n + 4, powPreRound s n (.inr (pre i)) = tableRound p n i := by
  have heven : ∀ i < 2 * n + 3,
      squareInto s (.inr (pre (2 * n + 2))) (.inr (pre ((2 * n + 2) / 2))) (.inr (pre i))
        = Function.update p (2 * n + 2) (square (p ((2 * n + 2) / 2))) i := by
    intro i hi
    rcases Nat.lt_succ_iff_lt_or_eq.mp hi with hlt | rfl
    · rw [squareInto_of_ne _ (by simp; omega), Function.update_of_ne (by omega)]
      exact h i hlt
    · rw [squareInto_self, Function.update_self, h _ (by omega)]
  intro i hi
  unfold powPreRound tableRound
  rcases Nat.lt_succ_iff_lt_or_eq.mp hi with hlt | rfl
  · rw [mulInto_of_ne _ (by simp; omega), Function.update_of_ne (by omega)]
    exact heven i hlt
  · rw [mulInto_self, Function.update_self, heven _ (by omega), heven 1 (by omega)]

theorem powPreRound_of_ne (s : Vars (ι ⊕ PowLocal)) (n : Nat) {v : ι ⊕ PowLocal}
    (hv : ∀ i, v ≠ .inr (pre i)) : powPreRound s n v = s v := by
  rw [powPreRound, mulInto_of_ne _ (hv _), squareInto_of_ne _ (hv _)]

/-- The rounds of the precomputation. -/
theorem foldl_powPreRound {p : Nat → Fe25519} (h : ∀ i < 2, s (.inr (pre i)) = p i) (n : Nat) :
    (∀ i < 2 * n + 2, (List.range n).foldl powPreRound s (.inr (pre i))
        = (List.range n).foldl tableRound p i) ∧
      ∀ v, (∀ i, v ≠ .inr (pre i)) → (List.range n).foldl powPreRound s v = s v := by
  induction n with
  | zero => exact ⟨h, fun _ _ => rfl⟩
  | succ n ih =>
    obtain ⟨htable, hrest⟩ := ih
    rw [List.range_succ, List.foldl_append, List.foldl_append]
    exact ⟨powPreRound_table htable, fun v hv => (powPreRound_of_ne _ n hv).trans (hrest v hv)⟩

/-- **The table on the variables**, whatever the locals held. -/
theorem powPre_state (hg : s (.inr g) = y) (harg : ∀ z, s (.inl z) = m (.inl z)) :
    PowState m x y (powPre s x) := by
  have hfirst : ∀ i < 2, Function.update (Function.update s (.inr (pre 0)) setOne) (.inr (pre 1))
      (Function.update s (.inr (pre 0)) setOne (.inl x)) (.inr (pre i))
        = if i = 1 then m (.inl x) else setOne := by
    intro i hi
    interval_cases i
    · rw [Function.update_of_ne (by simp), Function.update_self, if_neg (by norm_num)]
    · rw [Function.update_self, Function.update_of_ne (by simp), if_pos rfl]
      exact harg x
  obtain ⟨htable, hrest⟩ := foldl_powPreRound hfirst 7
  refine ⟨fun z => ?_, htable, ?_⟩
  · rw [powPre, hrest _ (by simp), Function.update_of_ne (by simp), Function.update_of_ne (by simp)]
    exact harg z
  · rw [powPre, hrest _ (by simp), Function.update_of_ne (by simp), Function.update_of_ne (by simp)]
    exact hg

/-- The loop over the bytes of the exponent. -/
theorem PowState.bytes (h : PowState m x setOne s) (e : Bytes32) (n : Nat) :
    PowState m x (powTo (m (.inl x)) e n)
      ((List.range n).foldl (fun s i => powByteInto s (e.toList.getD (31 - i) 0)) s) := by
  induction n with
  | zero => exact h
  | succ n ih =>
    unfold powTo
    rw [List.range_succ, List.foldl_append, List.foldl_append]
    exact ih.byte _

/-- The variables before the result is written. -/
theorem powBytes_state (m : Vars (ι ⊕ PowLocal)) (x : ι) (e : Bytes32) :
    PowState m x (pow (m (.inl x)) e)
      ((List.range 32).foldl (fun s i => powByteInto s (e.toList.getD (31 - i) 0))
        (powPre (Function.update m (.inr g) setOne) x)) := by
  have hstart : PowState m x setOne (powPre (Function.update m (.inr g) setOne) x) :=
    powPre_state (Function.update_self _ _ _) fun z => Function.update_of_ne (by simp) _ _
  exact hstart.bytes e 32

/-- What `fe25519_pow(r, x, e)` leaves in `r`, also for `r = x`. -/
theorem powInto_self (m : Vars (ι ⊕ PowLocal)) (r x : ι) (e : Bytes32) :
    powInto m r x e (.inl r) = pow (m (.inl x)) e := by
  unfold powInto
  rw [Function.update_self]
  exact (powBytes_state m x e).acc

theorem powInto_of_ne (m : Vars (ι ⊕ PowLocal)) {r z : ι} (h : z ≠ r) (x : ι) (e : Bytes32) :
    powInto m r x e (.inl z) = m (.inl z) := by
  unfold powInto
  rw [Function.update_of_ne (by simpa using h)]
  exact (powBytes_state m x e).arg z

/-- **The windowed power.** From limbs of at most 1020 on, `fe25519_pow(r, x, e)` leaves in `r` the
power of `x` to the little-endian number of `e`, in byte limbs, and changes no other variable of the
caller. Nothing wraps: each entry of the table is read by conditional moves, so the ghost bits of
`r` answer for all of them. -/
theorem powInto_power (m : Vars (ι ⊕ PowLocal)) (r x : ι) (e : Bytes32)
    (hx : (m (.inl x)).AtMost 1020) :
    Exact (powInto m r x e (.inl r)).v ∧
      residue (powInto m r x e (.inl r)) = residue (m (.inl x)) ^ leValue e ∧
      (∀ i < 32, limb (powInto m r x e (.inl r)).v i ≤ 255) ∧
      ∀ z, z ≠ r → powInto m r x e (.inl z) = m (.inl z) := by
  have hpow : Rep 255 (pow (m (.inl x)) e) (residue (m (.inl x)) ^ leValue e) :=
    (pow_rep hx e).toRep
  rw [powInto_self]
  exact ⟨hpow.exact, hpow.residue_eq, hpow.le, fun z hz => powInto_of_ne m hz x e⟩

/-- The power of an element of limbs 1020, written over the element. -/
theorem powInto_power_example :
    let m : Vars (Unit ⊕ PowLocal) := fun _ => ofLimbs fun _ => 1020
    let e : Bytes32 := Vector.replicate 32 3
    Exact (powInto m () () e (.inl ())).v ∧
      residue (powInto m () () e (.inl ())) = residue (m (.inl ())) ^ leValue e ∧
      (∀ i < 32, limb (powInto m () () e (.inl ())).v i ≤ 255) ∧
      ∀ z, z ≠ () → powInto m () () e (.inl z) = m (.inl z) := by
  intro m e
  exact powInto_power m () () e (atMost_ofLimbs 1020 (by norm_num))

end HocusPocus.Fe25519
