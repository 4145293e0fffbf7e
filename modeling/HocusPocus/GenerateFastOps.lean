import HocusPocus.FastResidue

/-!
# The generator of the powers (`scripts/generate_fast_ops.py`)

`get_sliding_window_code` writes a straight-line function for one exponent: a table of odd powers,
then the bits of the exponent from the highest on, a run of zeros as squarings and a window that
ends in 1 as squarings and a product. The generated lines are data here, and `runCode` runs them
with the scoping rules of the target language: a line that uses a variable before it is declared or
assigned has no result.

* `exponent_slidingProgram`: the emitted instructions compute the exponent they were emitted for.
* `runCode_eq`: the declarations come in time, so a run of the lines is a run of the instructions.
* `getSlidingWindowCode_correct`: every emitted function is the power, in every monoid; the
  functions of `fast_residue_25519.h` are emitted ones.
-/

namespace HocusPocus.GenerateFastOps

open Arith FastResidue

/-! ## The emitted lines -/

/-- A line of an emitted function. -/
inductive Line where
  /-- `// Automatically generated sliding-window (w=…) addition chain` -/
  | windowComment (w : Nat)
  /-- `// Exponent length: … bits` -/
  | lengthComment (bits : Nat)
  /-- `static void name(fe25519* out, const fe25519* in_val) {` -/
  | header (funcName : String)
  /-- `fe25519 x = *in_val;` -/
  | input
  /-- `fe25519 x2, …;` -/
  | declareTable (oddVars : List Var)
  /-- `fe25519 t;` -/
  | declareResult
  /-- `fe25519_square(&dst, &src);`, `fe25519_mul(&dst, &a, &b);` or `dst = src;` -/
  | instr (i : Instr Var)
  /-- `*out = t;` -/
  | output
  /-- `}` -/
  | close
  deriving DecidableEq

/-! ## The generator -/

/-- `bin(exp)[2:]`, from the highest bit on. -/
def bin (exp : Nat) : List Bool := ((List.range (Nat.log2 exp + 1)).map exp.testBit).reverse

/-- `int(s, 2)`. -/
def int2 (s : List Bool) : Nat := s.foldl (fun n b => 2 * n + b.toNat) 0

/-- `range(start, stop, step)`. -/
def pyRange (start stop step : Nat) : List Nat :=
  (List.range ((stop - start + step - 1) / step)).map fun i => start + step * i

/-- `max_len`: the longest window of at most `w` bits that ends in 1; `bits` is `bin_exp[i:]`. -/
def maxLen (w : Nat) (bits : List Bool) : Nat :=
  (List.range w).foldl (fun maxLen' j => if bits[j]? = some true then j + 1 else maxLen') 1

/-- The precomputation. -/
def tableCode (maxOdd : Nat) : List (Instr Var) :=
  .square (.pow 2) .x :: (pyRange 3 (maxOdd + 1) 2).map fun k =>
    .mul (.pow k) (.pow 2) (if k = 3 then .x else .pow (k - 2))

/-- The loop over the bits left, `bin_exp[i:]`; each round reads at least one of them, so their
number is fuel enough. -/
def windowLoop (w : Nat) : Nat → List Bool → Bool → List (Instr Var)
  | 0, _, _ => []
  | _ + 1, [], _ => []
  | fuel + 1, false :: bits, isFirst =>
    (if isFirst then [] else [.square .t .t]) ++ windowLoop w fuel bits isFirst
  | fuel + 1, true :: bits, isFirst =>
    let maxLen' := maxLen w (true :: bits)
    let val := int2 ((true :: bits).take maxLen')
    (if isFirst then [.copy .t (entry val)] else window maxLen' val)
      ++ windowLoop w fuel ((true :: bits).drop maxLen') false

/-- `get_sliding_window_code`. -/
def getSlidingWindowCode (exp : Nat) (funcName : String) (w : Nat) : List Line :=
  let binExp := bin exp
  let maxOdd := 2 ^ w - 1
  let oddVars := (pyRange 3 (maxOdd + 1) 2).map Var.pow
  [.windowComment w, .lengthComment binExp.length, .header funcName, .input,
      .declareTable oddVars]
    ++ (tableCode maxOdd).map .instr ++ [.declareResult]
    ++ (windowLoop w binExp.length binExp true).map .instr ++ [.output, .close]

/-! ## Running the lines -/

variable {α : Type*}

/-- What a run of a function has declared and assigned. -/
structure Scope (α : Type*) where
  declared : List Var
  store : Store Var α
  out : Option α

/-- The variables of an instruction. -/
def vars : Instr Var → List Var
  | .square dst src => [dst, src]
  | .mul dst a b => [dst, a, b]
  | .copy dst src => [dst, src]

/-- Declare variables that have no declaration yet. -/
def Scope.declare (s : Scope α) (vs : List Var) : Option (Scope α) :=
  if (vs ++ s.declared).Nodup then some { s with declared := vs ++ s.declared } else none

/-- One line; `none` for an ill-formed declaration, and for a variable that is not declared or not
assigned. -/
def Line.run (sq : α → α) (mul : α → α → α) (inVal : α) (s : Scope α) : Line → Option (Scope α)
  | .windowComment _ | .lengthComment _ | .header _ | .close => some s
  | .input => (s.declare [.x]).map fun s => { s with store := s.store.set .x inVal }
  | .declareTable oddVars => if oddVars = [] then none else s.declare (.pow 2 :: oddVars)
  | .declareResult => s.declare [.t]
  | .instr i =>
    if ∀ v ∈ vars i, v ∈ s.declared then
      (i.step sq mul s.store).map fun store => { s with store }
    else none
  | .output => if .t ∈ s.declared then (s.store .t).map fun t => { s with out := some t } else none

/-- A call of an emitted function: what it leaves in `*out`. -/
def runCode (sq : α → α) (mul : α → α → α) (code : List Line) (inVal : α) : Option α :=
  (code.foldlM (Line.run sq mul inVal)
    { declared := [], store := fun _ => none, out := none }).bind Scope.out

/-! ## Bit strings -/

theorem foldl_int2 (s : List Bool) (n : Nat) :
    s.foldl (fun n b => 2 * n + b.toNat) n = n * 2 ^ s.length + int2 s := by
  induction s generalizing n with
  | nil => simp [int2]
  | cons b s ih =>
    unfold int2
    rw [List.foldl_cons, List.foldl_cons, ih, ih (2 * 0 + b.toNat), List.length_cons, pow_succ]
    ring

theorem int2_append (s s' : List Bool) : int2 (s ++ s') = int2 s * 2 ^ s'.length + int2 s' := by
  rw [int2, List.foldl_append, foldl_int2]
  rfl

theorem int2_cons (b : Bool) (s : List Bool) :
    int2 (b :: s) = b.toNat * 2 ^ s.length + int2 s := by
  rw [← List.singleton_append, int2_append]
  simp [int2]

theorem int2_lt (s : List Bool) : int2 s < 2 ^ s.length := by
  induction s with
  | nil => exact Nat.one_pos
  | cons b s ih =>
    have hb := Bool.toNat_le b
    rw [int2_cons, List.length_cons, pow_succ]
    calc b.toNat * 2 ^ s.length + int2 s < 1 * 2 ^ s.length + 2 ^ s.length :=
          Nat.add_lt_add_of_le_of_lt (Nat.mul_le_mul_right _ hb) ih
      _ = 2 ^ s.length * 2 := by ring

/-- The lowest `n` bits. -/
theorem int2_testBits (exp n : Nat) :
    int2 ((List.range n).map exp.testBit).reverse = exp % 2 ^ n := by
  induction n with
  | zero => simp [int2, Nat.mod_one]
  | succ n ih =>
    rw [List.range_succ, List.map_append, List.reverse_append, List.map_singleton,
      List.reverse_singleton, List.singleton_append, int2_cons, ih, List.length_reverse,
      List.length_map, List.length_range, Nat.toNat_testBit, pow_succ, Nat.mod_mul]
    ring

/-- **`int` undoes `bin`.** -/
theorem int2_bin (exp : Nat) : int2 (bin exp) = exp := by
  rw [bin, int2_testBits]
  exact Nat.mod_eq_of_lt Nat.lt_log2_self

/-- The bits of a positive number start with 1. -/
theorem bin_eq_cons {exp : Nat} (h : 1 ≤ exp) : ∃ bits, bin exp = true :: bits := by
  have htop : exp.testBit (Nat.log2 exp) = true := Nat.testBit_log2 (by omega)
  refine ⟨((List.range (Nat.log2 exp)).map exp.testBit).reverse, ?_⟩
  rw [bin, List.range_succ, List.map_append, List.reverse_append, List.map_singleton, htop]
  rfl

/-! ## Windows -/

/-- **The look-ahead finds a window that ends in 1**, inside the bits left. -/
theorem maxLen_spec (w : Nat) (bits : List Bool) :
    1 ≤ maxLen w (true :: bits) ∧ maxLen w (true :: bits) ≤ max 1 w ∧
      (true :: bits)[maxLen w (true :: bits) - 1]? = some true := by
  have hloop : ∀ n, 1 ≤ maxLen n (true :: bits) ∧ maxLen n (true :: bits) ≤ max 1 n ∧
      (true :: bits)[maxLen n (true :: bits) - 1]? = some true := by
    intro n
    induction n with
    | zero => exact ⟨le_rfl, le_rfl, rfl⟩
    | succ n ih =>
      obtain ⟨hone, hle, hbit⟩ := ih
      have hstep : maxLen (n + 1) (true :: bits)
          = if (true :: bits)[n]? = some true then n + 1 else maxLen n (true :: bits) := by
        unfold maxLen
        rw [List.range_succ, List.foldl_append]
        rfl
      rw [hstep]
      split_ifs with h
      · exact ⟨by omega, by omega, h⟩
      · exact ⟨hone, by omega, hbit⟩
  exact hloop w

/-- The number of a window is odd and has an entry in the table. -/
theorem window_val {w : Nat} (hw : 1 ≤ w) (bits : List Bool) :
    let maxLen' := maxLen w (true :: bits)
    let val := int2 ((true :: bits).take maxLen')
    val % 2 = 1 ∧ val < 2 ^ w ∧ ((true :: bits).take maxLen').length = maxLen' ∧
      int2 (true :: bits) = val * 2 ^ ((true :: bits).drop maxLen').length
        + int2 ((true :: bits).drop maxLen') := by
  intro maxLen' val
  obtain ⟨hone, hle, hbit⟩ := maxLen_spec w bits
  obtain ⟨hlt, hget⟩ := List.getElem?_eq_some_iff.mp hbit
  have hlen : ((true :: bits).take maxLen').length = maxLen' := by
    rw [List.length_take]
    omega
  have hlast : (true :: bits).take maxLen' = (true :: bits).take (maxLen' - 1) ++ [true] := by
    have htake := List.take_succ_eq_append_getElem hlt
    rwa [hget, Nat.sub_add_cancel hone] at htake
  refine ⟨?_, ?_, hlen, ?_⟩
  · show int2 ((true :: bits).take maxLen') % 2 = 1
    rw [hlast, int2_append]
    simp [int2]
  · have hval := int2_lt ((true :: bits).take maxLen')
    rw [hlen] at hval
    exact hval.trans_le (Nat.pow_le_pow_right (by norm_num) (by omega))
  · rw [← int2_append, List.take_append_drop]

/-! ## The exponent of the instructions -/

/-- Instructions on exponents: a squaring doubles, a product adds. -/
abbrev execNat (prog : List (Instr Var)) (s : Store Var Nat) : Option (Store Var Nat) :=
  exec (fun e => 2 * e) (· + ·) prog s

/-- The table holds its odd powers, and `t` the power of the bits read so far. -/
structure Accumulates (w : Nat) (s : Store Var Nat) (m : Nat) : Prop where
  table : ∀ k, k % 2 = 1 → k < 2 ^ w → s (entry k) = some k
  result : s .t = some m

theorem entry_ne_t (k : Nat) : entry k ≠ .t := by
  unfold entry
  split <;> exact fun h => Var.noConfusion h

theorem entry_injective : Function.Injective entry := by
  intro j k h
  unfold entry at h
  by_cases hj : j = 1
  · by_cases hk : k = 1
    · rw [hj, hk]
    · rw [if_pos hj, if_neg hk] at h
      exact Var.noConfusion h
  · by_cases hk : k = 1
    · rw [if_neg hj, if_pos hk] at h
      exact Var.noConfusion h
    · rw [if_neg hj, if_neg hk] at h
      exact Var.pow.inj h

variable {w m : Nat} {s : Store Var Nat}

/-- An instruction that writes `t`. -/
theorem Accumulates.set (h : Accumulates w s m) (n : Nat) : Accumulates w (s.set .t n) n where
  table k hk hlt := by
    unfold Store.set
    rw [if_neg (entry_ne_t k)]
    exact h.table k hk hlt
  result := if_pos rfl

theorem exec_squarings (h : Accumulates w s m) (n : Nat) :
    ∃ s', execNat (squarings n) s = some s' ∧ Accumulates w s' (m * 2 ^ n) := by
  induction n generalizing s m with
  | zero => exact ⟨s, rfl, by rwa [pow_zero, mul_one]⟩
  | succ n ih =>
    obtain ⟨s', hs', hacc⟩ := ih (h.set (2 * m))
    refine ⟨s', ?_, ?_⟩
    · rw [← hs']
      simp only [execNat, squarings, List.replicate_succ, exec, List.foldlM_cons, Instr.step,
        h.result]
      rfl
    · rwa [pow_succ, ← mul_assoc, mul_right_comm, mul_comm m 2]

theorem exec_window (h : Accumulates w s m) (n : Nat) {k : Nat} (hk : k % 2 = 1)
    (hlt : k < 2 ^ w) :
    ∃ s', execNat (window n k) s = some s' ∧ Accumulates w s' (m * 2 ^ n + k) := by
  obtain ⟨s', hs', hacc⟩ := exec_squarings h n
  refine ⟨s'.set .t (m * 2 ^ n + k), ?_, hacc.set _⟩
  unfold execNat at hs' ⊢
  rw [window, exec_append, hs', Option.bind_some, exec, List.foldlM_cons, Instr.step, hacc.result,
    hacc.table k hk hlt]
  rfl

/-- **The loop invariant**: the accumulated power is the number of the bits read so far. -/
theorem exec_windowLoop (hw : 1 ≤ w) {fuel : Nat} {bits : List Bool} (hfuel : bits.length ≤ fuel)
    (h : Accumulates w s m) :
    ∃ s', execNat (windowLoop w fuel bits false) s = some s' ∧
      Accumulates w s' (m * 2 ^ bits.length + int2 bits) := by
  induction fuel generalizing bits s m with
  | zero =>
    obtain rfl := List.eq_nil_of_length_eq_zero (Nat.le_zero.mp hfuel)
    exact ⟨s, rfl, by simpa [int2] using h⟩
  | succ fuel ih =>
    cases bits with
    | nil => exact ⟨s, rfl, by simpa [int2] using h⟩
    | cons b bits =>
      rw [List.length_cons] at hfuel
      unfold execNat
      cases b with
      | false =>
        -- a zero outside the windows is one squaring
        obtain ⟨s', hs', hacc⟩ := exec_squarings h 1
        obtain ⟨s'', hs'', hacc'⟩ := ih (Nat.le_of_succ_le_succ hfuel) hacc
        refine ⟨s'', ?_, ?_⟩
        · unfold execNat at hs' hs''
          rw [windowLoop, exec_append]
          simp only [Bool.false_eq_true, if_false]
          rw [show [Instr.square Var.t Var.t] = squarings 1 from rfl, hs', Option.bind_some]
          exact hs''
        · rw [int2_cons, List.length_cons, pow_succ, Bool.toNat_false, zero_mul, zero_add]
          rwa [pow_one, mul_assoc, mul_comm 2] at hacc'
      | true =>
        obtain ⟨hodd, hlt, hlen, hint⟩ := window_val hw bits
        obtain ⟨hone, -, -⟩ := maxLen_spec w bits
        obtain ⟨s', hs', hacc⟩ := exec_window h (maxLen w (true :: bits)) hodd hlt
        have hdrop : ((true :: bits).drop (maxLen w (true :: bits))).length ≤ fuel := by
          rw [List.length_drop, List.length_cons]
          omega
        obtain ⟨s'', hs'', hacc'⟩ := ih hdrop hacc
        have hsplit : (true :: bits).length = maxLen w (true :: bits)
            + ((true :: bits).drop (maxLen w (true :: bits))).length := by
          rw [← hlen, ← List.length_append, hlen, List.take_append_drop]
        refine ⟨s'', ?_, ?_⟩
        · unfold execNat at hs' hs''
          rw [windowLoop, exec_append]
          simp only [Bool.false_eq_true, if_false]
          rw [hs', Option.bind_some]
          exact hs''
        · rw [hint, hsplit, pow_add, ← mul_assoc, ← add_assoc, ← add_mul]
          exact hacc'

/-! ### The table -/

/-- The odd numbers from 3 on that have `w` bits. -/
theorem pyRange_odd (hw : 2 ≤ w) :
    pyRange 3 (2 ^ w - 1 + 1) 2 = (List.range (2 ^ (w - 1) - 1)).map fun i => 3 + 2 * i := by
  obtain ⟨v, rfl⟩ : ∃ v, w = v + 1 := ⟨w - 1, by omega⟩
  have htwo : 2 ^ 1 ≤ 2 ^ v := Nat.pow_le_pow_right (by norm_num) (by omega)
  have hcount : (2 ^ (v + 1) - 1 + 1 - 3 + 2 - 1) / 2 = 2 ^ v - 1 := by
    rw [pow_succ]
    omega
  rw [pyRange, hcount, Nat.add_sub_cancel]

/-- The precomputation of a window width is the table of its odd powers. -/
theorem tableCode_eq (hw : 2 ≤ w) : tableCode (2 ^ w - 1) = table (2 ^ (w - 1) - 1) := by
  unfold tableCode table
  rw [pyRange_odd hw, List.map_map]
  refine congrArg _ (List.map_congr_left fun i _ => ?_)
  simp only [Function.comp_apply, entry]
  rcases Nat.eq_zero_or_pos i with rfl | hi
  · rfl
  · rw [if_neg (by omega), if_neg (by omega), if_neg (by omega)]
    congr 2
    · omega
    · omega

/-- What a table of `n` odd powers leaves. -/
theorem exec_table (n : Nat) :
    ∃ s', execNat (table n) (Store.set (fun _ => none) .x 1) = some s' ∧
      s' (.pow 2) = some 2 ∧ ∀ k, k % 2 = 1 → k ≤ 2 * n + 1 → s' (entry k) = some k := by
  induction n with
  | zero =>
    refine ⟨_, rfl, rfl, fun k hk hle => ?_⟩
    obtain rfl : k = 1 := by omega
    rfl
  | succ n ih =>
    obtain ⟨s', hs', htwo, hodd⟩ := ih
    refine ⟨s'.set (entry (2 * n + 3)) (2 + (2 * n + 1)), ?_, ?_, fun k hk hle => ?_⟩
    · unfold execNat at hs' ⊢
      rw [table, List.range_succ, List.map_append, ← List.cons_append, exec_append]
      rw [table] at hs'
      rw [hs', Option.bind_some, List.map_singleton, exec, List.foldlM_cons, Instr.step, htwo,
        hodd (2 * n + 1) (by omega) le_rfl]
      rfl
    · unfold Store.set
      rw [if_neg ?_, htwo]
      unfold entry
      rw [if_neg (by omega)]
      exact fun h => absurd (Var.pow.inj h) (by omega)
    · unfold Store.set
      split_ifs with heq
      · rw [entry_injective heq]
        congr 1
        omega
      · refine hodd k hk ?_
        by_contra hgt
        exact heq (by rw [show k = 2 * n + 3 by omega])

/-! ### The whole program -/

/-- The instructions of an emitted function. -/
def slidingProgram (exp w : Nat) : List (Instr Var) :=
  tableCode (2 ^ w - 1) ++ windowLoop w (bin exp).length (bin exp) true

/-- **The emitted instructions compute their exponent.** -/
theorem exponent_slidingProgram {exp : Nat} (hexp : 1 ≤ exp) (hw : 2 ≤ w) :
    exponent (slidingProgram exp w) .x .t = some exp := by
  obtain ⟨bits, hbits⟩ := bin_eq_cons hexp
  obtain ⟨s, hs, -, htable⟩ := exec_table (2 ^ (w - 1) - 1)
  have hpow : 2 * (2 ^ (w - 1) - 1) + 1 + 1 = 2 ^ w := by
    have hpos : 0 < 2 ^ (w - 1) := Nat.two_pow_pos _
    have hsucc : 2 ^ w = 2 ^ (w - 1) * 2 := by rw [← pow_succ, Nat.sub_add_cancel (by omega)]
    omega
  obtain ⟨hodd, hlt, hlen, hint⟩ := window_val (by omega : 1 ≤ w) bits
  obtain ⟨hone, -, -⟩ := maxLen_spec w bits
  have hacc : Accumulates w (s.set .t (int2 ((true :: bits).take (maxLen w (true :: bits)))))
      (int2 ((true :: bits).take (maxLen w (true :: bits)))) := by
    refine ⟨fun k hk hlt => ?_, if_pos rfl⟩
    unfold Store.set
    rw [if_neg (entry_ne_t k)]
    exact htable k hk (by omega)
  have hdrop : ((true :: bits).drop (maxLen w (true :: bits))).length ≤ bits.length := by
    rw [List.length_drop, List.length_cons]
    omega
  obtain ⟨s', hs', hacc'⟩ := exec_windowLoop (by omega : 1 ≤ w) hdrop hacc
  have hrun : execNat (slidingProgram exp w) (Store.set (fun _ => none) .x 1) = some s' := by
    unfold execNat at hs hs' ⊢
    rw [slidingProgram, tableCode_eq hw, exec_append, hs, Option.bind_some, hbits,
      List.length_cons, windowLoop]
    simp only [if_true]
    rw [exec_append, exec, List.foldlM_cons, Instr.step, htable _ hodd (by omega)]
    exact hs'
  have hresult := hacc'.result
  rw [← hint, ← hbits, int2_bin] at hresult
  unfold execNat at hrun
  rw [exponent, runProgram, hrun]
  exact hresult

/-! ## Runs of the lines -/

/-- Instructions over declared variables run as the program they are. -/
theorem run_instrs (sq : α → α) (mul : α → α → α) (inVal : α) {prog : List (Instr Var)}
    {s : Scope α} (h : ∀ i ∈ prog, ∀ v ∈ vars i, v ∈ s.declared) :
    (prog.map Line.instr).foldlM (Line.run sq mul inVal) s
      = (exec sq mul prog s.store).map fun store => { s with store } := by
  induction prog generalizing s with
  | nil => rfl
  | cons i prog ih =>
    rw [List.map_cons, List.foldlM_cons, exec, List.foldlM_cons, Line.run,
      if_pos (h i List.mem_cons_self)]
    cases hstep : i.step sq mul s.store with
    | none => rfl
    | some store => exact ih fun j hj => h j (List.mem_cons_of_mem i hj)

/-- What the loop reads and writes: `t` and the odd powers of the table. -/
theorem vars_windowLoop (hw : 1 ≤ w) {fuel : Nat} {bits : List Bool} {isFirst : Bool}
    {i : Instr Var} (hi : i ∈ windowLoop w fuel bits isFirst) {v : Var} (hv : v ∈ vars i) :
    v = .t ∨ ∃ k, k % 2 = 1 ∧ k < 2 ^ w ∧ v = entry k := by
  induction fuel generalizing bits isFirst with
  | zero => exact absurd hi List.not_mem_nil
  | succ fuel ih =>
    rcases bits with _ | ⟨b, bits⟩
    · exact absurd hi List.not_mem_nil
    · cases b with
      | false =>
        rw [windowLoop, List.mem_append] at hi
        rcases hi with hsq | hrest
        · cases isFirst with
          | false =>
            obtain rfl := List.mem_singleton.mp hsq
            simp only [vars, List.mem_cons, List.not_mem_nil, or_false, or_self] at hv
            exact .inl hv
          | true => exact absurd hsq List.not_mem_nil
        · exact ih hrest
      | true =>
        obtain ⟨hodd, hlt, -, -⟩ := window_val hw bits
        rw [windowLoop, List.mem_append] at hi
        rcases hi with hwin | hrest
        · cases isFirst with
          | false =>
            rw [if_neg Bool.false_ne_true, window, List.mem_append] at hwin
            rcases hwin with hsq | hmul
            · obtain rfl := List.eq_of_mem_replicate hsq
              simp only [vars, List.mem_cons, List.not_mem_nil, or_false, or_self] at hv
              exact .inl hv
            · obtain rfl := List.mem_singleton.mp hmul
              simp only [vars, List.mem_cons, List.not_mem_nil, or_false] at hv
              rcases hv with hv | hv | hv
              · exact .inl hv
              · exact .inl hv
              · exact .inr ⟨_, hodd, hlt, hv⟩
          | true =>
            obtain rfl := List.mem_singleton.mp hwin
            simp only [vars, List.mem_cons, List.not_mem_nil, or_false] at hv
            rcases hv with hv | hv
            · exact .inl hv
            · exact .inr ⟨_, hodd, hlt, hv⟩
        · exact ih hrest

/-- `x3, x5, …`: the `n` odd variables of a table. -/
def oddVars (n : Nat) : List Var := (List.range n).map fun i => .pow (2 * i + 3)

theorem mem_oddVars {n k : Nat} (hk : k % 2 = 1) (hle : k ≤ 2 * n + 1) :
    entry k = .x ∨ entry k ∈ oddVars n := by
  by_cases hone : k = 1
  · exact .inl (if_pos hone)
  · refine .inr (List.mem_map.mpr ⟨(k - 3) / 2, List.mem_range.mpr (by omega), ?_⟩)
    rw [entry, if_neg hone]
    congr 1
    omega

theorem vars_table {n : Nat} {i : Instr Var} (hi : i ∈ table n) {v : Var} (hv : v ∈ vars i) :
    v ∈ Var.pow 2 :: oddVars n ++ [Var.x] := by
  have hentry : ∀ k, k % 2 = 1 → k ≤ 2 * n + 1 → entry k ∈ Var.pow 2 :: oddVars n ++ [Var.x] := by
    intro k hk hle
    rcases mem_oddVars hk hle with h | h
    · rw [h]
      simp
    · exact List.mem_append_left _ (List.mem_cons_of_mem _ h)
  rcases List.mem_cons.mp hi with rfl | hmul
  · simp only [vars, List.mem_cons, List.not_mem_nil, or_false] at hv
    rcases hv with rfl | rfl <;> simp
  · obtain ⟨j, hj, rfl⟩ := List.mem_map.mp hmul
    have hlt := List.mem_range.mp hj
    simp only [vars, List.mem_cons, List.not_mem_nil, or_false] at hv
    rcases hv with rfl | rfl | rfl
    · exact hentry _ (by omega) (by omega)
    · simp
    · exact hentry _ (by omega) (by omega)

theorem exists_of_mem_oddVars {n : Nat} {v : Var} (h : v ∈ oddVars n) :
    ∃ i, v = .pow (2 * i + 3) := by
  obtain ⟨i, -, rfl⟩ := List.mem_map.mp h
  exact ⟨i, rfl⟩

/-- The names that are declared are different. -/
theorem nodup_oddVars (n : Nat) : (Var.t :: Var.pow 2 :: oddVars n ++ [Var.x]).Nodup := by
  have hodd : (oddVars n).Nodup := by
    refine List.Nodup.map (fun i j hij => ?_) List.nodup_range
    have hpow := Var.pow.inj hij
    omega
  have htwo : Var.pow 2 ∉ oddVars n := by
    intro h
    obtain ⟨i, hi⟩ := exists_of_mem_oddVars h
    have hpow := Var.pow.inj hi
    omega
  have ht : Var.t ∉ oddVars n := by
    intro h
    obtain ⟨i, hi⟩ := exists_of_mem_oddVars h
    cases hi
  have hx : Var.x ∉ oddVars n := by
    intro h
    obtain ⟨i, hi⟩ := exists_of_mem_oddVars h
    cases hi
  simp [List.nodup_append, hodd, htwo, ht]
  exact fun v hv hvx => hx (hvx ▸ hv)

theorem declare_of_nodup {s : Scope α} {vs : List Var} (h : (vs ++ s.declared).Nodup) :
    s.declare vs = some { s with declared := vs ++ s.declared } := if_pos h

/-- What is known of the variables after the declaration of the table. -/
def tableScope (n : Nat) (inVal : α) : Scope α where
  declared := .pow 2 :: oddVars n ++ [.x]
  store := Store.set (fun _ => none) .x inVal
  out := none

theorem tableScope_store (n : Nat) (inVal : α) :
    (tableScope n inVal).store = Store.set (fun _ => none) .x inVal := rfl

/-- The lines up to the declaration of the table. -/
theorem run_declareTable (sq : α → α) (mul : α → α → α) (inVal : α) (funcName : String)
    (bits : Nat) {n : Nat} (hn : 1 ≤ n) :
    [Line.windowComment w, .lengthComment bits, .header funcName, .input,
      .declareTable (oddVars n)].foldlM (Line.run sq mul inVal)
        { declared := [], store := fun _ => none, out := none } = some (tableScope n inVal) := by
  have hne : oddVars n ≠ [] := by
    simp only [oddVars, ne_eq, List.map_eq_nil_iff, List.range_eq_nil]
    omega
  simp only [List.foldlM_cons, List.foldlM_nil, Line.run, Option.bind_eq_bind, Option.bind_some]
  rw [declare_of_nodup (List.nodup_singleton Var.x), Option.map_some, Option.bind_some,
    if_neg hne, declare_of_nodup (List.nodup_cons.mp (nodup_oddVars n)).2]
  rfl

/-- The declaration of `t` after any instructions of the table. -/
theorem run_declareResult (sq : α → α) (mul : α → α → α) (inVal : α) (n : Nat)
    (store : Store Var α) :
    Line.run sq mul inVal { tableScope n inVal with store } .declareResult
      = some ⟨.t :: (tableScope n inVal).declared, store, none⟩ :=
  declare_of_nodup (nodup_oddVars n)

/-- What the loop reads and writes is declared by then. -/
theorem declared_windowLoop (hw : 1 ≤ w) {n : Nat} (hn : 2 ^ w ≤ 2 * n + 2) {fuel : Nat}
    {bits : List Bool} {isFirst : Bool} {i : Instr Var} (hi : i ∈ windowLoop w fuel bits isFirst)
    {v : Var} (hv : v ∈ vars i) (inVal : α) : v ∈ Var.t :: (tableScope n inVal).declared := by
  rcases vars_windowLoop hw hi hv with rfl | ⟨k, hk, hlt, rfl⟩
  · exact List.mem_cons_self
  · rcases mem_oddVars (n := n) hk (by omega) with h | h
    · simp [h, tableScope]
    · simp [h, tableScope]

/-- **The declarations come in time**: a run of the lines is a run of the instructions. -/
theorem runCode_eq {exp : Nat} (hw : 2 ≤ w) (funcName : String) (sq : α → α) (mul : α → α → α)
    (inVal : α) :
    runCode sq mul (getSlidingWindowCode exp funcName w) inVal
      = runProgram sq mul (slidingProgram exp w) .x .t inVal := by
  have hodd : (pyRange 3 (2 ^ w - 1 + 1) 2).map Var.pow = oddVars (2 ^ (w - 1) - 1) := by
    rw [pyRange_odd hw, List.map_map, oddVars]
    exact List.map_congr_left fun i _ => congrArg Var.pow (Nat.add_comm _ _)
  have hpow : 2 ^ w = 2 ^ (w - 1) * 2 := by rw [← pow_succ, Nat.sub_add_cancel (by omega)]
  have htwo : 2 ^ 1 ≤ 2 ^ (w - 1) := Nat.pow_le_pow_right (by norm_num) (by omega)
  generalize hn : 2 ^ (w - 1) - 1 = n at hodd
  unfold runCode getSlidingWindowCode runProgram slidingProgram
  simp only [hodd, List.foldlM_append,
    run_declareTable sq mul inVal funcName _ (by omega : 1 ≤ n), tableCode_eq hw, hn,
    exec_append, Option.bind_eq_bind, Option.bind_some,
    run_instrs sq mul inVal (s := tableScope n inVal) fun i hi v hv => vars_table hi hv,
    tableScope_store]
  cases exec sq mul (table n) (Store.set (fun _ => none) .x inVal) with
  | none => rfl
  | some store =>
    have hinner := run_instrs sq mul inVal
      (s := ⟨.t :: (tableScope n inVal).declared, store, none⟩) fun i hi v hv =>
        declared_windowLoop (by omega) (by omega)
          (hi : i ∈ windowLoop w (bin exp).length (bin exp) true) hv inVal
    simp only [Option.map_some, Option.bind_some, List.foldlM_cons, run_declareResult,
      List.foldlM_nil, Option.bind_eq_bind, Option.pure_def, hinner]
    cases exec sq mul (windowLoop w (bin exp).length (bin exp) true) store with
    | none => rfl
    | some store =>
      rw [Option.map_some, Option.bind_some, Option.bind_some, Line.run,
        if_pos List.mem_cons_self]
      dsimp only
      cases store .t <;> rfl

/-! ## The checked-in functions -/

/-- The lines of a function of `fast_residue_25519.h`: the table comes before `t` is declared. -/
def functionLines (funcName : String) (w bits : Nat) (oddVars : List Var)
    (program : List (Instr Var)) : List Line :=
  [.windowComment w, .lengthComment bits, .header funcName, .input, .declareTable oddVars]
    ++ (program.take (oddVars.length + 1)).map .instr ++ [.declareResult]
    ++ (program.drop (oddVars.length + 1)).map .instr ++ [.output, .close]

/-- The lines of `pow_eps`. -/
def powEpsLines : List Line := functionLines "pow_eps" 4 20 (oddVars 7) powEpsProgram

/-- The lines of `pow_D`. -/
def powDLines : List Line := functionLines "pow_D" 5 236 (oddVars 15) powDProgram

/-- The lines of `pow_Y`. -/
def powYLines : List Line := functionLines "pow_Y" 5 235 (oddVars 15) powYProgram

set_option maxRecDepth 4000 in
/-- **The checked-in functions are emitted ones**, line by line. -/
theorem lines_emitted :
    powEpsLines = getSlidingWindowCode eps "pow_eps" 4 ∧
      powDLines = getSlidingWindowCode powDExp "pow_D" 5 ∧
      powYLines = getSlidingWindowCode powYExp "pow_Y" 5 := by
  decide +kernel

/-- `pow(eps, -1, d)`, and the exponent the script takes from it. -/
theorem powYExp_eq : ∃ inv < powDExp, eps * inv % powDExp = 1 ∧ powYExp = powDExp - inv := by
  refine ⟨powDExp - powYExp, ?_, ?_, ?_⟩ <;> decide +kernel

/-! ## Results -/

/-- **The generator is correct**: for every exponent and every width from 2 on the emitted lines use
only variables that are declared and assigned, and leave the power in `*out`, in every monoid; the
three functions of `fast_residue_25519.h` are emitted for 781764, for `d` and for
`d - pow(eps, -1, d)`. -/
theorem getSlidingWindowCode_correct :
    (∀ (M : Type*) [Monoid M] (exp w : Nat) (funcName : String), 1 ≤ exp → 2 ≤ w → ∀ inVal : M,
      runCode (fun a => a * a) (· * ·) (getSlidingWindowCode exp funcName w) inVal
        = some (inVal ^ exp)) ∧
    powEpsLines = getSlidingWindowCode 781764 "pow_eps" 4 ∧
    powDLines = getSlidingWindowCode ((prime - 1) / 781764) "pow_D" 5 ∧
    ∃ inv < (prime - 1) / 781764, 781764 * inv % ((prime - 1) / 781764) = 1 ∧
      powYLines = getSlidingWindowCode ((prime - 1) / 781764 - inv) "pow_Y" 5 := by
  obtain ⟨heps, hD, hY⟩ := lines_emitted
  obtain ⟨inv, hlt, hinv, hexp⟩ := powYExp_eq
  have hpowD : (prime - 1) / 781764 = powDExp := by decide +kernel
  refine ⟨fun M _ exp w funcName hexp hw inVal => ?_, heps, ?_, inv, ?_, ?_, ?_⟩
  · rw [runCode_eq hw, exec_pow (exponent_slidingProgram hexp hw)]
  · rw [hpowD, hD]
  · rwa [hpowD]
  · rwa [hpowD]
  · rw [hpowD, ← hexp, hY]

/-- `x ^ 5` with a window of two bits. -/
theorem getSlidingWindowCode_correct_example :
    runCode (fun a : Nat => a * a) (· * ·) (getSlidingWindowCode 5 "pow_5" 2) 3 = some 243 :=
  getSlidingWindowCode_correct.1 Nat 5 2 "pow_5" (by omega) (by omega) 3

end HocusPocus.GenerateFastOps
