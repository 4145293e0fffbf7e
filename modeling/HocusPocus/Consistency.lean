import HocusPocus.VolePlus
import HocusPocus.Zkp.Commit

/-!
# The consistency checks bind the sender

`VolePlus::receive` and `PROPRF_ZKVerifier::commit_to_witness` each compare a value `cu_i` and a
common value `cv` with a combination of their rows. The two checks are written with opposite signs,
`VolePlus` has its extra element under `gamma[len]` and leaves row 0 as it is, `ZKP` has it apart at
`check_pos`. Both decide one affine equation in the key `h_i`.

* `VolePlus.accepts_iff_passesRow`, `ZkParams.accepts_iff_passesRow`: a run gets past
  its checks exactly when every row passes, on whatever values of the right lengths.
* `checks_bind`: whatever is sent, a wrong `cv` passes the check of row `i` for at most one key, and
  if two keys pass then `cv` and `cu_i` are the true combinations; and so it is for two runs that
  get past all checks.
-/

namespace HocusPocus

open Machine Duplex FieldOps Finset

/-! ## Checks that are affine in a key -/

section

variable {F K : Type} [Field F] {key : K → F} {check : K → Prop} {cu cv u v : F} {k k' : K}

/-- The check compares the sent pair `(cu, cv)` with the true pair `(u, v)` at a key. -/
def OpensAt (key : K → F) (check : K → Prop) (cu cv u v : F) : Prop :=
  ∀ k, check k ↔ cu - u + key k * (cv - v) = 0

/-- A wrong slope passes for at most one key. -/
theorem OpensAt.key_unique (h : OpensAt key check cu cv u v) (hv : cv ≠ v) (hk : check k)
    (hk' : check k') : key k = key k' := by
  have heq := (h k).mp hk
  have heq' := (h k').mp hk'
  have hprod : (key k - key k') * (cv - v) = 0 := by linear_combination heq - heq'
  rcases mul_eq_zero.mp hprod with hkey | hslope
  · exact sub_eq_zero.mp hkey
  · exact absurd (sub_eq_zero.mp hslope) hv

/-- Two keys that pass leave only the true pair. -/
theorem OpensAt.binds (h : OpensAt key check cu cv u v) (hne : key k ≠ key k') (hk : check k)
    (hk' : check k') : cv = v ∧ cu = u := by
  have hcv : cv = v := by
    by_contra hv
    exact hne (h.key_unique hv hk hk')
  have heq := (h k).mp hk
  rw [hcv, sub_self, mul_zero, add_zero] at heq
  exact ⟨hcv, sub_eq_zero.mp heq⟩

/-- What `rows` checks with a common slope bind: `passes i` is the check of row `i`, which looks at
the key `h_i` only. -/
structure Binding (rows : Nat) (passes : Nat → (Nat → F) → Prop) (cu : Nat → F) (cv : F)
    (u v : Nat → F) : Prop where
  /-- A wrong slope passes for at most one key. -/
  unique : ∀ i < rows, cv ≠ v i → ∀ hi hi', passes i hi → passes i hi' → hi i = hi' i
  /-- Two keys that pass leave only the true pair. -/
  opened : ∀ i < rows, ∀ hi hi', hi i ≠ hi' i → passes i hi → passes i hi' → cv = v i ∧ cu i = u i
  /-- The true slopes of all such rows coincide. -/
  common : ∀ i < rows, ∀ i' < rows, (∃ hi hi', hi i ≠ hi' i ∧ passes i hi ∧ passes i hi') →
    (∃ hi hi', hi i' ≠ hi' i' ∧ passes i' hi ∧ passes i' hi') → v i = v i'

/-- A loop over such rows binds as a run, too: `accepts` is a run with the given keys that gets past
its checks. -/
structure BindsRuns (rows : Nat) (accepts : (Nat → F) → Prop) (passes : Nat → (Nat → F) → Prop)
    (cu : Nat → F) (cv : F) (u v : Nat → F) : Prop where
  /-- No row is skipped. -/
  accepts_iff : ∀ hi, accepts hi ↔ ∀ i < rows, passes i hi
  /-- What one check binds. -/
  row : Binding rows passes cu cv u v
  /-- What two runs bind. -/
  run : Binding rows (fun _ => accepts) cu cv u v

omit [Field F] in
/-- A run that has passed every row binds what the rows bind. -/
theorem Binding.run {rows : Nat} {accepts : (Nat → F) → Prop} {passes : Nat → (Nat → F) → Prop}
    {cu u v : Nat → F} (h : Binding rows passes cu cv u v)
    (haccepts : ∀ hi, accepts hi ↔ ∀ i < rows, passes i hi) :
    BindsRuns rows accepts passes cu cv u v where
  accepts_iff := haccepts
  row := h
  run :=
    { unique := fun i hi hv _ _ hpass hpass' =>
        h.unique i hi hv _ _ ((haccepts _).mp hpass i hi) ((haccepts _).mp hpass' i hi)
      opened := fun i hi _ _ hne hpass hpass' =>
        h.opened i hi _ _ hne ((haccepts _).mp hpass i hi) ((haccepts _).mp hpass' i hi)
      common := by
        rintro i hi i' hi' ⟨k, k', hne, hpass, hpass'⟩ ⟨m, m', hne', hpass₁, hpass₁'⟩
        exact h.common i hi i' hi'
          ⟨k, k', hne, (haccepts _).mp hpass i hi, (haccepts _).mp hpass' i hi⟩
          ⟨m, m', hne', (haccepts _).mp hpass₁ i' hi', (haccepts _).mp hpass₁' i' hi'⟩ }

theorem binding_of_opensAt {rows : Nat} {passes : Nat → (Nat → F) → Prop} {cu u v : Nat → F}
    (h : ∀ i, OpensAt (fun hi : Nat → F => hi i) (passes i) (cu i) cv (u i) (v i)) :
    Binding rows passes cu cv u v where
  unique i _ hv _ _ hpass hpass' := (h i).key_unique hv hpass hpass'
  opened i _ _ _ hne hpass hpass' := (h i).binds hne hpass hpass'
  common := by
    rintro i - i' - ⟨hi, hi', hne, hpass, hpass'⟩ ⟨ki, ki', hne', hpass₁, hpass₁'⟩
    rw [← ((h i).binds hne hpass hpass').1, ← ((h i').binds hne' hpass₁ hpass₁').1]

end

/-! ## `VolePlus::receive` -/

namespace VolePlus

variable {vp : VolePlus} {gamma : Nat → Fp} {ui vi : Nat → Nat → Fp} {hi : Nat → Fp}
  {shift values : Bytes}

/-- Row `i` of the sender after its shift, `v_i + d_i`; row 0 has none. -/
def shiftedRow (vp : VolePlus) (vi : Nat → Nat → Fp) (shift : Bytes) (i j : Nat) : Fp :=
  if i = 0 then vi 0 j else vi i j + readFe25519 shift ((i - 1) * (vp.len + 1) + j)

/-- A row under the challenge, with its last element apart. -/
def combination (vp : VolePlus) (gamma row : Nat → Fp) : Fp :=
  row vp.len + ∑ j ∈ range vp.len, gamma j * row j

/-- The check of row `i` passes, with the rows `u_i + h_i * v_i` of the keys `hi`; the challenge has
1 in its last place. -/
def PassesRow (vp : VolePlus) (gamma : Nat → Fp) (ui vi : Nat → Nat → Fp) (shift values : Bytes)
    (i : Nat) (hi : Nat → Fp) : Prop :=
  vp.checkRow (withLast vp gamma 1) (vp.correctRows (fun i j => ui i j + hi i * vi i j) hi shift) hi
    values i = true

theorem expandGamma_eq (expand : Block → Nat → UInt8) (vp : VolePlus) (seed : Block) :
    vp.expandGamma expand seed
      = withLast vp (generateF25519VectorFromSeed expand seed : Nat → Fp) 1 := by
  funext i
  rw [expandGamma, Exact.setOne_eq]
  rfl

theorem sum_withLast_mul (gamma row : Nat → Fp) :
    ∑ j ∈ range (vp.len + 1), withLast vp gamma 1 j * row j = vp.combination gamma row := by
  rw [sum_range_succ, combination, add_comm]
  congr 1
  · rw [withLast, if_neg (lt_irrefl _), one_mul]
  · exact sum_congr rfl fun j hj => by rw [withLast, if_pos (mem_range.mp hj)]

theorem correctRows_correlation (i j : Nat) :
    vp.correctRows (fun i j => ui i j + hi i * vi i j) hi shift i j
      = ui i j + hi i * vp.shiftedRow vi shift i j := by
  unfold correctRows shiftedRow
  split_ifs with h0
  · rw [h0]
  · rw [Exact.reduceAddSub_eq]
    ring

theorem passesRow_iff {i : Nat} :
    vp.PassesRow gamma ui vi shift values i hi ↔
      readFe25519 values i - vp.combination gamma (ui i)
        + hi i * (readFe25519 values vp.kVole
          - vp.combination gamma (vp.shiftedRow vi shift i)) = 0 := by
  have hrow : ∑ j ∈ range (vp.len + 1),
        withLast vp gamma 1 j * vp.correctRows (fun i j => ui i j + hi i * vi i j) hi shift i j
      = vp.combination gamma (ui i)
        + hi i * vp.combination gamma (vp.shiftedRow vi shift i) := by
    rw [← sum_withLast_mul, ← sum_withLast_mul, mul_sum, ← sum_add_distrib]
    refine sum_congr rfl fun j _ => ?_
    rw [correctRows_correlation]
    ring
  unfold PassesRow checkRow
  simp only [Exact.dotProduct_eq, hrow, Exact.reduceAddSub_eq, Exact.freeze_eq, Exact.isZero_eq,
    decide_eq_true_eq]
  constructor
  · intro h
    linear_combination h
  · intro h
    linear_combination h

theorem opensAt_passesRow (vp : VolePlus) (gamma : Nat → Fp) (ui vi : Nat → Nat → Fp)
    (shift values : Bytes) (i : Nat) :
    OpensAt (fun hi : Nat → Fp => hi i) (vp.PassesRow gamma ui vi shift values i)
      (readFe25519 values i) (readFe25519 values vp.kVole)
      (vp.combination gamma (ui i)) (vp.combination gamma (vp.shiftedRow vi shift i)) :=
  fun _ => passesRow_iff

/-- Some run of the receiver with the keys `hi` and the challenge of `prng` gets past its checks on
the shift and the values: it assigns `cu`. -/
def Accepts (vp : VolePlus) (expand : Block → Nat → UInt8) (prng : Prng) (ui vi : Nat → Nat → Fp)
    (shift values : Bytes) (hi : Nat → Fp) : Prop :=
  ∃ h ms rest r, feed (vp.receive expand h (fun i j => ui i j + hi i * vi i j) hi prng)
    (shift :: values :: ms) = .returned r rest ∧ r.1.cu ≠ none

/-- **A run that assigns `cu` has passed every row**, and one that passes every row gets there. -/
theorem accepts_iff_passesRow {expand : Block → Nat → UInt8} {prng : Prng}
    (hread : vp.Read shift values) :
    vp.Accepts expand prng ui vi shift values hi ↔ ∀ i < vp.kVole,
      vp.PassesRow (generateF25519VectorFromSeed expand prng.getBlock.1) ui vi shift values i
        hi := by
  constructor
  · rintro ⟨h, ms, rest, r, hrun, hcu⟩ i hik
    obtain ⟨_, _, _, ⟨⟩, -, -, ⟨hpass, -⟩ | ⟨-, hr, -⟩⟩ := (vp.feed_receive_returned expand).mp hrun
    · rw [checks, List.all_eq_true, sessionGamma, expandGamma_eq] at hpass
      exact hpass i (List.mem_range.mpr hik)
    · exact absurd (congrArg (fun r => r.1.cu) hr).symm hcu
  · intro hpass
    have hchecks : vp.checks (vp.sessionGamma expand prng)
        (vp.correctRows (fun i j => ui i j + hi i * vi i j) hi shift) hi values = true := by
      rw [checks, List.all_eq_true, sessionGamma, expandGamma_eq]
      exact fun i hi => hpass i (List.mem_range.mp hi)
    exact ⟨0, [List.replicate (2 * (vp.len + 1) * primeBytes) 0], [], _,
      (vp.feed_receive_returned expand).mpr ⟨shift, values, _, rfl, hread.shift_length,
        hread.values_length, Or.inl ⟨hchecks, _, rfl, List.length_replicate, rfl⟩⟩,
      Option.some_ne_none _⟩

end VolePlus

/-! ## `PROPRF_ZKVerifier::commit_to_witness` -/

namespace ZkParams

variable {zk : ZkParams} {checkGamma : Nat → Fp} {ui vi : Nat → Nat → Fp} {hi : Nat → Fp}
  {shift values : Bytes}

/-- Row `i` of the prover after its shift, `v_i + d_i`. -/
def shiftedRow (zk : ZkParams) (vi : Nat → Nat → Fp) (shift : Bytes) (i j : Nat) : Fp :=
  vi i j + readFe25519 shift (i * zk.voleLen + j)

/-- A row under the challenge, with the element of the check apart. -/
def combination (zk : ZkParams) (checkGamma row : Nat → Fp) : Fp :=
  row checkPos + ∑ j ∈ range (zk.voleLen - 1), checkGamma j * row j

/-- The check of row `i` passes, with the rows `u_i + h_i * v_i` of the keys `hi`. -/
def PassesRow (zk : ZkParams) (checkGamma : Nat → Fp) (ui vi : Nat → Nat → Fp)
    (shift values : Bytes) (i : Nat) (hi : Nat → Fp) : Prop :=
  zk.checkRow checkGamma (zk.alignRows (fun i j => ui i j + hi i * vi i j) hi shift) hi values i
    = true

theorem alignRows_correlation (i j : Nat) :
    zk.alignRows (fun i j => ui i j + hi i * vi i j) hi shift i j
      = ui i j + hi i * zk.shiftedRow vi shift i j := by
  unfold alignRows shiftedRow
  ring

/-- **The check of a row**, in terms of its combination. -/
theorem checkRow_iff {oi : Nat → Nat → Fp} {i : Nat} :
    zk.checkRow checkGamma oi hi values i = true ↔
      zk.combination checkGamma (oi i)
        = readFe25519 values (1 + i) + hi i * readFe25519 values 0 := by
  have hrow : ∑ j ∈ range (zk.voleLen - 1), oi i j * checkGamma j
      = ∑ j ∈ range (zk.voleLen - 1), checkGamma j * oi i j :=
    sum_congr rfl fun j _ => mul_comm _ _
  unfold checkRow combination
  simp only [Exact.dotProduct_eq, hrow, Exact.reduceAddSub_eq, Exact.neg_eq, Exact.freeze_eq,
    Exact.isZero_eq, decide_eq_true_eq]
  constructor
  · intro h
    linear_combination h
  · intro h
    linear_combination h

theorem passesRow_iff {i : Nat} :
    zk.PassesRow checkGamma ui vi shift values i hi ↔
      readFe25519 values (1 + i) - zk.combination checkGamma (ui i)
        + hi i * (readFe25519 values 0
          - zk.combination checkGamma (zk.shiftedRow vi shift i)) = 0 := by
  have hrow : zk.alignRows (fun i j => ui i j + hi i * vi i j) hi shift i
      = fun j => ui i j + hi i * zk.shiftedRow vi shift i j :=
    funext fun j => alignRows_correlation i j
  have hsum : ∑ j ∈ range (zk.voleLen - 1),
        checkGamma j * (ui i j + hi i * zk.shiftedRow vi shift i j)
      = ∑ j ∈ range (zk.voleLen - 1), checkGamma j * ui i j
        + hi i * ∑ j ∈ range (zk.voleLen - 1), checkGamma j * zk.shiftedRow vi shift i j := by
    rw [mul_sum, ← sum_add_distrib]
    refine sum_congr rfl fun j _ => ?_
    ring
  unfold PassesRow
  rw [checkRow_iff, hrow]
  unfold combination
  rw [hsum]
  constructor
  · intro h
    linear_combination -h
  · intro h
    linear_combination -h

theorem opensAt_passesRow (zk : ZkParams) (checkGamma : Nat → Fp) (ui vi : Nat → Nat → Fp)
    (shift values : Bytes) (i : Nat) :
    OpensAt (fun hi : Nat → Fp => hi i) (zk.PassesRow checkGamma ui vi shift values i)
      (readFe25519 values (1 + i)) (readFe25519 values 0)
      (zk.combination checkGamma (ui i))
      (zk.combination checkGamma (zk.shiftedRow vi shift i)) :=
  fun _ => passesRow_iff

/-- Some run of the verifier with the keys `hi` and the challenge of `prng` ends with `good` on the
shift and the values. -/
def Accepts (zk : ZkParams) (expand : Block → Nat → UInt8) (prng : Prng) (ui vi : Nat → Nat → Fp)
    (shift values : Bytes) (hi : Nat → Fp) : Prop :=
  ∃ ms rest ver prng', feed (zk.verifierCommit expand (fun i j => ui i j + hi i * vi i j) hi prng)
    (shift :: values :: ms) = .returned (true, ver, prng') rest

/-- **A run that ends with `good` has passed every row**, and one that passes every row ends so. -/
theorem accepts_iff_passesRow {expand : Block → Nat → UInt8} {prng : Prng}
    (hshift : shift.length = zk.kVole * zk.voleLen * primeBytes)
    (hfit : zk.multipliersFit = true) (hvalues : values.length = (zk.kVole + 1) * primeBytes) :
    zk.Accepts expand prng ui vi shift values hi ↔ ∀ i < zk.kVole,
      zk.PassesRow (generateF25519VectorFromSeed expand prng.getBlock.1) ui vi shift values i
        hi := by
  constructor
  · rintro ⟨ms, rest, ver, prng', hrun⟩ i hik
    obtain ⟨_, _, ⟨⟩, -, -, -, hr⟩ := (feed_verifierCommit_returned expand).mp hrun
    have hpass := congrArg (fun r => r.1) hr
    rw [checks, List.all_eq_true] at hpass
    exact hpass i (List.mem_range.mpr hik)
  · intro hpass
    have hchecks : zk.checks (generateF25519VectorFromSeed expand prng.getBlock.1)
        (zk.alignRows (fun i j => ui i j + hi i * vi i j) hi shift) hi values = true := by
      rw [checks, List.all_eq_true]
      exact fun i hi => hpass i (List.mem_range.mp hi)
    let oi := zk.alignRows (fun i j => ui i j + hi i * vi i j) hi shift
    refine ⟨[], [], { state := zk.keys oi, Delta := zk.delta hi }, prng.skip 16,
      (feed_verifierCommit_returned expand).mpr
        ⟨shift, values, rfl, hshift, hfit, hvalues, ?_⟩⟩
    rw [hchecks]

end ZkParams

/-! ## Both checks -/

/-- **The consistency checks bind the sender**: the vectors, the shift, the values and the challenge
are fixed before the keys `h_i` are, and then a `cv` other than the combination of row `i` passes
for at most one `h_i`. A run passes every row, so two runs bind what the checks bind. -/
theorem checks_bind (vp : VolePlus) (zk : ZkParams) (expand : Block → Nat → UInt8) (prng : Prng)
    (ui vi : Nat → Nat → Fp) (shift values shift' values' : Bytes) (hread : vp.Read shift values)
    (hshift : shift'.length = zk.kVole * zk.voleLen * primeBytes)
    (hfit : zk.multipliersFit = true) (hvalues : values'.length = (zk.kVole + 1) * primeBytes) :
    let gamma : Nat → Fp := generateF25519VectorFromSeed expand prng.getBlock.1
    BindsRuns vp.kVole (vp.Accepts expand prng ui vi shift values)
        (vp.PassesRow gamma ui vi shift values)
        (fun i => readFe25519 values i) (readFe25519 values vp.kVole)
        (fun i => vp.combination gamma (ui i))
        (fun i => vp.combination gamma (vp.shiftedRow vi shift i)) ∧
      BindsRuns zk.kVole (zk.Accepts expand prng ui vi shift' values')
        (zk.PassesRow gamma ui vi shift' values')
        (fun i => readFe25519 values' (1 + i)) (readFe25519 values' 0)
        (fun i => zk.combination gamma (ui i))
        (fun i => zk.combination gamma (zk.shiftedRow vi shift' i)) :=
  ⟨(binding_of_opensAt fun i => vp.opensAt_passesRow _ ui vi shift values i).run
      fun _ => VolePlus.accepts_iff_passesRow hread,
    (binding_of_opensAt fun i => zk.opensAt_passesRow _ ui vi shift' values' i).run
      fun _ => ZkParams.accepts_iff_passesRow hshift hfit hvalues⟩

/-- **Senders that lie in `cv`**: each value is what its row needs under the keys `hi`, so the two
runs get past their checks, and under another first key they do not. -/
theorem checks_bind_example :
    let prng : Prng := ⟨fun i => UInt8.ofNat (3 * i), 0⟩
    let vp : VolePlus := ⟨1, 2⟩
    let zk : ZkParams := ⟨10, 53, 8, 64⟩
    let ui : Nat → Nat → Fp := fun i j => i + 2 * j + 1
    let vi : Nat → Nat → Fp := fun i j => i * j + 7
    let hi : Nat → Fp := fun i => i + 5
    ∃ shift values shift' values',
      vp.Accepts shiftedSeed prng ui vi shift values hi ∧
        zk.Accepts shiftedSeed prng ui vi shift' values' hi ∧
        ∀ hi', hi' 0 ≠ hi 0 → ¬ vp.Accepts shiftedSeed prng ui vi shift values hi' ∧
          ¬ zk.Accepts shiftedSeed prng ui vi shift' values' hi' := by
  intro prng vp zk ui vi hi
  let gamma : Nat → Fp := generateF25519VectorFromSeed shiftedSeed prng.getBlock.1
  obtain ⟨shift, hshift⟩ : ∃ shift, shift = writeVecToBytes (List.replicate 2 (3 : Fp)) := ⟨_, rfl⟩
  obtain ⟨shift', hshift'⟩ : ∃ shift', shift' = writeVecToBytes (List.replicate 680 (3 : Fp)) :=
    ⟨_, rfl⟩
  let cv : Fp := vp.combination gamma (vp.shiftedRow vi shift 0) + 1
  let cv' : Fp := zk.combination gamma (zk.shiftedRow vi shift' 0) + 1
  let row : Nat → Fp := fun i => vp.combination gamma (ui i)
    - hi i * (cv - vp.combination gamma (vp.shiftedRow vi shift i))
  let row' : Nat → Fp := fun i => zk.combination gamma (ui i)
    - hi i * (cv' - zk.combination gamma (zk.shiftedRow vi shift' i))
  obtain ⟨values, hvalues⟩ : ∃ values, values = writeVecToBytes [row 0, row 1, cv] := ⟨_, rfl⟩
  obtain ⟨values', hvalues'⟩ : ∃ values', values'
    = writeVecToBytes (cv' :: (List.range zk.kVole).map row') := ⟨_, rfl⟩
  have hread : vp.Read shift values := by
    refine ⟨?_, ?_⟩
    · rw [hshift, length_writeVecToBytes]
      rfl
    · rw [hvalues, length_writeVecToBytes]
      rfl
  obtain ⟨hplus, hzk⟩ := checks_bind vp zk shiftedSeed prng ui vi shift values shift' values' hread
    (by rw [hshift', length_writeVecToBytes, List.length_replicate]; decide) (by decide)
    (by rw [hvalues', length_writeVecToBytes, List.length_cons, List.length_map, List.length_range,
      Nat.mul_comm])
  have hcv : readFe25519 values vp.kVole = cv := by
    rw [hvalues]
    exact readFe25519_writeVecToBytes [row 0, row 1, cv] (by decide : 2 < 3)
  have hcv' : readFe25519 values' 0 = cv' := by
    rw [hvalues', readFe25519_writeVecToBytes _ (Nat.zero_lt_succ _)]
    rfl
  have hcu : ∀ i < vp.kVole, readFe25519 values i = row i := by
    intro i hik
    have hik : i < 2 := hik
    rw [hvalues, readFe25519_writeVecToBytes _ (by simp; omega)]
    interval_cases i <;> rfl
  have haccepts : vp.Accepts shiftedSeed prng ui vi shift values hi := by
    refine (hplus.accepts_iff hi).mpr fun i hik => ?_
    rw [VolePlus.passesRow_iff, hcu i hik, hcv]
    simp only [row]
    ring
  have haccepts' : zk.Accepts shiftedSeed prng ui vi shift' values' hi := by
    refine (hzk.accepts_iff hi).mpr fun i hik => ?_
    rw [ZkParams.passesRow_iff, hcv', hvalues', readFe25519_cons_map _ _ hik]
    simp only [row']
    ring
  refine ⟨shift, values, shift', values', haccepts, haccepts', fun hi' hne => ⟨fun h => hne ?_,
    fun h => hne ?_⟩⟩
  · refine hplus.run.unique 0 (by decide) ?_ hi' hi h haccepts
    rw [hcv]
    exact fun heq => one_ne_zero (left_eq_add.mp heq.symm)
  · refine hzk.run.unique 0 (by decide) ?_ hi' hi h haccepts'
    rw [hcv']
    exact fun heq => one_ne_zero (left_eq_add.mp heq.symm)

end HocusPocus
