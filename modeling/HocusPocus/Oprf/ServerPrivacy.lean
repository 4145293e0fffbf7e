import HocusPocus.Oprf.ServerView
import HocusPocus.SafeTrunc.Symbols
import Mathlib.RingTheory.IntegralDomain

/-!
# What the server's messages reveal (`OPRF.h`)

The messages of `blindedEval`, over everything the server draws, to a client that sends whatever it
likes. They are those of a simulator without the key: it is given the symbols of the key at the
public offsets, and at the offsets of the evaluation for the input that the client's `Delta_prime`
is about.

The rows `v` of the small-set VOLEs are uniform here: the client misses one leaf of each tree.

* `exists_eps_power`: two elements with one symbol differ by an `eps`-th power.
* `simulate`: the simulator.
* `messages_toSimulator`: the draws with which the simulator sends what the server sends.
* `server_privacy`: the two have the same distribution.
-/

namespace HocusPocus.OPRF

open Machine Duplex FieldOps FastResidue SafeTrunc Finset

/-! ## Elements with one symbol -/

/-- **Elements with one symbol** differ by an `eps`-th power. -/
theorem exists_eps_power {x y : Fp} (h : presidueEps x = presidueEps y) :
    ∃ t : Fpˣ, x * (t : Fp) ^ eps = y := by
  by_cases hx : x = 0
  · have hy : y = 0 := by
      rw [← presidueEps_eq_zero_iff, ← h, presidueEps_eq_zero_iff]
      exact hx
    exact ⟨1, by rw [hx, hy, zero_mul]⟩
  have hy : y ≠ 0 := by
    rw [Ne, ← presidueEps_eq_zero_iff, ← h, presidueEps_eq_zero_iff]
    exact hx
  rw [presidueEps_eq_iff] at h
  obtain ⟨g, hg⟩ := IsCyclic.exists_generator (α := Fpˣ)
  have horder : orderOf g = eps * powDExp := by
    rw [orderOf_eq_card_of_forall_mem_zpowers hg, Nat.card_eq_fintype_card, ZMod.card_units]
    exact prime_sub_one
  obtain ⟨n, hn⟩ := mem_powers_iff_mem_zpowers.mpr (hg (Units.mk0 y hy / Units.mk0 x hx))
  have hn : g ^ n = Units.mk0 y hy / Units.mk0 x hx := hn
  have hone : g ^ (n * powDExp) = 1 := by
    rw [pow_mul, hn, div_pow, div_eq_one]
    exact Units.ext h.symm
  have hdvd : eps * powDExp ∣ n * powDExp :=
    (dvd_of_eq horder.symm).trans (orderOf_dvd_of_pow_eq_one hone)
  obtain ⟨m, rfl⟩ := Nat.dvd_of_mul_dvd_mul_right powDExp_prime.pos hdvd
  refine ⟨g ^ m, ?_⟩
  have hquot : ((g ^ m : Fpˣ) : Fp) ^ eps = y / x := by
    have hval := congrArg Units.val hn
    rw [Units.val_div_eq_div_val] at hval
    rw [Units.val_pow_eq_pow_val, ← pow_mul, mul_comm m]
    rw [Units.val_pow_eq_pow_val] at hval
    exact hval
  rw [hquot, mul_div_cancel₀ _ hx]

/-- An element with a given symbol. -/
noncomputable def representative (e : UInt64) : Fp := Function.invFun (presidueEps : Fp → UInt64) e

theorem presidueEps_representative (x : Fp) :
    presidueEps (representative (presidueEps x)) = presidueEps x :=
  Function.invFun_eq ⟨x, rfl⟩

/-! ## What the server draws -/

/-- Nonzero roots as `eps`-th powers. -/
def powersOf {n : Nat} (root : Fin n → Fpˣ) (i : Nat) : Fp :=
  if h : i < n then fastPowEps (root ⟨i, h⟩ : Fp) else 0

/-- Rows of a fixed size, as the code indexes them. -/
def entries {m n : Nat} (rows : Fin m → Fin n → Fp) (i j : Nat) : Fp :=
  if h : i < m ∧ j < n then rows ⟨i, h.1⟩ ⟨j, h.2⟩ else 0

theorem powersOf_apply {n : Nat} (root : Fin n → Fpˣ) (i : Fin n) :
    powersOf root i = (root i : Fp) ^ eps := by
  rw [powersOf, dif_pos i.isLt, fastPowEps_eq]

theorem entries_apply {m n : Nat} (rows : Fin m → Fin n → Fp) {i j : Nat} (hi : i < m)
    (hj : j < n) : entries rows i j = rows ⟨i, hi⟩ ⟨j, hj⟩ := dif_pos ⟨hi, hj⟩

/-- What the server draws, and the rows `v` its leaves leave it with. -/
@[ext]
structure Coins (o : OPRF Fp) where
  vRoot : Fin o.lenEval → Fpˣ
  bRoot : Fin o.k → Fpˣ
  ru : Fp
  rv : Fp
  masks : Fin 5 → Fp
  zkpV : Fin o.zk.kVole → Fin o.zk.voleLen → Fp
  voleV : Fin o.volePlus.kVole → Fin (o.lenEval + 1) → Fp

instance Coins.finite (o : OPRF Fp) : Finite o.Coins :=
  Finite.of_injective
    (fun coins => (coins.vRoot, coins.bRoot, coins.ru, coins.rv, coins.masks, coins.zkpV,
      coins.voleV))
    fun coins coins' h => by
      simp only [Prod.mk.injEq] at h
      obtain ⟨h1, h2, h3, h4, h5, h6, h7⟩ := h
      exact Coins.ext h1 h2 h3 h4 h5 h6 h7

/-- The five masks, as the code indexes them. -/
def Coins.mask {o : OPRF Fp} (coins : o.Coins) (i : Nat) : Fp :=
  if h : i < 5 then coins.masks ⟨i, h⟩ else 0

section

variable (o : OPRF Fp) (expand : Block → Nat → UInt8) (client : Client)

/-- The rows `u` of the proof system that go with rows `v`. -/
def zkpU (v : Nat → Nat → Fp) (i j : Nat) : Fp :=
  (client.zkp o expand).o i j - (client.zkp o expand).h i * v i j

/-- The rows `u` of VOLE+ that go with rows `v`. -/
def voleU (v : Nat → Nat → Fp) (i j : Nat) : Fp :=
  (client.vole o expand).o i j - (client.vole o expand).h i * v i j

variable {o}

/-- The messages of the server, for its draws. -/
def Coins.messages (coins : o.Coins) (Key : Fp) : List Bytes :=
  o.serverMessages expand client Key (powersOf coins.vRoot) (powersOf coins.bRoot) coins.ru
    coins.rv coins.masks (o.zkpU expand client (entries coins.zkpV)) (entries coins.zkpV)
    (o.voleU expand client (entries coins.voleV)) (entries coins.voleV)

/-- A generator and leaves with these draws. -/
structure Coins.Drawn (coins : o.Coins) (bOt : Nat → Block) (prng : Prng) : Prop where
  vRoot : ∀ i : Fin o.lenEval, draw prng i = (coins.vRoot i : Fp)
  bRoot : ∀ i : Fin o.k, draw prng (o.lenEval + 2 + i) = (coins.bRoot i : Fp)
  ru : o.serverRu prng = coins.ru
  rv : o.serverRv prng = coins.rv
  masks : ∀ i : Fin 5, draw (afterDraws prng (o.lenEval + 2 + o.k)) i = coins.masks i
  punctured : o.Punctured client.a bOt client.points
  zkpV : ∀ i j, (o.serverZkp expand bOt).v (i : Fin _).val (j : Fin _).val = coins.zkpV i j
  voleV : ∀ i j, (o.serverVole expand bOt).v (i : Fin _).val (j : Fin _).val = coins.voleV i j

/-! ## The simulator -/

/-- What the client holds after the shift of the commitment. -/
def simulatedView (coins : o.Coins) : ZkParams.View :=
  ⟨(client.zkp o expand).o, (client.zkp o expand).h, entries coins.zkpV⟩

/-- The openings, for the symbols `e` at the public offsets. -/
noncomputable def simulatedOpening (e : Nat → UInt64) (coins : o.Coins) (i : Nat) : Fp :=
  representative (e (client.c.getD i 0).toNat) * powersOf coins.bRoot i

/-- What VOLE+ leaves the client with, for the symbols `s` of the evaluation. -/
noncomputable def simulatedOutput (s : Nat → UInt64) (coins : o.Coins) (j : Nat) : Fp :=
  representative (s j) * powersOf coins.vRoot j

/-- The statement of the proof. -/
noncomputable def simulatedStatement (e s : Nat → UInt64) (coins : o.Coins) : Statement Fp :=
  { gamma := client.gamma o expand
    mm := readFe25519
      (writeVecToBytes ((List.range o.k).map (simulatedOpening client e coins)))
    cu := coins.ru + ∑ j ∈ range o.lenEval, client.gamma o expand j * simulatedOutput s coins j
    cv := coins.rv
    offsets := o.offsets
    c := client.c }

/-- The values of the consistency check, from `cv`. -/
def simulatedCheckValues (coins : o.Coins) : Bytes :=
  let view := simulatedView expand client coins
  let cv := coins.mask 0
  writeVecToBytes (cv :: (List.range o.zk.kVole).map fun i =>
    view.rows i checkPos
      + ∑ j ∈ range (o.zk.voleLen - 1), view.rows i j * client.checkGamma expand j
      - view.hi i * cv)

/-- The proof: the coefficients 1 to 4 are drawn, and coefficient 0 is what the verifier's
accumulator leaves for it. -/
noncomputable def simulatedProof (e s : Nat → UInt64) (coins : o.Coins) : Bytes :=
  let verifier := (simulatedView expand client coins).verifier o.zk
  let coefs : Nat → Fp := fun i => coins.mask (i + 1)
  let coef0 := o.zk.accumulator verifier (simulatedStatement expand client e s coins)
      (client.proofPrng expand) - ∑ i ∈ range 4, coefs i * verifier.Delta ^ (i + 1)
  writeVecToBytes (coef0 :: (List.range 4).map coefs)

/-- **The simulator**: the messages from the symbols `e` and `s` alone. In VOLE+ it runs `send` on
`o` and zeros. -/
noncomputable def simulate (e s : Nat → UInt64) (coins : o.Coins) : List Bytes :=
  let pv := entries coins.voleV
  let pu := o.voleU expand client pv
  [writeVecToBytes (grid o.zk.kVole o.zk.voleLen (entries coins.zkpV)),
    simulatedCheckValues expand client coins,
    o.volePlus.derandomisation pv,
    o.volePlus.checkValues (client.gamma o expand) pu pv,
    o.volePlus.corrections (simulatedOutput s coins) (fun _ => 0) coins.ru coins.rv
      (client.lambda expand) client.deltaPrime pu pv,
    concat ((List.range o.lenCom).map fun i => bytesOfSymbol (e i)),
    writeVecToBytes ((List.range o.k).map (simulatedOpening client e coins)),
    simulatedProof expand client e s coins]

end

/-! ## The draws of the simulator -/

section

variable {o : OPRF Fp} (expand : Block → Nat → UInt8) (client : Client) (Key : Fp)

/-- The witness of the server. -/
def Coins.witness (coins : o.Coins) : Nat → Fp :=
  o.wAt Key (powersOf coins.vRoot) (powersOf coins.bRoot) coins.ru coins.rv

/-- The degree-1 coefficients of the server. -/
def Coins.coef (coins : o.Coins) : Nat → Fp :=
  ZkParams.maskedCoef (coins.witness Key) coins.masks

/-- What the server proves. -/
def Coins.statement (coins : o.Coins) : Statement Fp :=
  o.honestStatement Key (powersOf coins.vRoot) (powersOf coins.bRoot) (client.gamma o expand)
    coins.ru coins.rv client.c

/-- The combination of the `v_i` that `cv` contains. -/
def Coins.vSum (coins : o.Coins) : Fp :=
  ∑ j ∈ range o.lenEval, client.gamma o expand j * powersOf coins.vRoot j

/-- How the inputs `v` of the simulator differ from those of the server. -/
def Coins.move (coins : o.Coins) (j : Nat) : Fp :=
  if j < o.lenEval then -powersOf coins.vRoot j else coins.vSum expand client

/-- **The draws with which the simulator sends the same**, for the roots that take the server's
sums to the representatives. -/
def Coins.toSimulator (t : Fin o.lenEval → Fpˣ) (q : Fin o.k → Fpˣ) (coins : o.Coins) :
    o.Coins :=
  let shift := fun i (j : Fin o.zk.voleLen) => coins.coef Key j - coins.zkpV i j
  { vRoot := fun i => coins.vRoot i * (t i)⁻¹
    bRoot := fun i => coins.bRoot i * (q i)⁻¹
    ru := coins.ru - client.input o expand * coins.vSum expand client
    rv := coins.rv + coins.vSum expand client
    masks := o.zk.hidden ⟨(client.zkp o expand).o, (client.zkp o expand).h, entries shift⟩
      (coins.statement expand client Key) (client.checkGamma expand) (client.proofPrng expand)
      (coins.witness Key) coins.masks
    zkpV := shift
    voleV := fun i j => coins.voleV i j + coins.move expand client j }

/-- The roots `t` and `q` take the server's sums to the representatives of their symbols. -/
structure Represent (e s : Nat → UInt64) (t : Fin o.lenEval → Fpˣ) (q : Fin o.k → Fpˣ) : Prop where
  eval : ∀ i : Fin o.lenEval,
    (Key + o.offset i + client.input o expand) * (t i : Fp) ^ eps = representative (s i)
  com : ∀ i : Fin o.k, (Key + o.offset (o.lenEval + (client.c.getD i 0).toNat)) * (q i : Fp) ^ eps
    = representative (e (client.c.getD i 0).toNat)

variable {expand client Key} {e s : Nat → UInt64} {t : Fin o.lenEval → Fpˣ} {q : Fin o.k → Fpˣ}
  {coins : o.Coins}

/-- What VOLE+ leaves the client with is the same. -/
theorem Represent.output_eq (h : Represent expand client Key e s t q) {j : Nat}
    (hj : j < o.lenEval) :
    simulatedOutput s (coins.toSimulator expand client Key t q) j
      = o.serverU Key (powersOf coins.vRoot) j
        + client.input o expand * powersOf coins.vRoot j := by
  have hroot := powersOf_apply (coins.toSimulator expand client Key t q).vRoot ⟨j, hj⟩
  have hv := powersOf_apply coins.vRoot ⟨j, hj⟩
  have ht := h.eval ⟨j, hj⟩
  have hval : ((coins.toSimulator expand client Key t q).vRoot ⟨j, hj⟩ : Fp)
      = coins.vRoot ⟨j, hj⟩ * ((t ⟨j, hj⟩ : Fp))⁻¹ := by
    rw [Coins.toSimulator, Units.val_mul, Units.val_inv_eq_inv_val]
  have hne : (t ⟨j, hj⟩ : Fp) ^ eps ≠ 0 := pow_ne_zero _ (Units.ne_zero _)
  simp only at hroot hv ht
  rw [simulatedOutput, serverU, Exact.reduceAddSub_eq, hroot, hv, hval, ← ht, mul_pow, inv_pow]
  field_simp

/-- The openings are the same. -/
theorem Represent.opening_eq (h : Represent expand client Key e s t q) {i : Nat} (hi : i < o.k) :
    simulatedOpening client e (coins.toSimulator expand client Key t q) i
      = o.serverOpening Key (powersOf coins.bRoot) client.c i := by
  have hroot := powersOf_apply (coins.toSimulator expand client Key t q).bRoot ⟨i, hi⟩
  have hb := powersOf_apply coins.bRoot ⟨i, hi⟩
  have hq := h.com ⟨i, hi⟩
  have hval : ((coins.toSimulator expand client Key t q).bRoot ⟨i, hi⟩ : Fp)
      = coins.bRoot ⟨i, hi⟩ * ((q ⟨i, hi⟩ : Fp))⁻¹ := by
    rw [Coins.toSimulator, Units.val_mul, Units.val_inv_eq_inv_val]
  have hne : (q ⟨i, hi⟩ : Fp) ^ eps ≠ 0 := pow_ne_zero _ (Units.ne_zero _)
  simp only at hroot hb hq
  rw [simulatedOpening, serverOpening, hroot, hb, hval, ← hq, mul_pow, inv_pow]
  field_simp

theorem Represent.openings_eq (h : Represent expand client Key e s t q) :
    writeVecToBytes ((List.range o.k).map
        (simulatedOpening client e (coins.toSimulator expand client Key t q)))
      = o.openings Key (powersOf coins.bRoot) client.c :=
  congrArg writeVecToBytes
    (List.map_congr_left fun _ hi => h.opening_eq (List.mem_range.mp hi))

/-- The sum of the outputs. -/
theorem Represent.sum_output (h : Represent expand client Key e s t q) :
    ∑ j ∈ range o.lenEval, client.gamma o expand j
        * simulatedOutput s (coins.toSimulator expand client Key t q) j
      = ∑ j ∈ range o.lenEval, client.gamma o expand j * o.serverU Key (powersOf coins.vRoot) j
        + client.input o expand * coins.vSum expand client := by
  rw [Coins.vSum, mul_sum, ← sum_add_distrib]
  refine sum_congr rfl fun j hj => ?_
  rw [h.output_eq (mem_range.mp hj)]
  ring

/-- **The statement of the proof is the same.** -/
theorem Represent.statement_eq (h : Represent expand client Key e s t q) :
    simulatedStatement expand client e s (coins.toSimulator expand client Key t q)
      = coins.statement expand client Key := by
  have hru : (coins.toSimulator expand client Key t q).ru
      = coins.ru - client.input o expand * coins.vSum expand client := rfl
  have hrv : (coins.toSimulator expand client Key t q).rv
      = coins.rv + coins.vSum expand client := rfl
  have hcu : (coins.toSimulator expand client Key t q).ru
        + ∑ j ∈ range o.lenEval, client.gamma o expand j
          * simulatedOutput s (coins.toSimulator expand client Key t q) j
      = coins.ru + ∑ j ∈ range o.lenEval,
          client.gamma o expand j * o.serverU Key (powersOf coins.vRoot) j := by
    rw [h.sum_output, hru]
    ring
  rw [simulatedStatement, Coins.statement, honestStatement, hcu, h.openings_eq, hrv, Coins.vSum]

/-! ### VOLE+ -/

theorem gamma_last : client.gamma o expand o.lenEval = 1 :=
  @VolePlus.expandGamma_last expand o.volePlus _

/-- The combination of the move is 0. -/
theorem sum_move : ∑ j ∈ range (o.lenEval + 1),
    client.gamma o expand j * coins.move expand client j = 0 := by
  have hsum : ∑ j ∈ range o.lenEval, client.gamma o expand j * coins.move expand client j
      = -coins.vSum expand client := by
    rw [Coins.vSum, ← sum_neg_distrib]
    refine sum_congr rfl fun j hj => ?_
    rw [Coins.move, if_pos (mem_range.mp hj), mul_neg]
  rw [sum_range_succ, hsum, gamma_last, Coins.move, if_neg (lt_irrefl _)]
  ring

/-- The rows of the simulator are those of the server, moved. -/
theorem moved_toSimulator :
    o.volePlus.Moved (client.vole o expand).h (coins.move expand client)
      (o.voleU expand client (entries coins.voleV)) (entries coins.voleV)
      (o.voleU expand client (entries (coins.toSimulator expand client Key t q).voleV))
      (entries (coins.toSimulator expand client Key t q).voleV) := by
  have hentries : ∀ i < o.volePlus.kVole, ∀ j ≤ o.lenEval,
      entries (coins.toSimulator expand client Key t q).voleV i j
        = entries coins.voleV i j + coins.move expand client j := fun i hi j hj => by
    rw [entries_apply _ hi (Nat.lt_succ_of_le hj), entries_apply _ hi (Nat.lt_succ_of_le hj),
      Coins.toSimulator]
  refine ⟨hentries, fun i hi j hj => ?_⟩
  rw [voleU, voleU, hentries i hi j hj]
  ring

/-- The inputs of VOLE+ are moved along the line of the client's input. -/
theorem Represent.withLast_eq (h : Represent expand client Key e s t q) (j : Nat) :
    VolePlus.withLast o.volePlus (fun _ => 0) (coins.toSimulator expand client Key t q).rv j
        = VolePlus.withLast o.volePlus (powersOf coins.vRoot) coins.rv j
          + coins.move expand client j ∧
      VolePlus.withLast o.volePlus
          (simulatedOutput s (coins.toSimulator expand client Key t q))
          (coins.toSimulator expand client Key t q).ru j
        = VolePlus.withLast o.volePlus (o.serverU Key (powersOf coins.vRoot)) coins.ru j
          - client.input o expand * coins.move expand client j := by
  have hlen : o.volePlus.len = o.lenEval := rfl
  unfold VolePlus.withLast Coins.move
  rw [hlen]
  by_cases hlt : j < o.lenEval
  · rw [if_pos hlt, if_pos hlt, if_pos hlt, if_pos hlt, if_pos hlt, h.output_eq hlt]
    constructor <;> ring
  · rw [if_neg hlt, if_neg hlt, if_neg hlt, if_neg hlt, if_neg hlt]
    exact ⟨rfl, rfl⟩

/-! ### The proof -/

/-- **The rows of the server are those of the simulator's view.** -/
theorem vi_toSimulator {i j : Nat} (hi : i < o.zk.kVole) (hj : j < o.zk.voleLen) :
    (simulatedView expand client (coins.toSimulator expand client Key t q)).vi (coins.coef Key) i j
      = entries coins.zkpV i j := by
  have hshift : (simulatedView expand client (coins.toSimulator expand client Key t q)).shift i j
      = coins.coef Key j - coins.zkpV ⟨i, hi⟩ ⟨j, hj⟩ := entries_apply _ hi hj
  rw [ZkParams.View.vi, hshift, entries_apply _ hi hj, sub_sub_cancel]

/-- The messages of the server, from the simulator's view. -/
theorem messages_eq_view (hset : o.Supported) :
    coins.messages expand client Key
      = let view := simulatedView expand client (coins.toSimulator expand client Key t q)
        o.serverMessages expand client Key (powersOf coins.vRoot) (powersOf coins.bRoot) coins.ru
          coins.rv coins.masks (view.ui (coins.coef Key)) (view.vi (coins.coef Key))
          (o.voleU expand client (entries coins.voleV)) (entries coins.voleV) := by
  refine serverMessages_congr hset (fun _ _ => rfl) (fun _ _ => rfl) (fun i hi j hj => ?_)
    (fun i hi j hj => (vi_toSimulator hi hj).symm) (fun _ _ _ _ => rfl) fun _ _ _ _ => rfl
  rw [ZkParams.View.ui, vi_toSimulator hi hj]
  rfl

/-- The constraints hold of the server's witness. -/
theorem constraint_witness (hset : o.Supported) {n : Nat} (h1 : 1 ≤ n) (hn : n ≤ o.zk.k + 15) :
    o.zk.constraint (coins.statement expand client Key) (coins.witness Key) n = 0 := by
  refine honest_constraint
    (r := fun i => if h : i < o.lenEval then (coins.vRoot ⟨i, h⟩ : Fp) else 1)
    hset.lenEval hset.k (fun i hi => ?_) (fun i hi => ?_) h1 hn
  · rw [dif_pos (by rw [hset.lenEval]; exact hi)]
    exact Units.ne_zero _
  · have hlt : i < o.lenEval := by
      rw [hset.lenEval]
      exact hi
    rw [dif_pos hlt]
    exact powersOf_apply coins.vRoot ⟨i, hlt⟩

/-- The values of the consistency check. -/
theorem checkValues_toSimulator :
    simulatedCheckValues expand client (coins.toSimulator expand client Key t q)
      = o.zk.checkValues
          ((simulatedView expand client
            (coins.toSimulator expand client Key t q)).state (coins.coef Key) o.zk)
          ((simulatedView expand client
            (coins.toSimulator expand client Key t q)).ui (coins.coef Key))
          (client.checkGamma expand) := by
  let view := simulatedView expand client (coins.toSimulator expand client Key t q)
  have hcv : (coins.toSimulator expand client Key t q).mask 0
      = o.zk.checkCv (view.state (coins.coef Key) o.zk) (client.checkGamma expand) := rfl
  have hcu : (List.range o.zk.kVole).map
        (o.zk.checkCu (view.ui (coins.coef Key)) (client.checkGamma expand))
      = (List.range o.zk.kVole).map fun i => view.rows i checkPos
          + ∑ j ∈ range (o.zk.voleLen - 1), view.rows i j * client.checkGamma expand j
          - view.hi i
            * o.zk.checkCv (view.state (coins.coef Key) o.zk) (client.checkGamma expand) :=
    List.map_congr_left fun i _ => ZkParams.checkCu_state _ i
  rw [ZkParams.checkValues, hcu, ← hcv]
  rfl

/-- The proof. -/
theorem Represent.proof_toSimulator (h : Represent expand client Key e s t q)
    (hset : o.Supported) :
    simulatedProof expand client e s (coins.toSimulator expand client Key t q)
      = o.zk.proof ((simulatedView expand client
            (coins.toSimulator expand client Key t q)).state (coins.coef Key) o.zk)
          (coins.statement expand client Key) (client.proofPrng expand) := by
  let view := simulatedView expand client (coins.toSimulator expand client Key t q)
  let checkPoly := o.zk.checkPoly (view.state (coins.coef Key) o.zk)
    (coins.statement expand client Key) (client.proofPrng expand)
  have hcoefs : ∀ i < 4, (coins.toSimulator expand client Key t q).mask (i + 1)
      = checkPoly.coefs (i + 1) := fun i hi => by
    interval_cases i <;> rfl
  have hzero : checkPoly.coefs 0
      = o.zk.accumulator (view.verifier o.zk) (coins.statement expand client Key)
          (client.proofPrng expand)
        - ∑ i ∈ range 4, checkPoly.coefs (i + 1) * (view.verifier o.zk).Delta ^ (i + 1) :=
    ZkParams.coefs_zero_checkPoly hset.lenEval hset.k
      (fun n h1 hn => constraint_witness hset h1 hn) coins.masks
  have hlist : (List.range 5).map checkPoly.coefs
      = checkPoly.coefs 0 :: (List.range 4).map fun i => checkPoly.coefs (i + 1) := rfl
  have hmap : (List.range 4).map (fun i =>
        (coins.toSimulator expand client Key t q).mask (i + 1))
      = (List.range 4).map fun i => checkPoly.coefs (i + 1) :=
    List.map_congr_left fun i hi => hcoefs i (List.mem_range.mp hi)
  have hsum : ∑ i ∈ range 4, (coins.toSimulator expand client Key t q).mask (i + 1)
        * (view.verifier o.zk).Delta ^ (i + 1)
      = ∑ i ∈ range 4, checkPoly.coefs (i + 1) * (view.verifier o.zk).Delta ^ (i + 1) :=
    sum_congr rfl fun i hi => by rw [hcoefs i (mem_range.mp hi)]
  rw [ZkParams.proof, hlist, hzero, simulatedProof, h.statement_eq]
  simp only [hmap]
  rw [hsum]

/-- **What the simulator sends for these draws is what the server sends.** -/
theorem Represent.messages_toSimulator (h : Represent expand client Key e s t q)
    (hset : o.Supported) (he : ∀ i < o.lenCom, e i = o.serverSymbol Key i) :
    simulate expand client e s (coins.toSimulator expand client Key t q)
      = coins.messages expand client Key := by
  have hrows : 0 < o.volePlus.kVole := by
    have hbits := hset.le_bits
    exact Nat.div_pos (by unfold primeBits; omega) (by omega)
  have hshifts : writeVecToBytes (grid o.zk.kVole o.zk.voleLen
        (entries (coins.toSimulator expand client Key t q).zkpV))
      = o.zk.shifts
          ((simulatedView expand client
            (coins.toSimulator expand client Key t q)).state (coins.coef Key) o.zk)
          ((simulatedView expand client
            (coins.toSimulator expand client Key t q)).vi (coins.coef Key)) := by
    symm
    exact ZkParams.shifts_state (coins.coef Key)
  have hmoved : o.volePlus.Moved (client.vole o expand).h (coins.move expand client)
      (o.voleU expand client (entries coins.voleV)) (entries coins.voleV)
      (o.voleU expand client (entries (coins.toSimulator expand client Key t q).voleV))
      (entries (coins.toSimulator expand client Key t q).voleV) := moved_toSimulator
  have hsymbols : concat ((List.range o.lenCom).map fun i => bytesOfSymbol (e i))
      = o.packedSymbols Key :=
    congrArg concat (List.map_congr_left fun i hi => by rw [he i (List.mem_range.mp hi)])
  rw [messages_eq_view (t := t) (q := q) hset]
  simp only [simulate, serverMessages]
  rw [hshifts, checkValues_toSimulator, h.proof_toSimulator hset, h.openings_eq, hsymbols,
    hmoved.derandomisation_eq, hmoved.checkValues_eq hrows sum_move,
    hmoved.corrections_eq hrows (fun j _ => (h.withLast_eq j).1) fun j _ => (h.withLast_eq j).2]
  rfl

/-! ### No two draws of the server have the same draws of the simulator -/

theorem toSimulator_injective (hset : o.Supported)
    (hgamma : client.checkGamma expand (maskPos + 4) ≠ 0) :
    Function.Injective fun coins : o.Coins => coins.toSimulator expand client Key t q := by
  intro coins coins' heq
  have hv : coins.vRoot = coins'.vRoot := funext fun i =>
    mul_right_cancel (congrFun (congrArg Coins.vRoot heq) i)
  have hb : coins.bRoot = coins'.bRoot := funext fun i =>
    mul_right_cancel (congrFun (congrArg Coins.bRoot heq) i)
  have hsum : coins.vSum expand client = coins'.vSum expand client := by
    rw [Coins.vSum, Coins.vSum, hv]
  have hmove : coins.move expand client = coins'.move expand client := by
    funext j
    rw [Coins.move, Coins.move, hv, hsum]
  have hru : coins.ru = coins'.ru := by
    have h : coins.ru - _ * coins.vSum expand client = coins'.ru - _ * coins'.vSum expand client :=
      congrArg Coins.ru heq
    rw [hsum] at h
    exact sub_left_injective h
  have hrv : coins.rv = coins'.rv := by
    have h : coins.rv + coins.vSum expand client = coins'.rv + coins'.vSum expand client :=
      congrArg Coins.rv heq
    rw [hsum] at h
    exact add_left_injective _ h
  have hwitness : coins.witness Key = coins'.witness Key := by
    rw [Coins.witness, Coins.witness, hv, hb, hru, hrv]
  have hstatement : coins.statement expand client Key = coins'.statement expand client Key := by
    rw [Coins.statement, Coins.statement, hv, hb, hru, hrv]
  have hshift := congrArg Coins.zkpV heq
  -- the views are the same, and with them the masks
  have hmasks : coins.masks = coins'.masks := by
    have h := congrArg Coins.masks heq
    simp only [Coins.toSimulator] at h hshift
    rw [hshift, hwitness, hstatement] at h
    exact (ZkParams.hidden_bijective hset.lenEval hset.k hgamma _).injective h
  have hzkp : coins.zkpV = coins'.zkpV := by
    have hcoef : coins.coef Key = coins'.coef Key := by
      rw [Coins.coef, Coins.coef, hwitness, hmasks]
    funext i j
    have h := congrFun (congrFun hshift i) j
    simp only [Coins.toSimulator] at h
    rw [hcoef] at h
    exact sub_right_injective h
  have hvole : coins.voleV = coins'.voleV := by
    funext i j
    have h := congrFun (congrFun (congrArg Coins.voleV heq) i) j
    simp only [Coins.toSimulator] at h
    rw [hmove] at h
    exact add_left_injective _ h
  exact Coins.ext hv hb hru hrv hmasks hzkp hvole

/-- The messages of a generator and leaves with given draws. -/
theorem Coins.Drawn.sent_eq {bOt : Nat → Block} {prng : Prng}
    (h : coins.Drawn expand client bOt prng) (hset : o.Supported) (hguard : Key ∉ o.offsets)
    (hclient : client.WellFormed o) :
    sent (o.blindedEval expand Key bOt prng) client.messages
      = coins.messages expand client Key := by
  have hbits : o.smallSetBits ≤ 12 := hset.bits_le.trans (by norm_num)
  have hmasks : (fun i : Fin 5 => (draw (afterDraws prng (o.lenEval + 2 + o.k)) i : Fp))
      = coins.masks := funext h.masks
  rw [sent_blindedEval hset hguard hclient, h.ru, h.rv, hmasks]
  refine serverMessages_congr hset (fun i hi => ?_) (fun i hi => ?_) (fun i hi j hj => ?_)
    (fun i hi j hj => ?_) (fun i hi j hj => ?_) fun i hi j hj => ?_
  · rw [serverV_eq, powersOf_apply coins.vRoot ⟨i, hi⟩, ← h.vRoot]
  · rw [serverB_eq, powersOf_apply coins.bRoot ⟨i, hi⟩, ← h.bRoot]
  · rw [zkpU, entries_apply _ hi hj, ← h.zkpV, Client.zkp,
      zkp_correlation h.punctured hset.le_bits hbits hi j, add_sub_cancel_right]
  · rw [entries_apply _ hi hj, ← h.zkpV]
  · rw [voleU, entries_apply _ hi (Nat.lt_succ_of_le hj), ← h.voleV, Client.vole,
      vole_correlation h.punctured hset.le_bits hbits hi j, add_sub_cancel_right]
  · rw [entries_apply _ hi (Nat.lt_succ_of_le hj), ← h.voleV]

end

/-- **Server privacy**: the messages of `blindedEval` to a client that sends whatever it likes are,
over the server's draws, distributed as those of the simulator, which is given the symbols of the
key at the public offsets and those of the evaluation for the client's input. -/
theorem server_privacy (o : OPRF Fp) (expand : Block → Nat → UInt8) (client : Client) (Key : Fp)
    (hset : o.Supported) (hguard : Key ∉ o.offsets) (hclient : client.WellFormed o)
    (hgamma : client.checkGamma expand (maskPos + 4) ≠ 0) :
    (∀ (coins : o.Coins) (bOt : Nat → Block) (prng : Prng),
      coins.Drawn expand client bOt prng →
        sent (o.blindedEval expand Key bOt prng) client.messages
          = coins.messages expand client Key) ∧
      ∀ transcript : List Bytes,
        Nat.card {coins : o.Coins // coins.messages expand client Key = transcript}
          = Nat.card {coins : o.Coins // simulate expand client (o.serverSymbol Key)
              (fun i => presidueEps (Key + o.offset i + client.input o expand)) coins
                = transcript} := by
  refine ⟨fun coins bOt prng h => h.sent_eq hset hguard hclient, fun transcript => ?_⟩
  choose t ht using fun i : Fin o.lenEval =>
    exists_eps_power (presidueEps_representative (Key + o.offset i + client.input o expand)).symm
  choose q hq using fun i : Fin o.k => exists_eps_power (presidueEps_representative
    (Key + o.offset (o.lenEval + (client.c.getD i 0).toNat))).symm
  have hrepresent : Represent expand client Key (o.serverSymbol Key)
      (fun i => presidueEps (Key + o.offset i + client.input o expand)) t q := by
    refine ⟨ht, fun i => ?_⟩
    rw [hq i, serverSymbol, Nat.add_comm o.lenEval]
  have hbijective := Finite.injective_iff_bijective.mp
    (show Function.Injective fun coins : o.Coins => coins.toSimulator expand client Key t q from
      toSimulator_injective hset hgamma)
  refine Nat.card_congr ((Equiv.ofBijective _ hbijective).subtypeEquiv fun coins => ?_)
  rw [← hrepresent.messages_toSimulator hset fun _ _ => rfl]
  rfl

/-- A client that sends zeros, and the first 53 indices. -/
def sampleClient : Client where
  a := fun _ => Vector.replicate 16 0
  points := fun _ => 0
  seed := List.replicate 16 0
  gammaSeed := List.replicate 16 0
  correction := List.replicate 48 0
  c := (List.range 53).map UInt8.ofNat
  proofSeed := List.replicate 16 0

theorem sampleClient_wellFormed : sampleClient.WellFormed sample :=
  ⟨rfl, rfl, rfl, rfl, by decide, rfl⟩

theorem sampleClient_checkGamma :
    sampleClient.checkGamma shiftedSeed (maskPos + 4) ≠ 0 := by
  have hval : ¬ prime ∣ leValue ((Prng.ofSeed shiftedSeed (block 16 sampleClient.seed 0)).skip
      (primeBytes * (maskPos + 4)) |>.bytes primeBytes) % 2 ^ 255 := by
    decide +kernel
  rw [Client.checkGamma, generateF25519VectorFromSeed, draw, Exact.unpack_eq, Ne,
    ZMod.natCast_eq_zero_iff]
  exact hval

/-- The sample instance with the key 0. -/
theorem server_privacy_example :
    (fun transcript =>
      Nat.card {coins : sample.Coins // coins.messages shiftedSeed sampleClient 0 = transcript})
      = fun transcript => Nat.card {coins : sample.Coins // simulate shiftedSeed sampleClient
          (sample.serverSymbol 0)
          (fun i => presidueEps (0 + sample.offset i + sampleClient.input sample shiftedSeed))
          coins = transcript} :=
  funext (server_privacy sample shiftedSeed sampleClient 0 sample_supported sample_server.guard
    sampleClient_wellFormed sampleClient_checkGamma).2

end HocusPocus.OPRF
