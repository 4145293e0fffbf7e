import HocusPocus.Machine.M128
import HocusPocus.Blake2.Stream

/-!
# The vector form of BLAKE2b (`blake2b.cpp`, `blake2b-round.h`, `blake2b-load-*.h`)

The sixteen words are four rows of two registers, and a round works on the four columns at once,
then on the diagonals after moving the rows. The macros have one body for each instruction set:
`HAVE_SSSE3` for the rotations and the moves, `HAVE_SSE41` for the words of the message.

* `load_words`: the tables of loads give the words that `blake2b_sigma` names.
* `words_round`: a round of the registers is a round of the words.
* `blake2b_compress_eq`: the compression is that of `blake2b-ref.cpp`, whatever is defined.
-/

namespace HocusPocus.Blake2b.Sse

open Machine hiding addEpi64
open Machine.M128

/-! ## The code -/

/-- The macros of `blake2-config.h` that the code depends on. -/
structure Config where
  ssse3 : Bool
  sse41 : Bool

/-- The registers of `blake2b_compress`. -/
structure Rows where
  row1l : M128
  row1h : M128
  row2l : M128
  row2h : M128
  row3l : M128
  row3h : M128
  row4l : M128
  row4h : M128

/-- `r16`. -/
def r16 : M128 := setrEpi8 [2, 3, 4, 5, 6, 7, 0, 1, 10, 11, 12, 13, 14, 15, 8, 9]

/-- `r24`. -/
def r24 : M128 := setrEpi8 [3, 4, 5, 6, 7, 0, 1, 2, 11, 12, 13, 14, 15, 8, 9, 10]

/-- `_mm_roti_epi64(x, -c)`. -/
def rotiEpi64 (cfg : Config) (x : M128) (c : Nat) : M128 :=
  if cfg.ssse3 then
    if c = 32 then shuffleEpi32 x (mmShuffle 2 3 0 1)
    else if c = 24 then shuffleEpi8 x r24
    else if c = 16 then shuffleEpi8 x r16
    else if c = 63 then xorSi128 (srliEpi64 x c) (addEpi64 x x)
    else xorSi128 (srliEpi64 x c) (slliEpi64 x (64 - c))
  else xorSi128 (srliEpi64 x c) (slliEpi64 x (64 - c))

/-- The macros `G1` and `G2`, which differ in the rotations. The word of the message is added before
`row2`. -/
def halfG (cfg : Config) (p q : Nat) (s : Rows) (b0 b1 : M128) : Rows :=
  let row1l := addEpi64 (addEpi64 s.row1l b0) s.row2l
  let row1h := addEpi64 (addEpi64 s.row1h b1) s.row2h
  let row4l := rotiEpi64 cfg (xorSi128 s.row4l row1l) p
  let row4h := rotiEpi64 cfg (xorSi128 s.row4h row1h) p
  let row3l := addEpi64 s.row3l row4l
  let row3h := addEpi64 s.row3h row4h
  let row2l := rotiEpi64 cfg (xorSi128 s.row2l row3l) q
  let row2h := rotiEpi64 cfg (xorSi128 s.row2h row3h) q
  { row1l, row1h, row2l, row2h, row3l, row3h, row4l, row4h }

/-- The macro `G1`. -/
def g1 (cfg : Config) (s : Rows) (b0 b1 : M128) : Rows := halfG cfg 32 24 s b0 b1

/-- The macro `G2`. -/
def g2 (cfg : Config) (s : Rows) (b0 b1 : M128) : Rows := halfG cfg 16 63 s b0 b1

/-- The macro `DIAGONALIZE`. -/
def diagonalize (cfg : Config) (s : Rows) : Rows :=
  if cfg.ssse3 then
    { s with
      row2l := alignrEpi8 s.row2h s.row2l 8
      row2h := alignrEpi8 s.row2l s.row2h 8
      row3l := s.row3h
      row3h := s.row3l
      row4l := alignrEpi8 s.row4l s.row4h 8
      row4h := alignrEpi8 s.row4h s.row4l 8 }
  else
    let t0 := s.row4l
    let t1 := s.row2l
    let row4l := unpackhiEpi64 s.row4h (unpackloEpi64 t0 t0)
    let row4h := unpackhiEpi64 t0 (unpackloEpi64 s.row4h s.row4h)
    let row2l := unpackhiEpi64 s.row2l (unpackloEpi64 s.row2h s.row2h)
    let row2h := unpackhiEpi64 s.row2h (unpackloEpi64 t1 t1)
    { s with row2l, row2h, row3l := s.row3h, row3h := s.row3l, row4l, row4h }

/-- The macro `UNDIAGONALIZE`. -/
def undiagonalize (cfg : Config) (s : Rows) : Rows :=
  if cfg.ssse3 then
    { s with
      row2l := alignrEpi8 s.row2l s.row2h 8
      row2h := alignrEpi8 s.row2h s.row2l 8
      row3l := s.row3h
      row3h := s.row3l
      row4l := alignrEpi8 s.row4h s.row4l 8
      row4h := alignrEpi8 s.row4l s.row4h 8 }
  else
    let t0 := s.row2l
    let t1 := s.row4l
    let row2l := unpackhiEpi64 s.row2h (unpackloEpi64 s.row2l s.row2l)
    let row2h := unpackhiEpi64 t0 (unpackloEpi64 s.row2h s.row2h)
    let row4l := unpackhiEpi64 s.row4l (unpackloEpi64 s.row4h s.row4h)
    let row4h := unpackhiEpi64 s.row4h (unpackloEpi64 t1 t1)
    { s with row2l, row2h, row3l := s.row3h, row3h := s.row3l, row4l, row4h }

/-- What a `loadMsg` macro assigns to one register: of the registers `m0` to `m7`, or of the words
`m0` to `m15`. -/
inductive Load where
  | set (e1 e0 : Nat)
  | unpacklo (i j : Nat)
  | unpackhi (i j : Nat)
  | alignr (i j : Nat)
  | blend (i j : Nat)
  | shuffle (i : Nat)
  | move (i : Nat)

/-- The two registers that `LOAD_MSG_r_1` to `LOAD_MSG_r_4` assign, in `blake2b-load-sse2.h`. -/
def loadMsgSse2 : List (List (Load × Load)) :=
  [[(.set 2 0, .set 6 4), (.set 3 1, .set 7 5),
      (.set 10 8, .set 14 12), (.set 11 9, .set 15 13)],
    [(.set 4 14, .set 13 9), (.set 8 10, .set 6 15),
      (.set 0 1, .set 5 11), (.set 2 12, .set 3 7)],
    [(.set 12 11, .set 15 5), (.set 0 8, .set 13 2),
      (.set 3 10, .set 9 7), (.set 6 14, .set 4 1)],
    [(.set 3 7, .set 11 13), (.set 1 9, .set 14 12),
      (.set 5 2, .set 15 4), (.set 10 6, .set 8 0)],
    [(.set 5 9, .set 10 2), (.set 7 0, .set 15 4),
      (.set 11 14, .set 3 6), (.set 12 1, .set 13 8)],
    [(.set 6 2, .set 8 0), (.set 10 12, .set 3 11),
      (.set 7 4, .set 1 15), (.set 5 13, .set 9 14)],
    [(.set 1 12, .set 4 14), (.set 15 5, .set 10 13),
      (.set 6 0, .set 8 9), (.set 3 7, .set 11 2)],
    [(.set 7 13, .set 3 12), (.set 14 11, .set 9 1),
      (.set 15 5, .set 2 8), (.set 4 0, .set 10 6)],
    [(.set 14 6, .set 0 11), (.set 9 15, .set 8 3),
      (.set 13 12, .set 10 1), (.set 7 2, .set 5 4)],
    [(.set 8 10, .set 1 7), (.set 4 2, .set 5 6),
      (.set 9 15, .set 13 3), (.set 14 11, .set 0 12)],
    [(.set 2 0, .set 6 4), (.set 3 1, .set 7 5),
      (.set 10 8, .set 14 12), (.set 11 9, .set 15 13)],
    [(.set 4 14, .set 13 9), (.set 8 10, .set 6 15),
      (.set 0 1, .set 5 11), (.set 2 12, .set 3 7)]]

/-- The same in `blake2b-load-sse41.h`. -/
def loadMsgSse41 : List (List (Load × Load)) :=
  [[(.unpacklo 0 1, .unpacklo 2 3), (.unpackhi 0 1, .unpackhi 2 3),
      (.unpacklo 4 5, .unpacklo 6 7), (.unpackhi 4 5, .unpackhi 6 7)],
    [(.unpacklo 7 2, .unpackhi 4 6), (.unpacklo 5 4, .alignr 3 7),
      (.shuffle 0, .unpackhi 5 2), (.unpacklo 6 1, .unpackhi 3 1)],
    [(.alignr 6 5, .unpackhi 2 7), (.unpacklo 4 0, .blend 1 6),
      (.blend 5 1, .unpackhi 3 4), (.unpacklo 7 3, .alignr 2 0)],
    [(.unpackhi 3 1, .unpackhi 6 5), (.unpackhi 4 0, .unpacklo 6 7),
      (.blend 1 2, .blend 2 7), (.unpacklo 3 5, .unpacklo 0 4)],
    [(.unpackhi 4 2, .unpacklo 1 5), (.blend 0 3, .blend 2 7),
      (.blend 7 5, .blend 3 1), (.alignr 6 0, .blend 4 6)],
    [(.unpacklo 1 3, .unpacklo 0 4), (.unpacklo 6 5, .unpackhi 5 1),
      (.blend 2 3, .unpackhi 7 0), (.unpackhi 6 2, .blend 7 4)],
    [(.blend 6 0, .unpacklo 7 2), (.unpackhi 2 7, .alignr 5 6),
      (.unpacklo 0 3, .shuffle 4), (.unpackhi 3 1, .blend 1 5)],
    [(.unpackhi 6 3, .blend 6 1), (.alignr 7 5, .unpackhi 0 4),
      (.unpackhi 2 7, .unpacklo 4 1), (.unpacklo 0 2, .unpacklo 3 5)],
    [(.unpacklo 3 7, .alignr 0 5), (.unpackhi 7 4, .alignr 4 1),
      (.move 6, .alignr 5 0), (.blend 1 3, .move 2)],
    [(.unpacklo 5 4, .unpackhi 3 0), (.unpacklo 1 2, .blend 3 2),
      (.unpackhi 7 4, .unpackhi 1 6), (.alignr 7 5, .unpacklo 6 0)],
    [(.unpacklo 0 1, .unpacklo 2 3), (.unpackhi 0 1, .unpackhi 2 3),
      (.unpacklo 4 5, .unpacklo 6 7), (.unpackhi 4 5, .unpackhi 6 7)],
    [(.unpacklo 7 2, .unpackhi 4 6), (.unpacklo 5 4, .alignr 3 7),
      (.shuffle 0, .unpackhi 5 2), (.unpacklo 6 1, .unpackhi 3 1)]]

/-- `LOADU`, of 16 bytes. -/
def loadu (b : Vector UInt8 16) : M128 := ⟨load64 (block 8 b.toList 0), load64 (block 8 b.toList 1)⟩

/-- The register `mi`. -/
def m (buf : Vector UInt8 128) (i : Nat) : M128 := loadu (block 16 buf.toList i)

/-- What is loaded from a block. -/
def Load.eval (buf : Vector UInt8 128) : Load → M128
  | .set e1 e0 => setEpi64x (word buf e1) (word buf e0)
  | .unpacklo i j => unpackloEpi64 (m buf i) (m buf j)
  | .unpackhi i j => unpackhiEpi64 (m buf i) (m buf j)
  | .alignr i j => alignrEpi8 (m buf i) (m buf j) 8
  | .blend i j => blendEpi16 (m buf i) (m buf j) 0xF0
  | .shuffle i => shuffleEpi32 (m buf i) (mmShuffle 1 0 3 2)
  | .move i => m buf i

/-- The loads of part `p` of a round. -/
def loads (cfg : Config) (r p : Nat) : Load × Load :=
  ((if cfg.sse41 then loadMsgSse41 else loadMsgSse2).getD r []).getD p (.move 0, .move 0)

/-- `b0` and `b1` after `LOAD_MSG_r_p`, with `p` counted from zero. -/
def loadMsg (cfg : Config) (buf : Vector UInt8 128) (r p : Nat) : M128 × M128 :=
  ((loads cfg r p).1.eval buf, (loads cfg r p).2.eval buf)

/-- The macro `ROUND`. -/
def round (cfg : Config) (buf : Vector UInt8 128) (r : Nat) (s : Rows) : Rows :=
  let b := loadMsg cfg buf r 0
  let s := g1 cfg s b.1 b.2
  let b := loadMsg cfg buf r 1
  let s := g2 cfg s b.1 b.2
  let s := diagonalize cfg s
  let b := loadMsg cfg buf r 2
  let s := g1 cfg s b.1 b.2
  let b := loadMsg cfg buf r 3
  let s := g2 cfg s b.1 b.2
  undiagonalize cfg s

/-- `LOADU(&h[i])`. -/
def loadPair (h : Vector (BitVec 64) 8) (i : Nat) : M128 := ⟨h.getD i 0, h.getD (i + 1) 0⟩

/-- The rows before the rounds. -/
def initialRows (h : Vector (BitVec 64) 8) (t f : BitVec 64 × BitVec 64) : Rows where
  row1l := loadPair h 0
  row1h := loadPair h 2
  row2l := loadPair h 4
  row2h := loadPair h 6
  row3l := loadPair blake2bIV 0
  row3h := loadPair blake2bIV 2
  row4l := xorSi128 (loadPair blake2bIV 4) ⟨t.1, t.2⟩
  row4h := xorSi128 (loadPair blake2bIV 6) ⟨f.1, f.2⟩

/-- What the stores leave in `h`. -/
def storeRows (h : Vector (BitVec 64) 8) (s : Rows) : Vector (BitVec 64) 8 :=
  let h0 := xorSi128 (loadPair h 0) (xorSi128 s.row3l s.row1l)
  let h2 := xorSi128 (loadPair h 2) (xorSi128 s.row3h s.row1h)
  let h4 := xorSi128 (loadPair h 4) (xorSi128 s.row4l s.row2l)
  let h6 := xorSi128 (loadPair h 6) (xorSi128 s.row4h s.row2h)
  #v[h0.lo, h0.hi, h2.lo, h2.hi, h4.lo, h4.hi, h6.lo, h6.hi]

/-- `blake2b_compress`. -/
def blake2bCompress (cfg : Config) : Compression := fun h t f buf =>
  storeRows h ((List.range 12).foldl (fun s r => round cfg buf r s) (initialRows h t f))

/-! ## The words in the registers -/

theorem rotr64_eq (w : BitVec 64) {c : Nat} (hc : c < 64) : rotr64 w c = w.rotateRight c := by
  rw [BitVec.rotateRight, Nat.mod_eq_of_lt hc]
  rfl

theorem rotiEpi64_eq (cfg : Config) (x : M128) {c : Nat} (hc : c < 64) :
    rotiEpi64 cfg x c = ⟨rotr64 x.lo c, rotr64 x.hi c⟩ := by
  have hr24 : shuffleEpi8 x r24 = x.rotate 24 := shuffleEpi8_rotate x 3 (by decide) (by decide)
  have hr16 : shuffleEpi8 x r16 = x.rotate 16 := shuffleEpi8_rotate x 2 (by decide) (by decide)
  rw [rotr64_eq _ hc, rotr64_eq _ hc]
  change rotiEpi64 cfg x c = x.rotate c
  unfold rotiEpi64
  split_ifs with _ h32 h24 h16 h63
  · rw [h32, shuffleEpi32_rotate]
  · rw [h24, hr24]
  · rw [h16, hr16]
  · rw [h63, rotate_eq_add]
  · exact rotate_eq_xor x hc
  · exact rotate_eq_xor x hc

theorem m_eq (buf : Vector UInt8 128) (i : Nat) :
    m buf i = ⟨word buf (2 * i), word buf (2 * i + 1)⟩ := by
  have hblock : ∀ k < 2,
      block 8 (block 16 buf.toList i).toList k = block 8 buf.toList (2 * i + k) := by
    intro k hk
    refine Vector.ext fun j hj => ?_
    have hsum : 16 * i + (8 * k + j) = 8 * (2 * i + k) + j := by ring
    simp only [block, Vector.getElem_ofFn, Vector.toList_ofFn]
    rw [List.getD_eq_getElem _ _ (by rw [List.length_ofFn]; omega), List.getElem_ofFn, hsum]
  rw [m, loadu, hblock 0 (by decide), hblock 1 (by decide)]
  rfl

/-- The numbers of the two words that a load gives. -/
def Load.words : Load → Nat × Nat
  | .set e1 e0 => (e0, e1)
  | .unpacklo i j => (2 * i, 2 * j)
  | .unpackhi i j => (2 * i + 1, 2 * j + 1)
  | .alignr i j => (2 * j + 1, 2 * i)
  | .blend i j => (2 * i, 2 * j + 1)
  | .shuffle i => (2 * i + 1, 2 * i)
  | .move i => (2 * i, 2 * i + 1)

theorem eval_eq (buf : Vector UInt8 128) (l : Load) :
    l.eval buf = ⟨word buf l.words.1, word buf l.words.2⟩ := by
  cases l with
  | set e1 e0 => rfl
  | unpacklo i j => rw [Load.eval, m_eq, m_eq]; rfl
  | unpackhi i j => rw [Load.eval, m_eq, m_eq]; rfl
  | alignr i j => rw [Load.eval, alignrEpi8_eight, m_eq, m_eq]; rfl
  | blend i j => rw [Load.eval, blendEpi16_high, m_eq, m_eq]; rfl
  | shuffle i => rw [Load.eval, shuffleEpi32_swap, m_eq]; rfl
  | move i => rw [Load.eval, m_eq]; rfl

/-- The first of the words that the part `p` of a round uses. -/
def firstWord (p : Nat) : Nat := p % 2 + 8 * (p / 2)

/-- **The tables of loads are `blake2b_sigma`**, for either instruction set. -/
theorem load_words (cfg : Config) : ∀ r < 12, ∀ p < 4,
    (loads cfg r p).1.words = (sigma r (firstWord p), sigma r (firstWord p + 2)) ∧
      (loads cfg r p).2.words = (sigma r (firstWord p + 4), sigma r (firstWord p + 6)) := by
  obtain ⟨ssse3, sse41⟩ := cfg
  cases ssse3 <;> cases sse41 <;> decide

/-! ## One round -/

/-- Four words of a column or a diagonal. -/
abbrev Column : Type := BitVec 64 × BitVec 64 × BitVec 64 × BitVec 64

/-- The registers that hold four columns. -/
def ofColumns (q0 q1 q2 q3 : Column) : Rows where
  row1l := ⟨q0.1, q1.1⟩
  row1h := ⟨q2.1, q3.1⟩
  row2l := ⟨q0.2.1, q1.2.1⟩
  row2h := ⟨q2.2.1, q3.2.1⟩
  row3l := ⟨q0.2.2.1, q1.2.2.1⟩
  row3h := ⟨q2.2.2.1, q3.2.2.1⟩
  row4l := ⟨q0.2.2.2, q1.2.2.2⟩
  row4h := ⟨q2.2.2.2, q3.2.2.2⟩

/-- A half of `G` on a column. -/
def halfColumn (p q : Nat) (x : BitVec 64) (v : Column) : Column :=
  let a := v.1 + v.2.1 + x
  let d := rotr64 (v.2.2.2 ^^^ a) p
  let c := v.2.2.1 + d
  let b := rotr64 (v.2.1 ^^^ c) q
  (a, b, c, d)

/-- `G(r, i, …)` on a column. -/
def columnG (w : Nat → BitVec 64) (r i : Nat) (v : Column) : Column :=
  g w r i v.1 v.2.1 v.2.2.1 v.2.2.2

/-- The registers add the word of the message first. -/
theorem halfG_columns (cfg : Config) {p q : Nat} (hp : p < 64) (hq : q < 64)
    (v0 v1 v2 v3 : Column) (x0 x1 x2 x3 : BitVec 64) :
    halfG cfg p q (ofColumns v0 v1 v2 v3) ⟨x0, x1⟩ ⟨x2, x3⟩
      = ofColumns (halfColumn p q x0 v0) (halfColumn p q x1 v1) (halfColumn p q x2 v2)
          (halfColumn p q x3 v3) := by
  have hcomm : ∀ a x b : BitVec 64, a + x + b = a + b + x := fun a x b => by
    rw [BitVec.add_assoc, BitVec.add_comm x, BitVec.add_assoc]
  simp only [halfG, rotiEpi64_eq cfg _ hp, rotiEpi64_eq cfg _ hq, addEpi64, xorSi128, ofColumns,
    halfColumn, hcomm v0.1 x0, hcomm v1.1 x1, hcomm v2.1 x2, hcomm v3.1 x3]

/-- **Half a round**: the calls of `G` with the numbers `4 * p` to `4 * p + 3`. -/
theorem g_columns (cfg : Config) (buf : Vector UInt8 128) {r p : Nat} (hr : r < 12) (hp : p < 2)
    (v0 v1 v2 v3 : Column) :
    g2 cfg (g1 cfg (ofColumns v0 v1 v2 v3) (loadMsg cfg buf r (2 * p)).1
        (loadMsg cfg buf r (2 * p)).2) (loadMsg cfg buf r (2 * p + 1)).1
        (loadMsg cfg buf r (2 * p + 1)).2
      = ofColumns (columnG (word buf) r (4 * p) v0) (columnG (word buf) r (4 * p + 1) v1)
          (columnG (word buf) r (4 * p + 2) v2) (columnG (word buf) r (4 * p + 3) v3) := by
  have hfirst := load_words cfg r hr (2 * p) (by omega)
  have hsecond := load_words cfg r hr (2 * p + 1) (by omega)
  have hword : firstWord (2 * p) = 8 * p ∧ firstWord (2 * p + 1) = 8 * p + 1 := by
    unfold firstWord
    omega
  rw [hword.1] at hfirst
  rw [hword.2] at hsecond
  simp only [loadMsg, eval_eq, hfirst, hsecond, g1, g2]
  rw [halfG_columns cfg (by decide) (by decide), halfG_columns cfg (by decide) (by decide)]
  have hindex : ∀ k, 2 * (4 * p + k) = 8 * p + 2 * k := by omega
  simp only [columnG, g, hindex, ← Nat.mul_assoc]
  rfl

/-- The registers that hold four diagonals, in the order of the calls of `G`. -/
def ofDiagonals (v0 v1 v2 v3 : Column) : Rows :=
  ofColumns (v0.1, v3.2.1, v2.2.2.1, v1.2.2.2) (v1.1, v0.2.1, v3.2.2.1, v2.2.2.2)
    (v2.1, v1.2.1, v0.2.2.1, v3.2.2.2) (v3.1, v2.2.1, v1.2.2.1, v0.2.2.2)

theorem exists_columns (s : Rows) : ∃ v0 v1 v2 v3, s = ofColumns v0 v1 v2 v3 :=
  ⟨(s.row1l.lo, s.row2l.lo, s.row3l.lo, s.row4l.lo),
    (s.row1l.hi, s.row2l.hi, s.row3l.hi, s.row4l.hi),
    (s.row1h.lo, s.row2h.lo, s.row3h.lo, s.row4h.lo),
    (s.row1h.hi, s.row2h.hi, s.row3h.hi, s.row4h.hi), rfl⟩

theorem exists_diagonals (s : Rows) : ∃ v0 v1 v2 v3, s = ofDiagonals v0 v1 v2 v3 :=
  ⟨(s.row1l.lo, s.row2l.hi, s.row3h.lo, s.row4h.hi),
    (s.row1l.hi, s.row2h.lo, s.row3h.hi, s.row4l.lo),
    (s.row1h.lo, s.row2h.hi, s.row3l.lo, s.row4l.hi),
    (s.row1h.hi, s.row2l.lo, s.row3l.hi, s.row4h.lo), rfl⟩

theorem diagonalize_diagonals (cfg : Config) (v0 v1 v2 v3 : Column) :
    diagonalize cfg (ofDiagonals v0 v1 v2 v3) = ofColumns v0 v1 v2 v3 := by
  unfold diagonalize
  split
  · simp only [alignrEpi8_eight]
    rfl
  · rfl

theorem undiagonalize_columns (cfg : Config) (v0 v1 v2 v3 : Column) :
    undiagonalize cfg (ofColumns v0 v1 v2 v3) = ofDiagonals v0 v1 v2 v3 := by
  unfold undiagonalize
  split
  · simp only [alignrEpi8_eight]
    rfl
  · rfl

/-! ## The same on the words -/

/-- `v` in the registers. -/
def words (s : Rows) : Vector (BitVec 64) 16 :=
  #v[s.row1l.lo, s.row1l.hi, s.row1h.lo, s.row1h.hi, s.row2l.lo, s.row2l.hi, s.row2h.lo, s.row2h.hi,
    s.row3l.lo, s.row3l.hi, s.row3h.lo, s.row3h.hi, s.row4l.lo, s.row4l.hi, s.row4h.lo, s.row4h.hi]

section

variable (w : Nat → BitVec 64) (r i : Nat) (v0 v1 v2 v3 : Column)

/-- Four words are replaced. -/
def setColumn (v : Vector (BitVec 64) 16) (ia ib ic id : Fin 16) (q : Column) :
    Vector (BitVec 64) 16 :=
  setAt (setAt (setAt (setAt v ia q.1) ib q.2.1) ic q.2.2.1) id q.2.2.2

theorem applyG_eq {v : Vector (BitVec 64) 16} {ia ib ic id : Fin 16} (q : Column)
    (hv : (v.get ia, v.get ib, v.get ic, v.get id) = q)
    (u : Column → Vector (BitVec 64) 16)
    (hu : ∀ q', setColumn v ia ib ic id q' = u q') :
    applyG w r i ia ib ic id v = u (columnG w r i q) := by
  rw [← hu, ← hv]
  rfl

/-- **Four calls of `G` on the columns.** -/
theorem applyG_columns :
    applyG w r (i + 3) 3 7 11 15 (applyG w r (i + 2) 2 6 10 14 (applyG w r (i + 1) 1 5 9 13
        (applyG w r i 0 4 8 12 (words (ofColumns v0 v1 v2 v3)))))
      = words (ofColumns (columnG w r i v0) (columnG w r (i + 1) v1) (columnG w r (i + 2) v2)
          (columnG w r (i + 3) v3)) := by
  rw [applyG_eq w r i v0 rfl (fun q => words (ofColumns q v1 v2 v3)) fun _ => rfl]
  rw [applyG_eq w r (i + 1) v1 rfl (fun q => words (ofColumns _ q v2 v3)) fun _ => rfl]
  rw [applyG_eq w r (i + 2) v2 rfl (fun q => words (ofColumns _ _ q v3)) fun _ => rfl]
  rw [applyG_eq w r (i + 3) v3 rfl (fun q => words (ofColumns _ _ _ q)) fun _ => rfl]

/-- **Four calls of `G` on the diagonals.** -/
theorem applyG_diagonals :
    applyG w r (i + 3) 3 4 9 14 (applyG w r (i + 2) 2 7 8 13 (applyG w r (i + 1) 1 6 11 12
        (applyG w r i 0 5 10 15 (words (ofDiagonals v0 v1 v2 v3)))))
      = words (ofDiagonals (columnG w r i v0) (columnG w r (i + 1) v1) (columnG w r (i + 2) v2)
          (columnG w r (i + 3) v3)) := by
  rw [applyG_eq w r i v0 rfl (fun q => words (ofDiagonals q v1 v2 v3)) fun _ => rfl]
  rw [applyG_eq w r (i + 1) v1 rfl (fun q => words (ofDiagonals _ q v2 v3)) fun _ => rfl]
  rw [applyG_eq w r (i + 2) v2 rfl (fun q => words (ofDiagonals _ _ q v3)) fun _ => rfl]
  rw [applyG_eq w r (i + 3) v3 rfl (fun q => words (ofDiagonals _ _ _ q)) fun _ => rfl]

end

/-- **A round of the registers is a round of the words.** -/
theorem words_round (cfg : Config) (buf : Vector UInt8 128) {r : Nat} (hr : r < 12) (s : Rows) :
    words (round cfg buf r s) = Blake2b.round (word buf) r (words s) := by
  obtain ⟨v0, v1, v2, v3, rfl⟩ := exists_columns s
  have hcolumns := g_columns cfg buf (p := 0) hr (by decide) v0 v1 v2 v3
  obtain ⟨u0, u1, u2, u3, hdiag⟩ := exists_diagonals (ofColumns (columnG (word buf) r 0 v0)
    (columnG (word buf) r 1 v1) (columnG (word buf) r 2 v2) (columnG (word buf) r 3 v3))
  have hdiagonals := g_columns cfg buf (p := 1) hr (by decide) u0 u1 u2 u3
  rw [Blake2b.round, applyG_columns (word buf) r 0 v0 v1 v2 v3, hdiag]
  rw [applyG_diagonals (word buf) r 4 u0 u1 u2 u3, round]
  rw [hcolumns, hdiag, diagonalize_diagonals, hdiagonals, undiagonalize_columns]

/-! ## The compression -/

theorem words_initialRows (h : Vector (BitVec 64) 8) (t f : BitVec 64 × BitVec 64) :
    words (initialRows h t f) = initialV h t f := rfl

theorem storeRows_eq (h : Vector (BitVec 64) 8) (s : Rows) :
    storeRows h s = finalH h (words s) := by
  have hcomm : ∀ a b c : BitVec 64, a ^^^ (c ^^^ b) = a ^^^ b ^^^ c := fun a b c => by
    rw [BitVec.xor_comm c, BitVec.xor_assoc]
  simp only [storeRows, xorSi128, hcomm]
  rfl

/-- **The vector form computes `blake2b_compress`**: with or without the byte shuffles and the loads
of the later instruction sets, for every state, counter, flags and block. -/
theorem blake2b_compress_eq (cfg : Config) (h : Vector (BitVec 64) 8)
    (t f : BitVec 64 × BitVec 64) (buf : Vector UInt8 128) :
    blake2bCompress cfg h t f buf = Blake2b.blake2bCompress h t f buf := by
  have hrounds : ∀ n ≤ 12, ∀ s,
      words ((List.range n).foldl (fun s r => round cfg buf r s) s)
        = (List.range n).foldl (fun v r => Blake2b.round (word buf) r v) (words s) := by
    intro n hn s
    induction n with
    | zero => rfl
    | succ n ih =>
      rw [List.range_succ, List.foldl_append, List.foldl_append, ← ih (by omega)]
      exact words_round cfg buf (by omega) _
  rw [blake2bCompress, storeRows_eq, hrounds 12 le_rfl, words_initialRows,
    Blake2b.blake2bCompress]

end HocusPocus.Blake2b.Sse
