import HocusPocus.Aes

/-!
# The buffered generator (`PRNG.h`, `PRNG.cpp`)

The other modules read a `PRNG` as a byte stream and a position. The class keeps a buffer of blocks
instead: a read takes what the buffer has, writes runs of eight blocks past it straight into the
destination, and refills it. `mBlockIdx` counts the blocks encrypted, modulo `2^64`.

* `Represents`: the buffer holds the next bytes of the stream, and the counter is at the block after
  them.
* `represents_refill`, `implGet_spec`, `getBufferSpan_spec`: one lemma for each operation.
* `run_refines`: any sequence of calls reads the stream in order.
-/

namespace HocusPocus

open Machine

/-- `class PRNG`; of `mAes` only the key. -/
structure BufferedPrng where
  mBuffer : List Block
  mAesKey : Block
  mBytesIdx : Nat
  mBlockIdx : Nat
  mBufferByteCapacity : Nat

namespace BufferedPrng

variable (aes : Aes)

/-- The default constructor. -/
def empty : BufferedPrng := ⟨[], zeroBlock, 0, 0, 0⟩

/-- `mAes.ecbEncCounterMode(mBlockIdx, n, ..)`. -/
def counterBlocks (s : BufferedPrng) (n : Nat) : List Block :=
  (List.range n).map (aes.ecbEncCounterMode s.mAesKey (toBlock 0 s.mBlockIdx))

/-- `mBlockIdx += n`. -/
def advance (s : BufferedPrng) (n : Nat) : BufferedPrng :=
  { s with mBlockIdx := (s.mBlockIdx + n) % 2 ^ 64 }

/-- `refillBuffer`, which throws without a buffer. -/
def refillBuffer (s : BufferedPrng) : Option BufferedPrng :=
  if s.mBuffer.length = 0 then none
  else some { s.advance s.mBuffer.length with
    mBuffer := counterBlocks aes s s.mBuffer.length, mBytesIdx := 0 }

/-- `SetSeed`: a buffer that is there keeps its size. -/
def setSeed (seed : Block) (bufferSize : Nat) (s : BufferedPrng) : Option BufferedPrng :=
  let s := { s with mAesKey := seed, mBlockIdx := 0 }
  refillBuffer aes (if s.mBuffer.length = 0 then
    { s with
      mBuffer := List.replicate bufferSize zeroBlock
      mBufferByteCapacity := 16 * bufferSize }
    else s)

/-- The `n` bytes from `mBytesIdx` on. -/
def peek (s : BufferedPrng) (n : Nat) : Bytes := ((concat s.mBuffer).drop s.mBytesIdx).take n

/-- `mBytesIdx += n`. -/
def consume (s : BufferedPrng) (n : Nat) : BufferedPrng := { s with mBytesIdx := s.mBytesIdx + n }

/-- The inner loop of `implGet`, `while (lengthu8 >= 128)`: what it leaves, and what it writes. -/
def direct (s : BufferedPrng) (lengthu8 : Nat) : BufferedPrng × Bytes :=
  (List.range (lengthu8 / 128)).foldl
    (fun r _ => (r.1.advance 8, r.2 ++ concat (counterBlocks aes r.1 8))) (s, [])

/-- The outer loop of `implGet`; the first argument bounds its rounds. -/
def implGetLoop : Nat → BufferedPrng → Bytes → Nat → Option (Bytes × BufferedPrng)
  | 0, s, dest, lengthu8 => if lengthu8 = 0 then some (dest, s) else none
  | fuel + 1, s, dest, lengthu8 =>
    if lengthu8 = 0 then some (dest, s)
    else
      let step := min lengthu8 (s.mBufferByteCapacity - s.mBytesIdx)
      let dest := dest ++ s.peek step
      let s := s.consume step
      if s.mBytesIdx = s.mBufferByteCapacity then do
        let written := direct aes s (lengthu8 - step)
        let s ← refillBuffer aes written.1
        implGetLoop fuel s (dest ++ written.2) ((lengthu8 - step) % 128)
      else implGetLoop fuel s dest (lengthu8 - step)

/-- `implGet`; `lengthu8 + 1` rounds are enough. -/
def implGet (lengthu8 : Nat) (s : BufferedPrng) : Option (Bytes × BufferedPrng) :=
  implGetLoop aes (lengthu8 + 1) s [] lengthu8

/-- `get<T>()` for a type of `n` bytes. -/
def get (n : Nat) (s : BufferedPrng) : Option (Bytes × BufferedPrng) :=
  if n ≤ s.mBufferByteCapacity - s.mBytesIdx then some (s.peek n, s.consume n) else implGet aes n s

/-- `getBufferSpan`. -/
def getBufferSpan (maxSize : Nat) (s : BufferedPrng) : Option (Bytes × BufferedPrng) :=
  let filled := if s.mBytesIdx = s.mBufferByteCapacity then refillBuffer aes s else some s
  filled.map fun s =>
    let size := min maxSize (s.mBufferByteCapacity - s.mBytesIdx)
    (s.peek size, s.consume size)

end BufferedPrng

/-! ## The stream -/

namespace Prng

/-- The next `n` bytes, as a list. -/
def take (p : Prng) (n : Nat) : Bytes := (List.range n).map fun i => p.stream (p.pos + i)

@[simp] theorem length_take (p : Prng) (n : Nat) : (p.take n).length = n := by simp [take]

theorem take_add (p : Prng) (m n : Nat) : p.take (m + n) = p.take m ++ (p.skip m).take n := by
  simp only [take, skip, List.range_add, List.map_append, List.map_map, Function.comp_def,
    Nat.add_assoc]

theorem toList_bytes (p : Prng) (n : Nat) : (p.bytes n).toList = p.take n := by
  refine List.ext_getElem (by simp) fun i _ _ => ?_
  simp [bytes, take]

end Prng

theorem toBlock_add (a b : Nat) :
    addEpi64 (toBlock 0 a) (toBlock 0 b) = toBlock 0 (a + b) := by
  refine eq_of_lanes ?_ ?_
  · simp only [addEpi64, toBlock, lane_ofLanes_zero, Nat.add_mod, Nat.mod_mod]
  · simp only [addEpi64, toBlock, lane_ofLanes_one, Nat.zero_mod, Nat.add_zero]

theorem toBlock_mod (a : Nat) : toBlock 0 (a % 2 ^ 64) = toBlock 0 a := by
  refine eq_of_lanes ?_ ?_
  · simp only [toBlock, lane_ofLanes_zero, Nat.mod_mod]
  · simp only [toBlock, lane_ofLanes_one]

namespace BufferedPrng

variable {aes : Aes} {s : BufferedPrng} {p : Prng}

/-- The buffer holds the next bytes of the stream, and `mBlockIdx` is the number of the block after
them. -/
structure Represents (aes : Aes) (s : BufferedPrng) (p : Prng) : Prop where
  stream : p.stream = aes.expand s.mAesKey
  nonempty : 0 < s.mBuffer.length
  capacity : s.mBufferByteCapacity = 16 * s.mBuffer.length
  le_capacity : s.mBytesIdx ≤ s.mBufferByteCapacity
  unread : (concat s.mBuffer).drop s.mBytesIdx
    = p.take (s.mBufferByteCapacity - s.mBytesIdx)
  next : ∃ k, p.pos + (s.mBufferByteCapacity - s.mBytesIdx) = 16 * k ∧ s.mBlockIdx = k % 2 ^ 64

/-- **Blocks in counter mode are bytes of the stream.** -/
theorem concat_counterBlocks (hstream : p.stream = aes.expand s.mAesKey) {k : Nat}
    (hpos : p.pos = 16 * k) (hidx : s.mBlockIdx = k % 2 ^ 64) (n : Nat) :
    concat (counterBlocks aes s n) = p.take (16 * n) := by
  refine List.ext_getElem (by simp [counterBlocks]) fun i hi _ => ?_
  have hlt : i < 16 * n := by simpa [counterBlocks] using hi
  have hmod : i % 16 < 16 := Nat.mod_lt i (Nat.succ_pos 15)
  have hsum : 16 * (i / 16) + i % 16 = i := Nat.div_add_mod i 16
  have hblock : i / 16 < (counterBlocks aes s n).length := by
    rw [counterBlocks, List.length_map, List.length_range]
    omega
  have hget := getD_concat (counterBlocks aes s n) hblock hmod
  rw [hsum, List.getD_eq_getElem _ _ hi] at hget
  rw [hget]
  have hdiv : (16 * k + i) / 16 = k + i / 16 := by omega
  have hrem : (16 * k + i) % 16 = i % 16 := by omega
  simp only [counterBlocks, Prng.take, List.getElem_map, List.getElem_range, hstream, hpos,
    Aes.expand, hdiv, hrem, Aes.ecbEncCounterMode, hidx, toBlock_mod, toBlock_add]
  rw [zeroBlock, zeroBytes_addEpi64, getD_toList _ hmod]

/-- The buffer after a refill. -/
theorem represents_refill (hstream : p.stream = aes.expand s.mAesKey)
    (hnonempty : 0 < s.mBuffer.length) (hcap : s.mBufferByteCapacity = 16 * s.mBuffer.length)
    {k : Nat} (hpos : p.pos = 16 * k) (hidx : s.mBlockIdx = k % 2 ^ 64) :
    ∃ s', refillBuffer aes s = some s' ∧ Represents aes s' p ∧ s'.mBytesIdx = 0 := by
  have hlen : (counterBlocks aes s s.mBuffer.length).length = s.mBuffer.length := by
    simp [counterBlocks]
  refine ⟨_, if_neg (Nat.pos_iff_ne_zero.mp hnonempty), ?_, rfl⟩
  constructor
  · exact hstream
  · exact hlen.symm ▸ hnonempty
  · simp only [advance, hlen, hcap]
  · exact Nat.zero_le _
  · simp only [List.drop_zero, Nat.sub_zero, advance, hcap]
    exact concat_counterBlocks hstream hpos hidx _
  · refine ⟨k + s.mBuffer.length, ?_, ?_⟩
    · simp only [advance, hcap, hpos]
      omega
    · simp only [advance, hidx, Nat.mod_add_mod]

/-- A read from the buffer. -/
theorem Represents.peek_eq (h : Represents aes s p) {n : Nat}
    (hn : n ≤ s.mBufferByteCapacity - s.mBytesIdx) : s.peek n = p.take n := by
  obtain ⟨m, hm⟩ := Nat.exists_eq_add_of_le hn
  rw [peek, h.unread, hm, Prng.take_add, List.take_left' (Prng.length_take p n)]

theorem Represents.consume (h : Represents aes s p) {n : Nat}
    (hn : n ≤ s.mBufferByteCapacity - s.mBytesIdx) : Represents aes (s.consume n) (p.skip n) := by
  obtain ⟨m, hm⟩ := Nat.exists_eq_add_of_le hn
  have hle := h.le_capacity
  have hrest : s.mBufferByteCapacity - (s.mBytesIdx + n) = m := by omega
  constructor
  · exact h.stream
  · exact h.nonempty
  · exact h.capacity
  · simp only [BufferedPrng.consume]
    omega
  · simp only [BufferedPrng.consume, hrest, ← List.drop_drop, h.unread, hm, Prng.take_add]
    exact List.drop_left' (Prng.length_take p n)
  · obtain ⟨k, hk, hidx⟩ := h.next
    refine ⟨k, ?_, hidx⟩
    simp only [BufferedPrng.consume, Prng.skip]
    omega

/-- The blocks written past an empty buffer. -/
theorem direct_spec (hstream : p.stream = aes.expand s.mAesKey) {k : Nat} (hpos : p.pos = 16 * k)
    (hidx : s.mBlockIdx = k % 2 ^ 64) (lengthu8 : Nat) :
    direct aes s lengthu8
      = ({ s with mBlockIdx := (k + 8 * (lengthu8 / 128)) % 2 ^ 64 },
          p.take (128 * (lengthu8 / 128))) := by
  unfold direct
  induction lengthu8 / 128 with
  | zero =>
    rw [Nat.mul_zero, Nat.add_zero, ← hidx]
    rfl
  | succ n ih =>
    rw [List.range_succ, List.foldl_append, ih]
    have hblocks := concat_counterBlocks (p := p.skip (128 * n)) (k := k + 8 * n)
      (s := { s with mBlockIdx := (k + 8 * n) % 2 ^ 64 }) hstream
      (by simp only [Prng.skip, hpos]; omega) rfl 8
    simp only [List.foldl_cons, List.foldl_nil, hblocks, ← Prng.take_add, advance, Nat.mod_add_mod]
    rfl

/-! ## The operations -/

/-- **The loop of `implGet`**: a round with bytes left reads one at least, but for a first round
that finds the buffer empty. -/
theorem implGetLoop_spec {fuel : Nat} (h : Represents aes s p) (dest : Bytes) {lengthu8 : Nat}
    (hfuel : lengthu8 + (if s.mBytesIdx = s.mBufferByteCapacity then 1 else 0) ≤ fuel) :
    ∃ s', implGetLoop aes fuel s dest lengthu8 = some (dest ++ p.take lengthu8, s')
      ∧ Represents aes s' (p.skip lengthu8) := by
  induction fuel generalizing s p dest lengthu8 with
  | zero =>
    obtain rfl : lengthu8 = 0 := by omega
    exact ⟨s, by simp [implGetLoop, Prng.take], h⟩
  | succ fuel ih =>
    unfold implGetLoop
    by_cases hzero : lengthu8 = 0
    · subst hzero
      exact ⟨s, by simp [Prng.take], h⟩
    rw [if_neg hzero]
    obtain ⟨step, hstep⟩ :
        ∃ step, min lengthu8 (s.mBufferByteCapacity - s.mBytesIdx) = step := ⟨_, rfl⟩
    have hle := h.le_capacity
    have hread : step ≤ s.mBufferByteCapacity - s.mBytesIdx := by omega
    have hconsumed := h.consume hread
    simp only [hstep, h.peek_eq hread]
    by_cases hempty : (s.consume step).mBytesIdx = (s.consume step).mBufferByteCapacity
    · -- what is left is written past the buffer, and then read from the next one
      rw [if_pos hempty]
      obtain ⟨k, hk, hidx⟩ := hconsumed.next
      rw [hempty, Nat.sub_self, Nat.add_zero] at hk
      rw [direct_spec hconsumed.stream hk hidx]
      obtain ⟨s₁, hrefill, hrep, hfull⟩ := represents_refill
        (p := (p.skip step).skip (128 * ((lengthu8 - step) / 128)))
        (s := { s.consume step with
          mBlockIdx := (k + 8 * ((lengthu8 - step) / 128)) % 2 ^ 64 })
        hconsumed.stream hconsumed.nonempty hconsumed.capacity
        (show _ = 16 * (k + 8 * ((lengthu8 - step) / 128)) by
          rw [Prng.skip]
          simp only [hk]
          omega) rfl
      have hroom : s₁.mBytesIdx ≠ s₁.mBufferByteCapacity := by
        have hpos := hrep.nonempty
        have hcap := hrep.capacity
        omega
      have hidx' : (s.consume step).mBytesIdx = s.mBytesIdx + step := rfl
      have hcap' : (s.consume step).mBufferByteCapacity = s.mBufferByteCapacity := rfl
      have hrounds : (lengthu8 - step) % 128
          + (if s₁.mBytesIdx = s₁.mBufferByteCapacity then 1 else 0) ≤ fuel := by
        rw [if_neg hroom]
        split at hfuel <;> omega
      obtain ⟨s₂, hloop, hrep₂⟩ := ih hrep
        (dest ++ p.take step ++ (p.skip step).take (128 * ((lengthu8 - step) / 128))) hrounds
      have hsplit : step + (128 * ((lengthu8 - step) / 128) + (lengthu8 - step) % 128)
          = lengthu8 := by
        rw [Nat.div_add_mod]
        omega
      refine ⟨s₂, ?_, ?_⟩
      · simp only [hrefill, Option.bind_eq_bind, Option.bind_some]
        rw [hloop, List.append_assoc, List.append_assoc, ← Prng.take_add, ← Prng.take_add, hsplit]
      · rw [Prng.skip_skip, Prng.skip_skip, hsplit] at hrep₂
        exact hrep₂
    · -- the buffer had enough
      rw [if_neg hempty]
      have hroom : s.mBytesIdx + step ≠ s.mBufferByteCapacity := hempty
      have hall : step = lengthu8 := by omega
      subst hall
      obtain ⟨s₂, hloop, hrep₂⟩ := @ih _ _ hconsumed (dest ++ p.take step) 0
        (by rw [if_neg hempty]; omega)
      rw [Nat.sub_self]
      exact ⟨s₂, by simpa [Prng.take] using hloop, hrep₂⟩

theorem implGet_spec (h : Represents aes s p) (lengthu8 : Nat) :
    ∃ s', implGet aes lengthu8 s = some (p.take lengthu8, s')
      ∧ Represents aes s' (p.skip lengthu8) := by
  have hfuel : lengthu8 + (if s.mBytesIdx = s.mBufferByteCapacity then 1 else 0)
      ≤ lengthu8 + 1 := by
    split <;> omega
  obtain ⟨s', hloop, hrep⟩ := implGetLoop_spec h [] hfuel
  exact ⟨s', hloop, hrep⟩

theorem get_spec (h : Represents aes s p) (n : Nat) :
    ∃ s', get aes n s = some (p.take n, s') ∧ Represents aes s' (p.skip n) := by
  unfold get
  split
  · next hn => exact ⟨_, by rw [h.peek_eq hn], h.consume hn⟩
  · exact implGet_spec h n

/-- What the other modules take from a generator is what `get` gives. -/
theorem get_bytes (h : Represents aes s p) (n : Nat) :
    ∃ s', get aes n s = some ((p.bytes n).toList, s') ∧ Represents aes s' (p.skip n) := by
  rw [Prng.toList_bytes]
  exact get_spec h n

/-- `getBufferSpan` gives some of the bytes it is asked for, and one at least. -/
theorem getBufferSpan_spec (h : Represents aes s p) (maxSize : Nat) :
    ∃ n s', getBufferSpan aes maxSize s = some (p.take n, s') ∧ Represents aes s' (p.skip n)
      ∧ n ≤ maxSize ∧ (0 < maxSize → 0 < n) := by
  obtain ⟨s₁, hs₁, hrep, hroom⟩ : ∃ s₁,
      (if s.mBytesIdx = s.mBufferByteCapacity then refillBuffer aes s else some s) = some s₁
        ∧ Represents aes s₁ p ∧ s₁.mBytesIdx < s₁.mBufferByteCapacity := by
    by_cases hempty : s.mBytesIdx = s.mBufferByteCapacity
    · obtain ⟨k, hk, hidx⟩ := h.next
      rw [hempty, Nat.sub_self, Nat.add_zero] at hk
      obtain ⟨s₁, hrefill, hrep, hfull⟩ :=
        represents_refill h.stream h.nonempty h.capacity hk hidx
      have hpos := hrep.nonempty
      have hcap := hrep.capacity
      exact ⟨s₁, by rw [if_pos hempty, hrefill], hrep, by omega⟩
    · exact ⟨s, if_neg hempty, h, Nat.lt_of_le_of_ne h.le_capacity hempty⟩
  have hn : min maxSize (s₁.mBufferByteCapacity - s₁.mBytesIdx)
      ≤ s₁.mBufferByteCapacity - s₁.mBytesIdx := Nat.min_le_right ..
  refine ⟨_, _, ?_, hrep.consume hn, Nat.min_le_left .., fun hpos => by omega⟩
  simp only [getBufferSpan, hs₁, Option.map_some, hrep.peek_eq hn]

/-- `SetSeed` starts the stream of the seed, whatever was read before. -/
theorem setSeed_spec (seed : Block) {bufferSize : Nat}
    (h : (s.mBuffer.length = 0 ∧ 0 < bufferSize)
      ∨ (0 < s.mBuffer.length ∧ s.mBufferByteCapacity = 16 * s.mBuffer.length)) :
    ∃ s', setSeed aes seed bufferSize s = some s'
      ∧ Represents aes s' (Prng.ofSeed aes.expand seed) := by
  unfold setSeed
  rcases h with ⟨hempty, hsize⟩ | ⟨hnonempty, hcap⟩
  · obtain ⟨s', hrefill, hrep, -⟩ := @represents_refill aes
      ⟨List.replicate bufferSize zeroBlock, seed, s.mBytesIdx, 0, 16 * bufferSize⟩
      (Prng.ofSeed aes.expand seed) rfl (by simpa using hsize) (by simp) 0 rfl rfl
    exact ⟨s', by simpa [hempty] using hrefill, hrep⟩
  · obtain ⟨s', hrefill, hrep, -⟩ := @represents_refill aes
      { s with mAesKey := seed, mBlockIdx := 0 } (Prng.ofSeed aes.expand seed) rfl hnonempty hcap 0
      rfl rfl
    have hne : s.mBuffer.length ≠ 0 := Nat.pos_iff_ne_zero.mp hnonempty
    exact ⟨s', by simpa [hne] using hrefill, hrep⟩

/-! ## Sequences of calls -/

/-- A call on a generator. -/
inductive Call where
  | get (n : Nat)
  | getMany (lengthu8 : Nat)
  | getBufferSpan (maxSize : Nat)
  | setSeed (seed : Block) (bufferSize : Nat)

/-- One call: what it gives, and the generator after it. -/
def call (aes : Aes) : Call → BufferedPrng → Option (Bytes × BufferedPrng)
  | .get n, s => get aes n s
  | .getMany lengthu8, s => implGet aes lengthu8 s
  | .getBufferSpan maxSize, s => getBufferSpan aes maxSize s
  | .setSeed seed bufferSize, s => do return ([], ← setSeed aes seed bufferSize s)

/-- A sequence of calls. -/
def run (aes : Aes) : List Call → BufferedPrng → Option (List Bytes)
  | [], _ => some []
  | c :: calls, s => do
    let (out, s) ← call aes c s
    return out :: (← run aes calls s)

/-- The answers are the bytes of the stream in order: each call gives the ones after those of the
calls before it. -/
def Answers (aes : Aes) : List Call → List Bytes → Prng → Prop
  | [], [], _ => True
  | .get n :: calls, out :: outs, p => out = p.take n ∧ Answers aes calls outs (p.skip n)
  | .getMany n :: calls, out :: outs, p => out = p.take n ∧ Answers aes calls outs (p.skip n)
  | .getBufferSpan maxSize :: calls, out :: outs, p =>
    ∃ n ≤ maxSize, (0 < maxSize → 0 < n) ∧ out = p.take n ∧ Answers aes calls outs (p.skip n)
  | .setSeed seed _ :: calls, out :: outs, _ =>
    out = [] ∧ Answers aes calls outs (Prng.ofSeed aes.expand seed)
  | _, _, _ => False

theorem run_represents (h : Represents aes s p) (calls : List Call) :
    ∃ outs, run aes calls s = some outs ∧ Answers aes calls outs p := by
  induction calls generalizing s p with
  | nil => exact ⟨[], rfl, trivial⟩
  | cons c calls ih =>
    cases c with
    | get n =>
      obtain ⟨s', hcall, hrep⟩ := get_spec h n
      obtain ⟨outs, hrun, hanswers⟩ := ih hrep
      exact ⟨p.take n :: outs, by simp [run, call, hcall, hrun], rfl, hanswers⟩
    | getMany n =>
      obtain ⟨s', hcall, hrep⟩ := implGet_spec h n
      obtain ⟨outs, hrun, hanswers⟩ := ih hrep
      exact ⟨p.take n :: outs, by simp [run, call, hcall, hrun], rfl, hanswers⟩
    | getBufferSpan maxSize =>
      obtain ⟨n, s', hcall, hrep, hle, hpos⟩ := getBufferSpan_spec h maxSize
      obtain ⟨outs, hrun, hanswers⟩ := ih hrep
      exact ⟨p.take n :: outs, by simp [run, call, hcall, hrun], n, hle, hpos, rfl, hanswers⟩
    | setSeed seed bufferSize =>
      obtain ⟨s', hcall, hrep⟩ :=
        @setSeed_spec aes s seed bufferSize (Or.inr ⟨h.nonempty, h.capacity⟩)
      obtain ⟨outs, hrun, hanswers⟩ := ih hrep
      exact ⟨[] :: outs, by simp [run, call, hcall, hrun], rfl, hanswers⟩

/-- **The class refines the stream**: after the constructor, any sequence of reads of any lengths,
spans of the buffer and new seeds gives the bytes of the stream in order, none twice and none left
out. -/
theorem run_refines (aes : Aes) (seed : Block) {bufferSize : Nat} (hsize : 0 < bufferSize)
    (calls : List Call) :
    ∃ outs, (setSeed aes seed bufferSize empty).bind (run aes calls) = some outs
      ∧ Answers aes calls outs (Prng.ofSeed aes.expand seed) := by
  obtain ⟨s, hset, hrep⟩ :=
    @setSeed_spec aes empty seed bufferSize (Or.inl ⟨rfl, hsize⟩)
  obtain ⟨outs, hrun, hanswers⟩ := run_represents hrep calls
  exact ⟨outs, by rw [hset]; exact hrun, hanswers⟩

/-- A buffer of two blocks, read across its end and written past it. -/
theorem run_refines_example :
    let aes : Aes := ⟨fun key x => key ^^^ addEpi64 x key, fun state key => addEpi64 state key⟩
    let seed : Block := Vector.replicate 16 7
    let calls : List Call :=
      [.get 4, .getMany 300, .getBufferSpan 40, .setSeed zeroBlock 9, .get 40, .getMany 0]
    ∃ outs, (setSeed aes seed 2 empty).bind (run aes calls) = some outs
      ∧ Answers aes calls outs (Prng.ofSeed aes.expand seed) := by
  intro aes seed calls
  exact run_refines aes seed (by decide) calls

end BufferedPrng

end HocusPocus
