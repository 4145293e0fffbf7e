import HocusPocus.Aes

/-!
# The portable AES (`AES.cpp`, `AES<Portable>` and `AESDec<Portable>`)

The cipher that the other modules take as a parameter. Decryption runs the rounds backwards on round
keys that have passed `InvMixColumns`, so what it holds after a round is what encryption held
between `ShiftRows` and `MixColumns` of the same round.

* `invMixColumns_mixColumns`, `mixColumns_invMixColumns`: both maps are linear, so they are inverse
  to each other if they are on one byte at a time.
* `decState_encrypted`, `encState_decrypted`: the two runs side by side.
-/

namespace HocusPocus.Aes

open Machine

namespace Portable

/-- A `u32` as its four bytes. -/
abbrev Word32 : Type := Vector UInt8 4

/-! ## The code -/

def sbox : List UInt8 := [
  0x63, 0x7c, 0x77, 0x7b, 0xf2, 0x6b, 0x6f, 0xc5, 0x30, 0x01, 0x67, 0x2b, 0xfe, 0xd7, 0xab, 0x76,
  0xca, 0x82, 0xc9, 0x7d, 0xfa, 0x59, 0x47, 0xf0, 0xad, 0xd4, 0xa2, 0xaf, 0x9c, 0xa4, 0x72, 0xc0,
  0xb7, 0xfd, 0x93, 0x26, 0x36, 0x3f, 0xf7, 0xcc, 0x34, 0xa5, 0xe5, 0xf1, 0x71, 0xd8, 0x31, 0x15,
  0x04, 0xc7, 0x23, 0xc3, 0x18, 0x96, 0x05, 0x9a, 0x07, 0x12, 0x80, 0xe2, 0xeb, 0x27, 0xb2, 0x75,
  0x09, 0x83, 0x2c, 0x1a, 0x1b, 0x6e, 0x5a, 0xa0, 0x52, 0x3b, 0xd6, 0xb3, 0x29, 0xe3, 0x2f, 0x84,
  0x53, 0xd1, 0x00, 0xed, 0x20, 0xfc, 0xb1, 0x5b, 0x6a, 0xcb, 0xbe, 0x39, 0x4a, 0x4c, 0x58, 0xcf,
  0xd0, 0xef, 0xaa, 0xfb, 0x43, 0x4d, 0x33, 0x85, 0x45, 0xf9, 0x02, 0x7f, 0x50, 0x3c, 0x9f, 0xa8,
  0x51, 0xa3, 0x40, 0x8f, 0x92, 0x9d, 0x38, 0xf5, 0xbc, 0xb6, 0xda, 0x21, 0x10, 0xff, 0xf3, 0xd2,
  0xcd, 0x0c, 0x13, 0xec, 0x5f, 0x97, 0x44, 0x17, 0xc4, 0xa7, 0x7e, 0x3d, 0x64, 0x5d, 0x19, 0x73,
  0x60, 0x81, 0x4f, 0xdc, 0x22, 0x2a, 0x90, 0x88, 0x46, 0xee, 0xb8, 0x14, 0xde, 0x5e, 0x0b, 0xdb,
  0xe0, 0x32, 0x3a, 0x0a, 0x49, 0x06, 0x24, 0x5c, 0xc2, 0xd3, 0xac, 0x62, 0x91, 0x95, 0xe4, 0x79,
  0xe7, 0xc8, 0x37, 0x6d, 0x8d, 0xd5, 0x4e, 0xa9, 0x6c, 0x56, 0xf4, 0xea, 0x65, 0x7a, 0xae, 0x08,
  0xba, 0x78, 0x25, 0x2e, 0x1c, 0xa6, 0xb4, 0xc6, 0xe8, 0xdd, 0x74, 0x1f, 0x4b, 0xbd, 0x8b, 0x8a,
  0x70, 0x3e, 0xb5, 0x66, 0x48, 0x03, 0xf6, 0x0e, 0x61, 0x35, 0x57, 0xb9, 0x86, 0xc1, 0x1d, 0x9e,
  0xe1, 0xf8, 0x98, 0x11, 0x69, 0xd9, 0x8e, 0x94, 0x9b, 0x1e, 0x87, 0xe9, 0xce, 0x55, 0x28, 0xdf,
  0x8c, 0xa1, 0x89, 0x0d, 0xbf, 0xe6, 0x42, 0x68, 0x41, 0x99, 0x2d, 0x0f, 0xb0, 0x54, 0xbb, 0x16]

def rsbox : List UInt8 := [
  0x52, 0x09, 0x6a, 0xd5, 0x30, 0x36, 0xa5, 0x38, 0xbf, 0x40, 0xa3, 0x9e, 0x81, 0xf3, 0xd7, 0xfb,
  0x7c, 0xe3, 0x39, 0x82, 0x9b, 0x2f, 0xff, 0x87, 0x34, 0x8e, 0x43, 0x44, 0xc4, 0xde, 0xe9, 0xcb,
  0x54, 0x7b, 0x94, 0x32, 0xa6, 0xc2, 0x23, 0x3d, 0xee, 0x4c, 0x95, 0x0b, 0x42, 0xfa, 0xc3, 0x4e,
  0x08, 0x2e, 0xa1, 0x66, 0x28, 0xd9, 0x24, 0xb2, 0x76, 0x5b, 0xa2, 0x49, 0x6d, 0x8b, 0xd1, 0x25,
  0x72, 0xf8, 0xf6, 0x64, 0x86, 0x68, 0x98, 0x16, 0xd4, 0xa4, 0x5c, 0xcc, 0x5d, 0x65, 0xb6, 0x92,
  0x6c, 0x70, 0x48, 0x50, 0xfd, 0xed, 0xb9, 0xda, 0x5e, 0x15, 0x46, 0x57, 0xa7, 0x8d, 0x9d, 0x84,
  0x90, 0xd8, 0xab, 0x00, 0x8c, 0xbc, 0xd3, 0x0a, 0xf7, 0xe4, 0x58, 0x05, 0xb8, 0xb3, 0x45, 0x06,
  0xd0, 0x2c, 0x1e, 0x8f, 0xca, 0x3f, 0x0f, 0x02, 0xc1, 0xaf, 0xbd, 0x03, 0x01, 0x13, 0x8a, 0x6b,
  0x3a, 0x91, 0x11, 0x41, 0x4f, 0x67, 0xdc, 0xea, 0x97, 0xf2, 0xcf, 0xce, 0xf0, 0xb4, 0xe6, 0x73,
  0x96, 0xac, 0x74, 0x22, 0xe7, 0xad, 0x35, 0x85, 0xe2, 0xf9, 0x37, 0xe8, 0x1c, 0x75, 0xdf, 0x6e,
  0x47, 0xf1, 0x1a, 0x71, 0x1d, 0x29, 0xc5, 0x89, 0x6f, 0xb7, 0x62, 0x0e, 0xaa, 0x18, 0xbe, 0x1b,
  0xfc, 0x56, 0x3e, 0x4b, 0xc6, 0xd2, 0x79, 0x20, 0x9a, 0xdb, 0xc0, 0xfe, 0x78, 0xcd, 0x5a, 0xf4,
  0x1f, 0xdd, 0xa8, 0x33, 0x88, 0x07, 0xc7, 0x31, 0xb1, 0x12, 0x10, 0x59, 0x27, 0x80, 0xec, 0x5f,
  0x60, 0x51, 0x7f, 0xa9, 0x19, 0xb5, 0x4a, 0x0d, 0x2d, 0xe5, 0x7a, 0x9f, 0x93, 0xc9, 0x9c, 0xef,
  0xa0, 0xe0, 0x3b, 0x4d, 0xae, 0x2a, 0xf5, 0xb0, 0xc8, 0xeb, 0xbb, 0x3c, 0x83, 0x53, 0x99, 0x61,
  0x17, 0x2b, 0x04, 0x7e, 0xba, 0x77, 0xd6, 0x26, 0xe1, 0x69, 0x14, 0x63, 0x55, 0x21, 0x0c, 0x7d]

/-- `sbox[x]`. -/
def getSBox (x : UInt8) : UInt8 := sbox.getD x.toNat 0

def getSBoxInvert (x : UInt8) : UInt8 := rsbox.getD x.toNat 0

def subWord (x : Word32) : Word32 := x.map getSBox

/-- Byte `j` of a word. -/
def byte (x : Word32) (j : Nat) : UInt8 := x.toList.getD j 0

/-- A word of four bytes. -/
def ofBytes (x0 x1 x2 x3 : UInt8) : Word32 := ⟨#[x0, x1, x2, x3], rfl⟩

def rotWord (x : Word32) : Word32 := ofBytes (byte x 1) (byte x 2) (byte x 3) (byte x 0)

/-- `get<u32>(i)`, which is `state[i]` of an unpacked state. -/
def column (state : Block) (i : Nat) : Word32 := block 4 state.toList i

/-- The block with the given columns. -/
def ofColumns (columns : Nat → Word32) : Block :=
  Vector.ofFn fun k => byte (columns (k / 4)) (k % 4)

/-- `shuffle_epi32<imm>`. -/
def shuffleEpi32 (imm : Nat) (x : Block) : Block :=
  ofColumns fun i => column x ((imm >>> (2 * i)) % 4)

/-- `slli_si128<4>`. -/
def slliSi128Four (x : Block) : Block :=
  ofColumns fun i => if i = 0 then zeroBytes 4 else column x (i - 1)

def keyGenHelper (imm8 : UInt8) (key : Block) : Block :=
  let X3 := column key 3
  let X1 := column key 1
  let RCON := ofBytes imm8 0 0 0
  let keyRcon := ofColumns fun i =>
    if i = 0 then subWord X1
    else if i = 1 then rotWord (subWord X1) ^^^ RCON
    else if i = 2 then subWord X3
    else rotWord (subWord X3) ^^^ RCON
  let keyRcon := shuffleEpi32 0xFF keyRcon
  let key := key ^^^ slliSi128Four key
  let key := key ^^^ slliSi128Four key
  let key := key ^^^ slliSi128Four key
  key ^^^ keyRcon

/-- The constants of `AES::setKey`. -/
def rcon : List UInt8 := [0x01, 0x02, 0x04, 0x08, 0x10, 0x20, 0x40, 0x80, 0x1B, 0x36]

/-- `AES::setKey`: `mRoundKey[i]`. -/
def roundKey (userKey : Block) : Nat → Block
  | 0 => userKey
  | i + 1 => keyGenHelper (rcon.getD i 0) (roundKey userKey i)

/-- One word after the other. -/
def subBytes (state : Block) : Block := ofColumns fun i => subWord (column state i)

/-- `state[i][j] = x`. -/
def put (state : Nat → Nat → UInt8) (i j : Nat) (x : UInt8) : Nat → Nat → UInt8 := fun i' j' =>
  if i' = i ∧ j' = j then x else state i' j'

def unpackState (state : Block) : Nat → Nat → UInt8 := fun i j => byte (column state i) j

def packState (state : Nat → Nat → UInt8) : Block :=
  ofColumns fun i => ofBytes (state i 0) (state i 1) (state i 2) (state i 3)

def shiftRows (state_ : Block) : Block :=
  let state := unpackState state_
  let temp := state 0 1
  let state := put state 0 1 (state 1 1)
  let state := put state 1 1 (state 2 1)
  let state := put state 2 1 (state 3 1)
  let state := put state 3 1 temp
  let temp := state 0 2
  let state := put state 0 2 (state 2 2)
  let state := put state 2 2 temp
  let temp := state 1 2
  let state := put state 1 2 (state 3 2)
  let state := put state 3 2 temp
  let temp := state 0 3
  let state := put state 0 3 (state 3 3)
  let state := put state 3 3 (state 2 3)
  let state := put state 2 3 (state 1 3)
  let state := put state 1 3 temp
  packState state

def xtime (x : UInt8) : UInt8 := (x <<< 1) ^^^ (((x >>> 7) &&& 1) * 0x1b)

def multiply (x y : UInt8) : UInt8 :=
  let bit (k : UInt8) : UInt8 := (y >>> k) &&& 1
  (bit 0 * x) ^^^ (bit 1 * xtime x) ^^^ (bit 2 * xtime (xtime x))
    ^^^ (bit 3 * xtime (xtime (xtime x))) ^^^ (bit 4 * xtime (xtime (xtime (xtime x))))

/-- The body of the loop of `MixColumns`. -/
def mixColumn (state : Word32) : Word32 :=
  let s0 := byte state 0
  let s1 := byte state 1
  let s2 := byte state 2
  let s3 := byte state 3
  let t := s0
  let Tmp := s0 ^^^ s1 ^^^ s2 ^^^ s3
  let s0 := s0 ^^^ (xtime (s0 ^^^ s1) ^^^ Tmp)
  let s1 := s1 ^^^ (xtime (s1 ^^^ s2) ^^^ Tmp)
  let s2 := s2 ^^^ (xtime (s2 ^^^ s3) ^^^ Tmp)
  let s3 := s3 ^^^ (xtime (s3 ^^^ t) ^^^ Tmp)
  ofBytes s0 s1 s2 s3

def mixColumns (state : Block) : Block := ofColumns fun i => mixColumn (column state i)

/-- The body of the loop of `InvMixColumns`. -/
def invMixColumn (state : Word32) : Word32 :=
  let a := byte state 0
  let b := byte state 1
  let c := byte state 2
  let d := byte state 3
  ofBytes
    (multiply a 0x0e ^^^ multiply b 0x0b ^^^ multiply c 0x0d ^^^ multiply d 0x09)
    (multiply a 0x09 ^^^ multiply b 0x0e ^^^ multiply c 0x0b ^^^ multiply d 0x0d)
    (multiply a 0x0d ^^^ multiply b 0x09 ^^^ multiply c 0x0e ^^^ multiply d 0x0b)
    (multiply a 0x0b ^^^ multiply b 0x0d ^^^ multiply c 0x09 ^^^ multiply d 0x0e)

def invMixColumns (state : Block) : Block := ofColumns fun i => invMixColumn (column state i)

def invSubBytes (state : Block) : Block := state.map getSBoxInvert

def invShiftRows (state_ : Block) : Block :=
  let state := unpackState state_
  let temp := state 3 1
  let state := put state 3 1 (state 2 1)
  let state := put state 2 1 (state 1 1)
  let state := put state 1 1 (state 0 1)
  let state := put state 0 1 temp
  let temp := state 0 2
  let state := put state 0 2 (state 2 2)
  let state := put state 2 2 temp
  let temp := state 1 2
  let state := put state 1 2 (state 3 2)
  let state := put state 3 2 temp
  let temp := state 0 3
  let state := put state 0 3 (state 1 3)
  let state := put state 1 3 (state 2 3)
  let state := put state 2 3 (state 3 3)
  let state := put state 3 3 temp
  packState state

/-! ## Encryption and decryption -/

def firstFn (state roundKey : Block) : Block := state ^^^ roundKey

def roundFn (state roundKey : Block) : Block := mixColumns (shiftRows (subBytes state)) ^^^ roundKey

def penultimateFn (state roundKey : Block) : Block := roundFn state roundKey

def finalFn (state roundKey : Block) : Block := shiftRows (subBytes state) ^^^ roundKey

/-- The state of `ecbEncBlock` after the key `mRoundKey[i]`, up to the ninth. -/
def encState (key plaintext : Block) : Nat → Block
  | 0 => firstFn plaintext (roundKey key 0)
  | i + 1 => (if i + 1 = 9 then penultimateFn else roundFn) (encState key plaintext i)
      (roundKey key (i + 1))

def ecbEncBlock (key plaintext : Block) : Block :=
  finalFn (encState key plaintext 9) (roundKey key 10)

/-- `AESDec::setKey`: `mRoundKey[i]`. -/
def decRoundKey (userKey : Block) (i : Nat) : Block :=
  if i = 0 then roundKey userKey 10
  else if i = 10 then roundKey userKey 0
  else invMixColumns (roundKey userKey (10 - i))

/-- `AESDec::roundFn`. -/
def decRoundFn (state roundKey : Block) : Block :=
  invMixColumns (invSubBytes (invShiftRows state)) ^^^ roundKey

/-- `AESDec::finalFn`. -/
def decFinalFn (state roundKey : Block) : Block := invSubBytes (invShiftRows state) ^^^ roundKey

/-- The state of `ecbDecBlock` after its key `mRoundKey[i]`, up to the ninth. -/
def decState (key ciphertext : Block) : Nat → Block
  | 0 => firstFn ciphertext (decRoundKey key 0)
  | i + 1 => decRoundFn (decState key ciphertext i) (decRoundKey key (i + 1))

def ecbDecBlock (key ciphertext : Block) : Block :=
  decFinalFn (decState key ciphertext 9) (decRoundKey key 10)

/-! ## Bytes and columns -/

theorem forall_byte {P : UInt8 → Prop} (h : ∀ n < 256, P (UInt8.ofNat n)) (x : UInt8) : P x := by
  have hx := h x.toNat x.toNat_lt
  rwa [UInt8.ofNat_toNat] at hx

theorem byte_eq (x : Word32) {j : Nat} (hj : j < 4) : byte x j = x[j] := getD_toList x hj

theorem word_ext {x y : Word32} (h : ∀ j < 4, byte x j = byte y j) : x = y := by
  refine Vector.ext fun j hj => ?_
  rw [← byte_eq x hj, ← byte_eq y hj]
  exact h j hj

theorem byte_ofBytes (x0 x1 x2 x3 : UInt8) (j : Nat) :
    byte (ofBytes x0 x1 x2 x3) j = [x0, x1, x2, x3].getD j 0 := rfl

theorem ofBytes_byte (x : Word32) : ofBytes (byte x 0) (byte x 1) (byte x 2) (byte x 3) = x := by
  refine word_ext fun j hj => ?_
  rw [byte_ofBytes]
  interval_cases j <;> rfl

theorem byte_xor (x y : Word32) {j : Nat} (hj : j < 4) :
    byte (x ^^^ y) j = byte x j ^^^ byte y j := by
  rw [byte_eq _ hj, byte_eq _ hj, byte_eq _ hj, getElem_xor]

theorem ofBytes_xor (x0 x1 x2 x3 y0 y1 y2 y3 : UInt8) :
    ofBytes x0 x1 x2 x3 ^^^ ofBytes y0 y1 y2 y3
      = ofBytes (x0 ^^^ y0) (x1 ^^^ y1) (x2 ^^^ y2) (x3 ^^^ y3) := by
  refine word_ext fun j hj => ?_
  rw [byte_xor _ _ hj, byte_ofBytes, byte_ofBytes, byte_ofBytes]
  interval_cases j <;> rfl

theorem byte_column (s : Block) {i j : Nat} (hj : j < 4) (hij : 4 * i + j < 16) :
    byte (column s i) j = s[4 * i + j] := by
  rw [byte_eq _ hj, column, getElem_block s hj hij]

theorem column_ofColumns (f : Nat → Word32) {i : Nat} (hi : i < 4) :
    column (ofColumns f) i = f i := by
  refine word_ext fun j hj => ?_
  have hij : 4 * i + j < 16 := by omega
  rw [byte_column _ hj hij, ofColumns, Vector.getElem_ofFn, Nat.mul_add_div (by decide),
    Nat.mul_add_mod, Nat.div_eq_of_lt hj, Nat.mod_eq_of_lt hj, Nat.add_zero]

theorem block_ext {s t : Block} (h : ∀ i < 4, column s i = column t i) : s = t := by
  refine Vector.ext fun k hk => ?_
  have hmod : k % 4 < 4 := Nat.mod_lt k (by decide)
  have hbyte := congrArg (byte · (k % 4)) (h (k / 4) (by omega))
  simp only [byte_column _ hmod (show 4 * (k / 4) + k % 4 < 16 by omega)] at hbyte
  simpa only [Nat.div_add_mod] using hbyte

theorem ofColumns_column (s : Block) : ofColumns (column s) = s :=
  block_ext fun _ hi => column_ofColumns (column s) hi

theorem ofColumns_congr {f g : Nat → Word32} (h : ∀ i < 4, f i = g i) :
    ofColumns f = ofColumns g := by
  refine block_ext fun i hi => ?_
  rw [column_ofColumns f hi, column_ofColumns g hi, h i hi]

theorem column_xor (s t : Block) {i : Nat} (hi : i < 4) :
    column (s ^^^ t) i = column s i ^^^ column t i := by
  refine word_ext fun j hj => ?_
  have hij : 4 * i + j < 16 := by omega
  rw [byte_xor _ _ hj, byte_column _ hj hij, byte_column _ hj hij, byte_column _ hj hij,
    getElem_xor]

/-! ## The substitution -/

theorem getSBoxInvert_getSBox (x : UInt8) : getSBoxInvert (getSBox x) = x := by
  refine forall_byte (P := fun x => getSBoxInvert (getSBox x) = x) ?_ x
  decide +kernel

theorem getSBox_getSBoxInvert (x : UInt8) : getSBox (getSBoxInvert x) = x := by
  refine forall_byte (P := fun x => getSBox (getSBoxInvert x) = x) ?_ x
  decide +kernel

theorem subBytes_eq_map (s : Block) : subBytes s = s.map getSBox := by
  refine Vector.ext fun k hk => ?_
  have hmod : k % 4 < 4 := Nat.mod_lt k (by decide)
  rw [subBytes, ofColumns, Vector.getElem_ofFn, byte_eq _ hmod, subWord, Vector.getElem_map,
    Vector.getElem_map, column, block, Vector.getElem_ofFn]
  simp only [Nat.div_add_mod, getD_toList s hk]

theorem invSubBytes_subBytes (s : Block) : invSubBytes (subBytes s) = s := by
  rw [subBytes_eq_map, invSubBytes, Vector.map_map]
  exact (Vector.map_congr_left fun x _ => getSBoxInvert_getSBox x).trans (Vector.map_id s)

theorem subBytes_invSubBytes (s : Block) : subBytes (invSubBytes s) = s := by
  rw [subBytes_eq_map, invSubBytes, Vector.map_map]
  exact (Vector.map_congr_left fun x _ => getSBox_getSBoxInvert x).trans (Vector.map_id s)

/-! ## The rows -/

theorem unpackState_packState (f : Nat → Nat → UInt8) {i j : Nat} (hi : i < 4) (hj : j < 4) :
    unpackState (packState f) i j = f i j := by
  rw [unpackState, packState, column_ofColumns _ hi, byte_ofBytes]
  interval_cases j <;> rfl

theorem packState_unpackState (s : Block) : packState (unpackState s) = s :=
  (ofColumns_congr fun i _ => ofBytes_byte (column s i)).trans (ofColumns_column s)

theorem packState_congr {f g : Nat → Nat → UInt8} (h : ∀ i < 4, ∀ j < 4, f i j = g i j) :
    packState f = packState g :=
  ofColumns_congr fun i hi => by
    rw [h i hi 0 (by decide), h i hi 1 (by decide), h i hi 2 (by decide), h i hi 3 (by decide)]

/-- Row `j` moves `j` columns to the left. -/
theorem shiftRows_eq (s : Block) :
    shiftRows s = packState fun i j => unpackState s ((i + j) % 4) j := by
  refine packState_congr fun i hi j hj => ?_
  interval_cases i <;> interval_cases j <;> rfl

theorem invShiftRows_eq (s : Block) :
    invShiftRows s = packState fun i j => unpackState s ((i + (4 - j)) % 4) j := by
  refine packState_congr fun i hi j hj => ?_
  interval_cases i <;> interval_cases j <;> rfl

theorem invShiftRows_shiftRows (s : Block) : invShiftRows (shiftRows s) = s := by
  rw [invShiftRows_eq, shiftRows_eq]
  refine (packState_congr fun i hi j hj => ?_).trans (packState_unpackState s)
  have hback : ((i + (4 - j)) % 4 + j) % 4 = i := by omega
  rw [unpackState_packState _ (Nat.mod_lt _ (by decide)) hj, hback]

theorem shiftRows_invShiftRows (s : Block) : shiftRows (invShiftRows s) = s := by
  rw [invShiftRows_eq, shiftRows_eq]
  refine (packState_congr fun i hi j hj => ?_).trans (packState_unpackState s)
  have hback : ((i + j) % 4 + (4 - j)) % 4 = i := by omega
  rw [unpackState_packState _ (Nat.mod_lt _ (by decide)) hj, hback]

/-! ## The columns -/

/-- `xtime` by shifts only: `0x1b` has the bits 0, 1, 3 and 4. -/
theorem xtime_eq (x : UInt8) :
    xtime x = (x <<< 1) ^^^ (x >>> 7) ^^^ (x >>> 7) <<< 1 ^^^ (x >>> 7) <<< 3
      ^^^ (x >>> 7) <<< 4 := by
  refine forall_byte (P := fun x => xtime x = (x <<< 1) ^^^ (x >>> 7) ^^^ (x >>> 7) <<< 1
    ^^^ (x >>> 7) <<< 3 ^^^ (x >>> 7) <<< 4) ?_ x
  decide +kernel

theorem xtime_xor (x y : UInt8) : xtime (x ^^^ y) = xtime x ^^^ xtime y := by
  simp only [xtime_eq, UInt8.shiftLeft_xor, UInt8.shiftRight_xor]
  ac_rfl

theorem bit_mul_xor (y : UInt8) (x x' : UInt8) :
    (y &&& 1) * (x ^^^ x') = (y &&& 1) * x ^^^ (y &&& 1) * x' := by
  have hbit : y &&& 1 = 0 ∨ y &&& 1 = 1 := by
    refine forall_byte (P := fun y => y &&& 1 = 0 ∨ y &&& 1 = 1) ?_ y
    decide +kernel
  rcases hbit with h | h
  · rw [h, UInt8.zero_mul, UInt8.zero_mul, UInt8.zero_mul, UInt8.xor_self]
  · rw [h, UInt8.one_mul, UInt8.one_mul, UInt8.one_mul]

theorem multiply_xor (x x' y : UInt8) :
    multiply (x ^^^ x') y = multiply x y ^^^ multiply x' y := by
  simp only [multiply, xtime_xor, bit_mul_xor]
  ac_rfl

theorem mixColumn_xor (x y : Word32) : mixColumn (x ^^^ y) = mixColumn x ^^^ mixColumn y := by
  simp only [mixColumn, byte_xor, Nat.ofNat_pos, Nat.reduceLT, ofBytes_xor]
  congr 1 <;> simp only [xtime_xor] <;> ac_rfl

theorem invMixColumn_xor (x y : Word32) :
    invMixColumn (x ^^^ y) = invMixColumn x ^^^ invMixColumn y := by
  simp only [invMixColumn, byte_xor, Nat.ofNat_pos, Nat.reduceLT, ofBytes_xor]
  congr 1 <;> simp only [multiply_xor] <;> ac_rfl

/-- What holds of the eight bits and of sums holds of every byte. -/
theorem byte_induction {P : UInt8 → Prop} (hxor : ∀ a b, P a → P b → P (a ^^^ b))
    (hbit : ∀ k < 8, P (1 <<< UInt8.ofNat k)) (a : UInt8) : P a := by
  have hzero : P 0 := hxor 1 1 (hbit 0 (by decide)) (hbit 0 (by decide))
  have hand : ∀ k < 8, P (a &&& 1 <<< UInt8.ofNat k) := by
    intro k hk
    have hcases : a &&& 1 <<< UInt8.ofNat k = 0
        ∨ a &&& 1 <<< UInt8.ofNat k = 1 <<< UInt8.ofNat k := by
      refine forall_byte (P := fun a => ∀ k < 8, a &&& 1 <<< UInt8.ofNat k = 0
        ∨ a &&& 1 <<< UInt8.ofNat k = 1 <<< UInt8.ofNat k) ?_ a k hk
      decide +kernel
    rcases hcases with h | h
    · rw [h]
      exact hzero
    · rw [h]
      exact hbit k hk
  have hsum : (List.range 8).foldl (fun x k => x ^^^ (a &&& 1 <<< UInt8.ofNat k)) 0 = a := by
    refine forall_byte (P := fun a =>
      (List.range 8).foldl (fun x k => x ^^^ (a &&& 1 <<< UInt8.ofNat k)) 0 = a) ?_ a
    decide +kernel
  have hfold : ∀ l : List Nat, (∀ k ∈ l, k < 8) → ∀ x, P x →
      P (l.foldl (fun x k => x ^^^ (a &&& 1 <<< UInt8.ofNat k)) x) := by
    intro l
    induction l with
    | nil => exact fun _ x hx => hx
    | cons k l ih =>
      intro hl x hx
      exact ih (fun k' hk' => hl k' (List.mem_cons_of_mem k hk')) _
        (hxor _ _ hx (hand k (hl k List.mem_cons_self)))
  rw [← hsum]
  exact hfold _ (fun k hk => List.mem_range.mp hk) 0 hzero

/-- The word with one byte. -/
def single (j : Nat) (a : UInt8) : Word32 :=
  ofBytes (if j = 0 then a else 0) (if j = 1 then a else 0) (if j = 2 then a else 0)
    (if j = 3 then a else 0)

theorem single_xor {j : Nat} (hj : j < 4) (a b : UInt8) :
    single j (a ^^^ b) = single j a ^^^ single j b := by
  rw [single, single, single, ofBytes_xor]
  interval_cases j <;> simp

/-- A linear map that keeps each of the 32 bits is the identity. -/
theorem eq_self_of_linear {f : Word32 → Word32} (hf : ∀ x y, f (x ^^^ y) = f x ^^^ f y)
    (hbit : ∀ j < 4, ∀ k < 8, f (single j (1 <<< UInt8.ofNat k)) = single j (1 <<< UInt8.ofNat k))
    (x : Word32) : f x = x := by
  have hbyte : ∀ j < 4, ∀ a, f (single j a) = single j a := by
    intro j hj
    refine byte_induction (fun a b ha hb => ?_) (hbit j hj)
    rw [single_xor hj, hf, ha, hb]
  have hsum : single 0 (byte x 0) ^^^ single 1 (byte x 1) ^^^ single 2 (byte x 2)
      ^^^ single 3 (byte x 3) = x := by
    simp [single, ofBytes_xor, ofBytes_byte]
  have himage : f (single 0 (byte x 0) ^^^ single 1 (byte x 1) ^^^ single 2 (byte x 2)
      ^^^ single 3 (byte x 3)) = single 0 (byte x 0) ^^^ single 1 (byte x 1)
        ^^^ single 2 (byte x 2) ^^^ single 3 (byte x 3) := by
    rw [hf, hf, hf, hbyte 0 (by decide), hbyte 1 (by decide), hbyte 2 (by decide),
      hbyte 3 (by decide)]
  rwa [hsum] at himage

theorem invMixColumn_mixColumn (x : Word32) : invMixColumn (mixColumn x) = x := by
  refine eq_self_of_linear (f := fun x => invMixColumn (mixColumn x)) (fun x y => ?_) ?_ x
  · rw [mixColumn_xor, invMixColumn_xor]
  · decide +kernel

theorem mixColumn_invMixColumn (x : Word32) : mixColumn (invMixColumn x) = x := by
  refine eq_self_of_linear (f := fun x => mixColumn (invMixColumn x)) (fun x y => ?_) ?_ x
  · rw [invMixColumn_xor, mixColumn_xor]
  · decide +kernel

theorem invMixColumns_mixColumns (s : Block) : invMixColumns (mixColumns s) = s := by
  refine block_ext fun i hi => ?_
  rw [invMixColumns, column_ofColumns _ hi, mixColumns, column_ofColumns _ hi,
    invMixColumn_mixColumn]

theorem mixColumns_invMixColumns (s : Block) : mixColumns (invMixColumns s) = s := by
  refine block_ext fun i hi => ?_
  rw [mixColumns, column_ofColumns _ hi, invMixColumns, column_ofColumns _ hi,
    mixColumn_invMixColumn]

theorem invMixColumns_xor (s t : Block) :
    invMixColumns (s ^^^ t) = invMixColumns s ^^^ invMixColumns t := by
  refine block_ext fun i hi => ?_
  rw [column_xor _ _ hi, invMixColumns, invMixColumns, invMixColumns, column_ofColumns _ hi,
    column_ofColumns _ hi, column_ofColumns _ hi, column_xor _ _ hi, invMixColumn_xor]

/-! ## The two runs -/

variable (key : Block)

theorem encState_succ (plaintext : Block) (i : Nat) :
    encState key plaintext (i + 1)
      = mixColumns (shiftRows (subBytes (encState key plaintext i))) ^^^ roundKey key (i + 1) := by
  have hsame : penultimateFn = roundFn := rfl
  rw [encState, hsame, ite_self, roundFn]

/-- A round of decryption, with the key taken off before `InvMixColumns`. -/
theorem decState_succ (ciphertext : Block) {i : Nat} (hi : i < 9) :
    decState key ciphertext (i + 1)
      = invMixColumns (invSubBytes (invShiftRows (decState key ciphertext i))
          ^^^ roundKey key (9 - i)) := by
  have hkey : decRoundKey key (i + 1) = invMixColumns (roundKey key (9 - i)) := by
    have hidx : 10 - (i + 1) = 9 - i := by omega
    rw [decRoundKey, if_neg (Nat.succ_ne_zero i), if_neg (by omega), hidx]
  rw [decState, decRoundFn, hkey, invMixColumns_xor]

/-- Decryption of a ciphertext holds what encryption held before `MixColumns`. -/
theorem decState_encrypted (plaintext : Block) {n : Nat} (hn : n ≤ 9) :
    decState key (ecbEncBlock key plaintext) n
      = shiftRows (subBytes (encState key plaintext (9 - n))) := by
  induction n with
  | zero => exact xorBytes_cancel_right _ _
  | succ n ih =>
    have hidx : 9 - n = 9 - (n + 1) + 1 := by omega
    rw [decState_succ key _ hn, ih (Nat.le_of_succ_le hn), invShiftRows_shiftRows,
      invSubBytes_subBytes, hidx, encState_succ, xorBytes_cancel_right, invMixColumns_mixColumns]

/-- Encryption of what decryption gave holds what decryption held before the round key. -/
theorem encState_decrypted (ciphertext : Block) {n : Nat} (hn : n ≤ 9) :
    encState key (ecbDecBlock key ciphertext) n
      = invSubBytes (invShiftRows (decState key ciphertext (9 - n))) := by
  induction n with
  | zero => exact xorBytes_cancel_right _ _
  | succ n ih =>
    have hidx : 9 - n = 9 - (n + 1) + 1 := by omega
    have hkey : 9 - (9 - (n + 1)) = n + 1 := by omega
    rw [encState_succ, ih (Nat.le_of_succ_le hn), subBytes_invSubBytes, shiftRows_invShiftRows,
      hidx, decState_succ key _ (by omega), hkey, mixColumns_invMixColumns, xorBytes_cancel_right]

theorem decrypt_encrypt (plaintext : Block) :
    ecbDecBlock key (ecbEncBlock key plaintext) = plaintext := by
  have hstate := decState_encrypted key plaintext (Nat.le_refl 9)
  rw [ecbDecBlock, decFinalFn, hstate, invShiftRows_shiftRows, invSubBytes_subBytes]
  exact xorBytes_cancel_right _ _

theorem encrypt_decrypt (ciphertext : Block) :
    ecbEncBlock key (ecbDecBlock key ciphertext) = ciphertext := by
  have hstate := encState_decrypted key ciphertext (Nat.le_refl 9)
  rw [ecbEncBlock, finalFn, hstate, subBytes_invSubBytes, shiftRows_invShiftRows]
  exact xorBytes_cancel_right _ _

/-- Counter mode does not repeat a block before the 64-bit counter does. -/
theorem counterMode_injOn (baseIdx : Block) :
    Set.InjOn (fun i => ecbEncBlock key (addEpi64 baseIdx (toBlock 0 i))) (Set.Iio (2 ^ 64)) := by
  intro i hi j hj hij
  have hsum : addEpi64 baseIdx (toBlock 0 i) = addEpi64 baseIdx (toBlock 0 j) := by
    have h := congrArg (ecbDecBlock key) hij
    rwa [decrypt_encrypt, decrypt_encrypt] at h
  have hblock : toBlock 0 i = toBlock 0 j := by
    have h := congrArg (subEpi64 · baseIdx) hsum
    rwa [subEpi64_add, subEpi64_add] at h
  have hlane := congrArg (lane · 0) hblock
  simp only [toBlock, lane_ofLanes_zero] at hlane
  rwa [Nat.mod_eq_of_lt hi, Nat.mod_eq_of_lt hj] at hlane

end Portable

/-- `AES<Portable>`. -/
def portable : Aes where
  ecbEncBlock := Portable.ecbEncBlock
  roundEnc := Portable.roundFn

/-- The key 0, 1, .. and the block 00, 11, 22, .. -/
example :
    portable.ecbEncBlock (Vector.ofFn fun i => UInt8.ofNat i)
        (Vector.ofFn fun i => 17 * UInt8.ofNat i)
      = leBytes 16 0x5ac5b47080b7cdd830047b6ad8e0c469 := by
  decide +kernel

/-- **`AESDec` and `AES` are inverse to each other** under every key, and counter mode gives
`2 ^ 64` different blocks from any first one. -/
theorem portable_permutes (key : Block) :
    Function.LeftInverse (Portable.ecbDecBlock key) (portable.ecbEncBlock key)
      ∧ Function.RightInverse (Portable.ecbDecBlock key) (portable.ecbEncBlock key)
      ∧ ∀ baseIdx, Set.InjOn (portable.ecbEncCounterMode key baseIdx) (Set.Iio (2 ^ 64)) :=
  ⟨Portable.decrypt_encrypt key, Portable.encrypt_decrypt key, Portable.counterMode_injOn key⟩

end HocusPocus.Aes
