import HocusPocus.Machine.Blocks
import HocusPocus.VoleUtils

/-!
# AES and what is built from it (`AES.h`, `PprfUtil.h`, `RegularPprf.cpp`)

The cipher is a parameter: encryption under a key, and one round. `expand`, the stream a seed is
expanded to, is the cipher in counter mode.
-/

namespace HocusPocus

open Machine

/-- `ZeroBlock`. -/
def zeroBlock : Block := zeroBytes 16

/-- `toBlock(high_u64, low_u64)`. -/
def toBlock (highU64 lowU64 : Nat) : Block := ofLanes highU64 lowU64

/-- `AES`, as functions of the key and the block. -/
structure Aes where
  /-- `AES(key).ecbEncBlock(plaintext)`. -/
  ecbEncBlock : Block → Block → Block
  /-- `AES::roundEnc(state, roundKey)`. -/
  roundEnc : Block → Block → Block

namespace Aes

variable (aes : Aes)

/-- `ecbEncCounterMode(baseIdx, ..)`: block `i` of the result. -/
def ecbEncCounterMode (key baseIdx : Block) (i : Nat) : Block :=
  aes.ecbEncBlock key (addEpi64 baseIdx (toBlock 0 i))

/-- `hashBlock`: `AES(x) ^ x`. -/
def hashBlock (key x : Block) : Block := aes.ecbEncBlock key x ^^^ x

/-- The key of `mAesFixedKey`. -/
def fixedKey : Block := toBlock 45345336 (2 ^ 64 - 103343430)

/-- The key of `gGgmAes[i]`. -/
def ggmKey (i : Nat) : Block := if i = 0 then toBlock 0 3242342 else toBlock 0 8993849

/-- The stream of `PRNG(seed)`: the blocks 0, 1, .. encrypted, byte by byte. -/
def expand (seed : Block) (i : Nat) : UInt8 :=
  (aes.ecbEncCounterMode seed zeroBlock (i / 16)).toList.getD (i % 16) 0

end Aes

end HocusPocus
