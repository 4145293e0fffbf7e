import HocusPocus.Aes
import HocusPocus.Arith.PuncturedTree
import HocusPocus.Machine.Bits

/-!
# The puncturable PRF (`RegularPprf.h`, `PprfUtil.h`)

The sender grows `mPntCount` trees of seeds with `mDomain` leaves each, eight at a time. For each
level it sends the two sums of the nodes on either side, masked by the base OTs, so the receiver
learns one of them and with it every node but those above its point. The output is by tree index,
and the punctured leaves are not programmed.

A level of eight trees is read as a function of the node and the tree.
-/

namespace HocusPocus

open Machine Duplex Arith

/-- `log2ceil`: `bit_width(x - 1)`. -/
def log2ceil (x : Nat) : Nat := (x - 1).size

/-- `divCeil`. -/
def divCeil (val d : Nat) : Nat := (val + d - 1) / d

/-- What `configure` leaves: the number of leaves of a tree and the number of trees. -/
structure RegularPprf where
  mDomain : Nat
  mPntCount : Nat
  even : mDomain % 2 = 0
  two_le : 2 ≤ mDomain

/-- A level of eight trees: node `i` of tree `j`. -/
abbrev TreeLevel := Nat → Nat → Block

namespace RegularPprf

/-- `configure`, which throws unless the domain is even and at least 2. -/
def configure (domainSize pointCount : Nat) : Option RegularPprf :=
  if h : domainSize % 2 = 0 ∧ 2 ≤ domainSize then some ⟨domainSize, pointCount, h.1, h.2⟩ else none

variable (aes : Aes) (expand : Block → Nat → UInt8) (p : RegularPprf)

/-- `mDepth`. -/
def mDepth : Nat := log2ceil p.mDomain

/-- `baseOtCount`. -/
def baseOtCount : Nat := p.mDepth * p.mPntCount

/-- The number of trees in the batch that starts with tree `treeIdx`. -/
def remTrees (treeIdx : Nat) : Nat := min 8 (p.mPntCount - treeIdx)

/-- `divCeil(mDomain, 1ull << (mDepth - d))`. -/
def levelWidth (d : Nat) : Nat := divCeil p.mDomain (1 <<< (p.mDepth - d))

/-- `child0` and `child1` of an inner node. -/
def innerChild (side : Nat) (parent : Block) : Block :=
  let child1 := aes.ecbEncBlock Aes.fixedKey parent
  if side = 0 then aes.roundEnc child1 parent else addEpi64 child1 parent

/-- `gGgmAes[keep].hashBlock(parent)`. -/
def leafChild (keep : Nat) (parent : Block) : Block := aes.hashBlock (Aes.ggmKey keep) parent

/-- The mask of the message of a leaf: the first 16 bytes of the expanded base OT. -/
def leafMask (baseOT : Block) : Block := (Prng.ofSeed expand baseOT).bytes 16

/-- `copyOut` by tree index. -/
def copyOut (leaf : TreeLevel) (treeIndex : Nat) (output : Nat → Block) (i : Nat) : Block :=
  let tree := i / p.mDomain
  if treeIndex ≤ tree ∧ tree < treeIndex + p.remTrees treeIndex then
    leaf (i % p.mDomain) (tree - treeIndex)
  else output i

/-- The position of a pair of `encSums` in its batch. -/
def sumIndex (rem d j : Nat) : Nat := d * rem + j

/-! ## The sender -/

namespace Sender

variable (mBaseOTs : Nat → Nat → Nat → Block) (seed : Block) (treeIdx : Nat)

/-- `setBase`: base OT `c` of tree `t`. -/
def setBase (baseMessages : Nat → Nat → Block) (t c : Nat) : Nat → Block :=
  baseMessages (t * p.mDepth + c)

/-- `levels[d]`. -/
def level : Nat → TreeLevel
  | 0 => fun _ j => aes.ecbEncCounterMode Aes.fixedKey (seed ^^^ toBlock 0 treeIdx) j
  | d + 1 => fun childIdx j => children (innerChild aes) (fun i => level d i j) childIdx

/-- `sums[k][j]` of the children of level `d`. -/
def sum (d k j : Nat) : Block :=
  accumulate (· ^^^ ·) (p.levelWidth d) zeroBlock
    fun parentIdx => innerChild aes k (level aes seed treeIdx d parentIdx j)

/-- The pair of `encSums` for level `d` of tree `j`. -/
def encSum (d j k : Nat) : Block :=
  sum aes p seed treeIdx d k j ^^^ mBaseOTs (treeIdx + j) (p.mDepth - 1 - d) (1 - k)

/-- `leafLevel`. -/
def leafLevel : TreeLevel := fun childIdx j =>
  children (leafChild aes) (fun i => level aes seed treeIdx (p.mDepth - 1) i j) childIdx

/-- `leafSums[k][j]`. -/
def leafSum (k j : Nat) : Block :=
  accumulate addEpi64 (p.levelWidth (p.mDepth - 1)) zeroBlock
    fun parentIdx => leafChild aes k (level aes seed treeIdx (p.mDepth - 1) parentIdx j)

/-- The two messages of `leafMsgs` for tree `j`. -/
def leafMsg (j k : Nat) : Block :=
  leafSum aes p seed treeIdx k j ^^^ leafMask expand (mBaseOTs (treeIdx + j) 0 (1 ^^^ k))

/-- The blocks of `buff`: the pairs of `encSums`, then those of `leafMsgs`. -/
def blocks : List Block :=
  let rem := p.remTrees treeIdx
  grid ((p.mDepth - 1) * rem) 2
      (fun r k => encSum aes p mBaseOTs seed treeIdx (r / rem) (r % rem) k)
    ++ grid rem 2 (leafMsg aes expand p mBaseOTs seed treeIdx)

end Sender

/-- The trees `treeIndex` to `treeIndex + 7`: they are grown, their buffer is sent and their leaves
are copied out. -/
def senderBatch (mBaseOTs : Nat → Nat → Nat → Block) (seed : Block) (output : Nat → Block)
    (batch : Nat) : Party (Nat → Block) := do
  let treeIndex := 8 * batch
  Proc.put (concat (Sender.blocks aes expand p mBaseOTs seed treeIndex))
  return p.copyOut (Sender.leafLevel aes p seed treeIndex) treeIndex output

/-- `RegularPprfSender::expand`. -/
def senderExpand (mBaseOTs : Nat → Nat → Nat → Block) (seed : Block) : Party (Nat → Block) :=
  (List.range (divCeil p.mPntCount 8)).foldlM (senderBatch aes expand p mBaseOTs seed)
    fun _ => zeroBlock

/-! ## The receiver -/

namespace Receiver

/-- `sampleChoiceBits`: bit `k` of the point of tree `j`. -/
def sampleChoiceBits (prng : Prng) (j k : Nat) : Bool :=
  (leValue ((prng.skip (8 * j)).bytes 8) % p.mDomain).testBit k

/-- The choice bits as one vector, tree by tree: what `sampleChoiceBits` returns. -/
def choices (mBaseChoices : Nat → Nat → Bool) (m : Nat) : Bool :=
  mBaseChoices (m / p.mDepth) (m % p.mDepth)

/-- The generator after `sampleChoiceBits`. -/
def afterSample (prng : Prng) : Prng := prng.skip (8 * p.mPntCount)

/-- `setBase`: base OT `c` of tree `t`. -/
def setBase (baseMessages : Nat → Block) (t c : Nat) : Block := baseMessages (t * p.mDepth + c)

/-- `getPoints` by tree index. -/
def getPoints (mBaseChoices : Nat → Nat → Bool) (j : Nat) : Nat :=
  orBits (mBaseChoices j) p.mDepth

/-- `out`: `activeChildIdx & ~1` and `activeChildIdx | 1`. -/
def out (activeChildIdx k : Nat) : Nat :=
  if k = 0 then activeChildIdx / 2 * 2 else activeChildIdx ||| 1

variable (mBaseChoices : Nat → Nat → Bool) (mBaseOTs : Nat → Nat → Block) (treeIdx : Nat)
  (buff : Bytes)

/-- `theirSums`: entry `k` of the pair for level `d` of tree `j`. -/
def theirSum (d j k : Nat) : Block := block 16 buff (2 * sumIndex (p.remTrees treeIdx) d j + k)

/-- `leafMsg`: message `k` for tree `j`. -/
def leafMsg (j k : Nat) : Block :=
  block 16 buff (2 * ((p.mDepth - 1) * p.remTrees treeIdx) + (2 * j + k))

/-- `levels[1]`. -/
def firstLevel : TreeLevel := fun i j =>
  let active := (mBaseChoices (j + treeIdx) (p.mDepth - 1)).toNat
  if i = active ^^^ 1 then
    mBaseOTs (j + treeIdx) (p.mDepth - 1) ^^^ theirSum p treeIdx buff 0 j (active ^^^ 1)
  else zeroBlock

/-- `inactiveChildValues`. -/
def inactiveChildValue (k : Nat) : Block :=
  if k = 0 then aes.roundEnc (aes.ecbEncBlock Aes.fixedKey zeroBlock) zeroBlock
  else aes.ecbEncBlock Aes.fixedKey zeroBlock

/-- `mySums[k][j]` of the children of level `d`. -/
def mySum (level0 : TreeLevel) (d k j : Nat) : Block :=
  accumulate (· ^^^ ·) (p.levelWidth d) (inactiveChildValue aes k)
    fun parentIdx => innerChild aes k (level0 parentIdx j)

/-- `levels[d + 1]` from `levels[d]`. -/
def nextLevel (d : Nat) (level0 : TreeLevel) : TreeLevel := fun i j =>
  let leafIdx := getPoints p mBaseChoices (j + treeIdx)
  let missingChildIdx := leafIdx >>> (p.mDepth - 1 - d)
  let siblingIdx := missingChildIdx ^^^ 1
  let notAi := siblingIdx &&& 1
  -- the two nodes are written after the level is expanded, the missing one last
  if i = missingChildIdx then zeroBlock
  else if i = siblingIdx then
    theirSum p treeIdx buff d j notAi ^^^ mySum aes p level0 d notAi j
      ^^^ mBaseOTs (j + treeIdx) (p.mDepth - 1 - d)
  else children (innerChild aes) (fun i => level0 i j) i

/-- `levels[d + 1]`. -/
def level : Nat → TreeLevel
  | 0 => firstLevel p mBaseChoices mBaseOTs treeIdx buff
  | d + 1 => nextLevel aes p mBaseChoices mBaseOTs treeIdx buff (d + 1) (level d)

/-- `leafSums[k][j]`; a tree with two leaves has no level to add up. -/
def leafSum (k j : Nat) : Block :=
  if 1 < p.mDepth then
    accumulate addEpi64 (p.levelWidth (p.mDepth - 1))
      (subEpi64 zeroBlock (leafChild aes k zeroBlock))
      fun parentIdx => leafChild aes k
        (level aes p mBaseChoices mBaseOTs treeIdx buff (p.mDepth - 2) parentIdx j)
  else zeroBlock

/-- `leafLevel`. -/
def leafLevel : TreeLevel := fun i j =>
  let activeChildIdx := getPoints p mBaseChoices (j + treeIdx)
  let notAi := (activeChildIdx ^^^ 1) &&& 1
  if i = out activeChildIdx notAi then
    subEpi64 (leafMsg p treeIdx buff j notAi ^^^ leafMask expand (mBaseOTs (j + treeIdx) 0))
      (leafSum aes p mBaseChoices mBaseOTs treeIdx buff notAi j)
  else if i = out activeChildIdx (notAi ^^^ 1) then zeroBlock
  else children (leafChild aes)
    (fun i => level aes p mBaseChoices mBaseOTs treeIdx buff (p.mDepth - 2) i j) i

end Receiver

/-- The trees `treeIndex` to `treeIndex + 7`. -/
def receiverBatch (mBaseChoices : Nat → Nat → Bool) (mBaseOTs : Nat → Nat → Block)
    (output : Nat → Block) (batch : Nat) : Party (Nat → Block) := do
  let treeIndex := 8 * batch
  let rem := p.remTrees treeIndex
  let buff ← recvBytes (16 * (2 * ((p.mDepth - 1) * rem) + 2 * rem))
  return p.copyOut
    (Receiver.leafLevel aes expand p mBaseChoices mBaseOTs treeIndex buff) treeIndex output

/-- `RegularPprfReceiver::expand`. -/
def receiverExpand (mBaseChoices : Nat → Nat → Bool) (mBaseOTs : Nat → Nat → Block) :
    Party (Nat → Block) :=
  (List.range (divCeil p.mPntCount 8)).foldlM (receiverBatch aes expand p mBaseChoices mBaseOTs)
    fun _ => zeroBlock

end RegularPprf

end HocusPocus
