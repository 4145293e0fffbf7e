import HocusPocus.Duplex.Run
import HocusPocus.Field.Exact
import HocusPocus.Field.Wire
import HocusPocus.FastResidue
import HocusPocus.SmallSetVole
import HocusPocus.VolePlus
import HocusPocus.Zkp.Sound
import HocusPocus.Zkp.Commit
import HocusPocus.Consistency
import HocusPocus.Oprf.Witness
import HocusPocus.Oprf.Transcript
import HocusPocus.Oprf.Challenge
import HocusPocus.Oprf.Honest
import HocusPocus.Oprf.Abort
import HocusPocus.Oprf.EndToEnd
import HocusPocus.Zkp.Overflow
import HocusPocus.Field.Canonical
import HocusPocus.Oprf.Offsets
import HocusPocus.Oprf.Openings
import HocusPocus.Zkp.Masking
import HocusPocus.Zkp.VerifierLimbs
import HocusPocus.Field.Lazy
import HocusPocus.SymbolLimbs
import HocusPocus.Main
import HocusPocus.Field.Pow
import HocusPocus.Field.Roots
import HocusPocus.GenerateFastOps
import HocusPocus.Arith.Largest
import HocusPocus.Arith.Arrangements
import HocusPocus.Params.Dpub
import HocusPocus.Params.CheatingCount
import HocusPocus.Params.DeltaPub
import HocusPocus.Params.Sweep
import HocusPocus.Arith.Lanes
import HocusPocus.SafeTrunc.Keys
import HocusPocus.SafeTrunc.Roots
import HocusPocus.SafeTrunc.Symbols
import HocusPocus.Oprf.KeyGuard
import HocusPocus.Field.Square
import HocusPocus.Field.Locals
import HocusPocus.Aes
import HocusPocus.AesPortable
import HocusPocus.Arith.PuncturedTree
import HocusPocus.Pprf.Model
import HocusPocus.Oprf.Setup
import HocusPocus.OtExt.TransposeSse
import HocusPocus.BufferedPrng
import HocusPocus.Oprf.Cheating
import HocusPocus.Oprf.ClientPrivacy
import HocusPocus.Oprf.ServerPrivacy
import HocusPocus.Blake2.Sse
import HocusPocus.Oprf.Steering
