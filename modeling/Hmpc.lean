import Hmpc.Lib.Limbs
import Hmpc.Lib.Loops
import Hmpc.Lib.Machine
import Hmpc.Lib.Map
import Hmpc.Lib.Matching
import Hmpc.Lib.Numbering
import Hmpc.Net.Message
import Hmpc.Net.Wire
import Hmpc.Net.Buffer
import Hmpc.Net.Consistency
import Hmpc.Net.ConsistencyRun
import Hmpc.Net.ConsistencyHonest
import Hmpc.Net.ConsistencyErrors
import Hmpc.Net.Signed
import Hmpc.Net.Server
import Hmpc.Net.Session
import Hmpc.Net.Agreement
import Hmpc.Net.Replay
import Hmpc.Net.Queue
import Hmpc.Net.QueueRun
import Hmpc.Net.QueueMatching
import Hmpc.Core.Bits
import Hmpc.Lib.Digits
import Hmpc.Core.BitSpan
import Hmpc.Comp.Plan
import Hmpc.Comp.RandomCapability
import Hmpc.Core.Compare
import Hmpc.Core.Divide
import Hmpc.Core.GreatestCommonDivisor
import Hmpc.Core.Modulo
import Hmpc.Crypto.Cipher
import Hmpc.Detail.BitReverse
import Hmpc.Expr.Cipher
import Hmpc.Expr.Elements
import Hmpc.Expr.BitMonomial
import Hmpc.Expr.Lhe
import Hmpc.Net.Connection
import Hmpc.Net.ConsistencyWait
import Hmpc.Net.Ffi
import Hmpc.Net.MessageIDs
import Hmpc.Net.QueueGate
import Hmpc.Broadcast
import Hmpc.Mdsize
import Hmpc.Comp.Inlining
import Hmpc.Lib.BitScan
import Hmpc.Core.BitScan
import Hmpc.Core.Checked
import Hmpc.Core.CheckedNum
import Hmpc.Core.CheckedDivide
import Hmpc.Ints.Pow
import Hmpc.Ints.PrimitiveRoot
import Hmpc.Ints.Division
import Hmpc.Ints.Numeric
import Hmpc.Core.Bitwise
import Hmpc.Ints.Uint
import Hmpc.Ints.Literals
import Hmpc.Ints.GreatestCommonDivisor
import Hmpc.Expr.TransformKernels
import Hmpc.Crypto.Splitting
import Hmpc.Random.Uniform
import Hmpc.Random.SignedUniform
import Hmpc.Random.Binomial
import Hmpc.Expr.MatrixProduct
import Hmpc.Expr.Mpc.Share
import Hmpc.Expr.Random.NumberGenerator
import Hmpc.Comp.Execution
import Hmpc.Net.Structure
import Hmpc.Net.StructureCalls
import Hmpc.Net.Termination
import Hmpc.Expr.Lhe.Circuit
import Hmpc.Expr.Lhe.Randomness
import Hmpc.Expr.Mpc.Opening
import Hmpc.Expr.Reduction
import Hmpc.Net.Client
import Hmpc.Comp.Evaluation
import Hmpc.Comp.Encryption
