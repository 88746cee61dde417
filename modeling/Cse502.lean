import Cse502.Flags.Compare
import Cse502.Cracking.Stores
import Cse502.Cracking.ReadModifyWrite
import Cse502.Cracking.MemCompares
import Cse502.Frontend.Redirect
import Cse502.Frontend.Streaming
import Cse502.Pipeline.WideRuns
import Cse502.Pipeline.RegPrograms
import Cse502.Pipeline.Squash
import Cse502.Pipeline.Listing
import Cse502.Memory.Loads
import Cse502.Warmup.Contents
import Cse502.Arithmetic.Unsigned
import Cse502.Pipeline.QueueLoops
import Cse502.Cracking.Bookkeeping
import Cse502.Cracking.Multiply
import Cse502.Cracking.OneOperand
import Cse502.Pipeline.Monitor
import Cse502.Pipeline.StackPointer
import Cse502.Pipeline.StackRuns
import Cse502.Pipeline.SystemCalls
import Cse502.Library.CallStack
import Cse502.Pipeline.Calls
import Cse502.Arithmetic.Signed
import Cse502.Flags.Shifts
import Cse502.Flags.Tested
import Cse502.Library.Recency
import Cse502.Memory.Lru
import Cse502.Memory.Caches
import Cse502.Memory.Evictions
import Cse502.Library.WordBytes
import Cse502.Memory.Views
import Cse502.Library.FillOrder
import Cse502.Memory.Merges
import Cse502.Cracking.Immediates
import Cse502.Library.DelayQueue
import Cse502.Memory.Delivery
import Cse502.Library.RingDelay
import Cse502.Warmup.Delays
import Cse502.Pipeline.Bounded
import Cse502.Warmup.Effects
import Cse502.Library.Copies
import Cse502.Model.Boot
import Cse502.Memory.Loader
import Cse502.Memory.Arguments
import Cse502.Pipeline.BranchRuns
import Cse502.Pipeline.Progress
import Cse502.Machine.System
import Cse502.Machine.Runs
import Cse502.Machine.Booting
import Cse502.Model.Libc
import Cse502.Guest.Strings
import Cse502.Guest.Numbers
import Cse502.Library.Positional
import Cse502.Library.ArctanSeries
import Cse502.Model.Pi
import Cse502.Guest.Pi
