import InputCovSched.Symbolic.HBGraphAcyclic
import InputCovSched.Symbolic.RwlockOrder
import InputCovSched.Instr.ConstraintPlacement
import InputCovSched.Instr.SelectorComplete
import InputCovSched.Runtime.ScheduleCodec
import InputCovSched.Runtime.Progress
import InputCovSched.Runtime.Region
import InputCovSched.Runtime.FragmentsPlan
import InputCovSched.Runtime.MutexReplayAgree
import InputCovSched.Klee.CexCache
import InputCovSched.Klee.StpBuilder
import InputCovSched.Klee.StpTerms
import InputCovSched.Klee.ArrayConstraint
import InputCovSched.Klee.CexParts
import InputCovSched.Explore.LiveMemory
import InputCovSched.Explore.BranchTargets
import InputCovSched.Runtime.OnceReplay
import InputCovSched.Explore.DepthFirstStates
import InputCovSched.Explore.DepthFirstRegions
import InputCovSched.Explore.PrecondSliceTrace
import InputCovSched.Cloud9.Protocols
import InputCovSched.Runtime.SemReplayAgree
import InputCovSched.Explore.FrontierHistory
import InputCovSched.Runtime.Snapshot
import InputCovSched.Runtime.Spinlock
import InputCovSched.Symbolic.SymbolicInit
import InputCovSched.Explore.PathSummaries
import InputCovSched.Runtime.ThreadSlots
import InputCovSched.Explore.Instantiate
import InputCovSched.Instr.CallCtxs
import InputCovSched.Instr.RemoveUpdates
import InputCovSched.Runtime.RangeInput
import InputCovSched.Runtime.Printf
