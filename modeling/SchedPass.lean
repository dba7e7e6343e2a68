import SchedPass.Lib.ByteMem
import SchedPass.Lib.CheckedCalls
import SchedPass.Lib.CommonPrefix
import SchedPass.Lib.Custody
import SchedPass.Lib.Delimited
import SchedPass.Lib.FloatSign
import SchedPass.Lib.FoldUntil
import SchedPass.Lib.Growing
import SchedPass.Lib.JobOrders
import SchedPass.Lib.KeyGroups
import SchedPass.Lib.LeastSquares
import SchedPass.Lib.ListScheduling
import SchedPass.Lib.Numerals
import SchedPass.Lib.Observed
import SchedPass.Lib.OnlineSoftmax
import SchedPass.Lib.PermutesBelow
import SchedPass.Lib.RunSearch
import SchedPass.Lib.Runs
import SchedPass.Lib.Spans
import SchedPass.Lib.Ssa
import SchedPass.Lib.Worklist
import SchedPass.Util
import SchedPass.Weave.AsArgument
import SchedPass.Weave.Builder
import SchedPass.Weave.Computed
import SchedPass.Weave.Edits
import SchedPass.Weave.Emitted
import SchedPass.Weave.Exec
import SchedPass.Weave.HandOver
import SchedPass.Weave.Indirect
import SchedPass.Weave.Instrument
import SchedPass.Weave.Invisible
import SchedPass.Weave.Ir
import SchedPass.Weave.LoopRun
import SchedPass.Weave.MaskedRun
import SchedPass.Weave.MuForm
import SchedPass.Weave.NullSlots
import SchedPass.Weave.OneTask
import SchedPass.Weave.Operators
import SchedPass.Weave.Origin
import SchedPass.Weave.Overlap
import SchedPass.Weave.Policy
import SchedPass.Weave.Remap
import SchedPass.Weave.Remapped
import SchedPass.Weave.ReplaceReads
import SchedPass.Weave.Shed
import SchedPass.Weave.ShedEdits
import SchedPass.Weave.ShedLoop
import SchedPass.Weave.ShedMasks
import SchedPass.Weave.ShedSites
import SchedPass.Weave.Sites
import SchedPass.Weave.Split
import SchedPass.Weave.StreamLoop
import SchedPass.Weave.Stretch
import SchedPass.Weave.Timer
import SchedPass.Weave.Weaver
import SchedPass.WorkQueue.Body
import SchedPass.WorkQueue.ClcAxis
import SchedPass.WorkQueue.CloneSites
import SchedPass.WorkQueue.Driver
import SchedPass.WorkQueue.Exactly
import SchedPass.WorkQueue.Launches
import SchedPass.WorkQueue.Lockstep
import SchedPass.WorkQueue.Machine
import SchedPass.WorkQueue.NullSlots
import SchedPass.WorkQueue.Progress
import SchedPass.Plane.Consistent
import SchedPass.Plane.Order
import SchedPass.Plane.OrderQuality
import SchedPass.Plane.OrderShape
import SchedPass.Plane.SchedPlane
import SchedPass.Plane.TimerView
import SchedPass.Plane.View
import SchedPass.Plane.Windows
import SchedPass.Plane.ZeroPlane
import SchedPass.Plugin.Attribution
import SchedPass.Plugin.Estimate
import SchedPass.Plugin.FailureAtomic
import SchedPass.Plugin.Hooks
import SchedPass.Plugin.Overlap
import SchedPass.Plugin.PerRequest
import SchedPass.Plugin.PlanReader
import SchedPass.Plugin.Probe
import SchedPass.Plugin.ProbeRows
import SchedPass.Plugin.ProbeSample
import SchedPass.Plugin.TableInvariant
import SchedPass.Runtime.ArenaLife
import SchedPass.Runtime.CtrlCodec
import SchedPass.Runtime.HostRt
import SchedPass.Runtime.PrefixInstalls
import SchedPass.Runtime.Publishing
import SchedPass.Runtime.ShedBudget
import SchedPass.Runtime.StubName
import SchedPass.Runtime.TauRows
import SchedPass.Jit.Accesses
import SchedPass.Jit.ArmProcess
import SchedPass.Jit.BakedWindows
import SchedPass.Jit.CacheKey
import SchedPass.Jit.FromEnv
import SchedPass.Jit.NvccShim
import SchedPass.Jit.PreArm
import SchedPass.Jit.Translate
import SchedPass.Controller.ControlPlane
import SchedPass.Controller.Fit
import SchedPass.Controller.Hysteresis
import SchedPass.Moe.ExpertCap
import SchedPass.Moe.RegisterCap
import SchedPass.Trace.Replay
