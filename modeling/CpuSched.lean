import CpuSched.Engine.Assertions
import CpuSched.Engine.Placement
import CpuSched.Engine.Schedule
import CpuSched.Policies.Protocol
import CpuSched.Reference.Policies
import CpuSched.Engine.Service
import CpuSched.Engine.Contexts
import CpuSched.Engine.Conserving
import CpuSched.Metrics.Waiting
import CpuSched.Policies.PrioritySelection
import CpuSched.Policies.SrtfOptimal
import CpuSched.Policies.OptNpOptimal
import CpuSched.Policies.LotterySelection
import CpuSched.Policies.MlfqAllotments
import CpuSched.Policies.HrrnSelection
import CpuSched.Policies.AgingDeadlines
import CpuSched.Policies.EngineCalls
import CpuSched.Policies.OptNpArithmetic
import CpuSched.Policies.IdlePeriods
import CpuSched.Policies.StableKeys
import CpuSched.Engine.SegmentCap
import CpuSched.Policies.LargeQuantum
import CpuSched.Reference.Agreement
import CpuSched.Policies.NonPreemptive
import CpuSched.Reference.Differential
import CpuSched.Policies.RoundRobinWaiting
import CpuSched.Policies.ReadyOrder
import CpuSched.Policies.HrrnGroups
import CpuSched.Policies.PriorityTreap
import CpuSched.Metrics.Machines
import CpuSched.Metrics.Reported
import CpuSched.Metrics.Sentinel
import CpuSched.Metrics.Fairness
import CpuSched.Metrics.Predictions
import CpuSched.Cli.Accepted
import CpuSched.Cli.Reports
import CpuSched.Io.CsvComplete
import CpuSched.Io.Interactive
import CpuSched.Io.JsonReport
import CpuSched.Io.Generated
