import CpuSched.Policy.Core
import CpuSched.Util.Heap

/-!
# Stride scheduling and CFS-lite

`src/policies/stride.c` and `src/policies/cfs.c`: the ready processes in a
binary heap ordered by a virtual time that advances with the ticks a process
runs, slower for a process with more weight.
-/

namespace CpuSched

variable {D : Type}

/-- The order `(key, pid)` of both heaps. -/
def lessByPid (view : SchedView D) (key : Nat → Int) (a b : Nat) : Bool :=
  if key a ≠ key b then key a < key b else (view.procs a).pid < (view.procs b).pid

/-! ## Stride -/

/-- `STRIDE1`. -/
def stride1 : Int := 1048576

/-- `Stride`. -/
structure Stride where
  quantum : Int
  pass : Nat → Int
  vtime : Int
  ready : Heap

/-- `stride_of`. -/
def strideOf (view : SchedView D) (p : Nat) : Int := stride1 / (view.procs p).tickets

/-- `stride_less`. -/
def strideLess (view : SchedView D) (s : Stride) (a b : Nat) : Bool := lessByPid view s.pass a b

/-- The range check of `stride_create`; `none` is its error. -/
def strideTotal (view : SchedView D) : List Nat → Int → Option Int
  | [], total => some total
  | i :: rest, total =>
      if int64Max / stride1 - total < (view.procs i).burst then none
      else strideTotal view rest (total + (view.procs i).burst)

/-- `stride_create`. -/
def strideCreate (view : SchedView D) (params : PolicyParams) : Except SchedError Stride :=
  match strideTotal view (List.range view.n) 0 with
  | none =>
      .error ⟨.usage, s!"stride: total CPU time must be below {int64Max / stride1} ticks"⟩
  | some _ =>
      .ok { quantum := params.quantum, pass := fun _ => 0, vtime := 0, ready := heapInit view.n }

/-- `heap_push(&s->ready, p)`. -/
def stridePush (view : SchedView D) (s : Stride) (p : Nat) : Option Stride :=
  (heapPush (strideLess view s) s.ready p).map fun ready => { s with ready }

/-- `stride_arrival`. -/
def strideArrival (view : SchedView D) (s : Stride) (p : Nat) : Option Stride :=
  stridePush view { s with pass := Function.update s.pass p s.vtime } p

/-- `stride_ready`. -/
def strideReady (view : SchedView D) (s : Stride) (p : Nat) : Option Stride :=
  let s := if s.pass p < s.vtime then { s with pass := Function.update s.pass p s.vtime } else s
  stridePush view s p

/-- `charge`. -/
def strideCharge (view : SchedView D) (s : Stride) (p : Nat) (ran : Int) : Stride :=
  { s with pass := Function.update s.pass p (s.pass p + strideOf view p * ran) }

/-- `stride_preempt`. -/
def stridePreempt (view : SchedView D) (s : Stride) (p : Nat) (ran : Int) : Option Stride :=
  stridePush view (strideCharge view s p ran) p

/-- `stride_done`. -/
def strideDone (view : SchedView D) (s : Stride) (p : Nat) (ran : Int) : Option Stride :=
  some (strideCharge view s p ran)

/-- `stride_next_slice`. -/
def strideNextSlice (view : SchedView D) (s : Stride) : Option (Stride × Option Slice) :=
  if s.ready.isEmpty then some (s, none)
  else (heapPop (strideLess view s) s.ready).map fun (proc, ready) =>
    ({ s with ready, vtime := s.pass proc },
      some { proc, length := s.quantum, deadline := schedNoDeadline })

/-- `POLICY_STRIDE`. -/
def policyStride : Policy D where
  State := Stride
  name := "stride"
  preemptive := true
  preemptOnReady := false
  usesQuantum := true
  usesEstimates := false
  workConserving := true
  offline := false
  create := strideCreate
  onArrival := strideArrival
  onReady := some strideReady
  nextSlice := strideNextSlice
  onPreempt := some stridePreempt
  onBlock := some strideDone
  onComplete := some strideDone

/-! ## CFS-lite -/

/-- `CFS_MAX_CPU`. -/
def cfsMaxCpu : Int := 1000000000000

/-- `NICE_TO_WEIGHT`, index `nice + 20`. -/
def niceToWeight : List Int :=
  [88761, 71755, 56483, 46273, 36291, 29154, 23254, 18705, 14949, 11916, 9548, 7620, 6100, 4904,
    3906, 3121, 2501, 1991, 1586, 1277, 1024, 820, 655, 526, 423, 335, 272, 215,
    172, 137, 110, 87, 70, 56, 45, 36, 29, 23, 18, 15]

/-- `Cfs`. -/
structure Cfs where
  latency : Int
  minGran : Int
  vruntime : Nat → Int
  minVruntime : Int
  runnableWeight : Int
  ready : Heap

/-- `weight`. -/
def cfsWeight (view : SchedView D) (p : Nat) : Int :=
  niceToWeight.getD ((view.procs p).nice + 20).toNat 0

/-- `vruntime_delta`. -/
def vruntimeDelta (ran w : Int) : Int :=
  ran / w * 2 ^ 26 + ran % w * 2 ^ 26 / w

/-- `cfs_less`. -/
def cfsLess (view : SchedView D) (s : Cfs) (a b : Nat) : Bool := lessByPid view s.vruntime a b

/-- `update_min_vruntime`. -/
def updateMinVruntime (s : Cfs) : Cfs :=
  if s.ready.isEmpty then s
  else
    let left := s.vruntime (s.ready.items 0)
    if s.minVruntime < left then { s with minVruntime := left } else s

/-- `cfs_create`. -/
def cfsCreate (view : SchedView D) (params : PolicyParams) : Except SchedError Cfs :=
  let total := ((List.range view.n).map fun i => (view.procs i).burst).sum
  if cfsMaxCpu < total ∨ 1000000000 < params.cfsLatency then
    .error ⟨.usage, s!"cfs: total CPU time must be <= {cfsMaxCpu} ticks and " ++
      "--cfs-latency <= 1000000000"⟩
  else
    .ok { latency := params.cfsLatency, minGran := params.cfsMinGran, vruntime := fun _ => 0,
          minVruntime := 0, runnableWeight := 0, ready := heapInit view.n }

/-- `enqueue`. -/
def cfsEnqueue (view : SchedView D) (s : Cfs) (p : Nat) : Option Cfs :=
  (heapPush (cfsLess view s) s.ready p).map fun ready => updateMinVruntime { s with ready }

/-- `cfs_arrival`. -/
def cfsArrival (view : SchedView D) (s : Cfs) (p : Nat) : Option Cfs :=
  cfsEnqueue view { s with
    vruntime := Function.update s.vruntime p s.minVruntime
    runnableWeight := s.runnableWeight + cfsWeight view p } p

/-- `cfs_ready`. -/
def cfsReady (view : SchedView D) (s : Cfs) (p : Nat) : Option Cfs :=
  let floor := s.minVruntime - s.latency * 2 ^ 16 / 2
  let s := if s.vruntime p < floor then
      { s with vruntime := Function.update s.vruntime p floor } else s
  cfsEnqueue view { s with runnableWeight := s.runnableWeight + cfsWeight view p } p

/-- The charge of `cfs_preempt` and `cfs_leave`. -/
def cfsCharge (view : SchedView D) (s : Cfs) (p : Nat) (ran : Int) : Cfs :=
  { s with vruntime :=
      Function.update s.vruntime p (s.vruntime p + vruntimeDelta ran (cfsWeight view p)) }

/-- `cfs_preempt`. -/
def cfsPreempt (view : SchedView D) (s : Cfs) (p : Nat) (ran : Int) : Option Cfs :=
  cfsEnqueue view (cfsCharge view s p ran) p

/-- `cfs_leave`. -/
def cfsLeave (view : SchedView D) (s : Cfs) (p : Nat) (ran : Int) : Option Cfs :=
  let s := cfsCharge view s p ran
  some { s with runnableWeight := s.runnableWeight - cfsWeight view p }

/-- `cfs_next_slice`; a zero `runnable_weight` would divide by zero. -/
def cfsNextSlice (view : SchedView D) (s : Cfs) : Option (Cfs × Option Slice) :=
  if s.ready.isEmpty then some (s, none)
  else do
    let (proc, ready) ← heapPop (cfsLess view s) s.ready
    let s := updateMinVruntime { s with ready }
    if s.runnableWeight = 0 then none
    else
      let slice := s.latency * cfsWeight view proc / s.runnableWeight
      some (s, some {
        proc
        length := if s.minGran < slice then slice else s.minGran
        deadline := schedNoDeadline })

/-- `POLICY_CFS`. -/
def policyCfs : Policy D where
  State := Cfs
  name := "cfs"
  preemptive := true
  preemptOnReady := false
  usesQuantum := false
  usesEstimates := false
  workConserving := true
  offline := false
  create := cfsCreate
  onArrival := cfsArrival
  onReady := some cfsReady
  nextSlice := cfsNextSlice
  onPreempt := some cfsPreempt
  onBlock := some cfsLeave
  onComplete := some cfsLeave

end CpuSched
