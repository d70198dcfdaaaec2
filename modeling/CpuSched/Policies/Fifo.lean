import CpuSched.Policy.Core
import CpuSched.Util.Queue

/-!
# First-come first-served and round robin

`src/policies/fcfs.c` and `src/policies/rr.c`.  Both keep the ready processes
in one ring buffer; they differ in the slice they ask for and in whether a
process may be handed back.
-/

namespace CpuSched

variable {D : Type}

/-! ## FCFS -/

/-- `fcfs_create`. -/
def fcfsCreate (view : SchedView D) (_ : PolicyParams) : Except SchedError Queue :=
  .ok (queueInit view.n)

/-- `fcfs_on_arrival`. -/
def fcfsOnArrival (_ : SchedView D) (ready : Queue) (proc : Nat) : Option Queue :=
  queuePush ready proc

/-- `fcfs_next_slice`. -/
def fcfsNextSlice (view : SchedView D) (ready : Queue) : Option (Queue × Option Slice) :=
  if ready.isEmpty then some (ready, none)
  else (queuePop ready).map fun (proc, ready) =>
    (ready, some { proc, length := view.remaining proc, deadline := schedNoDeadline })

/-- `POLICY_FCFS`. -/
def policyFcfs : Policy D where
  State := Queue
  name := "fcfs"
  preemptive := false
  preemptOnReady := false
  usesQuantum := false
  usesEstimates := false
  workConserving := true
  offline := false
  create := fcfsCreate
  onArrival := fcfsOnArrival
  onReady := none
  nextSlice := fcfsNextSlice
  onPreempt := none
  onBlock := none
  onComplete := none

/-! ## Round robin -/

/-- `Rr`. -/
structure Rr where
  ready : Queue
  quantum : Int

/-- `rr_create`. -/
def rrCreate (view : SchedView D) (params : PolicyParams) : Except SchedError Rr :=
  .ok { ready := queueInit view.n, quantum := params.quantum }

/-- `rr_enqueue`. -/
def rrEnqueue (_ : SchedView D) (s : Rr) (proc : Nat) : Option Rr :=
  (queuePush s.ready proc).map fun ready => { s with ready }

/-- `rr_requeue`. -/
def rrRequeue (view : SchedView D) (s : Rr) (proc : Nat) (_ : Int) : Option Rr :=
  rrEnqueue view s proc

/-- `rr_next_slice`. -/
def rrNextSlice (_ : SchedView D) (s : Rr) : Option (Rr × Option Slice) :=
  if s.ready.isEmpty then some (s, none)
  else (queuePop s.ready).map fun (proc, ready) =>
    ({ s with ready }, some { proc, length := s.quantum, deadline := schedNoDeadline })

/-- `POLICY_RR`. -/
def policyRr : Policy D where
  State := Rr
  name := "rr"
  preemptive := true
  preemptOnReady := false
  usesQuantum := true
  usesEstimates := false
  workConserving := true
  offline := false
  create := rrCreate
  onArrival := rrEnqueue
  onReady := none
  nextSlice := rrNextSlice
  onPreempt := some rrRequeue
  onBlock := none
  onComplete := none

end CpuSched
