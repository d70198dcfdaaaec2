import CpuSched.Policy.Core
import CpuSched.Util.Heap

/-!
# Shortest job first and shortest remaining time first

`src/policies/sjf.c` and `src/policies/srtf.c`: the ready processes in a binary
heap ordered by the (expected) burst, or by what remains of it, then by arrival
and pid.
-/

namespace CpuSched

variable {D : Type} [Double D]

/-- The order `(c, arrival, pid)` that both comparators end in. -/
def lessByArrival (v : SchedView D) (c : Int) (a b : Nat) : Bool :=
  if c ≠ 0 then c < 0
  else if (v.procs a).arrival ≠ (v.procs b).arrival then
    (v.procs a).arrival < (v.procs b).arrival
  else (v.procs a).pid < (v.procs b).pid

/-- The pop that both policies end in: the whole remaining burst, no deadline. -/
def popWholeBurst (less : Nat → Nat → Bool) (view : SchedView D) (ready : Heap) :
    Option (Heap × Option Slice) :=
  if ready.isEmpty then some (ready, none)
  else (heapPop less ready).map fun (proc, ready) =>
    (ready, some { proc, length := view.remaining proc, deadline := schedNoDeadline })

/-! ## SJF -/

/-- `sjf_less`. -/
def sjfLess (v : SchedView D) (a b : Nat) : Bool :=
  lessByArrival v (schedCmpExpectedBurst v a b) a b

/-- `sjf_create`. -/
def sjfCreate (view : SchedView D) (_ : PolicyParams) : Except SchedError Heap :=
  .ok (heapInit view.n)

/-- `sjf_on_arrival`. -/
def sjfOnArrival (view : SchedView D) (ready : Heap) (proc : Nat) : Option Heap :=
  heapPush (sjfLess view) ready proc

/-- `sjf_next_slice`. -/
def sjfNextSlice (view : SchedView D) (ready : Heap) : Option (Heap × Option Slice) :=
  popWholeBurst (sjfLess view) view ready

/-- `POLICY_SJF`. -/
def policySjf : Policy D where
  State := Heap
  name := "sjf"
  preemptive := false
  preemptOnReady := false
  usesQuantum := false
  usesEstimates := true
  workConserving := true
  offline := false
  create := sjfCreate
  onArrival := sjfOnArrival
  onReady := none
  nextSlice := sjfNextSlice
  onPreempt := none
  onBlock := none
  onComplete := none

/-! ## SRTF -/

/-- `srtf_less`. -/
def srtfLess (v : SchedView D) (a b : Nat) : Bool :=
  lessByArrival v (schedCmpExpectedRemaining v a b) a b

/-- `srtf_create`. -/
def srtfCreate (view : SchedView D) (_ : PolicyParams) : Except SchedError Heap :=
  .ok (heapInit view.n)

/-- `srtf_push`. -/
def srtfPush (view : SchedView D) (ready : Heap) (proc : Nat) : Option Heap :=
  heapPush (srtfLess view) ready proc

/-- `srtf_requeue`. -/
def srtfRequeue (view : SchedView D) (ready : Heap) (proc : Nat) (_ : Int) : Option Heap :=
  srtfPush view ready proc

/-- `srtf_next_slice`. -/
def srtfNextSlice (view : SchedView D) (ready : Heap) : Option (Heap × Option Slice) :=
  popWholeBurst (srtfLess view) view ready

/-- `POLICY_SRTF`. -/
def policySrtf : Policy D where
  State := Heap
  name := "srtf"
  preemptive := true
  preemptOnReady := true
  usesQuantum := false
  usesEstimates := true
  workConserving := true
  offline := false
  create := srtfCreate
  onArrival := srtfPush
  onReady := none
  nextSlice := srtfNextSlice
  onPreempt := some srtfRequeue
  onBlock := none
  onComplete := none

end CpuSched
