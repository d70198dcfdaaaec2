import CpuSched.Workload.Core
import Mathlib.Data.BitVec

/-!
# The pluggable policy interface

`include/sched/policy.h`: the view the engine lends to a policy, the slices a
policy hands back, and the table of hooks.  A hook is a partial function: `none`
stands for a failed `assert`, a call through a null pointer or a loop that does
not end.  Floating point enters only through the operations of `Double`, about
which nothing is assumed.
-/

namespace CpuSched

/-- The operations on `double` that the simulator performs.  No law is assumed,
so a statement over `Double` holds whatever the arithmetic rounds to. -/
class Double (D : Type) where
  /-- `(double)x`. -/
  ofInt : Int → D
  add : D → D → D
  sub : D → D → D
  mul : D → D → D
  div : D → D → D
  /-- `a < b`. -/
  lt : D → D → Bool
  /-- `a <= b`. -/
  le : D → D → Bool
  /-- `isfinite`. -/
  isFinite : D → Bool
  /-- The bit pattern, as `memcpy` reads it. -/
  bits : D → BitVec 64

/-- Lean's own doubles. -/
instance : Double Float where
  ofInt := Float.ofInt
  add := (· + ·)
  sub := (· - ·)
  mul := (· * ·)
  div := (· / ·)
  lt a b := decide (a < b)
  le a b := decide (a ≤ b)
  isFinite := Float.isFinite
  bits a := a.toBits.toBitVec

/-- `SCHED_NO_DEADLINE`. -/
def schedNoDeadline : Int := int64Max

/-- The read-only view of the simulation that the engine lends to a policy. -/
structure SchedView (D : Type) where
  procs : Nat → Process
  n : Nat
  cores : Nat
  csCost : Int
  now : Int
  /-- Remaining ticks of each process's current CPU burst. -/
  remaining : Nat → Int
  /-- True length of each process's current CPU burst. -/
  burstLen : Nat → Int
  /-- Predicted length of the current CPU burst; `none` is the oracle. -/
  predicted : Option (Nat → D)

/-- `PolicyParams`. -/
structure PolicyParams where
  quantum : Int := 2
  aging : Int := 0
  mlfqLevels : Nat := 3
  mlfqQuanta : Nat → Int := fun l => 2 * 2 ^ l
  mlfqAllotment : Nat → Int := fun l => 2 * 2 ^ l
  mlfqBoost : Int := 0
  seed : BitVec 64 := 1
  cfsLatency : Int := 24
  cfsMinGran : Int := 3

/-- A decision: who runs, for how many ticks, and until when at the latest. -/
structure Slice where
  proc : Nat
  length : Int
  deadline : Int
  deriving DecidableEq, Repr

/-- The table of hooks.  An absent optional hook is `none`. -/
structure Policy (D : Type) where
  /-- What `self` points to. -/
  State : Type
  name : String
  preemptive : Bool
  preemptOnReady : Bool
  usesQuantum : Bool
  usesEstimates : Bool
  workConserving : Bool
  offline : Bool
  create : SchedView D → PolicyParams → Except SchedError State
  onArrival : SchedView D → State → Nat → Option State
  onReady : Option (SchedView D → State → Nat → Option State)
  nextSlice : SchedView D → State → Option (State × Option Slice)
  onPreempt : Option (SchedView D → State → Nat → Int → Option State)
  onBlock : Option (SchedView D → State → Nat → Int → Option State)
  onComplete : Option (SchedView D → State → Nat → Int → Option State)

/-- What `wake_blocked` calls: `on_ready`, or `on_arrival` when it is null. -/
def Policy.wakeHook {D : Type} (P : Policy D) : SchedView D → P.State → Nat → Option P.State :=
  P.onReady.getD P.onArrival

/-! ## Helpers for policies that rank by burst length -/

section Ranking

variable {D : Type} [Double D]

/-- `(a > b) - (a < b)`. -/
def cmpInt (a b : Int) : Int :=
  (if b < a then 1 else 0) - (if a < b then 1 else 0)

/-- `(a > b) - (a < b)` on doubles. -/
def cmpDouble (a b : D) : Int :=
  (if Double.lt b a then 1 else 0) - (if Double.lt a b then 1 else 0)

/-- `sched_cmp_expected_burst`. -/
def schedCmpExpectedBurst (v : SchedView D) (a b : Nat) : Int :=
  match v.predicted with
  | none => cmpInt (v.burstLen a) (v.burstLen b)
  | some predicted => cmpDouble (predicted a) (predicted b)

/-- `max(prediction - ticks already run, 0)`. -/
def expectedRemaining (v : SchedView D) (predicted : Nat → D) (a : Nat) : D :=
  let r := Double.sub (predicted a) (Double.ofInt (v.burstLen a - v.remaining a))
  if Double.lt r (Double.ofInt 0) then Double.ofInt 0 else r

/-- `sched_cmp_expected_remaining`. -/
def schedCmpExpectedRemaining (v : SchedView D) (a b : Nat) : Int :=
  match v.predicted with
  | none => cmpInt (v.remaining a) (v.remaining b)
  | some predicted =>
      cmpDouble (expectedRemaining v predicted a) (expectedRemaining v predicted b)

end Ranking

end CpuSched
