import CpuSched.Policy.Core
import Mathlib.Logic.Function.Basic

/-!
# The multi-level feedback queue

`src/policies/mlfq.c`: one doubly linked queue of process indices per level, and
per-job fields that a boost resets lazily, when the job is next looked at.
-/

namespace CpuSched

variable {D : Type}

/-- `Mlfq`; `NIL` is `none`. -/
structure Mlfq where
  levels : Nat
  quanta : Nat → Int
  allot : Nat → Int
  boost : Int
  /-- Boosts applied so far: `floor(now / boost)`. -/
  epoch : Int
  head : Nat → Option Nat
  tail : Nat → Option Nat
  next : Nat → Option Nat
  prev : Nat → Option Nat
  level : Nat → Nat
  /-- Allotment used at the current level. -/
  used : Nat → Int
  /-- Rest of an interrupted slice; 0 is a fresh one. -/
  sliceLeft : Nat → Int
  /-- Boost epoch the per-job fields belong to. -/
  seenEpoch : Nat → Int

/-- `mlfq_create`. -/
def mlfqCreate (view : SchedView D) (params : PolicyParams) : Except SchedError Mlfq :=
  let boost := params.mlfqBoost
  let epoch := if 0 < boost then view.now / boost else 0
  .ok { levels := params.mlfqLevels, quanta := params.mlfqQuanta, allot := params.mlfqAllotment,
        boost, epoch, head := fun _ => none, tail := fun _ => none, next := fun _ => none,
        prev := fun _ => none, level := fun _ => 0, used := fun _ => 0, sliceLeft := fun _ => 0,
        seenEpoch := fun _ => epoch }

/-- `push_back`. -/
def mlfqPushBack (s : Mlfq) (l p : Nat) : Mlfq :=
  let s := { s with
    next := Function.update s.next p none
    prev := Function.update s.prev p (s.tail l) }
  let s := match s.tail l with
    | none => { s with head := Function.update s.head l (some p) }
    | some t => { s with next := Function.update s.next t (some p) }
  { s with tail := Function.update s.tail l (some p) }

/-- `push_front`. -/
def mlfqPushFront (s : Mlfq) (l p : Nat) : Mlfq :=
  let s := { s with
    prev := Function.update s.prev p none
    next := Function.update s.next p (s.head l) }
  let s := match s.head l with
    | none => { s with tail := Function.update s.tail l (some p) }
    | some h => { s with prev := Function.update s.prev h (some p) }
  { s with head := Function.update s.head l (some p) }

/-- `pop_front`, of a queue whose head is `p`. -/
def mlfqPopFront (s : Mlfq) (l p : Nat) : Mlfq :=
  let s := { s with head := Function.update s.head l (s.next p) }
  match s.head l with
  | none => { s with tail := Function.update s.tail l none }
  | some h => { s with prev := Function.update s.prev h none }

/-- One round of the concatenation loop of `maybe_boost`. -/
def boostLevel (s : Mlfq) (l : Nat) : Mlfq :=
  match s.head l with
  | none => s
  | some h =>
      let s := match s.tail 0 with
        | none => { s with head := Function.update s.head 0 (some h) }
        | some t => { s with
            next := Function.update s.next t (some h)
            prev := Function.update s.prev h (some t) }
      let s := { s with tail := Function.update s.tail 0 (s.tail l) }
      { s with
        head := Function.update s.head l none
        tail := Function.update s.tail l none }

/-- `maybe_boost`: concatenates the queues top to bottom into the top one when
a boost is due. -/
def maybeBoost (view : SchedView D) (s : Mlfq) : Mlfq :=
  if s.boost ≤ 0 then s
  else
    let epoch := view.now / s.boost
    if epoch = s.epoch then s
    else (List.range' 1 (s.levels - 1)).foldl boostLevel { s with epoch }

/-- `sync`: applies to `p` the boosts it has missed; the flag tells whether one
reset it. -/
def mlfqSync (s : Mlfq) (p : Nat) : Mlfq × Bool :=
  if s.seenEpoch p = s.epoch then (s, false)
  else ({ s with
    seenEpoch := Function.update s.seenEpoch p s.epoch
    level := Function.update s.level p 0
    used := Function.update s.used p 0
    sliceLeft := Function.update s.sliceLeft p 0 }, true)

/-- `mlfq_arrival`. -/
def mlfqArrival (view : SchedView D) (s : Mlfq) (p : Nat) : Option Mlfq :=
  let (s, _) := mlfqSync (maybeBoost view s) p
  let s := { s with
    level := Function.update s.level p 0
    used := Function.update s.used p 0
    sliceLeft := Function.update s.sliceLeft p 0 }
  some (mlfqPushBack s 0 p)

/-- `charge`; the flag tells whether `p` was demoted. -/
def mlfqCharge (s : Mlfq) (p : Nat) (ran : Int) : Mlfq × Bool :=
  let l := s.level p
  let s := { s with used := Function.update s.used p (s.used p + ran) }
  if l + 1 < s.levels ∧ s.allot l ≤ s.used p then
    ({ s with
      level := Function.update s.level p (l + 1)
      used := Function.update s.used p 0 }, true)
  else (s, false)

/-- `mlfq_preempt`. -/
def mlfqPreempt (view : SchedView D) (s : Mlfq) (p : Nat) (ran : Int) : Option Mlfq :=
  let (s, boosted) := mlfqSync (maybeBoost view s) p
  if boosted then some (mlfqPushBack s 0 p)
  else
    let s := { s with sliceLeft := Function.update s.sliceLeft p (s.sliceLeft p - ran) }
    let (s, demoted) := mlfqCharge s p ran
    if demoted = true ∨ s.sliceLeft p = 0 then
      let s := { s with sliceLeft := Function.update s.sliceLeft p 0 }
      some (mlfqPushBack s (s.level p) p)
    else some (mlfqPushFront s (s.level p) p)

/-- `mlfq_block`. -/
def mlfqBlock (view : SchedView D) (s : Mlfq) (p : Nat) (ran : Int) : Option Mlfq :=
  let (s, boosted) := mlfqSync (maybeBoost view s) p
  let s := if boosted then s else (mlfqCharge s p ran).1
  some { s with sliceLeft := Function.update s.sliceLeft p 0 }

/-- `mlfq_ready`. -/
def mlfqReady (view : SchedView D) (s : Mlfq) (p : Nat) : Option Mlfq :=
  let (s, _) := mlfqSync (maybeBoost view s) p
  let s := { s with sliceLeft := Function.update s.sliceLeft p 0 }
  some (mlfqPushBack s (s.level p) p)

/-- The slice of `mlfq_next_slice` for the head `p` of level `l`. -/
def mlfqSlice (s : Mlfq) (l p : Nat) : Mlfq × Slice :=
  let (s, _) := mlfqSync (mlfqPopFront s l p) p
  let left := if s.sliceLeft p = 0 then s.quanta l else s.sliceLeft p
  let length :=
    if l + 1 < s.levels ∧ s.allot l - s.used p < left then s.allot l - s.used p else left
  let deadline :=
    if 0 < s.boost ∧ s.epoch < int64Max / s.boost then (s.epoch + 1) * s.boost
    else schedNoDeadline
  ({ s with sliceLeft := Function.update s.sliceLeft p length }, { proc := p, length, deadline })

/-- `mlfq_next_slice`. -/
def mlfqNextSlice (view : SchedView D) (s : Mlfq) : Option (Mlfq × Option Slice) :=
  let s := maybeBoost view s
  match (List.range s.levels).find? fun l => (s.head l).isSome with
  | none => some (s, none)
  | some l =>
      match s.head l with
      | none => none
      | some p =>
          let (s, slice) := mlfqSlice s l p
          some (s, some slice)

/-- `POLICY_MLFQ`. -/
def policyMlfq : Policy D where
  State := Mlfq
  name := "mlfq"
  preemptive := true
  preemptOnReady := true
  usesQuantum := false
  usesEstimates := false
  workConserving := true
  offline := false
  create := mlfqCreate
  onArrival := mlfqArrival
  onReady := some mlfqReady
  nextSlice := mlfqNextSlice
  onPreempt := some mlfqPreempt
  onBlock := some mlfqBlock
  onComplete := none

end CpuSched
