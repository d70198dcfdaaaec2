import CpuSched.Policies.ShortestJob

/-!
# The policies of the reference simulator

The classes `Srtf`, `Priority` and `Mlfq` of `tools/reference_sim.py`, whose
ready sets are plain lists, and the draw of `Lottery`.  The classes are given as tables
of hooks, so that the same loops can drive them and the policies of `src/policies`; a
process is its index, and its pid breaks ties.  `redecide` is `preemptOnReady`.  A pick
carries no deadline.
-/

namespace CpuSched

variable {D : Type}

/-- `min(ready_list, key=...)`: the first least entry. -/
def minBy (less : Nat → Nat → Bool) : List Nat → Option Nat
  | [] => none
  | p :: rest =>
      match minBy less rest with
      | none => some p
      | some q => if less q p then some q else some p

/-! ## `Srtf` -/

/-- `Srtf.key` with exact bursts: `(remaining, arrival, pid)`. -/
def refSrtfLess (v : SchedView D) (a b : Nat) : Bool :=
  lessByArrival v (cmpInt (v.remaining a) (v.remaining b)) a b

/-- `Srtf.arrive` and `Srtf.preempt`. -/
def refSrtfArrive (_ : SchedView D) (readyList : List Nat) (p : Nat) : Option (List Nat) :=
  some (readyList ++ [p])

/-- `Srtf.pick`. -/
def refSrtfPick (v : SchedView D) (readyList : List Nat) :
    Option (List Nat × Option Slice) :=
  match minBy (refSrtfLess v) readyList with
  | none => some (readyList, none)
  | some p => some (readyList.erase p, some ⟨p, v.remaining p, schedNoDeadline⟩)

/-- `class Srtf`. -/
def refSrtf : Policy D where
  State := List Nat
  name := "srtf"
  preemptive := true
  preemptOnReady := true
  usesQuantum := false
  usesEstimates := true
  workConserving := true
  offline := false
  create _ _ := .ok []
  onArrival := refSrtfArrive
  onReady := none
  nextSlice := refSrtfPick
  onPreempt := some fun v s p _ => refSrtfArrive v s p
  onBlock := none
  onComplete := none

/-! ## `Priority` -/

/-- The fields of `Priority`. -/
structure RefPriority where
  aging : Int
  readyList : List Nat
  waited : Nat → Int
  since : Nat → Int

/-- The first component of `Priority.key`. -/
def RefPriority.base (v : SchedView D) (s : RefPriority) (p : Nat) : Int :=
  if s.aging ≠ 0 then
    (v.procs p).priority - (s.waited p + v.now - s.since p) / s.aging
  else (v.procs p).priority

/-- `Priority.key`: `(base, arrival, pid)`. -/
def RefPriority.less (v : SchedView D) (s : RefPriority) (a b : Nat) : Bool :=
  lessByArrival v (cmpInt (s.base v a) (s.base v b)) a b

/-- `Priority._enter`. -/
def RefPriority.enter (v : SchedView D) (s : RefPriority) (p : Nat) : RefPriority :=
  { s with since := Function.update s.since p v.now, readyList := s.readyList ++ [p] }

/-- `Priority.arrive`. -/
def RefPriority.arrive (v : SchedView D) (s : RefPriority) (p : Nat) : Option RefPriority :=
  some (RefPriority.enter v { s with waited := Function.update s.waited p 0 } p)

/-- `Priority.preempt`. -/
def RefPriority.preempt (v : SchedView D) (s : RefPriority) (p : Nat) (_ : Int) :
    Option RefPriority :=
  some (RefPriority.enter v s p)

/-- `Priority.pick`. -/
def RefPriority.pick (v : SchedView D) (s : RefPriority) : Option (RefPriority × Option Slice) :=
  match minBy (RefPriority.less v s) s.readyList with
  | none => some (s, none)
  | some p =>
      some ({ s with
        readyList := s.readyList.erase p
        waited := Function.update s.waited p (s.waited p + (v.now - s.since p)) },
        some ⟨p, v.remaining p, schedNoDeadline⟩)

/-- `Priority(preemptive=True)`. -/
def refPriority : Policy D where
  State := RefPriority
  name := "prio-p"
  preemptive := true
  preemptOnReady := true
  usesQuantum := false
  usesEstimates := false
  workConserving := true
  offline := false
  create _ params := .ok ⟨params.aging, [], fun _ => 0, fun _ => 0⟩
  onArrival := RefPriority.arrive
  onReady := none
  nextSlice := RefPriority.pick
  onPreempt := some RefPriority.preempt
  onBlock := none
  onComplete := none

/-! ## `Mlfq` -/

/-- The fields of `Mlfq`; `levels` is the number of quanta. -/
structure RefMlfq where
  levels : Nat
  quanta : Nat → Int
  allot : Nat → Int
  boost : Int
  queues : Nat → List Nat
  level : Nat → Nat
  used : Nat → Int
  left : Nat → Int
  epoch : Int
  /-- Boost epoch in which each job was last dispatched. -/
  dispatchedIn : Nat → Int

namespace RefMlfq

/-- `Mlfq.__init__`. -/
def create (v : SchedView D) (params : PolicyParams) : Except SchedError RefMlfq :=
  .ok { levels := params.mlfqLevels, quanta := params.mlfqQuanta, allot := params.mlfqAllotment,
        boost := params.mlfqBoost, queues := fun _ => [], level := fun _ => 0, used := fun _ => 0,
        left := fun _ => 0,
        epoch := if params.mlfqBoost ≠ 0 then v.now / params.mlfqBoost else 0,
        dispatchedIn := fun _ => 0 }

/-- `[p for q in self.queues for p in q]`. -/
def merged (s : RefMlfq) : List Nat := (List.range s.levels).flatMap s.queues

/-- `Mlfq._boost`; a job that has not arrived has nothing to reset. -/
def doBoost (v : SchedView D) (s : RefMlfq) : RefMlfq :=
  if s.boost = 0 ∨ v.now / s.boost = s.epoch then s
  else { s with
    epoch := v.now / s.boost
    queues := fun l => if l = 0 then s.merged else []
    level := fun _ => 0
    used := fun _ => 0
    left := fun _ => 0 }

/-- `self.queues[l].append(p)`. -/
def pushBack (s : RefMlfq) (l p : Nat) : RefMlfq :=
  { s with queues := Function.update s.queues l (s.queues l ++ [p]) }

/-- `self.queues[l].insert(0, p)`. -/
def pushFront (s : RefMlfq) (l p : Nat) : RefMlfq :=
  { s with queues := Function.update s.queues l (p :: s.queues l) }

/-- `Mlfq.arrive`. -/
def arrive (v : SchedView D) (s : RefMlfq) (p : Nat) : Option RefMlfq :=
  let s := doBoost v s
  let s := { s with
    level := Function.update s.level p 0
    used := Function.update s.used p 0
    left := Function.update s.left p 0 }
  some (s.pushBack 0 p)

/-- `Mlfq.ready`. -/
def ready (v : SchedView D) (s : RefMlfq) (p : Nat) : Option RefMlfq :=
  let s := doBoost v s
  let s := { s with left := Function.update s.left p 0 }
  some (s.pushBack (s.level p) p)

/-- `Mlfq._charge`. -/
def charge (s : RefMlfq) (p : Nat) (ran : Int) : RefMlfq × Bool :=
  let l := s.level p
  let s := { s with used := Function.update s.used p (s.used p + ran) }
  if l + 1 < s.levels ∧ s.allot l ≤ s.used p then
    ({ s with
      level := Function.update s.level p (l + 1)
      used := Function.update s.used p 0 }, true)
  else (s, false)

/-- `Mlfq.preempt`. -/
def preempt (v : SchedView D) (s : RefMlfq) (p : Nat) (ran : Int) : Option RefMlfq :=
  let s := doBoost v s
  if s.dispatchedIn p ≠ s.epoch then some (s.pushBack 0 p)
  else
    let s := { s with left := Function.update s.left p (s.left p - ran) }
    let (s, demoted) := s.charge p ran
    if demoted = true ∨ s.left p = 0 then
      let s := { s with left := Function.update s.left p 0 }
      some (s.pushBack (s.level p) p)
    else some (s.pushFront (s.level p) p)

/-- `Mlfq.block`. -/
def block (v : SchedView D) (s : RefMlfq) (p : Nat) (ran : Int) : Option RefMlfq :=
  let s := doBoost v s
  let s := if s.dispatchedIn p = s.epoch then (s.charge p ran).1 else s
  some { s with left := Function.update s.left p 0 }

/-- The slice of `Mlfq.pick` for the head `p` of queue `l`. -/
def slice (s : RefMlfq) (l p : Nat) (rest : List Nat) : RefMlfq × Slice :=
  let left := if s.left p = 0 then s.quanta l else s.left p
  let length := if l + 1 < s.levels then min left (s.allot l - s.used p) else left
  ({ s with
      queues := Function.update s.queues l rest
      left := Function.update s.left p length
      dispatchedIn := Function.update s.dispatchedIn p s.epoch },
    ⟨p, length, schedNoDeadline⟩)

/-- `Mlfq.pick`. -/
def pick (v : SchedView D) (s : RefMlfq) : Option (RefMlfq × Option Slice) :=
  let s := doBoost v s
  match (List.range s.levels).find? fun l => !(s.queues l).isEmpty with
  | none => some (s, none)
  | some l =>
      match s.queues l with
      | [] => none
      | p :: rest =>
          let (s, slice) := s.slice l p rest
          some (s, some slice)

end RefMlfq

/-- `class Mlfq`. -/
def refMlfq : Policy D where
  State := RefMlfq
  name := "mlfq"
  preemptive := true
  preemptOnReady := true
  usesQuantum := false
  usesEstimates := false
  workConserving := true
  offline := false
  create := RefMlfq.create
  onArrival := RefMlfq.arrive
  onReady := some RefMlfq.ready
  nextSlice := RefMlfq.pick
  onPreempt := some RefMlfq.preempt
  onBlock := some RefMlfq.block
  onComplete := none

/-! ## `Lottery` -/

/-- The loop of `Lottery.pick` over the sorted queue: the tickets of the processes are taken
off the draw. -/
def refLotteryWalk (v : SchedView D) : List Nat → Int → Option Nat
  | [], _ => none
  | p :: rest, r =>
      let r := r - (v.procs p).tickets
      if r < 0 then some p else refLotteryWalk v rest r

/-- The process that `Lottery.pick` selects from the queue `q` with the draw `r`. -/
def refLotteryPick (v : SchedView D) (q : List Nat) (r : Int) : Option Nat :=
  refLotteryWalk v (q.mergeSort fun a b => (v.procs a).pid ≤ (v.procs b).pid) r

end CpuSched
