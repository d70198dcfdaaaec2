import CpuSched.Engine.Core
import Mathlib.Data.List.Sort

/-!
# The tick-by-tick reference

`simulate` of `tools/reference_sim.py`, driving a policy given as a table of hooks
(`redecide` is `preemptOnReady`).  There is no event queue: every tick each core runs
one process, spends one tick of a context switch, or idles.  A process is its index,
and a dictionary is a function to `Option`.  `none` is a Python exception, or a loop
that does not end.  Per-core tick lists are kept newest first.
-/

namespace CpuSched

/-- An entry of `res.ticks[core]`. -/
inductive CoreTick
  /-- `None`. -/
  | idle
  /-- `("run", p)`. -/
  | run (proc : Nat)
  /-- `("cs", p)`. -/
  | cs (proc : Nat)
  deriving DecidableEq, Repr

/-- An entry of `core`. -/
structure RefCore where
  proc : Option Nat
  /-- `mode == "cs"`. -/
  inCs : Bool
  left : Int
  ran : Int
  length : Int
  context : Option Nat
  deriving DecidableEq, Repr

/-- The variables of `simulate`, over the policy's state `σ`. -/
structure RefEngine (D σ : Type) where
  state : σ
  /-- `st.t`. -/
  t : Int
  phase : Nat → Nat
  remaining : Nat → Int
  burstLen : Nat → Int
  tau : Nat → D
  wake : Nat → Option Int
  done : Nat
  cores : Nat → RefCore
  /-- Newest first. -/
  ticks : Nat → List CoreTick
  start : Nat → Option Int
  completion : Nat → Option Int
  switches : Int
  csTime : Int

namespace Sim

variable {D : Type} [Double D] (S : Sim D)

/-- The variables of a run of `simulate` with the arguments of `S`. -/
abbrev Ref := RefEngine D S.policy.State

/-- The view of the policy: `st`. -/
def refView (r : S.Ref) : SchedView D where
  procs := S.w.proc
  n := S.w.len
  cores := S.opt.cores
  csCost := S.opt.csCost
  now := r.t
  remaining := r.remaining
  burstLen := r.burstLen
  predicted := match S.opt.predict with
    | .oracle => none
    | .ewma => some r.tau

/-- A call of the policy. -/
def refHook (r : S.Ref) (f : SchedView D → S.policy.State → Option S.policy.State) :
    Option S.Ref :=
  (f (S.refView r) r.state).map fun state => { r with state }

/-- A call of `block` or `complete`, which do nothing unless a policy defines them. -/
def refOptHook (r : S.Ref)
    (f : Option (SchedView D → S.policy.State → Nat → Int → Option S.policy.State))
    (p : Nat) (ran : Int) : Option S.Ref :=
  match f with
  | none => some r
  | some f => S.refHook r fun v state => f v state p ran

/-- `sorted(p for p in procs if cond(p))`: by pid. -/
def sortedPids (cond : Nat → Bool) : List Nat :=
  ((List.range S.w.len).filter cond).insertionSort fun p q =>
    (S.w.proc p).pid ≤ (S.w.proc q).pid

/-- `start_run`. -/
def refStartRun (r : S.Ref) (c : Nat) (length : Int) : Option S.Ref :=
  (r.cores c).proc.map fun p =>
    { r with cores := Function.update r.cores c { r.cores c with
        inCs := false
        ran := 0
        left := if length < r.remaining p then length else r.remaining p } }

/-- `st.tau` after a CPU burst of `p`. -/
def refTau (r : S.Ref) (p : Nat) : Nat → D :=
  match S.opt.predict with
  | .oracle => r.tau
  | .ewma => Function.update r.tau p
      (Double.add (Double.mul S.opt.alpha (Double.ofInt (r.burstLen p)))
        (Double.mul (Double.sub (Double.ofInt 1) S.opt.alpha) (r.tau p)))

/-- `c["proc"] = None`. -/
def refFree (r : S.Ref) (c : Nat) : S.Ref :=
  { r with cores := Function.update r.cores c { r.cores c with proc := none } }

/-- The last CPU burst of `p` is done. -/
def refComplete (r : S.Ref) (p : Nat) : S.Ref :=
  { r with
    completion := Function.update r.completion p (some r.t)
    done := r.done + 1 }

/-- The I/O phase of `p` starts, and its next CPU burst is set up. -/
def refBlock (r : S.Ref) (p : Nat) : S.Ref :=
  let proc := S.w.proc p
  let k := r.phase p
  { r with
    wake := Function.update r.wake p (some (r.t + proc.phase (k + 1)))
    phase := Function.update r.phase p (k + 2)
    remaining := Function.update r.remaining p (proc.phase (k + 2))
    burstLen := Function.update r.burstLen p (proc.phase (k + 2)) }

/-- `end_slice`. -/
def endSlice (r : S.Ref) (c : Nat) : Option S.Ref :=
  match (r.cores c).proc with
  | none => none
  | some p =>
      let ran := (r.cores c).ran
      let r := S.refFree r c
      if 0 < r.remaining p then
        match S.policy.onPreempt with
        | none => none
        | some f => S.refHook r fun v state => f v state p ran
      else
        let r := { r with tau := S.refTau r p }
        if r.phase p + 1 = (S.w.proc p).phaseCount then
          S.refOptHook (S.refComplete r p) S.policy.onComplete p ran
        else S.refOptHook (S.refBlock r p) S.policy.onBlock p ran

/-! ## The steps of a tick -/

/-- Step 1: arrivals, in pid order. -/
def refArrivals (r : S.Ref) : Option S.Ref :=
  (S.sortedPids fun p => (S.w.proc p).arrival = r.t).foldlM
    (fun r p => S.refHook r fun v state => S.policy.onArrival v state p) r

/-- Step 2: a process whose I/O completes now. -/
def refWake (r : S.Ref) (p : Nat) : Option S.Ref :=
  S.refHook { r with wake := Function.update r.wake p none } fun v state =>
    S.policy.wakeHook v state p

/-- Step 2: I/O completions, in pid order. -/
def refWakes (r : S.Ref) : Option S.Ref :=
  (S.sortedPids fun p => r.wake p = some r.t).foldlM S.refWake r

/-- Step 3: the slice of core `c` ends if it ran its full length. -/
def refFinish (r : S.Ref) (c : Nat) : Option S.Ref :=
  let core := r.cores c
  if core.proc ≠ none ∧ core.inCs = false ∧ core.left = 0 then S.endSlice r c else some r

/-- Step 4: a switch that finished. -/
def refFinishSwitch (r : S.Ref) (c : Nat) : Option S.Ref :=
  let core := r.cores c
  if core.proc ≠ none ∧ core.inCs = true ∧ core.left = 0 then S.refStartRun r c core.length
  else some r

/-- Step 5: a running process is handed back. -/
def refHandBack (r : S.Ref) (c : Nat) : Option S.Ref :=
  let core := r.cores c
  if core.proc ≠ none ∧ core.inCs = false ∧ 0 < core.ran then S.endSlice r c else some r

/-- Steps 1 to 5. -/
def refEvents (r : S.Ref) : Option S.Ref := do
  let cores := List.range S.opt.cores
  let r ← S.refArrivals r
  let r ← S.refWakes r
  let r ← cores.foldlM S.refFinish r
  let r ← cores.foldlM S.refFinishSwitch r
  if S.policy.preemptOnReady = true then cores.foldlM S.refHandBack r else some r

/-- Step 6: at most `nfree` picks. -/
def refPicks : Nat → S.Ref → Option (S.Ref × List Slice)
  | 0, r => some (r, [])
  | nfree + 1, r => do
      let (state, pick) ← S.policy.nextSlice (S.refView r) r.state
      let r := { r with state }
      match pick with
      | none => some (r, [])
      | some s =>
          let (r, picks) ← refPicks nfree r
          some (r, s :: picks)

/-- Step 6: the picks that go home, the rest, and the cores taken. -/
def refHomes (r : S.Ref) (free : List Nat) :
    List Slice → List Nat → List (Nat × Slice) × List Slice × List Nat
  | [], taken => ([], [], taken)
  | s :: picks, taken =>
      let home := free.find? fun i => i ∉ taken ∧ (r.cores i).context = some s.proc
      match home with
      | some i =>
          if 1 < S.opt.cores then
            let (placement, leftovers, taken) := refHomes r free picks (i :: taken)
            ((i, s) :: placement, leftovers, taken)
          else
            let (placement, leftovers, taken) := refHomes r free picks taken
            (placement, s :: leftovers, taken)
      | none =>
          let (placement, leftovers, taken) := refHomes r free picks taken
          (placement, s :: leftovers, taken)

/-- Step 6: the rest fills the free cores in index order. -/
def refRest (free : List Nat) : List Slice → List Nat → Option (List (Nat × Slice))
  | [], _ => some []
  | s :: leftovers, taken => do
      let i ← free.find? fun i => i ∉ taken
      let placement ← refRest free leftovers (i :: taken)
      some ((i, s) :: placement)

/-- Step 6: one entry of `placement`. -/
def refPlace (r : S.Ref) (entry : Nat × Slice) : Option S.Ref :=
  let (i, s) := entry
  let core := r.cores i
  let switching := core.context ≠ none ∧ core.context ≠ some s.proc
  let core := { core with proc := some s.proc, context := some s.proc, length := s.length }
  let r := { r with
    cores := Function.update r.cores i core
    switches := if switching then r.switches + 1 else r.switches }
  if switching ∧ 0 < S.opt.csCost then
    some { r with
      cores := Function.update r.cores i { core with inCs := true, left := S.opt.csCost }
      csTime := r.csTime + S.opt.csCost }
  else S.refStartRun r i s.length

/-- Step 6: dispatch. -/
def refDispatch (r : S.Ref) : Option S.Ref := do
  let free := (List.range S.opt.cores).filter fun c => (r.cores c).proc = none
  let (r, picks) ← S.refPicks free.length r
  let (placement, leftovers, taken) := S.refHomes r free picks []
  let rest ← refRest free leftovers taken
  (placement ++ rest).foldlM S.refPlace r

/-- Step 7: one tick passes on core `c`. -/
def refTick (r : S.Ref) (c : Nat) : S.Ref :=
  let core := r.cores c
  match core.proc with
  | none => { r with ticks := Function.update r.ticks c (.idle :: r.ticks c) }
  | some p =>
      if core.inCs = true then
        { r with
          ticks := Function.update r.ticks c (.cs p :: r.ticks c)
          cores := Function.update r.cores c { core with left := core.left - 1 } }
      else
        { r with
          ticks := Function.update r.ticks c (.run p :: r.ticks c)
          start := Function.update r.start p (some ((r.start p).getD r.t))
          remaining := Function.update r.remaining p (r.remaining p - 1)
          cores := Function.update r.cores c { core with
            ran := core.ran + 1
            left := core.left - 1 } }

/-- Step 7: one tick passes. -/
def refPass (r : S.Ref) : S.Ref :=
  let r := (List.range S.opt.cores).foldl S.refTick r
  { r with t := r.t + 1 }

/-! ## `simulate` -/

/-- `while done < len(procs)`, cut off after `fuel` rounds. -/
def refLoop : Nat → S.Ref → Option S.Ref
  | 0, _ => none
  | fuel + 1, r =>
      if r.done < S.w.len then do
        let r ← S.refEvents r
        if r.done = S.w.len then some r
        else do
          let r ← S.refDispatch r
          refLoop fuel (S.refPass r)
      else some r

/-- `min(p.arrival for p in procs)`. -/
def refFirstArrival : Int :=
  ((List.range S.w.len).map fun i => (S.w.proc i).arrival).min?.getD 0

/-- The variables before the loop. -/
def refInit (state : S.policy.State) : S.Ref where
  state
  t := S.refFirstArrival
  phase := fun _ => 0
  remaining := S.firstBurst
  burstLen := S.firstBurst
  tau := fun _ => S.opt.tau0
  wake := fun _ => none
  done := 0
  cores := fun _ => ⟨none, false, 0, 0, 0, none⟩
  ticks := fun _ => []
  start := fun _ => none
  completion := fun _ => none
  switches := 0
  csTime := 0

/-- `simulate`, with the policy started in `state` and at most `fuel` rounds. -/
def refSimulate (fuel : Nat) (state : S.policy.State) : Option S.Ref :=
  S.refLoop fuel (S.refInit state)

end Sim

end CpuSched
