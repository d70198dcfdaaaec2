import CpuSched.Policy.Core
import CpuSched.Util.Heap

/-!
# The event-driven engine

`src/engine/engine.c`, function by function.  The engine is explicit state
passing: every function takes an `Engine` and returns the next one.  A result
`none` is a run that a failed `assert` or a call through a null pointer ends.

A process index is a `Nat`, `SCHED_NONE` is `none`, and an array indexed by
process or by core is a function on indices.  Timelines are kept newest segment
first and reversed when the result is handed out.
-/

namespace CpuSched

/-- `SegmentKind`. -/
inductive SegmentKind
  | run
  | idle
  | cs
  deriving DecidableEq, Repr

/-- A half-open interval on one core. -/
structure Segment where
  start : Int
  stop : Int
  proc : Option Nat
  kind : SegmentKind
  deriving DecidableEq, Repr

/-- `PredictMode`. -/
inductive PredictMode
  | oracle
  | ewma
  deriving DecidableEq, Repr

/-- `SimOptions`. -/
structure SimOptions (D : Type) where
  cores : Nat
  csCost : Int
  predict : PredictMode
  alpha : D
  tau0 : D
  maxSegments : Nat

/-- `ProcOutcome`; `-1` until the event happens. -/
structure ProcOutcome where
  start : Int
  completion : Int
  deriving DecidableEq, Repr

/-- What a successful `sim_run` leaves in `*out`. -/
structure SimResult where
  outcomes : Nat → ProcOutcome
  timelines : Nat → List Segment
  cores : Nat
  firstArrival : Int
  switches : Int
  csTime : Int

/-- `ArrivalKey`. -/
structure ArrivalKey where
  arrival : Int
  pid : Int
  index : Nat
  deriving DecidableEq, Repr

/-- `cmp_arrival_key`. -/
def cmpArrivalKey (a b : ArrivalKey) : Int :=
  if a.arrival ≠ b.arrival then (if a.arrival < b.arrival then -1 else 1)
  else cmpInt a.pid b.pid

/-- `Core`. -/
structure Core where
  proc : Option Nat
  inCs : Bool
  recheck : Bool
  busyUntil : Int
  runStart : Int
  runEnd : Int
  length : Int
  deadline : Int
  context : Option Nat
  freeSince : Int
  deriving DecidableEq, Repr

/-- `EngineFail`; allocations succeed, so there is no `ENGINE_NOMEM`. -/
inductive EngineFail
  | ok
  | limit
  | overflow
  deriving DecidableEq, Repr

/-- The mutable part of `Engine`, over the policy's state `σ`. -/
structure Engine (D σ : Type) where
  state : σ
  now : Int
  /-- `order[]` from `next` on: the processes not yet admitted. -/
  pending : List ArrivalKey
  remaining : Nat → Int
  burstLen : Nat → Int
  predicted : Option (Nat → D)
  phase : Nat → Nat
  wake : Nat → Int
  blocked : Heap
  cores : Nat → Core
  outcomes : Nat → ProcOutcome
  /-- Newest segment first. -/
  timelines : Nat → List Segment
  switches : Int
  csTime : Int
  segments : Nat
  completed : Nat
  fail : EngineFail

/-- Whether `assert` is compiled in: CMake's Release build defines `NDEBUG`,
the sanitizer and coverage builds do not. -/
inductive Build
  | debug
  | release
  deriving DecidableEq, Repr

/-- `assert(cond)`. -/
def Build.assert (build : Build) (cond : Bool) : Option Unit :=
  if build = .release ∨ cond = true then some () else none

/-- The arguments of `sim_run`, which stay fixed during a run. -/
structure Sim (D : Type) where
  build : Build
  w : Workload
  policy : Policy D
  params : PolicyParams
  opt : SimOptions D

namespace Sim

variable {D : Type} [Double D] (S : Sim D)

/-- The engine state of a run of `S`. -/
abbrev Eng := Engine D S.policy.State

/-- `e->view`: what the policy sees of `e`. -/
def view (e : S.Eng) : SchedView D where
  procs := S.w.proc
  n := S.w.len
  cores := S.opt.cores
  csCost := S.opt.csCost
  now := e.now
  remaining := e.remaining
  burstLen := e.burstLen
  predicted := e.predicted

/-- A hook call with the current view. -/
def hook (e : S.Eng) (f : SchedView D → S.policy.State → Option S.policy.State) : Option S.Eng :=
  (f (S.view e) e.state).map fun state => { e with state }

/-- A call of an optional hook; a null hook is skipped. -/
def optHook (e : S.Eng)
    (f : Option (SchedView D → S.policy.State → Nat → Int → Option S.policy.State))
    (p : Nat) (ran : Int) : Option S.Eng :=
  match f with
  | none => some e
  | some f => S.hook e fun v state => f v state p ran

/-- `blocked_less`. -/
def blockedLess (wake : Nat → Int) (a b : Nat) : Bool :=
  if wake a ≠ wake b then wake a < wake b else (S.w.proc a).pid < (S.w.proc b).pid

/-- The new segment of `append`, under the segment limit. -/
def pushSegment (e : S.Eng) (c : Nat) (seg : Segment) : S.Eng :=
  if S.opt.maxSegments ≤ e.segments then { e with fail := .limit }
  else { e with
    timelines := Function.update e.timelines c (seg :: e.timelines c)
    segments := e.segments + 1 }

/-- `append`. -/
def append (e : S.Eng) (c : Nat) (start stop : Int) (proc : Option Nat) (kind : SegmentKind) :
    S.Eng :=
  if stop ≤ start ∨ e.fail ≠ .ok then e
  else
    match e.timelines c with
    | last :: rest =>
        if last.kind = kind ∧ last.proc = proc ∧ last.stop = start then
          { e with timelines := Function.update e.timelines c ({ last with stop } :: rest) }
        else S.pushSegment e c ⟨start, stop, proc, kind⟩
    | [] => S.pushSegment e c ⟨start, stop, proc, kind⟩

/-- `add_time`. -/
def addTime (e : S.Eng) (a b : Int) : S.Eng × Int :=
  match ckAddI64 a b with
  | some r => (e, r)
  | none => ({ e with fail := .overflow }, int64Max)

/-- `admit_arrivals`: admits the head of `pending` while it is due. -/
def admitArrivals : List ArrivalKey → S.Eng → Option (S.Eng × Bool)
  | [], e => some (e, false)
  | key :: rest, e =>
      if key.arrival ≤ e.now then do
        let e ← S.hook e fun v state => S.policy.onArrival v state key.index
        let (e, _) ← admitArrivals rest { e with pending := rest }
        some (e, true)
      else some (e, false)

/-- `wake_blocked`; each round pops one entry, so `blocked.len` rounds are
enough. -/
def wakeBlocked : Nat → S.Eng → Option (S.Eng × Bool)
  | 0, e => some (e, false)
  | fuel + 1, e =>
      if e.blocked.isEmpty = false ∧ e.wake (e.blocked.items 0) ≤ e.now then do
        let (p, blocked) ← heapPop (S.blockedLess e.wake) e.blocked
        let e ← S.hook { e with blocked } fun v state => S.policy.wakeHook v state p
        let (e, _) ← wakeBlocked fuel e
        some (e, true)
      else some (e, false)

/-- The EWMA update at the end of a CPU burst. -/
def ewma (e : S.Eng) (p : Nat) : Option (Nat → D) :=
  e.predicted.map fun predicted =>
    Function.update predicted p
      (Double.add (Double.mul S.opt.alpha (Double.ofInt (e.burstLen p)))
        (Double.mul (Double.sub (Double.ofInt 1) S.opt.alpha) (predicted p)))

/-- The last CPU burst of `p` is done. -/
def finishProcess (e : S.Eng) (p : Nat) : S.Eng :=
  { e with
    outcomes := Function.update e.outcomes p { e.outcomes p with completion := e.now }
    completed := e.completed + 1 }

/-- The I/O phase of `p` starts, and its next CPU burst is set up. -/
def startIo (e : S.Eng) (p : Nat) : S.Eng :=
  let proc := S.w.proc p
  let k := e.phase p
  let (e, wake) := S.addTime e e.now (proc.phase (k + 1))
  { e with
    wake := Function.update e.wake p wake
    phase := Function.update e.phase p (k + 2)
    burstLen := Function.update e.burstLen p (proc.phase (k + 2))
    remaining := Function.update e.remaining p (proc.phase (k + 2)) }

/-- `burst_done`: the current CPU burst of `p` just finished. -/
def burstDone (e : S.Eng) (p : Nat) (ran : Int) : Option S.Eng :=
  let e := { e with predicted := S.ewma e p }
  if e.phase p + 1 = (S.w.proc p).phaseCount then
    S.optHook (S.finishProcess e p) S.policy.onComplete p ran
  else
    let e := S.startIo e p
    (heapPush (S.blockedLess e.wake) e.blocked p).bind fun blocked =>
      S.optHook { e with blocked } S.policy.onBlock p ran

/-- Overwrites core `c`. -/
def setCore (e : S.Eng) (c : Nat) (core : Core) : S.Eng :=
  { e with cores := Function.update e.cores c core }

/-- The slice of core `c` becomes a segment, the ticks it ran leave `remaining`,
and the core is free. -/
def chargeRun (e : S.Eng) (c : Nat) (p : Nat) : S.Eng :=
  let core := e.cores c
  let e := S.append e c core.runStart e.now (some p) .run
  let e := { e with
    remaining := Function.update e.remaining p (e.remaining p - (e.now - core.runStart)) }
  S.setCore e c { core with proc := none, freeSince := e.now }

/-- `end_run`: ends the run slice on core `c`.  The flag tells whether the
process went back to the ready set. -/
def endRun (e : S.Eng) (c : Nat) : Option (S.Eng × Bool) :=
  match (e.cores c).proc with
  | none => none
  | some p =>
      let ran := e.now - (e.cores c).runStart
      let e := S.chargeRun e c p
      if e.remaining p = 0 then (S.burstDone e p ran).map fun e => (e, false)
      else
        match S.policy.onPreempt with
        | none => none
        | some f => (S.hook e fun v state => f v state p ran).map fun e => (e, true)

/-- `begin_run`. -/
def beginRun (e : S.Eng) (c : Nat) (p : Nat) : S.Eng :=
  let core := e.cores c
  let e :=
    if (e.outcomes p).start < 0 then
      { e with outcomes := Function.update e.outcomes p { e.outcomes p with start := e.now } }
    else e
  let len := if core.length < e.remaining p then core.length else e.remaining p
  let (e, runEnd) := S.addTime e e.now len
  S.setCore e c { core with
    inCs := false
    runStart := e.now
    runEnd
    busyUntil := if core.deadline < runEnd then core.deadline else runEnd }

/-- Dispatching on core `c` a process other than the last one is a switch. -/
def switching (e : S.Eng) (c : Nat) (p : Nat) : Bool :=
  (e.cores c).context ≠ none ∧ (e.cores c).context ≠ some p

/-- The idle time of core `c` ends and the slice `s` is entered. -/
def seat (e : S.Eng) (c : Nat) (s : Slice) : S.Eng :=
  let core := e.cores c
  let switching := S.switching e c s.proc
  let e := S.append e c core.freeSince e.now none .idle
  let e := S.setCore e c { core with
    proc := some s.proc
    length := s.length
    deadline := s.deadline
    recheck := false
    context := some s.proc }
  if switching then { e with switches := e.switches + 1 } else e

/-- The switch-in of `p` on core `c`. -/
def switchIn (e : S.Eng) (c : Nat) (p : Nat) : S.Eng :=
  let (e, busyUntil) := S.addTime e e.now S.opt.csCost
  let e := S.setCore e c { e.cores c with inCs := true, busyUntil }
  let e := S.append e c e.now busyUntil (some p) .cs
  { e with csTime := e.csTime + S.opt.csCost }

/-- `dispatch_one`. -/
def dispatchOne (e : S.Eng) (c : Nat) (s : Slice) : Option S.Eng := do
  S.build.assert (s.proc < S.w.len ∧ 0 < e.remaining s.proc ∧ 0 < s.length ∧ e.now < s.deadline)
  if S.switching e c s.proc ∧ 0 < S.opt.csCost then some (S.switchIn (S.seat e c s) c s.proc)
  else some (S.beginRun (S.seat e c s) c s.proc)

/-- The call loop of `dispatch`: at most `nfree` slices, in pick order. -/
def collectPicks : Nat → S.Eng → Option (S.Eng × List Slice)
  | 0, e => some (e, [])
  | nfree + 1, e => do
      let (state, pick) ← S.policy.nextSlice (S.view e) e.state
      let e := { e with state }
      match pick with
      | none => some (e, [])
      | some s =>
          let (e, picks) ← collectPicks nfree e
          some (e, s :: picks)

/-- A core that `dispatch` may still use. -/
def isFree (e : S.Eng) (used : Nat → Bool) (c : Nat) : Bool :=
  used c = false ∧ (e.cores c).proc = none

/-- The first placement pass: a pick whose process last ran on a free core goes
back to it.  Returns the picks left over, in order. -/
def placeHome : List Slice → S.Eng → (Nat → Bool) → Option (S.Eng × (Nat → Bool) × List Slice)
  | [], e, used => some (e, used, [])
  | s :: picks, e, used =>
      match (List.range S.opt.cores).find? fun c =>
          S.isFree e used c && ((e.cores c).context = some s.proc) with
      | some c => do
          let e ← S.dispatchOne e c s
          placeHome picks e (Function.update used c true)
      | none => do
          let (e, used, left) ← placeHome picks e used
          some (e, used, s :: left)

/-- The second placement pass: the rest fills the free cores from index `c` on.
Running past the last core is out of bounds. -/
def placeRest : List Slice → Nat → S.Eng → (Nat → Bool) → Option S.Eng
  | [], _, e, _ => some e
  | s :: picks, c, e, used =>
      match (List.range S.opt.cores).find? fun i => decide (c ≤ i) && S.isFree e used i with
      | none => none
      | some c => do
          let e ← S.dispatchOne e c s
          placeRest picks c e (Function.update used c true)

/-- `dispatch`: offers every free core to the policy. -/
def dispatch (e : S.Eng) : Option S.Eng := do
  let nfree := (List.range S.opt.cores).countP fun c => (e.cores c).proc = none
  let (e, picks) ← S.collectPicks nfree e
  let used : Nat → Bool := fun _ => false
  let (e, used, left) ←
    if 1 < S.opt.cores then S.placeHome picks e used else some (e, used, picks)
  S.placeRest left 0 e used

/-- Slices that ran their full length, in core order; the flag tells whether
one of them went back to the ready set. -/
def endFinished : List Nat → S.Eng → Option (S.Eng × Bool)
  | [], e => some (e, false)
  | c :: rest, e =>
      let core := e.cores c
      if core.proc ≠ none ∧ core.inCs = false ∧ core.runEnd = e.now then do
        let (e, requeued) ← S.endRun e c
        let (e, more) ← endFinished rest e
        some (e, requeued || more)
      else endFinished rest e

/-- Marks the cores that are still switching in when a decision is due. -/
def markRecheck (redecide : Bool) (e : S.Eng) (c : Nat) : S.Eng :=
  let core := e.cores c
  if redecide = true ∧ core.proc ≠ none ∧ core.inCs = true then
    S.setCore e c { core with recheck := true }
  else e

/-- A switch-in that finished starts running; it runs at least one tick. -/
def finishSwitch (e : S.Eng) (c : Nat) : S.Eng :=
  let core := e.cores c
  match core.proc with
  | none => e
  | some p =>
      if core.inCs = false ∨ core.busyUntil ≠ e.now then e
      else if core.recheck = true ∨ core.deadline ≤ e.now then
        let (e, deadline) := S.addTime e e.now 1
        S.beginRun (S.setCore e c { core with deadline }) c p
      else S.beginRun e c p

/-- Interruptions, in core order: slices cut by their deadline, and every
running slice when re-deciding. -/
def interrupt (redecide : Bool) : List Nat → S.Eng → Option S.Eng
  | [], e => some e
  | c :: rest, e =>
      let core := e.cores c
      if core.proc ≠ none ∧ core.inCs = false ∧ core.runStart ≠ e.now ∧
          (redecide = true ∨ core.busyUntil = e.now) then do
        let (e, _) ← S.endRun e c
        interrupt redecide rest e
      else interrupt redecide rest e

/-- A deadline on a running or switching core is due now. -/
def cutDue (e : S.Eng) : Bool :=
  (List.range S.opt.cores).any fun c =>
    ((e.cores c).proc ≠ none ∧ (e.cores c).deadline = e.now : Bool)

/-- `process_instant`: every event at `now`, in the order of `policy.h`. -/
def processInstant (e : S.Eng) : Option S.Eng := do
  let cores := List.range S.opt.cores
  let cut := S.cutDue e
  let (e, arrived) ← S.admitArrivals e.pending e
  let (e, woken) ← S.wakeBlocked e.blocked.len e
  let (e, requeued) ← S.endFinished cores e
  let redecide := S.policy.preemptOnReady && ((arrived || woken) || requeued || cut)
  let e := cores.foldl (S.markRecheck redecide) e
  let e := cores.foldl S.finishSwitch e
  S.interrupt redecide cores e

/-- The contribution of core `c` to `next_event`. -/
def coreEvent (e : S.Eng) (t : Int) (c : Nat) : Int :=
  let core := e.cores c
  if core.proc = none then t
  else
    let t := if core.busyUntil < t then core.busyUntil else t
    if e.now < core.deadline ∧ core.deadline < t then core.deadline else t

/-- `next_event`. -/
def nextEvent (e : S.Eng) : Int :=
  let t := match e.pending with
    | [] => int64Max
    | key :: _ => key.arrival
  let t := if e.blocked.isEmpty = false ∧ e.wake (e.blocked.items 0) < t then
      e.wake (e.blocked.items 0) else t
  (List.range S.opt.cores).foldl (S.coreEvent e) t

/-! ## `sim_run` -/

/-- `check_options`. -/
def checkOptions : Except SchedError Unit :=
  let o := S.opt
  if S.policy.usesQuantum = true ∧ S.params.quantum ≤ 0 then
    .error ⟨.usage, s!"{S.policy.name} needs a quantum > 0"⟩
  else if o.cores < 1 ∨ 1024 < o.cores then
    .error ⟨.usage, "number of cores must be in 1..1024"⟩
  else if o.maxSegments < 1 then
    .error ⟨.usage, "segment limit must be >= 1"⟩
  else if o.predict = .ewma ∧
      (!(Double.le (Double.ofInt 0) o.alpha && Double.le o.alpha (Double.ofInt 1)) ||
        !(Double.lt (Double.ofInt 0) o.tau0) || !(Double.isFinite o.tau0)) = true then
    .error ⟨.usage, "EWMA needs 0 <= alpha <= 1 and a finite tau0 > 0"⟩
  else
    let room := int64Max - workloadHorizon S.w
    if o.csCost < 0 ∨ (0 < o.csCost ∧ room / o.maxSegments < o.csCost) then
      .error ⟨.usage, "context-switch cost must be >= 0 and small enough that the " ++
        "schedule fits in 64-bit time"⟩
    else .ok ()

/-- `order[]`: the processes by `(arrival, pid)`. -/
def order : List ArrivalKey :=
  ((List.range S.w.len).map fun i =>
    { arrival := (S.w.proc i).arrival, pid := (S.w.proc i).pid, index := i }).mergeSort
      fun a b => cmpArrivalKey a b ≤ 0

/-- `out->first_arrival`. -/
def firstArrival : Int :=
  match S.order with
  | [] => 0
  | key :: _ => key.arrival

/-- The first phase of each process. -/
def firstBurst (i : Nat) : Int := (S.w.proc i).phase 0

/-- The predictions before the first burst. -/
def initPredicted : Option (Nat → D) :=
  match S.opt.predict with
  | .oracle => none
  | .ewma => some fun _ => S.opt.tau0

/-- The view that `create` gets. -/
def initView : SchedView D where
  procs := S.w.proc
  n := S.w.len
  cores := S.opt.cores
  csCost := S.opt.csCost
  now := S.firstArrival
  remaining := S.firstBurst
  burstLen := S.firstBurst
  predicted := S.initPredicted

/-- The engine before the first `process_instant`. -/
def initEngine (state : S.policy.State) : S.Eng where
  state
  now := S.firstArrival
  pending := S.order
  remaining := S.firstBurst
  burstLen := S.firstBurst
  predicted := S.initPredicted
  phase := fun _ => 0
  wake := fun _ => 0
  blocked := heapInit S.w.len
  cores := fun _ =>
    { proc := none, inCs := false, recheck := false, busyUntil := 0, runStart := 0, runEnd := 0,
      length := 0, deadline := 0, context := none, freeSince := S.firstArrival }
  outcomes := fun _ => ⟨-1, -1⟩
  timelines := fun _ => []
  switches := 0
  csTime := 0
  segments := 0
  completed := 0
  fail := .ok

/-- The condition of the main loop. -/
def running (e : S.Eng) : Bool := e.completed < S.w.len ∧ e.fail = .ok

/-- The body of the main loop. -/
def iterate (e : S.Eng) : Option S.Eng := do
  let e ← S.dispatch e
  let t := S.nextEvent e
  S.build.assert (t ≠ int64Max)
  S.processInstant { e with now := t }

/-- How the main loop ends. -/
inductive LoopResult (E : Type)
  | done (e : E)
  | aborted
  | diverged

/-- The main loop, cut off after `fuel` rounds. -/
def mainLoop : Nat → S.Eng → LoopResult S.Eng
  | 0, e => if S.running e = true then .diverged else .done e
  | fuel + 1, e =>
      if S.running e = true then
        match S.iterate e with
        | none => .aborted
        | some e => mainLoop fuel e
      else .done e

/-- More rounds than there are values of a clock that only moves forward. -/
def loopFuel : Nat := 2 ^ 63

/-- The idle time of every core after the last event. -/
def appendTrailing (e : S.Eng) (c : Nat) : S.Eng :=
  S.append e c (e.cores c).freeSince e.now none .idle

/-- The text of an `EngineFail`. -/
def failError : EngineFail → SchedError
  | .overflow => ⟨.input, s!"{S.policy.name}: simulated time overflows a 64-bit tick counter"⟩
  | _ => ⟨.input, s!"{S.policy.name}: schedule needs more than {S.opt.maxSegments} Gantt " ++
      "segments; use a larger quantum or a smaller workload"⟩

/-- `*out` of a run that ended in `e`. -/
def result (e : S.Eng) : SimResult where
  outcomes := e.outcomes
  timelines := fun c => (e.timelines c).reverse
  cores := S.opt.cores
  firstArrival := S.firstArrival
  switches := e.switches
  csTime := e.csTime

/-- How `sim_run` ends; on an error `*out` is empty. -/
inductive RunResult
  | ok (r : SimResult)
  | error (err : SchedError)
  | aborted
  | diverged

/-- From the end of the main loop to the return of `sim_run`. -/
def finish : LoopResult S.Eng → RunResult
  | .aborted => .aborted
  | .diverged => .diverged
  | .done e =>
      let e := (List.range S.opt.cores).foldl S.appendTrailing e
      if e.fail = .ok then .ok (S.result e) else .error (S.failError e.fail)

/-- `sim_run`. -/
def simRun : RunResult :=
  match workloadValidate S.w with
  | .error err => .error err
  | .ok () =>
      match S.checkOptions with
      | .error err => .error err
      | .ok () =>
          match S.policy.create S.initView S.params with
          | .error err => .error err
          | .ok state =>
              match S.processInstant (S.initEngine state) with
              | none => .aborted
              | some e => S.finish (S.mainLoop loopFuel e)

end Sim

end CpuSched
