import CpuSched.Policy.Core
import Mathlib.Logic.Function.Basic

/-!
# The offline non-preemptive optimum

`src/policies/optnp.c`: branch and bound over job orders, run once when the
policy is created; the hooks then only follow the order found.  Whether a
`realloc` of the memo pool succeeds is a parameter.
-/

namespace CpuSched

variable {D : Type}

/-- `OPT_NP_MAX`. -/
def optNpMax : Nat := 20

/-- `MEMO_MAX_NODES`. -/
def memoMaxNodes : Nat := 2 ^ 22

/-- `MemoNode`; `none` ends a list. -/
structure MemoNode where
  t : Int
  sum : Int
  next : Option Nat
  deriving DecidableEq, Repr, Inhabited

/-- `Search`. -/
structure Search where
  n : Nat
  r : Nat → Int
  p : Nat → Int
  pid : Nat → Int
  best : Int
  order : Nat → Nat
  bestOrder : Nat → Nat
  /-- Per subset of scheduled jobs. -/
  memoHead : Nat → Option Nat
  pool : Nat → MemoNode
  poolLen : Nat
  poolCap : Nat
  memoFull : Bool

/-! ## The lower bound -/

/-- What one round of `srpt_bound` looks at: the released job with the least
remaining time, and the next release. -/
structure SrptScan where
  best : Option Nat
  nextRelease : Int

/-- The scan of one round of `srpt_bound` over the jobs `jobs`. -/
def srptScan (rem rel : Nat → Int) (t : Int) : List Nat → SrptScan → SrptScan
  | [], scan => scan
  | i :: rest, scan =>
      if rem i = 0 then srptScan rem rel t rest scan
      else if rel i ≤ t then
        match scan.best with
        | none => srptScan rem rel t rest { scan with best := some i }
        | some b =>
            srptScan rem rel t rest (if rem i < rem b then { scan with best := some i } else scan)
      else
        srptScan rem rel t rest
          (if rel i < scan.nextRelease then { scan with nextRelease := rel i } else scan)

/-- The loop of `srpt_bound`.  A round ends with a completion or a release, so
three rounds a job are enough. -/
def srptLoop (rel : Nat → Int) (jobs : List Nat) :
    Nat → (Nat → Int) → Nat → Int → Int → Int
  | 0, _, _, _, total => total
  | fuel + 1, rem, left, t, total =>
      if left = 0 then total
      else
        let scan := srptScan rem rel t jobs ⟨none, int64Max⟩
        match scan.best with
        | none => srptLoop rel jobs fuel rem left scan.nextRelease total
        | some b =>
            let run :=
              if scan.nextRelease ≠ int64Max ∧ scan.nextRelease - t < rem b then
                scan.nextRelease - t
              else rem b
            let t := t + run
            let rem := Function.update rem b (rem b - run)
            if rem b = 0 then srptLoop rel jobs fuel rem (left - 1) t (total + (t - rel b))
            else srptLoop rel jobs fuel rem left t total

/-- The jobs not in `mask`. -/
def openJobs (n mask : Nat) : List Nat := (List.range n).filter fun j => !mask.testBit j

/-- `srpt_bound`: the preemptive optimum of the jobs not in `mask` from `t` on. -/
def srptBound (s : Search) (mask : Nat) (t : Int) : Int :=
  let jobs := openJobs s.n mask
  srptLoop s.r jobs (3 * jobs.length) s.p jobs.length t 0

/-! ## Dominance -/

/-- The walk of `dominated` along a memo list; lists only point backwards, so
`poolLen` steps are enough. -/
def memoDominates (s : Search) (t sum : Int) : Nat → Option Nat → Bool
  | _, none => false
  | 0, some _ => false
  | fuel + 1, some i =>
      if (s.pool i).t ≤ t ∧ (s.pool i).sum ≤ sum then true
      else memoDominates s t sum fuel (s.pool i).next

/-- Recording `(t, sum)` in a pool with room. -/
def memoRecord (s : Search) (mask : Nat) (t sum : Int) : Search :=
  { s with
    pool := Function.update s.pool s.poolLen ⟨t, sum, s.memoHead mask⟩
    memoHead := Function.update s.memoHead mask (some s.poolLen)
    poolLen := s.poolLen + 1 }

/-- `dominated`; `realloc` tells whether the pool can grow to a capacity. -/
def dominated (realloc : Nat → Bool) (s : Search) (mask : Nat) (t sum : Int) : Search × Bool :=
  if memoDominates s t sum s.poolLen (s.memoHead mask) then (s, true)
  else if s.memoFull then (s, false)
  else if s.poolLen = s.poolCap then
    let ncap := if s.poolCap = 0 then 1024 else s.poolCap * 2
    if ncap ≤ memoMaxNodes ∧ realloc ncap = true then
      (memoRecord { s with poolCap := ncap } mask t sum, false)
    else ({ s with memoFull := true }, false)
  else (memoRecord s mask t sum, false)

/-! ## The search -/

/-- `start > t` and some open job fits entirely before `start`. -/
def gapFillable (s : Search) (mask j : Nat) (t start : Int) : Bool :=
  (List.range s.n).any fun k =>
    decide (t < start) && (!mask.testBit k && k != j) && decide (s.r k ≤ t ∧ s.p k ≤ start - t)

/-- The test `after` of the insertion: candidate `(prev, done)` stays before
`(j, c)`. -/
def candBefore (s : Search) (prev : Nat) (done : Int) (j : Nat) (c : Int) : Bool :=
  done < c ∨ (done = c ∧
    (s.r prev < s.r j ∨ (s.r prev = s.r j ∧ s.pid prev < s.pid j)))

/-- Insertion from the back; the list is kept last candidate first. -/
def insertCand (s : Search) (j : Nat) (c : Int) : List (Nat × Int) → List (Nat × Int)
  | [] => [(j, c)]
  | (prev, done) :: rest =>
      if candBefore s prev done j c then (j, c) :: (prev, done) :: rest
      else (prev, done) :: insertCand s j c rest

/-- The candidates of one node in `(completion, arrival, pid)` order, with their
completions. -/
def candidates (s : Search) (mask : Nat) (t : Int) : List (Nat × Int) :=
  ((List.range s.n).foldl (fun cand j =>
    if mask.testBit j then cand
    else
      let start := if s.r j < t then t else s.r j
      if gapFillable s mask j t start then cand
      else insertCand s j (start + s.p j) cand) []).reverse

/-- `search`; every level schedules one more job, so `n + 1` levels are
enough. -/
def search (realloc : Nat → Bool) : Nat → Search → Nat → Nat → Int → Int → Search
  | 0, s, _, _, _, _ => s
  | fuel + 1, s, mask, depth, t, sum =>
      if depth = s.n then
        if sum < s.best then { s with best := sum, bestOrder := s.order } else s
      else if s.best ≤ sum + srptBound s mask t then s
      else
        match dominated realloc s mask t sum with
        | (s, true) => s
        | (s, false) =>
            (candidates s mask t).foldl (fun s (j, done) =>
              search realloc fuel { s with order := Function.update s.order depth j }
                (mask ||| 1 <<< j) (depth + 1) done (sum + done - s.r j)) s

/-! ## The initial orders -/

/-- The loop of `order_total`. -/
def orderTotalLoop (s : Search) (order : Nat → Nat) : List Nat → Int → Int → Int
  | [], _, sum => sum
  | i :: rest, t, sum =>
      let j := order i
      let t := (if s.r j < t then t else s.r j) + s.p j
      orderTotalLoop s order rest t (sum + (t - s.r j))

/-- `order_total`: the total turnaround of running the jobs in `order`, each as
early as possible. -/
def orderTotal (s : Search) (order : Nat → Nat) : Int :=
  orderTotalLoop s order (List.range s.n) 0 0

/-- The replacement test of `greedy`. -/
def greedyBetter (s : Search) (byBurst : Bool) (j best : Nat) : Bool :=
  let kj := if byBurst then s.p j else s.r j
  let kb := if byBurst then s.p best else s.r best
  kj < kb ∨ (kj = kb ∧ (s.r j < s.r best ∨ (s.r j = s.r best ∧ s.pid j < s.pid best)))

/-- The earliest release of an open job. -/
def greedyEarliest (s : Search) (mask : Nat) : Int :=
  (openJobs s.n mask).foldl (fun earliest j => if s.r j < earliest then s.r j else earliest)
    int64Max

/-- The choice of `greedy` among the open jobs released by `t`. -/
def greedyPick (s : Search) (byBurst : Bool) (mask : Nat) (t : Int) : Option Nat :=
  (openJobs s.n mask).foldl (fun best j =>
    if t < s.r j then best
    else
      match best with
      | none => some j
      | some b => if greedyBetter s byBurst j b then some j else best) none

/-- The loop of `greedy`, filling `order` from position `i` on. -/
def greedyLoop (s : Search) (byBurst : Bool) : List Nat → Nat → Int → (Nat → Nat) → Nat → Nat
  | [], _, _, order => order
  | i :: rest, mask, t, order =>
      let earliest := greedyEarliest s mask
      let t := if t < earliest then earliest else t
      match greedyPick s byBurst mask t with
      | none => order
      | some b =>
          greedyLoop s byBurst rest (mask ||| 1 <<< b) (t + s.p b) (Function.update order i b)

/-- `greedy`. -/
def greedy (s : Search) (byBurst : Bool) : Nat → Nat :=
  greedyLoop s byBurst (List.range s.n) 0 0 fun _ => 0

/-! ## The policy -/

/-- `OptNp`. -/
structure OptNp where
  n : Nat
  order : Nat → Nat
  pos : Nat
  arrived : Nat → Bool

/-- The search state before the initial orders. -/
def initSearch (view : SchedView D) : Search where
  n := view.n
  r := fun j => (view.procs j).arrival
  p := fun j => (view.procs j).burst
  pid := fun j => (view.procs j).pid
  best := 0
  order := fun _ => 0
  bestOrder := fun _ => 0
  memoHead := fun _ => none
  pool := fun _ => default
  poolLen := 0
  poolCap := 0
  memoFull := false

/-- The incumbent: the better of the FCFS and SJF orders. -/
def startSearch (s : Search) : Search :=
  let fcfs := greedy s false
  let sjf := greedy s true
  let tf := orderTotal s fcfs
  let ts := orderTotal s sjf
  if ts ≤ tf then { s with best := ts, bestOrder := sjf }
  else { s with best := tf, bestOrder := fcfs }

/-- `optnp_create`. -/
def optNpCreate (realloc : Nat → Bool) (view : SchedView D) (_ : PolicyParams) :
    Except SchedError OptNp :=
  if optNpMax < view.n then
    .error ⟨.usage,
      s!"opt-np: exact search supports at most {optNpMax} processes (got {view.n})"⟩
  else if view.cores ≠ 1 ∨ view.csCost ≠ 0 then
    .error ⟨.usage, "opt-np: supports one core and --cs-cost=0 only"⟩
  else if (List.range view.n).any fun j => (view.procs j).phaseCount != 1 then
    .error ⟨.usage, "opt-np: I/O bursts are not supported"⟩
  else
    let s := search realloc (view.n + 1) (startSearch (initSearch view)) 0 0 0 0
    .ok { n := view.n, order := s.bestOrder, pos := 0, arrived := fun _ => false }

/-- `optnp_arrival`. -/
def optNpArrival (_ : SchedView D) (o : OptNp) (p : Nat) : Option OptNp :=
  some { o with arrived := Function.update o.arrived p true }

/-- `optnp_next_slice`: idles on purpose until the next job of the order has
arrived. -/
def optNpNextSlice (view : SchedView D) (o : OptNp) : Option (OptNp × Option Slice) :=
  if o.pos = o.n ∨ o.arrived (o.order o.pos) = false then some (o, none)
  else
    some ({ o with pos := o.pos + 1 },
      some { proc := o.order o.pos, length := view.remaining (o.order o.pos),
             deadline := schedNoDeadline })

/-- `POLICY_OPT_NP`. -/
def policyOptNp (realloc : Nat → Bool) : Policy D where
  State := OptNp
  name := "opt-np"
  preemptive := false
  preemptOnReady := false
  usesQuantum := false
  usesEstimates := false
  workConserving := false
  offline := true
  create := optNpCreate realloc
  onArrival := optNpArrival
  onReady := none
  nextSlice := optNpNextSlice
  onPreempt := none
  onBlock := none
  onComplete := none

end CpuSched
