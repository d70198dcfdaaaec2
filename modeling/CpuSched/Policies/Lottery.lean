import CpuSched.Policy.Core
import CpuSched.Util.Fenwick
import CpuSched.Util.SplitMix
import Mathlib.Data.List.Sort

/-!
# Lottery scheduling

`src/policies/lottery.c`: a draw among the tickets of the ready processes, with
SplitMix64, rejection sampling and a Fenwick tree over the pid ranks.
-/

namespace CpuSched

variable {D : Type}

/-- `Lottery`. -/
structure Lottery where
  quantum : Int
  rng : BitVec 64
  n : Nat
  /-- Process index to rank by pid. -/
  rank : Nat → Nat
  /-- Rank to process index. -/
  byRank : Nat → Nat
  /-- Fenwick tree of ready tickets over ranks, 1-based. -/
  tree : Nat → Int
  /-- Tickets of all ready processes. -/
  total : Int
  /-- Highest power of two at most `n`. -/
  log2n : Nat

/-- `splitmix64`: the new state and the output. -/
def splitmix64 (state : BitVec 64) : BitVec 64 × BitVec 64 :=
  let state := state + goldenGamma
  (state, splitMixFinal state)

/-- The rejection loop of `draw_below`, cut off after `fuel` rounds. -/
def drawLoop (bound threshold : Nat) : Nat → BitVec 64 → Option (BitVec 64 × Nat)
  | 0, _ => none
  | fuel + 1, state =>
      let (state, x) := splitmix64 state
      if threshold ≤ x.toNat then some (state, x.toNat % bound)
      else drawLoop bound threshold fuel state

/-- The threshold `(0 - bound) % bound` of `draw_below` in 64-bit arithmetic. -/
def drawThreshold (bound : Nat) : Nat := (2 ^ 64 - bound % 2 ^ 64) % 2 ^ 64 % bound

/-- `draw_below`; the state has a period of `2^64`, so a loop that is still
going after that many rounds never ends. -/
def drawBelow (state : BitVec 64) (bound : Nat) : Option (BitVec 64 × Nat) :=
  drawLoop bound (drawThreshold bound) (2 ^ 64) state

/-- `fenwick_add`; `i` grows every round, so `n` rounds are enough. -/
def fenwickAdd (s : Lottery) (rank : Nat) (delta : Int) : Lottery :=
  { s with tree := fenwickAddLoop s.n delta s.n (rank + 1) s.tree }

/-- `fenwick_find`: the smallest rank whose prefix sum of tickets exceeds `r`. -/
def fenwickFind (s : Lottery) (r : Int) : Nat :=
  fenwickFindLoop s.n s.tree s.log2n s.log2n 0 r

/-- The process indices in pid order. -/
def pidOrder (view : SchedView D) : List Nat :=
  (List.range view.n).mergeSort fun a b => (view.procs a).pid ≤ (view.procs b).pid

/-- `lottery_create`. -/
def lotteryCreate (view : SchedView D) (params : PolicyParams) : Except SchedError Lottery :=
  let keys := pidOrder view
  .ok { quantum := params.quantum, rng := params.seed, n := view.n,
        rank := fun i => keys.idxOf i, byRank := fun r => keys.getD r 0,
        tree := fun _ => 0, total := 0, log2n := highestPower view.n view.n 1 }

/-- `lottery_enqueue`. -/
def lotteryEnqueue (view : SchedView D) (s : Lottery) (p : Nat) : Option Lottery :=
  let t := (view.procs p).tickets
  let s := fenwickAdd s (s.rank p) t
  some { s with total := s.total + t }

/-- `lottery_requeue`. -/
def lotteryRequeue (view : SchedView D) (s : Lottery) (p : Nat) (_ : Int) : Option Lottery :=
  lotteryEnqueue view s p

/-- `lottery_next_slice`. -/
def lotteryNextSlice (view : SchedView D) (s : Lottery) : Option (Lottery × Option Slice) :=
  if s.total = 0 then some (s, none)
  else do
    let (rng, winner) ← drawBelow s.rng s.total.toNat
    let s := { s with rng }
    let p := s.byRank (fenwickFind s winner)
    let t := (view.procs p).tickets
    let s := fenwickAdd s (s.rank p) (-t)
    some ({ s with total := s.total - t },
      some { proc := p, length := s.quantum, deadline := schedNoDeadline })

/-- `POLICY_LOTTERY`. -/
def policyLottery : Policy D where
  State := Lottery
  name := "lottery"
  preemptive := true
  preemptOnReady := false
  usesQuantum := true
  usesEstimates := false
  workConserving := true
  offline := false
  create := lotteryCreate
  onArrival := lotteryEnqueue
  onReady := none
  nextSlice := lotteryNextSlice
  onPreempt := some lotteryRequeue
  onBlock := none
  onComplete := none

end CpuSched
