import CpuSched.Policies.ProportionalShare
import CpuSched.Reference.Policies

/-!
# The other classes of the reference simulator

`Fcfs`, `Sjf`, `Rr`, `Priority(preemptive=False)`, `Lottery`, `Stride` and `Cfs` of
`tools/reference_sim.py`.  Their ready sets are plain lists that every pick scans, a
dictionary is a function of the process, and the generator of `Lottery` works on integers
under a mask.  `Sjf` is given for exact bursts.
-/

namespace CpuSched

variable {D : Type}

/-! ## `Fcfs` and `Rr` -/

/-- `Fcfs.arrive`. -/
def refFcfsArrive (_ : SchedView D) (q : List Nat) (p : Nat) : Option (List Nat) :=
  some (q ++ [p])

/-- `Fcfs.pick`. -/
def refFcfsPick (v : SchedView D) : List Nat → Option (List Nat × Option Slice)
  | [] => some ([], none)
  | p :: rest => some (rest, some ⟨p, v.remaining p, schedNoDeadline⟩)

/-- `class Fcfs`. -/
def refFcfs : Policy D where
  State := List Nat
  name := "fcfs"
  preemptive := false
  preemptOnReady := false
  usesQuantum := false
  usesEstimates := false
  workConserving := true
  offline := false
  create _ _ := .ok []
  onArrival := refFcfsArrive
  onReady := none
  nextSlice := refFcfsPick
  onPreempt := none
  onBlock := none
  onComplete := none

/-- The fields of `Rr`. -/
structure RefRr where
  q : List Nat
  quantum : Int

namespace RefRr

/-- `Fcfs.arrive` and `Rr.preempt`. -/
def arrive (_ : SchedView D) (s : RefRr) (p : Nat) : Option RefRr :=
  some { s with q := s.q ++ [p] }

/-- `Rr.pick`. -/
def pick (_ : SchedView D) (s : RefRr) : Option (RefRr × Option Slice) :=
  match s.q with
  | [] => some (s, none)
  | p :: rest => some ({ s with q := rest }, some ⟨p, s.quantum, schedNoDeadline⟩)

end RefRr

/-- `class Rr`. -/
def refRr : Policy D where
  State := RefRr
  name := "rr"
  preemptive := true
  preemptOnReady := false
  usesQuantum := true
  usesEstimates := false
  workConserving := true
  offline := false
  create _ params := .ok ⟨[], params.quantum⟩
  onArrival := RefRr.arrive
  onReady := none
  nextSlice := RefRr.pick
  onPreempt := some fun v s p _ => RefRr.arrive v s p
  onBlock := none
  onComplete := none

/-! ## `Sjf` -/

/-- `Sjf.key` with exact bursts: `(burst_len, arrival, pid)`. -/
def refSjfLess (v : SchedView D) (a b : Nat) : Bool :=
  lessByArrival v (cmpInt (v.burstLen a) (v.burstLen b)) a b

/-- `KeyedNonPreemptive.pick` for the order `less` of the keys. -/
def refKeyedPick (less : Nat → Nat → Bool) (v : SchedView D) (readyList : List Nat) :
    Option (List Nat × Option Slice) :=
  match minBy less readyList with
  | none => some (readyList, none)
  | some p => some (readyList.erase p, some ⟨p, v.remaining p, schedNoDeadline⟩)

/-- `class Sjf`. -/
def refSjf : Policy D where
  State := List Nat
  name := "sjf"
  preemptive := false
  preemptOnReady := false
  usesQuantum := false
  usesEstimates := true
  workConserving := true
  offline := false
  create _ _ := .ok []
  onArrival _ readyList p := some (readyList ++ [p])
  onReady := none
  nextSlice v readyList := refKeyedPick (refSjfLess v) v readyList
  onPreempt := none
  onBlock := none
  onComplete := none

/-! ## `Priority(preemptive=False)` -/

/-- `Priority(preemptive=False)`.  Its slices cover the burst and nothing cuts them, so its
`preempt` is never called. -/
def refPrio : Policy D where
  State := RefPriority
  name := "prio"
  preemptive := false
  preemptOnReady := false
  usesQuantum := false
  usesEstimates := false
  workConserving := true
  offline := false
  create _ params := .ok ⟨params.aging, [], fun _ => 0, fun _ => 0⟩
  onArrival := RefPriority.arrive
  onReady := none
  nextSlice := RefPriority.pick
  onPreempt := none
  onBlock := none
  onComplete := none

/-! ## `Lottery` -/

/-- `MASK64`. -/
def mask64 : Nat := 2 ^ 64 - 1

/-- `splitmix64` of the reference: the new state and the output. -/
def refSplitmix64 (state : Nat) : Nat × Nat :=
  let state := (state + 0x9E3779B97F4A7C15) &&& mask64
  let z := state
  let z := ((z ^^^ (z >>> 30)) * 0xBF58476D1CE4E5B9) &&& mask64
  let z := ((z ^^^ (z >>> 27)) * 0x94D049BB133111EB) &&& mask64
  (state, z ^^^ (z >>> 31))

/-- The loop of `Lottery.pick` that draws, cut off after `fuel` rounds. -/
def refDraw (threshold : Int) : Nat → Nat → Option (Nat × Nat)
  | 0, _ => none
  | fuel + 1, rng =>
      let (rng, x) := refSplitmix64 rng
      if threshold ≤ x then some (rng, x) else refDraw threshold fuel rng

/-- The fields of `Lottery`. -/
structure RefLottery where
  q : List Nat
  quantum : Int
  rng : Nat

namespace RefLottery

/-- `Fcfs.arrive` and `Rr.preempt`. -/
def arrive (_ : SchedView D) (s : RefLottery) (p : Nat) : Option RefLottery :=
  some { s with q := s.q ++ [p] }

/-- `sum(self.st.procs[p].tickets for p in self.q)`. -/
def total (v : SchedView D) (s : RefLottery) : Int :=
  (s.q.map fun p => (v.procs p).tickets).sum

/-- `Lottery.pick`; the state has a period of `2^64`, so a loop that is still going after
that many rounds never ends. -/
def pick (v : SchedView D) (s : RefLottery) : Option (RefLottery × Option Slice) :=
  match s.q with
  | [] => some (s, none)
  | _ :: _ => do
      let total := s.total v
      let (rng, x) ← refDraw ((2 ^ 64 - total) % total) (2 ^ 64) s.rng
      let p ← refLotteryPick v s.q (x % total)
      some ({ s with rng, q := s.q.erase p }, some ⟨p, s.quantum, schedNoDeadline⟩)

end RefLottery

/-- `class Lottery`. -/
def refLottery : Policy D where
  State := RefLottery
  name := "lottery"
  preemptive := true
  preemptOnReady := false
  usesQuantum := true
  usesEstimates := false
  workConserving := true
  offline := false
  create _ params := .ok ⟨[], params.quantum, params.seed.toNat &&& mask64⟩
  onArrival := RefLottery.arrive
  onReady := none
  nextSlice := RefLottery.pick
  onPreempt := some fun v s p _ => RefLottery.arrive v s p
  onBlock := none
  onComplete := none

/-! ## `Stride` -/

/-- The fields of `Stride`. -/
structure RefStride where
  readyList : List Nat
  passv : Nat → Int
  vtime : Int
  quantum : Int

namespace RefStride

/-- `self.ready_list.append(p)`. -/
def push (s : RefStride) (p : Nat) : RefStride := { s with readyList := s.readyList ++ [p] }

/-- `Stride.arrive`. -/
def arrive (_ : SchedView D) (s : RefStride) (p : Nat) : Option RefStride :=
  some (push { s with passv := Function.update s.passv p s.vtime } p)

/-- `Stride.ready`. -/
def ready (_ : SchedView D) (s : RefStride) (p : Nat) : Option RefStride :=
  some (push { s with passv := Function.update s.passv p (max (s.passv p) s.vtime) } p)

/-- `Stride._charge`; `STRIDE1` is `1 << 20`. -/
def charge (v : SchedView D) (s : RefStride) (p : Nat) (ran : Int) : RefStride :=
  { s with passv :=
      Function.update s.passv p (s.passv p + 2 ^ 20 / (v.procs p).tickets * ran) }

/-- `Stride.preempt`. -/
def preempt (v : SchedView D) (s : RefStride) (p : Nat) (ran : Int) : Option RefStride :=
  some ((s.charge v p ran).push p)

/-- `Stride.block` and `Stride.complete`. -/
def leave (v : SchedView D) (s : RefStride) (p : Nat) (ran : Int) : Option RefStride :=
  some (s.charge v p ran)

/-- `Stride.pick`. -/
def pick (v : SchedView D) (s : RefStride) : Option (RefStride × Option Slice) :=
  match minBy (lessByPid v s.passv) s.readyList with
  | none => some (s, none)
  | some p =>
      some ({ s with readyList := s.readyList.erase p, vtime := s.passv p },
        some ⟨p, s.quantum, schedNoDeadline⟩)

end RefStride

/-- `class Stride`. -/
def refStride : Policy D where
  State := RefStride
  name := "stride"
  preemptive := true
  preemptOnReady := false
  usesQuantum := true
  usesEstimates := false
  workConserving := true
  offline := false
  create _ params := .ok ⟨[], fun _ => 0, 0, params.quantum⟩
  onArrival := RefStride.arrive
  onReady := some RefStride.ready
  nextSlice := RefStride.pick
  onPreempt := some RefStride.preempt
  onBlock := some RefStride.leave
  onComplete := some RefStride.leave

/-! ## `Cfs` -/

/-- The fields of `Cfs`. -/
structure RefCfs where
  readyList : List Nat
  vr : Nat → Int
  minVr : Int
  load : Int
  lat : Int
  gran : Int

namespace RefCfs

/-- `Cfs._w`. -/
def weight (v : SchedView D) (p : Nat) : Int :=
  niceToWeight.getD ((v.procs p).nice + 20).toNat 0

/-- `Cfs._update_min`. -/
def updateMin (s : RefCfs) : RefCfs :=
  match (s.readyList.map s.vr).min? with
  | none => s
  | some left => { s with minVr := max s.minVr left }

/-- `Cfs._push`. -/
def push (s : RefCfs) (p : Nat) : RefCfs :=
  updateMin { s with readyList := s.readyList ++ [p] }

/-- `Cfs._delta`. -/
def delta (v : SchedView D) (p : Nat) (ran : Int) : Int := ran * 2 ^ 26 / weight v p

/-- `Cfs.arrive`. -/
def arrive (v : SchedView D) (s : RefCfs) (p : Nat) : Option RefCfs :=
  some (push { s with
    vr := Function.update s.vr p s.minVr
    load := s.load + weight v p } p)

/-- `Cfs.ready`. -/
def ready (v : SchedView D) (s : RefCfs) (p : Nat) : Option RefCfs :=
  some (push { s with
    vr := Function.update s.vr p (max (s.vr p) (s.minVr - s.lat * 2 ^ 16 / 2))
    load := s.load + weight v p } p)

/-- The charge of `Cfs.preempt` and `Cfs.block`. -/
def charge (v : SchedView D) (s : RefCfs) (p : Nat) (ran : Int) : RefCfs :=
  { s with vr := Function.update s.vr p (s.vr p + delta v p ran) }

/-- `Cfs.preempt`. -/
def preempt (v : SchedView D) (s : RefCfs) (p : Nat) (ran : Int) : Option RefCfs :=
  some ((s.charge v p ran).push p)

/-- `Cfs.block` and `Cfs.complete`. -/
def leave (v : SchedView D) (s : RefCfs) (p : Nat) (ran : Int) : Option RefCfs :=
  some { s.charge v p ran with load := s.load - weight v p }

/-- `Cfs.pick`; a zero `load` would divide by zero. -/
def pick (v : SchedView D) (s : RefCfs) : Option (RefCfs × Option Slice) :=
  match minBy (lessByPid v s.vr) s.readyList with
  | none => some (s, none)
  | some p =>
      let s := updateMin { s with readyList := s.readyList.erase p }
      if s.load = 0 then none
      else some (s, some ⟨p, max (s.lat * weight v p / s.load) s.gran, schedNoDeadline⟩)

end RefCfs

/-- `class Cfs`. -/
def refCfs : Policy D where
  State := RefCfs
  name := "cfs"
  preemptive := true
  preemptOnReady := false
  usesQuantum := false
  usesEstimates := false
  workConserving := true
  offline := false
  create _ params := .ok ⟨[], fun _ => 0, 0, 0, params.cfsLatency, params.cfsMinGran⟩
  onArrival := RefCfs.arrive
  onReady := some RefCfs.ready
  nextSlice := RefCfs.pick
  onPreempt := some RefCfs.preempt
  onBlock := some RefCfs.leave
  onComplete := some RefCfs.leave

end CpuSched
