import CpuSched.Engine.Fields
import CpuSched.Policy.Contract
import CpuSched.Util.HeapOrder
import Mathlib.Algebra.BigOperators.Group.Finset.Basic
import Mathlib.Algebra.Order.BigOperators.Group.Finset

/-!
# The engine invariant

A `Spot` says where the engine has a process; a configuration is an engine and a
spot for every process.  `Sound` is what holds between any two steps of an
instant: each process is where its spot says, the policy's contract invariant
holds for the same places, the progress counters fit the phases, the cores run
what their slices ask for, and the unserved work still fits before `INT64_MAX`.
-/

namespace CpuSched

/-- Where the engine has a process. -/
inductive Spot
  /-- Not yet admitted. -/
  | new
  /-- In the policy's ready set. -/
  | ready
  /-- Returned by `next_slice` and not yet on a core. -/
  | held (s : Slice)
  /-- On core `c`, running or switching in. -/
  | core (c : Nat) (s : Slice)
  /-- In the blocked heap. -/
  | blocked
  /-- Completed. -/
  | done
  deriving DecidableEq

/-- Where the call protocol has a process. -/
def Spot.place : Spot → Place
  | new => .new
  | ready => .ready
  | held s => .out s
  | core _ s => .out s
  | blocked => .blocked
  | done => .done

/-- The places of all processes. -/
def places (sp : Nat → Spot) : Places := fun p => (sp p).place

@[simp]
theorem places_update (sp : Nat → Spot) (p : Nat) (s : Spot) :
    places (Function.update sp p s) = (places sp).move p s.place := by
  funext q
  by_cases hq : q = p
  · subst hq
    simp [places]
  · simp [places, hq]

theorem places_eq_new {sp : Nat → Spot} {p : Nat} : places sp p = .new ↔ sp p = .new := by
  unfold places
  cases sp p <;> simp [Spot.place]

theorem places_eq_ready {sp : Nat → Spot} {p : Nat} : places sp p = .ready ↔ sp p = .ready := by
  unfold places
  cases sp p <;> simp [Spot.place]

theorem places_eq_blocked {sp : Nat → Spot} {p : Nat} :
    places sp p = .blocked ↔ sp p = .blocked := by
  unfold places
  cases sp p <;> simp [Spot.place]

theorem places_of_core {sp : Nat → Spot} {p c : Nat} {s : Slice} (h : sp p = .core c s) :
    places sp p = .out s := by
  simp [places, h, Spot.place]

/-! ## The parts of the invariant -/

/-- `order[]` from `next` on: the processes not yet admitted, by arrival and
pid. -/
structure PendingOk (w : Workload) (now : Int) (pending : List ArrivalKey) (sp : Nat → Spot) :
    Prop where
  sorted : pending.Pairwise fun a b =>
    a.arrival < b.arrival ∨ (a.arrival = b.arrival ∧ a.pid < b.pid)
  keys : ∀ key ∈ pending, key.arrival = (w.proc key.index).arrival ∧
    key.pid = (w.proc key.index).pid
  arrival_ge : ∀ key ∈ pending, now ≤ key.arrival
  nodup : (pending.map ArrivalKey.index).Nodup
  mem_iff : ∀ p, p ∈ pending.map ArrivalKey.index ↔ p < w.len ∧ sp p = .new

/-- The blocked heap. -/
structure BlockedOk (n : Nat) (less : Nat → Nat → Bool) (now : Int) (wake : Nat → Int)
    (blocked : Heap) (sp : Nat → Spot) : Prop where
  cap_eq : blocked.cap = n
  nodup : blocked.toList.Nodup
  mem_iff : ∀ p, p ∈ blocked.toList ↔ sp p = .blocked
  ordered : HeapOrdered less blocked.items blocked.len
  wake_ge : ∀ p, sp p = .blocked → now ≤ wake p

/-- A slice that a policy may hand out at `now` to a process with `remaining`
ticks left; `whole` is what a policy without `on_preempt` owes. -/
structure SliceOk (whole : Prop) (now remaining : Int) (s : Slice) : Prop where
  length_pos : 0 < s.length
  deadline_gt : now < s.deadline
  deadline_le : s.deadline ≤ int64Max
  whole : whole → remaining ≤ s.length ∧ s.deadline = schedNoDeadline

/-- A core that a process is on. -/
structure SeatOk (whole : Prop) (now remaining : Int) (core : Core) (s : Slice) : Prop where
  proc_eq : core.proc = some s.proc
  context_eq : core.context = some s.proc
  length_eq : core.length = s.length
  length_pos : 0 < core.length
  deadline_le : core.deadline ≤ int64Max
  whole : whole → remaining ≤ core.length ∧ core.deadline = schedNoDeadline ∧
    core.recheck = false
  switching : core.inCs = true → now ≤ core.busyUntil
  running : core.inCs = false → core.runStart ≤ now ∧ now ≤ core.busyUntil ∧
    core.runStart < core.busyUntil ∧
    core.runEnd = core.runStart + min core.length remaining ∧
    core.busyUntil = min core.deadline core.runEnd

/-- The cores and the processes on them. -/
structure CoresOk (whole : Prop) (ncores : Nat) (now : Int) (remaining : Nat → Int)
    (cores : Nat → Core) (sp : Nat → Spot) : Prop where
  seat : ∀ p c s, sp p = .core c s →
    c < ncores ∧ s.proc = p ∧ SeatOk whole now (remaining p) (cores c) s
  owner : ∀ c < ncores, ∀ p, (cores c).proc = some p → ∃ s, sp p = .core c s
  free : ∀ c < ncores, (cores c).proc = none → (cores c).inCs = false ∧ (cores c).freeSince ≤ now
  held : ∀ p s, sp p = .held s → s.proc = p ∧ SliceOk whole now (remaining p) s

/-- The progress of a process that has not completed. -/
structure ProgressOk (proc : Process) (phase : Nat) (burstLen remaining : Int) : Prop where
  even : phase % 2 = 0
  phase_lt : phase < proc.phaseCount
  burstLen_eq : burstLen = proc.phase phase
  remaining_pos : 0 < remaining
  remaining_le : remaining ≤ burstLen

/-- The progress of every process. -/
structure DataOk (w : Workload) (phase : Nat → Nat) (burstLen remaining : Nat → Int)
    (sp : Nat → Spot) : Prop where
  progress : ∀ p < w.len, sp p ≠ .done → ProgressOk (w.proc p) (phase p) (burstLen p) (remaining p)
  fresh : ∀ p < w.len, sp p = .new ∨ sp p = .blocked → remaining p = burstLen p

/-- The processes that have completed. -/
def doneSet (n : Nat) (sp : Nat → Spot) : Finset Nat :=
  (Finset.range n).filter fun p => sp p = .done

/-! ## The unserved work -/

/-- The phases after phase `k`. -/
def Process.tail (p : Process) (k : Nat) : Int := (p.phases.drop (k + 1)).sum

theorem Process.Valid.tail_nonneg {p : Process} (valid : p.Valid) (k : Nat) : 0 ≤ p.tail k := by
  apply List.sum_nonneg
  intro x hx
  exact (valid.phases_pos x (List.mem_of_mem_drop hx)).le

/-- After phase `k` come an I/O phase, a CPU phase and the rest. -/
theorem Process.tail_eq {p : Process} {k : Nat} (h : k + 2 < p.phaseCount) :
    p.tail k = p.phase (k + 1) + (p.phase (k + 2) + p.tail (k + 2)) := by
  unfold Process.phaseCount at h
  unfold Process.tail Process.phase
  rw [List.drop_eq_getElem_cons (by omega), List.drop_eq_getElem_cons (by omega),
    List.sum_cons, List.sum_cons, List.getD_eq_getElem _ _ (by omega),
    List.getD_eq_getElem _ _ (by omega)]

namespace Sim

variable {D : Type} (S : Sim D)

/-- An engine and where it has every process. -/
structure Config where
  eng : S.Eng
  spots : Nat → Spot

/-- The ticks of CPU and I/O that process `p` still asks for. -/
def spotWork (e : S.Eng) (p : Nat) : Spot → Int
  | .done => 0
  | .blocked => e.wake p - e.now + (e.remaining p + (S.w.proc p).tail (e.phase p))
  | .core c _ => e.remaining p + (S.w.proc p).tail (e.phase p) -
      (if (e.cores c).inCs then 0 else e.now - (e.cores c).runStart)
  | _ => e.remaining p + (S.w.proc p).tail (e.phase p)

/-- The unserved work of all processes. -/
def work (a : S.Config) : Int := ∑ p ∈ Finset.range S.w.len, S.spotWork a.eng p (a.spots p)

/-- `on_preempt` is null. -/
def Whole : Prop := S.policy.onPreempt = none

/-- What holds between any two steps of an instant; `budget` is the clock plus
the unserved work, which no step changes. -/
structure Sound (PInv : SchedView D → S.policy.State → Places → Prop) (budget : Int)
    (a : S.Config) : Prop where
  policy : PInv (S.view a.eng) a.eng.state (places a.spots)
  outside : ∀ p, S.w.len ≤ p → a.spots p = .new
  pending : PendingOk S.w a.eng.now a.eng.pending a.spots
  blocked : BlockedOk S.w.len (S.blockedLess a.eng.wake) a.eng.now a.eng.wake a.eng.blocked a.spots
  cores : CoresOk S.Whole S.opt.cores a.eng.now a.eng.remaining a.eng.cores a.spots
  data : DataOk S.w a.eng.phase a.eng.burstLen a.eng.remaining a.spots
  completed_eq : a.eng.completed = (doneSet S.w.len a.spots).card
  now_nonneg : 0 ≤ a.eng.now
  budget_eq : a.eng.now + S.work a = budget
  budget_le : budget ≤ int64Max
  no_overflow : a.eng.fail ≠ .overflow

end Sim

end CpuSched
