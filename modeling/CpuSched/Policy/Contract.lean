import CpuSched.Policy.Core
import CpuSched.Workload.Correctness

/-!
# The call protocol

What `include/sched/policy.h` asks of the engine and of a policy.  A `Place`
says where the protocol has a process.  A policy keeps the contract when some
invariant ties its state to the places: every hook the protocol allows succeeds
and moves one process, and `next_slice` returns a ready process with a positive
length and a deadline in the future, or says that there is none.
-/

namespace CpuSched

/-- Where a process is in the call protocol. -/
inductive Place
  /-- Not yet handed to the policy. -/
  | new
  /-- Handed to the policy and not yet returned by `next_slice`. -/
  | ready
  /-- Returned by `next_slice` and not yet reported back. -/
  | out (s : Slice)
  /-- Reported as blocked and not yet woken. -/
  | blocked
  /-- Reported as complete. -/
  | done
  deriving DecidableEq

/-- Where every process is. -/
abbrev Places := Nat → Place

/-- Moves one process. -/
def Places.move (pl : Places) (p : Nat) (place : Place) : Places :=
  Function.update pl p place

@[simp]
theorem Places.move_self (pl : Places) (p : Nat) (place : Place) : pl.move p place p = place :=
  Function.update_self ..

@[simp]
theorem Places.move_of_ne (pl : Places) {p q : Nat} (place : Place) (h : q ≠ p) :
    pl.move p place q = pl q :=
  Function.update_of_ne h ..

theorem Places.move_apply (pl : Places) (p q : Nat) (place : Place) :
    pl.move p place q = if q = p then place else pl q :=
  Function.update_apply ..

variable {D : Type}

/-- A view the engine may lend: the workload `w`, a clock that is not negative,
and ready processes with work left. -/
structure ViewOk (w : Workload) (v : SchedView D) (pl : Places) : Prop where
  procs_eq : v.procs = w.proc
  n_eq : v.n = w.len
  now_nonneg : 0 ≤ v.now
  ready_pos : ∀ p, pl p = .ready → 0 < v.remaining p
  outside : ∀ p, pl p ≠ .new → p < w.len

/-- How the view may change between two hook calls: the clock moves forward and
what the policy may read of a ready process stays. -/
structure ViewStep (pl : Places) (v v' : SchedView D) : Prop where
  procs_eq : v'.procs = v.procs
  n_eq : v'.n = v.n
  cores_eq : v'.cores = v.cores
  csCost_eq : v'.csCost = v.csCost
  now_le : v.now ≤ v'.now
  oracle_iff : v'.predicted = none ↔ v.predicted = none
  remaining_eq : ∀ p, pl p = .ready → v'.remaining p = v.remaining p
  burstLen_eq : ∀ p, pl p = .ready → v'.burstLen p = v.burstLen p
  predicted_eq : ∀ p, pl p = .ready →
    v'.predicted.map (fun f => f p) = v.predicted.map (fun f => f p)

/-- A call of an optional hook; a null hook does nothing. -/
def optCall {σ : Type} (f : Option (SchedView D → σ → Nat → Int → Option σ)) (v : SchedView D)
    (s : σ) (p : Nat) (ran : Int) : Option σ :=
  match f with
  | none => some s
  | some f => f v s p ran

/-- What `next_slice` may return in state `s'`.  `whole` asks for slices that
cover the whole burst, `mayIdle` allows a refusal while processes are ready. -/
def NextOk {σ : Type} (Inv : SchedView D → σ → Places → Prop) (whole mayIdle : Prop)
    (v : SchedView D) (pl : Places) (s' : σ) : Option Slice → Prop
  | none => Inv v s' pl ∧ ((∀ p, pl p ≠ .ready) ∨ (mayIdle ∧ ∃ p < v.n, pl p = .new))
  | some slice =>
      pl slice.proc = .ready ∧ 0 < slice.length ∧ v.now < slice.deadline ∧
        slice.deadline ≤ int64Max ∧
        (whole → v.remaining slice.proc ≤ slice.length ∧ slice.deadline = schedNoDeadline) ∧
        Inv v s' (pl.move slice.proc (.out slice))

/-- The contract of a policy over the workload `w`, kept by `Inv`. -/
structure Contract (w : Workload) (P : Policy D)
    (Inv : SchedView D → P.State → Places → Prop) : Prop where
  /-- A policy that cannot be handed a process back is not re-decided. -/
  interruptible : P.onPreempt = none → P.preemptOnReady = false
  view : ∀ {v v' s pl}, Inv v s pl → ViewOk w v pl → ViewOk w v' pl → ViewStep pl v v' →
    Inv v' s pl
  arrival : ∀ {v s pl p}, Inv v s pl → ViewOk w v pl → p < w.len → pl p = .new →
    0 < v.remaining p → ∃ s', P.onArrival v s p = some s' ∧ Inv v s' (pl.move p .ready)
  wake : ∀ {v s pl p}, Inv v s pl → ViewOk w v pl → pl p = .blocked → 0 < v.remaining p →
    ∃ s', P.wakeHook v s p = some s' ∧ Inv v s' (pl.move p .ready)
  next : ∀ {v s pl}, Inv v s pl → ViewOk w v pl → v.now < int64Max →
    ∃ s' r, P.nextSlice v s = some (s', r) ∧
      NextOk Inv (P.onPreempt = none) (P.workConserving = false) v pl s' r
  preempt : ∀ {v s pl p slice ran f}, Inv v s pl → ViewOk w v pl → pl p = .out slice →
    1 ≤ ran → ran ≤ slice.length → 0 < v.remaining p → P.onPreempt = some f →
    ∃ s', f v s p ran = some s' ∧ Inv v s' (pl.move p .ready)
  block : ∀ {v s pl p slice ran}, Inv v s pl → ViewOk w v pl → pl p = .out slice →
    1 ≤ ran → ran ≤ slice.length → 1 < (w.proc p).phaseCount →
    ∃ s', optCall P.onBlock v s p ran = some s' ∧ Inv v s' (pl.move p .blocked)
  complete : ∀ {v s pl p slice ran}, Inv v s pl → ViewOk w v pl → pl p = .out slice →
    1 ≤ ran → ran ≤ slice.length →
    ∃ s', optCall P.onComplete v s p ran = some s' ∧ Inv v s' (pl.move p .done)

/-- The list holds exactly the ready processes, each once. -/
structure Holds (pl : Places) (ready : List Nat) : Prop where
  nodup : ready.Nodup
  mem_iff : ∀ p, p ∈ ready ↔ pl p = .ready

/-- A policy whose `create`, when it succeeds on the view `v`, sets up a contract
over `w` in which its ready structure, read by `stores`, holds the ready
processes. -/
def Lawful (w : Workload) (P : Policy D) (stores : P.State → List Nat → Prop) (v : SchedView D)
    (params : PolicyParams) : Prop :=
  ∀ s, P.create v params = .ok s →
    ∃ Inv, Contract w P Inv ∧ Inv v s (fun _ => .new) ∧
      ∀ {v s pl}, Inv v s pl → ViewOk w v pl → ∃ ready, stores s ready ∧ Holds pl ready

end CpuSched
