import CpuSched.Policies.OneCpu
import CpuSched.Policies.Registry

/-!
# Idle periods

On one core a schedule that never idles while a process is unfinished is busy in a tick
exactly if the processes that have arrived bring more work than has been done.  So all
such schedules of a workload are busy in the same ticks, and the idle segments of the runs
of any two online policies are the same.
-/

namespace CpuSched

variable {w : Workload} {σ : Int → Option Nat}

/-! ## Schedules that conserve work -/

/-- A schedule that runs something in every tick in which a process that has arrived is
unfinished. -/
structure WorkConserving (w : Workload) (σ : Int → Option Nat) : Prop where
  feasible : Feasible w σ
  busy : ∀ t, ∀ p < w.len, (w.proc p).arrival ≤ t →
    ticksBefore σ p t < (w.proc p).burst → σ t ≠ none

/-- The ticks before `t` in which something runs. -/
noncomputable def workBefore (w : Workload) (σ : Int → Option Nat) (t : Int) : Int :=
  ∑ p ∈ Finset.range w.len, ticksBefore σ p t

/-- The work of the processes that have arrived by `t`. -/
def workArrived (w : Workload) (t : Int) : Int :=
  ∑ p ∈ Finset.range w.len, if (w.proc p).arrival ≤ t then (w.proc p).burst else 0

section Schedules

variable (valid : w.Valid)
include valid

theorem Feasible.workBefore_succ (feasible : Feasible w σ) (t : Int) :
    workBefore w σ (t + 1) = workBefore w σ t + if σ t = none then 0 else 1 := by
  unfold workBefore
  rw [Finset.sum_congr rfl fun p hp => feasible.ticksBefore_succ valid (Finset.mem_range.mp hp) t,
    Finset.sum_add_distrib]
  congr 1
  cases runs : σ t with
  | none => simp
  | some p =>
      have hp := (feasible.released t p runs).1
      simp [hp]

/-- A tick is busy exactly if not all work that has arrived is done. -/
theorem WorkConserving.busy_iff (conserving : WorkConserving w σ) (t : Int) :
    σ t ≠ none ↔ workBefore w σ t < workArrived w t := by
  obtain ⟨feasible, busy⟩ := conserving
  have done_le : ∀ p ∈ Finset.range w.len,
      ticksBefore σ p t ≤ if (w.proc p).arrival ≤ t then (w.proc p).burst else 0 := by
    intro p hp
    split_ifs with arrived
    · exact feasible.ticksBefore_le valid (Finset.mem_range.mp hp) t
    · exact (feasible.ticksBefore_arrival (not_le.mp arrived).le).le
  constructor
  · intro runs
    obtain ⟨p, runs⟩ := Option.ne_none_iff_exists'.mp runs
    obtain ⟨hp, arrived⟩ := feasible.released t p runs
    refine Finset.sum_lt_sum done_le ⟨p, Finset.mem_range.mpr hp, ?_⟩
    have step := feasible.ticksBefore_succ valid hp t
    have le := feasible.ticksBefore_le valid hp (t + 1)
    rw [if_pos runs] at step
    rw [if_pos arrived]
    omega
  · intro less
    obtain ⟨p, hp, less⟩ := Finset.exists_lt_of_sum_lt less
    have hp := Finset.mem_range.mp hp
    by_cases arrived : (w.proc p).arrival ≤ t
    · rw [if_pos arrived] at less
      exact busy t p hp arrived less
    · rw [if_neg arrived, feasible.ticksBefore_arrival (not_le.mp arrived).le] at less
      exact absurd less (lt_irrefl 0)

/-- Two schedules that conserve work are busy in the same ticks. -/
theorem WorkConserving.busy_same {σ' : Int → Option Nat} (first : WorkConserving w σ)
    (second : WorkConserving w σ') (t : Int) : σ t = none ↔ σ' t = none := by
  have early : ∀ {σ : Int → Option Nat}, Feasible w σ → ∀ t < 0, σ t = none := by
    intro σ feasible t neg
    cases runs : σ t with
    | none => rfl
    | some p =>
        obtain ⟨hp, arrived⟩ := feasible.released t p runs
        have := (valid.proc hp).arrival_nonneg
        omega
  have start : ∀ {σ : Int → Option Nat}, Feasible w σ → workBefore w σ 0 = 0 := fun feasible =>
    Finset.sum_eq_zero fun p hp => feasible.ticksBefore_arrival
      (valid.proc (Finset.mem_range.mp hp)).arrival_nonneg
  -- the work done is the same at all times
  have same : ∀ k : Nat, workBefore w σ k = workBefore w σ' k := by
    intro k
    induction k with
    | zero => exact (start first.feasible).trans (start second.feasible).symm
    | succ k ih =>
        push_cast
        rw [first.feasible.workBefore_succ valid, second.feasible.workBefore_succ valid, ih]
        congr 1
        refine if_congr (not_iff_not.mp ?_) rfl rfl
        rw [← ne_eq, ← ne_eq, first.busy_iff valid, second.busy_iff valid, ih]
  by_cases neg : t < 0
  · exact iff_of_true (early first.feasible t neg) (early second.feasible t neg)
  · rw [← not_iff_not, ← ne_eq, ← ne_eq, first.busy_iff valid, second.busy_iff valid,
      ← Int.toNat_of_nonneg (not_lt.mp neg), same]

end Schedules

/-! ## Idle segments -/

/-- The idle segments of a timeline. -/
def idlePeriods (l : List Segment) : List Segment := l.filter fun seg => seg.kind = .idle

section Tiled

variable {first stop : Int} {l l' : List Segment}

theorem Tiled.within {cs : Int} (tiled : Tiled cs first l stop) :
    ∀ seg ∈ l, first ≤ seg.start ∧ seg.stop ≤ stop := by
  induction tiled with
  | nil => simp
  | cons before lt follows ih =>
      intro seg mem
      rcases List.mem_cons.mp mem with rfl | mem
      · exact ⟨before.le, le_rfl⟩
      · have := ih seg mem
        exact ⟨this.1, this.2.trans lt.le⟩

theorem Tiled.covered {cs : Int} (tiled : Tiled cs first l stop) {t : Int} (le : first ≤ t)
    (lt : t < stop) : ∃ seg ∈ l, seg.start ≤ t ∧ t < seg.stop := by
  induction tiled with
  | nil => omega
  | @cons l seg before _ follows ih =>
      by_cases here : seg.start ≤ t
      · exact ⟨seg, List.mem_cons_self, here, lt⟩
      · obtain ⟨seg', mem, h⟩ := ih (not_le.mp here)
        exact ⟨seg', List.mem_cons_of_mem _ mem, h⟩

/-- Without switch costs an idle segment reaches from the start of the timeline or the end
of a run to the next run or the end of the timeline. -/
theorem Tiled.idle_bounds (tiled : Tiled 0 first l stop) : ∀ seg ∈ l, seg.kind = .idle →
    (seg.start = first ∨ ∃ run ∈ l, run.kind = .run ∧ run.stop = seg.start) ∧
    ((seg.stop = stop ∧ l.head? = some seg) ∨ ∃ run ∈ l, run.kind = .run ∧
      run.start = seg.stop) := by
  induction tiled with
  | nil => simp
  | @cons l top before lt follows ih =>
      intro seg mem idle
      rcases List.mem_cons.mp mem with rfl | mem
      · refine ⟨?_, .inl ⟨rfl, rfl⟩⟩
        cases l with
        | nil => exact .inl before.nil_eq
        | cons last rest =>
            have runs : last.kind = .run := by
              cases follows with
              | idle head => exact head last rfl
              | switch => cases idle
              | run => cases idle
            exact .inr ⟨last, by simp, runs, before.head_stop last rfl⟩
      · obtain ⟨from_, up⟩ := ih seg mem idle
        refine ⟨from_.imp_right fun ⟨run, mem, h⟩ => ⟨run, List.mem_cons_of_mem _ mem, h⟩, .inr ?_⟩
        rcases up with ⟨stop_eq, newest⟩ | ⟨run, mem, h⟩
        · -- the newest segment before is idle, so the next one is a run
          refine ⟨top, List.mem_cons_self, ?_, stop_eq.symm⟩
          cases follows with
          | idle head => cases idle.symm.trans (head seg newest)
          | switch pos => exact absurd pos (lt_irrefl 0)
          | run => rfl
        · exact ⟨run, List.mem_cons_of_mem _ mem, h⟩

/-- A timeline without switch costs: it is in order, and each of its segments is a run or
idle. -/
theorem Tiled.runningAt_none (tiled : Tiled 0 first l.reverse stop)
    (ordered : l.Pairwise fun a b => a.stop ≤ b.start) {seg : Segment} (mem : seg ∈ l) {t : Int}
    (le : seg.start ≤ t) (lt : t < seg.stop) : runningAt l t = none ↔ seg.kind = .idle := by
  have mem' : seg ∈ l.reverse := List.mem_reverse.mpr mem
  constructor
  · intro none
    cases kind : seg.kind with
    | idle => rfl
    | cs =>
        have := tiled.cs_length seg mem' kind
        unfold Segment.length at this
        omega
    | run =>
        obtain ⟨p, own⟩ := Option.ne_none_iff_exists'.mp fun none' =>
          absurd ((tiled.idle_iff seg mem').mp none') (by simp [kind])
        cases none.symm.trans ((runningAt_iff ordered).mpr ⟨seg, mem, kind, own, le, lt⟩)
  · intro idle
    by_contra runs
    obtain ⟨p, runs⟩ := Option.ne_none_iff_exists'.mp runs
    obtain ⟨seg', mem', run, -, le', lt'⟩ := (runningAt_iff ordered).mp runs
    have ne : seg ≠ seg' := by
      rintro rfl
      cases idle.symm.trans run
    have apart : l.Pairwise (Apart Segment.start Segment.stop) := ordered.imp .inl
    have apart := apart.forall mem mem' ne
    unfold Apart at apart
    omega

variable (tiled : Tiled 0 first l.reverse stop) (ordered : l.Pairwise fun a b => a.stop ≤ b.start)
  (tiled' : Tiled 0 first l'.reverse stop) (ordered' : l'.Pairwise fun a b => a.stop ≤ b.start)
include tiled ordered

/-- Outside a timeline nothing runs, and beside an idle segment something does. -/
theorem Tiled.beside_idle {seg : Segment} (mem : seg ∈ l) (idle : seg.kind = .idle) :
    (seg.start ≠ first → runningAt l (seg.start - 1) ≠ none) ∧
      (seg.stop ≠ stop → runningAt l seg.stop ≠ none) := by
  obtain ⟨from_, up⟩ := tiled.idle_bounds seg (List.mem_reverse.mpr mem) idle
  constructor
  · intro ne
    obtain ⟨run, mem, kind, stop_eq⟩ := from_.resolve_left ne
    have mem := List.mem_reverse.mp mem
    have := tiled.lt run (List.mem_reverse.mpr mem)
    rw [ne_eq, tiled.runningAt_none ordered mem (by omega) (by omega), kind]
    simp
  · intro ne
    obtain ⟨run, mem, kind, start_eq⟩ := up.resolve_left fun h => ne h.1
    have mem := List.mem_reverse.mp mem
    have := tiled.lt run (List.mem_reverse.mpr mem)
    rw [ne_eq, tiled.runningAt_none ordered mem (by omega) (by omega), kind]
    simp

include tiled' ordered'

/-- An idle segment of one timeline is one of any other in which the same ticks are
busy. -/
theorem Tiled.idle_mem (same : ∀ t, runningAt l t = none ↔ runningAt l' t = none) {seg : Segment}
    (mem : seg ∈ l) (idle : seg.kind = .idle) : seg ∈ l' := by
  have within := tiled.within seg (List.mem_reverse.mpr mem)
  have lt := tiled.lt seg (List.mem_reverse.mpr mem)
  have quiet : ∀ t, seg.start ≤ t → t < seg.stop → runningAt l t = none := fun t le lt =>
    (tiled.runningAt_none ordered mem le lt).mpr idle
  obtain ⟨seg', mem', le', lt'⟩ := tiled'.covered within.1 (by omega : seg.start < stop)
  have mem' := List.mem_reverse.mp mem'
  have within' := tiled'.within seg' (List.mem_reverse.mpr mem')
  have idle' : seg'.kind = .idle :=
    (tiled'.runningAt_none ordered' mem' le' lt').mp ((same _).mp (quiet _ le_rfl lt))
  have quiet' : ∀ t, seg'.start ≤ t → t < seg'.stop → runningAt l t = none := fun t le lt =>
    (same t).mpr ((tiled'.runningAt_none ordered' mem' le lt).mpr idle')
  obtain ⟨before, after⟩ := tiled.beside_idle ordered mem idle
  obtain ⟨before', after'⟩ := tiled'.beside_idle ordered' mem' idle'
  have start_eq : seg'.start = seg.start := by
    by_contra ne
    exact before (by omega) (quiet' _ (by omega) (by omega))
  have stop_eq : seg'.stop = seg.stop := by
    rcases lt_trichotomy seg'.stop seg.stop with less | eq | more
    · exact absurd ((same _).mp (quiet _ (by omega) less)) (after' (by omega))
    · exact eq
    · exact absurd (quiet' _ (by omega) more) (after (by omega))
  have proc_eq : seg'.proc = seg.proc :=
    ((tiled'.idle_iff seg' (List.mem_reverse.mpr mem')).mpr idle').trans
      ((tiled.idle_iff seg (List.mem_reverse.mpr mem)).mpr idle).symm
  obtain ⟨a, b, p, k⟩ := seg
  obtain ⟨a', b', p', k'⟩ := seg'
  simp only at start_eq stop_eq proc_eq idle idle'
  subst start_eq stop_eq proc_eq idle idle'
  exact mem'

/-- Timelines in which the same ticks are busy have the same idle segments. -/
theorem Tiled.idlePeriods_eq (same : ∀ t, runningAt l t = none ↔ runningAt l' t = none) :
    idlePeriods l = idlePeriods l' := by
  have strict : ∀ {l : List Segment}, Tiled 0 first l.reverse stop →
      l.Pairwise (fun a b => a.stop ≤ b.start) →
      (idlePeriods l).Pairwise fun a b => a.start < b.start := by
    intro l tiled ordered
    refine (ordered.imp_of_mem fun {a b} ha _ le => ?_).filter _
    exact (tiled.lt a (List.mem_reverse.mpr ha)).trans_le le
  have nodup : ∀ {l : List Segment}, (l.Pairwise fun a b => a.start < b.start) → l.Nodup := fun h =>
    h.imp fun lt eq => absurd lt (by rw [eq]; exact lt_irrefl _)
  have perm : (idlePeriods l).Perm (idlePeriods l') := by
    refine (List.perm_ext_iff_of_nodup (nodup (strict tiled ordered))
      (nodup (strict tiled' ordered'))).mpr fun seg => ?_
    simp only [idlePeriods, List.mem_filter, decide_eq_true_eq]
    exact ⟨fun ⟨mem, idle⟩ => ⟨tiled.idle_mem ordered tiled' ordered' same mem idle, idle⟩,
      fun ⟨mem, idle⟩ => ⟨tiled'.idle_mem ordered' tiled ordered (fun t => (same t).symm)
        mem idle, idle⟩⟩
  exact perm.eq_of_pairwise (fun a b _ _ less more => absurd less more.asymm)
    (strict tiled ordered) (strict tiled' ordered')

end Tiled

namespace Sim

variable {D : Type} [Double D] {S S' : Sim D}

/-- The online policies of the registry conserve work. -/
theorem BuiltIn.conserving (builtIn : BuiltIn S) (online : S.policy.offline = false) :
    S.policy.workConserving = true := by
  obtain ⟨realloc, registered⟩ := builtIn.registered
  generalize S.policy = P at registered online
  simp only [registry, List.mem_cons, List.not_mem_nil, or_false] at registered
  rcases registered with rfl | rfl | rfl | rfl | rfl | rfl | rfl | rfl | rfl | rfl | rfl | rfl
  case inr.inr.inr.inr.inr.inr.inr.inr.inr.inr.inr => cases online
  all_goals rfl

/-- The run of an online policy on one core, without I/O and without a switch cost,
conserves work. -/
theorem simRun_workConserving (builtIn : BuiltIn S) (online : S.policy.offline = false)
    (oneBurst : ∀ p < S.w.len, (S.w.proc p).phaseCount = 1) (one : S.opt.cores = 1)
    (free : S.opt.csCost = 0) {r : SimResult} (success : S.simRun = .ok r) :
    ∃ e sp, Final S e sp r ∧ WorkConserving S.w (runningAt (r.timelines 0)) := by
  obtain ⟨e, sp, final, -, kept⟩ := simRun_keeps builtIn success fun valid options contract =>
    NoWaste.runInv valid options.cs_nonneg contract (builtIn.conserving online)
  obtain ⟨-, noWaste⟩ := kept final.ok
  obtain ⟨feasible, completions⟩ := final.feasible one oneBurst
  have core : 0 < S.opt.cores := by omega
  have ordered := final.ordered core
  have tiled := final.tiled core
  rw [free] at tiled
  refine ⟨e, sp, final, feasible, fun t p hp arrived less none => ?_⟩
  have unfinished : t < (r.outcomes p).completion := by
    rw [← completions p hp]
    by_contra! done
    rw [feasible.ticksBefore_done final.valid hp done] at less
    exact absurd less (lt_irrefl _)
  have within : S.firstArrival ≤ t ∧ t < e.now :=
    ⟨(final.isLeast_arrival.2 ⟨p, hp, rfl⟩).trans arrived,
      unfinished.trans_le (final.completion_bounds hp).2⟩
  obtain ⟨seg, mem, le, lt⟩ := tiled.covered within.1 within.2
  have mem := List.mem_reverse.mp mem
  have idle : seg.kind = .idle := (tiled.runningAt_none ordered mem le lt).mp none
  have alone : ∀ seg' ∈ r.timelines 0, seg'.start ≤ t → t < seg'.stop → seg'.kind = .idle :=
    fun seg' mem' le' lt' => (tiled.runningAt_none ordered mem' le' lt').mp none
  refine final.notIdle noWaste hp (t := t) ⟨arrived, unfinished, ?_, ?_⟩ core alone
  · rintro ⟨j, e, more, -⟩
    rw [oneBurst p hp] at more
    omega
  · rintro ⟨seg', mem', le', lt'⟩
    obtain ⟨c, hc, mem', own⟩ := mem_busyOf.mp mem'
    obtain rfl : c = 0 := by omega
    have := (tiled.idle_iff seg' (List.mem_reverse.mpr mem')).mpr (alone seg' mem' le' lt')
    cases own.symm.trans this

/-- On one core, without I/O and without a switch cost, successful runs of any two online
built-in policies on a workload have the same idle segments and the same makespan. -/
theorem simRun_idlePeriods (builtIn : BuiltIn S) (builtIn' : BuiltIn S')
    (online : S.policy.offline = false) (online' : S'.policy.offline = false) (same : S'.w = S.w)
    (oneBurst : ∀ p < S.w.len, (S.w.proc p).phaseCount = 1) (one : S.opt.cores = 1)
    (one' : S'.opt.cores = 1) (free : S.opt.csCost = 0) (free' : S'.opt.csCost = 0)
    {r r' : SimResult} (success : S.simRun = .ok r) (success' : S'.simRun = .ok r') :
    idlePeriods (r.timelines 0) = idlePeriods (r'.timelines 0) ∧
      metricsMakespan S.w r = metricsMakespan S'.w r' := by
  obtain ⟨e, sp, final, conserving⟩ :=
    simRun_workConserving builtIn online oneBurst one free success
  obtain ⟨e', sp', final', conserving'⟩ :=
    simRun_workConserving builtIn' online' (same ▸ oneBurst) one' free' success'
  rw [same] at conserving'
  have busy := conserving.busy_same final.valid conserving'
  -- the last busy tick ends the run
  have last : ∀ {S : Sim D} {e sp r}, Final S e sp r → S.opt.cores = 1 →
      (∀ p < S.w.len, (S.w.proc p).phaseCount = 1) →
      IsGreatest {t | runningAt (r.timelines 0) t ≠ none} (e.now - 1) := by
    intro S e sp r final one oneBurst
    obtain ⟨feasible, completions⟩ := final.feasible one oneBurst
    obtain ⟨p, hp, eq⟩ := final.isGreatest_completion.1
    have latest := (feasible.last final.valid hp).1
    rw [completions p hp, eq, Set.mem_ofPred_eq] at latest
    refine ⟨by rw [Set.mem_ofPred_eq, latest]; simp, fun t runs => ?_⟩
    obtain ⟨q, runs⟩ := Option.ne_none_iff_exists'.mp runs
    have hq := (feasible.released t q runs).1
    have := (feasible.last final.valid hq).2 runs
    rw [completions q hq] at this
    have := (final.completion_bounds hq).2
    omega
  have ends : e.now = e'.now := by
    have here := last final one oneBurst
    have there := last final' one' (same ▸ oneBurst)
    simp only [ne_eq, busy] at here
    have := here.unique there
    omega
  have first : S'.firstArrival = S.firstArrival := by
    have here := final.isLeast_arrival
    have there := final'.isLeast_arrival
    rw [same] at there
    exact there.unique here
  have tiled := final.tiled (c := 0) (by omega)
  have tiled' := final'.tiled (c := 0) (by omega)
  rw [free] at tiled
  rw [free', first, ← ends] at tiled'
  refine ⟨tiled.idlePeriods_eq (final.ordered (by omega)) tiled'
    (final'.ordered (by omega)) busy, ?_⟩
  rw [final.makespan_eq, final'.makespan_eq, ends]

/-! ## A gap between arrivals -/

/-- Two processes that arrive together, and one that arrives when both have been over for two
ticks. -/
def gapWorkload : Workload := ⟨[processMake 1 0 3, processMake 2 0 1, processMake 3 6 1]⟩

theorem gapWorkload_valid : gapWorkload.Valid where
  nonempty := by decide
  procs p mem := by
    simp only [gapWorkload, List.mem_cons, List.not_mem_nil, or_false] at mem
    rcases mem with rfl | rfl | rfl
    · constructor <;> decide
    · constructor <;> decide
    · constructor <;> decide
  pids_nodup := by decide
  horizon_le := by decide

/-- Their run on one core. -/
def gapSim (P : Policy Float) : Sim Float where
  build := .release
  w := gapWorkload
  policy := P
  params := {}
  opt := { cores := 1, csCost := 0, predict := .oracle, alpha := 0.5, tau0 := 1, maxSegments := 20 }

def gapOrder : List ArrivalKey := [⟨0, 1, 0⟩, ⟨0, 2, 1⟩, ⟨6, 3, 2⟩]

theorem gapSim_order (P : Policy Float) : (gapSim P).order = gapOrder := by
  have sorted : (gapSim policyFcfs).order = gapOrder := List.mergeSort_of_pairwise (by decide)
  exact (show (gapSim P).order = (gapSim policyFcfs).order from rfl).trans sorted

/-- How a run of theirs succeeds. -/
theorem gapSim_succeeds {P : Policy Float} {state : P.State} (started : Started (gapSim P) state)
    {rounds : Nat} (few : rounds < 2 ^ 63) {line : List Segment}
    (ends : (((gapSim P).settledAfter state gapOrder rounds).map fun e =>
      let e' := (List.range 1).foldl (gapSim P).appendTrailing e
      ((gapSim P).running e, e'.fail, (e'.timelines 0).reverse)) = some (false, .ok, line)) :
    ∃ r, (gapSim P).simRun = .ok r ∧ r.timelines 0 = line := by
  obtain ⟨e, run, seen⟩ := Option.map_eq_some_iff.mp ends
  simp only [Prod.mk.injEq] at seen
  exact ⟨_, started.simRun_settledAfter (gapSim_order P) few run seen.1 seen.2.1, seen.2.2⟩

theorem gapSim_fcfs_ends : (((gapSim policyFcfs).settledAfter (queueInit 3) gapOrder 4).map fun e =>
      let e' := (List.range 1).foldl (gapSim policyFcfs).appendTrailing e
      ((gapSim policyFcfs).running e, e'.fail, (e'.timelines 0).reverse)) =
      some (false, .ok, [⟨0, 3, some 0, .run⟩, ⟨3, 4, some 1, .run⟩, ⟨4, 6, none, .idle⟩,
        ⟨6, 7, some 2, .run⟩]) := by
  decide +kernel

theorem gapSim_rr_ends : (((gapSim policyRr).settledAfter ⟨queueInit 3, 2⟩ gapOrder 5).map fun e =>
      let e' := (List.range 1).foldl (gapSim policyRr).appendTrailing e
      ((gapSim policyRr).running e, e'.fail, (e'.timelines 0).reverse)) =
      some (false, .ok, [⟨0, 2, some 0, .run⟩, ⟨2, 3, some 1, .run⟩, ⟨3, 4, some 0, .run⟩,
        ⟨4, 6, none, .idle⟩, ⟨6, 7, some 2, .run⟩]) := by
  decide +kernel

/-- FCFS and round robin run the two processes in different orders, and leave the core idle at
the same time. -/
theorem gapSim_idlePeriods : ∃ r r', (gapSim policyFcfs).simRun = .ok r ∧
    (gapSim policyRr).simRun = .ok r' ∧ r.timelines 0 ≠ r'.timelines 0 ∧
    idlePeriods (r.timelines 0) = [⟨4, 6, none, .idle⟩] ∧
    idlePeriods (r'.timelines 0) = [⟨4, 6, none, .idle⟩] ∧
    metricsMakespan gapWorkload r = metricsMakespan gapWorkload r' := by
  have valid := gapWorkload_valid.validates
  obtain ⟨r, success, line⟩ := gapSim_succeeds ⟨valid, rfl, rfl⟩ (by decide) gapSim_fcfs_ends
  obtain ⟨r', success', line'⟩ := gapSim_succeeds ⟨valid, rfl, rfl⟩ (by decide) gapSim_rr_ends
  have fcfs : BuiltIn (gapSim policyFcfs) :=
    ⟨⟨fun _ => true, by simp [registry, gapSim]⟩, PolicyParams.admitted_default⟩
  have rr : BuiltIn (gapSim policyRr) :=
    ⟨⟨fun _ => true, by simp [registry, gapSim]⟩, PolicyParams.admitted_default⟩
  obtain ⟨idle, makespan⟩ := simRun_idlePeriods fcfs rr rfl rfl rfl (fun p hp => by
    have hp : p < 3 := hp
    have three : p = 0 ∨ p = 1 ∨ p = 2 := by omega
    rcases three with rfl | rfl | rfl <;> rfl) rfl rfl rfl rfl success success'
  have gap : idlePeriods (r.timelines 0) = [⟨4, 6, none, .idle⟩] := by
    rw [line]
    rfl
  refine ⟨r, r', success, success', ?_, gap, idle ▸ gap, makespan⟩
  rw [line, line']
  decide

end Sim

end CpuSched
