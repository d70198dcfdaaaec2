import CpuSched.Engine.Conserving
import CpuSched.Lib.ParallelMachines
import CpuSched.Metrics.Waiting

/-!
# The cores as parallel machines

A successful run, read tick by tick, is a schedule of parallel machines that serves every
process for its bursts and its switch-ins.  Under an online policy a process is ready only
while every core serves another one, so no process waits long and no run takes twice as
long as it has to.
-/

namespace CpuSched

/-! ## Timelines tick by tick -/

/-- The process that runs or is switched in during the tick from `t`. -/
def occupant (timeline : List Segment) (t : Int) : Option Nat :=
  (timeline.find? fun seg => seg.start ≤ t ∧ t < seg.stop).bind Segment.proc

theorem occupant_eq_some_iff {l : List Segment}
    (ordered : l.Pairwise fun a b => a.stop ≤ b.start) {p : Nat} {t : Int} :
    occupant l t = some p ↔ CoveredBy (some p) l t := by
  rw [occupant, Option.bind_eq_some_iff]
  constructor
  · rintro ⟨seg, found, own⟩
    have here := List.find?_some found
    simp only [decide_eq_true_eq] at here
    exact ⟨seg, List.mem_of_find?_eq_some found, own, here⟩
  · rintro ⟨seg, mem, own, le, lt⟩
    cases found : l.find? fun seg => seg.start ≤ t ∧ t < seg.stop with
    | none => exact absurd (List.find?_eq_none.mp found seg mem) (by simp [le, lt])
    | some seg' =>
        have here := List.find?_some found
        simp only [decide_eq_true_eq] at here
        -- two segments of the timeline do not overlap
        have same : seg' = seg := by
          by_contra ne
          have apart : l.Pairwise (Apart Segment.start Segment.stop) := ordered.imp .inl
          have apart := apart.forall (List.mem_of_find?_eq_some found) mem ne
          unfold Apart at apart
          omega
        exact ⟨seg', rfl, same ▸ own⟩

/-- The ticks of the switch-ins of one process. -/
def switchInTime (n : Nat) (timelines : Nat → List Segment) (p : Nat) : Int :=
  ∑ c ∈ Finset.range n, segTime (fun k q => k = .cs ∧ q = some p) (timelines c)

section Sums

variable {n : Nat} {timelines : Nat → List Segment} {p : Nat}

theorem segTime_nonneg (f : SegmentKind → Option Nat → Bool) {l : List Segment}
    (lt : ∀ seg ∈ l, seg.start < seg.stop) : 0 ≤ segTime f l := by
  induction l with
  | nil => exact le_rfl
  | cons seg rest ih =>
      have ih := ih fun s mem => lt s (List.mem_cons_of_mem _ mem)
      have := lt seg List.mem_cons_self
      simp only [segTime, Segment.length]
      split_ifs <;> omega

theorem segTime_eq_zero {f : SegmentKind → Option Nat → Bool} {l : List Segment}
    (none : ∀ seg ∈ l, f seg.kind seg.proc = false) : segTime f l = 0 := by
  induction l with
  | nil => rfl
  | cons seg rest ih =>
      rw [segTime, ih fun s mem => none s (List.mem_cons_of_mem _ mem), none seg List.mem_cons_self]
      rfl

/-- A process is on a core for its runs and its switch-ins. -/
theorem sum_busyOf (idle : ∀ c < n, ∀ seg ∈ timelines c, seg.kind = .idle → seg.proc = none) :
    ((busyOf n timelines p).map fun seg => seg.stop - seg.start).sum =
      ((runsOf n timelines p).map fun seg => seg.stop - seg.start).sum +
        switchInTime n timelines p := by
  have one : ∀ l : List Segment, (∀ seg ∈ l, seg.kind = .idle → seg.proc = none) →
      ((l.filter fun seg => seg.proc = some p).map fun seg => seg.stop - seg.start).sum =
        (((l.filter fun seg => seg.proc = some p).filter fun seg => seg.kind = .run).map
          fun seg => seg.stop - seg.start).sum +
        segTime (fun k q => k = .cs ∧ q = some p) l := by
    intro l idle
    induction l with
    | nil => rfl
    | cons seg rest ih =>
        have ih := ih fun s mem => idle s (List.mem_cons_of_mem _ mem)
        have here := idle seg List.mem_cons_self
        by_cases own : seg.proc = some p
        · cases kind_eq : seg.kind with
          | run =>
              simp [own, kind_eq, segTime, ih]
              ring
          | cs =>
              simp [own, kind_eq, segTime, Segment.length, ih]
              ring
          | idle => simp [here kind_eq] at own
        · simpa [own, segTime] using ih
  unfold switchInTime runsOf busyOf
  induction n with
  | zero => rfl
  | succ n ih =>
      rw [Finset.sum_range_succ]
      simp only [List.range_succ, List.flatMap_append, List.map_append, List.sum_append,
        List.filter_append, ih fun c hc => idle c (hc.trans (Nat.lt_succ_self n))]
      simp only [List.flatMap_cons, List.flatMap_nil, List.append_nil,
        one _ (idle n (Nat.lt_succ_self n))]
      ring

/-- All switch-ins are those of the processes. -/
theorem sum_segTime_proc {len : Nat} {l : List Segment} (k : SegmentKind)
    (own : ∀ seg ∈ l, seg.kind = k → ∃ q < len, seg.proc = some q) :
    ∑ q ∈ Finset.range len, segTime (fun k' q' => k' = k ∧ q' = some q) l = kindTime k l := by
  unfold kindTime
  induction l with
  | nil => simp [segTime]
  | cons seg rest ih =>
      have ih := ih fun s mem => own s (List.mem_cons_of_mem _ mem)
      simp only [segTime, Finset.sum_add_distrib, ih]
      congr 1
      by_cases kind_eq : seg.kind = k
      · obtain ⟨q, hq, proc_eq⟩ := own seg List.mem_cons_self kind_eq
        simp [kind_eq, proc_eq, hq]
      · simp [kind_eq]

end Sums

/-! ## Whose segments they are -/

/-- Every segment is of a process in `P`, or of none. -/
def OwnedBy (P : Nat → Prop) (l : List Segment) : Prop :=
  ∀ seg ∈ l, ∀ q, seg.proc = some q → P q

section Owned

variable {P : Nat → Prop} {l : List Segment} {a b : Int} {r : Option Nat} {k : SegmentKind}

theorem OwnedBy.record (owned : OwnedBy P l) (own : ∀ q, r = some q → P q) :
    OwnedBy P (record l a b r k) := by
  intro seg mem q proc_eq
  rcases le_or_gt b a with le | lt
  · rw [record_of_le le] at mem
    exact owned seg mem q proc_eq
  · rcases mem_record lt mem with old | ⟨-, new, -⟩
    · exact owned seg old q proc_eq
    · exact own q (new.symm.trans proc_eq)

theorem CoreStep.owned {cs now : Int} {core core' : Core} {l' : List Segment} {sw : Int}
    {charged : Nat → Int} (step : CoreStep cs now core l core' l' sw charged)
    (before : ∀ q, core.proc = some q → P q) (after : ∀ q, core'.proc = some q → P q)
    (owned : OwnedBy P l) : OwnedBy P l' := by
  cases step with
  | start => exact owned
  | leave on => exact owned.record fun q eq => before q (on.trans eq)
  | enter => exact owned.record (by simp)
  | switch free since pos switches on =>
      exact (owned.record (by simp)).record fun q eq => after q (on.trans eq)

end Owned

namespace Sim

variable {D : Type} [Double D] {S : Sim D}

/-- All segments are of processes of the workload. -/
def Owned (a : S.Config) : Prop :=
  ∀ c < S.opt.cores, OwnedBy (· < S.w.len) (a.eng.timelines c)

theorem Owned.runInv {PInv : SchedView D → S.policy.State → Places → Prop} (valid : S.w.Valid)
    (hcs : 0 ≤ S.opt.csCost) (contract : Contract S.w S.policy PInv) :
    RunInv S PInv fun a => a.eng.fail = .ok → Owned a where
  init state start _ := by
    intro c hc seg mem
    simp [initConfig, initEngine] at mem
  move {budget a b} move sound paid clock here ok := by
    obtain ⟨ok', effect⟩ := move.effect valid hcs sound ok
    have here := here ok'
    have after := move.sound valid hcs contract sound
    cases effect with
    | quiet _ timelines =>
        intro c hc
        rw [timelines]
        exact here c hc
    | @step c sw charged lt on _ timelines =>
        intro c' hc'
        by_cases same : c' = c
        · subst same
          refine on.owned (fun q on_core => ?_) (fun q on_core => ?_) (here c' hc')
          · obtain ⟨s, seat⟩ := sound.cores.owner c' hc' q on_core
            exact sound.inside (by simp [seat])
          · obtain ⟨s, seat⟩ := after.cores.owner c' hc' q on_core
            exact after.inside (by simp [seat])
        · rw [timelines c' same]
          exact here c' hc'
  advance _ _ _ _ _ here := here

/-! ## The run as a schedule of machines -/

section Final

variable {e : S.Eng} {sp : Nat → Spot} {r : SimResult} (final : Final S e sp r)
include final

omit [Double D] in
theorem Final.owned (owned : Owned ⟨e, sp⟩) {c : Nat} (hc : c < S.opt.cores) :
    OwnedBy (· < S.w.len) (r.timelines c) := by
  rw [final.timelines c hc]
  intro seg mem
  have owned : OwnedBy (· < S.w.len) (idleRecord (e.cores c) e.now (e.timelines c)) :=
    (owned c hc).record (by simp)
  exact owned seg (List.mem_reverse.mp mem)

omit [Double D] in
theorem Final.idle_none {c : Nat} (hc : c < S.opt.cores) :
    ∀ seg ∈ r.timelines c, seg.kind = .idle → seg.proc = none := fun seg mem =>
  ((final.tiled hc).idle_iff seg (by simpa using mem)).mpr

omit [Double D] in
/-- The time of all switch-ins is that of the run. -/
theorem Final.sum_switchInTime (owned : Owned ⟨e, sp⟩) :
    ∑ p ∈ Finset.range S.w.len, switchInTime S.opt.cores r.timelines p = r.csTime := by
  have shown : ∀ c ∈ Finset.range S.opt.cores,
      ∑ p ∈ Finset.range S.w.len, segTime (fun k q => k = .cs ∧ q = some p) (r.timelines c) =
        kindTime .cs (e.timelines c) := by
    intro c hc
    have hc := Finset.mem_range.mp hc
    rw [sum_segTime_proc, final.timelines c hc, kindTime_reverse,
      kindTime_idleRecord (by simp) (final.since c hc)]
    intro seg mem kind_eq
    cases own : seg.proc with
    | none =>
        have := ((final.tiled hc).idle_iff seg (by simpa using mem)).mp own
        cases kind_eq.symm.trans this
    | some q => exact ⟨q, final.owned owned hc seg mem q own, rfl⟩
  unfold switchInTime
  rw [Finset.sum_comm, Finset.sum_congr rfl shown, final.csTime]
  exact final.lives.ledger.csShown

omit [Double D] in
/-- What a core shows during a tick. -/
theorem Final.occupant_iff {c : Nat} (hc : c < S.opt.cores) {p : Nat} {t : Int} :
    occupant (r.timelines c) t = some p ↔ CoveredBy (some p) (r.timelines c) t :=
  occupant_eq_some_iff (final.ordered hc)

omit [Double D] in
theorem Final.covers_busyOf {p : Nat} {t : Int} :
    Covers Segment.start Segment.stop (busyOf S.opt.cores r.timelines p) t ↔
      ∃ c < S.opt.cores, occupant (r.timelines c) t = some p := by
  constructor
  · rintro ⟨seg, mem, here⟩
    obtain ⟨c, hc, mem, own⟩ := mem_busyOf.mp mem
    exact ⟨c, hc, (final.occupant_iff hc).mpr ⟨seg, mem, own, here⟩⟩
  · rintro ⟨c, hc, on⟩
    obtain ⟨seg, mem, own, here⟩ := (final.occupant_iff hc).mp on
    exact ⟨seg, mem_busyOf.mpr ⟨c, hc, mem, own⟩, here⟩

open Classical in
omit [Double D] in
/-- A process is ready during the ticks that its bursts, its switch-ins and its I/O leave
of its turnaround. -/
theorem Final.card_ready {p : Nat} (hp : p < S.w.len) :
    (((Finset.Ico (S.w.proc p).arrival (r.outcomes p).completion).filter fun t =>
        ReadyDuring (S.w.proc p) (r.outcomes p) S.opt.cores r.timelines p t).card : Int) =
      (r.outcomes p).completion - (S.w.proc p).arrival -
        ((S.w.proc p).burst + switchInTime S.opt.cores r.timelines p) - (S.w.proc p).io := by
  obtain ⟨ends, m, life, all, start, completion, bound⟩ := final.life hp
  have valid := final.valid.proc hp
  have busy := sum_busyOf (p := p) fun c hc => final.idle_none (c := c) hc
  rw [life.sum_runs valid all fun here => completion ▸ bound here] at busy
  rw [← busy, ← life.card_uncovered valid (fun seg mem => mem_busyOf.mp mem)
    (life.busy_apart fun c hc => final.ordered hc) all completion bound]
  refine congrArg _ (congrArg _ (Finset.filter_congr fun t ht => ?_))
  have ht := Finset.mem_Ico.mp ht
  rw [covers_occupied, not_or, ← life.inIo_iff all]
  exact ⟨fun ready => ⟨ready.offCores, ready.noIo⟩, fun h => ⟨ht.1, ht.2, h.2, h.1⟩⟩

omit [Double D] in
/-- A process is on the cores for its bursts and its switch-ins. -/
theorem Final.card_served {p : Nat} (hp : p < S.w.len) :
    ((servedTicks S.opt.cores (fun q => (S.w.proc q).arrival) (fun q => (r.outcomes q).completion)
        (fun c t => occupant (r.timelines c) t) p).card : Int) =
      (S.w.proc p).burst + switchInTime S.opt.cores r.timelines p := by
  classical
  obtain ⟨ends, m, life, all, start, completion, bound⟩ := final.life hp
  have busy := sum_busyOf (p := p) fun c hc => final.idle_none (c := c) hc
  rw [life.sum_runs (final.valid.proc hp) all fun here => completion ▸ bound here] at busy
  rw [← busy, ← card_covered Segment.start Segment.stop (s := Finset.Ico
    (S.w.proc p).arrival (r.outcomes p).completion) (fun seg mem => ?_)
    (life.busy_apart fun c hc => final.ordered hc) fun seg mem => ?_]
  · refine congrArg _ (congrArg _ (Finset.filter_congr fun t _ => ?_))
    exact final.covers_busyOf.symm
  · obtain ⟨c, here⟩ := mem_busyOf.mp mem
    exact (life.pos here).le
  · obtain ⟨c, here⟩ := mem_busyOf.mp mem
    exact Finset.Ico_subset_Ico (life.bounded here).1 (bound here)

omit [Double D] in
/-- A run serves every process for its bursts and its switch-ins, and lets it rest for its
I/O. -/
theorem Final.machines (owned : Owned ⟨e, sp⟩) :
    ParallelSchedule S.opt.cores (Finset.range S.w.len) (fun p => (S.w.proc p).arrival)
      (fun p => (S.w.proc p).burst + switchInTime S.opt.cores r.timelines p)
      (fun p => (S.w.proc p).io) (fun c t => occupant (r.timelines c) t)
      (fun p => (r.outcomes p).completion) where
  inside {c t p} hc on := by
    obtain ⟨seg, mem, own, -⟩ := (final.occupant_iff hc).mp on
    exact Finset.mem_range.mpr (final.owned owned hc seg mem p own)
  window {c t p} hc on := by
    obtain ⟨seg, mem, own, le, lt⟩ := (final.occupant_iff hc).mp on
    obtain ⟨ends, m, life, all, start, completion, bound⟩ :=
      final.life (final.owned owned hc seg mem p own)
    have := (life.bounded ⟨hc, mem, own⟩).1
    have := bound ⟨hc, mem, own⟩
    omega
  once {c c' t p} hc hc' on on' := by
    obtain ⟨seg, mem, own, le, lt⟩ := (final.occupant_iff hc).mp on
    obtain ⟨seg', mem', own', le', lt'⟩ := (final.occupant_iff hc').mp on'
    obtain ⟨ends, m, life, -⟩ := final.life (final.owned owned hc seg mem p own)
    by_contra ne
    have := life.apart ⟨hc, mem, own⟩ ⟨hc', mem', own'⟩ ne
    omega
  served p hp := final.card_served (Finset.mem_range.mp hp)
  rests p hp := by
    have hp := Finset.mem_range.mp hp
    have served := final.card_served hp
    have ready := final.card_ready hp
    have parts := Finset.card_filter_add_card_filter_not
      (s := Finset.Ico (S.w.proc p).arrival (r.outcomes p).completion)
      fun t => ∃ c < S.opt.cores, occupant (r.timelines c) t = some p
    have := (final.completion_bounds hp).1
    rw [Int.card_Ico] at parts
    simp only [servedTicks] at served
    simp only [restTicks]
    omega

end Final

variable {r : SimResult}

/-- What is known at the end of a run of an online policy. -/
theorem simRun_online (builtIn : BuiltIn S) (online : S.policy.workConserving = true)
    (success : S.simRun = .ok r) :
    ∃ e sp, Final S e sp r ∧ Owned ⟨e, sp⟩ ∧ NoWaste ⟨e, sp⟩ := by
  obtain ⟨e, sp, final, owned, -, kept⟩ := simRun_keeps builtIn success
    fun valid options contract =>
      (Owned.runInv valid options.cs_nonneg contract).and
        (NoWaste.runInv valid options.cs_nonneg contract online)
  exact ⟨e, sp, final, owned final.ok, (kept final.ok).2⟩

omit [Double D] in
/-- While a process is ready, every core serves another one. -/
theorem Final.others {e : S.Eng} {sp : Nat → Spot} (final : Final S e sp r)
    (noWaste : NoWaste ⟨e, sp⟩) {p : Nat} (hp : p < S.w.len) {t : Int}
    (ready : ReadyDuring (S.w.proc p) (r.outcomes p) S.opt.cores r.timelines p t) :
    ∀ c < S.opt.cores, ∃ q, q ≠ p ∧ occupant (r.timelines c) t = some q := by
  intro c hc
  obtain ⟨seg, mem, le, lt, kind_ne⟩ : ∃ seg ∈ r.timelines c, seg.start ≤ t ∧ t < seg.stop ∧
      seg.kind ≠ .idle := by
    have busy := final.notIdle noWaste hp ready hc
    unfold IdleDuring at busy
    push Not at busy
    exact busy
  cases own : seg.proc with
  | none => exact absurd (((final.tiled hc).idle_iff seg (by simpa using mem)).mp own) kind_ne
  | some q =>
      refine ⟨q, ?_, (final.occupant_iff hc).mpr ⟨seg, mem, own, le, lt⟩⟩
      rintro rfl
      exact ready.offCores ⟨seg, mem_busyOf.mpr ⟨c, hc, mem, own⟩, le, lt⟩

omit [Double D] in
/-- What a process waits for cores, all cores together, is work of the others. -/
theorem Final.ready_le {e : S.Eng} {sp : Nat → Spot} (final : Final S e sp r)
    (owned : Owned ⟨e, sp⟩) (noWaste : NoWaste ⟨e, sp⟩) {p : Nat} (hp : p < S.w.len) :
    S.opt.cores * ((r.outcomes p).completion - (S.w.proc p).arrival -
        ((S.w.proc p).burst + switchInTime S.opt.cores r.timelines p) - (S.w.proc p).io) ≤
      ∑ q ∈ (Finset.range S.w.len).erase p,
        ((S.w.proc q).burst + switchInTime S.opt.cores r.timelines q) := by
  classical
  rw [← final.card_ready hp]
  refine (final.machines owned).waiting_le fun t ht c hc => ?_
  exact final.others noWaste hp (Finset.mem_filter.mp ht).2 c hc

/-! ## Waiting times and spans -/

/-- In a successful run of an online built-in policy the waiting time of a process without
its own switch-ins is at most the work of the other processes and the time of their
switch-ins, divided by the number of cores. -/
theorem simRun_waits_le (builtIn : BuiltIn S) (online : S.policy.workConserving = true)
    (success : S.simRun = .ok r) : ∀ p < S.w.len,
    S.opt.cores * ((metricsFor (D := D) S.w r p).waiting -
        switchInTime S.opt.cores r.timelines p) ≤
      ∑ q ∈ (Finset.range S.w.len).erase p, (S.w.proc q).burst +
        (r.csTime - switchInTime S.opt.cores r.timelines p) := by
  intro p hp
  obtain ⟨e, sp, final, owned, noWaste⟩ := simRun_online builtIn online success
  have bound := final.ready_le owned noWaste hp
  rw [Finset.sum_add_distrib] at bound
  have all := Finset.add_sum_erase (Finset.range S.w.len)
    (fun q => switchInTime S.opt.cores r.timelines q) (Finset.mem_range.mpr hp)
  rw [final.sum_switchInTime owned] at all
  have waiting : (metricsFor (D := D) S.w r p).waiting - switchInTime S.opt.cores r.timelines p =
      (r.outcomes p).completion - (S.w.proc p).arrival -
        ((S.w.proc p).burst + switchInTime S.opt.cores r.timelines p) - (S.w.proc p).io := by
    simp only [metricsFor]
    ring
  rw [waiting]
  omega

/-- The second of the three processes waits for three ticks, one of which is its switch-in. -/
theorem trioSim_waits_le : ∃ r, trioSim.simRun = .ok r ∧
    (metricsFor (D := Float) trioWorkload r 1).waiting = 3 ∧
    2 * ((metricsFor (D := Float) trioWorkload r 1).waiting - switchInTime 2 r.timelines 1) ≤
      ∑ q ∈ (Finset.range 3).erase 1, (trioWorkload.proc q).burst +
        (r.csTime - switchInTime 2 r.timelines 1) := by
  obtain ⟨r, success, seen⟩ := trioSim_succeeds
  refine ⟨r, success, ?_, simRun_waits_le trioSim_builtIn rfl success 1 (by decide)⟩
  rw [metricsFor, seen.outcomes.2.1]
  rfl

/-- The schedules that serve every process of the workload for its bursts, on one core at a
time, and let it rest for its I/O. -/
abbrev CoreSchedule (S : Sim D) (run : Nat → Int → Option Nat) (finish : Nat → Int) : Prop :=
  ParallelSchedule S.opt.cores (Finset.range S.w.len) (fun p => (S.w.proc p).arrival)
    (fun p => (S.w.proc p).burst) (fun p => (S.w.proc p).io) run finish

omit [Double D] in
/-- Without switch cost there are no switch-ins. -/
theorem Final.switchInTime_eq_zero {e : S.Eng} {sp : Nat → Spot} (final : Final S e sp r)
    (free : S.opt.csCost = 0) (p : Nat) : switchInTime S.opt.cores r.timelines p = 0 := by
  refine Finset.sum_eq_zero fun c hc => segTime_eq_zero fun seg mem => ?_
  have tiled := final.tiled (Finset.mem_range.mp hc)
  have lt := tiled.lt seg (by simpa using mem)
  have length := tiled.cs_length seg (by simpa using mem)
  rw [free, Segment.length] at length
  by_contra counted
  simp only [Bool.not_eq_false, decide_eq_true_eq] at counted
  have := length counted.1
  omega

omit [Double D] in
/-- Without switch cost a run is one of them. -/
theorem Final.coreSchedule {e : S.Eng} {sp : Nat → Spot} (final : Final S e sp r)
    (owned : Owned ⟨e, sp⟩) (free : S.opt.csCost = 0) :
    CoreSchedule S (fun c t => occupant (r.timelines c) t) fun p => (r.outcomes p).completion := by
  have machines := final.machines owned
  simp only [final.switchInTime_eq_zero free, add_zero] at machines
  exact machines

/-- In a successful run of an online built-in policy without switch cost the time from the
first arrival to the last completion is less than twice that of any schedule, preemptive or
not, that serves every process and lets it rest for its I/O, and at most `2 - 1 / cores`
times that if all processes arrive at once and none has I/O. -/
theorem simRun_span_le (builtIn : BuiltIn S) (online : S.policy.workConserving = true)
    (free : S.opt.csCost = 0) (success : S.simRun = .ok r) {run : Nat → Int → Option Nat}
    {finish : Nat → Int} (serves : CoreSchedule S run finish) {last : Int}
    (le_last : ∀ p < S.w.len, finish p ≤ last) :
    metricsMakespan S.w r - r.firstArrival < 2 * (last - r.firstArrival) ∧
      ((∀ p < S.w.len, (S.w.proc p).arrival = r.firstArrival ∧ (S.w.proc p).io = 0) →
        S.opt.cores * (metricsMakespan S.w r - r.firstArrival) ≤
          (2 * S.opt.cores - 1) * (last - r.firstArrival)) := by
  obtain ⟨e, sp, final, owned, noWaste⟩ := simRun_online builtIn online success
  obtain ⟨p, hp, completion⟩ := final.last
  have waits := final.ready_le owned noWaste hp
  simp only [final.switchInTime_eq_zero free, add_zero] at waits
  have pos : ∀ q ∈ Finset.range S.w.len, 0 < (S.w.proc q).burst := fun q hq =>
    (final.valid.proc (Finset.mem_range.mp hq)).burst_pos
  have first_le : ∀ q ∈ Finset.range S.w.len, S.firstArrival ≤ (S.w.proc q).arrival := fun q hq =>
    S.firstArrival_le final.valid (Finset.mem_range.mp hq)
  have le_last : ∀ q ∈ Finset.range S.w.len, finish q ≤ last := fun q hq =>
    le_last q (Finset.mem_range.mp hq)
  rw [final.outcomes, completion] at waits
  rw [final.firstArrival, final.makespan_eq]
  have cores := final.options.cores_pos
  constructor
  · have ends : e.now = (S.w.proc p).arrival + (S.w.proc p).burst + (S.w.proc p).io +
        (e.now - (S.w.proc p).arrival - (S.w.proc p).burst - (S.w.proc p).io) := by ring
    have span := serves.span_le pos first_le le_last (Finset.mem_range.mpr hp) waits ends
    have := pos p (Finset.mem_range.mpr hp)
    by_contra long
    have scaled := mul_le_mul_of_nonneg_left (not_lt.mp long) (Int.natCast_nonneg S.opt.cores)
    rw [mul_left_comm] at scaled
    omega
  · intro at_once
    have ends : e.now = (S.w.proc p).arrival + (S.w.proc p).burst +
        (e.now - (S.w.proc p).arrival - (S.w.proc p).burst - (S.w.proc p).io) := by
      have := (at_once p hp).2
      omega
    exact serves.span_le_of_simultaneous pos first_le le_last
      (Finset.mem_range.mpr hp) waits cores
      (fun q hq => (at_once q (Finset.mem_range.mp hq)).1) ends

/-- Without switch cost the run of the three processes under FCFS takes less than twice as long as
their schedule under round robin. -/
theorem trioSim_span_le : ∃ r r', (trioFree policyFcfs).simRun = .ok r ∧
    (trioFree policyRr).simRun = .ok r' ∧
    metricsMakespan trioWorkload r - r.firstArrival <
      2 * (metricsMakespan trioWorkload r' - r.firstArrival) := by
  obtain ⟨r, success⟩ := trioFree_fcfs
  obtain ⟨r', success'⟩ := trioFree_rr
  have fcfs : BuiltIn (trioFree policyFcfs) := trioFree_builtIn (by simp [registry])
  have rr : BuiltIn (trioFree policyRr) := trioFree_builtIn (by simp [registry])
  obtain ⟨e, sp, final, owned, -⟩ := simRun_online rr rfl success'
  refine ⟨r, r', success, success', ?_⟩
  rw [show metricsMakespan trioWorkload r' = e.now from final.makespan_eq]
  exact (simRun_span_le fcfs rfl rfl success (final.coreSchedule owned rfl)
    fun p hp => (final.completion_bounds hp).2).1

end Sim

end CpuSched
