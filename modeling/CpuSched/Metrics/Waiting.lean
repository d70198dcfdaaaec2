import CpuSched.Metrics.Core
import CpuSched.Engine.Service
import Mathlib.Data.Int.ConditionallyCompleteOrder

/-!
# Waiting times

`metrics_for` subtracts the bursts and the I/O of a process from its turnaround.
In a successful run the difference counts the ticks during which the process is
neither running nor in I/O.
-/

namespace CpuSched

/-! ## Waiting ticks -/

/-- The ticks from the arrival to the completion without a run and without I/O. -/
def waitingTicks (proc : Process) (o : ProcOutcome) (n : Nat) (timelines : Nat → List Segment)
    (p : Nat) : Set Int :=
  {t | proc.arrival ≤ t ∧ t < o.completion ∧ ¬ RunsAt n timelines p t ∧
    ¬ InIo proc n timelines p t}

/-- The I/O phases add up to the I/O total. -/
theorem oddSum_eq_sum : ∀ (m : Nat) (phases : List Int), phases.length = 2 * m + 1 →
    oddSum phases = ((List.range m).map fun j => phases.getD (2 * j + 1) 0).sum
  | 0, [x], _ => rfl
  | m + 1, x :: y :: rest, length => by
      have ih := oddSum_eq_sum m rest (by simp at length; omega)
      rw [oddSum_cons, evenSum_cons, ih, List.range_succ_eq_map, List.map_cons, List.sum_cons,
        List.map_map]
      simp [Function.comp_def, mul_add]

/-! ## Counting them -/

section Waiting

variable {proc : Process} {n : Nat} {timelines : Nat → List Segment} {p : Nat} {ends : Nat → Int}
  {m : Nat} {edge : Int}

/-- The runs and the I/O phases of a process as pairs of their ends. -/
def occupied (proc : Process) (ends : Nat → Int) (m : Nat) (runs : List Segment) :
    List (Int × Int) :=
  runs.map (fun seg => (seg.start, seg.stop)) ++
    (List.range m).map fun j => (ends j, ends j + proc.ioPhase j)

theorem covers_occupied {runs : List Segment} {t : Int} :
    Covers Prod.fst Prod.snd (occupied proc ends m runs) t ↔
      Covers Segment.start Segment.stop runs t ∨
        ∃ j < m, ends j ≤ t ∧ t < ends j + proc.ioPhase j := by
  simp [Covers, occupied, or_and_right, exists_or]

/-- The ends of later bursts lie after the I/O of earlier ones. -/
theorem Life.ends_lt (valid : proc.Valid) {trail : Trail} {ran : Int → Int}
    (life : Life proc trail ran ends m edge) {i : Nat} :
    ∀ {j}, i < j → j < m → ends i + proc.ioPhase i < ends j := by
  intro j lt hj
  induction j, lt using Nat.le_induction with
  | base => exact life.order hj
  | succ j le ih =>
      have := ih (by omega)
      have := life.order hj
      have := valid.ioPhase_nonneg j
      omega

variable (valid : proc.Valid)
  (life : Life proc (trailOf n timelines p) (ranOf n timelines p) ends (m + 1) edge)
  {l : List Segment} (own : ∀ seg ∈ l, ∃ c, trailOf n timelines p c seg)
  (apart : l.Pairwise (Apart Segment.start Segment.stop))
include valid life

include own apart in
/-- Segments of a process do not overlap its I/O phases. -/
theorem Life.occupied_apart :
    (occupied proc ends m l).Pairwise (Apart Prod.fst Prod.snd) := by
  refine List.pairwise_append.mpr ⟨?_, ?_, ?_⟩
  · exact List.pairwise_map.mpr apart
  · refine List.pairwise_map.mpr (List.pairwise_lt_range.imp_of_mem fun {i j} _ hj lt => .inl ?_)
    have := List.mem_range.mp hj
    exact (life.ends_lt valid lt (by omega)).le
  · intro a ha b hb
    obtain ⟨seg, mem, rfl⟩ := List.mem_map.mp ha
    obtain ⟨j, hj, rfl⟩ := List.mem_map.mp hb
    obtain ⟨c, here⟩ := own seg mem
    have hj := List.mem_range.mp hj
    exact life.fence (by omega) here

variable {o : ProcOutcome} (all : 2 * m + 1 = proc.phaseCount) (completion : o.completion = ends m)
  (bound : ∀ {c seg}, trailOf n timelines p c seg → seg.stop ≤ o.completion)
include all

omit valid in
/-- The process is in I/O between two bursts. -/
theorem Life.inIo_iff {t : Int} : InIo proc n timelines p t ↔
    ∃ j < m, ends j ≤ t ∧ t < ends j + proc.ioPhase j := by
  constructor
  · rintro ⟨j, e, more, burst, le, lt⟩
    obtain rfl := (life.burstEnds_iff (by omega)).mp burst
    exact ⟨j, by omega, le, lt⟩
  · rintro ⟨j, hj, le, lt⟩
    exact ⟨j, ends j, by omega, (life.burstEnds_iff (by omega)).mpr rfl, le, lt⟩

omit valid in
/-- The waiting ticks are those outside the runs and the I/O phases. -/
theorem Life.mem_waitingTicks {t : Int} : t ∈ waitingTicks proc o n timelines p ↔
    (proc.arrival ≤ t ∧ t < o.completion) ∧
      ¬ Covers Prod.fst Prod.snd (occupied proc ends m (runsOf n timelines p)) t := by
  rw [covers_occupied, not_or, ← life.inIo_iff all]
  simp only [waitingTicks, RunsAt, Set.mem_ofPred_eq]
  tauto

include completion bound

open Classical in
include own apart in
/-- The ticks outside some segments of a process and its I/O phases are as many as these
leave of the turnaround. -/
theorem Life.card_uncovered :
    (((Finset.Ico proc.arrival o.completion).filter fun t =>
        ¬ Covers Prod.fst Prod.snd (occupied proc ends m l) t).card : Int) =
      o.completion - proc.arrival - (l.map fun seg => seg.stop - seg.start).sum - proc.io := by
  have after : ∀ j < m + 1, proc.arrival < ends j := by
    intro j hj
    obtain ⟨c, seg, here, -, stop_eq⟩ := life.closed hj
    have := (life.bounded here).1
    have := life.pos here
    omega
  have covered := card_covered Prod.fst Prod.snd (l := occupied proc ends m l)
    (s := Finset.Ico proc.arrival o.completion) ?le (life.occupied_apart valid own apart) ?inside
  case le =>
    intro a ha
    rcases List.mem_append.mp ha with ha | ha
    · obtain ⟨seg, mem, rfl⟩ := List.mem_map.mp ha
      obtain ⟨c, here⟩ := own seg mem
      exact (life.pos here).le
    · obtain ⟨j, -, rfl⟩ := List.mem_map.mp ha
      have := valid.ioPhase_nonneg j
      simp only
      omega
  case inside =>
    intro a ha
    rcases List.mem_append.mp ha with ha | ha
    · obtain ⟨seg, mem, rfl⟩ := List.mem_map.mp ha
      obtain ⟨c, here⟩ := own seg mem
      exact Finset.Ico_subset_Ico (life.bounded here).1 (bound here)
    · obtain ⟨j, hj, rfl⟩ := List.mem_map.mp ha
      have hj := List.mem_range.mp hj
      have := life.ends_lt valid hj (Nat.lt_succ_self m)
      exact Finset.Ico_subset_Ico (after j (by omega)).le (by simp only; omega)
  have io : ((List.range m).map fun j => proc.ioPhase j).sum = proc.io := by
    rw [valid.io_eq, oddSum_eq_sum m proc.phases (by unfold Process.phaseCount at all; omega)]
    rfl
  have total : ((occupied proc ends m l).map fun a => a.2 - a.1).sum =
      (l.map fun seg => seg.stop - seg.start).sum + proc.io := by
    simp only [occupied, List.map_append, List.sum_append, List.map_map, Function.comp_def,
      add_sub_cancel_left, io]
  rw [total] at covered
  have parts := Finset.card_filter_add_card_filter_not (s := Finset.Ico proc.arrival o.completion)
    (Covers Prod.fst Prod.snd (occupied proc ends m l))
  have := after m (Nat.lt_succ_self m)
  rw [Int.card_Ico] at parts
  omega

open Classical in
/-- The waiting ticks are as many as the turnaround without the bursts and the I/O. -/
theorem Life.ncard_waitingTicks
    (each : ∀ c < n, (timelines c).Pairwise fun a b => a.stop ≤ b.start) :
    ((waitingTicks proc o n timelines p).ncard : Int) =
      o.completion - proc.arrival - proc.burst - proc.io := by
  have asFinset : waitingTicks proc o n timelines p =
      ((Finset.Ico proc.arrival o.completion).filter fun t =>
        ¬ Covers Prod.fst Prod.snd (occupied proc ends m (runsOf n timelines p)) t :
          Finset Int) := by
    ext t
    rw [life.mem_waitingTicks all, Finset.coe_filter, Set.mem_ofPred_eq, Finset.mem_Ico]
  rw [asFinset, Set.ncard_coe_finset, life.card_uncovered valid
    (fun seg mem => (mem_runsOf.mp mem).1) ((life.busy_apart each).filter _) all completion bound,
    life.sum_runs valid all fun here => completion ▸ bound here]

omit valid in
/-- Until its first run a process waits. -/
theorem Life.wait_first {first : Int}
    (earliest : ∀ {c seg}, trailOf n timelines p c seg → seg.kind = .run → first ≤ seg.start) :
    Set.Ico proc.arrival first ⊆ waitingTicks proc o n timelines p := by
  rintro t ⟨arrived, before⟩
  refine (life.mem_waitingTicks all).mpr ⟨⟨arrived, ?_⟩, fun covers => ?_⟩
  · obtain ⟨c, seg, here, run, stop_eq⟩ := life.closed (Nat.lt_succ_self m)
    have := earliest here run
    have := life.pos here
    have := bound here
    omega
  · rcases covers_occupied.mp covers with ⟨seg, mem, le, lt⟩ | ⟨j, hj, le, lt⟩
    · obtain ⟨⟨c, here⟩, run⟩ := mem_runsOf.mp mem
      have := earliest here run
      omega
    · obtain ⟨c, seg, here, run, stop_eq⟩ := life.closed (Nat.lt_succ_of_lt hj)
      have := earliest here run
      have := life.pos here
      omega

end Waiting

/-! ## The metrics of successful runs -/

/-- What the metrics of one process say about the schedule. -/
structure WaitingOk {D : Type} (m : ProcMetrics D) (ticks : Set Int) : Prop where
  waiting_eq : m.waiting = (ticks.ncard : Int)
  response_nonneg : 0 ≤ m.response
  response_le : m.response ≤ m.waiting
  waiting_le : m.waiting ≤ m.turnaround - m.burst

namespace Sim

variable {D : Type} [Double D] {S : Sim D}

/-- In a successful run of a built-in policy the waiting time of a process counts
the ticks during which it neither runs nor is in I/O, and lies between its response
time and what its bursts leave of its turnaround. -/
theorem simRun_waiting (builtIn : BuiltIn S) {r : SimResult} (success : S.simRun = .ok r) :
    ∀ p < S.w.len, WaitingOk (metricsFor (D := D) S.w r p)
      (waitingTicks (S.w.proc p) (r.outcomes p) S.opt.cores r.timelines p) := by
  intro p hp
  obtain ⟨e, sp, final⟩ := simRun_final builtIn success
  obtain ⟨ends, m, life, all, start, completion, bound⟩ := final.life hp
  have valid := final.valid.proc hp
  have count := life.ncard_waitingTicks valid all completion bound fun c hc => final.ordered hc
  have ran : 0 ≤ (r.outcomes p).start := by
    by_contra first
    obtain ⟨c, seg, here, run, -⟩ := life.closed (Nat.succ_pos m)
    exact (start.unstarted (not_le.mp first)).1 here run
  obtain ⟨arrived, -, earliest, -⟩ := start.started ran
  constructor
  case waiting_eq => exact count.symm
  case response_nonneg => exact Int.sub_nonneg.mpr arrived
  case response_le =>
    have finite : (waitingTicks (S.w.proc p) (r.outcomes p) S.opt.cores r.timelines p).Finite :=
      (Set.finite_Ico (S.w.proc p).arrival (r.outcomes p).completion).subset
        fun t ht => ⟨ht.1, ht.2.1⟩
    have sub := Set.ncard_le_ncard (life.wait_first all completion bound earliest) finite
    have interval : (Set.Ico (S.w.proc p).arrival (r.outcomes p).start).ncard =
        ((r.outcomes p).start - (S.w.proc p).arrival).toNat := by
      rw [← Finset.coe_Ico, Set.ncard_coe_finset, Int.card_Ico]
    rw [interval] at sub
    simp only [metricsFor]
    omega
  case waiting_le =>
    have : 0 ≤ (S.w.proc p).io := valid.io_eq ▸ oddSum_nonneg valid.phases_pos
    simp only [metricsFor]
    omega

/-- The second of the three processes is switched in for a tick and waits for two before that. -/
theorem trioSim_waiting : ∃ r, trioSim.simRun = .ok r ∧
    (metricsFor (D := Float) trioWorkload r 1).waiting = 3 ∧
    WaitingOk (metricsFor (D := Float) trioWorkload r 1)
      (waitingTicks (trioWorkload.proc 1) (r.outcomes 1) 2 r.timelines 1) := by
  obtain ⟨r, success, seen⟩ := trioSim_succeeds
  refine ⟨r, success, ?_, simRun_waiting trioSim_builtIn success 1 (by decide)⟩
  rw [metricsFor, seen.outcomes.2.1]
  rfl

end Sim

end CpuSched
