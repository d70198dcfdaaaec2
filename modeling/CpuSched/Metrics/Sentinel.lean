import CpuSched.Metrics.Reported

/-!
# The sentinel

`next_event` returns `INT64_MAX` for no event, and the main loop asserts that it does
not.  The clock gets there only at the horizon of the workload, and only if nothing was
served at the same time as anything else.
-/

namespace CpuSched

/-- The only arrival is the latest one. -/
theorem Workload.Valid.arrival_of_alone {w : Workload} (valid : w.Valid) (alone : w.len = 1) :
    (w.proc 0).arrival = w.maxArrival := by
  obtain ⟨p, items⟩ := List.length_eq_one_iff.mp alone
  have proc : w.proc 0 = p := by simp [Workload.proc, items]
  have nonneg := (valid.proc (i := 0) (by omega)).arrival_nonneg
  rw [proc] at nonneg ⊢
  rw [Workload.maxArrival, items]
  simp only [horizonSums]
  omega

namespace Sim

variable {D : Type} [Double D] {S : Sim D} {state : S.policy.State}
variable {PInv : SchedView D → S.policy.State → Places → Prop}

/-- No two ticks of work can be served at the same time, and none before the last
arrival. -/
def OneByOne (S : Sim D) : Prop :=
  S.w.len = 1 ∨ (S.opt.cores = 1 ∧
    ∀ p < S.w.len, (S.w.proc p).arrival = S.w.maxArrival ∧ (S.w.proc p).io = 0)

omit [Double D] in
/-- Work that is served one by one takes until the horizon. -/
theorem Final.horizon_le {e : S.Eng} {sp : Nat → Spot} {r : SimResult}
    (final : Final S e sp r) (single : OneByOne S) : workloadHorizon S.w ≤ e.now := by
  have total := Workload.sum_range S.w fun p => p.burst + p.io
  rw [workloadHorizon_eq, Workload.totalWork, ← total]
  rcases single with alone | ⟨one, together⟩
  · obtain ⟨p, hp, completion⟩ := final.last
    obtain rfl : p = 0 := by omega
    have arrival := final.valid.arrival_of_alone alone
    have times := final.times hp
    rw [alone, Finset.sum_range_one, ← completion, ← final.outcomes]
    omega
  · obtain ⟨p, hp, first⟩ := S.exists_firstArrival final.valid
    have arrival := (together p hp).1
    have bursts : ∑ p ∈ Finset.range S.w.len, ((S.w.proc p).burst + (S.w.proc p).io) =
        ∑ p ∈ Finset.range S.w.len, (S.w.proc p).burst :=
      Finset.sum_congr rfl fun p hp => by rw [(together p (Finset.mem_range.mp hp)).2, add_zero]
    have capacity := final.capacity
    rw [one, final.makespan_eq, final.firstArrival] at capacity
    push_cast at capacity
    omega

/-- A run that ends at `INT64_MAX` takes the end of its last slice for the sentinel. -/
theorem Launched.blind_of_now (launched : Launched S PInv state) {e : S.Eng}
    (reached : Reached S state .settled e) (late : int64Max ≤ e.now) : Blind S state := by
  cases reached with
  | first run =>
      obtain ⟨e', sp, run', events, -⟩ := launched.first (I := fun _ => True)
      obtain rfl : e' = e := Option.some.inj (run'.symm.trans run)
      have now : e'.now = S.firstArrival := events.moves.now_eq
      obtain ⟨p, hp, arrival⟩ := S.exists_firstArrival launched.valid
      have := launched.valid.arrival_lt hp
      omega
  | @instant e₁ _ before event run =>
      obtain ⟨sp, course, -⟩ := before.course launched RunInv.true
      obtain ⟨-, -, e₂, sp₂, run₂, events, course₂, -⟩ :=
        launched.advance (I := fun _ => True) course
      obtain rfl : e₂ = e := Option.some.inj (run₂.symm.trans run)
      have now : e₂.now = S.nextEvent e₁ := events.moves.now_eq
      obtain ⟨budget, sound⟩ := course₂.sound
      have left := sound.work_nonneg launched.valid
      have spent := sound.budget_eq
      have most := sound.budget_le
      dsimp only at spent
      exact ⟨e₁, before, by omega⟩

/-- Which assertions of a run can fail.  If the workload ends before `INT64_MAX` or a
switch takes time, none does, and `next_event` never returns `INT64_MAX`.  In a run that
serves a workload with that horizon one by one it does.  In every run all other assertions
hold, and this one fails only where the last unfinished process is in its last CPU burst
and due to complete at `INT64_MAX`. -/
theorem simRun_asserts (started : Started S state) (builtIn : BuiltIn S) :
    (workloadHorizon S.w < int64Max ∨ 0 < S.opt.csCost → S.simRun ≠ .aborted ∧
      ∀ e, Reached S state .dispatched e → S.nextEvent e ≠ int64Max) ∧
    (workloadHorizon S.w = int64Max → OneByOne S → ∀ r, S.simRun = .ok r → S.build = .release ∧
      ∃ e, Reached S state .dispatched e ∧ S.nextEvent e = int64Max) ∧
    (S.simRun = .aborted → S.build = .debug ∧
      ∃ e, Reached S state .dispatched e ∧ S.nextEvent e = int64Max) ∧
    ∀ e, Reached S state .dispatched e → (S.nextEvent e = int64Max ↔ EndsAtSentinel S e) := by
  obtain ⟨PInv, launched⟩ := started.launched builtIn
  have aborted_iff := launched.simRun_aborted_iff started
  refine ⟨fun room => ?_, fun horizon single r success => ?_, aborted_iff.mp,
    fun e reached => launched.nextEvent_eq_iff reached⟩
  · have sighted := launched.not_blind room
    exact ⟨fun aborted => sighted (aborted_iff.mp aborted).2,
      fun e reached blind => sighted ⟨e, reached, blind⟩⟩
  · obtain ⟨e, closed⟩ := launched.closed started success
    obtain ⟨sp, final, -⟩ := closed.keeps launched RunInv.true
    have late := final.horizon_le single
    have blind := launched.blind_of_now closed.reached (horizon ▸ late)
    refine ⟨?_, blind⟩
    cases build : S.build with
    | release => rfl
    | debug =>
        rw [aborted_iff.mpr ⟨build, blind⟩] at success
        cases success

/-- The last round of the run of one process that takes until `INT64_MAX`. -/
theorem soloSim_second :
    ((soloSim .release int64Max).settledAfter (queueInit 1) [⟨0, 1, 0⟩] 1).map (fun e =>
      ((soloSim .release int64Max).running e,
        ((List.range 1).foldl (soloSim .release int64Max).appendTrailing e).fail)) =
      some (false, .ok) := by
  decide +kernel

/-- Three processes with a horizon of 12 pass every assertion of a debug build, and the run
of one process until `INT64_MAX` in a release build goes through the sentinel. -/
theorem trioSim_asserts : (trioSim.simRun ≠ .aborted ∧
      ∀ e, Reached trioSim (⟨queueInit 3, 2⟩) .dispatched e → trioSim.nextEvent e ≠ int64Max) ∧
    ∃ r, (soloSim .release int64Max).simRun = .ok r ∧
      ∃ e, Reached (soloSim .release int64Max) (queueInit 1) .dispatched e ∧
        (soloSim .release int64Max).nextEvent e = int64Max := by
  refine ⟨(simRun_asserts trioSim_started trioSim_builtIn).1 (.inr one_pos), ?_⟩
  have started := soloSim_started .release (show 0 < int64Max by decide) le_rfl
  obtain ⟨e, run, seen⟩ := Option.map_eq_some_iff.mp soloSim_second
  have stops := (Prod.mk.inj seen).1
  have ok := (Prod.mk.inj seen).2
  have success := started.simRun_settledAfter (soloSim_order _ _) (by decide) run stops ok
  have horizon : workloadHorizon (soloSim .release int64Max).w = int64Max := by decide
  exact ⟨_, success, ((simRun_asserts started (soloSim_builtIn _ _)).2.1 horizon (.inl rfl) _
    success).2⟩

end Sim

end CpuSched
