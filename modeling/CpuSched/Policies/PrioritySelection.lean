import CpuSched.Engine.Assertions
import CpuSched.Policies.PriorityAging

/-!
# Which process a priority policy selects

In a run of `prio` or `prio-p` the log of the hook calls tells the ready set and the
waiting times at each call of `next_slice`.  The process returned is the least one by
effective priority, arrival and pid, up to the saturation of the 64-bit keys.
-/

namespace CpuSched

namespace Sim

variable {D : Type} [Double D] {S : Sim D}

/-- In every run of `prio` and `prio-p` each call of `next_slice` returns the least
ready process, and a core stays free only when the ready set is empty. -/
theorem reached_prioPicks (kind : S.policy = policyPrio ∨ S.policy = policyPrioP)
    (fit : S.w.PrioritiesFit) {state : S.policy.State} (started : Started S state)
    {point : LoopPoint} {e : S.Eng} (reached : Reached S state point e) :
    ∃ e' : Engine D S.policy.logged.State,
      Reached (S.withPolicy S.policy.logged) ⟨state, []⟩ point e' ∧ e'.map Logged.state = e ∧
      EachPick (PrioPick S.w S.params.aging) e'.state.log ∧
      (point = .dispatched → (∃ c < S.opt.cores, (e.cores c).proc = none) →
        queued e'.state.log = some []) := by
  have valid := workloadValidate_ok started.validated
  have options := checkOptions_ok valid started.options
  obtain ⟨Inv, contract, start, keeps⟩ := prio_picks valid fit kind started.created
  have launched : Launched (S.withPolicy S.policy.logged) Inv ⟨state, []⟩ :=
    ⟨valid, ⟨options.cores_pos, options.segments_pos, options.cs_nonneg, options.cs_le⟩,
      contract, start⟩
  obtain ⟨e', rfl, reached'⟩ := Reached.lift S.policy.logged_projects
    (show Reached S (Logged.state (⟨state, []⟩ : Logged S.policy.State)) point e from reached)
  obtain ⟨sp, course, -⟩ := reached'.course launched RunInv.true
  obtain ⟨budget, sound⟩ := course.sound
  obtain ⟨⟨queue, replay, holds⟩, picks⟩ := keeps sound.policy
  refine ⟨e', reached', rfl, picks, fun at_ free => ?_⟩
  obtain ⟨dispatched, -⟩ := course.dispatched at_
  have online : S.policy.workConserving = true := by
    rcases kind with h | h <;> rw [h] <;> rfl
  rcases dispatched.offered free with empty | ⟨offline, -⟩
  · rw [replay, List.eq_nil_iff_forall_not_mem.mpr fun p mem =>
      empty p (places_eq_ready.mp ((holds.mem_iff p).mp mem))]
  · cases online.symm.trans offline

/-! ## Where the keys saturate -/

/-- The first process waits for I/O while the second waits in the ready set, both at the
greatest priority value. -/
def clampWorkload : Workload :=
  ⟨[⟨1, 0, 2, 1, int64Max, 100, 0, [1, 1, 1]⟩, { processMake 2 1 1 with priority := int64Max },
    processMake 3 1 1]⟩

/-- Its run under `prio` with a level for every tick of waiting. -/
def clampSim : Sim Float where
  build := .release
  w := clampWorkload
  policy := policyPrio
  params := { aging := 1 }
  opt := { cores := 1, csCost := 0, predict := .oracle, alpha := 0.5, tau0 := 1, maxSegments := 10 }

/-- The state of the policy at its start. -/
def clampState : Prio where
  preemptive := false
  aging := 1
  waited := fun _ => 0
  readySince := fun _ => 0
  root := none
  links := ⟨fun _ => none, fun _ => none, fun _ => 0⟩
  heapPrio := fun i => mix (BitVec.ofNat 64 i)
  r := fun _ => 0
  base := fun _ => 0

theorem clampSim_started : Started clampSim clampState where
  validated := by
    have sorted : (clampWorkload.items.map Process.pid).mergeSort (· ≤ ·) = [1, 2, 3] :=
      List.mergeSort_of_pairwise (by decide)
    have items : validateItems clampWorkload.items 0 0 = .ok (1, 5) := rfl
    have sum : ckAddI64 1 5 = some 6 := rfl
    rw [show clampSim.w = clampWorkload from rfl, workloadValidate, if_neg (by decide), items]
    simp only [sum, sorted]
    rfl
  options := rfl
  created := rfl

theorem clampSim_order : clampSim.order = [⟨0, 1, 0⟩, ⟨1, 2, 1⟩, ⟨1, 3, 2⟩] := by
  rw [order]
  exact List.mergeSort_of_pairwise (by decide)

/-- The same run with its log. -/
abbrev clampLogged : Sim Float := clampSim.withPolicy clampSim.policy.logged

/-- The log of its run up to the clock 2: the second process has waited for a tick, the
first for none, and `next_slice` returns the first. -/
theorem clampSim_log : ∃ e, Reached clampLogged ⟨clampState, []⟩ .dispatched e ∧
    e.state.log = [⟨2, .slice ⟨0, 1, schedNoDeadline⟩⟩, ⟨2, .ready 0⟩,
      ⟨1, .slice ⟨2, 1, schedNoDeadline⟩⟩, ⟨1, .arrival 2⟩, ⟨1, .arrival 1⟩,
      ⟨0, .slice ⟨0, 1, schedNoDeadline⟩⟩, ⟨0, .arrival 0⟩] := by
  have init : clampLogged.initEngine ⟨clampState, []⟩ =
      { clampLogged.initEngine ⟨clampState, []⟩ with
        pending := [⟨0, 1, 0⟩, ⟨1, 2, 1⟩, ⟨1, 3, 2⟩]
        now := 0
        cores := fun _ =>
          { proc := none, inCs := false, recheck := false, busyUntil := 0, runStart := 0,
            runEnd := 0, length := 0, deadline := 0, context := none, freeSince := 0 } } := by
    have sorted : clampLogged.order = [⟨0, 1, 0⟩, ⟨1, 2, 1⟩, ⟨1, 3, 2⟩] := clampSim_order
    simp only [initEngine, firstArrival, sorted]
  obtain ⟨e₀, first, running₀, e₁, dispatch₁, e₂, instant₂, running₂, e₃, dispatch₃, e₄, instant₄,
    running₄, e₅, dispatch₅, log⟩ : ∃ e₀,
      clampLogged.processInstant (clampLogged.initEngine ⟨clampState, []⟩) = some e₀ ∧
      clampLogged.running e₀ = true ∧ ∃ e₁, clampLogged.dispatch e₀ = some e₁ ∧ ∃ e₂,
      clampLogged.processInstant { e₁ with now := clampLogged.nextEvent e₁ } = some e₂ ∧
      clampLogged.running e₂ = true ∧ ∃ e₃, clampLogged.dispatch e₂ = some e₃ ∧ ∃ e₄,
      clampLogged.processInstant { e₃ with now := clampLogged.nextEvent e₃ } = some e₄ ∧
      clampLogged.running e₄ = true ∧ ∃ e₅, clampLogged.dispatch e₄ = some e₅ ∧
      e₅.state.log = [⟨2, .slice ⟨0, 1, schedNoDeadline⟩⟩, ⟨2, .ready 0⟩,
        ⟨1, .slice ⟨2, 1, schedNoDeadline⟩⟩, ⟨1, .arrival 2⟩, ⟨1, .arrival 1⟩,
        ⟨0, .slice ⟨0, 1, schedNoDeadline⟩⟩, ⟨0, .arrival 0⟩] := by
    rw [init]
    exact ⟨_, rfl, rfl, _, rfl, _, rfl, rfl, _, rfl, _, rfl, rfl, _, rfl, rfl⟩
  have reached : Reached clampLogged ⟨clampState, []⟩ .dispatched e₅ :=
    .dispatch (.instant (.dispatch (.instant (.dispatch (.first first) running₀ dispatch₁) rfl
      instant₂) running₂ dispatch₃) rfl instant₄) running₄ dispatch₅
  exact ⟨e₅, reached, log⟩

theorem clampSim_fit : clampSim.w.PrioritiesFit := by decide

/-- That pick is not the least by the effective priority. -/
theorem clampSim_picks : Started clampSim clampState ∧ clampSim.w.PrioritiesFit ∧
    ∃ e, Reached clampLogged ⟨clampState, []⟩ .dispatched e ∧
      Reached clampSim clampState .dispatched (e.map Logged.state) ∧
      ¬EachPick (fun before now ready p =>
        clampSim.w.Least (effectivePriority clampSim.w 1 before now) ready p) e.state.log := by
  obtain ⟨e, reached, log⟩ := clampSim_log
  refine ⟨clampSim_started, clampSim_fit, e, reached,
    reached.project clampSim.policy.logged_projects, ?_⟩
  rw [log]
  rintro ⟨-, ready, replay, -, least⟩
  obtain rfl : [0, 1] = ready := Option.some.inj replay
  have := least 1 (by decide) (by decide)
  revert this
  decide

/-- The picks of that run are in order up to the saturation. -/
theorem clampSim_prioPicks : ∃ e, Reached clampLogged ⟨clampState, []⟩ .dispatched e ∧
    EachPick (PrioPick clampSim.w 1) e.state.log := by
  obtain ⟨e, reached, -⟩ := clampSim_log
  obtain ⟨e', reached', -, picks, -⟩ := reached_prioPicks (.inl rfl) clampSim_fit clampSim_started
    (reached.project clampSim.policy.logged_projects)
  exact ⟨e', reached', picks⟩

end Sim

end CpuSched
