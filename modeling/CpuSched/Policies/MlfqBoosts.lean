import CpuSched.Policies.MlfqContract
import CpuSched.Policies.Protocol

/-!
# Lazy boosts against eager boosts

`mlfq.c` resets a job at the first call that looks at it after a boost, the reference resets
every job at the boost.  Lent the same views, the two answer every sequence of calls that
follows the protocol alike.
-/

namespace CpuSched

variable {D : Type} {w : Workload}

/-- The state of the reference that `mlfq.c` represents, in a state that calls of the
protocol reach. -/
structure Eager (v : SchedView D) (s : Mlfq) (a : RefMlfq) (pl : Places) : Prop where
  rep : Rep s a fun p => ∃ slice, pl p = .out slice
  ok : RefMlfqOk a v.now pl

namespace Eager

variable {v : SchedView D} {s : Mlfq} {a : RefMlfq} {pl : Places}

theorem lend (eager : Eager v s a pl) {v' : SchedView D} (step : ViewStep pl v v') :
    Eager v' s a pl :=
  ⟨eager.rep, eager.ok.later step.now_le⟩

/-- One call: both policies answer, and with the same process and length. -/
theorem call (eager : Eager v s a pl) {c : Call} (allowed : c.Allowed w v pl) :
    ∃ s' r a' r', policyMlfq.call v s c = some (s', r) ∧ refMlfq.call v a c = some (a', r') ∧
      r.map Slice.choice = r'.map Slice.choice ∧ Eager v s' a' (c.after pl r) := by
  obtain ⟨rep, ok⟩ := eager
  cases c with
  | arrival p =>
      have new : pl p = .new := allowed.new
      obtain ⟨s', a', run, run', rep', ok'⟩ := mlfqArrival_spec rep ok (p := p) (by simp [new])
        (by simp [new])
      refine ⟨s', none, a', none, ?_, ?_, rfl, rep', ok'⟩
      · simp only [Policy.call, policyMlfq, run, Option.map_some]
      · simp only [Policy.call, refMlfq, run', Option.map_some]
  | wake p =>
      have blocked : pl p = .blocked := allowed.blocked
      obtain ⟨s', a', run, run', rep', ok'⟩ :=
        mlfqReady_spec rep ok (p := p) (by simp [blocked]) (by simp [blocked])
      refine ⟨s', none, a', none, ?_, ?_, rfl, rep', ok'⟩
      · simp only [Policy.call, Policy.wakeHook, policyMlfq, Option.getD_some, run, Option.map_some]
      · simp only [Policy.call, Policy.wakeHook, refMlfq, Option.getD_some, run', Option.map_some]
  | next =>
      rcases mlfqNextSlice_spec rep ok allowed with ⟨-, run', run⟩ |
        ⟨s', a', slice, run', run, -, -, -, -, -, rep', ok'⟩
      · obtain ⟨rep', ok'⟩ := rep.boosted ok
        exact ⟨_, none, _, none, run, run', rfl, rep', ok'⟩
      · exact ⟨s', some slice, a', _, run, run', rfl, rep', ok'⟩
  | preempt p ran =>
      obtain ⟨⟨slice, out, -, fits⟩, -⟩ := allowed
      obtain ⟨s', a', run, run', rep', ok'⟩ := mlfqPreempt_spec rep ok out fits
      refine ⟨s', none, a', none, ?_, ?_, rfl, rep', ok'⟩
      · simp only [Policy.call, policyMlfq, Option.bind_some, run, Option.map_some]
      · simp only [Policy.call, refMlfq, Option.bind_some, run', Option.map_some]
  | block p ran =>
      obtain ⟨⟨slice, out, -, fits⟩, -⟩ := allowed
      obtain ⟨s', a', run, run', rep', ok'⟩ := mlfqBlock_spec rep ok out fits
      refine ⟨s', none, a', none, ?_, ?_, rfl, rep', ok'⟩
      · simp only [Policy.call, policyMlfq, optCall, run, Option.map_some]
      · simp only [Policy.call, refMlfq, optCall, run', Option.map_some]
  | complete p ran =>
      obtain ⟨slice, out, -, -⟩ := allowed
      exact ⟨s, none, a, none, rfl, rfl, rfl, rep.mono fun q hq => (out_of_move (by simp) q hq).1,
        ok.other (by simp [out]) (by simp) (by simp)⟩

/-- The reference answers a call that the policy has answered. -/
theorem called (eager : Eager v s a pl) {c : Call} (allowed : c.Allowed w v pl) {s' : Mlfq}
    {r : Option Slice} (run : policyMlfq.call v s c = some (s', r)) :
    ∃ a' r', refMlfq.call v a c = some (a', r') ∧ Eager v s' a' (c.after pl r) := by
  obtain ⟨s₁, r₁, a', r', run₁, ref, -, eager'⟩ := eager.call allowed
  obtain ⟨rfl, rfl⟩ := Prod.mk.inj (Option.some.inj (run₁.symm.trans run))
  exact ⟨a', r', ref, eager'⟩

/-- A sequence of calls, by induction on it. -/
theorem calls (eager : Eager v s a pl) {calls : List (SchedView D × Call)}
    (follows : FollowsProtocol w policyMlfq v s pl calls) :
    ∃ answers, policyMlfq.answers s calls = some answers ∧
      refMlfq.answers a calls = some answers := by
  induction calls generalizing v s a pl with
  | nil => exact ⟨[], rfl, rfl⟩
  | cons call rest ih =>
      obtain ⟨v', c⟩ := call
      obtain ⟨-, step, allowed, follows⟩ := follows
      obtain ⟨s', r, a', r', run, run', same, eager'⟩ := (eager.lend step).call allowed
      obtain ⟨answers, lazily, eagerly⟩ := ih eager' (follows s' r run)
      refine ⟨r.map Slice.choice :: answers, ?_, ?_⟩
      · simp only [Policy.answers, run, Option.bind_some, lazily, Option.map_some]
      · simp only [Policy.answers, run', Option.bind_some, eagerly, Option.map_some, same]

end Eager

/-- Started with the same parameters and lent the same views, `mlfq.c` and the class `Mlfq`
return the same process and length from every call of `next_slice`, along every sequence of
calls that follows the protocol. -/
theorem mlfq_boosts_eager {params : PolicyParams} (admitted : params.Admitted) {v : SchedView D}
    {s : Mlfq} {a : RefMlfq} (created : mlfqCreate v params = .ok s)
    (created' : RefMlfq.create v params = .ok a) {calls : List (SchedView D × Call)}
    (follows : FollowsProtocol w policyMlfq v s (fun _ => .new) calls) :
    ∃ answers, policyMlfq.answers s calls = some answers ∧
      refMlfq.answers a calls = some answers := by
  obtain ⟨s', a', run, run', rep, ok⟩ := mlfqCreate_spec v admitted
  cases run.symm.trans created
  cases run'.symm.trans created'
  exact Eager.calls ⟨rep, ok⟩ follows

/-- The calls of the run of two processes, and one more of `next_slice`. -/
def pausingToLast : List (Lent × Call) := pausingCalls ++ [(⟨7, [(1, 1), (1, 5)]⟩, .next)]

/-- A boost after every three ticks: the second one is between a demotion and the next
dispatch. -/
theorem pausing_mlfq_run : ((policyMlfq.runs pausing { mlfqBoost := 3 } noteAnswers pausingStart []
    pausingToLast).map fun e => (e.1.now, e.2.2.2)) =
      some (7, [(0, 2), (1, 2), (0, 2), (1, 2), (0, 2)]) := by
  decide +kernel

theorem pausing_mlfq_answers :
    ((mlfqCreate (pausingStart.view pausing) { mlfqBoost := 3 }).toOption.bind fun s =>
      policyMlfq.answers s (pausingToLast.map fun call => (call.1.view pausing, call.2))) =
      some [none, some (0, 2), none, none, some (1, 2), none, some (0, 2), none, some (1, 2), none,
        none, some (0, 2)] := by
  decide +kernel

/-- The eager reference gives the same answers through preemptions, a block, a wake-up and two
boosts. -/
theorem pausing_boosts :
    ∃ a, RefMlfq.create (pausingStart.view pausing) { mlfqBoost := 3 } = .ok a ∧
    refMlfq.answers a (pausingToLast.map fun call => (call.1.view pausing, call.2)) =
      some [none, some (0, 2), none, none, some (1, 2), none, some (0, 2), none, some (1, 2), none,
        none, some (0, 2)] := by
  have admitted : PolicyParams.Admitted { mlfqBoost := 3 } :=
    { PolicyParams.admitted_default with boost_nonneg := by decide }
  obtain ⟨e, run, -⟩ := Option.map_eq_some_iff.mp pausing_mlfq_run
  obtain ⟨s, created, follows⟩ := Policy.runs_followsProtocol run
  have created : mlfqCreate (pausingStart.view pausing) { mlfqBoost := 3 } = .ok s := created
  have lazily := pausing_mlfq_answers
  rw [created] at lazily
  have lazily : policyMlfq.answers s _ = some _ := lazily
  obtain ⟨answers, same, eagerly⟩ := mlfq_boosts_eager admitted created rfl follows
  obtain rfl := Option.some.inj (same.symm.trans lazily)
  exact ⟨_, rfl, eagerly⟩

end CpuSched
