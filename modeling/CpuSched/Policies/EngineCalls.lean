import CpuSched.Engine.Termination
import CpuSched.Policies.AgingDeadlines
import CpuSched.Policies.HrrnSelection
import CpuSched.Policies.LotterySelection
import CpuSched.Policies.MlfqAllotments
import CpuSched.Policies.PriorityArithmetic

/-!
# The calls of the engine

The calls that the engine makes in a run follow the protocol, with the places where the
engine has the processes.  So in every state of the main loop a policy has what it keeps
along any sequence of such calls: it stores the ready processes, and the figures, picks and
deadlines of the single policies are those that they owe to any caller.
-/

namespace CpuSched

namespace Sim

variable {D : Type} [Double D] {S : Sim D}

/-! ## The protocol in a run -/

section Calls

variable {state : S.policy.State} {PInv : SchedView D → S.policy.State → Places → Prop}
  {point : LoopPoint} {e : S.Eng}

/-- The view that the policy is created with. -/
theorem Started.initView_ok (started : Started S state) :
    ViewOk S.w S.initView fun _ => .new := by
  have sound : S.Sound (fun _ _ _ => True) _ (S.initConfig state) :=
    Sound.init (workloadValidate_ok started.validated) trivial
  exact sound.viewOk rfl fun _ _ => rfl

/-- A policy that keeps a contract comes to every state of the main loop by calls of the
protocol. -/
theorem Reached.sound_protocol (reached : Reached S state point e) (started : Started S state)
    (contract : Contract S.w S.policy PInv) (start : PInv S.initView state fun _ => .new) :
    ∃ sp budget, S.Sound (fun v s pl => PInv v s pl ∧ Protocol S.w S.policy S.params v s pl)
      budget ⟨e, sp⟩ := by
  have valid := workloadValidate_ok started.validated
  have launched : Launched S (fun v s pl => PInv v s pl ∧ Protocol S.w S.policy S.params v s pl)
      state :=
    ⟨valid, checkOptions_ok valid started.options, contract.protocol S.params, start,
      .create started.initView_ok started.created⟩
  obtain ⟨sp, course, -⟩ := reached.course launched RunInv.true
  obtain ⟨budget, sound⟩ := course.sound
  exact ⟨sp, budget, sound⟩

/-- A built-in policy comes to every state of the main loop by calls of the protocol. -/
theorem Reached.protocol (reached : Reached S state point e) (started : Started S state)
    (builtIn : BuiltIn S) :
    ∃ sp budget, S.Sound (Protocol S.w S.policy S.params) budget ⟨e, sp⟩ := by
  obtain ⟨PInv, launched⟩ := started.launched builtIn
  obtain ⟨sp, budget, sound⟩ := reached.sound_protocol started launched.contract launched.start
  exact ⟨sp, budget, { sound with policy := sound.policy.2 }⟩

/-- The calls themselves. -/
theorem Reached.cameBy (reached : Reached S state point e) (started : Started S state)
    (contract : Contract S.w S.policy PInv)
    (start : ∀ (v : SchedView D) s, ViewOk S.w v (fun _ => .new) →
      S.policy.create v S.params = .ok s → PInv v s fun _ => .new) :
    ∃ pl v₀ s₀ calls, CameBy S.w S.policy S.params (S.view e) e.state pl v₀ s₀ calls ∧
      ∀ x ∈ calls, x.1.now ≤ int64Max := by
  have valid := workloadValidate_ok started.validated
  obtain ⟨sp, budget, sound⟩ := reached.sound_protocol started contract
    (start _ _ started.initView_ok started.created)
  obtain ⟨v₀, s₀, calls, came⟩ := sound.policy.2.cameBy fun run => (run.keep contract start).2
  have now_le : e.now ≤ int64Max := by
    have := sound.budget_eq
    have := sound.budget_le
    have := sound.work_nonneg valid
    dsimp only at *
    omega
  exact ⟨_, v₀, s₀, calls, came, fun x mem => (came.clock x mem).trans now_le⟩

end Calls

/-! ## The policies in a run -/

variable {point : LoopPoint}

/-- The interface contract holds in every state of the main loop. -/
theorem Reached.keeps {realloc : Nat → Bool} {B : BuiltInPolicy D}
    (builtIn : B ∈ builtInPolicies realloc) (admitted : S.params.Admitted) {state : B.policy.State}
    {e : (S.withPolicy B.policy).Eng} (reached : Reached (S.withPolicy B.policy) state point e)
    (started : Started (S.withPolicy B.policy) state) :
    ∃ sp budget, (S.withPolicy B.policy).Sound (Keeps S.w B) budget ⟨e, sp⟩ := by
  obtain ⟨Inv, contract, start, stored⟩ := builtIn_lawful (workloadValidate_ok started.validated)
    builtIn admitted (v := (S.withPolicy B.policy).initView) rfl rfl state started.created
  obtain ⟨sp, budget, sound⟩ := reached.sound_protocol started contract start
  exact ⟨sp, budget, { sound with
    policy := contract.keeps builtIn stored sound.policy.1 (sound.viewOk rfl fun _ _ => rfl) }⟩

/-- With exact bursts the next pick of HRRN is the process with the largest response ratio. -/
theorem Reached.hrrn_pick {state : Logged Hrrn} (oracle : S.opt.predict = .oracle)
    {e : (S.withPolicy policyHrrn.logged).Eng}
    (reached : Reached (S.withPolicy policyHrrn.logged) state point e)
    (started : Started (S.withPolicy policyHrrn.logged) state) (early : e.now < int64Max) :
    let v := (S.withPolicy policyHrrn.logged).view e
    ∃ sp s' r, policyHrrn.logged.nextSlice v e.state = some (s', r) ∧
      (r = none → ∀ p, places sp p ≠ .ready) ∧
      ∀ slice, r = some slice → places sp slice.proc = .ready ∧
        ∀ p, places sp p = .ready → p ≠ slice.proc →
          RatioBefore S.w v e.state.log slice.proc p := by
  have valid := workloadValidate_ok started.validated
  have none : (S.withPolicy policyHrrn.logged).initView.predicted = none := by
    rw [initView, initPredicted, oracle]
  obtain ⟨sp, budget, sound⟩ := reached.sound_protocol started (hrrn_sorted valid).oracle
    ⟨hrrn_starts_sorted started.initView_ok started.created, none⟩
  obtain ⟨⟨sorted, oracle⟩, -⟩ := sound.policy
  exact ⟨sp, sorted.selects valid (sound.viewOk rfl fun _ _ => rfl) oracle sound.showsBursts early⟩

/-- The draws of a lottery select as many ready processes as there are tickets. -/
theorem Reached.lottery_draws {state : Lottery} (admitted : S.params.Admitted)
    {e : (S.withPolicy policyLottery).Eng}
    (reached : Reached (S.withPolicy policyLottery) state point e)
    (started : Started (S.withPolicy policyLottery) state) :
    ∃ sp, e.state.total = ∑ q ∈ (Finset.range S.w.len).filter fun q => places sp q = .ready,
        (S.w.proc q).tickets ∧
      ∀ p, places sp p = .ready →
        {r | 0 ≤ r ∧ r < e.state.total ∧ e.state.byRank (fenwickFind e.state r) = p} =
          Set.Ico (ticketsBefore S.w (places sp) p)
            (ticketsBefore S.w (places sp) p + (S.w.proc p).tickets) := by
  have valid := workloadValidate_ok started.validated
  obtain ⟨sp, budget, sound⟩ := reached.sound_protocol started (lottery_contract valid)
    (LotteryInv.init rfl admitted.quantum_pos started.created)
  obtain ⟨inv, run⟩ := sound.policy
  have selection := inv.selection valid (sound.viewOk rfl fun _ _ => rfl) (run.rankedByPid valid)
  exact ⟨sp, selection.1, selection.2.1⟩

/-- The tally of MLFQ stays within the allotments. -/
theorem Reached.mlfq_tallied {state : Mlfq} (admitted : S.params.Admitted)
    {e : (S.withPolicy policyMlfq).Eng}
    (reached : Reached (S.withPolicy policyMlfq) state point e)
    (started : Started (S.withPolicy policyMlfq) state) :
    ∃ sp t, Tallied S.w S.params ((S.withPolicy policyMlfq).view e) e.state (places sp) t ∧
      (∀ p l epoch, l + 1 < S.params.mlfqLevels →
        t.ran p l epoch ≤ S.params.mlfqAllotment l) ∧
      ∀ p ran, Ran (places sp) p ran → t.level p + 1 < S.params.mlfqLevels →
        t.ran p (t.level p) (t.epoch p) + ran ≤ S.params.mlfqAllotment (t.level p) := by
  obtain ⟨s, a, created, -, rep, ok⟩ := mlfqCreate_spec (S.withPolicy policyMlfq).initView admitted
  cases created.symm.trans started.created
  obtain ⟨sp, budget, sound⟩ := reached.sound_protocol started (mlfq_contract S.w) ⟨a, rep, ok⟩
  obtain ⟨t, tallied⟩ := sound.policy.2.tallied
  obtain ⟨a, eager, ok⟩ := tallied.ok admitted
  have notGamed := ok.notGamed eager
  exact ⟨sp, t, tallied, notGamed.1, notGamed.2.1⟩

/-- The class `Mlfq` answers the calls of the engine as `mlfq.c` does. -/
theorem Reached.mlfq_eager {state : Mlfq} (admitted : S.params.Admitted)
    {e : (S.withPolicy policyMlfq).Eng}
    (reached : Reached (S.withPolicy policyMlfq) state point e)
    (started : Started (S.withPolicy policyMlfq) state) :
    ∃ pl v₀ s₀ a₀ calls answers,
      CameBy S.w policyMlfq S.params ((S.withPolicy policyMlfq).view e) e.state pl v₀ s₀ calls ∧
      RefMlfq.create v₀ S.params = .ok a₀ ∧ policyMlfq.answers s₀ calls = some answers ∧
      refMlfq.answers a₀ calls = some answers := by
  obtain ⟨pl, v₀, s₀, calls, came, -⟩ := reached.cameBy started (mlfq_contract S.w)
    fun v s _ created => by
      obtain ⟨s', a, run, -, rep, ok⟩ := mlfqCreate_spec v admitted
      cases run.symm.trans created
      exact ⟨a, rep, ok⟩
  obtain ⟨s', a, run, run', rep, ok⟩ := mlfqCreate_spec v₀ admitted
  cases run.symm.trans came.created
  obtain ⟨answers, here, there⟩ := Eager.calls ⟨rep, ok⟩ came.follows
  exact ⟨pl, v₀, _, a, calls, answers, came, run', here, there⟩

/-- The next deadline of `prio-p` is the first instant at which a process gains a level. -/
theorem Reached.prioP_deadline {state : Logged Prio} (aged : 0 < S.params.aging)
    {e : (S.withPolicy policyPrioP.logged).Eng}
    (reached : Reached (S.withPolicy policyPrioP.logged) state point e)
    (started : Started (S.withPolicy policyPrioP.logged) state) :
    let v := (S.withPolicy policyPrioP.logged).view e
    ∃ sp, ∀ s' slice, policyPrioP.logged.nextSlice v e.state = some (s', some slice) →
      (∃ q, (places sp).afterNext (some slice) q = .ready) →
        ∃ t, IsLeast (levelInstants S.params.aging s'.log ((places sp).afterNext (some slice))
          v.now) t ∧ slice.deadline = if t ≤ int64Max then t else schedNoDeadline := by
  have valid := workloadValidate_ok started.validated
  have keeps : KeptLog (D := D) S.w policyPrioP (LoggedInv (PrioInvBoth satSub true S.w))
      (WaitsOk S.params.aging) := prioP_waits valid
  have contract : Contract (D := D) S.w policyPrioP (PrioInvBoth satSub true S.w) :=
    prioP_contract valid
  obtain ⟨sp, budget, sound⟩ := reached.sound_protocol started (contract.logged.and keeps.kept)
    (prioP_waits_start started.created)
  obtain ⟨⟨logged, waits⟩, -⟩ := sound.policy
  exact ⟨sp, fun s' slice call someone =>
    (waits.deadline valid aged logged (sound.viewOk rfl fun _ _ => rfl) call).1 someone⟩

/-- No operation of `prio` leaves the 64-bit range before the state exactly when every
`enqueue` had a multiple of the aging period to round to. -/
theorem Reached.prio_fits {state : Prio} (aging_le : S.params.aging ≤ int64Max)
    {e : (S.withPolicy policyPrio).Eng}
    (reached : Reached (S.withPolicy policyPrio) state point e)
    (started : Started (S.withPolicy policyPrio) state) :
    ∃ pl v₀ s₀ calls,
      CameBy S.w policyPrio S.params ((S.withPolicy policyPrio).view e) e.state pl v₀ s₀ calls ∧
      (policyPrio.Throughout RemaindersOk (fun v s c => ∀ x ∈ prioInts satSub v s c, InI64 x) s₀
          (fun _ => .new) calls ↔
        policyPrio.Throughout (fun _ _ => True) RoundsFor s₀ (fun _ => .new) calls) := by
  have valid := workloadValidate_ok started.validated
  have contract : Contract (D := D) S.w policyPrio (PrioInvBoth satSub false S.w) :=
    prio_contract valid
  obtain ⟨pl, v₀, s₀, calls, came, clock⟩ := reached.cameBy started contract
    fun v s _ created => (prioTimes_start created).1
  exact ⟨pl, v₀, s₀, calls, came,
    prio_throughout valid aging_le (.create came.view came.created) came.follows clock⟩

end Sim

end CpuSched
