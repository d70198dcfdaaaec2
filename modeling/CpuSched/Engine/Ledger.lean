import CpuSched.Engine.Accounts
import CpuSched.Engine.Termination

/-!
# The books of a run

`Ledger` is what the timelines and the counters of a run agree on as long as
nothing has failed: every lane is in order, the counted switches are the shown
ones, and every process has been charged the ticks of its runs.  A successful
`sim_run` closes the books: its timelines are the lanes of the last state with
the idle time up to the end.
-/

namespace CpuSched

namespace Sim

variable {D : Type} {S : Sim D}
variable {PInv : SchedView D → S.policy.State → Places → Prop}

/-- A sum over the cores when one term changes. -/
theorem sum_cores_step {n c : Nat} (lt : c < n) {f g : Nat → Int} {d : Int}
    (others : ∀ c', c' ≠ c → g c' = f c') (here : g c = f c + d) :
    ∑ c ∈ Finset.range n, g c = ∑ c ∈ Finset.range n, f c + d := by
  have mem : c ∈ Finset.range n := Finset.mem_range.mpr lt
  rw [← Finset.add_sum_erase _ g mem, ← Finset.add_sum_erase _ f mem, here]
  have rest : ∑ c' ∈ (Finset.range n).erase c, g c' = ∑ c' ∈ (Finset.range n).erase c, f c' :=
    Finset.sum_congr rfl fun c' h => others c' (Finset.ne_of_mem_erase h)
  rw [rest]
  ring

/-- What the timelines and the counters agree on. -/
structure Ledger (S : Sim D) (e : S.Eng) : Prop where
  lanes : ∀ c < S.opt.cores, Lane S.opt.csCost S.firstArrival (e.cores c) (e.timelines c)
  csTime_eq : e.csTime = e.switches * S.opt.csCost
  csShown : ∑ c ∈ Finset.range S.opt.cores, kindTime .cs (e.timelines c) = e.csTime
  switches_eq : e.switches = ∑ c ∈ Finset.range S.opt.cores,
    (switchesIn (e.timelines c) + pendingSwitch (e.cores c) (e.timelines c))
  runs : ∀ p, ∑ c ∈ Finset.range S.opt.cores, runTime p (e.timelines c) = S.executed e p
  allRuns : ∑ c ∈ Finset.range S.opt.cores, kindTime .run (e.timelines c) =
    ∑ p ∈ Finset.range S.w.len, S.executed e p

/-- Marking a core changes nothing that is recorded. -/
theorem Lane.recheck {cs first : Int} {core core' : Core} {l : List Segment}
    (same : core' = core ∨ core' = { core with recheck := true }) (lane : Lane cs first core l) :
    Lane cs first core' l ∧ pendingSwitch core' l = pendingSwitch core l := by
  rcases same with rfl | rfl
  · exact ⟨lane, rfl⟩
  · refine ⟨⟨lane.tiled, ?_⟩, rfl⟩
    cases lane.tail with
    | unused free context timeline => exact .unused free context timeline
    | ran free context timeline => exact .ran free context timeline
    | switching on switching timeline => exact .switching on switching timeline
    | goesOn on runs timeline => exact .goesOn on runs timeline
    | fresh on runs fits => exact .fresh on runs fits

theorem Effect.ledger {e e' : S.Eng} (effect : Effect e e') (ledger : Ledger S e) :
    Ledger S e' := by
  cases effect with
  | quiet cores timelines switches csTime executed =>
      constructor
      · intro c hc
        rw [timelines]
        exact (Lane.recheck (cores c) (ledger.lanes c hc)).1
      · rw [csTime, switches]
        exact ledger.csTime_eq
      · rw [timelines, csTime]
        exact ledger.csShown
      · rw [timelines, switches, ledger.switches_eq]
        refine Finset.sum_congr rfl fun c hc => ?_
        rw [(Lane.recheck (cores c) (ledger.lanes c (Finset.mem_range.mp hc))).2]
      · intro p
        rw [timelines, executed]
        exact ledger.runs p
      · simp only [timelines, executed]
        exact ledger.allRuns
  | @step c sw charged lt on cores timelines switches csTime executed inside =>
      have lane := ledger.lanes c lt
      constructor
      · intro c' hc'
        by_cases same : c' = c
        · subst same
          exact on.lane lane
        · rw [cores c' same, timelines c' same]
          exact ledger.lanes c' hc'
      · rw [csTime, switches, ledger.csTime_eq]
        ring
      · rw [csTime, ← ledger.csShown]
        exact sum_cores_step lt (fun c' ne => by rw [timelines c' ne]) on.csTime
      · rw [switches, ledger.switches_eq]
        exact (sum_cores_step lt (fun c' ne => by rw [timelines c' ne, cores c' ne])
          (on.switches lane)).symm
      · intro p
        rw [executed, ← ledger.runs p]
        exact sum_cores_step lt (fun c' ne => by rw [timelines c' ne]) (on.runTime p)
      · simp only [executed]
        rw [Finset.sum_add_distrib, ← ledger.allRuns]
        exact sum_cores_step lt (fun c' ne => by rw [timelines c' ne]) (on.allRun inside)

variable [Double D]

theorem Ledger.init (state : S.policy.State) : Ledger S (S.initConfig state).eng := by
  constructor
  · intro c _
    exact ⟨.nil, .unused rfl rfl rfl⟩
  · simp [initConfig, initEngine]
  · simp [initConfig, initEngine, kindTime, segTime]
  · simp [initConfig, initEngine, switchesIn, pendingSwitch]
  · intro p
    simp [initConfig, initEngine, runTime, segTime, executed, Process.cpuBefore, evenSum]
  · simp [initConfig, initEngine, kindTime, segTime, executed, Process.cpuBefore, evenSum]

theorem Ledger.runInv (valid : S.w.Valid) (hcs : 0 ≤ S.opt.csCost) :
    RunInv S PInv fun a => a.eng.fail = .ok → Ledger S a.eng where
  init state _ _ := Ledger.init state
  move move sound _ _ ledger ok := by
    obtain ⟨before, effect⟩ := move.effect valid hcs sound ok
    exact effect.ledger (ledger before)
  advance _ _ _ _ _ ledger ok := by
    obtain ⟨lanes, csTime_eq, csShown, switches_eq, runs, allRuns⟩ := ledger ok
    exact ⟨lanes, csTime_eq, csShown, switches_eq, runs, allRuns⟩

/-- A process that has completed is in its last phase and was charged its CPU
bursts. -/
def Spent (S : Sim D) (e : S.Eng) (p : Nat) : Prop :=
  e.phase p + 1 = (S.w.proc p).phaseCount ∧ S.executed e p = (S.w.proc p).burst

omit [Double D] in
theorem Spent.congr {e e' : S.Eng} {p : Nat} (spent : Spent S e p) (phase : e'.phase p = e.phase p)
    (burstLen : e'.burstLen p = e.burstLen p) (remaining : e'.remaining p = e.remaining p) :
    Spent S e' p := by
  unfold Spent Sim.executed at *
  rw [phase, burstLen, remaining]
  exact spent

theorem Spent.runInv (valid : S.w.Valid) (hcs : 0 ≤ S.opt.csCost) :
    RunInv S PInv fun a => ∀ p < S.w.len, a.spots p = .done → Spent S a.eng p where
  init state _ p _ done := by simp [initConfig] at done
  move {budget a b} move sound _ _ here p hp done := by
    by_cases before : a.spots p = .done
    · have spent := here p hp before
      have ne : ∀ {q c s}, a.spots q = .core c s → p ≠ q := by
        rintro q c s seat rfl
        cases before.symm.trans seat
      cases move with
      | arrive => exact spent
      | wake => exact spent
      | pick => exact spent
      | refuse => exact spent
      | mark => exact spent
      | start seat switching =>
          rw [sound.startRun_eq valid seat switching]
          exact spent
      | place held core_lt free fits =>
          rw [sound.placed_eq valid hcs held fits]
          exact spent
      | preempt seat => exact spent.congr (by simp) (by simp) (by simp [ne seat])
      | complete seat =>
          exact spent.congr (by simp [finishProcess, burstOver])
            (by simp [finishProcess, burstOver])
            (by simp [finishProcess, burstOver, ne seat])
      | block seat runs ran used more =>
          rw [(sound.startIo_eq valid seat runs used more).2]
          exact spent.congr (by simp [ne seat]) (by simp [ne seat]) (by simp [ne seat])
    · cases move with
      | mark => exact absurd done before
      | start => exact absurd done before
      | refuse => exact absurd done before
      | @complete e sp c q s state seat runs ran used last hook =>
          by_cases same : p = q
          · subst same
            have progress := sound.progress (p := p) (by simp [seat]) (by simp [seat])
            have cpu : (S.w.proc p).cpuBefore (e.phase p) + (S.w.proc p).phase (e.phase p) =
                (S.w.proc p).burst := (valid.proc hp).cpuBefore_last progress.even last
            have burst : e.burstLen p = (S.w.proc p).phase (e.phase p) := progress.burstLen_eq
            have used : e.remaining p - (e.now - (e.cores c).runStart) = 0 := by simpa using used
            refine ⟨by simpa [finishProcess, burstOver] using last, ?_⟩
            simp only [executed, finishProcess, burstOver, chargeRun_remaining, chargeRun_phase,
              chargeRun_burstLen, Function.update_self]
            omega
          · exact absurd ((Function.update_of_ne same ..).symm.trans done) before
      | _ =>
          simp only [Function.update_apply] at done
          split_ifs at done
          exact absurd done before
  advance _ _ _ _ _ here := here

/-! ## The result of a run -/

omit [Double D] in
/-- The idle time after the last event. -/
theorem foldl_appendTrailing (cs : List Nat) (nodup : cs.Nodup) (e : S.Eng)
    (ok : (cs.foldl S.appendTrailing e).fail = .ok) :
    e.fail = .ok ∧ (cs.foldl S.appendTrailing e).outcomes = e.outcomes ∧
      (cs.foldl S.appendTrailing e).switches = e.switches ∧
      (cs.foldl S.appendTrailing e).csTime = e.csTime ∧
      ∀ c, (cs.foldl S.appendTrailing e).timelines c =
        if c ∈ cs then idleRecord (e.cores c) e.now (e.timelines c) else e.timelines c := by
  induction cs generalizing e with
  | nil => exact ⟨ok, rfl, rfl, rfl, by simp⟩
  | cons c rest ih =>
      rw [List.foldl_cons] at ok ⊢
      rw [List.nodup_cons] at nodup
      obtain ⟨ok', outcomes, switches, csTime, timelines⟩ := ih nodup.2 (S.appendTrailing e c) ok
      obtain ⟨before, recorded⟩ := append_timelines ok'
      have recorded : (S.appendTrailing e c).timelines =
          Function.update e.timelines c (idleRecord (e.cores c) e.now (e.timelines c)) := recorded
      have cores : (S.appendTrailing e c).cores = e.cores := S.append_cores ..
      have now_eq : (S.appendTrailing e c).now = e.now := S.append_now ..
      refine ⟨before, outcomes.trans (S.append_outcomes ..), switches.trans (S.append_switches ..),
        csTime.trans (S.append_csTime ..), fun c' => ?_⟩
      · rw [timelines c', recorded, cores, now_eq]
        by_cases here : c' = c
        · subst here
          rw [if_neg nodup.1, Function.update_self, if_pos List.mem_cons_self]
        · rw [Function.update_of_ne here]
          simp only [List.mem_cons, here, false_or]

/-- How a successful run ends: in a state of the main loop in which every process
has completed and every core is free. -/
structure Closed (S : Sim D) (PInv : SchedView D → S.policy.State → Places → Prop)
    (state : S.policy.State) (e : S.Eng) (r : SimResult) : Prop where
  reached : Reached S state .settled e
  ok : e.fail = .ok
  completed : e.completed = S.w.len
  free : ∀ c < S.opt.cores, (e.cores c).proc = none
  timelines : ∀ c < S.opt.cores, r.timelines c =
    (idleRecord (e.cores c) e.now (e.timelines c)).reverse
  outcomes : r.outcomes = e.outcomes
  cores : r.cores = S.opt.cores
  firstArrival : r.firstArrival = S.firstArrival
  switches : r.switches = e.switches
  csTime : r.csTime = e.csTime

theorem Launched.closed {state : S.policy.State} (launched : Launched S PInv state)
    (started : Started S state) {r : SimResult} (success : S.simRun = .ok r) :
    ∃ e, Closed S PInv state e r := by
  rcases launched.simRun_cases started with ⟨e, reached, stop, run⟩ | ⟨aborted, -⟩
  · rw [success] at run
    simp only [finish] at run
    split_ifs at run with ok
    obtain ⟨before, outcomes, switches, csTime, timelines⟩ :=
      foldl_appendTrailing _ List.nodup_range e ok
    have all : e.completed = S.w.len := by
      obtain ⟨sp, course, -⟩ := reached.course launched RunInv.true
      obtain ⟨budget, sound⟩ := course.sound
      have bound : e.completed ≤ S.w.len := by
        rw [sound.completed_eq]
        exact (Finset.card_filter_le _ _).trans (Finset.card_range _).le
      by_contra unfinished
      have : S.running e = true := running_iff.mpr ⟨by omega, before⟩
      rw [stop] at this
      cases this
    obtain ⟨sp, course, -⟩ := reached.course launched RunInv.true
    obtain ⟨budget, sound⟩ := course.sound
    obtain rfl := RunResult.ok.inj run
    refine ⟨e, reached, before, all, fun c hc => sound.free_of_completed all hc, fun c hc => ?_,
      outcomes, rfl, rfl, switches, csTime⟩
    simp only [result]
    rw [timelines, if_pos (List.mem_range.mpr hc)]
  · cases success.symm.trans aborted

end Sim

end CpuSched
