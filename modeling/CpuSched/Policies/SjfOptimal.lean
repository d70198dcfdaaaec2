import CpuSched.Policies.OneCpu

/-!
# SJF is optimal for processes that arrive together

On one core, without I/O and without a switch cost, SJF with exact bursts never runs a
process while a shorter one that has not run is ready, once all have arrived.  If they
arrive together that is from the first instant on, and no schedule has a smaller sum of
turnaround times.
-/

namespace CpuSched

variable {D : Type} {w : Workload}

/-- The invariant of SJF with exact bursts. -/
def SjfInv [Double D] (w : Workload) (v : SchedView D) (s : Heap) (pl : Places) : Prop :=
  ShortestInv sjfLess w v s pl ∧ v.predicted = none

theorem sjf_oracle [Double D] (valid : w.Valid) : Contract (D := D) w policySjf (SjfInv w) :=
  (sjf_contract valid).oracle

/-- SJF returns a ready process with the least burst. -/
theorem sjf_pick [Double D] (valid : w.Valid) {v : SchedView D} {s s' : Heap}
    {pl : Places} {slice : Slice}
    (inv : SjfInv w v s pl) (ok : ViewOk w v pl)
    (run : (policySjf : Policy D).nextSlice v s = some (s', some slice)) :
    ∀ q, pl q = .ready → v.burstLen slice.proc ≤ v.burstLen q := by
  intro q ready
  rcases inv.1.next (sjf_ranking valid) ok with ⟨stuck, -⟩ | ⟨p, s₁, answer, -, -, least⟩
  · cases stuck.symm.trans run
  · cases answer.symm.trans run
    by_cases same : q = p
    · rw [same]
    · have less := least inv.2 q ready same
      rw [sjfLess_oracle inv.2, lessByArrival_iff] at less
      simp only
      omega

namespace Sim

variable [Double D] {S : Sim D} {σ : Int → Option Nat} {budget : Int}

/-- All processes have arrived, those that are ready have not run, and none of them is
shorter than one that is on a core or about to be. -/
structure InBurstOrder (a : S.Config) : Prop where
  arrived : ∀ p < S.w.len, a.spots p ≠ .new
  whole : ∀ q, a.spots q = .ready → a.eng.remaining q = (S.w.proc q).burst
  least : ∀ p s, places a.spots p = .out s → ∀ q, a.spots q = .ready →
    (S.w.proc p).burst ≤ (S.w.proc q).burst

omit [Double D] in
/-- A move that makes nothing ready and picks nothing keeps the order. -/
theorem InBurstOrder.congr {a b : S.Config} (order : InBurstOrder a)
    (arrived : ∀ p, b.spots p = .new → a.spots p = .new)
    (ready : ∀ q, b.spots q = .ready → a.spots q = .ready ∧ b.eng.remaining q = a.eng.remaining q)
    (out : ∀ p s, places b.spots p = .out s → places a.spots p = .out s) : InBurstOrder b where
  arrived p hp new := order.arrived p hp (arrived p new)
  whole q here := (ready q here).2.trans (order.whole q (ready q here).1)
  least p s on q here := order.least p s (out p s on) q (ready q here).1

omit [Double D] in
/-- A process that moves to a spot where it is neither ready nor out. -/
theorem places_update_out {sp : Nat → Spot} {p q : Nat} {z : Spot} {s : Slice} (none : z.OffCore)
    (out : places (Function.update sp p z) q = .out s) : places sp q = .out s := by
  by_cases same : q = p
  · subst same
    cases z <;> simp [places, Spot.place, Spot.OffCore] at out none
  · simpa [places, same] using out

/-- Under SJF every move keeps the order of the bursts. -/
theorem Move.inBurstOrder (plain : Plain (S.withPolicy policySjf)) (valid : S.w.Valid)
    {a b : (S.withPolicy policySjf).Config} (move : (S.withPolicy policySjf).Move a b)
    (sound : (S.withPolicy policySjf).Sound (SjfInv S.w) budget a) (direct : Direct a)
    (order : InBurstOrder a) : InBurstOrder b := by
  have hcs : 0 ≤ (S.withPolicy policySjf).opt.csCost := plain.free.ge
  have contract : Contract (S.withPolicy policySjf).w (S.withPolicy policySjf).policy
    (SjfInv S.w) :=
    sjf_oracle valid
  cases move with
  | @arrive e sp key rest state pending due hook =>
      have mem : key ∈ e.pending := by
        rw [pending]
        exact List.mem_cons_self
      obtain ⟨hp, new⟩ := (sound.pending.mem_iff key.index).mp (List.mem_map_of_mem mem)
      exact absurd new (order.arrived _ hp)
  | @wake e sp p heap state popped due hook =>
      have blocked : sp p = .blocked := (sound.blocked.pop (blockedLess_total valid _)
        (fun q hq => sound.inside fun h => by cases hq.symm.trans h) popped (z := .ready)
        (by simp)).1
      exact absurd blocked (direct.unblocked p)
  | preempt seat runs ran left hook_eq hook => cases hook_eq
  | @block e sp c p s heap state seat runs ran used more pushed hook =>
      have hp : p < S.w.len := sound.inside (by simp [seat])
      have phase : e.phase p = 0 := plain.phase_eq sound hp (by simp [seat])
      exact absurd (by rw [plain.oneBurst p hp, phase]) more
  | @complete e sp c p s state seat runs ran used last hook =>
      refine order.congr (fun q new => ?_) (fun q ready => ?_) fun q s out => places_update_out
        (by trivial) out
      · simp only [Function.update_apply] at new
        split_ifs at new
        exact new
      · have ne : q ≠ p := by
          rintro rfl
          simp at ready
        simp only [Function.update_of_ne ne] at ready
        exact ⟨ready, by simp [finishProcess, burstOver, ne]⟩
  | mark seat switching redecides => cases redecides
  | @start e sp c p s deadline seat switching elapsed deadline_eq =>
      cases (direct.runs p c s seat).symm.trans switching
  | refuse hook early =>
      exact order.congr (fun _ new => new) (fun _ ready => ⟨ready, rfl⟩) fun _ _ out => out
  | @pick e sp s state hook early =>
      have ready := (sound.pick contract hook early).1
      have burst : ∀ q, sp q = .ready → e.burstLen q = (S.w.proc q).burst := by
        intro q ready
        have hq : q < S.w.len := sound.inside (by simp [ready])
        rw [(sound.data.progress q hq (by simp [ready])).burstLen_eq,
          plain.phase_eq sound hq (by simp [ready]), plain.burst_eq valid hq]
      have least := sjf_pick valid sound.policy (sound.viewOk rfl fun _ _ => rfl) hook
      have others : ∀ q, Function.update sp s.proc (.held s) q = .ready → sp q = .ready := by
        intro q here
        simp only [Function.update_apply] at here
        split_ifs at here
        exact here
      refine ⟨fun p hp new => ?_, fun q here => order.whole q (others q here),
        fun p s' out q here => ?_⟩
      · simp only [Function.update_apply] at new
        split_ifs at new
        exact order.arrived p hp new
      · have here := others q here
        by_cases same : p = s.proc
        · subst same
          rw [← burst _ ready, ← burst q here]
          exact least q (places_eq_ready.mpr here)
        · exact order.least p s' (by simpa [places, same] using out) q here
  | @place e sp c s held core_lt free fits =>
      rw [Sound.placed_eq (S := S.withPolicy policySjf) valid hcs sound held fits]
      refine order.congr (fun q new => ?_) (fun q ready => ?_) fun q s' out => ?_
      · simp only [Function.update_apply] at new
        split_ifs at new
        exact new
      · simp only [Function.update_apply] at ready
        split_ifs at ready
        exact ⟨ready, rfl⟩
      · by_cases same : q = s.proc
        · subst same
          simpa [places, held, Spot.place] using out
        · simpa [places, same] using out

/-! ## The first instant -/

/-- Nothing has run. -/
structure Unserved (a : S.Config) : Prop where
  waiting : ∀ p, a.spots p = .new ∨ a.spots p = .ready
  whole : ∀ p < S.w.len, a.eng.remaining p = (S.w.proc p).burst

/-- As long as nothing runs, processes arrive and nothing else happens. -/
theorem Event.unserved {a b : S.Config} (event : Event a b) (valid : S.w.Valid)
    {PInv : SchedView D → S.policy.State → Places → Prop} (sound : S.Sound PInv budget a)
    (none : NoneHeld a) (unserved : Unserved a) : Unserved b := by
  obtain ⟨move, noneHeld⟩ := event
  have none' := noneHeld none
  have off : ∀ {p c s}, a.spots p ≠ .core c s := by
    intro p c s seat
    rcases unserved.waiting p with new | ready
    · cases new.symm.trans seat
    · cases ready.symm.trans seat
  cases move with
  | @arrive e sp key rest state pending due hook =>
      refine ⟨fun p => ?_, unserved.whole⟩
      by_cases same : p = key.index
      · exact .inr (by simp [same])
      · simpa [same] using unserved.waiting p
  | @wake e sp p heap state popped due hook =>
      have blocked : sp p = .blocked := (sound.blocked.pop (blockedLess_total valid _)
        (fun q hq => sound.inside fun h => by cases hq.symm.trans h) popped (z := .ready)
        (by simp)).1
      rcases unserved.waiting p with new | ready
      · cases new.symm.trans blocked
      · cases ready.symm.trans blocked
  | preempt seat => exact absurd seat off
  | block seat => exact absurd seat off
  | complete seat => exact absurd seat off
  | mark seat => exact absurd seat off
  | start seat => exact absurd seat off
  | @pick e sp s state hook early => exact absurd (Function.update_self ..) (none' s.proc s)
  | refuse => exact ⟨unserved.waiting, unserved.whole⟩
  | place held => exact absurd held (none _ _)

theorem Events.unserved {a b : S.Config} (events : S.Events a b) (valid : S.w.Valid)
    (hcs : 0 ≤ S.opt.csCost) {PInv : SchedView D → S.policy.State → Places → Prop}
    (contract : Contract S.w S.policy PInv) (sound : S.Sound PInv budget a) (none : NoneHeld a)
    (unserved : Unserved a) : Unserved b := by
  induction events with
  | refl => exact unserved
  | tail before event ih =>
      exact event.unserved valid (Moves.sound valid hcs contract (Events.moves before) sound)
        (Events.noneHeld before none) ih

omit [Double D] in
/-- When the first instant is over, all processes that arrive together are ready. -/
theorem Unserved.inBurstOrder {a : S.Config} (unserved : Unserved a) (valid : S.w.Valid)
    {PInv : SchedView D → S.policy.State → Places → Prop} (sound : S.Sound PInv budget a)
    (settled : Settled a) (now_eq : a.eng.now = S.firstArrival)
    (together : ∀ p < S.w.len, ∀ q < S.w.len, (S.w.proc p).arrival = (S.w.proc q).arrival) :
    InBurstOrder a := by
  refine ⟨fun p hp new => ?_, fun q ready => ?_, fun p s out => ?_⟩
  · obtain ⟨q, hq, first⟩ := S.exists_firstArrival valid
    have later := settled.arrivals p hp new
    rw [together p hp q hq] at later
    omega
  · exact unserved.whole q (sound.inside (by simp [ready]))
  · rcases unserved.waiting p with new | ready
    · simp [places, new, Spot.place] at out
    · simp [places, ready, Spot.place] at out

/-! ## The run -/

/-- SJF with exact bursts starts with its contract. -/
theorem sjf_launched (oracle : S.opt.predict = .oracle) {state : Heap}
    (started : Started (S.withPolicy policySjf) state) :
    Launched (S.withPolicy policySjf) (SjfInv S.w) state := by
  have valid : S.w.Valid := workloadValidate_ok started.validated
  have start : SjfInv S.w (S.withPolicy policySjf).initView state fun _ => .new := by
    have created := started.created
    cases created
    refine ⟨HeapReady.init _ _ _, ?_⟩
    change S.initPredicted = none
    rw [initPredicted, oracle]
  exact ⟨valid, checkOptions_ok (S := S.withPolicy policySjf) valid started.options,
    sjf_oracle valid, start⟩

/-- From the first instant on the run is in the order of the bursts, and ahead of any
other schedule. -/
theorem Reached.sjfBeats {state : Heap}
    (launched : Launched (S.withPolicy policySjf) (SjfInv S.w) state)
    (plain : Plain (S.withPolicy policySjf)) (one : S.opt.cores = 1)
    (together : ∀ p < S.w.len, ∀ q < S.w.len, (S.w.proc p).arrival = (S.w.proc q).arrival)
    (feasible : Feasible S.w σ) {point : LoopPoint} {e : (S.withPolicy policySjf).Eng}
    (reached : Reached (S.withPolicy policySjf) state point e) :
    ∃ sp, Course (SjfInv S.w) point (⟨e, sp⟩ : (S.withPolicy policySjf).Config) ∧
      Beats σ (⟨e, sp⟩ : (S.withPolicy policySjf).Config) ∧
      InBurstOrder (⟨e, sp⟩ : (S.withPolicy policySjf).Config) := by
  have valid : S.w.Valid := launched.valid
  have kept : KeptByMoves (S.withPolicy policySjf) (SjfInv S.w) fun a => Beats σ a ∧
    InBurstOrder a := by
    rintro budget a b move sound - - ⟨beats, order⟩
    exact ⟨beats.move plain valid launched.contract feasible move sound,
      move.inBurstOrder plain valid sound beats.direct order⟩
  induction reached with
  | @first e run =>
      obtain ⟨e', sp, run', events, course, keeps⟩ := launched.first (I := Beats σ)
      cases run.symm.trans run'
      have beats : Beats σ (⟨e, sp⟩ : (S.withPolicy policySjf).Config) :=
        keeps (fun move sound _ _ beats => beats.move plain valid launched.contract
          feasible move sound)
          (Beats.init (S := S.withPolicy policySjf) σ state)
      have sound := Sound.init launched.valid launched.start
      have unserved : Unserved ((S.withPolicy policySjf).initConfig state) :=
        ⟨fun _ => .inl rfl, fun p hp => plain.burst_eq valid hp⟩
      have unserved := Events.unserved events launched.valid launched.options.cs_nonneg
        launched.contract
        sound (fun p s held => by cases held) unserved
      obtain ⟨budget, sound⟩ := course.sound
      have now_eq : e.now = (S.withPolicy policySjf).firstArrival := events.moves.now_eq
      exact ⟨sp, course, beats, unserved.inBurstOrder launched.valid sound course.settled
        now_eq together⟩
  | dispatch before running run ih =>
      obtain ⟨sp, course, here⟩ := ih
      obtain ⟨e', sp', run', -, course', keeps⟩ := launched.dispatch
        (I := fun a => Beats σ a ∧ InBurstOrder a) course running
      cases run.symm.trans run'
      exact ⟨sp', course', keeps kept here⟩
  | @instant e e₁ before event run ih =>
      obtain ⟨sp, course, beats, order⟩ := ih
      obtain ⟨gt, -, e', sp', run', -, course', keeps⟩ := launched.advance
        (I := fun a => Beats σ a ∧ InBurstOrder a) course
      cases run.symm.trans run'
      obtain ⟨budget, sound⟩ := course.sound
      refine ⟨sp', course', keeps kept ⟨?_, order.arrived, order.whole, order.least⟩⟩
      -- the running process has the least work left
      refine beats.toNextEvent sound (course.dispatched rfl).1 beats.direct valid feasible one rfl
        (fun p q on ready => ?_) gt
      obtain ⟨s, seat⟩ := sound.cores.owner 0 one.ge p on
      have seat : sp p = .core 0 s := seat
      have hp : p < S.w.len := sound.inside (by simp [seat])
      have progress := sound.data.progress p hp (by simp [seat])
      have phase := plain.phase_eq sound hp (by simp [seat])
      have burst := plain.burst_eq valid hp
      have started := ((sound.cores.seat p 0 s seat).2.2.running (beats.direct.runs p 0 s seat)).1
      have shorter := order.least p s (places_of_core seat) q ready
      have whole := order.whole q ready
      have le := progress.remaining_le
      have len := progress.burstLen_eq
      rw [phase] at len
      simp only at whole le len started burst
      rw [whole]
      refine le_trans ?_ shorter
      change _ ≤ (S.w.proc p).burst
      change (S.w.proc p).phase 0 = _ at burst
      change _ = (S.w.proc p).phase 0 at len
      omega

/-- On one core, without I/O and without a switch cost, the schedule of SJF with exact
bursts for processes that arrive together has the least sum of turnaround times of all
schedules of one CPU. -/
theorem simRun_sjf_optimal (S : Sim D) (oneBurst : ∀ p < S.w.len, (S.w.proc p).phaseCount = 1)
    (together : ∀ p < S.w.len, ∀ q < S.w.len, (S.w.proc p).arrival = (S.w.proc q).arrival)
    (one : S.opt.cores = 1) (free : S.opt.csCost = 0) (oracle : S.opt.predict = .oracle)
    {r : SimResult} (success : (S.withPolicy policySjf).simRun = .ok r) :
    Feasible S.w (runningAt (r.timelines 0)) ∧
      (∀ p < S.w.len, completionOf (runningAt (r.timelines 0)) p = (r.outcomes p).completion) ∧
      ∀ σ, Feasible S.w σ →
        ∑ p ∈ Finset.range S.w.len, ((r.outcomes p).completion - (S.w.proc p).arrival) ≤
          ∑ p ∈ Finset.range S.w.len, (completionOf σ p - (S.w.proc p).arrival) := by
  obtain ⟨state, started⟩ := started_of_ok success
  have launched := sjf_launched oracle started
  obtain ⟨e, sp, final, -⟩ := launched.keeps started success RunInv.true
  obtain ⟨schedule, completions⟩ := final.feasible one oneBurst
  refine ⟨schedule, completions, fun σ feasible => ?_⟩
  obtain ⟨e, closed⟩ := launched.closed started success
  obtain ⟨sp, course, beats, -⟩ := closed.reached.sjfBeats launched ⟨oneBurst, free⟩ one
    together feasible
  obtain ⟨budget, sound⟩ := course.sound
  rw [closed.outcomes]
  exact beats.turnaround_le sound closed.completed

/-- SJF runs the shorter of two processes first, and nothing is faster. -/
theorem pairSim_sjf_optimal : ∃ r, (pairSim.withPolicy policySjf).simRun = .ok r ∧
    ∑ p ∈ Finset.range 2, ((r.outcomes p).completion - (twoThenOne.proc p).arrival) ≤
      ∑ p ∈ Finset.range 2, (completionOf pairInOrder p - (twoThenOne.proc p).arrival) := by
  have started : Started (pairSim.withPolicy policySjf) (heapInit 2) :=
    ⟨pairSim_started.validated, rfl, rfl⟩
  obtain ⟨r, success⟩ := pairSim_succeeds_of started (by decide +kernel)
  have either : ∀ p < 2, p = 0 ∨ p = 1 := by decide
  obtain ⟨-, -, least⟩ := simRun_sjf_optimal pairSim
    (fun p hp => by rcases either p hp with rfl | rfl <;> rfl)
    (fun p hp q hq => by
      rcases either p hp with rfl | rfl
      all_goals rcases either q hq with rfl | rfl
      all_goals rfl) rfl rfl rfl success
  exact ⟨r, success, least pairInOrder pairInOrder_feasible⟩

end Sim

end CpuSched
