import CpuSched.Engine.Placement
import CpuSched.Metrics.Core
import CpuSched.Policy.Watch
import Mathlib.Algebra.Order.Field.Rat
import Mathlib.Tactic.NormNum

/-!
# The predictions of burst lengths

The engine keeps one prediction for each process and updates it whenever a CPU burst
ends, in the middle of the run.  `metrics_prediction_error` computes the predictions from
the workload alone.  In every run the two agree: the prediction of a process depends only
on its own earlier bursts.
-/

namespace CpuSched

variable {D : Type}

/-! ## The predictions of one process -/

/-- The prediction for the `k`-th CPU burst: the update `f` of the actual length and
the prediction before it, over the first `k` CPU phases. -/
def burstTau [Double D] (f : D → D → D) (tau0 : D) (phases : List Int) : Nat → D
  | 0 => tau0
  | k + 1 => f (Double.ofInt (phases.getD (2 * k) 0)) (burstTau f tau0 phases k)

/-- The first burst updates the prediction for the rest. -/
theorem burstTau_cons [Double D] (f : D → D → D) (tau0 : D) (x y : Int) (rest : List Int)
    (k : Nat) : burstTau f (f (Double.ofInt x) tau0) rest k =
      burstTau f tau0 (x :: y :: rest) (k + 1) := by
  induction k with
  | zero => rfl
  | succ k ih =>
      rw [burstTau, ih]
      conv_rhs => rw [burstTau]
      rfl

/-- The lengths and predictions that `metrics_prediction_error` compares, in its order. -/
def comparedBursts [Double D] (alpha : D) : List Int → D → List (D × D)
  | [], _ => []
  | [ph], tau => [(Double.ofInt ph, tau)]
  | ph :: _ :: rest, tau =>
      (Double.ofInt ph, tau) ::
        comparedBursts alpha rest (ewmaUpdate alpha (Double.ofInt ph) tau)

/-- The inner loop joins just these errors. -/
theorem burstErrors_eq [Double D] (alpha : D) (phases : List Int) (tau : D) (sums : ErrorSums D) :
    burstErrors alpha phases tau sums =
      (comparedBursts alpha phases tau).foldl (fun sums x => sums.join x.1 x.2) sums := by
  induction phases, tau, sums using burstErrors.induct alpha with
  | case1 tau sums => rfl
  | case2 ph tau sums => rfl
  | case3 ph io rest tau sums ih =>
      rw [burstErrors, comparedBursts, List.foldl_cons, ih]

/-- The whole function joins the errors of all processes in input order. -/
theorem metricsPredictionError_eq [Double D] (w : Workload) (alpha tau0 : D) :
    metricsPredictionError w alpha tau0 =
      let sums : ErrorSums D := (w.items.flatMap fun p => comparedBursts alpha p.phases tau0).foldl
        (fun sums x => sums.join x.1 x.2) ⟨Double.ofInt 0, Double.ofInt 0, 0⟩
      ⟨Double.div sums.absSum (Double.ofInt sums.bursts),
        Double.div (Double.mul (Double.ofInt 100) sums.pctSum) (Double.ofInt sums.bursts),
        sums.bursts⟩ := by
  have fold : ∀ (items : List Process) (sums : ErrorSums D),
      items.foldl (fun sums p => burstErrors alpha p.phases tau0 sums) sums =
        (items.flatMap fun p => comparedBursts alpha p.phases tau0).foldl
          (fun sums x => sums.join x.1 x.2) sums := by
    intro items
    induction items with
    | nil => exact fun _ => rfl
    | cons p rest ih =>
        intro sums
        rw [List.foldl_cons, List.flatMap_cons, List.foldl_append, burstErrors_eq, ih]
  rw [metricsPredictionError, fold]

/-- The `k`-th comparison of a process uses the `k`-th prediction. -/
theorem comparedBursts_get [Double D] (alpha : D) {phases : List Int} {tau : D} {k : Nat}
    (hk : 2 * k < phases.length) : (comparedBursts alpha phases tau)[k]? =
      some (Double.ofInt (phases.getD (2 * k) 0),
        burstTau (ewmaUpdate alpha) tau phases k) := by
  induction phases, tau using comparedBursts.induct alpha generalizing k with
  | case1 tau => simp at hk
  | case2 ph tau =>
      obtain rfl : k = 0 := by
        simp only [List.length_singleton] at hk
        omega
      rfl
  | case3 ph io rest tau ih =>
      cases k with
      | zero => rfl
      | succ k =>
          have hk' : 2 * k < rest.length := by
            simp only [List.length_cons] at hk
            omega
          rw [comparedBursts, List.getElem?_cons_succ, ih hk', burstTau_cons]
          rfl

namespace Sim

variable [Double D] {S : Sim D} {PInv : SchedView D → S.policy.State → Places → Prop}
  {state : S.policy.State}

/-! ## What every run keeps -/

/-- The CPU bursts that the process has finished. -/
def burstsDone (e : S.Eng) (p : Nat) : Nat :=
  e.phase p / 2 + if (e.outcomes p).completion = -1 then 0 else 1

/-- Each prediction is the update over the finished bursts of the process. -/
def Predicted (S : Sim D) (e : S.Eng) : Prop :=
  ∃ predicted, e.predicted = some predicted ∧ ∀ p < S.w.len, predicted p =
    burstTau (ewmaUpdate S.opt.alpha) S.opt.tau0 (S.w.proc p).phases (burstsDone e p)

theorem Predicted.congr {e e' : S.Eng} (here : Predicted S e)
    (predicted : e'.predicted = e.predicted) (phase : e'.phase = e.phase)
    (same : ∀ p, (e'.outcomes p).completion = (e.outcomes p).completion) : Predicted S e' := by
  obtain ⟨f, f_eq, all⟩ := here
  refine ⟨f, predicted.trans f_eq, fun p hp => ?_⟩
  rw [all p hp, burstsDone, burstsDone, phase, same]

/-- The end of a burst updates the prediction of its process with the length of this
burst. -/
theorem Predicted.update {budget : Int} {e e' : S.Eng} {sp : Nat → Spot} {c p : Nat} {s : Slice}
    (here : Predicted S e) (finished : Finished (⟨e, sp⟩ : S.Config))
    (sound : S.Sound PInv budget ⟨e, sp⟩)
    (seat : sp p = .core c s) (predicted : e'.predicted = (S.burstOver e c p).predicted)
    (one : burstsDone e' p = burstsDone e p + 1)
    (others : ∀ q, q ≠ p → burstsDone e' q = burstsDone e q) : Predicted S e' := by
  obtain ⟨f, f_eq, all⟩ := here
  have progress := sound.progress (p := p) (by simp [seat]) (by simp [seat])
  have even : e.phase p % 2 = 0 := progress.even
  have length : e.burstLen p = (S.w.proc p).phase (e.phase p) := progress.burstLen_eq
  have running : (e.outcomes p).completion = -1 := by
    by_contra done
    cases seat.symm.trans ((finished p).mp done)
  have count : 2 * burstsDone e p = e.phase p := by
    rw [burstsDone, if_pos running]
    omega
  have updated : e'.predicted = some (Function.update f p
      (ewmaUpdate S.opt.alpha (Double.ofInt (e.burstLen p)) (f p))) := by
    rw [predicted]
    simp only [burstOver, ewma, chargeRun_predicted, chargeRun_burstLen, f_eq, Option.map_some]
    rfl
  refine ⟨_, updated, fun q hq => ?_⟩
  by_cases same : q = p
  · subst same
    rw [Function.update_self, one, burstTau, all q hq, count, length, Process.phase]
  · rw [Function.update_of_ne same, others q same, all q hq]

theorem Predicted.move (valid : S.w.Valid) (hcs : 0 ≤ S.opt.csCost) {budget : Int}
    {a b : S.Config} (move : S.Move a b) (sound : S.Sound PInv budget a)
    (finished : Finished a) (here : Predicted S a.eng) : Predicted S b.eng := by
  cases move with
  | arrive => exact here.congr rfl rfl fun _ => rfl
  | wake => exact here.congr rfl rfl fun _ => rfl
  | preempt => exact here.congr (by simp) (by simp) fun _ => by simp
  | @block e sp c p s heap state seat runs ran used more =>
      obtain ⟨-, eq⟩ := sound.startIo_eq valid seat runs used more
      have phase : (S.startIo (S.burstOver e c p) p).phase =
          Function.update e.phase p (e.phase p + 2) := congrArg Engine.phase eq
      have outcomes : (S.startIo (S.burstOver e c p) p).outcomes = e.outcomes :=
        (congrArg Engine.outcomes eq).trans (by simp [burstOver])
      refine here.update finished sound seat (by rw [eq]) ?_ fun q hq => ?_
      · simp only [burstsDone, phase, outcomes, Function.update_self]
        omega
      · simp only [burstsDone, phase, outcomes, Function.update_of_ne hq]
  | @complete e sp c p s state seat runs ran used last =>
      have running : (e.outcomes p).completion = -1 := by
        by_contra done
        cases seat.symm.trans ((finished p).mp done)
      have now_nonneg : 0 ≤ e.now := sound.now_nonneg
      have ends : e.now ≠ -1 := by omega
      refine here.update finished sound seat rfl ?_ fun q hq => ?_
      · simp [burstsDone, finishProcess, burstOver, running, ends]
      · simp [burstsDone, finishProcess, burstOver, hq]
  | mark => exact here.congr rfl rfl fun _ => rfl
  | @start e sp c p s deadline seat switching =>
      rw [sound.startRun_eq valid seat switching]
      refine here.congr rfl rfl fun q => ?_
      by_cases same : q = p
      · subst same
        simp
      · simp [same]
  | pick => exact here.congr rfl rfl fun _ => rfl
  | refuse => exact here.congr rfl rfl fun _ => rfl
  | @place e sp c s held core_lt free fits =>
      rw [sound.placed_eq valid hcs held fits]
      refine here.congr rfl rfl fun q => ?_
      simp only [placedOutcomes]
      split_ifs
      · rfl
      · by_cases same : q = s.proc
        · subst same
          simp
        · simp [same]

theorem Predicted.init (mode : S.opt.predict = .ewma) (state : S.policy.State) :
    Predicted S (S.initConfig state).eng := by
  refine ⟨fun _ => S.opt.tau0, ?_, fun p hp => ?_⟩
  · simp only [initConfig, initEngine, initPredicted, mode]
  · simp only [burstsDone, initConfig, initEngine, Nat.zero_div, if_true, add_zero]
    rfl

/-- What the moves and the advances of the clock keep about the predictions. -/
def PredictedConfig (a : S.Config) : Prop := Finished a ∧ Predicted S a.eng

theorem PredictedConfig.init (mode : S.opt.predict = .ewma) (state : S.policy.State) :
    PredictedConfig (S.initConfig state) := ⟨Finished.init state, Predicted.init mode state⟩

theorem PredictedConfig.move (launched : Launched S PInv state) {budget : Int} {a b : S.Config}
    (move : S.Move a b) (sound : S.Sound PInv budget a) (here : PredictedConfig a) :
    PredictedConfig b :=
  ⟨here.1.move launched.valid launched.options.cs_nonneg launched.contract move sound,
    here.2.move launched.valid launched.options.cs_nonneg move sound here.1⟩

/-! ## Every view of a run -/

/-- The process is in its `k`-th CPU burst, or blocked before it. -/
structure InBurst (S : Sim D) (e : S.Eng) (p k : Nat) : Prop where
  phase_eq : e.phase p = 2 * k
  phase_lt : 2 * k < (S.w.proc p).phaseCount
  length : e.burstLen p = (S.w.proc p).phase (2 * k)
  left : 0 < e.remaining p ∧ e.remaining p ≤ (S.w.proc p).phase (2 * k)

/-- The view predicts each burst that is not over by the earlier bursts of its process, as
`metrics_prediction_error` does. -/
def Foretold (S : Sim D) (e : S.Eng) (v : SchedView D) : Prop :=
  ∃ predicted, v.predicted = some predicted ∧
    ∀ p < S.w.len, (e.outcomes p).completion = -1 → ∃ k, InBurst S e p k ∧
      predicted p =
        burstTau (ewmaUpdate S.opt.alpha) S.opt.tau0 (S.w.proc p).phases k ∧
      (comparedBursts S.opt.alpha (S.w.proc p).phases S.opt.tau0)[k]? =
        some (Double.ofInt ((S.w.proc p).phase (2 * k)), predicted p)

theorem Foretold.congr {e : S.Eng} {v v' : SchedView D} (here : Foretold S e v)
    (same : v'.predicted = v.predicted) : Foretold S e v' := by
  obtain ⟨predicted, predicted_eq, all⟩ := here
  exact ⟨predicted, same.trans predicted_eq, all⟩

theorem PredictedConfig.foretold {budget : Int} {a : S.Config} (here : PredictedConfig a)
    (sound : S.Sound PInv budget a) : Foretold S a.eng (S.view a.eng) := by
  obtain ⟨finished, predicted, predicted_eq, all⟩ := here
  refine ⟨predicted, predicted_eq, fun p hp running => ?_⟩
  have alive : a.spots p ≠ .done := fun done => (finished p).mpr done running
  have progress := sound.data.progress p hp alive
  have even := progress.even
  have count : 2 * (a.eng.phase p / 2) = a.eng.phase p := by omega
  have tau := all p hp
  rw [burstsDone, if_pos running, add_zero] at tau
  refine ⟨a.eng.phase p / 2, ⟨count.symm, ?_, ?_, ?_⟩, tau, ?_⟩
  · rw [count]
    exact progress.phase_lt
  · rw [count]
    exact progress.burstLen_eq
  · rw [count, ← progress.burstLen_eq]
    exact ⟨progress.remaining_pos, progress.remaining_le⟩
  · rw [comparedBursts_get S.opt.alpha (count.symm ▸ progress.phase_lt), ← tau]
    rfl

/-- The simulation that also keeps what the hooks see. -/
abbrev watched (S : Sim D) : Sim D := S.withPolicy S.policy.watched

/-- Before and after a move the view of the engine foretells the bursts, and so does the view
that the hook of the move gets, for the bursts as they are after the move. -/
structure MoveForetold (a b : S.watched.Config) : Prop where
  before : Foretold S.watched a.eng (S.watched.view a.eng)
  after : Foretold S.watched b.eng (S.watched.view b.eng)
  hook : ∀ x, b.eng.state.seen = x :: a.eng.state.seen → Foretold S.watched b.eng x.view

/-- The hook of a move, if it has one, gets a view with the predictions after the move. -/
theorem Move.sees (valid : S.w.Valid) (hcs : 0 ≤ S.opt.csCost)
    {WInv : SchedView D → S.watched.policy.State → Places → Prop} {budget : Int}
    {a b : S.watched.Config} (move : S.watched.Move a b) (sound : S.watched.Sound WInv budget a) :
    ∃ v : SchedView D, v.predicted = b.eng.predicted ∧ Watched.Sees v a.eng.state b.eng.state := by
  cases move with
  | arrive pending due hook => exact ⟨_, rfl, Policy.watched_onArrival_sees hook⟩
  | wake popped due hook => exact ⟨_, rfl, Policy.watched_wakeHook_sees hook⟩
  | preempt seat runs ran left hook_eq hook =>
      exact ⟨_, rfl, Policy.watched_onPreempt_sees hook_eq hook⟩
  | block seat runs ran used more pushed hook => exact ⟨_, rfl, optCall_watched_sees hook⟩
  | complete seat runs ran used last hook => exact ⟨_, rfl, optCall_watched_sees hook⟩
  | @mark e => exact ⟨S.watched.view e, rfl, .inl rfl⟩
  | @start e sp c p s deadline seat switching =>
      rw [Sound.startRun_eq (S := S.watched) valid sound seat switching]
      exact ⟨S.watched.view e, rfl, .inl rfl⟩
  | pick hook => exact ⟨_, rfl, Policy.watched_nextSlice_sees hook⟩
  | refuse hook => exact ⟨_, rfl, Policy.watched_nextSlice_sees hook⟩
  | @place e sp c s held core_lt free fits =>
      rw [Sound.placed_eq (S := S.watched) valid hcs sound held fits]
      exact ⟨S.watched.view e, rfl, .inl rfl⟩

/-- Under EWMA every view that the hooks get, in every run of a built-in policy, predicts the
`k`-th CPU burst of each process, until this burst is over, by the `k`-fold update of `tau0`
with its own earlier bursts, as `metrics_prediction_error` does for that burst. -/
theorem predictions_schedule_independent (started : Started S state) (builtIn : BuiltIn S)
    (mode : S.opt.predict = .ewma) :
    Foretold S (S.initEngine state) S.initView ∧
    (∀ point e, Reached S state point e → Foretold S e (S.view e) ∧
      ∃ e', Reached S.watched ⟨state, []⟩ point e' ∧ e'.map Watched.state = e) ∧
    EachMove S.watched ⟨state, []⟩ MoveForetold := by
  obtain ⟨PInv, launched⟩ := started.launched builtIn
  have valid := launched.valid
  have options := launched.options
  have watching : Launched S.watched (WatchedInv S.w S.policy PInv) ⟨state, []⟩ :=
    ⟨valid, ⟨options.cores_pos, options.segments_pos, options.cs_nonneg, options.cs_le⟩,
      launched.contract.watched, ⟨launched.start, by simp⟩⟩
  refine ⟨?_, fun point e reached => ⟨?_, ?_⟩, ?_⟩
  · exact (PredictedConfig.init mode state).foretold (Sound.init valid launched.start)
  · obtain ⟨sp, course, here⟩ := reached.course_of (I := PredictedConfig) launched
      (.init mode state) (fun move sound _ _ here => here.move launched move sound)
      fun _ _ _ here => here
    obtain ⟨budget, sound⟩ := course.sound
    exact here.foretold sound
  · obtain ⟨e', rfl, reached'⟩ := Reached.lift S.policy.watched_projects
      (show Reached S (Watched.state (⟨state, []⟩ : Watched D S.policy.State)) point e from reached)
    exact ⟨e', reached', rfl⟩
  · refine watching.eachMove (PredictedConfig.init (S := S.watched) mode _)
      (fun move sound here => here.move watching move sound) (fun here => here)
      fun {budget a b} move sound here => ?_
    have there := here.move watching move sound
    have after := there.foretold (move.sound valid options.cs_nonneg watching.contract sound)
    obtain ⟨v, predicted, sees⟩ := move.sees valid options.cs_nonneg sound
    refine ⟨here.foretold sound, after, fun x seen => after.congr ?_⟩
    rw [sees.view_eq seen]
    exact predicted

/-! ## Two bursts of one process -/

/-- First come first served, one process that blocks once, with `alpha` 1/2. -/
def twoBurstSim : Sim Float where
  build := .debug
  w := ⟨[{ pid := 1, arrival := 0, burst := 5, io := 1, phases := [3, 1, 2] }]⟩
  policy := policyFcfs
  params := {}
  opt := { cores := 1, csCost := 0, predict := .ewma, alpha := 0.5, tau0 := 1, maxSegments := 10 }

theorem twoBurstSim_valid : twoBurstSim.w.Valid where
  nonempty := by decide
  procs p hp := by
    obtain rfl := List.mem_singleton.mp hp
    constructor <;> decide
  pids_nodup := by decide
  horizon_le := by decide

theorem twoBurstSim_started : Started twoBurstSim (queueInit 1) where
  validated := twoBurstSim_valid.validates
  options := by
    have horizon : workloadHorizon twoBurstSim.w = 6 := by decide
    have double : ((Double.le (Double.ofInt 0) (0.5 : Float) &&
        Double.le (0.5 : Float) (Double.ofInt 1)) && Double.lt (Double.ofInt 0) (1 : Float) &&
        Double.isFinite (1 : Float)) = true := by decide
    simp only [Bool.and_eq_true] at double
    obtain ⟨⟨⟨low, high⟩, positive⟩, finite⟩ := double
    simp only [checkOptions, horizon]
    simp [twoBurstSim, policyFcfs, low, high, positive, finite]
  created := rfl

/-- Its second burst is predicted as 1/2 * 3 + 1/2 * 1 ticks. -/
example : burstTau (ewmaUpdate (0.5 : Float)) 1 [3, 1, 2] 1 = 2 := by
  decide +kernel

/-- All its views foretell both bursts. -/
theorem twoBurstSim_foretold :
    (∀ point e, Reached twoBurstSim (queueInit 1) point e →
      Foretold twoBurstSim e (twoBurstSim.view e)) ∧
    EachMove twoBurstSim.watched ⟨queueInit 1, []⟩ MoveForetold := by
  have builtIn : BuiltIn twoBurstSim :=
    ⟨⟨fun _ => true, List.mem_cons_self⟩, PolicyParams.admitted_default⟩
  obtain ⟨-, reached, moves⟩ :=
    predictions_schedule_independent twoBurstSim_started builtIn rfl
  exact ⟨fun point e here => (reached point e here).1, moves⟩

end Sim

end CpuSched
