import CpuSched.Engine.AlikeRuns
import CpuSched.Policies.FifoContract
import CpuSched.Policies.IdlePeriods

/-!
# Round robin with a quantum that no burst exceeds

Round robin asks for the quantum where FCFS asks for the whole burst.  Where no CPU phase
is longer than the quantum, the end of the burst cuts both slices at the same tick,
nothing is handed back, and the two runs agree.
-/

namespace CpuSched

variable {D : Type}

/-- No CPU phase of the workload is longer than `quantum`. -/
def LongestBurst (w : Workload) (quantum : Int) : Prop :=
  ∀ p < w.len, ∀ k < (w.proc p).phaseCount, k % 2 = 0 → (w.proc p).phase k ≤ quantum

theorem LongestBurst.quantum_pos {w : Workload} {quantum : Int} (bursts : LongestBurst w quantum)
    (valid : w.Valid) : 0 < quantum := by
  have some_phase := (valid.proc valid.nonempty).phaseCount_pos
  have first := (valid.proc valid.nonempty).phase_pos some_phase
  have within := bursts 0 valid.nonempty 0 some_phase rfl
  omega

/-! ## Answers -/

/-- Round robin queues the processes that FCFS queues. -/
def SameQueue (quantum : Int) (ready : Queue) (s : Rr) : Prop := s = ⟨ready, quantum⟩

/-- What remains of a burst fits in the quantum. -/
def ShortRemaining (quantum : Int) (v : SchedView D) : Prop := ∀ p, v.remaining p ≤ quantum

/-- With a quantum that no burst exceeds, round robin answers as FCFS does. -/
theorem rr_follows_fcfs {quantum : Int} (pos : 0 < quantum) :
    Policy.Follows (D := D) policyRr policyFcfs (ShortRemaining quantum) (SameQueue quantum) where
  preemptOnReady_eq := rfl
  onArrival {v ready s ready' p} same pushed := by
    cases same
    exact ⟨⟨ready', quantum⟩, Option.map_eq_some_iff.mpr ⟨ready', pushed, rfl⟩, rfl⟩
  wakeHook {v ready s ready' p} same pushed := by
    cases same
    exact ⟨⟨ready', quantum⟩, Option.map_eq_some_iff.mpr ⟨ready', pushed, rfl⟩, rfl⟩
  refuse {v ready s ready'} _ same refused := by
    cases same
    have refused : fcfsNextSlice v ready = some (ready', none) := refused
    unfold fcfsNextSlice at refused
    split_ifs at refused with empty
    · cases refused
      exact ⟨⟨ready, quantum⟩, by simp [policyRr, rrNextSlice, empty], rfl⟩
    · obtain ⟨popped, -, eq⟩ := Option.map_eq_some_iff.mp refused
      cases eq
  pick {v ready s ready' slice} short same picked := by
    cases same
    have picked : fcfsNextSlice v ready = some (ready', some slice) := picked
    unfold fcfsNextSlice at picked
    split_ifs at picked with empty
    · cases picked
    · obtain ⟨⟨p, rest⟩, popped, eq⟩ := Option.map_eq_some_iff.mp picked
      cases eq
      refine ⟨⟨ready', quantum⟩, ⟨p, quantum, schedNoDeadline⟩,
        by simp [policyRr, rrNextSlice, empty, popped], rfl, rfl, rfl, fun _ => pos, ?_⟩
      -- the burst ends before the quantum does
      have within : v.remaining p ≤ quantum := short p
      simp only [min_self, min_eq_right within]
  onPreempt none := by cases none
  onBlock {v ready s ready' p ran} same kept := by
    cases kept
    exact ⟨s, rfl, same⟩
  onComplete {v ready s ready' p ran} same kept := by
    cases kept
    exact ⟨s, rfl, same⟩

namespace Sim

variable [Double D]

/-! ## What remains of a burst -/

/-- No process has more than `quantum` ticks of its burst left. -/
def BurstsWithin {S : Sim D} (quantum : Int) (a : S.Config) : Prop :=
    ∀ p, a.eng.remaining p ≤ quantum

/-- What remains of a burst never exceeds the longest CPU phase. -/
theorem burstsWithin_runInv {S : Sim D} {PInv : SchedView D → S.policy.State → Places → Prop}
    {quantum : Int} (valid : S.w.Valid) (hcs : 0 ≤ S.opt.csCost)
    (bursts : LongestBurst S.w quantum) :
    RunInv S PInv (BurstsWithin quantum) where
  init state _ p := by
    change (S.w.proc p).phase 0 ≤ quantum
    by_cases inside : p < S.w.len
    · exact bursts p inside 0 (valid.proc inside).phaseCount_pos rfl
    · have outside : S.w.proc p = default := List.getD_eq_default _ _ (not_lt.mp inside)
      rw [outside]
      exact (bursts.quantum_pos valid).le
  move {budget a b} move sound _ _ within := by
    -- the ticks that a slice ran leave what remains
    have charged : ∀ (e : S.Eng) c p, (∀ q, e.remaining q ≤ quantum) →
      (e.cores c).runStart < e.now →
        ∀ q, (S.chargeRun e c p).remaining q ≤ quantum := by
      intro e c p within ran q
      rw [chargeRun_remaining]
      by_cases same : q = p
      · subst same
        have here := within q
        simp only [Function.update_self]
        omega
      · rw [Function.update_of_ne same]
        exact within q
    cases move with
    | arrive => exact within
    | wake => exact within
    | @preempt e sp c p s f state seat runs ran => exact charged e c p within ran
    | @block e sp c p s heap state seat runs ran used more =>
        obtain ⟨hlt, eq⟩ := sound.startIo_eq valid seat runs used more
        have even := (sound.progress (p := p) (by simp [seat]) (by simp [seat])).even
        have inside := sound.inside (p := p) (by simp [seat])
        intro q
        rw [eq]
        by_cases same : q = p
        · subst same
          simp only [Function.update_self]
          exact bursts q inside _ hlt (by dsimp only at even; omega)
        · simp only [Function.update_of_ne same]
          exact within q
    | @complete e sp c p s state seat runs ran => exact charged e c p within ran
    | mark => exact within
    | @start e sp c p s deadline seat switching =>
        rw [sound.startRun_eq valid seat switching]
        exact within
    | pick => exact within
    | refuse => exact within
    | @place e sp c s held core_lt free fits =>
        rw [sound.placed_eq valid hcs held fits]
        exact within
  advance _ _ _ _ _ within := within

/-! ## Whole runs -/

/-- FCFS starts with its contract. -/
theorem fcfs_launched {S : Sim D} {state : Queue}
    (started : Started (S.withPolicy policyFcfs) state) :
    Launched (S.withPolicy policyFcfs) (FcfsInv S.w) state := by
  have valid : S.w.Valid := workloadValidate_ok started.validated
  have options := checkOptions_ok (S := S.withPolicy policyFcfs) valid started.options
  refine ⟨valid, options, fcfs_contract S.w, ?_⟩
  cases started.created
  exact QueueReady.init S.w.len

/-- The runs of FCFS and of round robin end alike. -/
theorem finish_rr_eq_fcfs {S : Sim D} {state : Queue} {e : (S.withPolicy policyFcfs).Eng}
    {e' : (S.withPolicy policyRr).Eng} {quantum : Int}
    (launched : Launched (S.withPolicy policyFcfs) (FcfsInv S.w) state)
    (bursts : LongestBurst S.w quantum)
    (reached : Reached (S.withPolicy policyFcfs) state .settled e)
    (alike : Alike S.opt.cores (SameQueue quantum) Eq e e') (r : SimResult) :
    (S.withPolicy policyRr).finish ((S.withPolicy policyRr).mainLoop loopFuel e') = .ok r ↔
      (S.withPolicy policyFcfs).finish ((S.withPolicy policyFcfs).mainLoop loopFuel e) = .ok r := by
  have valid : S.w.Valid := launched.valid
  have pos := bursts.quantum_pos valid
  have follows : Policy.Follows (D := D) policyRr policyFcfs (ShortRemaining quantum)
    (SameQueue quantum) :=
    rr_follows_fcfs pos
  have views : ∀ {e}, Reached (S.withPolicy policyFcfs) state .settled e →
      ShortRemaining quantum ((S.withPolicy policyFcfs).view e) := by
    intro e reached
    obtain ⟨sp, -, within⟩ := reached.course launched
      (burstsWithin_runInv launched.valid launched.options.cs_nonneg bursts)
    exact within
  rcases launched.mainLoop loopFuel reached (reached.fuel_enough launched) with
    ⟨f, done, -, -⟩ | ⟨aborted, -⟩
  · obtain ⟨f', done', alike' | ⟨failed, g, k, -, running, alike', -⟩⟩ :=
      Alike.mainLoop launched follows (tapesKept_eq S.opt.maxSegments) views reached alike done
        fun _ {t t'} same failed => same ▸ failed
    · have done' : (S.withPolicy policyRr).mainLoop loopFuel e' = .done f' := done'
      rw [done, done']
      exact Alike.finish_iff (S := S.withPolicy policyFcfs) (Q := policyRr)
        (tapesKept_eq S.opt.maxSegments) alike' r
    · exact absurd ((congrArg Tape.fail alike'.tapes).symm.trans (running_iff.mp running).2) failed
  · have aborted' : (S.withPolicy policyRr).mainLoop loopFuel e' = .aborted :=
      Alike.mainLoop_aborted launched follows (tapesKept_eq S.opt.maxSegments) views
        reached alike aborted
        fun same ok => same ▸ ok
    rw [aborted, aborted']
    exact Iff.rfl

/-- The workload and the options of a run decide whether round robin and FCFS start. -/
theorem checkOptions_rr_eq_fcfs {S : Sim D} (pos : 0 < S.params.quantum) :
    (S.withPolicy policyRr).checkOptions = (S.withPolicy policyFcfs).checkOptions := by
  have rr : ¬((policyRr : Policy D).usesQuantum = true ∧ S.params.quantum ≤ 0) :=
    fun bad => pos.not_ge bad.2
  have fcfs : ¬((policyFcfs : Policy D).usesQuantum = true ∧ S.params.quantum ≤ 0) :=
    fun bad => by cases bad.1
  unfold checkOptions
  dsimp only
  rw [if_neg rr, if_neg fcfs]

/-- With a quantum that no CPU phase exceeds, round robin and FCFS hand out the same
timelines, start and completion times, switches and switching time, on any number of
cores, at any switch cost and with any I/O. -/
theorem simRun_rr_eq_fcfs (S : Sim D) (bursts : LongestBurst S.w S.params.quantum) (r : SimResult) :
    (S.withPolicy policyRr).simRun = .ok r ↔ (S.withPolicy policyFcfs).simRun = .ok r := by
  cases validated : workloadValidate S.w with
  | error err =>
      have rejected : ∀ Q : Policy D, (S.withPolicy Q).simRun = .error err := by
        intro Q
        simp only [simRun, validated]
      rw [rejected, rejected]
  | ok =>
      have pos := bursts.quantum_pos (workloadValidate_ok validated)
      have same := checkOptions_rr_eq_fcfs pos
      cases options : (S.withPolicy policyFcfs).checkOptions with
      | error err =>
          rw [options] at same
          have rejected : (S.withPolicy policyRr).simRun = .error err := by
            simp only [simRun, validated, same]
          have rejected' : (S.withPolicy policyFcfs).simRun = .error err := by
            simp only [simRun, validated, options]
          rw [rejected, rejected']
      | ok =>
          rw [options] at same
          have started : Started (S.withPolicy policyFcfs) (queueInit S.w.len) :=
            ⟨validated, options, rfl⟩
          have started' : Started (S.withPolicy policyRr) ⟨queueInit S.w.len, S.params.quantum⟩ :=
            ⟨validated, same, rfl⟩
          have starts : SameQueue S.params.quantum (queueInit S.w.len)
              ⟨queueInit S.w.len, S.params.quantum⟩ := rfl
          have launched := fcfs_launched started
          obtain ⟨e, sp, run, -, -⟩ := launched.first (I := fun _ => True)
          obtain ⟨e', run', alike⟩ := Alike.first (S := S.withPolicy policyFcfs) (Q := policyRr)
            (rr_follows_fcfs pos) (tapesKept_eq S.opt.maxSegments) starts rfl run
          have run' : (S.withPolicy policyRr).processInstant
              ((S.withPolicy policyRr).initEngine
                ⟨queueInit S.w.len, S.params.quantum⟩) = some e' := run'
          rw [started.simRun_eq, started'.simRun_eq, run, run']
          exact finish_rr_eq_fcfs launched bursts (.first run) alike r

/-- A quantum of two ticks covers both bursts of the pair, so round robin follows FCFS. -/
theorem pairSim_rr_eq_fcfs : ∃ r, (pairSim.withPolicy policyFcfs).simRun = .ok r ∧
    (pairSim.withPolicy policyRr).simRun = .ok r := by
  have started : Started (pairSim.withPolicy policyFcfs) (queueInit 2) :=
    ⟨pairSim_started.validated, rfl, rfl⟩
  obtain ⟨r, success⟩ := pairSim_succeeds_of started (by decide +kernel)
  refine ⟨r, success, (simRun_rr_eq_fcfs pairSim (fun p hp => ?_) r).mpr success⟩
  have hp : p < 2 := hp
  obtain rfl | rfl : p = 0 ∨ p = 1 := by omega
  · decide
  · decide

end Sim

end CpuSched
