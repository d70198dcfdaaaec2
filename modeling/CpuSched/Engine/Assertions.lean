import CpuSched.Engine.Termination

/-!
# Assertions

In a run of a built-in policy every hook, push and pop succeeds, every slice that
is dispatched has work, a length and a deadline ahead, and no process is handed
back to a policy that cannot take it.  What can fail is the assertion on
`next_event`: `INT64_MAX` stands for no event, and it is also the last time that
a workload may reach.
-/

namespace CpuSched

namespace Sim

variable {D : Type} [Double D] {S : Sim D}
variable {PInv : SchedView D → S.policy.State → Places → Prop} {state : S.policy.State}

/-- The last unfinished process runs its last CPU burst, and completes at
`INT64_MAX`. -/
def EndsAtSentinel (S : Sim D) (e : S.Eng) : Prop :=
  e.completed + 1 = S.w.len ∧ ∃ c < S.opt.cores, ∃ p, (e.cores c).proc = some p ∧
    (e.cores c).inCs = false ∧ (e.cores c).busyUntil = int64Max ∧
    e.phase p + 1 = (S.w.proc p).phaseCount

omit [Double D] in
/-- If all but one have completed, there is one unfinished process. -/
theorem Sound.eq_of_unfinished {budget : Int} {a : S.Config} (sound : S.Sound PInv budget a)
    (one : a.eng.completed + 1 = S.w.len) {p q : Nat} (hp : p < S.w.len) (hq : q < S.w.len)
    (unfinished : a.spots p ≠ .done) (unfinished' : a.spots q ≠ .done) : p = q := by
  by_contra ne
  have two : ({p, q} : Finset Nat) ⊆ Finset.range S.w.len \ doneSet S.w.len a.spots := by
    intro x hx
    rcases Finset.mem_insert.mp hx with rfl | hx
    · simp [doneSet, hp, unfinished]
    · obtain rfl := Finset.mem_singleton.mp hx
      simp [doneSet, hq, unfinished']
  have card := Finset.card_le_card two
  have sub : doneSet S.w.len a.spots ⊆ Finset.range S.w.len := Finset.filter_subset _ _
  rw [Finset.card_pair ne, Finset.card_sdiff_of_subset sub, Finset.card_range,
    ← sound.completed_eq] at card
  omega

omit [Double D] in
/-- If `p` asks for all the work that is left, all others have completed. -/
theorem Settled.completed_eq {budget : Int} {a : S.Config} (valid : S.w.Valid)
    (sound : S.Sound PInv budget a) (settled : Settled a) {p : Nat} (hp : p < S.w.len)
    (unfinished : a.spots p ≠ .done) (all : S.work a ≤ S.spotWork a.eng p (a.spots p)) :
    a.eng.completed + 1 = S.w.len := by
  have done_iff : doneSet S.w.len a.spots = (Finset.range S.w.len).erase p := by
    ext q
    simp only [doneSet, Finset.mem_filter, Finset.mem_range, Finset.mem_erase]
    constructor
    · rintro ⟨hq, done⟩
      refine ⟨?_, hq⟩
      rintro rfl
      exact unfinished done
    · rintro ⟨ne, hq⟩
      refine ⟨hq, ?_⟩
      by_contra live
      -- the work of `p` and of `q` would be more than there is
      have left := settled.spotWork_pos valid sound hq live
      have part : S.spotWork a.eng q (a.spots q) ≤
          ∑ q ∈ (Finset.range S.w.len).erase p, S.spotWork a.eng q (a.spots q) :=
        Finset.single_le_sum
          (fun q hq => sound.spotWork_nonneg valid
            (Finset.mem_range.mp (Finset.mem_of_mem_erase hq)))
          (Finset.mem_erase.mpr ⟨ne, Finset.mem_range.mpr hq⟩)
      have split := Finset.add_sum_erase (Finset.range S.w.len)
        (fun q => S.spotWork a.eng q (a.spots q)) (Finset.mem_range.mpr hp)
      simp only [work] at all
      omega
  rw [sound.completed_eq, done_iff, Finset.card_erase_of_mem (Finset.mem_range.mpr hp),
    Finset.card_range]
  omega

omit [Double D] in
/-- Without an event before `INT64_MAX`, one process runs until then. -/
theorem Dispatched.core_of_blind (valid : S.w.Valid) {a : S.Config} (options : OptionsOk S)
    {budget : Int} (sound : S.Sound PInv budget a) (dispatched : Dispatched a)
    (running : a.eng.completed < S.w.len) {rounds : Nat} (bound : Bound rounds a)
    (hlimit : S.limit rounds ≤ int64Max) (blind : S.nextEvent a.eng = int64Max) :
    ∃ p c s, a.spots p = .core c s ∧ (a.eng.cores c).inCs = false ∧
      (a.eng.cores c).busyUntil = int64Max := by
  obtain ⟨event, -⟩ := dispatched.nextEvent_spec valid options sound running bound hlimit
  have left := dispatched.toSettled.work_pos valid sound running
  have onCore : ∀ p c s, a.spots p = .core c s → ∃ p c s, a.spots p = .core c s ∧
      (a.eng.cores c).inCs = false ∧ (a.eng.cores c).busyUntil = int64Max := by
    intro p c s seat
    have first := sound.nextEvent_le valid (.slice p c s seat rfl)
    have ok := (sound.cores.seat p c s seat).2.2
    have deadline_le := ok.deadline_le
    cases h : (a.eng.cores c).inCs with
    | true =>
        have := bound.switching c p s seat h
        omega
    | false =>
        obtain ⟨-, -, -, -, hbusy⟩ := ok.running h
        exact ⟨p, c, s, seat, h, by omega⟩
  rw [blind] at event
  cases event with
  | arrival p inside new at_ =>
      have := Workload.arrival_le_maxArrival (Workload.proc_mem inside)
      have := workloadHorizon_eq S.w
      have := valid.horizon_le
      have := bound.work_le
      omega
  | wake p blocked at_ =>
      have := sound.wake_lt valid blocked
      omega
  | slice p c s seat => exact onCore p c s seat
  | deadline p c s seat => exact onCore p c s seat

omit [Double D] in
/-- `next_event` finds nothing before `INT64_MAX` exactly when the run is to end
there. -/
theorem Dispatched.blind_iff (valid : S.w.Valid) {a : S.Config} (options : OptionsOk S)
    {budget : Int} (sound : S.Sound PInv budget a) (dispatched : Dispatched a)
    (running : a.eng.completed < S.w.len) {rounds : Nat} (bound : Bound rounds a)
    (hlimit : S.limit rounds ≤ int64Max) :
    S.nextEvent a.eng = int64Max ↔ EndsAtSentinel S a.eng := by
  constructor
  · intro blind
    obtain ⟨p, c, s, seat, runs, busy⟩ :=
      dispatched.core_of_blind valid options sound running bound hlimit blind
    obtain ⟨hc, hs, ok⟩ := sound.cores.seat p c s seat
    obtain ⟨-, -, -, hend, hbusy⟩ := ok.running runs
    have hp := sound.inside (p := p) (by simp [seat])
    have fits := sound.fits valid hp
    have budget_eq := sound.budget_eq
    have budget_le := sound.budget_le
    have tail := (valid.proc hp).tail_nonneg (a.eng.phase p)
    have progress := sound.progress (p := p) (by simp [seat]) (by simp [seat])
    simp only [seat, spotWork, runs, Bool.false_eq_true, if_false] at fits
    have all : S.work a ≤ S.spotWork a.eng p (a.spots p) := by
      simp only [seat, spotWork, runs, Bool.false_eq_true, if_false]
      omega
    refine ⟨dispatched.toSettled.completed_eq valid sound hp (by simp [seat]) all, c, hc, p,
      ok.proc_eq.trans (congrArg some hs), runs, busy, ?_⟩
    -- no phase follows: nothing is left after this burst
    by_contra more
    have odd := (valid.proc hp).phases_odd
    have even := progress.even
    have inside := progress.phase_lt
    have hlt : a.eng.phase p + 2 < (S.w.proc p).phaseCount := by omega
    have tail_eq := Process.tail_eq hlt
    have io := (valid.proc hp).phase_pos (k := a.eng.phase p + 1) (by omega)
    have cpu := (valid.proc hp).phase_pos hlt
    have rest := (valid.proc hp).tail_nonneg (a.eng.phase p + 2)
    omega
  · rintro ⟨one, c, hc, p, on, runs, busy, -⟩
    obtain ⟨s, seat⟩ := sound.cores.owner c hc p on
    have ok := (sound.cores.seat p c s seat).2.2
    obtain ⟨-, -, -, -, hbusy⟩ := ok.running runs
    have deadline_le := ok.deadline_le
    have hp := sound.inside (p := p) (by simp [seat])
    obtain ⟨event, -⟩ := dispatched.nextEvent_spec valid options sound running bound hlimit
    -- every event is one of the only process that is left
    have only : ∀ q, q < S.w.len → a.spots q ≠ .done → q = p := fun q hq live =>
      sound.eq_of_unfinished one hq hp live (by simp [seat])
    cases event with
    | arrival q inside new =>
        obtain rfl := only q inside (by simp [new])
        cases new.symm.trans seat
    | wake q blocked =>
        obtain rfl := only q (sound.inside (by simp [blocked])) (by simp [blocked])
        cases blocked.symm.trans seat
    | slice q c' s' seat' at_ =>
        obtain rfl := only q (sound.inside (by simp [seat'])) (by simp [seat'])
        obtain ⟨rfl, -⟩ := Spot.core.inj (seat'.symm.trans seat)
        omega
    | deadline q c' s' seat' later at_ =>
        obtain rfl := only q (sound.inside (by simp [seat'])) (by simp [seat'])
        obtain ⟨rfl, -⟩ := Spot.core.inj (seat'.symm.trans seat)
        omega

theorem Launched.nextEvent_eq_iff (launched : Launched S PInv state) {e : S.Eng}
    (reached : Reached S state .dispatched e) :
    S.nextEvent e = int64Max ↔ EndsAtSentinel S e := by
  obtain ⟨sp, course, -⟩ := reached.course launched RunInv.true
  obtain ⟨budget, sound⟩ := course.sound
  obtain ⟨rounds, bound, hlimit⟩ := course.bound
  obtain ⟨dispatched, unfinished⟩ := course.dispatched rfl
  exact dispatched.blind_iff launched.valid launched.options sound unfinished bound (hlimit rfl)

/-- A started run is aborted exactly when its main loop is. -/
theorem Launched.simRun_aborted_iff (launched : Launched S PInv state) (started : Started S state) :
    S.simRun = .aborted ↔ S.build = .debug ∧ Blind S state := by
  obtain ⟨e, sp, run, -, -, -⟩ := launched.first (I := fun _ => True)
  rw [← launched.aborted_iff run, started.simRun_eq, run]
  simp only
  constructor
  · intro h
    cases loop : S.mainLoop loopFuel e with
    | aborted => rfl
    | diverged =>
        rw [loop] at h
        cases h
    | done e' =>
        rw [loop] at h
        simp only [finish] at h
        split at h <;> cases h
  · intro h
    rw [h]
    rfl

/-- A workload that ends before `INT64_MAX`, or a switch cost that leaves room
for one more switch, rules the failure out. -/
theorem Launched.not_blind (launched : Launched S PInv state)
    (room : workloadHorizon S.w < int64Max ∨ 0 < S.opt.csCost) : ¬ Blind S state := by
  rintro ⟨e, reached, blind⟩
  cases reached with
  | dispatch before running run =>
      obtain ⟨sp₀, course₀, -⟩ := before.course launched RunInv.true
      obtain ⟨-, okay⟩ := running_iff.mp running
      obtain ⟨budget, sound₀⟩ := course₀.sound
      obtain ⟨rounds₀, bound₀, -⟩ := course₀.bound
      have left := sound₀.work_nonneg launched.valid
      have clock := bound₀.clock
      have rounds_le := bound₀.rounds_le
      obtain ⟨-, fits⟩ := bound₀.fits launched.options course₀.paid okay launched.valid left
      -- the dispatch changes neither the clock nor the work
      obtain ⟨e₁, sp, run₁, moves, course, -⟩ :=
        launched.dispatch (I := fun _ => True) course₀ running
      obtain rfl : e₁ = e := Option.some.inj (run₁.symm.trans run)
      have sound := moves.sound launched.valid launched.options.cs_nonneg launched.contract sound₀
      have budget_eq := sound.budget_eq.trans sound₀.budget_eq.symm
      obtain ⟨rounds, bound, hlimit⟩ := course.bound
      obtain ⟨dispatched, unfinished⟩ := course.dispatched rfl
      obtain ⟨p, c, s, seat, runs, busy⟩ := dispatched.core_of_blind launched.valid
        launched.options sound unfinished bound (hlimit rfl) blind
      obtain ⟨-, -, ok⟩ := sound.cores.seat p c s seat
      obtain ⟨-, -, -, hend, hbusy⟩ := ok.running runs
      have hp := sound.inside (p := p) fun new => by cases new.symm.trans seat
      have part := sound.spotWork_le launched.valid hp
      have tail := (launched.valid.proc hp).tail_nonneg (e₁.phase p)
      dsimp only at seat runs busy hend hbusy part budget_eq clock
      simp only [seat, spotWork, runs, Bool.false_eq_true, if_false] at part
      rcases room with room | room
      · have none : S.opt.csCost = 0 ∨ 0 < S.opt.csCost := by
          have := launched.options.cs_nonneg
          omega
        rcases none with none | pos
        · simp only [limit, none, mul_zero] at clock
          omega
        · omega
      · omega

theorem soloSim_order (build : Build) (burst : Int) :
    (soloSim build burst).order = [⟨0, 1, 0⟩] := by
  simp [order, soloSim, Workload.len, Workload.proc, processMake]

/-- A debug build stops in the run of one process that completes at
`INT64_MAX`. -/
theorem soloSim_aborted : Started (soloSim .debug int64Max) (queueInit 1) ∧
    BuiltIn (soloSim .debug int64Max) ∧ (soloSim .debug int64Max).simRun = .aborted := by
  have started := soloSim_started .debug (show 0 < int64Max by decide) le_rfl
  have builtIn := soloSim_builtIn .debug int64Max
  obtain ⟨PInv, launched⟩ := started.launched builtIn
  refine ⟨started, builtIn, (launched.simRun_aborted_iff started).mpr ⟨rfl, ?_⟩⟩
  have init : (soloSim .debug int64Max).initEngine (queueInit 1) =
      { (soloSim .debug int64Max).initEngine (queueInit 1) with
        pending := [⟨0, 1, 0⟩]
        now := 0
        cores := fun _ =>
          { proc := none, inCs := false, recheck := false, busyUntil := 0, runStart := 0,
            runEnd := 0, length := 0, deadline := 0, context := none, freeSince := 0 } } := by
    simp [initEngine, firstArrival, soloSim_order]
  obtain ⟨e, first, running, e', run, blind⟩ : ∃ e,
      (soloSim .debug int64Max).processInstant
        ((soloSim .debug int64Max).initEngine (queueInit 1)) = some e ∧
      (soloSim .debug int64Max).running e = true ∧ ∃ e',
      (soloSim .debug int64Max).dispatch e = some e' ∧
      (soloSim .debug int64Max).nextEvent e' = int64Max := by
    rw [init]
    exact ⟨_, rfl, rfl, _, rfl, rfl⟩
  exact ⟨e', .dispatch (.first first) running run, blind⟩

end Sim

end CpuSched
