import CpuSched.Engine.Runs
import CpuSched.Policies.RegistryContract

/-!
# Termination and assertions

A run of a built-in policy ends: the clock moves in every round, every dispatch
leads to a tick of execution, and no time passes the horizon plus the cost of the
switches charged so far.  The one assertion that can fail is the one on
`next_event`, and only if the last process is to complete at `INT64_MAX`, the
value that stands for no event.
-/

namespace CpuSched

namespace Sim

variable {D : Type} [Double D]

/-- A built-in policy with parameters that the command line admits. -/
structure BuiltIn (S : Sim D) : Prop where
  registered : ∃ realloc, S.policy ∈ registry realloc
  admitted : S.params.Admitted

variable {S : Sim D} {PInv : SchedView D → S.policy.State → Places → Prop}
variable {state : S.policy.State}

/-- A built-in policy that starts keeps the contract. -/
theorem Started.launched (started : Started S state) (builtIn : BuiltIn S) :
    ∃ PInv, Launched S PInv state := by
  have valid := workloadValidate_ok started.validated
  obtain ⟨realloc, registered⟩ := builtIn.registered
  obtain ⟨stores, lawful⟩ := registry_lawful valid registered builtIn.admitted
    (v := S.initView) rfl rfl
  obtain ⟨PInv, contract, start, -⟩ := lawful state started.created
  exact ⟨PInv, valid, checkOptions_ok valid started.options, contract, start⟩

set_option linter.unnecessarySeqFocus false in
/-- `sim_run` past its checks. -/
theorem Started.simRun_eq (started : Started S state) : S.simRun =
    match S.processInstant (S.initEngine state) with
    | none => .aborted
    | some e => S.finish (S.mainLoop loopFuel e) := by
  rw [simRun]
  cases run : S.processInstant (S.initEngine state) with
  | none => simp only [started.validated, started.options, started.created, run]
  | some e => simp only [started.validated, started.options, started.created, run]

/-! ## The clock -/

/-- Every computed time lies before the horizon plus the cost of the switches. -/
structure Within (S : Sim D) (e : S.Eng) : Prop where
  horizon_le : workloadHorizon S.w ≤ S.reach e
  now_le : e.now ≤ S.reach e
  busy_le : ∀ c, (e.cores c).busyUntil ≤ S.reach e
  end_le : ∀ c, (e.cores c).runEnd ≤ S.reach e
  wake_le : ∀ p, e.wake p ≤ S.reach e

omit [Double D] in
/-- A step that adds no time past its own reach. -/
theorem Within.step {e e' : S.Eng} (within : Within S e) (reach_le : S.reach e ≤ S.reach e')
    (now_eq : e'.now = e.now)
    (cores : ∀ c, (e'.cores c).busyUntil ≤ max ((e.cores c).busyUntil) (S.reach e') ∧
      (e'.cores c).runEnd ≤ max ((e.cores c).runEnd) (S.reach e'))
    (wake : ∀ p, e'.wake p ≤ max (e.wake p) (S.reach e')) : Within S e' := by
  refine ⟨within.horizon_le.trans reach_le, ?_, fun c => ?_, fun c => ?_, fun p => ?_⟩
  · have := within.now_le
    omega
  · have := within.busy_le c
    have := (cores c).1
    omega
  · have := within.end_le c
    have := (cores c).2
    omega
  · have := within.wake_le p
    have := wake p
    omega

omit [Double D] in
/-- The end of a slice keeps the computed times. -/
theorem chargeRun_times (e : S.Eng) (c p c' : Nat) :
    ((S.chargeRun e c p).cores c').busyUntil = (e.cores c').busyUntil ∧
      ((S.chargeRun e c p).cores c').runEnd = (e.cores c').runEnd := by
  rw [chargeRun_cores]
  by_cases hc : c' = c
  · subst hc
    simp
  · simp [hc]

/-- The start of a slice on core `c` computes no time past its end. -/
theorem startedCore_times (core : Core) (now remaining : Int) :
    (startedCore core now remaining).busyUntil ≤ now + remaining ∧
      (startedCore core now remaining).runEnd ≤ now + remaining := by
  simp only [startedCore]
  omega

theorem Within.runInv (valid : S.w.Valid) (hcs : 0 ≤ S.opt.csCost) :
    RunInv S PInv fun a => Within S a.eng where
  init state start := by
    have arrival_nonneg : 0 ≤ S.firstArrival := (Sound.init valid start).now_nonneg
    have arrival_le := firstArrival_le_maxArrival valid
    have total := valid.totalWork_nonneg
    have horizon := workloadHorizon_eq S.w
    have reach_eq : S.reach (S.initConfig state).eng = workloadHorizon S.w := by
      simp [reach, initConfig, initEngine]
    refine ⟨reach_eq.ge, ?_, fun c => ?_, fun c => ?_, fun p => ?_⟩
    · rw [reach_eq]
      simp only [initConfig, initEngine]
      omega
    all_goals
      rw [reach_eq]
      simp only [initConfig, initEngine]
      omega
  move {budget a b} move sound paid clock within := by
    have switches := mul_le_mul_of_nonneg_right (move.switches_le valid hcs sound) hcs
    have reach_le : S.reach a.eng ≤ S.reach b.eng := by
      simp only [reach]
      omega
    have now_eq := move.now_eq
    have none := sound.work_nonneg valid
    cases move with
    | arrive => exact within.step reach_le now_eq (by simp) (by simp)
    | wake => exact within.step reach_le now_eq (by simp) (by simp)
    | preempt =>
        refine within.step reach_le now_eq (fun c' => ?_) (by simp)
        rw [(chargeRun_times _ _ _ c').1, (chargeRun_times _ _ _ c').2]
        simp
    | @block e sp c p s heap state seat runs ran used more =>
        obtain ⟨hlt, eq⟩ := sound.startIo_eq valid seat runs used more
        have part := sound.spotWork_le valid (sound.inside (p := p) (by simp [seat]))
        have tail := Process.tail_eq hlt
        have more := (valid.proc (sound.inside (p := p) (by simp [seat]))).tail_nonneg
          (e.phase p + 2)
        have next := (valid.proc (sound.inside (p := p) (by simp [seat]))).phase_pos hlt
        rw [chargeRun_remaining, Function.update_self] at used
        simp only [seat, spotWork, runs, Bool.false_eq_true, if_false] at part
        dsimp only at clock
        refine within.step reach_le now_eq (fun c' => ?_) (fun q => ?_)
        · rw [eq]
          simp only [burstOver]
          rw [(chargeRun_times _ _ _ c').1, (chargeRun_times _ _ _ c').2]
          simp
        · rw [eq] at reach_le ⊢
          simp only at reach_le ⊢
          by_cases hq : q = p
          · subst hq
            simp only [Function.update_self]
            omega
          · simp [hq]
    | complete =>
        refine within.step reach_le now_eq (fun c' => ?_) (by simp [finishProcess, burstOver])
        simp only [finishProcess, burstOver]
        rw [(chargeRun_times _ _ _ c').1, (chargeRun_times _ _ _ c').2]
        simp
    | @mark e sp c p s =>
        refine within.step reach_le now_eq (fun c' => ?_) (by simp [setCore])
        by_cases hc : c' = c
        · subst hc
          simp [setCore]
        · simp [setCore, hc]
    | @start e sp c p s deadline seat switching =>
        have part := sound.spotWork_le valid (sound.inside (p := p) (by simp [seat]))
        have tail := (valid.proc (sound.inside (p := p) (by simp [seat]))).tail_nonneg (e.phase p)
        simp only [seat, spotWork, switching, if_true] at part
        dsimp only at clock
        rw [sound.startRun_eq valid seat switching] at reach_le now_eq ⊢
        refine within.step reach_le now_eq (fun c' => ?_) (by simp)
        by_cases hc : c' = c
        · subst hc
          have times := startedCore_times { e.cores c' with deadline } e.now (e.remaining p)
          have le := (show e.now + e.remaining p ≤ S.reach e by omega).trans reach_le
          dsimp only
          rw [Function.update_self]
          exact ⟨le_max_of_le_right (times.1.trans le), le_max_of_le_right (times.2.trans le)⟩
        · simp [hc]
    | pick => exact within.step reach_le now_eq (by simp) (by simp)
    | refuse => exact within.step reach_le now_eq (by simp) (by simp)
    | @place e sp c s held core_lt free fits =>
        have part := sound.spotWork_le valid (sound.inside (p := s.proc) (by simp [held]))
        have tail := (valid.proc (sound.inside (p := s.proc) (by simp [held]))).tail_nonneg
          (e.phase s.proc)
        simp only [held, spotWork] at part
        dsimp only at clock
        rw [sound.placed_eq valid hcs held fits] at reach_le now_eq ⊢
        refine within.step reach_le now_eq (fun c' => ?_) (by simp)
        by_cases hc : c' = c
        · subst hc
          dsimp only
          rw [Function.update_self]
          by_cases hswitch : S.switching e c' s.proc = true ∧ 0 < S.opt.csCost
          · rw [show S.placedCore e c' s = _ from if_pos hswitch]
            -- the switch that is counted pays for the switch-in
            have counted : (e.switches + 1) * S.opt.csCost =
                e.switches * S.opt.csCost + S.opt.csCost := by ring
            refine ⟨le_max_of_le_right ?_, le_max_left _ _⟩
            simp only [reach, hswitch.1, if_true] at clock ⊢
            omega
          · rw [show S.placedCore e c' s = _ from if_neg hswitch]
            have times := startedCore_times (seatedCore (e.cores c') s) e.now (e.remaining s.proc)
            have le := (show e.now + e.remaining s.proc ≤ S.reach e by omega).trans reach_le
            exact ⟨le_max_of_le_right (times.1.trans le), le_max_of_le_right (times.2.trans le)⟩
        · simp [hc]
  advance {budget a t} sound dispatched event first gt within := by
    refine ⟨within.horizon_le, ?_, within.busy_le, within.end_le, within.wake_le⟩
    change t ≤ S.reach a.eng
    cases event with
    | arrival p inside new at_ =>
        have arrival_le := Workload.arrival_le_maxArrival (Workload.proc_mem inside)
        have total := valid.totalWork_nonneg
        have horizon := workloadHorizon_eq S.w
        have := within.horizon_le
        omega
    | wake p blocked at_ => exact at_ ▸ within.wake_le p
    | slice p c s seat at_ => exact at_ ▸ within.busy_le c
    | deadline p c s seat => exact (first (.slice p c s seat rfl)).trans (within.busy_le c)

/-! ## Every dispatch is worth a tick -/

/-- The process `p` is on core `c`, or left it in a way that `left` tells; a
process that leaves core `c` has run. -/
structure Served (left : Prop) (c p : Nat) (a : S.Config) : Prop where
  stays : (∃ s, a.spots p = .core c s) ∨ left
  leaves : OnCore (fun core => core.inCs = false → core.runStart < a.eng.now → left) c a

/-- A move takes a process off a core only after a tick. -/
theorem Move.served (valid : S.w.Valid) (hcs : 0 ≤ S.opt.csCost)
    (contract : Contract S.w S.policy PInv) {budget : Int} {a b : S.Config} (move : S.Move a b)
    (sound : S.Sound PInv budget a) {left : Prop} {c p : Nat} (served : Served left c p a) :
    Served left c p b := by
  have now_eq := move.now_eq
  refine ⟨?_, ?_⟩
  · rcases served.stays with ⟨s, seat⟩ | done
    · -- only the process on core `c'` leaves it
      have leave : ∀ {q c' s' z}, a.spots q = .core c' s' → (a.eng.cores c').inCs = false →
          (a.eng.cores c').runStart < a.eng.now →
          (∃ s, Function.update a.spots q z p = .core c s) ∨ left := by
        intro q c' s' z seat' runs ran
        by_cases hq : p = q
        · subst hq
          obtain ⟨rfl, -⟩ := Spot.core.inj (seat.symm.trans seat')
          exact .inr (served.leaves p s seat runs ran)
        · exact .inl ⟨s, by rw [Function.update_of_ne hq, seat]⟩
      have other : ∀ {q z}, (∀ c s, a.spots q ≠ .core c s) →
          (∃ s, Function.update a.spots q z p = .core c s) ∨ left := by
        intro q z off
        have hq : p ≠ q := by
          rintro rfl
          exact off c s seat
        exact .inl ⟨s, by rw [Function.update_of_ne hq, seat]⟩
      cases move with
      | @arrive e sp key rest state pending =>
          have new := ((sound.pending.mem_iff key.index).mp
            (List.mem_map_of_mem (pending ▸ List.mem_cons_self))).2
          exact other fun c s h => by cases new.symm.trans h
      | wake popped =>
          have blocked := (sound.blocked.pop (blockedLess_total valid _)
            (fun q hq => sound.inside fun h => by cases hq.symm.trans h) popped (z := .ready)
              (by simp)).1
          exact other fun c s h => by cases blocked.symm.trans h
      | preempt seat' runs ran => exact leave seat' runs ran
      | block seat' runs ran => exact leave seat' runs ran
      | complete seat' runs ran => exact leave seat' runs ran
      | mark => exact .inl ⟨s, seat⟩
      | start => exact .inl ⟨s, seat⟩
      | pick hook early =>
          have ready := (sound.pick contract hook early).1
          exact other fun c s h => by cases ready.symm.trans h
      | refuse => exact .inl ⟨s, seat⟩
      | place held => exact other (by simp [held])
    · exact .inr done
  · rw [now_eq]
    exact move.onCore valid hcs sound
      (P := fun core => core.inCs = false → core.runStart < a.eng.now → left)
      (fun core h => h)
      (fun core rem _ _ _ _ ran => absurd ran (lt_irrefl _))
      (fun core _ _ runs => by simp at runs) served.leaves

/-- At the next event every process is still on its core, or has run there. -/
theorem Launched.served (launched : Launched S PInv state) {e e' : S.Eng}
    (reached : Reached S state .dispatched e)
    (run : S.processInstant { e with now := S.nextEvent e } = some e') {c p : Nat}
    (hc : c < S.opt.cores) (on : (e.cores c).proc = some p) :
    (e'.cores c).proc = some p ∨ ((e.cores c).inCs = false ∧ (e.cores c).runStart < e'.now) := by
  obtain ⟨sp, course, -⟩ := reached.course launched RunInv.true
  obtain ⟨budget, sound⟩ := course.sound
  obtain ⟨rounds, bound, hlimit⟩ := course.bound
  obtain ⟨dispatched, unfinished⟩ := course.dispatched rfl
  obtain ⟨gt, -, e₂, sp₂, run₂, events, course₂, -⟩ := launched.advance (I := fun _ => True) course
  have moves := events.moves
  obtain ⟨budget', sound', -⟩ := dispatched.advance launched.valid launched.contract
    launched.options sound unfinished bound (hlimit rfl)
  obtain rfl : e₂ = e' := Option.some.inj (run₂.symm.trans run)
  have now₂ : e₂.now = S.nextEvent e := moves.now_eq
  obtain ⟨s, seat⟩ := sound.cores.owner c hc p on
  have alone : ∀ q s', sp q = .core c s' → (e.cores c).inCs = false →
      (e.cores c).runStart < S.nextEvent e →
      (e.cores c).inCs = false ∧ (e.cores c).runStart < e₂.now :=
    fun q s' _ runs ran => ⟨runs, now₂ ▸ ran⟩
  have served := Moves.keep launched.valid launched.options.cs_nonneg launched.contract
    (I := Served ((e.cores c).inCs = false ∧ (e.cores c).runStart < e₂.now) c p)
    (fun move sound => move.served launched.valid launched.options.cs_nonneg
      launched.contract sound)
    moves sound' ⟨.inl ⟨s, seat⟩, alone⟩
  rcases served.stays with ⟨s', seat'⟩ | done
  · obtain ⟨budget₂, sound₂⟩ := course₂.sound
    obtain ⟨-, hs', ok⟩ := sound₂.cores.seat p c s' seat'
    exact .inl (ok.proc_eq.trans (congrArg some hs'))
  · exact .inr done

omit [Double D] in
/-- When every process has completed, no core is busy. -/
theorem Sound.free_of_completed {budget : Int} {a : S.Config} (sound : S.Sound PInv budget a)
    (all : a.eng.completed = S.w.len) {c : Nat} (hc : c < S.opt.cores) :
    (a.eng.cores c).proc = none := by
  by_contra busy
  obtain ⟨p, hp⟩ := Option.ne_none_iff_exists'.mp busy
  obtain ⟨s, seat⟩ := sound.cores.owner c hc p hp
  have inside := sound.inside (p := p) (by simp [seat])
  have := sound.completed_lt inside (by simp [seat])
  omega

/-- How a run ends: it succeeds, it hits the segment limit, or an assertion of a
debug build stops it. -/
theorem Launched.simRun_cases (launched : Launched S PInv state) (started : Started S state) :
    (∃ e, Reached S state .settled e ∧ S.running e = false ∧ S.simRun = S.finish (.done e)) ∨
      (S.simRun = .aborted ∧ S.build = .debug ∧ Blind S state) := by
  obtain ⟨e, sp, run, -⟩ := launched.first (I := fun _ => True)
  have first : Reached S state .settled e := .first run
  rw [started.simRun_eq, run]
  rcases launched.mainLoop loopFuel first (first.fuel_enough launched) with
    ⟨e', done, reached, stop⟩ | ⟨aborted, rest⟩
  · exact .inl ⟨e', reached, stop, by simp only [done]⟩
  · exact .inr ⟨by simp only [aborted, finish], rest⟩

omit [Double D] in
theorem foldl_appendTrailing_fail (e : S.Eng) (cs : List Nat) :
    (cs.foldl S.appendTrailing e).fail = e.fail ∨ (cs.foldl S.appendTrailing e).fail = .limit := by
  induction cs generalizing e with
  | nil => exact .inl rfl
  | cons c rest ih =>
      rw [List.foldl_cons]
      have here := S.append_fail e c (e.cores c).freeSince e.now none .idle
      rcases ih (S.appendTrailing e c) with h | h
      · rw [h]
        exact here
      · exact .inr h

/-! ## One process on one core -/

/-- First come first served, one process of one CPU burst, one core. -/
def soloSim (build : Build) (burst : Int) : Sim Float where
  build
  w := ⟨[processMake 1 0 burst]⟩
  policy := policyFcfs
  params := {}
  opt := { cores := 1, csCost := 0, predict := .oracle, alpha := 0.5, tau0 := 1, maxSegments := 10 }

theorem soloSim_validated (build : Build) {burst : Int} (pos : 0 < burst) (le : burst ≤ int64Max) :
    workloadValidate (soloSim build burst).w = .ok () := by
  have sum : ckAddI64 0 burst = some burst := by
    simpa using ckAddI64_of_le (a := 0) pos.le (by omega)
  have process : processValidate (processMake 1 0 burst) 0 = .ok () := by
    simp [processValidate, processMake, schedMaxTickets, pos.not_ge]
  have items : validateItems [processMake 1 0 burst] 0 0 = .ok (0, burst) := by
    have phases : sumPhases 0 (processMake 1 0 burst).phases ⟨0, 0, 0⟩ =
      some ⟨burst, 0, burst⟩ := by
      simp [processMake, sumPhases, sum, pos.not_ge]
    simp only [validateItems, process, phases]
    simp [processMake, Process.phaseCount, bind, Except.bind]
  simp only [workloadValidate, soloSim, Workload.len, List.length_singleton, items, sum]
  simp [adjacentDuplicate]

theorem soloSim_started (build : Build) {burst : Int} (pos : 0 < burst) (le : burst ≤ int64Max) :
    Started (soloSim build burst) (queueInit 1) where
  validated := soloSim_validated build pos le
  options := by
    have horizon : workloadHorizon (soloSim build burst).w = burst := by
      simp [soloSim, workloadHorizon, horizonSums, processMake]
    simp only [checkOptions, horizon]
    simp [soloSim, policyFcfs]
  created := rfl

theorem soloSim_builtIn (build : Build) (burst : Int) : BuiltIn (soloSim build burst) where
  registered := ⟨fun _ => true, List.mem_cons_self⟩
  admitted := PolicyParams.admitted_default

section Rounds

variable {pending : List ArrivalKey}

/-! ## Runs round by round -/

/-- The engine before the first instant, with the arrivals in order. -/
def engineAt (S : Sim D) (state : S.policy.State) (pending : List ArrivalKey) : S.Eng :=
  { S.initEngine state with
    pending
    now := (pending.head?.map ArrivalKey.arrival).getD 0
    cores := fun _ =>
      { proc := none, inCs := false, recheck := false, busyUntil := 0, runStart := 0, runEnd := 0,
        length := 0, deadline := 0, context := none,
        freeSince := (pending.head?.map ArrivalKey.arrival).getD 0 } }

/-- The state after so many rounds of the main loop. -/
def settledAfter (S : Sim D) (state : S.policy.State) (pending : List ArrivalKey) :
    Nat → Option S.Eng
  | 0 => S.processInstant (S.engineAt state pending)
  | rounds + 1 => (S.settledAfter state pending rounds).bind fun e =>
      if S.running e = true then S.iterate e else none

omit [Double D] in
theorem initEngine_eq (order : S.order = pending) :
    S.initEngine state = S.engineAt state pending := by
  subst order
  have first : S.firstArrival = (S.order.head?.map ArrivalKey.arrival).getD 0 := by
    rw [firstArrival]
    cases S.order <;> rfl
  rw [engineAt, ← first]
  rfl

/-- These states are reached. -/
theorem Reached.settledAfter (order : S.order = pending) {rounds : Nat} {e : S.Eng}
    (run : S.settledAfter state pending rounds = some e) : Reached S state .settled e := by
  induction rounds generalizing e with
  | zero => exact .first (initEngine_eq order ▸ run)
  | succ rounds ih =>
      obtain ⟨e₀, before, run⟩ := Option.bind_eq_some_iff.mp run
      split_ifs at run with running
      obtain ⟨e₁, dispatched, run⟩ := Option.bind_eq_some_iff.mp run
      obtain ⟨⟨⟩, event, run⟩ := Option.bind_eq_some_iff.mp run
      exact .instant (.dispatch (ih before) running dispatched) event run

/-- The main loop goes through them. -/
theorem mainLoop_settledAfter {rounds fuel : Nat} {e₀ e : S.Eng}
    (first : S.settledAfter state pending 0 = some e₀)
    (run : S.settledAfter state pending rounds = some e) :
    S.mainLoop (rounds + fuel) e₀ = S.mainLoop fuel e := by
  induction rounds generalizing e fuel with
  | zero =>
      obtain rfl := Option.some.inj (first.symm.trans run)
      rw [Nat.zero_add]
  | succ rounds ih =>
      obtain ⟨e₁, before, run⟩ := Option.bind_eq_some_iff.mp run
      split_ifs at run with running
      rw [Nat.add_assoc, Nat.add_comm 1, ih before, mainLoop, if_pos running, run]

/-- How a run ends that stops after so many rounds. -/
theorem Started.simRun_settledAfter (started : Started S state) (order : S.order = pending)
    {rounds : Nat} (few : rounds < 2 ^ 63) {e : S.Eng}
    (run : S.settledAfter state pending rounds = some e) (stops : S.running e = false)
    (ok : ((List.range S.opt.cores).foldl S.appendTrailing e).fail = .ok) :
    S.simRun = .ok (S.result ((List.range S.opt.cores).foldl S.appendTrailing e)) := by
  obtain ⟨e₀, first⟩ : ∃ e₀, S.settledAfter state pending 0 = some e₀ := by
    clear stops ok few
    induction rounds generalizing e with
    | zero => exact ⟨e, run⟩
    | succ rounds ih =>
        obtain ⟨e₁, before, -⟩ := Option.bind_eq_some_iff.mp run
        exact ih before
  have fuel : loopFuel = rounds + (loopFuel - rounds - 1 + 1) := by
    rw [loopFuel]
    omega
  have first' : S.processInstant (S.initEngine state) = some e₀ := initEngine_eq order ▸ first
  have loop : S.mainLoop loopFuel e₀ = .done e := by
    rw [fuel, mainLoop_settledAfter first run, mainLoop, stops]
    rfl
  rw [started.simRun_eq, first']
  simp only [loop, finish, ok, if_true]

end Rounds

/-! ## Three processes on two cores -/

/-- The first process blocks between its bursts. -/
def trioWorkload : Workload :=
  ⟨[{ pid := 1, arrival := 0, burst := 5, io := 2, phases := [4, 2, 1] }, processMake 2 0 3,
    processMake 3 1 1]⟩

/-- Their run under round robin on two cores with a switch cost.  The second process is
interrupted for the third one and waits; the first one goes on where it was, and blocks. -/
def trioSim : Sim Float where
  build := .debug
  w := trioWorkload
  policy := policyRr
  params := {}
  opt := { cores := 2, csCost := 1, predict := .oracle, alpha := 0.5, tau0 := 1, maxSegments := 20 }

theorem trioWorkload_valid : trioWorkload.Valid where
  nonempty := by decide
  procs p mem := by
    simp only [trioWorkload, List.mem_cons, List.not_mem_nil, or_false] at mem
    rcases mem with rfl | rfl | rfl
    · constructor <;> decide
    · constructor <;> decide
    · constructor <;> decide
  pids_nodup := by decide
  horizon_le := by decide

theorem trioSim_started : Started trioSim (⟨queueInit 3, 2⟩) where
  validated := trioWorkload_valid.validates
  options := by
    have horizon : workloadHorizon trioWorkload = 12 := by decide
    have room : (int64Max - 12) / 20 = 461168601842738789 := by decide
    simp only [checkOptions, trioSim, horizon, policyRr, Nat.cast_ofNat, room]
    rfl
  created := rfl

theorem trioSim_builtIn : BuiltIn trioSim where
  registered := ⟨fun _ => true, by simp [registry, trioSim]⟩
  admitted := PolicyParams.admitted_default

/-- The arrivals. -/
def trioOrder : List ArrivalKey := [⟨0, 1, 0⟩, ⟨0, 2, 1⟩, ⟨1, 3, 2⟩]

theorem trioSim_order : trioSim.order = trioOrder :=
  List.mergeSort_of_pairwise (by decide)

/-- What is seen of the schedule. -/
structure TrioSchedule (r : SimResult) : Prop where
  first : r.timelines 0 = [⟨0, 4, some 0, .run⟩, ⟨4, 5, some 1, .cs⟩, ⟨5, 6, some 1, .run⟩,
    ⟨6, 7, some 0, .cs⟩, ⟨7, 8, some 0, .run⟩]
  second : r.timelines 1 = [⟨0, 2, some 1, .run⟩, ⟨2, 3, some 2, .cs⟩, ⟨3, 4, some 2, .run⟩,
    ⟨4, 8, none, .idle⟩]
  outcomes : r.outcomes 0 = ⟨0, 8⟩ ∧ r.outcomes 1 = ⟨0, 6⟩ ∧ r.outcomes 2 = ⟨3, 4⟩
  switches : r.switches = 3
  csTime : r.csTime = 3
  firstArrival : r.firstArrival = 0

/-- What is checked of the last state. -/
def trioSeen (e : trioSim.Eng) :
    (Bool × EngineFail) × List (List Segment) × List ProcOutcome × List Int :=
  let e' := (List.range 2).foldl trioSim.appendTrailing e
  ((trioSim.running e, e'.fail), [(e'.timelines 0).reverse, (e'.timelines 1).reverse],
    [e'.outcomes 0, e'.outcomes 1, e'.outcomes 2], [e'.switches, e'.csTime])

theorem trioSim_seen :
    (trioSim.settledAfter (⟨queueInit 3, 2⟩) trioOrder 8).map trioSeen =
      some ((false, .ok), [[⟨0, 4, some 0, .run⟩, ⟨4, 5, some 1, .cs⟩, ⟨5, 6, some 1, .run⟩,
        ⟨6, 7, some 0, .cs⟩, ⟨7, 8, some 0, .run⟩], [⟨0, 2, some 1, .run⟩, ⟨2, 3, some 2, .cs⟩,
        ⟨3, 4, some 2, .run⟩, ⟨4, 8, none, .idle⟩]], [⟨0, 8⟩, ⟨0, 6⟩, ⟨3, 4⟩], [3, 3]) := by
  decide +kernel

theorem trioSim_succeeds : ∃ r, trioSim.simRun = .ok r ∧ TrioSchedule r := by
  have started := trioSim_started
  obtain ⟨e, run, shape⟩ := Option.map_eq_some_iff.mp trioSim_seen
  simp only [trioSeen, Prod.mk.injEq, List.cons.injEq, and_true] at shape
  obtain ⟨⟨stops, ok⟩, ⟨first, second⟩, outcomes, switches, csTime⟩ := shape
  refine ⟨_, started.simRun_settledAfter trioSim_order (by decide) run stops ok,
    ⟨first, second, outcomes, switches, csTime, ?_⟩⟩
  have order := trioSim_order
  rw [result, firstArrival, order]
  rfl

/-- The three processes without a switch cost. -/
def trioFree (P : Policy Float) : Sim Float where
  build := .release
  w := trioWorkload
  policy := P
  params := {}
  opt := { cores := 2, csCost := 0, predict := .oracle, alpha := 0.5, tau0 := 1, maxSegments := 20 }

theorem trioFree_builtIn {P : Policy Float} (registered : P ∈ registry fun _ => true) :
    BuiltIn (trioFree P) := ⟨⟨_, registered⟩, PolicyParams.admitted_default⟩

theorem trioFree_order (P : Policy Float) : (trioFree P).order = trioOrder :=
  (show (trioFree P).order = trioSim.order from rfl).trans trioSim_order

/-- How a run of theirs succeeds. -/
theorem trioFree_succeeds {P : Policy Float} {state : P.State}
    (started : Started (trioFree P) state) {rounds : Nat} (few : rounds < 2 ^ 63)
    (ends : (((trioFree P).settledAfter state trioOrder rounds).map fun e =>
      ((trioFree P).running e, ((List.range 2).foldl (trioFree P).appendTrailing e).fail)) =
        some (false, .ok)) : ∃ r, (trioFree P).simRun = .ok r := by
  obtain ⟨e, run, seen⟩ := Option.map_eq_some_iff.mp ends
  obtain ⟨stops, ok⟩ := Prod.mk.inj seen
  exact ⟨_, started.simRun_settledAfter (trioFree_order P) few run stops ok⟩

theorem trioFree_fcfs_ends : (((trioFree policyFcfs).settledAfter (queueInit 3) trioOrder 5).map
    fun e => ((trioFree policyFcfs).running e,
      ((List.range 2).foldl (trioFree policyFcfs).appendTrailing e).fail)) = some (false, .ok) := by
  decide +kernel

theorem trioFree_fcfs : ∃ r, (trioFree policyFcfs).simRun = .ok r :=
  trioFree_succeeds ⟨trioWorkload_valid.validates, rfl, rfl⟩ (by decide) trioFree_fcfs_ends

theorem trioFree_rr_ends : (((trioFree policyRr).settledAfter ⟨queueInit 3, 2⟩ trioOrder 6).map
    fun e => ((trioFree policyRr).running e,
      ((List.range 2).foldl (trioFree policyRr).appendTrailing e).fail)) = some (false, .ok) := by
  decide +kernel

theorem trioFree_rr : ∃ r, (trioFree policyRr).simRun = .ok r :=
  trioFree_succeeds ⟨trioWorkload_valid.validates, rfl, rfl⟩ (by decide) trioFree_rr_ends

/-! ## Termination -/

/-- A run of a built-in policy ends.  Every round of the main loop moves the
clock; a process leaves the core it was dispatched on only after at least one
tick there, and when all have completed every core is free; no time that the
engine computes passes the horizon plus the cost of the switches charged so far;
so no addition overflows, and of the errors of a started run only the segment
limit remains. -/
theorem simRun_terminates (started : Started S state) (builtIn : BuiltIn S) :
    S.simRun ≠ .diverged ∧
      (∀ e e', Reached S state .settled e → S.running e = true → S.iterate e = some e' →
        e.now < e'.now) ∧
      (∀ e e' c p, Reached S state .dispatched e →
        S.processInstant { e with now := S.nextEvent e } = some e' → c < S.opt.cores →
        (e.cores c).proc = some p → (e'.cores c).proc = some p ∨
          ((e.cores c).inCs = false ∧ (e.cores c).runStart < e'.now)) ∧
      (∀ e, Reached S state .settled e → e.completed = S.w.len → ∀ c < S.opt.cores,
        (e.cores c).proc = none) ∧
      (∀ point e, Reached S state point e → Within S e ∧ e.fail ≠ .overflow) ∧
      (∀ err, S.simRun = .error err → err = S.failError .limit) := by
  obtain ⟨PInv, launched⟩ := started.launched builtIn
  have within : RunInv S PInv fun a => Within S a.eng :=
    Within.runInv launched.valid launched.options.cs_nonneg
  have noOverflow : ∀ point e, Reached S state point e → Within S e ∧ e.fail ≠ .overflow := by
    intro point e reached
    obtain ⟨sp, course, here⟩ := reached.course launched within
    obtain ⟨budget, sound⟩ := course.sound
    exact ⟨here, sound.no_overflow⟩
  refine ⟨?_, ?_, ?_, ?_, noOverflow, ?_⟩
  · intro diverged
    rcases launched.simRun_cases started with ⟨e, -, -, h⟩ | ⟨h, -⟩
    · rw [diverged] at h
      simp only [finish] at h
      split at h <;> cases h
    · rw [diverged] at h
      cases h
  · intro e e' reached running run
    rcases launched.iterate reached running with ⟨e'', run', -, gt⟩ | ⟨run', -⟩
    · cases run'.symm.trans run
      exact gt
    · cases run'.symm.trans run
  · intro e e' c p reached run hc on
    exact launched.served reached run hc on
  · intro e reached all c hc
    obtain ⟨sp, course, -⟩ := reached.course launched within
    obtain ⟨budget, sound⟩ := course.sound
    exact sound.free_of_completed all hc
  · intro err failed
    rcases launched.simRun_cases started with ⟨e, reached, -, h⟩ | ⟨h, -⟩
    · rw [failed] at h
      simp only [finish] at h
      split at h
      · cases h
      · cases h
        have := foldl_appendTrailing_fail e (List.range S.opt.cores)
        have := (noOverflow _ e reached).2
        have fails : (List.foldl S.appendTrailing e (List.range S.opt.cores)).fail = .limit := by
          cases hfail : (List.foldl S.appendTrailing e (List.range S.opt.cores)).fail <;> simp_all
        rw [fails]
    · rw [failed] at h
      cases h

theorem trioSim_second : ((trioSim.settledAfter ⟨queueInit 3, 2⟩ trioOrder 1).map fun e =>
    (e.now, trioSim.running e, (trioSim.iterate e).isSome)) = some (1, true, true) := by
  decide +kernel

/-- The run of the three processes ends; its clock moves in the round in which the second one is
interrupted, and no addition overflows. -/
theorem trioSim_terminates : trioSim.simRun ≠ .diverged ∧
    (∃ e e', Reached trioSim ⟨queueInit 3, 2⟩ .settled e ∧
      trioSim.iterate e = some e' ∧ e.now = 1 ∧ e.now < e'.now) ∧
    ∀ e, Reached trioSim ⟨queueInit 3, 2⟩ .settled e → e.fail ≠ .overflow := by
  obtain ⟨ends, clock, -, -, within, -⟩ :=
    simRun_terminates trioSim_started trioSim_builtIn
  refine ⟨ends, ?_, fun e reached => (within _ e reached).2⟩
  obtain ⟨e, run, seen⟩ := Option.map_eq_some_iff.mp trioSim_second
  simp only [Prod.mk.injEq] at seen
  obtain ⟨now, running, goesOn⟩ := seen
  obtain ⟨e', next⟩ := Option.isSome_iff_exists.mp goesOn
  have reached := Reached.settledAfter trioSim_order run
  exact ⟨e, e', reached, next, now, clock e e' reached running next⟩

end Sim

end CpuSched
