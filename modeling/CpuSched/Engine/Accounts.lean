import CpuSched.Engine.Timelines

/-!
# What the timelines add up to

The counters of the engine are kept at dispatch and the segments are appended
elsewhere at other times.  `Effect` says what a step of an instant does to both,
and so what the timelines of a run add up to: the switches, their time, and the
ticks that every process was given.
-/

namespace CpuSched

/-! ## Sums over a timeline -/

/-- The ticks of the segments of the kinds and processes in `f`. -/
def segTime (f : SegmentKind → Option Nat → Bool) : List Segment → Int
  | [] => 0
  | seg :: rest => segTime f rest + if f seg.kind seg.proc then seg.length else 0

/-- The ticks of the segments of one kind. -/
def kindTime (k : SegmentKind) : List Segment → Int := segTime fun k' _ => k' = k

/-- The ticks of the runs of one process. -/
def runTime (p : Nat) : List Segment → Int := segTime fun k q => k = .run ∧ q = some p

/-- The switches that a timeline shows: the runs that come after a run of another
process. -/
def switchesIn : List Segment → Int
  | [] => 0
  | seg :: rest => switchesIn rest +
      if seg.kind = .run ∧ lastRun rest ≠ none ∧ lastRun rest ≠ seg.proc then 1 else 0

/-- A run of `p` on top of the timeline would show one more switch. -/
def nextSwitch (l : List Segment) (p : Nat) : Int :=
  if lastRun l = none ∨ lastRun l = some p then 0 else 1

/-- The switch that the process on a core will show. -/
def pendingSwitch (core : Core) (l : List Segment) : Int :=
  match core.proc with
  | none => 0
  | some p => nextSwitch l p

section Record

variable {l : List Segment} {a b : Int} {p : Option Nat} {k : SegmentKind} {q : Nat}

theorem segTime_record (f : SegmentKind → Option Nat → Bool) (le : a ≤ b) :
    segTime f (record l a b p k) = segTime f l + if f k p then b - a else 0 := by
  rcases le.lt_or_eq with lt | rfl
  · cases l with
    | nil =>
        rw [record_push lt (by simp)]
        simp [segTime, Segment.length]
    | cons last rest =>
        simp only [record, lt.not_ge, if_false]
        split_ifs with merge counted
        · obtain ⟨rfl, rfl, rfl⟩ := merge
          simp only [segTime, Segment.length, counted, if_true]
          ring
        · obtain ⟨rfl, rfl, rfl⟩ := merge
          simp [segTime, counted]
        · simp_all [segTime, Segment.length]
        · simp_all [segTime, Segment.length]
  · simp [record_of_le le_rfl]

theorem lastRun_record (notRun : k ≠ .run) : lastRun (record l a b p k) = lastRun l := by
  unfold record
  split_ifs
  · rfl
  · cases l with
    | nil => simp [lastRun, notRun]
    | cons last rest =>
        dsimp only
        split_ifs with merge <;> simp [lastRun, notRun, merge]

theorem switchesIn_record (notRun : k ≠ .run) : switchesIn (record l a b p k) = switchesIn l := by
  unfold record
  split_ifs
  · rfl
  · cases l with
    | nil => simp [switchesIn, notRun]
    | cons last rest =>
        dsimp only
        split_ifs with merge <;> simp [switchesIn, notRun, merge]

theorem switchesIn_record_run (lt : a < b) :
    switchesIn (record l a b (some q) .run) = switchesIn l + nextSwitch l q := by
  have pushed : switchesIn (⟨a, b, some q, .run⟩ :: l) = switchesIn l + nextSwitch l q := by
    by_cases stays : lastRun l = none ∨ lastRun l = some q
    · simp only [switchesIn, nextSwitch, if_pos stays]
      rw [if_neg (by rintro ⟨-, h₁, h₂⟩; exact stays.elim h₁ h₂)]
    · simp only [switchesIn, nextSwitch, if_neg stays]
      rw [if_pos ⟨trivial, not_or.mp stays⟩]
  cases l with
  | nil => rw [record_push lt (by simp), pushed]
  | cons last rest =>
      by_cases merge : last.kind = .run ∧ last.proc = some q ∧ last.stop = a
      · obtain ⟨kind_eq, proc_eq, stop_eq⟩ := merge
        rw [record_extend lt kind_eq proc_eq stop_eq]
        simp [switchesIn, nextSwitch, lastRun, kind_eq, proc_eq]
      · have same : record (last :: rest) a b (some q) .run = ⟨a, b, some q, .run⟩ ::
          last :: rest := by
          simp only [record, lt.not_ge, if_false]
          rw [if_neg merge]
        rw [same, pushed]

end Record

/-! ## One step on a core -/

namespace CoreStep

variable {cs first now : Int} {core core' : Core} {l l' : List Segment} {sw : Int}
  {charged : Nat → Int}

theorem lane_switches (lane : Lane cs first core l) (free : core.proc = none) (p : Nat) :
    nextSwitch l p = switchesTo core p := by
  unfold nextSwitch switchesTo
  rw [lane.context_eq free]

/-- Counted switches and shown ones go together. -/
theorem switches (step : CoreStep cs now core l core' l' sw charged) (lane : Lane cs first core l) :
    switchesIn l' + pendingSwitch core' l' = switchesIn l + pendingSwitch core l + sw := by
  cases step with
  | start on switching elapsed on' => simp [pendingSwitch, on, on']
  | leave on runs ran free =>
      rw [switchesIn_record_run ran]
      simp [pendingSwitch, on, free]
  | @enter _ _ p free since gratis on =>
      rw [idleRecord, switchesIn_record (by simp)]
      simp only [pendingSwitch, free, on, nextSwitch, lastRun_record (k := .idle) (by simp)]
      rw [add_zero]
      congr 1
      exact lane_switches lane free p
  | @switch _ _ p free since pos switches on =>
      rw [switchesIn_record (by simp), idleRecord, switchesIn_record (by simp)]
      simp only [pendingSwitch, free, on, nextSwitch, lastRun_record (k := .cs) (by simp),
        lastRun_record (k := .idle) (by simp)]
      rw [add_zero]
      congr 1
      exact (lane_switches lane free p).trans switches

/-- The ticks a process runs are the ones it is charged. -/
theorem runTime (step : CoreStep cs now core l core' l' sw charged) (q : Nat) :
    runTime q l' = CpuSched.runTime q l + charged q := by
  unfold CpuSched.runTime
  cases step with
  | start => simp
  | @leave _ _ p on runs ran =>
      rw [segTime_record _ ran.le]
      by_cases same : q = p
      · subst same
        simp
      · have other : ¬ (some p = some q) := fun h => same (Option.some.inj h).symm
        simp [Ne.symm same]
  | enter free since =>
      rw [idleRecord, segTime_record _ since]
      simp
  | switch free since pos =>
      rw [segTime_record _ (by omega), idleRecord, segTime_record _ since]
      simp

/-- All runs together. -/
theorem allRun (step : CoreStep cs now core l core' l' sw charged) {n : Nat}
    (inside : ∀ q, charged q ≠ 0 → q < n) :
    kindTime .run l' = kindTime .run l + ∑ q ∈ Finset.range n, charged q := by
  unfold kindTime
  cases step with
  | start => simp
  | @leave _ _ p on runs ran =>
      rw [segTime_record _ ran.le]
      have hp : p < n := inside p (by simp; omega)
      simp [hp]
  | enter free since =>
      rw [idleRecord, segTime_record _ since]
      simp
  | switch free since pos =>
      rw [segTime_record _ (by omega), idleRecord, segTime_record _ since]
      simp

/-- A counted switch takes its time. -/
theorem csTime (step : CoreStep cs now core l core' l' sw charged) :
    kindTime .cs l' = kindTime .cs l + sw * cs := by
  unfold kindTime
  cases step with
  | start => simp
  | leave on runs ran =>
      rw [segTime_record _ ran.le]
      simp
  | @enter _ _ p free since gratis =>
      rw [idleRecord, segTime_record _ since]
      have : switchesTo core p * cs = 0 := by
        rcases gratis with h | h <;> simp [h]
      simp [this]
  | switch free since pos =>
      rw [segTime_record _ (by omega), idleRecord, segTime_record _ since]
      simp

end CoreStep

/-! ## One step of an instant -/

/-- The CPU bursts before phase `k`. -/
def Process.cpuBefore (p : Process) (k : Nat) : Int := evenSum (p.phases.take k)

theorem evenSum_take : ∀ (l : List Int) (k : Nat), k % 2 = 0 → k < l.length →
    evenSum (l.take (k + 2)) = evenSum (l.take k) + l.getD k 0
  | [], k, _, lt => by simp at lt
  | [x], k, even, lt => by
      have : k = 0 := by simp at lt; omega
      subst this
      simp [evenSum]
  | x :: y :: rest, 0, _, _ => by simp [evenSum]
  | x :: y :: rest, 1, even, _ => by simp at even
  | x :: y :: rest, k + 2, even, lt => by
      have ih := evenSum_take rest k (by omega) (by simpa using lt)
      simp only [List.take_succ_cons, evenSum, ih]
      rw [add_assoc]
      rfl

theorem Process.cpuBefore_add {p : Process} {k : Nat} (even : k % 2 = 0) (lt : k < p.phaseCount) :
    p.cpuBefore (k + 2) = p.cpuBefore k + p.phase k :=
  evenSum_take p.phases k even lt

/-- Before the last burst come all the others. -/
theorem Process.Valid.cpuBefore_last {p : Process} (valid : p.Valid) {k : Nat} (even : k % 2 = 0)
    (last : k + 1 = p.phaseCount) : p.cpuBefore k + p.phase k = p.burst := by
  rw [← Process.cpuBefore_add even (by omega), valid.burst_eq, Process.cpuBefore,
    List.take_of_length_le (by unfold Process.phaseCount at last; omega)]

namespace Sim

variable {D : Type} {S : Sim D}
variable {PInv : SchedView D → S.policy.State → Places → Prop} {budget : Int}

/-- The ticks that process `p` has been charged. -/
def executed (S : Sim D) (e : S.Eng) (p : Nat) : Int :=
  (S.w.proc p).cpuBefore (e.phase p) + (e.burstLen p - e.remaining p)

/-- What a step of an instant does to the timelines and to the counters. -/
inductive Effect (e e' : S.Eng) : Prop
  | quiet (cores : ∀ c, e'.cores c = e.cores c ∨ e'.cores c = { e.cores c with recheck := true })
      (timelines : e'.timelines = e.timelines) (switches : e'.switches = e.switches)
      (csTime : e'.csTime = e.csTime) (executed : ∀ q, S.executed e' q = S.executed e q)
  | step {c sw charged} (lt : c < S.opt.cores)
      (on : CoreStep S.opt.csCost e.now (e.cores c) (e.timelines c) (e'.cores c) (e'.timelines c)
        sw charged)
      (cores : ∀ c', c' ≠ c → e'.cores c' = e.cores c')
      (timelines : ∀ c', c' ≠ c → e'.timelines c' = e.timelines c')
      (switches : e'.switches = e.switches + sw)
      (csTime : e'.csTime = e.csTime + sw * S.opt.csCost)
      (executed : ∀ q, S.executed e' q = S.executed e q + charged q)
      (inside : ∀ q, charged q ≠ 0 → q < S.w.len)

section Steps

variable {e : S.Eng} {sp : Nat → Spot} {c p : Nat} {s : Slice}

/-- Taking a process off its core records its run. -/
theorem Sound.leave_step (sound : S.Sound PInv budget ⟨e, sp⟩) (seat : sp p = .core c s)
    (runs : (e.cores c).inCs = false) (ran : (e.cores c).runStart < e.now)
    (ok : (S.chargeRun e c p).fail = .ok) :
    e.fail = .ok ∧ c < S.opt.cores ∧ p < S.w.len ∧
      CoreStep S.opt.csCost e.now (e.cores c) (e.timelines c) ((S.chargeRun e c p).cores c)
        ((S.chargeRun e c p).timelines c) 0 (Pi.single p (e.now - (e.cores c).runStart)) ∧
      (∀ c', c' ≠ c → (S.chargeRun e c p).timelines c' = e.timelines c') := by
  obtain ⟨core_lt, hs, here⟩ := sound.cores.seat p c s seat
  have on : (e.cores c).proc = some p := here.proc_eq.trans (congrArg some hs)
  have context : (e.cores c).context = some p := here.context_eq.trans (congrArg some hs)
  rw [chargeRun_fail] at ok
  obtain ⟨before, timelines⟩ := append_timelines ok
  refine ⟨before, core_lt, sound.inside (by simp [seat]), ?_, fun c' hc' => ?_⟩
  · rw [chargeRun_timelines, timelines, Function.update_self, chargeRun_cores, Function.update_self]
    exact .leave on runs ran rfl rfl context
  · rw [chargeRun_timelines, timelines, Function.update_of_ne hc']

/-- Dispatching a slice records the idle time and the switch-in. -/
theorem Sound.enter_step (valid : S.w.Valid) (hcs : 0 ≤ S.opt.csCost)
    (sound : S.Sound PInv budget ⟨e, sp⟩) (held : sp s.proc = .held s) (core_lt : c < S.opt.cores)
    (free : (e.cores c).proc = none) (fits : e.now + S.opt.csCost ≤ int64Max)
    (ok : (S.placed e c s).fail = .ok) :
    e.fail = .ok ∧ Effect e (S.placed e c s) := by
  have switching_iff : S.switching e c s.proc = true ↔ switchesTo (e.cores c) s.proc = 1 := by
    unfold switching switchesTo
    split_ifs with stays
    · simp only [decide_eq_true_eq]
      exact iff_of_false (fun h => stays.elim h.1 h.2) (by simp)
    · simpa using not_or.mp stays
  have since := (sound.cores.free c core_lt free).2
  have placed_eq := sound.placed_eq (c := c) valid hcs held fits
  rw [placed_eq] at ok ⊢
  simp only at ok
  by_cases switches : S.switching e c s.proc = true ∧ 0 < S.opt.csCost
  · have record_eq : S.placedRecord e c s =
        S.append (S.append e c (e.cores c).freeSince e.now none .idle) c e.now
          (e.now + S.opt.csCost) (some s.proc) .cs := if_pos switches
    have core_eq : S.placedCore e c s = { seatedCore (e.cores c) s with
        inCs := true, busyUntil := e.now + S.opt.csCost } := if_pos switches
    rw [record_eq] at ok
    obtain ⟨ok', timelines⟩ := append_timelines ok
    obtain ⟨before, timelines'⟩ := append_timelines ok'
    refine ⟨before, .step (c := c) core_lt (?_ : CoreStep _ _ _ _ _ _ 1 0)
      (fun c' hc' => Function.update_of_ne hc' ..) (fun c' hc' => ?_) (if_pos switches.1) ?_
      (fun q => by simp [executed]) (fun q hq => absurd rfl hq)⟩
    · dsimp only
      rw [record_eq, timelines, Function.update_self, timelines', Function.update_self,
        Function.update_self, core_eq]
      exact .switch free since switches.2 (switching_iff.mp switches.1) rfl rfl rfl
    · dsimp only
      rw [record_eq, timelines, Function.update_of_ne hc', timelines', Function.update_of_ne hc']
    · dsimp only
      rw [if_pos switches, one_mul]
  · have record_eq : S.placedRecord e c s =
        S.append e c (e.cores c).freeSince e.now none .idle := if_neg switches
    have core_eq : S.placedCore e c s =
        startedCore (seatedCore (e.cores c) s) e.now (e.remaining s.proc) := if_neg switches
    rw [record_eq] at ok
    obtain ⟨before, timelines⟩ := append_timelines ok
    have gratis : switchesTo (e.cores c) s.proc = 0 ∨ S.opt.csCost = 0 := by
      by_cases pos : 0 < S.opt.csCost
      · left
        have stays : ¬ switchesTo (e.cores c) s.proc = 1 := fun h =>
          switches ⟨switching_iff.mpr h, pos⟩
        unfold switchesTo at stays ⊢
        split_ifs at stays ⊢ with h
        · rfl
        · exact absurd rfl stays
      · right
        omega
    have counted : switchesTo (e.cores c) s.proc = if S.switching e c s.proc then 1 else 0 := by
      split_ifs with h
      · exact switching_iff.mp h
      · unfold switchesTo
        rw [switching_iff] at h
        unfold switchesTo at h
        split_ifs at h ⊢ with stays
        · rfl
        · exact absurd rfl h
    refine ⟨before, .step (c := c) core_lt
      (?_ : CoreStep _ _ _ _ _ _ (switchesTo (e.cores c) s.proc) 0)
      (fun c' hc' => Function.update_of_ne hc' ..) (fun c' hc' => ?_) ?_ ?_
      (fun q => by simp [executed]) (fun q hq => absurd rfl hq)⟩
    · dsimp only
      rw [record_eq, timelines, Function.update_self, Function.update_self, core_eq]
      exact .enter free since gratis rfl rfl rfl
    · dsimp only
      rw [record_eq, timelines, Function.update_of_ne hc']
    · dsimp only
      rw [counted]
      split_ifs <;> simp
    · dsimp only
      rw [if_neg switches]
      rcases gratis with h | h <;> simp [h]

end Steps

variable [Double D] {a b : S.Config}

/-- Every move that does not fail records on at most one core. -/
theorem Move.effect (valid : S.w.Valid) (hcs : 0 ≤ S.opt.csCost) (move : S.Move a b)
    (sound : S.Sound PInv budget a) (ok : b.eng.fail = .ok) :
    a.eng.fail = .ok ∧ Effect a.eng b.eng := by
  cases move with
  | arrive => exact ⟨ok, .quiet (fun _ => .inl rfl) rfl rfl rfl fun _ => rfl⟩
  | wake => exact ⟨ok, .quiet (fun _ => .inl rfl) rfl rfl rfl fun _ => rfl⟩
  | pick => exact ⟨ok, .quiet (fun _ => .inl rfl) rfl rfl rfl fun _ => rfl⟩
  | refuse => exact ⟨ok, .quiet (fun _ => .inl rfl) rfl rfl rfl fun _ => rfl⟩
  | @mark e sp c p s seat switching redecides =>
      refine ⟨ok, .quiet (fun c' => ?_) rfl rfl rfl fun _ => rfl⟩
      by_cases same : c' = c
      · subst same
        exact .inr (Function.update_self ..)
      · exact .inl (Function.update_of_ne same ..)
  | @start e sp c p s deadline seat switching elapsed deadline_eq =>
      obtain ⟨core_lt, hs, here⟩ := sound.cores.seat p c s seat
      have on : (e.cores c).proc = some p := here.proc_eq.trans (congrArg some hs)
      rw [sound.startRun_eq valid seat switching] at ok ⊢
      refine ⟨ok, .step (c := c) core_lt (?_ : CoreStep _ _ _ _ _ _ 0 0)
        (fun c' hc' => Function.update_of_ne hc' ..) (fun _ _ => rfl) (by simp) (by simp)
        (fun q => by simp [executed]) (fun q hq => absurd rfl hq)⟩
      dsimp only
      rw [Function.update_self]
      exact .start on switching elapsed on rfl rfl
  | @preempt e sp c p s f state seat runs ran left hook_eq hook =>
      obtain ⟨before, core_lt, hp, step, others⟩ := sound.leave_step seat runs ran ok
      refine ⟨before, .step (c := c) core_lt step (fun c' hc' => by simp [hc']) others (by simp)
        (by simp) (fun q => ?_) (fun q hq => ?_)⟩
      · by_cases same : q = p
        · subst same
          simp [executed]
          ring
        · simp [executed, same]
      · rwa [show q = p from by_contra fun ne => hq (Pi.single_eq_of_ne ne _)]
  | @complete e sp c p s state seat runs ran used last hook =>
      have ok' : (S.chargeRun e c p).fail = .ok := by simpa [finishProcess, burstOver] using ok
      obtain ⟨before, core_lt, hp, step, others⟩ := sound.leave_step seat runs ran ok'
      refine ⟨before, .step (c := c) core_lt step
        (fun c' hc' => by simp [finishProcess, burstOver, hc']) others
        (by simp [finishProcess, burstOver]) (by simp [finishProcess, burstOver])
        (fun q => ?_) (fun q hq => ?_)⟩
      · by_cases same : q = p
        · subst same
          simp [executed, finishProcess, burstOver]
          ring
        · simp [executed, finishProcess, burstOver, same]
      · rwa [show q = p from by_contra fun ne => hq (Pi.single_eq_of_ne ne _)]
  | @block e sp c p s heap state seat runs ran used more pushed hook =>
      obtain ⟨hlt, eq⟩ := sound.startIo_eq valid seat runs used more
      have progress := sound.progress (p := p) (by simp [seat]) (by simp [seat])
      rw [eq] at ok ⊢
      have ok' : (S.chargeRun e c p).fail = .ok := ok
      obtain ⟨before, core_lt, hp, step, others⟩ := sound.leave_step seat runs ran ok'
      refine ⟨before, .step (c := c) core_lt step
        (fun c' hc' => by simp [burstOver, hc']) others (by simp [burstOver]) (by simp [burstOver])
        (fun q => ?_) (fun q hq => ?_)⟩
      · by_cases same : q = p
        · subst same
          have cpu : (S.w.proc q).cpuBefore (e.phase q + 2) =
              (S.w.proc q).cpuBefore (e.phase q) + (S.w.proc q).phase (e.phase q) :=
            Process.cpuBefore_add progress.even progress.phase_lt
          have burst : e.burstLen q = (S.w.proc q).phase (e.phase q) := progress.burstLen_eq
          have used : e.remaining q - (e.now - (e.cores c).runStart) = 0 := by simpa using used
          simp only [executed, Function.update_self, Pi.single_eq_same]
          omega
        · simp [executed, same]
      · rwa [show q = p from by_contra fun ne => hq (Pi.single_eq_of_ne ne _)]
  | @place e sp c s held core_lt free fits =>
      exact sound.enter_step valid hcs held core_lt free fits ok

end Sim

end CpuSched
