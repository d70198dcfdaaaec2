import CpuSched.Engine.Service

/-!
# Bursts in one piece

Under a policy that is not told about preemptions no slice ends before its burst.  So
every process shows at most one run for each burst it has finished, and as no burst
passes without a run, the runs of a process are its CPU bursts.  Each of them gets its
core once, with one switch at most, which bounds the clock.
-/

namespace CpuSched

/-! ## Lists of lists -/

/-- As many lists as elements, and none of them empty: each is a single element. -/
theorem exists_singletons {α : Type*} {blocks : List (List α)} (nonempty : ∀ b ∈ blocks, b ≠ [])
    (few : blocks.flatten.length ≤ blocks.length) :
    ∃ pieces : List α, blocks = pieces.map fun x => [x] := by
  have many : ∀ {rest : List (List α)}, (∀ b ∈ rest, b ≠ []) →
      rest.length ≤ rest.flatten.length := by
    intro rest nonempty
    induction rest with
    | nil => exact le_rfl
    | cons b rest ih =>
        have here := List.length_pos_iff.mpr (nonempty b List.mem_cons_self)
        have tail := ih fun b mem => nonempty b (List.mem_cons_of_mem _ mem)
        rw [List.flatten_cons, List.length_append, List.length_cons]
        omega
  induction blocks with
  | nil => exact ⟨[], rfl⟩
  | cons b rest ih =>
      have tail := fun b mem => nonempty b (List.mem_cons_of_mem _ mem)
      have here := List.length_pos_iff.mpr (nonempty b List.mem_cons_self)
      have later := many tail
      rw [List.flatten_cons, List.length_append, List.length_cons] at few
      obtain ⟨pieces, rfl⟩ := ih tail (by omega)
      obtain ⟨x, rfl⟩ := List.length_eq_one_iff.mp (show b.length = 1 by omega)
      exact ⟨x :: pieces, rfl⟩

/-! ## Counting runs -/

/-- The runs of `p` on a timeline. -/
def runCount (p : Nat) (l : List Segment) : Nat :=
  l.countP fun seg => seg.kind = .run ∧ seg.proc = some p

section Record

variable {l l' : List Segment} {a b : Int} {r : Option Nat} {k : SegmentKind} {p : Nat}

/-- An interval adds at most one run, of its own process. -/
theorem runCount_record : runCount p (record l a b r k) ≤
    runCount p l + if k = .run ∧ r = some p then 1 else 0 := by
  rcases le_or_gt b a with le | lt
  · rw [record_of_le le]
    exact Nat.le_add_right ..
  · cases l with
    | nil =>
        rw [record_push lt (by simp)]
        simp [runCount]
    | cons last rest =>
        simp only [record, lt.not_ge, if_false]
        split_ifs with merge own <;> simp_all [runCount, List.countP_cons]

theorem runCount_idleRecord (core : Core) (now : Int) :
    runCount p (idleRecord core now l) ≤ runCount p l := by
  simpa [idleRecord] using runCount_record (p := p) (l := l) (a := core.freeSince) (b := now)
    (r := none) (k := .idle)

/-- A core shows a new run only of a process that is charged for it. -/
theorem CoreStep.runCount_le {cs now : Int} {core core' : Core} {sw : Int} {charged : Nat → Int}
    (step : CoreStep cs now core l core' l' sw charged) :
    runCount p l' ≤ runCount p l + if charged p = 0 then 0 else 1 := by
  cases step with
  | start => simp
  | @leave _ _ q on runs ran =>
      refine runCount_record.trans (Nat.add_le_add_left ?_ _)
      by_cases same : q = p
      · subst same
        have ran_pos : now - core.runStart ≠ 0 := by omega
        simp [ran_pos]
      · simp [same]
  | enter => simpa using runCount_idleRecord core now
  | @switch _ _ q =>
      have idle := runCount_idleRecord (p := p) (l := l) core now
      have switch := runCount_record (p := p) (l := idleRecord core now l) (a := now)
        (b := now + cs) (r := some q) (k := .cs)
      simp only [reduceCtorEq, false_and, if_false, add_zero] at switch
      simpa using switch.trans idle

end Record

/-- The runs of `p` on the first `n` cores. -/
def runsShown (n : Nat) (timelines : Nat → List Segment) (p : Nat) : Nat :=
  ∑ c ∈ Finset.range n, runCount p (timelines c)

theorem length_runsOf (n : Nat) (timelines : Nat → List Segment) (p : Nat) :
    (runsOf n timelines p).length = runsShown n timelines p := by
  unfold runsOf busyOf runsShown runCount
  induction n with
  | zero => rfl
  | succ n ih =>
      rw [List.range_succ, List.flatMap_append, List.filter_append, List.length_append, ih,
        Finset.sum_range_succ]
      simp only [List.flatMap_cons, List.flatMap_nil, List.append_nil, List.filter_filter]
      rw [← List.countP_eq_length_filter]
      congr 2
      funext seg
      simp

/-- Whether a process at the spot has had a core for its current burst, counted. -/
def Spot.given : Spot → Nat
  | .core _ _ => 1
  | .done => 1
  | _ => 0

theorem Spot.given_le (z : Spot) : z.given ≤ 1 := by
  cases z <;> simp [Spot.given]

/-- The CPU bursts of all processes. -/
def Workload.burstCount (w : Workload) : Nat :=
  ∑ p ∈ Finset.range w.len, ((w.proc p).phaseCount + 1) / 2

namespace Sim

variable {D : Type} {S : Sim D}
variable {PInv : SchedView D → S.policy.State → Places → Prop} {budget : Int}

/-- A step of an instant shows a new run only of a process that is charged for it. -/
theorem Effect.runsShown_le {e e' : S.Eng} (effect : Effect e e') (p : Nat) :
    runsShown S.opt.cores e'.timelines p ≤ runsShown S.opt.cores e.timelines p +
      if S.executed e' p = S.executed e p then 0 else 1 := by
  cases effect with
  | quiet cores timelines switches csTime executed =>
      rw [timelines]
      exact Nat.le_add_right ..
  | @step c sw charged lt on cores timelines switches csTime executed inside =>
      have charged_eq : (S.executed e' p = S.executed e p) ↔ charged p = 0 := by
        rw [executed p]
        omega
      simp only [charged_eq]
      have mem : c ∈ Finset.range S.opt.cores := Finset.mem_range.mpr lt
      unfold runsShown
      rw [← Finset.add_sum_erase _ _ mem, ← Finset.add_sum_erase _ _ mem]
      have same : ∑ c' ∈ (Finset.range S.opt.cores).erase c, runCount p (e'.timelines c') =
          ∑ c' ∈ (Finset.range S.opt.cores).erase c, runCount p (e.timelines c') :=
        Finset.sum_congr rfl fun c' here => by rw [timelines c' (Finset.mem_erase.mp here).1]
      have here := on.runCount_le (p := p)
      omega

/-- The bursts that process `p` has finished. -/
def Config.bursts (a : S.Config) (p : Nat) : Nat :=
  a.eng.phase p / 2 + if a.spots p = .done then 1 else 0

section Moves

variable [Double D]

/-- Without preemptions a process is charged only for bursts that are over. -/
theorem Move.bursts_ge (valid : S.w.Valid) (hcs : 0 ≤ S.opt.csCost)
    (contract : Contract S.w S.policy PInv) (whole : S.Whole) {a b : S.Config}
    (move : S.Move a b) (sound : S.Sound PInv budget a) (p : Nat) :
    a.bursts p + (if S.executed b.eng p = S.executed a.eng p then 0 else 1) ≤ b.bursts p := by
  -- a process that is not done moves to another spot, and nothing else changes
  have moved : ∀ {e e' : S.Eng} {sp : Nat → Spot} {q : Nat} {z : Spot}, sp q ≠ .done →
      e'.phase = e.phase → S.executed e' p = S.executed e p →
      Config.bursts ⟨e, sp⟩ p + (if S.executed e' p = S.executed e p then 0 else 1) ≤
        Config.bursts ⟨e', Function.update sp q z⟩ p := by
    intro e e' sp q z unfinished phase executed
    rw [if_pos executed, add_zero]
    unfold Config.bursts
    dsimp only
    rw [phase]
    by_cases same : p = q
    · subst same
      rw [if_neg unfinished]
      exact Nat.le_add_right ..
    · simp [same]
  cases move with
  | @arrive e sp key rest state pending due hook =>
      have new : sp key.index = .new := ((sound.pending.mem_iff key.index).mp
        (List.mem_map_of_mem (by rw [pending]; exact List.mem_cons_self))).2
      exact moved (by simp [new]) rfl rfl
  | @wake e sp q heap state popped due hook =>
      have blocked : sp q = .blocked := (sound.blocked.pop (blockedLess_total valid _)
        (fun q hq => sound.inside fun h => by cases hq.symm.trans h) popped (z := .ready)
        (by simp)).1
      exact moved (by simp [blocked]) rfl rfl
  | preempt seat runs ran left hook_eq hook => cases whole.symm.trans hook_eq
  | @block e sp c q s heap state seat runs ran used more pushed hook =>
      rw [(sound.startIo_eq valid seat runs used more).2]
      unfold Config.bursts
      by_cases same : p = q
      · subst same
        simp only [seat, Function.update_self, reduceCtorEq, if_false, add_zero]
        split_ifs <;> omega
      · simp [same, executed]
  | @complete e sp c q s state seat runs ran used last hook =>
      unfold Config.bursts
      by_cases same : p = q
      · subst same
        simp only [seat, Function.update_self, reduceCtorEq, if_false, if_true, add_zero,
          finishProcess, burstOver, chargeRun_phase]
        split_ifs <;> omega
      · simp [same, executed, finishProcess, burstOver]
  | mark => simp [Config.bursts, setCore, executed]
  | start seat switching =>
      rw [sound.startRun_eq valid seat switching]
      simp [Config.bursts, executed]
  | @pick e sp s state hook early =>
      have ready : sp s.proc = .ready := (sound.pick contract hook early).1
      exact moved (by simp [ready]) rfl rfl
  | refuse => simp [Config.bursts, executed]
  | @place e sp c s held core_lt free fits =>
      rw [sound.placed_eq valid hcs held fits]
      exact moved (by simp [held]) rfl rfl

/-- Without preemptions every process shows at most one run for each burst it has
finished. -/
theorem runsShown_runInv (valid : S.w.Valid) (hcs : 0 ≤ S.opt.csCost)
    (contract : Contract S.w S.policy PInv) (whole : S.Whole) :
    RunInv S PInv fun a => a.eng.fail = .ok →
      ∀ p, runsShown S.opt.cores a.eng.timelines p ≤ a.bursts p where
  init state _ _ p := by simp [runsShown, runCount, initConfig, initEngine]
  move {budget a b} move sound _ _ here ok p := by
    obtain ⟨before, effect⟩ := move.effect valid hcs sound ok
    have shown := effect.runsShown_le p
    have bursts := move.bursts_ge valid hcs contract whole sound p
    have here := here before p
    omega
  advance _ _ _ _ _ here := here

/-! ## Counting switches -/

/-- The bursts of process `p` that have been given a core. -/
def Config.dispatches (a : S.Config) (p : Nat) : Nat := a.eng.phase p / 2 + (a.spots p).given

omit [Double D] in
/-- A process that goes to another spot. -/
theorem Config.dispatches_le {e e' : S.Eng} {sp : Nat → Spot} {q : Nat} {z : Spot}
    (phase : e'.phase = e.phase) (given : (sp q).given ≤ z.given) (p : Nat) :
    Config.dispatches ⟨e, sp⟩ p ≤ Config.dispatches ⟨e', Function.update sp q z⟩ p := by
  unfold Config.dispatches
  dsimp only
  rw [phase]
  by_cases same : p = q
  · subst same
    rw [Function.update_self]
    exact Nat.add_le_add_left given _
  · rw [Function.update_of_ne same]

omit [Double D] in
/-- A burst that gets a core counts. -/
theorem Config.dispatches_placed {e e' : S.Eng} {sp : Nat → Spot} {q : Nat} (hq : q < S.w.len)
    (phase : e'.phase = e.phase) (held : (sp q).given = 0) (c : Nat) (s : Slice) :
    ∑ p ∈ Finset.range S.w.len, (Config.dispatches ⟨e, sp⟩ p : Int) + 1 ≤
      ∑ p ∈ Finset.range S.w.len,
        (Config.dispatches ⟨e', Function.update sp q (.core c s)⟩ p : Int) := by
  have le : ∀ p, (Config.dispatches ⟨e, sp⟩ p : Int) + (if p = q then 1 else 0) ≤
      (Config.dispatches ⟨e', Function.update sp q (.core c s)⟩ p : Int) := by
    intro p
    unfold Config.dispatches
    dsimp only
    rw [phase]
    by_cases same : p = q
    · subst same
      rw [if_pos rfl, held, Function.update_self, Spot.given]
      omega
    · rw [if_neg same, Function.update_of_ne same, add_zero]
  have sum := Finset.sum_le_sum fun p (_ : p ∈ Finset.range S.w.len) => le p
  rwa [Finset.sum_add_distrib, Finset.sum_ite_eq', if_pos (Finset.mem_range.mpr hq)] at sum

/-- Without preemptions each switch goes with a burst that gets its core. -/
theorem Move.switches_dispatches (valid : S.w.Valid) (hcs : 0 ≤ S.opt.csCost)
    (contract : Contract S.w S.policy PInv) (whole : S.Whole) {a b : S.Config}
    (move : S.Move a b) (sound : S.Sound PInv budget a) :
    b.eng.switches + ∑ p ∈ Finset.range S.w.len, (a.dispatches p : Int) ≤
      a.eng.switches + ∑ p ∈ Finset.range S.w.len, (b.dispatches p : Int) := by
  have still : b.eng.switches = a.eng.switches → (∀ p, a.dispatches p ≤ b.dispatches p) →
      b.eng.switches + ∑ p ∈ Finset.range S.w.len, (a.dispatches p : Int) ≤
        a.eng.switches + ∑ p ∈ Finset.range S.w.len, (b.dispatches p : Int) := by
    intro switches le
    rw [switches]
    exact Int.add_le_add_left (Finset.sum_le_sum fun p _ => Int.ofNat_le.mpr (le p)) _
  cases move with
  | @arrive e sp key rest state pending due hook =>
      have new : sp key.index = .new := ((sound.pending.mem_iff key.index).mp
        (List.mem_map_of_mem (by rw [pending]; exact List.mem_cons_self))).2
      exact still rfl (Config.dispatches_le rfl (by simp [new, Spot.given]))
  | @wake e sp q heap state popped due hook =>
      have blocked : sp q = .blocked := (sound.blocked.pop (blockedLess_total valid _)
        (fun q hq => sound.inside fun h => by cases hq.symm.trans h) popped (z := .ready)
        (by simp)).1
      exact still rfl (Config.dispatches_le rfl (by simp [blocked, Spot.given]))
  | preempt seat runs ran left hook_eq hook => cases whole.symm.trans hook_eq
  | @block e sp c q s heap state seat runs ran used more pushed hook =>
      rw [(sound.startIo_eq valid seat runs used more).2] at still ⊢
      refine still (by simp [burstOver]) fun p => ?_
      unfold Config.dispatches
      by_cases same : p = q
      · subst same
        simp only [seat, Function.update_self, Spot.given]
        omega
      · simp [same]
  | @complete e sp c q s state seat runs ran used last hook =>
      refine still (by simp [finishProcess, burstOver]) fun p => ?_
      unfold Config.dispatches
      by_cases same : p = q
      · subst same
        simp [seat, Spot.given, finishProcess, burstOver]
      · simp [same, finishProcess, burstOver]
  | mark => exact still (by simp [setCore]) fun p => by simp [Config.dispatches, setCore]
  | start seat switching =>
      rw [sound.startRun_eq valid seat switching] at still ⊢
      exact still rfl fun p => le_rfl
  | @pick e sp s state hook early =>
      have ready : sp s.proc = .ready := (sound.pick contract hook early).1
      exact still rfl (Config.dispatches_le rfl (by simp [ready, Spot.given]))
  | refuse => exact still rfl fun p => le_rfl
  | @place e sp c s held core_lt free fits =>
      have phase : (S.placed e c s).phase = e.phase := by
        rw [sound.placed_eq valid hcs held fits]
      have switches : (S.placed e c s).switches ≤ e.switches + 1 := by
        rw [sound.placed_eq valid hcs held fits]
        dsimp only
        split_ifs
        · exact le_rfl
        · exact Int.le_add_one le_rfl
      have hp : s.proc < S.w.len := sound.inside (by simp [held])
      have unserved : (sp s.proc).given = 0 := by
        rw [held]
        rfl
      have given := Config.dispatches_placed hp phase unserved c s
      dsimp only
      omega

/-- Without preemptions there is at most one switch for each burst that was given a core. -/
theorem switches_runInv (valid : S.w.Valid) (hcs : 0 ≤ S.opt.csCost)
    (contract : Contract S.w S.policy PInv) (whole : S.Whole) :
    RunInv S PInv fun a =>
      a.eng.switches ≤ ∑ p ∈ Finset.range S.w.len, (a.dispatches p : Int) where
  init state _ := Finset.sum_nonneg fun p _ => Int.natCast_nonneg _
  move {budget a b} move sound _ _ here := by
    have step := move.switches_dispatches valid hcs contract whole sound
    omega
  advance _ _ _ _ _ here := here

/-- Without preemptions the clock stays below the horizon and the cost of one switch for
each CPU burst. -/
theorem Reached.now_le_of_whole {state : S.policy.State} (launched : Launched S PInv state)
    (whole : S.Whole) {point : LoopPoint} {e : S.Eng} (reached : Reached S state point e) :
    e.now ≤ workloadHorizon S.w + S.w.burstCount * S.opt.csCost := by
  have valid := launched.valid
  have hcs := launched.options.cs_nonneg
  obtain ⟨sp, course, ⟨within, few⟩, spent⟩ := reached.course launched
    (((Within.runInv valid hcs).and
      (switches_runInv valid hcs launched.contract whole)).and (Spent.runInv valid hcs))
  obtain ⟨budget, sound⟩ := course.sound
  have dispatches : ∀ p < S.w.len,
      Config.dispatches ⟨e, sp⟩ p ≤ ((S.w.proc p).phaseCount + 1) / 2 := by
    intro p hp
    have given := Spot.given_le (sp p)
    have phase_lt : e.phase p < (S.w.proc p).phaseCount := by
      by_cases done : sp p = .done
      · have last : e.phase p + 1 = (S.w.proc p).phaseCount := (spent p hp done).1
        omega
      · exact (sound.data.progress p hp done).phase_lt
    unfold Config.dispatches
    dsimp only
    omega
  have bursts : ∑ p ∈ Finset.range S.w.len, (Config.dispatches ⟨e, sp⟩ p : Int) ≤
      S.w.burstCount := by
    unfold Workload.burstCount
    push_cast
    refine Finset.sum_le_sum fun p hp => ?_
    have := dispatches p (Finset.mem_range.mp hp)
    omega
  have switched := mul_le_mul_of_nonneg_right (few.trans bursts) hcs
  have now_le : e.now ≤ S.reach e := within.now_le
  dsimp only at switched
  unfold reach at now_le
  omega

end Moves

/-! ## Whole runs -/

end Sim

/-- The runs of a process are its CPU bursts, each in one piece, with its I/O between
them. -/
structure InOnePiece (proc : Process) (o : ProcOutcome) (busy runs pieces : List Segment) :
    Prop where
  split : pieces.Perm runs
  ordered : pieces.Pairwise fun a b => a.stop ≤ b.start
  bursts : pieces.map Segment.length = proc.cpuBursts
  arrived : ∀ piece ∈ pieces, proc.arrival ≤ piece.start
  io : ∀ {j piece}, pieces[j]? = some piece → 2 * j + 1 < proc.phaseCount →
    ∀ seg ∈ busy, seg.stop ≤ piece.stop ∨ piece.stop + proc.phase (2 * j + 1) ≤ seg.start
  start_eq : ∃ first ∈ pieces.head?, first.start = o.start
  completion_eq : ∃ last ∈ pieces.getLast?, last.stop = o.completion

/-- A process that is served in full in no more runs than it has bursts. -/
theorem ServedInFull.inOnePiece {proc : Process} (valid : proc.Valid) {o : ProcOutcome}
    {busy runs : List Segment} {blocks : List (List Segment)}
    (served : ServedInFull proc o busy runs blocks)
    (few : runs.length ≤ (proc.phaseCount + 1) / 2) :
    ∃ pieces, InOnePiece proc o busy runs pieces := by
  have count : blocks.length = (proc.phaseCount + 1) / 2 := by
    simpa [Process.cpuBursts] using congrArg List.length served.bursts
  -- every block serves a burst, so it is not empty
  have nonempty : ∀ b ∈ blocks, b ≠ [] := by
    rintro b mem rfl
    have zero : (0 : Int) ∈ proc.cpuBursts := by
      rw [← served.bursts]
      exact List.mem_map.mpr ⟨[], mem, rfl⟩
    obtain ⟨j, hj, phase⟩ := List.mem_map.mp zero
    have pos := valid.phase_pos (show 2 * j < proc.phaseCount by
      have := List.mem_range.mp hj
      have := valid.phases_odd
      omega)
    omega
  obtain ⟨pieces, rfl⟩ := exists_singletons nonempty
    (by rw [served.split.length_eq, count]; exact few)
  have flat : (pieces.map fun x => [x]).flatten = pieces := by
    rw [← List.flatMap_def, List.flatMap_singleton']
  obtain ⟨split, ordered, bursts, arrived, io, -, start_eq, completion_eq⟩ := served
  rw [flat] at split ordered arrived start_eq completion_eq
  refine ⟨pieces, split, ordered, ?_, arrived, fun {j piece} here more seg mem => ?_, start_eq,
    completion_eq⟩
  · rw [← bursts, List.map_map]
    exact List.map_congr_left fun piece _ => (by simp)
  · have whole : (pieces.map fun x => [x])[j]? = some [piece] := by simp [here]
    obtain ⟨last, last_eq, rest⟩ := io whole more
    obtain rfl : piece = last := by simpa using last_eq
    exact rest seg mem

namespace Sim

variable {D : Type} [Double D] {S : Sim D}
variable {PInv : SchedView D → S.policy.State → Places → Prop}

/-- In a successful run without preemptions every burst of a process runs in one piece. -/
theorem Launched.inOnePiece {state : S.policy.State} (launched : Launched S PInv state)
    (started : Started S state) (whole : S.Whole) {r : SimResult} (success : S.simRun = .ok r) :
    (∃ e sp, Final S e sp r) ∧ ∀ p < S.w.len, ∃ pieces, InOnePiece (S.w.proc p) (r.outcomes p)
      (busyOf S.opt.cores r.timelines p) (runsOf S.opt.cores r.timelines p) pieces := by
  obtain ⟨e, sp, final, shown⟩ := launched.keeps started success
    (runsShown_runInv launched.valid launched.options.cs_nonneg launched.contract whole)
  refine ⟨⟨e, sp, final⟩, fun p hp => ?_⟩
  obtain ⟨ends, m, life, all, start, completion, bound⟩ := final.life hp
  obtain ⟨blocks, served⟩ := life.servedInFull (final.valid.proc hp) all start completion bound
    fun c hc => final.ordered hc
  refine served.inOnePiece (final.valid.proc hp) ?_
  have shown := shown final.ok p
  have last := (final.spent p hp).1
  have kept : runsShown S.opt.cores r.timelines p ≤ runsShown S.opt.cores e.timelines p := by
    refine Finset.sum_le_sum fun c hc => ?_
    rw [final.timelines c (Finset.mem_range.mp hc), runCount, List.countP_reverse]
    exact runCount_idleRecord _ _
  rw [length_runsOf]
  simp only [Config.bursts, final.done p hp, if_true] at shown
  omega

end Sim

end CpuSched
