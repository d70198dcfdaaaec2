import CpuSched.Engine.Assertions
import CpuSched.Engine.Lives
import CpuSched.Metrics.Core

/-!
# The schedule of a successful run

What the result of `sim_run` says, read chronologically: every timeline covers
the time from the first arrival to the last completion without a gap, every
switch-in stands before the run it is for, and the totals are the sums of the
segments.
-/

namespace CpuSched

/-! ## Timelines in order -/

/-- Two neighbours on a timeline, the earlier first. -/
structure Neighbours (a b : Segment) : Prop where
  touch : a.stop = b.start
  apart : ¬ (a.kind = b.kind ∧ a.proc = b.proc)
  runs : a.kind = .cs → b.kind = .run ∧ b.proc = a.proc

/-- The process of the last run of a chronological timeline. -/
def lastProc (t : List Segment) : Option Nat := lastRun t.reverse

/-- The number of neighbours in a list that differ. -/
def changes : List (Option Nat) → Int
  | a :: b :: rest => (if a = b then 0 else 1) + changes (b :: rest)
  | _ => 0

/-- The processes of the runs of a timeline. -/
def runProcs (t : List Segment) : List (Option Nat) :=
  (t.filter fun seg => seg.kind = .run).map Segment.proc

section Tiled

variable {cs first stop : Int} {l : List Segment}

theorem Tiled.lt (tiled : Tiled cs first l stop) : ∀ seg ∈ l, seg.start < seg.stop := by
  induction tiled with
  | nil => simp
  | cons before lt follows ih =>
      intro seg mem
      rcases List.mem_cons.mp mem with rfl | mem
      · exact lt
      · exact ih seg mem

theorem Tiled.head_stop (tiled : Tiled cs first l stop) : ∀ seg ∈ l.head?, seg.stop = stop := by
  cases tiled with
  | nil => simp
  | cons => simp

theorem Tiled.neighbours (tiled : Tiled cs first l stop) :
    l.IsChain fun later earlier => Neighbours earlier later := by
  induction tiled with
  | nil => exact .nil
  | @cons l seg before lt follows ih =>
      refine List.isChain_cons.mpr ⟨fun last mem => ⟨before.head_stop last mem,
        follows.apart last mem, fun kind_eq => ?_⟩, ih⟩
      cases follows with
      | idle head =>
          have := head last mem
          simp [kind_eq] at this
      | switch _ head => exact absurd kind_eq (head last mem)
      | run fits => exact ⟨rfl, (fits.own last mem kind_eq).symm⟩

theorem Tiled.nil_eq (tiled : Tiled cs first [] stop) : stop = first := by
  cases tiled
  rfl

theorem Tiled.oldest (tiled : Tiled cs first l stop) :
    ∀ seg ∈ l.getLast?, seg.start = first := by
  induction tiled with
  | nil => simp
  | @cons l seg before lt follows ih =>
      intro oldest mem
      cases l with
      | nil =>
          simp only [List.getLast?_singleton, Option.mem_some_iff] at mem
          rw [← mem]
          exact before.nil_eq
      | cons => exact ih oldest (by simpa using mem)

theorem Tiled.idle_iff (tiled : Tiled cs first l stop) :
    ∀ seg ∈ l, seg.proc = none ↔ seg.kind = .idle := by
  induction tiled with
  | nil => simp
  | cons before lt follows ih =>
      intro seg mem
      rcases List.mem_cons.mp mem with rfl | mem
      · cases follows <;> simp
      · exact ih seg mem

theorem Tiled.cs_length (tiled : Tiled cs first l stop) :
    ∀ seg ∈ l, seg.kind = .cs → seg.length = cs := by
  induction tiled with
  | nil => simp
  | cons before lt follows ih =>
      intro seg mem kind_eq
      rcases List.mem_cons.mp mem with rfl | mem
      · cases follows with
        | idle => cases kind_eq
        | switch => simp [Segment.length]
        | run => cases kind_eq
      · exact ih seg mem kind_eq

/-- The total length. -/
theorem Tiled.total (tiled : Tiled cs first l stop) :
    kindTime .run l + kindTime .cs l + kindTime .idle l = stop - first := by
  induction tiled with
  | nil => simp [kindTime, segTime]
  | @cons l seg before lt follows ih =>
      simp only [kindTime, segTime, Segment.length] at ih ⊢
      cases seg.kind <;> simp <;> omega

/-- A run comes after a switch-in exactly if the last run before is of another
process. -/
theorem Tiled.switched (tiled : Tiled cs first l stop) (pos : 0 < cs) {newer older : List Segment}
    {seg : Segment} (split : l = newer ++ seg :: older) (run : seg.kind = .run) :
    (∃ last ∈ older.head?, last.kind = .cs) ↔ ∃ q, lastRun older = some q ∧ seg.proc ≠ some q := by
  induction tiled generalizing newer with
  | nil => simp at split
  | @cons l top before lt follows ih =>
      cases newer with
      | cons n newer => exact ih (List.cons.inj split).2
      | nil =>
          obtain ⟨rfl, rfl⟩ := List.cons.inj split
          cases follows with
          | idle => cases run
          | switch => cases run
          | @run a b p fits =>
              constructor
              · rintro ⟨last, mem, kind_eq⟩
                obtain ⟨rest, timeline⟩ := List.head?_eq_some_iff.mp mem
                subst timeline
                cases before with
                | cons before' lt' follows' =>
                    cases follows' with
                    | idle => cases kind_eq
                    | run => cases kind_eq
                    | @switch a' p' q _ _ last ne =>
                        have own : some p' = some p := fits.own _ mem rfl
                        refine ⟨q, by simpa [lastRun] using last, fun same => ne ?_⟩
                        exact (Option.some.inj (own.trans same)).symm
              · rintro ⟨q, last, ne⟩
                exact fits.charged pos q last fun same => ne (congrArg some same.symm)

end Tiled

theorem segTime_append (f : SegmentKind → Option Nat → Bool) (l l' : List Segment) :
    segTime f (l ++ l') = segTime f l + segTime f l' := by
  induction l with
  | nil => simp [segTime]
  | cons seg rest ih =>
      simp only [List.cons_append, segTime, ih]
      ring

theorem segTime_reverse (f : SegmentKind → Option Nat → Bool) (l : List Segment) :
    segTime f l.reverse = segTime f l := by
  induction l with
  | nil => rfl
  | cons seg rest ih =>
      rw [List.reverse_cons, segTime_append, ih]
      simp [segTime]

theorem changes_append (xs : List (Option Nat)) (a b : Option Nat) :
    changes (xs ++ [a] ++ [b]) = changes (xs ++ [a]) + if a = b then 0 else 1 := by
  induction xs with
  | nil => simp [changes]
  | cons x xs ih =>
      cases xs with
      | nil =>
          simp only [List.nil_append, List.cons_append, changes]
          ring
      | cons y ys =>
          simp only [List.cons_append, changes] at ih ⊢
          rw [ih]
          ring

theorem runProcs_append (t t' : List Segment) : runProcs (t ++ t') = runProcs t ++ runProcs t' := by
  simp [runProcs]

/-- The last run of a well-formed timeline is the last of its runs. -/
theorem getLast?_runProcs {l : List Segment} (runs : ∀ seg ∈ l, seg.kind = .run → seg.proc ≠ none) :
    (runProcs l.reverse).getLast? = (lastRun l).map some := by
  induction l with
  | nil => rfl
  | cons seg rest ih =>
      rw [List.reverse_cons, runProcs_append]
      by_cases run : seg.kind = .run
      · obtain ⟨p, hp⟩ := Option.ne_none_iff_exists'.mp (runs seg List.mem_cons_self run)
        simp [runProcs, run, lastRun, hp]
      · simpa [runProcs, run, lastRun] using ih fun s mem => runs s (List.mem_cons_of_mem _ mem)

/-- The switches shown are the changes between successive runs. -/
theorem switchesIn_eq_changes {l : List Segment}
    (runs : ∀ seg ∈ l, seg.kind = .run → seg.proc ≠ none) :
    switchesIn l = changes (runProcs l.reverse) := by
  induction l with
  | nil => rfl
  | cons seg rest ih =>
      have ih := ih fun s mem => runs s (List.mem_cons_of_mem _ mem)
      rw [switchesIn, List.reverse_cons, runProcs_append, ih]
      by_cases run : seg.kind = .run
      · have single : runProcs [seg] = [seg.proc] := by simp [runProcs, run]
        have last := getLast?_runProcs fun s mem => runs s (List.mem_cons_of_mem seg mem)
        rw [single]
        cases before : lastRun rest with
        | none =>
            rw [before] at last
            rw [List.getLast?_eq_none_iff.mp last]
            simp [changes]
        | some q =>
            rw [before] at last
            obtain ⟨ys, hys⟩ := List.getLast?_eq_some_iff.mp last
            rw [hys, changes_append]
            by_cases same : some q = seg.proc
            · simp [same]
            · simp [run, same]
      · simp [run, runProcs]

/-! ## The last state of a run -/

namespace Sim

variable {D : Type} [Double D] {S : Sim D}
variable {PInv : SchedView D → S.policy.State → Places → Prop}

omit [Double D] in
/-- When every process has completed, there is no next event. -/
theorem Sound.all_done {budget : Int} {a : S.Config} (sound : S.Sound PInv budget a)
    (all : a.eng.completed = S.w.len) : ∀ p < S.w.len, a.spots p = .done := by
  intro p hp
  by_contra unfinished
  have := sound.completed_lt hp unfinished
  omega

/-- A move completes a process now, or no completion changes. -/
theorem Move.completions (valid : S.w.Valid) (hcs : 0 ≤ S.opt.csCost) {budget : Int}
    {a b : S.Config} (move : S.Move a b) (sound : S.Sound PInv budget a) :
    (b.eng.completed = a.eng.completed ∧
      ∀ p, (b.eng.outcomes p).completion = (a.eng.outcomes p).completion) ∨
      ∃ p < S.w.len, (b.eng.outcomes p).completion = b.eng.now := by
  cases move with
  | arrive => exact .inl ⟨rfl, fun _ => rfl⟩
  | wake => exact .inl ⟨rfl, fun _ => rfl⟩
  | pick => exact .inl ⟨rfl, fun _ => rfl⟩
  | refuse => exact .inl ⟨rfl, fun _ => rfl⟩
  | mark => exact .inl ⟨rfl, fun _ => rfl⟩
  | preempt => exact .inl ⟨by simp, fun _ => by simp⟩
  | block seat runs ran used more =>
      rw [(sound.startIo_eq valid seat runs used more).2]
      exact .inl ⟨by simp [burstOver], fun _ => by simp [burstOver]⟩
  | @complete e sp c p s state seat =>
      exact .inr ⟨p, sound.inside (by simp [seat]), by simp [finishProcess, burstOver]⟩
  | @start e sp c p s deadline seat switching =>
      rw [sound.startRun_eq valid seat switching]
      refine .inl ⟨rfl, fun q => ?_⟩
      by_cases hq : q = p
      · subst hq
        simp [startedOutcome]
        split_ifs <;> rfl
      · simp [hq]
  | @place e sp c s held core_lt free fits =>
      rw [sound.placed_eq valid hcs held fits]
      refine .inl ⟨rfl, fun q => ?_⟩
      simp only [placedOutcomes]
      split_ifs
      · rfl
      · by_cases hq : q = s.proc
        · subst hq
          simp [startedOutcome]
          split_ifs <;> rfl
        · simp [hq]

/-- The last completion is now. -/
theorem lastCompletion_runInv (valid : S.w.Valid) (hcs : 0 ≤ S.opt.csCost) :
    RunInv S PInv fun a => a.eng.completed = S.w.len →
      ∃ p < S.w.len, (a.eng.outcomes p).completion = a.eng.now where
  init state _ all := by
    have := valid.nonempty
    simp [initConfig, initEngine] at all
    omega
  move move sound _ _ here all := by
    rcases move.completions valid hcs sound with ⟨same, completion⟩ | now
    · obtain ⟨p, hp, eq⟩ := here (same.symm.trans all)
      exact ⟨p, hp, by rw [completion, eq, move.now_eq]⟩
    · exact now
  advance {budget a t} sound _ event _ _ _ all := by
    have done := sound.all_done all
    have inside : ∀ p, a.spots p ≠ .new → p < S.w.len := fun p known => sound.inside known
    cases event with
    | arrival p hp new => cases new.symm.trans (done p hp)
    | wake p blocked => cases blocked.symm.trans (done p (inside p (by simp [blocked])))
    | slice p c s seat => cases seat.symm.trans (done p (inside p (by simp [seat])))
    | deadline p c s seat => cases seat.symm.trans (done p (inside p (by simp [seat])))

/-- A run that succeeds passed its checks. -/
theorem started_of_ok {r : SimResult} (success : S.simRun = .ok r) : ∃ state, Started S state := by
  unfold simRun at success
  cases validated : workloadValidate S.w with
  | error err => simp [validated] at success
  | ok _ =>
      cases options : S.checkOptions with
      | error err => simp [validated, options] at success
      | ok _ =>
          cases created : S.policy.create S.initView S.params with
          | error err => simp [validated, options, created] at success
          | ok state => exact ⟨state, validated, options, created⟩

/-- What is known of the last state of a successful run. -/
structure Final (S : Sim D) (e : S.Eng) (sp : Nat → Spot) (r : SimResult) : Prop where
  valid : S.w.Valid
  options : OptionsOk S
  lives : Lives S ⟨e, sp⟩
  done : ∀ p < S.w.len, sp p = .done
  free : ∀ c < S.opt.cores, (e.cores c).proc = none
  since : ∀ c < S.opt.cores, (e.cores c).freeSince ≤ e.now
  spent : ∀ p < S.w.len, Spent S e p
  last : ∃ p < S.w.len, (e.outcomes p).completion = e.now
  timelines : ∀ c < S.opt.cores, r.timelines c =
    (idleRecord (e.cores c) e.now (e.timelines c)).reverse
  outcomes : r.outcomes = e.outcomes
  cores : r.cores = S.opt.cores
  firstArrival : r.firstArrival = S.firstArrival
  switches : r.switches = e.switches
  csTime : r.csTime = e.csTime
  ok : e.fail = .ok

/-- What is known of the state a successful run ended in, with what the run keeps. -/
theorem Closed.keeps {PInv : SchedView D → S.policy.State → Places → Prop} {state : S.policy.State}
    {e : S.Eng} {r : SimResult} (closed : Closed S PInv state e r)
    (launched : Launched S PInv state)
    {I : S.Config → Prop} (inv : RunInv S PInv I) : ∃ sp, Final S e sp r ∧ I ⟨e, sp⟩ := by
  have valid := launched.valid
  have hcs := launched.options.cs_nonneg
  obtain ⟨sp, course, ⟨lives, spent, last⟩, kept⟩ := closed.reached.course launched
    (((Lives.runInv valid hcs launched.contract).and
      ((Spent.runInv valid hcs).and (lastCompletion_runInv valid hcs))).and inv)
  obtain ⟨budget, sound⟩ := course.sound
  have done := sound.all_done closed.completed
  exact ⟨sp, ⟨valid, launched.options, lives closed.ok, done, closed.free,
    fun c hc => (sound.cores.free c hc (closed.free c hc)).2,
    fun p hp => spent p hp (done p hp), last closed.completed, closed.timelines,
    closed.outcomes, closed.cores, closed.firstArrival, closed.switches, closed.csTime, closed.ok⟩,
    kept⟩

/-- The last state of a successful run from a start that keeps to a contract, with what
the run keeps. -/
theorem Launched.keeps {PInv : SchedView D → S.policy.State → Places → Prop}
    {state : S.policy.State}
    (launched : Launched S PInv state) (started : Started S state) {r : SimResult}
    (success : S.simRun = .ok r) {I : S.Config → Prop} (inv : RunInv S PInv I) :
    ∃ e sp, Final S e sp r ∧ I ⟨e, sp⟩ := by
  obtain ⟨e, closed⟩ := launched.closed started success
  exact ⟨e, closed.keeps launched inv⟩

/-- The last state of a successful run of a built-in policy, with what the run keeps. -/
theorem simRun_keeps (builtIn : BuiltIn S) {r : SimResult} (success : S.simRun = .ok r)
    {I : S.Config → Prop} (inv : ∀ {PInv}, S.w.Valid → OptionsOk S →
      Contract S.w S.policy PInv → RunInv S PInv I) : ∃ e sp, Final S e sp r ∧ I ⟨e, sp⟩ := by
  obtain ⟨state, started⟩ := started_of_ok success
  obtain ⟨PInv, launched⟩ := started.launched builtIn
  exact launched.keeps started success (inv launched.valid launched.options launched.contract)

/-- The last state of a successful run. -/
theorem simRun_final (builtIn : BuiltIn S) {r : SimResult} (success : S.simRun = .ok r) :
    ∃ e sp, Final S e sp r := by
  obtain ⟨e, sp, final, -⟩ := simRun_keeps builtIn success fun _ _ _ => RunInv.true
  exact ⟨e, sp, final⟩

namespace Final

variable {e : S.Eng} {sp : Nat → Spot} {r : SimResult} (final : Final S e sp r)
include final

omit [Double D] in
theorem lane {c : Nat} (hc : c < S.opt.cores) :
    Lane S.opt.csCost S.firstArrival (e.cores c) (e.timelines c) :=
  final.lives.ledger.lanes c hc

omit [Double D] in
theorem tiled {c : Nat} (hc : c < S.opt.cores) :
    Tiled S.opt.csCost S.firstArrival (r.timelines c).reverse e.now := by
  rw [final.timelines c hc, List.reverse_reverse]
  exact ((final.lane hc).idle (final.free c hc) (final.since c hc)).1

omit [Double D] in
/-- How a completed process has lived. -/
theorem lived {p : Nat} (hp : p < S.w.len) : ∃ ends,
    Lived (S.w.proc p) (Config.track ⟨e, sp⟩ p) ends ∧
      (Config.track ⟨e, sp⟩ p).bursts = (Config.track ⟨e, sp⟩ p).phase / 2 + 1 ∧
      (Config.track ⟨e, sp⟩ p).edge = e.now := by
  obtain ⟨ends, lived⟩ := final.lives.lived p hp
  have done := final.done p hp
  exact ⟨ends, lived, by simp [Track.bursts, Config.track, done],
    by simp [Config.track, Config.edge, done]⟩

omit [Double D] in
/-- Every completion lies after the arrival, and none after the end. -/
theorem completion_bounds {p : Nat} (hp : p < S.w.len) :
    (S.w.proc p).arrival < (r.outcomes p).completion ∧ (r.outcomes p).completion ≤ e.now := by
  obtain ⟨ends, lived, bursts, edge⟩ := final.lived hp
  obtain ⟨completion, -⟩ := lived.finished (final.done p hp)
  obtain ⟨c, seg, here, -, stop_eq⟩ :=
    lived.life.closed (j := (Config.track ⟨e, sp⟩ p).phase / 2) (by omega)
  have := lived.life.pos here
  have := lived.life.bounded here
  rw [final.outcomes]
  have completion : (e.outcomes p).completion = seg.stop := completion.trans stop_eq.symm
  omega

omit [Double D] in
theorem isGreatest_completion :
    IsGreatest {t | ∃ p < S.w.len, (r.outcomes p).completion = t} e.now := by
  constructor
  · obtain ⟨p, hp, eq⟩ := final.last
    exact ⟨p, hp, by rw [final.outcomes, eq]⟩
  · rintro t ⟨p, hp, rfl⟩
    exact (final.completion_bounds hp).2

omit [Double D] in
theorem makespan_eq : metricsMakespan S.w r = e.now := by
  obtain ⟨⟨p, hp, eq⟩, bound⟩ := final.isGreatest_completion
  refine metricsMakespan_eq ?_ ⟨p, hp, eq⟩ fun q hq => bound ⟨q, hq, rfl⟩
  have := (final.completion_bounds hp).1
  have := (final.valid.proc hp).arrival_nonneg
  omega

omit [Double D] in
theorem isLeast_arrival :
    IsLeast {t | ∃ p < S.w.len, (S.w.proc p).arrival = t} S.firstArrival := by
  constructor
  · exact S.exists_firstArrival final.valid
  · rintro t ⟨p, hp, rfl⟩
    exact S.firstArrival_le final.valid hp

omit [Double D] in
theorem firstArrival_lt : S.firstArrival < e.now := by
  have hp := final.valid.nonempty
  have := S.firstArrival_le final.valid hp
  have := final.completion_bounds hp
  omega

end Final

end Sim

/-! ## Contiguous timelines -/

/-- A timeline that covers the time from `first` to `last`. -/
structure TimelineOk (cs first last : Int) (t : List Segment) : Prop where
  nonempty : t ≠ []
  lt : ∀ seg ∈ t, seg.start < seg.stop
  neighbours : t.IsChain Neighbours
  first_eq : ∀ seg ∈ t.head?, seg.start = first
  last_eq : ∀ seg ∈ t.getLast?, seg.stop = last
  idle_iff : ∀ seg ∈ t, seg.proc = none ↔ seg.kind = .idle
  switchIn : ∀ {before seg after}, t = before ++ seg :: after → seg.kind = .cs →
    seg.length = cs ∧ ∃ next ∈ after.head?, next.kind = .run ∧ next.proc = seg.proc

theorem Tiled.timelineOk {cs first last : Int} {t : List Segment}
    (tiled : Tiled cs first t.reverse last) (lt : first < last)
    (head : ∀ seg ∈ t.reverse.head?, seg.kind ≠ .cs) : TimelineOk cs first last t := by
  have neighbours : t.IsChain Neighbours := List.isChain_reverse.mp (by
    simpa using tiled.neighbours)
  refine ⟨?_, fun seg mem => tiled.lt seg (by simpa using mem), neighbours, fun seg mem =>
    tiled.oldest seg (by simpa using mem), fun seg mem => tiled.head_stop seg (by simpa using mem),
    fun seg mem => tiled.idle_iff seg (by simpa using mem), ?_⟩
  · rintro rfl
    exact lt.ne tiled.nil_eq.symm
  · rintro before seg after rfl kind_eq
    refine ⟨tiled.cs_length seg (by simp) kind_eq, ?_⟩
    cases after with
    | nil => exact absurd kind_eq (head seg (by simp))
    | cons next after =>
        have here := (List.isChain_append.mp neighbours).2.1
        exact ⟨next, rfl, ((List.isChain_cons_cons.mp here).1.runs kind_eq)⟩

namespace Sim

variable {D : Type} [Double D] {S : Sim D}

/-- Every timeline of a successful run of a built-in policy covers the time from
the earliest arrival to the latest completion: its segments are not empty and
touch, no two neighbours could be merged, the idle ones are those of no process,
and every switch-in lasts its cost and is followed by the run of its process. -/
theorem simRun_timelines (builtIn : BuiltIn S) {r : SimResult} (success : S.simRun = .ok r) :
    ∃ first last, IsLeast {t | ∃ p < S.w.len, (S.w.proc p).arrival = t} first ∧
      IsGreatest {t | ∃ p < S.w.len, (r.outcomes p).completion = t} last ∧
      ∀ c < S.opt.cores, TimelineOk S.opt.csCost first last (r.timelines c) := by
  obtain ⟨e, sp, final⟩ := simRun_final builtIn success
  refine ⟨S.firstArrival, e.now, final.isLeast_arrival, final.isGreatest_completion, fun c hc =>
    (final.tiled hc).timelineOk final.firstArrival_lt ?_⟩
  rw [final.timelines c hc, List.reverse_reverse]
  exact ((final.lane hc).idle (final.free c hc) (final.since c hc)).2.1

/-- The timelines of the three processes are in order, from 0 to 8 on both cores. -/
theorem trioSim_timelines : ∃ r, trioSim.simRun = .ok r ∧ TrioSchedule r ∧
    ∀ c < 2, TimelineOk 1 0 8 (r.timelines c) := by
  obtain ⟨r, success, seen⟩ := trioSim_succeeds
  obtain ⟨first, last, -, -, ok⟩ := simRun_timelines trioSim_builtIn success
  have bounds := ok 0 two_pos
  have starts : 0 = first := bounds.first_eq _ (by rw [seen.first]; rfl)
  have ends : 8 = last := bounds.last_eq _ (by rw [seen.first]; rfl)
  exact ⟨r, success, seen, fun c hc => by rw [starts, ends]; exact ok c hc⟩

/-! ## The totals -/

/-- The switches and the time of a schedule on `cores` cores that took from `first`
to `last`. -/
structure AccountsOk (cs : Int) (cores : Nat) (first last work : Int) (r : SimResult) : Prop where
  csTime_eq : r.csTime = ∑ c ∈ Finset.range cores, kindTime .cs (r.timelines c)
  charged : r.csTime = r.switches * cs
  switches_eq : r.switches = ∑ c ∈ Finset.range cores, changes (runProcs (r.timelines c))
  /-- A switch-in stands before exactly the runs that follow one of another
  process. -/
  switchIn : 0 < cs → ∀ c < cores, ∀ {before seg after}, r.timelines c = before ++ seg :: after →
    seg.kind = .run → ((∃ last ∈ before.getLast?, last.kind = .cs ∧ last.length = cs) ↔
      ∃ q, lastProc before = some q ∧ seg.proc ≠ some q)
  capacity : cores * (last - first) = ∑ c ∈ Finset.range cores, kindTime .run (r.timelines c) +
    ∑ c ∈ Finset.range cores, kindTime .cs (r.timelines c) +
    ∑ c ∈ Finset.range cores, kindTime .idle (r.timelines c)
  work_eq : ∑ c ∈ Finset.range cores, kindTime .run (r.timelines c) = work

theorem kindTime_reverse (k : SegmentKind) (l : List Segment) :
    kindTime k l.reverse = kindTime k l := segTime_reverse _ l

theorem kindTime_idleRecord {k : SegmentKind} (notIdle : k ≠ .idle) {core : Core} {now : Int}
    (since : core.freeSince ≤ now) (l : List Segment) :
    kindTime k (idleRecord core now l) = kindTime k l := by
  rw [kindTime, idleRecord, segTime_record _ since]
  simp [notIdle.symm]

/-- The totals of a successful run of a built-in policy can be read off its
timelines. -/
theorem simRun_accounts (builtIn : BuiltIn S) {r : SimResult} (success : S.simRun = .ok r) :
    AccountsOk S.opt.csCost S.opt.cores r.firstArrival (metricsMakespan S.w r)
      (∑ p ∈ Finset.range S.w.len, (S.w.proc p).burst) r := by
  obtain ⟨e, sp, final⟩ := simRun_final builtIn success
  obtain ⟨ledger, -⟩ := final.lives
  have kept : ∀ {k : SegmentKind}, k ≠ .idle → ∀ c ∈ Finset.range S.opt.cores,
      kindTime k (r.timelines c) = kindTime k (e.timelines c) := by
    intro k notIdle c hc
    rw [final.timelines c (Finset.mem_range.mp hc), kindTime_reverse,
      kindTime_idleRecord notIdle (final.since c (Finset.mem_range.mp hc))]
  have csShown : ∑ c ∈ Finset.range S.opt.cores, kindTime .cs (r.timelines c) = r.csTime := by
    rw [Finset.sum_congr rfl (kept (by simp)), final.csTime]
    exact ledger.csShown
  constructor
  case csTime_eq => exact csShown.symm
  case charged =>
    rw [final.csTime, final.switches]
    exact ledger.csTime_eq
  case switches_eq =>
    rw [final.switches]
    have switches_eq : e.switches = _ := ledger.switches_eq
    rw [switches_eq]
    refine Finset.sum_congr rfl fun c hc => ?_
    have hc := Finset.mem_range.mp hc
    have pending : pendingSwitch (e.cores c) (e.timelines c) = 0 := by
      simp [pendingSwitch, final.free c hc]
    have tiled := final.tiled hc
    have shown := switchesIn_eq_changes (l := (r.timelines c).reverse) fun seg mem run none => by
      cases run.symm.trans ((tiled.idle_iff seg mem).mp none)
    rw [List.reverse_reverse] at shown
    rw [← shown, final.timelines c hc, List.reverse_reverse, idleRecord,
      switchesIn_record (by simp), pending, add_zero]
  case switchIn =>
    intro pos c hc before seg after split run
    have tiled := final.tiled hc
    have split' : (r.timelines c).reverse = after.reverse ++ seg :: before.reverse := by
      simp [split]
    have switched := tiled.switched pos split' run
    rw [List.head?_reverse] at switched
    rw [lastProc, ← switched]
    constructor
    · rintro ⟨last, mem, kind_eq, -⟩
      exact ⟨last, mem, kind_eq⟩
    · rintro ⟨last, mem, kind_eq⟩
      refine ⟨last, mem, kind_eq, tiled.cs_length last ?_ kind_eq⟩
      rw [split']
      simp [List.mem_of_getLast? mem]
  case capacity =>
    rw [final.firstArrival, final.makespan_eq, ← Finset.sum_add_distrib, ← Finset.sum_add_distrib]
    have each : ∀ c ∈ Finset.range S.opt.cores, kindTime .run (r.timelines c) +
        kindTime .cs (r.timelines c) + kindTime .idle (r.timelines c) = e.now - S.firstArrival := by
      intro c hc
      have total := (final.tiled (Finset.mem_range.mp hc)).total
      simpa only [kindTime_reverse] using total
    rw [Finset.sum_congr rfl each, Finset.sum_const, Finset.card_range]
    simp
  case work_eq =>
    rw [Finset.sum_congr rfl (kept (by simp))]
    exact ledger.allRuns.trans (Finset.sum_congr rfl fun p hp =>
      (final.spent p (Finset.mem_range.mp hp)).2)

/-- The totals of the run of the three processes, with three switches. -/
theorem trioSim_accounts : ∃ r, trioSim.simRun = .ok r ∧ r.switches = 3 ∧
    r.csTime = 3 ∧ AccountsOk 1 2 0 (metricsMakespan trioWorkload r) 9 r := by
  obtain ⟨r, success, seen⟩ := trioSim_succeeds
  have accounts := simRun_accounts trioSim_builtIn success
  have work : ∑ p ∈ Finset.range trioSim.w.len,
      (trioSim.w.proc p).burst = 9 := rfl
  rw [work, seen.firstArrival] at accounts
  exact ⟨r, success, seen.switches, seen.csTime, accounts⟩

end Sim

end CpuSched
