import CpuSched.Engine.Service

/-!
# Work conservation

Under an online policy no core is idle while a process is ready.  The ticks before
`now` are settled: on every core some process is recorded or still on it, or every
process was somewhere else than in the ready set.
-/

namespace CpuSched

/-! ## Occupied ticks -/

section Record

variable {l : List Segment} {a b t : Int} {r : Option Nat} {k : SegmentKind} {q : Option Nat}

/-- A segment of `q` covers the tick from `t`. -/
def CoveredBy (q : Option Nat) (l : List Segment) (t : Int) : Prop :=
  ∃ seg ∈ l, seg.proc = q ∧ seg.start ≤ t ∧ t < seg.stop

/-- What is covered stays covered. -/
theorem CoveredBy.record (covered : CoveredBy q l t) : CoveredBy q (record l a b r k) t := by
  obtain ⟨seg, mem, own, le, lt⟩ := covered
  cases l with
  | nil => simp at mem
  | cons last rest =>
      simp only [CpuSched.record]
      split_ifs with empty merge
      · exact ⟨seg, mem, own, le, lt⟩
      · rcases List.mem_cons.mp mem with rfl | mem
        · exact ⟨{ seg with stop := b }, List.mem_cons_self, own, le, by dsimp only; omega⟩
        · exact ⟨seg, List.mem_cons_of_mem _ mem, own, le, lt⟩
      · exact ⟨seg, List.mem_cons_of_mem _ mem, own, le, lt⟩

/-- The recorded interval is covered. -/
theorem coveredBy_record (le : a ≤ t) (lt : t < b) (pos : ∀ seg ∈ l, seg.start < seg.stop) :
    CoveredBy r (record l a b r k) t := by
  cases l with
  | nil => exact ⟨⟨a, b, r, k⟩, by simp [record, (le.trans_lt lt).not_ge], rfl, le, lt⟩
  | cons last rest =>
      simp only [record, (le.trans_lt lt).not_ge, if_false]
      split_ifs with merge
      · have := pos last List.mem_cons_self
        exact ⟨{ last with stop := b }, List.mem_cons_self, merge.2.1, by dsimp only; omega, lt⟩
      · exact ⟨⟨a, b, r, k⟩, List.mem_cons_self, rfl, le, lt⟩

end Record

/-- Process `p` occupies a core during the tick from `t`: the tick is recorded, or the
process is still there. -/
def Occupied (core : Core) (l : List Segment) (p : Nat) (t : Int) : Prop :=
  CoveredBy (some p) l t ∨ (core.proc = some p ∧ frontier core ≤ t)

/-- Every burst end of `p` at `e` stays one. -/
structure KeepsEnd (p : Nat) (e : Int) (l l' : List Segment) : Prop where
  stops : ∀ seg ∈ l, seg.kind = .run → seg.proc = some p → seg.stop = e → seg ∈ l'
  ran_eq : ranBefore p e l' = ranBefore p e l

section KeepsEnd

variable {l l' l'' : List Segment} {p : Nat} {e a b : Int} {r : Option Nat} {k : SegmentKind}

theorem KeepsEnd.refl : KeepsEnd p e l l := ⟨fun _ mem _ _ _ => mem, rfl⟩

theorem KeepsEnd.trans (first : KeepsEnd p e l l') (then_ : KeepsEnd p e l' l'') :
    KeepsEnd p e l l'' :=
  ⟨fun seg mem run own stop => then_.stops seg (first.stops seg mem run own stop) run own stop,
    then_.ran_eq.trans first.ran_eq⟩

/-- A burst end stays when the interval starts later, or is no run of `p`. -/
theorem keepsEnd_record (later : e < a ∨ r ≠ some p ∨ (k ≠ .run ∧ e ≤ a)) :
    KeepsEnd p e l (record l a b r k) := by
  constructor
  · intro seg mem run own stop
    rcases le_or_gt b a with le | lt
    · rwa [record_of_le le]
    · rcases mem_record_of_mem (r := r) (k := k) lt mem with h | ⟨kind_eq, proc_eq, stop_eq, -⟩
      · exact h
      · rcases later with lt | other | ⟨noRun, -⟩
        · omega
        · exact absurd (proc_eq.symm.trans own) other
        · exact absurd (kind_eq.symm.trans run) noRun
  · rcases later with lt | other | ⟨-, le⟩
    · exact ranBefore_record (.inl lt.le)
    · exact ranBefore_record (.inr other)
    · exact ranBefore_record (.inl le)

end KeepsEnd

theorem BurstEnds.keep {proc : Process} {n : Nat} {timelines timelines' : Nat → List Segment}
    {p j : Nat} {e : Int} (burst : BurstEnds proc n timelines p j e)
    (keeps : ∀ c < n, KeepsEnd p e (timelines c) (timelines' c)) :
    BurstEnds proc n timelines' p j e := by
  obtain ⟨⟨seg, mem, stop_eq⟩, ran⟩ := burst
  obtain ⟨⟨c, hc, mem, own⟩, run⟩ := mem_runsOf.mp mem
  refine ⟨⟨seg, mem_runsOf.mpr ⟨⟨c, hc, (keeps c hc).stops seg mem run own stop_eq, own⟩, run⟩,
    stop_eq⟩, ran ▸ ?_⟩
  exact Finset.sum_congr rfl fun c hc => (keeps c (Finset.mem_range.mp hc)).ran_eq

/-- A switch-in that was dispatched within its cost covers the ticks up to its end. -/
theorem Lane.switching_covers {cs first now t : Int} {core : Core} {l : List Segment}
    (lane : Lane cs first core l) {p : Nat} (on : core.proc = some p)
    (switching : core.inCs = true) (since : core.busyUntil ≤ now + cs) (le : now ≤ t)
    (lt : t < core.busyUntil) : CoveredBy (some p) l t := by
  cases lane.tail with
  | @switching a q rest on' _ timeline =>
      obtain rfl := Option.some.inj (on.symm.trans on')
      have length := lane.tiled.cs_length _ (by rw [timeline]; exact List.mem_cons_self) rfl
      simp only [Segment.length] at length
      exact ⟨_, by rw [timeline]; exact List.mem_cons_self, rfl, by dsimp only; omega, lt⟩
  | unused free => cases free.symm.trans on
  | ran free => cases free.symm.trans on
  | goesOn _ runs => cases switching.symm.trans runs
  | fresh _ runs => cases switching.symm.trans runs

section CoreStep

variable {cs now t : Int} {core core' : Core} {l l' : List Segment} {sw : Int}
  {charged : Nat → Int} {p : Nat}

/-- A tick before now stays occupied. -/
theorem CoreStep.occupied (step : CoreStep cs now core l core' l' sw charged)
    (pos : ∀ seg ∈ l, seg.start < seg.stop) (lt : t < now) (occupied : Occupied core l p t) :
    Occupied core' l' p t := by
  cases step with
  | start on switching elapsed on' runs start_eq =>
      rcases occupied with covered | ⟨-, le⟩
      · exact .inl covered
      · simp only [frontier, on, switching, if_true, reduceCtorEq, if_false] at le
        omega
  | @leave _ _ q on runs ran free since context =>
      rcases occupied with covered | ⟨own, le⟩
      · exact .inl covered.record
      · obtain rfl := Option.some.inj (on.symm.trans own)
        have le : core.runStart ≤ t := by simpa [frontier, on, runs] using le
        exact .inl (coveredBy_record le lt pos)
  | enter free since gratis on runs start_eq =>
      rcases occupied with covered | ⟨own, -⟩
      · exact .inl covered.record
      · cases free.symm.trans own
  | switch free since pos' switches on switching busy_eq =>
      rcases occupied with covered | ⟨own, -⟩
      · exact .inl covered.record.record
      · cases free.symm.trans own

/-- A burst end before now stays one, unless the run that now ends started there. -/
theorem CoreStep.keepsEnd (step : CoreStep cs now core l core' l' sw charged) (lt : t < now)
    (later : core.proc = some p → core.inCs = false → t < core.runStart) : KeepsEnd p t l l' := by
  cases step with
  | start => exact .refl
  | @leave _ _ q on runs =>
      by_cases same : q = p
      · subst same
        exact keepsEnd_record (.inl (later on runs))
      · exact keepsEnd_record (.inr (.inl fun h => same (Option.some.inj h)))
  | enter => exact keepsEnd_record (.inr (.inl (by simp)))
  | switch =>
      exact (keepsEnd_record (.inr (.inl (by simp)))).trans
        (keepsEnd_record (.inr (.inr ⟨by simp, lt.le⟩)))

end CoreStep

namespace Sim

variable {D : Type} {S : Sim D}
variable {PInv : SchedView D → S.policy.State → Places → Prop} {budget : Int}

/-- Process `p` is in the I/O phase after a finished burst during the tick from `t`. -/
def Rests (S : Sim D) (e : S.Eng) (p : Nat) (t : Int) : Prop :=
  ∃ j stop, 2 * j + 2 ≤ e.phase p ∧ BurstEnds (S.w.proc p) S.opt.cores e.timelines p j stop ∧
    stop ≤ t ∧ t < stop + (S.w.proc p).ioPhase j

/-- During the tick from `t` process `p` is not ready. -/
inductive Away (a : S.Config) (p : Nat) (t : Int) : Prop
  | early (before : t < (S.w.proc p).arrival)
  | completed (spot : a.spots p = .done) (le : (a.eng.outcomes p).completion ≤ t)
  | rests (rests : Rests S a.eng p t)
  | occupies (c : Nat) (lt : c < S.opt.cores)
      (occupied : Occupied (a.eng.cores c) (a.eng.timelines c) p t)

/-- A switch-in ends by `limit`. -/
def SwitchBy (limit : Int) (core : Core) : Prop := core.inCs = true → core.busyUntil ≤ limit

/-- No tick before now was wasted. -/
def NoWaste (a : S.Config) : Prop :=
  ∀ t < a.eng.now, ∀ c < S.opt.cores,
    (∃ p, Occupied (a.eng.cores c) (a.eng.timelines c) p t) ∨ ∀ p < S.w.len, Away a p t

section Steps

variable {a b : S.Config}

/-- A tick stays occupied. -/
theorem Effect.occupied {e e' : S.Eng} (effect : Effect e e') (ledger : Ledger S e) {c p : Nat}
    (hc : c < S.opt.cores) {t : Int} (lt : t < e.now)
    (occupied : Occupied (e.cores c) (e.timelines c) p t) :
    Occupied (e'.cores c) (e'.timelines c) p t := by
  cases effect with
  | quiet cores timelines =>
      rw [timelines]
      rcases cores c with same | same
      · rwa [same]
      · rw [same]
        exact occupied
  | @step c' sw charged _ on cores timelines =>
      by_cases same : c = c'
      · subst same
        exact on.occupied (ledger.lanes c hc).tiled.lt lt occupied
      · rwa [cores c same, timelines c same]

/-- A process that is on a core after a burst has had its I/O. -/
theorem Lives.end_lt (valid : S.w.Valid) {e : S.Eng} {sp : Nat → Spot}
    (sound : S.Sound PInv budget ⟨e, sp⟩) (lives : Lives S ⟨e, sp⟩) {c p j : Nat} {t : Int}
    (hc : c < S.opt.cores) (finished : 2 * j + 2 ≤ e.phase p)
    (burst : BurstEnds (S.w.proc p) S.opt.cores e.timelines p j t)
    (on : (e.cores c).proc = some p) (runs : (e.cores c).inCs = false) :
    t < (e.cores c).runStart := by
  obtain ⟨s, seat⟩ := sound.cores.owner c hc p on
  have seat : sp p = .core c s := seat
  have hp : p < S.w.len := sound.inside (by simp [seat])
  obtain ⟨ends, lived⟩ := lives.lived p hp
  have bursts : (Config.track ⟨e, sp⟩ p).bursts = e.phase p / 2 := by
    simp [Track.bursts, Config.track, seat]
  have edge : (Config.track ⟨e, sp⟩ p).edge = (e.cores c).runStart := by
    simp [Config.track, Config.edge, seat, frontier, on, runs]
  have hj : j < (Config.track ⟨e, sp⟩ p).bursts := by omega
  have life : Life (S.w.proc p) (trailOf S.opt.cores e.timelines p)
    (ranOf S.opt.cores e.timelines p) ends _ _ := lived.life
  obtain rfl := (life.burstEnds_iff hj).mp burst
  have rested := lived.rested (by simp [Config.track, seat]) (by simp [Config.track, seat]) j hj
  have := sound.ioPhase_pos valid hp (by simp [seat]) j (by omega)
  omega

/-- A process that was resting then, was resting. -/
theorem Effect.rests (valid : S.w.Valid) {e e' : S.Eng} {sp : Nat → Spot} (effect : Effect e e')
    (sound : S.Sound PInv budget ⟨e, sp⟩) (lives : Lives S ⟨e, sp⟩) {p : Nat} {t : Int}
    (lt : t < e.now) (phase_le : e.phase p ≤ e'.phase p) (rests : Rests S e p t) :
    Rests S e' p t := by
  obtain ⟨j, stop, finished, burst, le, before⟩ := rests
  refine ⟨j, stop, finished.trans phase_le, burst.keep fun c hc => ?_, le, before⟩
  cases effect with
  | quiet cores timelines =>
      rw [timelines]
      exact .refl
  | @step c' sw charged _ on cores timelines =>
      by_cases same : c = c'
      · subst same
        exact on.keepsEnd (by omega) fun on runs =>
          lives.end_lt valid sound hc finished burst on runs
      · rw [timelines c same]
        exact .refl

variable [Double D]

/-- No process goes back to an earlier phase, and a completion is final. -/
theorem Move.onward (valid : S.w.Valid) (hcs : 0 ≤ S.opt.csCost)
    (contract : Contract S.w S.policy PInv) (move : S.Move a b)
    (sound : S.Sound PInv budget a) (p : Nat) : a.eng.phase p ≤ b.eng.phase p ∧
      (a.spots p = .done → b.spots p = .done ∧
        (b.eng.outcomes p).completion = (a.eng.outcomes p).completion) := by
  have stays : ∀ {q : Nat} {z : Spot}, a.spots q ≠ .done → a.spots p = .done →
      Function.update a.spots q z p = .done := by
    intro q z active done
    rw [Function.update_of_ne]
    · exact done
    · rintro rfl
      exact active done
  cases move with
  | @arrive e sp key rest state pending due hook =>
      have new : sp key.index = .new := ((sound.pending.mem_iff key.index).mp (by simp [pending])).2
      exact ⟨le_rfl, fun done => ⟨stays (by simp [new]) done, rfl⟩⟩
  | @wake e sp q heap state popped due hook =>
      have blocked : sp q = .blocked := (sound.blocked.pop (blockedLess_total valid _)
        (fun q hq => sound.inside fun h => by cases hq.symm.trans h) popped (z := .ready)
        (by simp)).1
      exact ⟨le_rfl, fun done => ⟨stays (by simp [blocked]) done, rfl⟩⟩
  | preempt seat => exact ⟨by simp, fun done => ⟨stays (by simp [seat]) done, by simp⟩⟩
  | @block e sp c q s heap state seat runs ran used more =>
      rw [(sound.startIo_eq valid seat runs used more).2]
      refine ⟨?_, fun done => ⟨stays (by simp [seat]) done, by simp [burstOver]⟩⟩
      by_cases same : p = q
      · subst same
        simp
      · simp [same]
  | @complete e sp c q s state seat =>
      refine ⟨by simp [finishProcess, burstOver], fun done => ⟨stays (by simp [seat]) done, ?_⟩⟩
      have other : p ≠ q := by
        rintro rfl
        cases seat.symm.trans done
      simp [finishProcess, burstOver, other]
  | mark => exact ⟨le_rfl, fun done => ⟨done, rfl⟩⟩
  | @start e sp c q s deadline seat switching =>
      rw [sound.startRun_eq valid seat switching]
      refine ⟨le_rfl, fun done => ⟨done, ?_⟩⟩
      by_cases same : p = q
      · subst same
        simp
      · simp [same]
  | pick hook early =>
      have ready := (sound.pick contract hook early).1
      exact ⟨le_rfl, fun done => ⟨stays (by simp [ready]) done, rfl⟩⟩
  | refuse => exact ⟨le_rfl, fun done => ⟨done, rfl⟩⟩
  | @place e sp c s held core_lt free fits =>
      rw [sound.placed_eq valid hcs held fits]
      refine ⟨le_rfl, fun done => ⟨stays (by simp [held]) done, ?_⟩⟩
      simp only [placedOutcomes]
      split_ifs
      · rfl
      · by_cases same : p = s.proc
        · subst same
          simp
        · simp [same]

/-- What a move keeps of the ticks before now. -/
theorem NoWaste.move (valid : S.w.Valid) (hcs : 0 ≤ S.opt.csCost)
    (contract : Contract S.w S.policy PInv) (move : S.Move a b) (sound : S.Sound PInv budget a)
    (ok : b.eng.fail = .ok) (lives : Lives S a) (noWaste : NoWaste a) : NoWaste b := by
  obtain ⟨-, effect⟩ := move.effect valid hcs sound ok
  intro t lt c hc
  rw [move.now_eq] at lt
  have stays : ∀ {c p}, c < S.opt.cores → Occupied (a.eng.cores c) (a.eng.timelines c) p t →
      Occupied (b.eng.cores c) (b.eng.timelines c) p t := fun hc occupied =>
    effect.occupied lives.ledger hc lt occupied
  rcases noWaste t lt c hc with ⟨p, occupied⟩ | away
  · exact .inl ⟨p, stays hc occupied⟩
  · refine .inr fun p hp => ?_
    obtain ⟨phase_le, done⟩ := move.onward valid hcs contract sound p
    cases away p hp with
    | early before => exact .early before
    | completed spot le =>
        obtain ⟨spot', same⟩ := done spot
        exact .completed spot' (same ▸ le)
    | rests rests => exact .rests (effect.rests valid sound lives lt phase_le rests)
    | occupies c' lt occupied => exact .occupies c' lt (stays lt occupied)

/-- No switch-in takes longer than its cost. -/
theorem switchSince_runInv (valid : S.w.Valid) (hcs : 0 ≤ S.opt.csCost) :
    RunInv S PInv fun a => ∀ c, OnCore (SwitchBy (a.eng.now + S.opt.csCost)) c a where
  init state _ c p s h := by cases h
  move {budget a b} move sound _ _ here c := by
    rw [move.now_eq]
    refine move.onCore valid hcs sound (fun core h => h)
      (fun core rem _ _ _ h => by simp [startedCore] at h) (fun core _ _ _ => le_rfl) (here c)
  advance _ _ _ _ gt here c p s seat switching := by
    exact (here c p s seat switching).trans (by simp only [later]; omega)

omit [Double D] in
/-- The clock skips no tick at which a core could have been used. -/
theorem NoWaste.advance (online : S.policy.workConserving = true) {t' : Int}
    (sound : S.Sound PInv budget a) (dispatched : Dispatched a)
    (first : ∀ {t''}, EventAt a t'' → t' ≤ t'')
    (since : ∀ c, OnCore (SwitchBy (a.eng.now + S.opt.csCost)) c a)
    (lives : Lives S a) (noWaste : NoWaste a) : NoWaste (later a t') := by
  intro t lt c hc
  have keep : ∀ {p}, Away a p t → Away (later a t') p t := fun away => by
    cases away with
    | early before => exact .early before
    | completed spot le => exact .completed spot le
    | rests rests => exact .rests rests
    | occupies c lt occupied => exact .occupies c lt occupied
  rcases lt_or_ge t a.eng.now with past | now_le
  · exact (noWaste t past c hc).imp id fun away p hp => keep (away p hp)
  have seated : ∀ {c p s}, a.spots p = .core c s → c < S.opt.cores ∧
      Occupied (a.eng.cores c) (a.eng.timelines c) p t := by
    intro c p s seat
    obtain ⟨hc, hs, here⟩ := sound.cores.seat p c s seat
    have on : (a.eng.cores c).proc = some p := here.proc_eq.trans (congrArg some hs)
    refine ⟨hc, ?_⟩
    by_cases switching : (a.eng.cores c).inCs = true
    · refine .inl ((lives.ledger.lanes c hc).switching_covers on switching
        (since c p s seat switching) now_le ?_)
      exact lt.trans_le (first (.slice p c s seat rfl))
    · have runs : (a.eng.cores c).inCs = false := by simpa using switching
      have := (here.running runs).1
      refine .inr ⟨on, ?_⟩
      simp only [frontier, on, runs, reduceCtorEq, if_false]
      omega
  by_cases free : (a.eng.cores c).proc = none
  · have idle := (dispatched.offered ⟨c, hc, free⟩).resolve_right fun h => by
      cases online.symm.trans h.1
    refine .inr fun p hp => keep ?_
    cases spot : a.spots p with
    | new => exact .early (lt.trans_le (first (.arrival p hp spot rfl)))
    | ready => exact absurd spot (idle p)
    | held s => exact absurd spot (dispatched.noneHeld p s)
    | core c' s => exact .occupies c' (seated spot).1 (seated spot).2
    | blocked =>
        obtain ⟨ends, lived⟩ := lives.lived p hp
        obtain ⟨j, bursts, wake, ended⟩ := lived.resting spot
        have hj : 2 * j + 2 ≤ a.eng.phase p := by
          simp only [Track.bursts, Config.track, spot, reduceCtorEq, if_false, add_zero] at bursts
          omega
        have burst := (lived.life.burstEnds_iff (by omega)).mpr (rfl : ends j = ends j)
        have wake : a.eng.wake p = ends j + (S.w.proc p).ioPhase j := wake
        have ended : ends j ≤ a.eng.now := ended
        refine .rests ⟨j, ends j, hj, burst, by omega, ?_⟩
        rw [← wake]
        exact lt.trans_le (first (.wake p spot rfl))
    | done =>
        obtain ⟨ends, lived⟩ := lives.lived p hp
        obtain ⟨completion, -⟩ := lived.finished spot
        obtain ⟨c', seg, here, -, stop_eq⟩ := lived.life.closed
          (j := (a.track p).phase / 2) (by simp [Track.bursts, Config.track, spot])
        have bound := (lived.life.bounded here).2
        have edge : (a.track p).edge = a.eng.now := by simp [Config.track, Config.edge, spot]
        have completion : (a.eng.outcomes p).completion = seg.stop := completion.trans stop_eq.symm
        exact .completed spot (by omega)
  · obtain ⟨q, on⟩ := Option.ne_none_iff_exists'.mp free
    obtain ⟨s, seat⟩ := sound.cores.owner c hc q on
    exact .inl ⟨q, (seated seat).2⟩

theorem NoWaste.runInv (valid : S.w.Valid) (hcs : 0 ≤ S.opt.csCost)
    (contract : Contract S.w S.policy PInv) (online : S.policy.workConserving = true) :
    RunInv S PInv fun a => (∀ c, OnCore (SwitchBy (a.eng.now + S.opt.csCost)) c a) ∧
        (a.eng.fail = .ok → Lives S a ∧ NoWaste a) where
  init state start := by
    refine ⟨(switchSince_runInv valid hcs).init state start, fun _ => ⟨Lives.init state, ?_⟩⟩
    intro t lt c hc
    refine .inr fun p hp => .early (lt.trans_le ?_)
    exact S.firstArrival_le valid hp
  move move sound paid clock here := by
    refine ⟨(switchSince_runInv valid hcs).move move sound paid clock here.1, fun ok => ?_⟩
    obtain ⟨lives, noWaste⟩ := here.2 (move.effect valid hcs sound ok).1
    exact ⟨(Lives.runInv valid hcs contract).move move sound paid clock (fun _ => lives) ok,
      noWaste.move valid hcs contract move sound ok lives⟩
  advance sound dispatched event first gt here := by
    refine ⟨(switchSince_runInv valid hcs).advance sound dispatched event first gt here.1,
      fun ok => ?_⟩
    obtain ⟨lives, noWaste⟩ := here.2 ok
    exact ⟨lives.advance gt.le, noWaste.advance online sound dispatched first here.1 lives⟩

end Steps

/-! ## Successful runs -/

/-- During the tick from `t` the core with this timeline is idle. -/
def IdleDuring (timeline : List Segment) (t : Int) : Prop :=
  ∀ seg ∈ timeline, seg.start ≤ t → t < seg.stop → seg.kind = .idle

/-- During the tick from `t` process `p` is ready: it has arrived and not completed, is
not in I/O, and neither runs nor is switched in. -/
structure ReadyDuring (proc : Process) (o : ProcOutcome) (n : Nat)
    (timelines : Nat → List Segment) (p : Nat) (t : Int) : Prop where
  arrived : proc.arrival ≤ t
  unfinished : t < o.completion
  noIo : ¬ InIo proc n timelines p t
  offCores : ¬ Covers Segment.start Segment.stop (busyOf n timelines p) t

variable [Double D]

omit [Double D] in
theorem Final.covered {e : S.Eng} {sp : Nat → Spot} {r : SimResult} (final : Final S e sp r)
    {c p : Nat} {t : Int} (hc : c < S.opt.cores)
    (occupied : Occupied (e.cores c) (e.timelines c) p t) : CoveredBy (some p)
      (r.timelines c) t := by
  rcases occupied with ⟨seg, mem, own, le, lt⟩ | ⟨on, -⟩
  · exact ⟨seg, ((final.same p c hc).mem_iff seg own).mpr mem, own, le, lt⟩
  · cases (final.free c hc).symm.trans on

omit [Double D] in
/-- Where no core wastes time, none is idle while a process is ready. -/
theorem Final.notIdle {e : S.Eng} {sp : Nat → Spot} {r : SimResult} (final : Final S e sp r)
    (noWaste : NoWaste ⟨e, sp⟩) {p : Nat} (hp : p < S.w.len) {t : Int}
    (ready : ReadyDuring (S.w.proc p) (r.outcomes p) S.opt.cores r.timelines p t) {c : Nat}
    (hc : c < S.opt.cores) : ¬ IdleDuring (r.timelines c) t := by
  intro idle
  have lt : t < e.now := ready.unfinished.trans_le (final.completion_bounds hp).2
  rcases noWaste t lt c hc with ⟨q, occupied⟩ | away
  · obtain ⟨seg, mem, own, le, lt⟩ := final.covered hc occupied
    have none := (((final.tiled hc).idle_iff seg (by simpa using mem)).mpr (idle seg mem le lt))
    cases own.symm.trans none
  · cases away p hp with
    | early before => exact absurd ready.arrived (not_le.mpr before)
    | completed spot le =>
        have := ready.unfinished
        rw [final.outcomes] at this
        exact absurd le (not_le.mpr this)
    | rests rests =>
        obtain ⟨j, stop, finished, burst, le, before⟩ := rests
        have finished : 2 * j + 2 ≤ e.phase p := finished
        have last : e.phase p + 1 = (S.w.proc p).phaseCount := (final.spent p hp).1
        obtain ⟨⟨seg, mem, stop_eq⟩, ran⟩ := burst
        obtain ⟨here, run⟩ := mem_runsOf.mp mem
        rw [← trailOf_congr (final.same p)] at here
        rw [← ranOf_congr (final.same p)] at ran
        exact ready.noIo ⟨j, stop, by omega, ⟨⟨seg, mem_runsOf.mpr ⟨here, run⟩, stop_eq⟩, ran⟩, le,
          before⟩
    | occupies c' hc' occupied =>
        obtain ⟨seg, mem, own, le, lt⟩ := final.covered hc' occupied
        exact ready.offCores ⟨seg, mem_busyOf.mpr ⟨c', hc', mem, own⟩, le, lt⟩

/-- In a successful run of an online built-in policy no core is idle while a process is
ready. -/
theorem simRun_conserving (builtIn : BuiltIn S) (online : S.policy.workConserving = true)
    {r : SimResult} (success : S.simRun = .ok r) : ∀ p < S.w.len, ∀ t,
    ReadyDuring (S.w.proc p) (r.outcomes p) S.opt.cores r.timelines p t →
    ∀ c < S.opt.cores, ¬ IdleDuring (r.timelines c) t := by
  intro p hp t ready c hc
  obtain ⟨e, sp, final, -, kept⟩ := simRun_keeps builtIn success fun valid options contract =>
    NoWaste.runInv valid options.cs_nonneg contract online
  exact final.notIdle (kept final.ok).2 hp ready hc

/-- While the second of the three processes waits, neither core is idle. -/
theorem trioSim_conserving : ∃ r, trioSim.simRun = .ok r ∧ ∀ t, 2 ≤ t → t < 4 →
    ReadyDuring (trioWorkload.proc 1) (r.outcomes 1) 2 r.timelines 1 t ∧
      ¬ IdleDuring (r.timelines 0) t ∧ ¬ IdleDuring (r.timelines 1) t := by
  obtain ⟨r, success, seen⟩ := trioSim_succeeds
  refine ⟨r, success, fun t low high => ?_⟩
  have busy : busyOf 2 r.timelines 1 =
      [⟨4, 5, some 1, .cs⟩, ⟨5, 6, some 1, .run⟩, ⟨0, 2, some 1, .run⟩] := by
    simp [busyOf, List.range_succ, seen.first, seen.second]
  have ready : ReadyDuring (trioWorkload.proc 1) (r.outcomes 1) 2 r.timelines 1 t := by
    constructor
    case arrived => exact (show (0 : Int) ≤ 2 by decide).trans low
    case unfinished =>
      rw [seen.outcomes.2.1]
      exact high.trans (by decide)
    case noIo =>
      -- it has one phase
      rintro ⟨j, stop, phase, -⟩
      have phase : 2 * j + 1 < 1 := phase
      omega
    case offCores =>
      rintro ⟨seg, mem, le, lt⟩
      rw [busy] at mem
      simp only [List.mem_cons, List.not_mem_nil, or_false] at mem
      rcases mem with rfl | rfl | rfl
      · exact absurd (show (4 : Int) ≤ t from le) (by omega)
      · exact absurd (show (5 : Int) ≤ t from le) (by omega)
      · exact absurd (show t < 2 from lt) (by omega)
  have busyCores := simRun_conserving trioSim_builtIn rfl success 1 (by decide) t ready
  exact ⟨ready, busyCores 0 two_pos, busyCores 1 one_lt_two⟩

end Sim

end CpuSched
