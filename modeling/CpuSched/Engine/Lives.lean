import CpuSched.Engine.Life

/-!
# The lives of all processes

In every state of a run that has not failed, every process has lived as `Lived`
says.  A step of an instant changes the track of one process only.
-/

namespace CpuSched

/-! ## Segments of one process in the timelines -/

/-- The segments of process `p` on the first `n` cores. -/
def trailOf (n : Nat) (timelines : Nat → List Segment) (p : Nat) : Trail :=
  fun c seg => c < n ∧ seg ∈ timelines c ∧ seg.proc = some p

/-- The ticks that process `p` runs before `t` on the first `n` cores. -/
def ranOf (n : Nat) (timelines : Nat → List Segment) (p : Nat) (t : Int) : Int :=
  ∑ c ∈ Finset.range n, ranBefore p t (timelines c)

section Record

variable {l : List Segment} {a b : Int} {r : Option Nat} {k : SegmentKind} {seg : Segment}

theorem mem_record (lt : a < b) (h : seg ∈ record l a b r k) : seg ∈ l ∨
    (seg.kind = k ∧ seg.proc = r ∧ seg.stop = b ∧ (seg.start = a ∨
      ∃ old ∈ l, old.kind = k ∧ old.proc = r ∧ old.stop = a ∧ old.start = seg.start)) := by
  cases l with
  | nil =>
      simp only [record, lt.not_ge, if_false, List.mem_singleton] at h
      subst h
      exact .inr ⟨rfl, rfl, rfl, .inl rfl⟩
  | cons last rest =>
      simp only [record, lt.not_ge, if_false] at h
      split_ifs at h with merge
      · rcases List.mem_cons.mp h with rfl | h
        · exact .inr ⟨merge.1, merge.2.1, rfl,
            .inr ⟨last, List.mem_cons_self, merge.1, merge.2.1, merge.2.2, rfl⟩⟩
        · exact .inl (List.mem_cons_of_mem _ h)
      · rcases List.mem_cons.mp h with rfl | h
        · exact .inr ⟨rfl, rfl, rfl, .inl rfl⟩
        · exact .inl h

theorem mem_record_of_mem (lt : a < b) (h : seg ∈ l) : seg ∈ record l a b r k ∨
    (seg.kind = k ∧ seg.proc = r ∧ seg.stop = a ∧
      ∃ new ∈ record l a b r k, new.kind = k ∧ new.proc = r ∧ new.start = seg.start) := by
  cases l with
  | nil => simp at h
  | cons last rest =>
      simp only [record, lt.not_ge, if_false]
      split_ifs with merge
      · rcases List.mem_cons.mp h with rfl | h
        · exact .inr ⟨merge.1, merge.2.1, merge.2.2, _, List.mem_cons_self, merge.1, merge.2.1, rfl⟩
        · exact .inl (List.mem_cons_of_mem _ h)
      · exact .inl (List.mem_cons_of_mem _ h)

theorem exists_mem_record (lt : a < b) :
    ∃ seg ∈ record l a b r k, seg.kind = k ∧ seg.proc = r ∧ seg.stop = b := by
  cases l with
  | nil =>
      simp only [record, lt.not_ge, if_false]
      exact ⟨_, List.mem_cons_self, rfl, rfl, rfl⟩
  | cons last rest =>
      simp only [record, lt.not_ge, if_false]
      split_ifs with merge
      · exact ⟨_, List.mem_cons_self, merge.1, merge.2.1, rfl⟩
      · exact ⟨_, List.mem_cons_self, rfl, rfl, rfl⟩

end Record

/-- Two timelines differ only in segments that are not of process `q`. -/
structure SameFor (q : Nat) (l l' : List Segment) : Prop where
  mem_iff : ∀ seg, seg.proc = some q → (seg ∈ l' ↔ seg ∈ l)
  ran_eq : ∀ t, ranBefore q t l' = ranBefore q t l

namespace SameFor

variable {q : Nat} {l l' l'' : List Segment}

theorem refl : SameFor q l l := ⟨fun _ _ => Iff.rfl, fun _ => rfl⟩

theorem trans (h : SameFor q l l') (h' : SameFor q l' l'') : SameFor q l l'' :=
  ⟨fun seg hs => (h'.mem_iff seg hs).trans (h.mem_iff seg hs),
    fun t => (h'.ran_eq t).trans (h.ran_eq t)⟩

theorem record {a b : Int} {r : Option Nat} {k : SegmentKind} (other : r ≠ some q) :
    SameFor q l (record l a b r k) := by
  refine ⟨fun seg hs => ?_, fun t => ranBefore_record (.inr other)⟩
  rcases le_or_gt b a with le | lt
  · rw [record_of_le le]
  · constructor
    · intro h
      rcases mem_record lt h with h | ⟨-, hr, -⟩
      · exact h
      · exact absurd (hr.symm.trans hs) other
    · intro h
      rcases mem_record_of_mem lt h with h | ⟨-, hr, -⟩
      · exact h
      · exact absurd (hr.symm.trans hs) other

end SameFor

section Trails

variable {n : Nat} {timelines timelines' : Nat → List Segment} {p : Nat}

theorem trailOf_congr (same : ∀ c < n, SameFor p (timelines c) (timelines' c)) :
    trailOf n timelines' p = trailOf n timelines p := by
  funext c seg
  refine propext (and_congr_right fun hc => ?_)
  constructor
  · rintro ⟨mem, hs⟩
    exact ⟨((same c hc).mem_iff seg hs).mp mem, hs⟩
  · rintro ⟨mem, hs⟩
    exact ⟨((same c hc).mem_iff seg hs).mpr mem, hs⟩

theorem ranOf_congr (same : ∀ c < n, SameFor p (timelines c) (timelines' c)) :
    ranOf n timelines' p = ranOf n timelines p := by
  funext t
  exact Finset.sum_congr rfl fun c hc => (same c (Finset.mem_range.mp hc)).ran_eq t

/-- Recording an interval of `p` adds it to the trail. -/
theorem adds_record {c : Nat} {a b : Int} {k : SegmentKind} (hc : c < n) (lt : a < b) :
    Adds c a b k (trailOf n timelines p) (trailOf n (Function.update timelines c
      (record (timelines c) a b (some p) k)) p) := by
  constructor
  · rintro c' seg ⟨hc', mem, hs⟩
    by_cases same : c' = c
    · subst same
      rw [Function.update_self] at mem
      rcases mem_record lt mem with h | ⟨hk, -, stop_eq, start_eq | ⟨old, h, o_kind, o_proc, rest⟩⟩
      · exact .inl ⟨hc', h, hs⟩
      · exact .inr ⟨rfl, hk, stop_eq, .inl start_eq⟩
      · exact .inr ⟨rfl, hk, stop_eq, .inr ⟨old, ⟨hc', h, o_proc⟩, o_kind, rest⟩⟩
    · rw [Function.update_of_ne same] at mem
      exact .inl ⟨hc', mem, hs⟩
  · rintro c' seg ⟨hc', mem, hs⟩
    by_cases same : c' = c
    · subst same
      rcases mem_record_of_mem (r := some p) (k := k) lt mem with h | ⟨hk, -, stop_eq, s, h, rest⟩
      · exact .inl ⟨hc', by rwa [Function.update_self], hs⟩
      · exact .inr ⟨rfl, hk, stop_eq, s, ⟨hc', by rwa [Function.update_self], rest.2.1⟩, rest.1,
          rest.2.2⟩
    · exact .inl ⟨hc', by rwa [Function.update_of_ne same], hs⟩
  · obtain ⟨seg, mem, hk, hr, stop_eq⟩ := exists_mem_record (l := timelines c) (r := some p)
      (k := k) lt
    exact ⟨seg, ⟨hc, by rwa [Function.update_self], hr⟩, hk, stop_eq⟩

theorem ranOf_record {c : Nat} {a b : Int} {k : SegmentKind} {t : Int} (le : t ≤ a) :
    ranOf n (Function.update timelines c (record (timelines c) a b (some p) k)) p t =
      ranOf n timelines p t := by
  refine Finset.sum_congr rfl fun c' _ => ?_
  by_cases same : c' = c
  · subst same
    rw [Function.update_self, ranBefore_record (.inl le)]
  · rw [Function.update_of_ne same]

end Trails

/-! ## Tracks -/

/-- What a configuration holds about one process. -/
structure Track where
  spot : Spot
  /-- Nothing of the process is recorded after `edge`. -/
  edge : Int
  /-- The start of its current run. -/
  run : Option Int
  trail : Trail
  ran : Int → Int
  outcome : ProcOutcome
  wake : Int
  phase : Nat
  now : Int

/-- The bursts that the process has finished. -/
def Track.bursts (tr : Track) : Nat := tr.phase / 2 + if tr.spot = .done then 1 else 0

/-- How a process has lived so far. -/
structure Lived (proc : Process) (tr : Track) (ends : Nat → Int) : Prop where
  life : Life proc tr.trail tr.ran ends tr.bursts tr.edge
  start : StartOk proc.arrival tr.trail tr.outcome tr.edge tr.run
  fresh : tr.spot = .new → tr.phase = 0
  arrived : tr.spot ≠ .new → proc.arrival ≤ tr.edge
  rested : tr.spot ≠ .blocked → tr.spot ≠ .done → ∀ j < tr.bursts,
    ends j + proc.ioPhase j ≤ tr.edge
  resting : tr.spot = .blocked → ∃ j, tr.bursts = j + 1 ∧ tr.wake = ends j + proc.ioPhase j ∧
    ends j ≤ tr.now
  finished : tr.spot = .done → tr.outcome.completion = ends (tr.phase / 2) ∧
    ∀ {c seg}, tr.trail c seg → seg.stop ≤ tr.outcome.completion

theorem Process.Valid.ioPhase_nonneg {proc : Process} (valid : proc.Valid) (j : Nat) :
    0 ≤ proc.ioPhase j := by
  unfold Process.ioPhase
  by_cases h : 2 * j + 1 < proc.phaseCount
  · exact (valid.phase_pos h).le
  · unfold Process.phase
    rw [List.getD_eq_default _ _ (by unfold Process.phaseCount at h; omega)]

/-- The I/O intervals come one after another. -/
theorem Life.rested_of_last {proc : Process} {trail : Trail} {ran : Int → Int} {ends : Nat → Int}
    {m : Nat} {edge t : Int} (valid : proc.Valid) (life : Life proc trail ran ends (m + 1) edge)
    (last : ends m + proc.ioPhase m ≤ t) : ∀ j < m + 1, ends j + proc.ioPhase j ≤ t := by
  intro j hj
  induction k : m - j generalizing j with
  | zero =>
      obtain rfl : j = m := by omega
      exact last
  | succ k ih =>
      have next := ih (j + 1) (by omega) (by omega)
      have := life.order (j := j) (by omega)
      have := valid.ioPhase_nonneg (j + 1)
      omega

/-! ## A process that gets a core -/

section Seating

variable {proc : Process} {tr : Track} {ends : Nat → Int} {a : Int} {c : Nat} {s : Slice}
  (lived : Lived proc tr ends) (held : tr.spot = .held s) (idle : tr.run = none)
  (edge_eq : tr.edge = a)
include lived held idle edge_eq

/-- It starts running at once. -/
theorem Lived.startsRun (nonneg : 0 ≤ a) :
    Lived proc { tr with
      spot := .core c s, edge := a, run := some a
      outcome := Sim.startedOutcome tr.outcome a } ends := by
  subst edge_eq
  obtain ⟨life, start, fresh, arrived, rested, resting, finished⟩ := lived
  have arrived := arrived (by simp [held])
  have rested := rested (by simp [held]) (by simp [held])
  rw [idle] at start
  simp only [Track.bursts, held, reduceCtorEq, if_false, add_zero] at life rested
  refine ⟨?_, start.begin nonneg arrived, by simp, fun _ => arrived, fun _ _ j hj => ?_,
    by simp, by simp⟩
  · simpa [Track.bursts] using life
  · exact rested j (by simpa [Track.bursts] using hj)

/-- Its context is switched in first. -/
theorem Lived.startsSwitch {b : Int} {trail' : Trail} {ran' : Int → Int} (lt : a < b)
    (adds : Adds c a b .cs tr.trail trail') (io_pos : ∀ j < tr.phase / 2, 0 < proc.ioPhase j)
    (same : ∀ t ≤ a, ran' t = tr.ran t) :
    Lived proc { tr with
      spot := .core c s, edge := b, run := none, trail := trail', ran := ran' } ends := by
  subst edge_eq
  obtain ⟨life, start, fresh, arrived, rested, resting, finished⟩ := lived
  have arrived := arrived (by simp [held])
  have rested := rested (by simp [held]) (by simp [held])
  rw [idle] at start
  simp only [Track.bursts, held, reduceCtorEq, if_false, add_zero] at life rested
  have life' := life.adds adds lt arrived io_pos rested same
  refine ⟨?_, start.addsSwitch lt.le adds, by simp, fun _ => arrived.trans lt.le,
    fun _ _ j hj => ?_, by simp, by simp⟩
  · simpa [Track.bursts] using life'
  · have hj : j < tr.phase / 2 := by simpa [Track.bursts] using hj
    exact (rested j hj).trans lt.le

end Seating

namespace Sim

variable {D : Type} {S : Sim D}
variable {PInv : SchedView D → S.policy.State → Places → Prop} {budget : Int}

/-- How far process `p` is recorded. -/
def Config.edge (a : S.Config) (p : Nat) : Int :=
  match a.spots p with
  | .core c _ => frontier (a.eng.cores c)
  | _ => a.eng.now

/-- The start of the current run of process `p`. -/
def Config.run (a : S.Config) (p : Nat) : Option Int :=
  match a.spots p with
  | .core c _ => if (a.eng.cores c).inCs then none else some (a.eng.cores c).runStart
  | _ => none

/-- The track of process `p`. -/
def Config.track (a : S.Config) (p : Nat) : Track where
  spot := a.spots p
  edge := a.edge p
  run := a.run p
  trail := trailOf S.opt.cores a.eng.timelines p
  ran := ranOf S.opt.cores a.eng.timelines p
  outcome := a.eng.outcomes p
  wake := a.eng.wake p
  phase := a.eng.phase p
  now := a.eng.now

/-- A track stays if everything about the process does. -/
theorem track_congr {a b : S.Config} {q : Nat} (spots : b.spots q = a.spots q)
    (now_eq : b.eng.now = a.eng.now)
    (seat : ∀ c s, a.spots q = .core c s → frontier (b.eng.cores c) = frontier (a.eng.cores c) ∧
      (b.eng.cores c).inCs = (a.eng.cores c).inCs ∧
      (b.eng.cores c).runStart = (a.eng.cores c).runStart)
    (timelines : ∀ c < S.opt.cores, SameFor q (a.eng.timelines c) (b.eng.timelines c))
    (outcomes : b.eng.outcomes q = a.eng.outcomes q) (wake : b.eng.wake q = a.eng.wake q)
    (phase : b.eng.phase q = a.eng.phase q) : b.track q = a.track q := by
  have edge : b.edge q = a.edge q := by
    unfold Config.edge
    rw [spots]
    cases h : a.spots q with
    | core c s => exact (seat c s h).1
    | _ => exact now_eq
  have run : b.run q = a.run q := by
    unfold Config.run
    rw [spots]
    cases h : a.spots q with
    | core c s =>
        dsimp only
        rw [(seat c s h).2.1, (seat c s h).2.2]
    | _ => rfl
  unfold Config.track
  rw [spots, edge, run, trailOf_congr timelines, ranOf_congr timelines, outcomes,
    wake, phase, now_eq]

/-- The lives of all processes, and the books. -/
structure Lives (S : Sim D) (a : S.Config) : Prop where
  ledger : Ledger S a.eng
  lived : ∀ p < S.w.len, ∃ ends, Lived (S.w.proc p) (a.track p) ends

/-- A step that is about process `p`. -/
theorem Lives.step {a b : S.Config} (p : Nat) (lives : Lives S a) (ledger : Ledger S b.eng)
    (others : ∀ q, q ≠ p → b.track q = a.track q)
    (one : ∀ ends, p < S.w.len → Lived (S.w.proc p) (a.track p) ends →
      ∃ ends', Lived (S.w.proc p) (b.track p) ends') : Lives S b := by
  refine ⟨ledger, fun q hq => ?_⟩
  by_cases same : q = p
  · subst same
    obtain ⟨ends, lived⟩ := lives.lived q hq
    exact one ends hq lived
  · rw [others q same]
    exact lives.lived q hq

/-- When everything of `p` is recorded, the ticks it ran are all its runs. -/
theorem ranOf_eq {e : S.Eng} {p : Nat} {ends : Nat → Int} {m : Nat} {ran : Int → Int} {t : Int}
    (life : Life (S.w.proc p) (trailOf S.opt.cores e.timelines p) ran ends m t)
    (ledger : Ledger S e) : ranOf S.opt.cores e.timelines p t = S.executed e p := by
  rw [← ledger.runs p]
  refine Finset.sum_congr rfl fun c hc => ranBefore_eq_runTime fun seg mem hs => ?_
  have here : trailOf S.opt.cores e.timelines p c seg := ⟨Finset.mem_range.mp hc, mem, hs⟩
  have := (life.bounded here).2
  have := life.pos here
  omega

section Steps

variable {e : S.Eng} {sp : Nat → Spot} {c p : Nat} {s : Slice}

/-- Another process is on another core. -/
theorem Sound.core_ne (sound : S.Sound PInv budget ⟨e, sp⟩) (seat : sp p = .core c s) {q c' : Nat}
    {s' : Slice} (ne : q ≠ p) (seat' : sp q = .core c' s') : c' ≠ c := by
  rintro rfl
  exact ne (sound.alone seat seat')

/-- The bursts before the current one leave I/O phases to come. -/
theorem Sound.ioPhase_pos (valid : S.w.Valid) (sound : S.Sound PInv budget ⟨e, sp⟩)
    (hp : p < S.w.len)
    (active : sp p ≠ .done) : ∀ j < e.phase p / 2, 0 < (S.w.proc p).ioPhase j := by
  intro j hj
  have lt : e.phase p < (S.w.proc p).phaseCount := (sound.data.progress p hp active).phase_lt
  exact (valid.proc hp).phase_pos (by omega)

/-- The track of a process that is not on a core after a step. -/
theorem track_offCore {b : S.Config} (z : Spot) (spot : b.spots p = z)
    (off : ∀ c s, z ≠ .core c s) :
    b.track p = { b.track p with spot := z, edge := b.eng.now, run := none } := by
  have edge : b.edge p = b.eng.now := by
    unfold Config.edge
    rw [spot]
    cases z with
    | core c s => exact absurd rfl (off c s)
    | _ => rfl
  have run : b.run p = none := by
    unfold Config.run
    rw [spot]
    cases z with
    | core c s => exact absurd rfl (off c s)
    | _ => rfl
  unfold Config.track
  rw [edge, run, spot]

/-- What the end of a slice records about its process. -/
theorem Lives.left (valid : S.w.Valid) (sound : S.Sound PInv budget ⟨e, sp⟩)
    (lives : Lives S ⟨e, sp⟩) (seat : sp p = .core c s) (runs : (e.cores c).inCs = false)
    (ran : (e.cores c).runStart < e.now) (ok : (S.chargeRun e c p).fail = .ok) :
    ∃ ends, Life (S.w.proc p) (trailOf S.opt.cores (S.chargeRun e c p).timelines p)
        (ranOf S.opt.cores (S.chargeRun e c p).timelines p) ends (e.phase p / 2) e.now ∧
      StartOk (S.w.proc p).arrival (trailOf S.opt.cores (S.chargeRun e c p).timelines p)
        (e.outcomes p) e.now none ∧
      (∀ j < e.phase p / 2, ends j + (S.w.proc p).ioPhase j < e.now) ∧
      (S.w.proc p).arrival ≤ e.now ∧
      ∃ c' seg, trailOf S.opt.cores (S.chargeRun e c p).timelines p c' seg ∧ seg.kind = .run ∧
        seg.stop = e.now := by
  obtain ⟨core_lt, hs, here⟩ := sound.cores.seat p c s seat
  have hp : p < S.w.len := sound.inside (by simp [seat])
  have on : (e.cores c).proc = some p := here.proc_eq.trans (congrArg some hs)
  obtain ⟨ends, lived⟩ := lives.lived p hp
  have edge_eq : (Config.track ⟨e, sp⟩ p).edge = (e.cores c).runStart := by
    simp [Config.track, Config.edge, seat, frontier, on, runs]
  have run_eq : (Config.track ⟨e, sp⟩ p).run = some (e.cores c).runStart := by
    simp [Config.track, Config.run, seat, runs]
  have bursts_eq : (Config.track ⟨e, sp⟩ p).bursts = e.phase p / 2 := by
    simp [Track.bursts, Config.track, seat]
  have spot_eq : (Config.track ⟨e, sp⟩ p).spot = .core c s := seat
  obtain ⟨life, start, -, arrived, rested, -, -⟩ := lived
  rw [edge_eq, bursts_eq] at life
  rw [edge_eq, run_eq] at start
  rw [edge_eq, spot_eq] at arrived
  rw [edge_eq, bursts_eq, spot_eq] at rested
  have arrived := arrived (by simp)
  have rested := rested (by simp) (by simp)
  rw [chargeRun_fail] at ok
  obtain ⟨-, timelines⟩ := append_timelines ok
  rw [chargeRun_timelines, timelines]
  have adds : Adds c _ _ .run (trailOf S.opt.cores e.timelines p) _ := adds_record core_lt ran
  refine ⟨ends, life.adds adds ran arrived (sound.ioPhase_pos valid hp (by simp [seat])) rested
    fun t le => ranOf_record le, start.addsRun ran (fun h => ⟨life.pos h, (life.bounded h).2⟩) adds,
    fun j hj => (rested j hj).trans_lt ran, arrived.trans ran.le, ?_⟩
  obtain ⟨seg, mem, kind_eq, stop_eq⟩ := adds.new
  exact ⟨c, seg, mem, kind_eq, stop_eq⟩

/-- The tracks of the others when `p` leaves its core. -/
theorem Sound.track_left (sound : S.Sound PInv budget ⟨e, sp⟩) (seat : sp p = .core c s)
    (ok : (S.chargeRun e c p).fail = .ok) {e' : S.Eng} {z : Spot} {q : Nat} (ne : q ≠ p)
    (now_eq : e'.now = e.now) (cores : e'.cores = (S.chargeRun e c p).cores)
    (timelines : e'.timelines = (S.chargeRun e c p).timelines)
    (outcomes : e'.outcomes q = e.outcomes q) (wake : e'.wake q = e.wake q)
    (phase : e'.phase q = e.phase q) :
    Config.track ⟨e', Function.update sp p z⟩ q = Config.track ⟨e, sp⟩ q := by
  rw [chargeRun_fail] at ok
  obtain ⟨-, recorded⟩ := append_timelines ok
  refine track_congr (Function.update_of_ne ne ..) now_eq (fun c' s' seat' => ?_) (fun c' _ => ?_)
    outcomes wake phase
  · have away := sound.core_ne seat ne seat'
    simp [cores, away]
  · dsimp only
    rw [timelines, chargeRun_timelines, recorded]
    by_cases same : c' = c
    · subst same
      rw [Function.update_self]
      exact .record fun h => ne (Option.some.inj h).symm
    · rw [Function.update_of_ne same]
      exact .refl

section Moves

variable (valid : S.w.Valid) (hcs : 0 ≤ S.opt.csCost) (sound : S.Sound PInv budget ⟨e, sp⟩)
  (lives : Lives S ⟨e, sp⟩)
include valid sound lives

theorem Lives.preempt (seat : sp p = .core c s) (runs : (e.cores c).inCs = false)
    (ran : (e.cores c).runStart < e.now) (ok : (S.chargeRun e c p).fail = .ok)
    {state : S.policy.State} (ledger : Ledger S { S.chargeRun e c p with state }) :
    Lives S ⟨{ S.chargeRun e c p with state }, Function.update sp p .ready⟩ := by
  refine lives.step p ledger (fun q ne => sound.track_left seat ok ne (by simp) rfl rfl (by simp)
    (by simp) (by simp)) fun _ hp _ => ?_
  obtain ⟨ends, life, start, rested, arrived, -⟩ := lives.left valid sound seat runs ran ok
  rw [track_offCore .ready (Function.update_self ..) (by simp)]
  refine ⟨ends, ?_, ?_, by simp, fun _ => ?_, fun _ _ j hj => ?_, by simp, by simp⟩
  · simpa [Track.bursts, Config.track] using life
  · simpa [Config.track] using start
  · simpa using arrived
  · simp only [Track.bursts, Config.track, chargeRun_phase, reduceCtorEq, if_false, add_zero] at hj
    simpa using (rested j hj).le

variable [Double D]

theorem Lives.block (seat : sp p = .core c s) (runs : (e.cores c).inCs = false)
    (ran : (e.cores c).runStart < e.now) (used : (S.chargeRun e c p).remaining p = 0)
    (more : e.phase p + 1 ≠ (S.w.proc p).phaseCount) (ok : (S.chargeRun e c p).fail = .ok)
    {state : S.policy.State} {blocked : Heap}
    (ledger : Ledger S { S.startIo (S.burstOver e c p) p with blocked, state }) :
    Lives S ⟨{ S.startIo (S.burstOver e c p) p with blocked, state },
      Function.update sp p .blocked⟩ := by
  obtain ⟨hlt, eq⟩ := sound.startIo_eq valid seat runs used more
  have even : e.phase p % 2 = 0 := (sound.progress (p := p) (by simp [seat]) (by simp [seat])).even
  obtain ⟨m, hm⟩ : ∃ m, e.phase p = 2 * m := ⟨e.phase p / 2, by omega⟩
  rw [eq] at ledger ⊢
  refine lives.step p ledger (fun q ne => sound.track_left seat ok ne (by simp [burstOver]) rfl rfl
    (by simp [burstOver]) (by simp [ne]) (by simp [ne])) fun _ hp _ => ?_
  obtain ⟨ends, life, start, rested, arrived, closed⟩ := lives.left valid sound seat runs ran ok
  rw [show e.phase p / 2 = m by omega] at life rested
  have sum := ranOf_eq (e := { S.startIo (S.burstOver e c p) p with blocked, state })
    (by rw [eq]; exact life) (by rw [eq]; exact ledger)
  rw [eq] at sum
  have life' := life.close rested closed (sum.trans (by simp [executed, hm]))
  have bursts : (2 * m + 2) / 2 = m + 1 := by omega
  rw [track_offCore .blocked (Function.update_self ..) (by simp)]
  refine ⟨Function.update ends m e.now, ?_, ?_, by simp, fun _ => ?_, by simp, fun _ =>
    ⟨m, ?_, ?_, ?_⟩, by simp⟩
  · simpa [Track.bursts, Config.track, hm, bursts, burstOver] using life'
  · simpa [Config.track, burstOver] using start
  · simpa [burstOver] using arrived
  · simp [Track.bursts, Config.track, hm, bursts]
  · simp [Config.track, hm, Process.ioPhase]
  · simp [Config.track, burstOver]

theorem Lives.complete (seat : sp p = .core c s) (runs : (e.cores c).inCs = false)
    (ran : (e.cores c).runStart < e.now) (used : (S.chargeRun e c p).remaining p = 0)
    (ok : (S.chargeRun e c p).fail = .ok) {state : S.policy.State}
    (ledger : Ledger S { S.finishProcess (S.burstOver e c p) p with state }) :
    Lives S ⟨{ S.finishProcess (S.burstOver e c p) p with state }, Function.update sp p .done⟩ := by
  have progress := sound.progress (p := p) (by simp [seat]) (by simp [seat])
  have even : e.phase p % 2 = 0 := progress.even
  have cpu : (S.w.proc p).cpuBefore (e.phase p + 2) =
      (S.w.proc p).cpuBefore (e.phase p) + (S.w.proc p).phase (e.phase p) :=
    Process.cpuBefore_add progress.even progress.phase_lt
  have burst : e.burstLen p = (S.w.proc p).phase (e.phase p) := progress.burstLen_eq
  obtain ⟨m, hm⟩ : ∃ m, e.phase p = 2 * m := ⟨e.phase p / 2, by omega⟩
  refine lives.step p ledger (fun q ne => sound.track_left seat ok ne
    (by simp [finishProcess, burstOver]) rfl rfl (by simp [finishProcess, burstOver, ne])
    (by simp [finishProcess, burstOver]) (by simp [finishProcess, burstOver])) fun _ hp _ => ?_
  obtain ⟨ends, life, start, rested, arrived, closed⟩ := lives.left valid sound seat runs ran ok
  rw [show e.phase p / 2 = m by omega] at life rested
  have sum : ranOf S.opt.cores (S.chargeRun e c p).timelines p e.now = _ :=
    ranOf_eq (e := { S.finishProcess (S.burstOver e c p) p with state }) life ledger
  have used : e.remaining p - (e.now - (e.cores c).runStart) = 0 := by simpa using used
  have life' := life.close rested closed (sum.trans (by
    rw [hm] at cpu
    simp only [executed, finishProcess, burstOver, chargeRun_phase, chargeRun_burstLen,
      chargeRun_remaining, Function.update_self, hm]
    rw [used, burst, hm]
    omega))
  have bursts : 2 * m / 2 = m := by omega
  rw [track_offCore .done (Function.update_self ..) (by simp)]
  refine ⟨Function.update ends m e.now, ?_, ?_, by simp, fun _ => ?_, by simp, by simp,
    fun _ => ⟨?_, fun {c' seg} here => ?_⟩⟩
  · simpa [Track.bursts, Config.track, hm, finishProcess, burstOver] using life'
  · have start' : StartOk (S.w.proc p).arrival
        (trailOf S.opt.cores (S.chargeRun e c p).timelines p)
        { e.outcomes p with completion := e.now } e.now none := ⟨start.unstarted, start.started⟩
    simpa [Config.track, finishProcess, burstOver] using start'
  · simpa [finishProcess, burstOver] using arrived
  · simp [Config.track, finishProcess, burstOver, hm]
  · simp only [Config.track, finishProcess, burstOver, Function.update_self, chargeRun_now]
    exact (life.bounded here).2

omit [Double D] in
theorem Lives.start {deadline : Int} (seat : sp p = .core c s)
    (switching : (e.cores c).inCs = true) (elapsed : (e.cores c).busyUntil = e.now)
    (ledger : Ledger S (S.startRun e c p deadline)) :
    Lives S ⟨S.startRun e c p deadline, sp⟩ := by
  rw [sound.startRun_eq valid seat switching] at ledger ⊢
  obtain ⟨core_lt, hs, here⟩ := sound.cores.seat p c s seat
  have on : (e.cores c).proc = some p := here.proc_eq.trans (congrArg some hs)
  refine lives.step p ledger (fun q ne => track_congr rfl rfl (fun c' s' seat' => ?_)
    (fun _ _ => .refl) (Function.update_of_ne ne ..) rfl rfl) fun ends hp lived => ?_
  · simp [sound.core_ne seat ne seat']
  · have edge : Config.edge ⟨e, sp⟩ p = e.now := by
      simp [Config.edge, seat, frontier, on, switching, elapsed]
    have run : Config.run ⟨e, sp⟩ p = none := by simp [Config.run, seat, switching]
    obtain ⟨life, start, fresh, arrived, rested, resting, finished⟩ := lived
    simp only [Config.track, edge, run, seat, Track.bursts] at life start arrived rested
    refine ⟨ends, ?_⟩
    have track : Config.track ⟨{ e with
        outcomes := Function.update e.outcomes p (startedOutcome (e.outcomes p) e.now)
        cores := Function.update e.cores c
          (startedCore { e.cores c with deadline } e.now (e.remaining p)) }, sp⟩ p =
        { Config.track ⟨e, sp⟩ p with
          edge := e.now, run := some e.now, outcome := startedOutcome (e.outcomes p) e.now } := by
      simp [Config.track, Config.edge, Config.run, seat, frontier, startedCore, on]
    rw [track]
    have now_nonneg : 0 ≤ e.now := sound.now_nonneg
    have arrived := arrived (by simp)
    refine ⟨?_, start.begin now_nonneg arrived, ?_, fun _ => arrived, ?_, ?_, ?_⟩
    · simpa [Track.bursts, Config.track, seat] using life
    · simp [Config.track, seat]
    · intro _ _ j hj
      exact rested (by simp) (by simp) j (by simpa [Track.bursts, Config.track, seat] using hj)
    · simp [Config.track, seat]
    · simp [Config.track, seat]

omit [Double D] valid lives in
/-- The tracks of the others when `s` is dispatched on core `c`. -/
theorem Sound.track_placed (free : (e.cores c).proc = none)
    {e' : S.Eng} {core : Core} {z : Spot} {q : Nat} (ne : q ≠ s.proc) (now_eq : e'.now = e.now)
    (cores : e'.cores = Function.update e.cores c core)
    (timelines : ∀ c' < S.opt.cores, SameFor q (e.timelines c') (e'.timelines c'))
    (outcomes : e'.outcomes q = e.outcomes q) (wake : e'.wake q = e.wake q)
    (phase : e'.phase q = e.phase q) :
    Config.track ⟨e', Function.update sp s.proc z⟩ q = Config.track ⟨e, sp⟩ q := by
  refine track_congr (Function.update_of_ne ne ..) now_eq (fun c' s' seat' => ?_) timelines outcomes
    wake phase
  have away : c' ≠ c := by
    rintro rfl
    have on : (e.cores c').proc = some s'.proc := (sound.cores.seat q c' s' seat').2.2.proc_eq
    cases free.symm.trans on
  simp [cores, away]

include hcs

omit [Double D] in
theorem Lives.place (held : sp s.proc = .held s) (core_lt : c < S.opt.cores)
    (free : (e.cores c).proc = none) (fits : e.now + S.opt.csCost ≤ int64Max)
    (ok : (S.placed e c s).fail = .ok) (ledger : Ledger S (S.placed e c s)) :
    Lives S ⟨S.placed e c s, Function.update sp s.proc (.core c s)⟩ := by
  have placed_eq := sound.placed_eq (c := c) valid hcs held fits
  rw [placed_eq] at ok ledger ⊢
  simp only at ok
  -- the idle interval that the core closes is about no process
  have idleSame : ∀ q c', SameFor q (e.timelines c') (Function.update e.timelines c
      (idleRecord (e.cores c) e.now (e.timelines c)) c') := by
    intro q c'
    by_cases same : c' = c
    · subst same
      rw [Function.update_self]
      exact .record (by simp)
    · rw [Function.update_of_ne same]
      exact .refl
  have edge : Config.edge ⟨e, sp⟩ s.proc = e.now := by simp [Config.edge, held]
  have run : Config.run ⟨e, sp⟩ s.proc = none := by simp [Config.run, held]
  by_cases switches : S.switching e c s.proc = true ∧ 0 < S.opt.csCost
  · have record_eq : S.placedRecord e c s =
        S.append (S.append e c (e.cores c).freeSince e.now none .idle) c e.now
          (e.now + S.opt.csCost) (some s.proc) .cs := if_pos switches
    have core_eq : S.placedCore e c s = { seatedCore (e.cores c) s with
        inCs := true, busyUntil := e.now + S.opt.csCost } := if_pos switches
    have outcomes_eq : S.placedOutcomes e c s = e.outcomes := if_pos switches
    rw [record_eq] at ok
    obtain ⟨ok', timelines⟩ := append_timelines ok
    obtain ⟨-, timelines'⟩ := append_timelines ok'
    rw [timelines', Function.update_idem, Function.update_self, ← record_eq] at timelines
    have timelines : (S.placedRecord e c s).timelines = Function.update e.timelines c
        (record (idleRecord (e.cores c) e.now (e.timelines c)) e.now (e.now + S.opt.csCost)
          (some s.proc) .cs) := timelines
    refine lives.step s.proc ledger (fun q ne => sound.track_placed free ne rfl rfl
      (fun c' _ => ?_) (by simp [outcomes_eq]) rfl rfl) fun ends hp lived => ?_
    · dsimp only
      rw [timelines]
      by_cases same : c' = c
      · subst same
        have idle := idleSame q c'
        rw [Function.update_self] at idle ⊢
        exact idle.trans (.record fun h => ne (Option.some.inj h).symm)
      · rw [Function.update_of_ne same]
        exact .refl
    · have trail : trailOf S.opt.cores (Function.update e.timelines c
          (idleRecord (e.cores c) e.now (e.timelines c))) s.proc =
          trailOf S.opt.cores e.timelines s.proc := trailOf_congr fun c' _ => idleSame _ c'
      have ran : ranOf S.opt.cores (Function.update e.timelines c
          (idleRecord (e.cores c) e.now (e.timelines c))) s.proc =
          ranOf S.opt.cores e.timelines s.proc := ranOf_congr fun c' _ => idleSame _ c'
      have lt : e.now < e.now + S.opt.csCost := by omega
      have adds : Adds c _ _ .cs (trailOf S.opt.cores (Function.update e.timelines c
        (idleRecord (e.cores c) e.now (e.timelines c))) s.proc) _ := adds_record core_lt lt
      rw [Function.update_idem, Function.update_self, trail, ← timelines] at adds
      have same : ∀ t ≤ e.now, ranOf S.opt.cores (S.placedRecord e c s).timelines s.proc t =
          ranOf S.opt.cores e.timelines s.proc t := by
        intro t le
        have : _ = ranOf S.opt.cores (Function.update e.timelines c
            (idleRecord (e.cores c) e.now (e.timelines c))) s.proc t :=
          ranOf_record (c := c) (k := .cs) (b := e.now + S.opt.csCost) le
        rw [Function.update_idem, Function.update_self, ran, ← timelines] at this
        exact this
      refine ⟨ends, ?_⟩
      have track : Config.track ⟨{ e with
          cores := Function.update e.cores c (S.placedCore e c s)
          outcomes := S.placedOutcomes e c s
          switches := if S.switching e c s.proc then e.switches + 1 else e.switches
          csTime := if S.switching e c s.proc ∧ 0 < S.opt.csCost then e.csTime + S.opt.csCost
            else e.csTime
          timelines := (S.placedRecord e c s).timelines
          segments := (S.placedRecord e c s).segments
          fail := (S.placedRecord e c s).fail }, Function.update sp s.proc (.core c s)⟩ s.proc =
          { Config.track ⟨e, sp⟩ s.proc with
            spot := .core c s, edge := e.now + S.opt.csCost, run := none
            trail := trailOf S.opt.cores (S.placedRecord e c s).timelines s.proc
            ran := ranOf S.opt.cores (S.placedRecord e c s).timelines s.proc } := by
        simp [Config.track, Config.edge, Config.run, frontier, core_eq, seatedCore, outcomes_eq]
      rw [track]
      exact lived.startsSwitch held run edge lt adds
        (sound.ioPhase_pos valid hp (by simp [held])) same
  · have record_eq : S.placedRecord e c s =
        S.append e c (e.cores c).freeSince e.now none .idle := if_neg switches
    have core_eq : S.placedCore e c s =
        startedCore (seatedCore (e.cores c) s) e.now (e.remaining s.proc) := if_neg switches
    have outcomes_eq : S.placedOutcomes e c s = Function.update e.outcomes s.proc
        (startedOutcome (e.outcomes s.proc) e.now) := if_neg switches
    rw [record_eq] at ok
    obtain ⟨-, timelines⟩ := append_timelines ok
    rw [← record_eq] at timelines
    have same : ∀ q, ∀ c' < S.opt.cores,
        SameFor q (e.timelines c') ((S.placedRecord e c s).timelines c') := by
      intro q c' _
      rw [timelines]
      exact idleSame q c'
    refine lives.step s.proc ledger (fun q ne => sound.track_placed free ne rfl rfl
      (same q) (by simp [outcomes_eq, ne]) rfl rfl) fun ends hp lived => ?_
    refine ⟨ends, ?_⟩
    have track : Config.track ⟨{ e with
        cores := Function.update e.cores c (S.placedCore e c s)
        outcomes := S.placedOutcomes e c s
        switches := if S.switching e c s.proc then e.switches + 1 else e.switches
        csTime := if S.switching e c s.proc ∧ 0 < S.opt.csCost then e.csTime + S.opt.csCost
          else e.csTime
        timelines := (S.placedRecord e c s).timelines
        segments := (S.placedRecord e c s).segments
        fail := (S.placedRecord e c s).fail }, Function.update sp s.proc (.core c s)⟩ s.proc =
        { Config.track ⟨e, sp⟩ s.proc with
          spot := .core c s, edge := e.now, run := some e.now
          outcome := startedOutcome (e.outcomes s.proc) e.now } := by
      simp [Config.track, Config.edge, Config.run, frontier, core_eq, startedCore, seatedCore,
        outcomes_eq, trailOf_congr (same s.proc), ranOf_congr (same s.proc)]
    rw [track]
    exact lived.startsRun held run edge sound.now_nonneg

end Moves

/-- A process changes its place off the cores. -/
theorem track_moved {e' : S.Eng} {z : Spot} {q : Nat} (ne : q ≠ p) (now_eq : e'.now = e.now)
    (cores : e'.cores = e.cores) (timelines : e'.timelines = e.timelines)
    (outcomes : e'.outcomes = e.outcomes) (wake : e'.wake = e.wake) (phase : e'.phase = e.phase) :
    Config.track ⟨e', Function.update sp p z⟩ q = Config.track ⟨e, sp⟩ q := by
  refine track_congr (Function.update_of_ne ne ..) now_eq (fun _ _ _ => ?_)
    (fun c' _ => ?_) ?_ ?_ ?_
  · simp [cores]
  · dsimp only
    rw [timelines]
    exact .refl
  · simp [outcomes]
  · simp [wake]
  · simp [phase]

end Steps

section Runs

variable [Double D] (valid : S.w.Valid) (hcs : 0 ≤ S.opt.csCost)
include valid

omit valid in
theorem Lives.init (state : S.policy.State) : Lives S (S.initConfig state) := by
  refine ⟨Ledger.init state, fun p _ => ⟨fun _ => 0, ?_⟩⟩
  have empty : ∀ {c seg}, ¬ trailOf S.opt.cores (S.initEngine state).timelines p c seg := by
    rintro c seg ⟨-, mem, -⟩
    simp [initEngine] at mem
  constructor
  · exact ⟨fun h => absurd h empty, fun h => absurd h empty, fun h => absurd h empty,
      fun hj => by simp [Track.bursts, Config.track, initConfig, initEngine] at hj,
      fun hj => by simp [Track.bursts, Config.track, initConfig, initEngine] at hj,
      fun hj => by simp [Track.bursts, Config.track, initConfig, initEngine] at hj,
      fun hj => by simp [Track.bursts, Config.track, initConfig, initEngine] at hj⟩
  · exact ⟨fun _ => ⟨fun h => absurd h empty, rfl⟩,
      fun h => by simp [Config.track, initConfig, initEngine] at h⟩
  · exact fun _ => rfl
  · simp [Config.track, initConfig]
  · intro _ _ j hj
    simp [Track.bursts, Config.track, initConfig, initEngine] at hj
  · simp [Config.track, initConfig]
  · simp [Config.track, initConfig]

omit [Double D] valid in
/-- The clock moves on. -/
theorem Lives.advance {a : S.Config} {t : Int} (lives : Lives S a) (le : a.eng.now ≤ t) :
    Lives S (later a t) := by
  have ledger : Ledger S (later a t).eng :=
    ⟨lives.ledger.lanes, lives.ledger.csTime_eq, lives.ledger.csShown, lives.ledger.switches_eq,
      lives.ledger.runs, lives.ledger.allRuns⟩
  refine ⟨ledger, fun p hp => ?_⟩
  obtain ⟨ends, life, start, fresh, arrived, rested, resting, finished⟩ := lives.lived p hp
  have edge : a.edge p ≤ (later a t).edge p := by
    unfold Config.edge Sim.later
    cases h : a.spots p with
    | core c s => exact le_rfl
    | _ => exact le
  refine ⟨ends, life.later edge, start.later edge, fresh, fun h => (arrived h).trans edge,
    fun h h' j hj => (rested h h' j hj).trans edge, fun h => ?_, finished⟩
  obtain ⟨j, hj, wake, ended⟩ := resting h
  exact ⟨j, hj, wake, ended.trans le⟩

include hcs

/-- Every process lives as `Lived` says, as long as nothing fails. -/
theorem Lives.runInv (contract : Contract S.w S.policy PInv) :
    RunInv S PInv fun a => a.eng.fail = .ok → Lives S a where
  init state _ _ := Lives.init state
  move {budget a b} move sound _ _ here ok := by
    obtain ⟨before, effect⟩ := move.effect valid hcs sound ok
    have lives := here before
    have ledger := effect.ledger lives.ledger
    cases move with
    | @arrive e sp key rest state pending due hook =>
        have mem : key ∈ e.pending := by simp [pending]
        obtain ⟨hp, new⟩ := (sound.pending.mem_iff key.index).mp (List.mem_map_of_mem mem)
        have arrival : key.arrival = (S.w.proc key.index).arrival := (sound.pending.keys key mem).1
        refine lives.step key.index ledger (fun q ne => track_moved ne rfl rfl rfl rfl rfl rfl)
          fun ends _ lived => ⟨ends, ?_⟩
        have new : sp key.index = .new := new
        obtain ⟨life, start, fresh, -, -, -, -⟩ := lived
        rw [track_offCore .ready (Function.update_self ..) (by simp)]
        have phase : e.phase key.index = 0 := fresh new
        rw [track_offCore .new new (by simp)] at life start
        refine ⟨?_, start, by simp, fun _ => ?_, fun _ _ j hj => ?_, by simp, by simp⟩
        · simpa [Track.bursts, Config.track] using life
        · simpa [← arrival] using due
        · simp [Track.bursts, Config.track, phase] at hj
    | @wake e sp p heap state popped due hook =>
        have blocked : sp p = .blocked := (sound.blocked.pop (blockedLess_total valid _)
          (fun q hq => sound.inside fun h => by cases hq.symm.trans h) popped (z := .ready)
          (by simp)).1
        refine lives.step p ledger (fun q ne => track_moved ne rfl rfl rfl rfl rfl rfl)
          fun ends hp lived => ⟨ends, ?_⟩
        obtain ⟨life, start, -, arrived, -, resting, -⟩ := lived
        obtain ⟨m, bursts, wake, ended⟩ := resting blocked
        rw [track_offCore .ready (Function.update_self ..) (by simp)]
        have arrived := arrived (by simp [Config.track, blocked])
        rw [track_offCore .blocked blocked (by simp)] at life start arrived
        have bursts' : e.phase p / 2 = m + 1 := by
          simpa [Track.bursts, Config.track, blocked] using bursts
        have life' : Life (S.w.proc p) (trailOf S.opt.cores e.timelines p)
            (ranOf S.opt.cores e.timelines p) ends (m + 1) e.now := by
          simpa [Track.bursts, Config.track, bursts'] using life
        have wake : e.wake p = ends m + (S.w.proc p).ioPhase m := wake
        refine ⟨?_, start, by simp, fun _ => arrived, fun _ _ j hj => ?_, by simp, by simp⟩
        · simpa [Track.bursts, Config.track] using life
        · have hj : j < m + 1 := by simpa [Track.bursts, Config.track, bursts'] using hj
          exact life'.rested_of_last (valid.proc hp) (by rw [← wake]; exact due) j hj
    | @preempt e sp c p s f state seat runs ran left hook_eq hook =>
        exact lives.preempt valid sound seat runs ran ok ledger
    | @block e sp c p s heap state seat runs ran used more pushed hook =>
        have ok' : (S.chargeRun e c p).fail = .ok := by
          have eq := (sound.startIo_eq valid seat runs used more).2
          rw [eq] at ok
          exact ok
        exact lives.block valid sound seat runs ran used more ok' ledger
    | @complete e sp c p s state seat runs ran used last hook =>
        exact lives.complete valid sound seat runs ran used
          (by simpa [finishProcess, burstOver] using ok) ledger
    | @mark e sp c p s seat switching redecides =>
        refine ⟨ledger, fun q hq => ?_⟩
        have same : Config.track ⟨S.setCore e c { e.cores c with recheck := true }, sp⟩ q =
            Config.track ⟨e, sp⟩ q := by
          refine track_congr rfl rfl (fun c' s' _ => ?_) (fun _ _ => .refl) rfl rfl rfl
          by_cases same : c' = c
          · subst same
            simp [setCore, frontier]
          · simp [setCore, same]
        rw [same]
        exact lives.lived q hq
    | start seat switching elapsed => exact lives.start valid sound seat switching elapsed ledger
    | @pick e sp s state hook early =>
        have ready : sp s.proc = .ready := (sound.pick contract hook early).1
        refine lives.step s.proc ledger (fun q ne => track_moved ne rfl rfl rfl rfl rfl rfl)
          fun ends _ lived => ⟨ends, ?_⟩
        obtain ⟨life, start, -, arrived, rested, -, -⟩ := lived
        have arrived := arrived (by simp [Config.track, ready])
        have rested := rested (by simp [Config.track, ready]) (by simp [Config.track, ready])
        rw [track_offCore (.held s) (Function.update_self ..) (by simp)]
        rw [track_offCore .ready ready (by simp)] at life start arrived rested
        refine ⟨?_, start, by simp, fun _ => arrived, fun _ _ j hj => ?_, by simp, by simp⟩
        · simpa [Track.bursts, Config.track] using life
        · exact rested j (by simpa [Track.bursts, Config.track] using hj)
    | refuse => exact ⟨ledger, lives.lived⟩
    | @place e sp c s held core_lt free fits =>
        exact lives.place valid hcs sound held core_lt free fits ok ledger
  advance _ _ _ _ gt here ok := (here ok).advance gt.le

end Runs

end Sim

end CpuSched
