import CpuSched.Engine.Runs

/-!
# Timelines

A timeline is recorded in three places: the idle time of a core when the next
slice is dispatched, a switch-in in advance, and a run when its slice ends.
`Tiled` says what a timeline may look like, newest segment first; `Lane` ties it
to the fields of its core.  Every step of an instant records on at most one core,
and `CoreStep` lists the four ways.
-/

namespace CpuSched

/-! ## Recording an interval -/

/-- The length of a segment. -/
def Segment.length (seg : Segment) : Int := seg.stop - seg.start

/-- What `append` does to a timeline, apart from the segment limit. -/
def record (l : List Segment) (a b : Int) (p : Option Nat) (k : SegmentKind) : List Segment :=
  if b ≤ a then l
  else
    match l with
    | last :: rest =>
        if last.kind = k ∧ last.proc = p ∧ last.stop = a then { last with stop := b } :: rest
        else ⟨a, b, p, k⟩ :: last :: rest
    | [] => [⟨a, b, p, k⟩]

section Record

variable {l : List Segment} {a b : Int} {p : Option Nat} {k : SegmentKind}

theorem record_of_le (h : b ≤ a) : record l a b p k = l := if_pos h

theorem record_extend {last : Segment} (lt : a < b) (kind_eq : last.kind = k)
    (proc_eq : last.proc = p) (stop_eq : last.stop = a) :
    record (last :: l) a b p k = { last with stop := b } :: l := by
  simp [record, lt.not_ge, kind_eq, proc_eq, stop_eq]

theorem record_push (lt : a < b)
    (apart : ∀ last ∈ l.head?, ¬ (last.kind = k ∧ last.proc = p)) :
    record l a b p k = ⟨a, b, p, k⟩ :: l := by
  cases l with
  | nil => simp [record, lt.not_ge]
  | cons last rest =>
      have apart := apart last rfl
      simp only [record, lt.not_ge, if_false]
      rw [if_neg fun h => apart ⟨h.1, h.2.1⟩]

end Record

/-- An `append` that does not fail records on its own timeline. -/
theorem Sim.append_timelines {D : Type} {S : Sim D} {e : S.Eng} {c : Nat} {a b : Int}
    {p : Option Nat} {k : SegmentKind} (ok : (S.append e c a b p k).fail = .ok) :
    e.fail = .ok ∧ (S.append e c a b p k).timelines =
      Function.update e.timelines c (record (e.timelines c) a b p k) := by
  by_cases lt : a < b
  · obtain ⟨before, rec⟩ := S.append_recorded e c a b p k ok lt
    refine ⟨before, ?_⟩
    generalize S.append e c a b p k = e' at rec
    cases rec with
    | extended timeline kind_eq proc_eq stop_eq =>
        rw [timeline, record_extend lt kind_eq proc_eq stop_eq]
    | pushed apart room =>
        cases timeline : e.timelines c with
        | nil => simp [record, lt.not_ge]
        | cons last rest =>
            have apart := apart last rest timeline
            simp only [record, lt.not_ge, if_false]
            rw [if_neg apart]
  · have same := S.append_of_le e c a b p k (by omega)
    rw [same] at ok ⊢
    rw [record_of_le (by omega)]
    exact ⟨ok, (Function.update_eq_self c e.timelines).symm⟩

/-! ## Well-formed timelines -/

/-- The process of the last run. -/
def lastRun : List Segment → Option Nat
  | [] => none
  | seg :: rest => if seg.kind = .run then seg.proc else lastRun rest

/-- A run of `p` may be recorded as a new segment after `l`: the newest segment is
not a run of `p`, a switch-in before it is one of `p`, and there is one if switches
cost time and the last run is of another process. -/
structure RunFits (cs : Int) (l : List Segment) (p : Nat) : Prop where
  apart : ∀ last ∈ l.head?, ¬ (last.kind = .run ∧ last.proc = some p)
  own : ∀ last ∈ l.head?, last.kind = .cs → last.proc = some p
  charged : 0 < cs → ∀ q, lastRun l = some q → q ≠ p → ∃ last ∈ l.head?, last.kind = .cs

/-- A segment may stand after the timeline `l`. -/
inductive Follows (cs : Int) (l : List Segment) : Segment → Prop
  | idle {a b} (head : ∀ last ∈ l.head?, last.kind = .run) : Follows cs l ⟨a, b, none, .idle⟩
  | switch {a p q} (pos : 0 < cs) (head : ∀ last ∈ l.head?, last.kind ≠ .cs)
      (last : lastRun l = some q) (ne : q ≠ p) : Follows cs l ⟨a, a + cs, some p, .cs⟩
  | run {a b p} (fits : RunFits cs l p) : Follows cs l ⟨a, b, some p, .run⟩

/-- The timeline `l`, newest first, covers the time from `first` to `stop`. -/
inductive Tiled (cs first : Int) : List Segment → Int → Prop
  | nil : Tiled cs first [] first
  | cons {l seg} (before : Tiled cs first l seg.start) (lt : seg.start < seg.stop)
      (follows : Follows cs l seg) : Tiled cs first (seg :: l) seg.stop

section Tiled

variable {cs first a b t : Int} {l : List Segment} {p : Option Nat} {k : SegmentKind} {q : Nat}

theorem Tiled.le (tiled : Tiled cs first l t) : first ≤ t := by
  induction tiled with
  | nil => exact le_rfl
  | cons before lt follows ih => exact ih.trans lt.le

/-- Only one of two neighbours is a run of the same process, and only one is
idle. -/
theorem Follows.apart {seg : Segment} (follows : Follows cs l seg) :
    ∀ last ∈ l.head?, ¬ (last.kind = seg.kind ∧ last.proc = seg.proc) := by
  rintro last mem ⟨kind_eq, proc_eq⟩
  cases follows with
  | idle head => simp [head last mem] at kind_eq
  | switch pos head => exact head last mem kind_eq
  | run fits => exact fits.apart last mem ⟨kind_eq, proc_eq⟩

/-- A non-empty interval at the end becomes a segment of its own if it may stand
there. -/
theorem Tiled.push (tiled : Tiled cs first l a) (lt : a < b) (follows : Follows cs l ⟨a, b, p, k⟩) :
    record l a b p k = ⟨a, b, p, k⟩ :: l ∧ Tiled cs first (record l a b p k) b := by
  have pushed := record_push (l := l) (p := p) (k := k) lt follows.apart
  refine ⟨pushed, ?_⟩
  rw [pushed]
  exact .cons tiled lt follows

/-- The newest run goes on. -/
theorem Tiled.extend (tiled : Tiled cs first (⟨t, a, some q, .run⟩ :: l) a) (lt : a < b) :
    record (⟨t, a, some q, .run⟩ :: l) a b (some q) .run = ⟨t, b, some q, .run⟩ :: l ∧
      Tiled cs first (⟨t, b, some q, .run⟩ :: l) b := by
  refine ⟨record_extend lt rfl rfl rfl, ?_⟩
  cases tiled with
  | cons before lt' follows =>
      cases follows with
      | run fits =>
          have lt' : t < a := lt'
          exact @Tiled.cons cs first _ ⟨t, b, some q, .run⟩ before (lt'.trans lt) (.run fits)

end Tiled

/-! ## A core and its timeline -/

/-- How far the timeline of a core goes. -/
def frontier (core : Core) : Int :=
  if core.proc = none then core.freeSince else if core.inCs then core.busyUntil else core.runStart

/-- What the newest segment of a core is. -/
inductive Tail (cs : Int) (core : Core) (l : List Segment) : Prop
  | unused (free : core.proc = none) (context : core.context = none) (timeline : l = [])
  | ran {a q rest} (free : core.proc = none) (context : core.context = some q)
      (timeline : l = ⟨a, core.freeSince, some q, .run⟩ :: rest)
  | switching {a p rest} (on : core.proc = some p) (switching : core.inCs = true)
      (timeline : l = ⟨a, core.busyUntil, some p, .cs⟩ :: rest)
  | goesOn {a p rest} (on : core.proc = some p) (runs : core.inCs = false)
      (timeline : l = ⟨a, core.runStart, some p, .run⟩ :: rest)
  | fresh {p} (on : core.proc = some p) (runs : core.inCs = false) (fits : RunFits cs l p)

/-- The timeline of a core. -/
structure Lane (cs first : Int) (core : Core) (l : List Segment) : Prop where
  tiled : Tiled cs first l (frontier core)
  tail : Tail cs core l

/-- The idle time of a core before a slice is entered. -/
def idleRecord (core : Core) (now : Int) (l : List Segment) : List Segment :=
  record l core.freeSince now none .idle

/-- Dispatching `p` on this core is a switch. -/
def switchesTo (core : Core) (p : Nat) : Int :=
  if core.context = none ∨ core.context = some p then 0 else 1

/-- One step on a core at `now`: what it does to the timeline, how many switches it
counts and how many ticks it charges to each process. -/
inductive CoreStep (cs now : Int) : Core → List Segment → Core → List Segment → Int →
    (Nat → Int) → Prop
  | start {core core' : Core} {l p} (on : core.proc = some p) (switching : core.inCs = true)
      (elapsed : core.busyUntil = now) (on' : core'.proc = some p) (runs : core'.inCs = false)
      (start_eq : core'.runStart = now) : CoreStep cs now core l core' l 0 0
  | leave {core core' : Core} {l p} (on : core.proc = some p) (runs : core.inCs = false)
      (ran : core.runStart < now) (free : core'.proc = none) (since : core'.freeSince = now)
      (context : core'.context = some p) :
      CoreStep cs now core l core' (record l core.runStart now (some p) .run) 0
        (Pi.single p (now - core.runStart))
  | enter {core core' : Core} {l p} (free : core.proc = none) (since : core.freeSince ≤ now)
      (gratis : switchesTo core p = 0 ∨ cs = 0) (on : core'.proc = some p)
      (runs : core'.inCs = false) (start_eq : core'.runStart = now) :
      CoreStep cs now core l core' (idleRecord core now l) (switchesTo core p) 0
  | switch {core core' : Core} {l p} (free : core.proc = none) (since : core.freeSince ≤ now)
      (pos : 0 < cs) (switches : switchesTo core p = 1) (on : core'.proc = some p)
      (switching : core'.inCs = true) (busy_eq : core'.busyUntil = now + cs) :
      CoreStep cs now core l core' (record (idleRecord core now l) now (now + cs) (some p) .cs) 1 0

section CoreStep

variable {cs first now : Int} {core core' : Core} {l l' : List Segment} {sw : Int}
  {charged : Nat → Int}

theorem switchesTo_eq_one {p : Nat} (h : switchesTo core p = 1) :
    ∃ q, core.context = some q ∧ q ≠ p := by
  unfold switchesTo at h
  split_ifs at h with stays
  · cases h
  · rw [not_or] at stays
    obtain ⟨q, context⟩ := Option.ne_none_iff_exists'.mp stays.1
    exact ⟨q, context, fun same => stays.2 (by rw [context, same])⟩

theorem switchesTo_eq_zero {p : Nat} (h : switchesTo core p = 0) :
    core.context = none ∨ core.context = some p := by
  unfold switchesTo at h
  split_ifs at h with stays
  · exact stays
  · cases h

theorem lastRun_idleRecord (l : List Segment) (core : Core) (now : Int) :
    lastRun (idleRecord core now l) = lastRun l := by
  unfold idleRecord record
  split_ifs
  · rfl
  · cases l with
    | nil => rfl
    | cons last rest =>
        dsimp only
        split_ifs with merge
        · simp [lastRun, merge.1]
        · simp [lastRun]

/-- What a free core last ran. -/
theorem Lane.context_eq (lane : Lane cs first core l) (free : core.proc = none) :
    core.context = lastRun l := by
  cases lane.tail with
  | unused _ context timeline => rw [context, timeline, lastRun]
  | ran _ context timeline => rw [context, timeline, lastRun, if_pos rfl]
  | switching on => cases free.symm.trans on
  | goesOn on => cases free.symm.trans on
  | fresh on => cases free.symm.trans on

/-- The idle time of a free core closes the gap; the newest segment is then the
last run, or the idle time after it. -/
theorem Lane.idle (lane : Lane cs first core l) (free : core.proc = none)
    (since : core.freeSince ≤ now) :
    Tiled cs first (idleRecord core now l) now ∧
      (∀ last ∈ (idleRecord core now l).head?, last.kind ≠ .cs) ∧
      ∀ last ∈ (idleRecord core now l).head?, last.kind = .run →
        core.context = last.proc ∧ last.stop = now := by
  have tiled := lane.tiled
  rw [frontier, if_pos free] at tiled
  have head : ∀ last ∈ l.head?, last.kind = .run ∧ core.context = last.proc ∧
      last.stop = core.freeSince := by
    intro last mem
    cases lane.tail with
    | unused _ _ timeline => simp [timeline] at mem
    | ran _ context timeline =>
        rw [timeline, List.head?_cons, Option.mem_some_iff] at mem
        subst mem
        exact ⟨rfl, context, rfl⟩
    | switching on => cases free.symm.trans on
    | goesOn on => cases free.symm.trans on
    | fresh on => cases free.symm.trans on
  rcases since.lt_or_eq with lt | rfl
  · obtain ⟨pushed, tiled'⟩ := tiled.push (p := none) (k := .idle) lt
      (.idle fun last mem => (head last mem).1)
    unfold idleRecord
    rw [pushed] at tiled' ⊢
    exact ⟨tiled', by simp, by simp⟩
  · unfold idleRecord
    rw [record_of_le le_rfl]
    exact ⟨tiled, fun last mem => by simp [(head last mem).1], fun last mem _ => (head last mem).2⟩

/-- A step on a core keeps its timeline in order. -/
theorem CoreStep.lane (step : CoreStep cs now core l core' l' sw charged)
    (lane : Lane cs first core l) : Lane cs first core' l' := by
  cases step with
  | @start _ _ p on switching elapsed on' runs start_eq =>
      have same : frontier core' = frontier core := by
        simp [frontier, on, on', switching, runs, start_eq, elapsed]
      refine ⟨same ▸ lane.tiled, ?_⟩
      cases lane.tail with
      | @switching a q rest on₁ _ timeline =>
          obtain rfl := Option.some.inj (on.symm.trans on₁)
          refine .fresh on' runs ⟨?_, ?_, ?_⟩
          · simp [timeline]
          · simp [timeline]
          · intro _ _ _ _
            exact ⟨_, by rw [timeline]; rfl, rfl⟩
      | unused free => cases free.symm.trans on
      | ran free => cases free.symm.trans on
      | goesOn _ runs₁ => cases switching.symm.trans runs₁
      | fresh _ runs₁ => cases switching.symm.trans runs₁
  | @leave _ _ p on runs ran free since context =>
      have tiled := lane.tiled
      have stop : frontier core = core.runStart := by simp [frontier, on, runs]
      have stop' : frontier core' = now := by simp [frontier, free, since]
      rw [stop] at tiled
      cases lane.tail with
      | @goesOn a q rest on₁ _ timeline =>
          obtain rfl := Option.some.inj (on.symm.trans on₁)
          rw [timeline] at tiled ⊢
          obtain ⟨merged, tiled'⟩ := tiled.extend ran
          rw [merged]
          exact ⟨stop' ▸ tiled', .ran free context (by rw [since])⟩
      | @fresh q on₁ _ fits =>
          obtain rfl := Option.some.inj (on.symm.trans on₁)
          obtain ⟨pushed, tiled'⟩ := tiled.push (p := some p) (k := .run) ran (.run fits)
          rw [pushed] at tiled' ⊢
          exact ⟨stop' ▸ tiled', .ran free context (by rw [since])⟩
      | unused free₁ => cases free₁.symm.trans on
      | ran free₁ => cases free₁.symm.trans on
      | switching _ switching => cases switching.symm.trans runs
  | @enter _ _ p free since gratis on runs start_eq =>
      obtain ⟨tiled, notCs, run⟩ := lane.idle free since
      have stop' : frontier core' = now := by simp [frontier, on, runs, start_eq]
      refine ⟨stop' ▸ tiled, ?_⟩
      by_cases continues : ∃ last ∈ (idleRecord core now l).head?, last.kind = .run ∧
          last.proc = some p
      · obtain ⟨last, mem, kind_eq, proc_eq⟩ := continues
        obtain ⟨rest, timeline⟩ := List.head?_eq_some_iff.mp mem
        obtain ⟨-, stop_eq⟩ := run last mem kind_eq
        have head : idleRecord core now l = ⟨last.start, core'.runStart, some p, .run⟩ :: rest := by
          rw [timeline, start_eq, ← stop_eq, ← kind_eq, ← proc_eq]
        exact .goesOn on runs head
      · push Not at continues
        refine .fresh on runs ⟨fun last mem h => continues last mem h.1 h.2,
          fun last mem h => absurd h (notCs last mem), fun pos q hq ne => ?_⟩
        rw [lastRun_idleRecord, ← lane.context_eq free] at hq
        rcases gratis with stays | rfl
        · rcases switchesTo_eq_zero stays with h | h
          · cases hq.symm.trans h
          · exact absurd (Option.some.inj (hq.symm.trans h)) ne
        · exact absurd pos (lt_irrefl 0)
  | @switch _ _ p free since pos switches on switching busy_eq =>
      obtain ⟨tiled, notCs, -⟩ := lane.idle free since
      obtain ⟨q, context, ne⟩ := switchesTo_eq_one switches
      have stop' : frontier core' = now + cs := by simp [frontier, on, switching, busy_eq]
      obtain ⟨pushed, tiled'⟩ := tiled.push (b := now + cs) (p := some p) (k := .cs) (by omega)
        (.switch pos notCs (by rw [lastRun_idleRecord, ← lane.context_eq free, context]) ne)
      rw [pushed] at tiled' ⊢
      exact ⟨stop' ▸ tiled', .switching on switching (by rw [busy_eq])⟩

end CoreStep

end CpuSched
