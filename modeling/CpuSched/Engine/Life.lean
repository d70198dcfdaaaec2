import CpuSched.Engine.Ledger

/-!
# The life of a process

`Life` is what the segments of one process tell about it: the bursts it has
finished end at `ends 0, ends 1, …`, no segment reaches into an I/O interval, and
no two overlap.  A `Track` is everything of a configuration that is about one
process; a step of an instant changes the tracks of all other processes not at
all.
-/

namespace CpuSched

/-- The I/O phase after burst `j`. -/
def Process.ioPhase (proc : Process) (j : Nat) : Int := proc.phase (2 * j + 1)

/-! ## Runs before a time -/

/-- The ticks that `p` runs before `t`. -/
def ranBefore (p : Nat) (t : Int) : List Segment → Int
  | [] => 0
  | seg :: rest => ranBefore p t rest +
      if seg.kind = .run ∧ seg.proc = some p then min seg.stop t - min seg.start t else 0

/-- Recording from `t` on, or for another process, adds no ticks before `t`. -/
theorem ranBefore_record {l : List Segment} {a b t : Int} {r : Option Nat} {k : SegmentKind}
    {p : Nat} (later : t ≤ a ∨ r ≠ some p) :
    ranBefore p t (record l a b r k) = ranBefore p t l := by
  have pushed : a < b → (if k = .run ∧ r = some p then min b t - min a t else 0) = 0 := by
    intro lt
    split_ifs with h
    · have := later.resolve_right fun ne => ne h.2
      omega
    · rfl
  rcases le_or_gt b a with le | lt
  · rw [record_of_le le]
  · have pushed := pushed lt
    cases l with
    | nil => simpa [record, lt.not_ge, ranBefore] using pushed
    | cons last rest =>
        simp only [record, lt.not_ge, if_false]
        by_cases merge : last.kind = k ∧ last.proc = r ∧ last.stop = a
        · obtain ⟨rfl, rfl, rfl⟩ := merge
          rw [if_pos ⟨rfl, rfl, rfl⟩]
          simp only [ranBefore]
          split_ifs with h
          · have := later.resolve_right fun ne => ne h.2
            omega
          · rfl
        · rw [if_neg merge]
          simp only [ranBefore]
          rw [pushed, add_zero]

/-- After every run of `p`. -/
theorem ranBefore_eq_runTime {l : List Segment} {t : Int} {p : Nat}
    (before : ∀ seg ∈ l, seg.proc = some p → seg.start ≤ t ∧ seg.stop ≤ t) :
    ranBefore p t l = runTime p l := by
  induction l with
  | nil => rfl
  | cons seg rest ih =>
      have ih := ih fun s mem => before s (List.mem_cons_of_mem _ mem)
      simp only [runTime, segTime, ranBefore] at ih ⊢
      rw [ih]
      by_cases h : seg.kind = .run ∧ seg.proc = some p
      · have := before seg List.mem_cons_self h.2
        simp only [h, and_self, decide_true, if_true, Segment.length]
        omega
      · simp [h]

/-! ## Segments of one process -/

/-- `trail c seg`: the segment `seg` of the process is on core `c`. -/
abbrev Trail := Nat → Segment → Prop

/-- The trail `trail'` has the interval from `a` to `b` on core `c` more than `trail`,
as a segment of its own or as the end of one. -/
structure Adds (c : Nat) (a b : Int) (k : SegmentKind) (trail trail' : Trail) : Prop where
  sub : ∀ {c' seg}, trail' c' seg → trail c' seg ∨ (c' = c ∧ seg.kind = k ∧ seg.stop = b ∧
    (seg.start = a ∨ ∃ old, trail c old ∧ old.kind = k ∧ old.stop = a ∧ old.start = seg.start))
  sup : ∀ {c' seg}, trail c' seg → trail' c' seg ∨ (c' = c ∧ seg.kind = k ∧ seg.stop = a ∧
    ∃ new, trail' c new ∧ new.kind = k ∧ new.start = seg.start)
  new : ∃ seg, trail' c seg ∧ seg.kind = k ∧ seg.stop = b

/-- What the segments of a process tell about the `m` bursts it has finished.
Nothing of it is recorded after `edge`. -/
structure Life (proc : Process) (trail : Trail) (ran : Int → Int) (ends : Nat → Int) (m : Nat)
    (edge : Int) : Prop where
  pos : ∀ {c seg}, trail c seg → seg.start < seg.stop
  bounded : ∀ {c seg}, trail c seg → proc.arrival ≤ seg.start ∧ seg.stop ≤ edge
  apart : ∀ {c c' seg seg'}, trail c seg → trail c' seg' → c ≠ c' →
    seg.stop ≤ seg'.start ∨ seg'.stop ≤ seg.start
  fence : ∀ {j}, j < m → ∀ {c seg}, trail c seg →
    seg.stop ≤ ends j ∨ ends j + proc.ioPhase j ≤ seg.start
  closed : ∀ {j}, j < m → ∃ c seg, trail c seg ∧ seg.kind = .run ∧ seg.stop = ends j
  order : ∀ {j}, j + 1 < m → ends j + proc.ioPhase j < ends (j + 1)
  sums : ∀ {j}, j < m → ran (ends j) = proc.cpuBefore (2 * j + 2)

namespace Life

variable {proc : Process} {trail trail' : Trail} {ran ran' : Int → Int} {ends : Nat → Int} {m : Nat}
  {edge b : Int}

theorem later (life : Life proc trail ran ends m edge) (le : edge ≤ b) :
    Life proc trail ran ends m b :=
  ⟨life.pos, fun h => ⟨(life.bounded h).1, (life.bounded h).2.trans le⟩, life.apart, life.fence,
    life.closed, life.order, life.sums⟩

/-- An interval from `edge` on is recorded while the process is not resting. -/
theorem adds {c : Nat} {k : SegmentKind} (life : Life proc trail ran ends m edge)
    (adds : Adds c edge b k trail trail') (lt : edge < b) (arrived : proc.arrival ≤ edge)
    (io_pos : ∀ j < m, 0 < proc.ioPhase j) (rested : ∀ j < m, ends j + proc.ioPhase j ≤ edge)
    (same : ∀ t ≤ edge, ran' t = ran t) : Life proc trail' ran' ends m b := by
  have before : ∀ j < m, ends j < edge := by
    intro j hj
    have := io_pos j hj
    have := rested j hj
    omega
  constructor
  · intro c' seg h
    rcases adds.sub h with old | ⟨-, -, stop_eq, start_eq | ⟨o, ho, -, o_stop, o_start⟩⟩
    · exact life.pos old
    · omega
    · have := life.pos ho
      omega
  · intro c' seg h
    rcases adds.sub h with old | ⟨-, -, stop_eq, start_eq | ⟨o, ho, -, o_stop, o_start⟩⟩
    · exact ⟨(life.bounded old).1, (life.bounded old).2.trans lt.le⟩
    · exact ⟨start_eq ▸ arrived, stop_eq.le⟩
    · exact ⟨o_start ▸ (life.bounded ho).1, stop_eq.le⟩
  · -- the interval lies after everything on the other cores
    have fresh : ∀ {c' : Nat} {seg seg' : Segment}, c' ≠ c → trail c' seg' →
        (seg.start = edge ∨ ∃ old, trail c old ∧ old.kind = k ∧ old.stop = edge ∧
          old.start = seg.start) → seg'.stop ≤ seg.start := by
      rintro c' seg seg' ne h' (start_eq | ⟨o, ho, -, o_stop, o_start⟩)
      · exact start_eq ▸ (life.bounded h').2
      · rcases life.apart h' ho ne with h | h
        · exact o_start ▸ h
        · have := (life.bounded h').2
          have := life.pos h'
          omega
    intro c₁ c₂ seg₁ seg₂ h₁ h₂ ne
    rcases adds.sub h₁ with old₁ | ⟨rfl, -, -, new₁⟩
    · rcases adds.sub h₂ with old₂ | ⟨rfl, -, -, new₂⟩
      · exact life.apart old₁ old₂ ne
      · exact .inl (fresh ne old₁ new₂)
    · rcases adds.sub h₂ with old₂ | ⟨rfl, -, -, -⟩
      · exact .inr (fresh ne.symm old₂ new₁)
      · exact absurd rfl ne
  · intro j hj c' seg h
    rcases adds.sub h with old | ⟨-, -, stop_eq, start_eq | ⟨o, ho, -, o_stop, o_start⟩⟩
    · exact life.fence hj old
    · exact .inr (start_eq ▸ rested j hj)
    · rcases life.fence hj ho with h | h
      · have := before j hj
        omega
      · exact .inr (o_start ▸ h)
  · intro j hj
    obtain ⟨c', seg, h, kind_eq, stop_eq⟩ := life.closed hj
    rcases adds.sup h with h' | ⟨-, -, stop_eq', -⟩
    · exact ⟨c', seg, h', kind_eq, stop_eq⟩
    · have := before j hj
      omega
  · exact life.order
  · intro j hj
    rw [same _ (before j hj).le]
    exact life.sums hj

/-- A burst ends at `edge`. -/
theorem close (life : Life proc trail ran ends m edge)
    (rested : ∀ j < m, ends j + proc.ioPhase j < edge)
    (closed : ∃ c seg, trail c seg ∧ seg.kind = .run ∧ seg.stop = edge)
    (sum : ran edge = proc.cpuBefore (2 * m + 2)) :
    Life proc trail ran (Function.update ends m edge) (m + 1) edge := by
  have old : ∀ {j}, j < m → Function.update ends m edge j = ends j := fun hj =>
    Function.update_of_ne (by omega) ..
  refine ⟨life.pos, life.bounded, life.apart, fun {j} hj c seg h => ?_, fun {j} hj => ?_,
    fun {j} hj => ?_, fun {j} hj => ?_⟩
  · rcases (Nat.lt_succ_iff.mp hj).lt_or_eq with lt | rfl
    · rw [old lt]
      exact life.fence lt h
    · rw [Function.update_self]
      exact .inl (life.bounded h).2
  · rcases (Nat.lt_succ_iff.mp hj).lt_or_eq with lt | rfl
    · rw [old lt]
      exact life.closed lt
    · rw [Function.update_self]
      exact closed
  · rw [old (j := j) (by omega)]
    rcases (Nat.lt_succ_iff.mp hj).lt_or_eq with lt | same
    · rw [old lt]
      exact life.order lt
    · rw [same, Function.update_self]
      exact rested j (by omega)
  · rcases (Nat.lt_succ_iff.mp hj).lt_or_eq with lt | rfl
    · rw [old lt]
      exact life.sums lt
    · rw [Function.update_self]
      exact sum

end Life

/-- The recorded start of a process: `run` is the start of its current run. -/
structure StartOk (arrival : Int) (trail : Trail) (o : ProcOutcome) (edge : Int)
    (run : Option Int) : Prop where
  unstarted : o.start < 0 → (∀ {c seg}, trail c seg → seg.kind ≠ .run) ∧ run = none
  started : 0 ≤ o.start → arrival ≤ o.start ∧ o.start ≤ edge ∧
    (∀ {c seg}, trail c seg → seg.kind = .run → o.start ≤ seg.start) ∧
    ((∃ c seg, trail c seg ∧ seg.kind = .run ∧ seg.start = o.start) ∨ run = some o.start)

namespace StartOk

variable {arrival : Int} {trail trail' : Trail} {o : ProcOutcome} {edge b : Int}

theorem later {run : Option Int} (ok : StartOk arrival trail o edge run) (le : edge ≤ b) :
    StartOk arrival trail o b run :=
  ⟨ok.unstarted, fun h => ⟨(ok.started h).1, (ok.started h).2.1.trans le, (ok.started h).2.2⟩⟩

/-- The process starts to run at `edge`. -/
theorem begin (ok : StartOk arrival trail o edge none) (nonneg : 0 ≤ edge)
    (arrived : arrival ≤ edge) : StartOk arrival trail (Sim.startedOutcome o edge) edge
      (some edge) := by
  unfold Sim.startedOutcome
  split_ifs with first
  · obtain ⟨noRun, -⟩ := ok.unstarted first
    exact ⟨fun h => absurd nonneg (by simpa using h), fun _ => ⟨arrived, le_rfl,
      fun h kind_eq => absurd kind_eq (noRun h), .inr rfl⟩⟩
  · obtain ⟨h₁, h₂, h₃, h₄⟩ := ok.started (by omega)
    exact ⟨fun h => absurd h first, fun _ => ⟨h₁, h₂, h₃, .inl (h₄.resolve_right (by simp))⟩⟩

/-- A switch-in is recorded. -/
theorem addsSwitch {c : Nat} (ok : StartOk arrival trail o edge none) (le : edge ≤ b)
    (adds : Adds c edge b .cs trail trail') : StartOk arrival trail' o b none := by
  constructor
  · intro first
    obtain ⟨noRun, -⟩ := ok.unstarted first
    refine ⟨fun h => ?_, rfl⟩
    rcases adds.sub h with old | ⟨-, kind_eq, -⟩
    · exact noRun old
    · simp [kind_eq]
  · intro later
    obtain ⟨h₁, h₂, h₃, h₄⟩ := ok.started later
    refine ⟨h₁, h₂.trans le, fun h kind_eq => ?_, .inl ?_⟩
    · rcases adds.sub h with old | ⟨-, kind_eq', -⟩
      · exact h₃ old kind_eq
      · cases kind_eq.symm.trans kind_eq'
    · obtain ⟨c', seg, h, kind_eq, start_eq⟩ := h₄.resolve_right (by simp)
      rcases adds.sup h with h' | ⟨-, kind_eq', -⟩
      · exact ⟨c', seg, h', kind_eq, start_eq⟩
      · cases kind_eq.symm.trans kind_eq'

/-- The current run is recorded. -/
theorem addsRun {c : Nat} (ok : StartOk arrival trail o edge (some edge)) (lt : edge < b)
    (before : ∀ {c seg}, trail c seg → seg.start < seg.stop ∧ seg.stop ≤ edge)
    (adds : Adds c edge b .run trail trail') : StartOk arrival trail' o b none := by
  have started : 0 ≤ o.start := by
    by_contra first
    cases (ok.unstarted (not_le.mp first)).2
  obtain ⟨h₁, h₂, h₃, h₄⟩ := ok.started started
  refine ⟨fun first => absurd started (not_le.mpr first), fun _ => ⟨h₁, h₂.trans lt.le,
    fun h kind_eq => ?_, .inl ?_⟩⟩
  · rcases adds.sub h with old | ⟨-, -, -, start_eq | ⟨old, ho, o_kind, -, o_start⟩⟩
    · exact h₃ old kind_eq
    · exact start_eq ▸ h₂
    · exact o_start ▸ h₃ ho o_kind
  · rcases h₄ with ⟨c', seg, h, kind_eq, start_eq⟩ | now
    · rcases adds.sup h with h' | ⟨-, -, -, seg', h', kind_eq', start_eq'⟩
      · exact ⟨c', seg, h', kind_eq, start_eq⟩
      · exact ⟨c, seg', h', kind_eq', start_eq'.trans start_eq⟩
    · obtain ⟨seg, h, kind_eq, stop_eq⟩ := adds.new
      have now : edge = o.start := Option.some.inj now
      refine ⟨c, seg, h, kind_eq, ?_⟩
      rcases adds.sub h with old | ⟨-, -, -, start_eq | ⟨old, ho, o_kind, o_stop, o_start⟩⟩
      · have := (before old).2
        omega
      · exact start_eq.trans now
      · have := h₃ ho o_kind
        have := (before ho).1
        omega

end StartOk

end CpuSched
