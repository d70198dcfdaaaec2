import Mathlib.Algebra.Order.BigOperators.Group.List
import CpuSched.Engine.Schedule
import CpuSched.Util.Intervals

/-!
# The service every process gets

In a successful run the segments of a process, in order, split into its CPU
bursts; between two bursts lies its I/O.  The burst ends of a process can be read
off the timelines, and so can the time it waits.
-/

namespace CpuSched

/-! ## The segments of a process as a list -/

/-- The RUN and CS segments of process `p` on the first `n` cores. -/
def busyOf (n : Nat) (timelines : Nat → List Segment) (p : Nat) : List Segment :=
  (List.range n).flatMap fun c => (timelines c).filter fun seg => seg.proc = some p

/-- The RUN segments of process `p` on the first `n` cores. -/
def runsOf (n : Nat) (timelines : Nat → List Segment) (p : Nat) : List Segment :=
  (busyOf n timelines p).filter fun seg => seg.kind = .run

section Lists

variable {n : Nat} {timelines : Nat → List Segment} {p : Nat} {seg : Segment}

theorem mem_busyOf : seg ∈ busyOf n timelines p ↔ ∃ c, trailOf n timelines p c seg := by
  simp [busyOf, trailOf]

theorem mem_runsOf : seg ∈ runsOf n timelines p ↔
    (∃ c, trailOf n timelines p c seg) ∧ seg.kind = .run := by
  simp [runsOf, mem_busyOf]

/-- The ticks before `t`, added up over the runs. -/
theorem ranOf_eq_sum (n : Nat) (timelines : Nat → List Segment) (p : Nat) (t : Int) :
    ranOf n timelines p t =
      ((runsOf n timelines p).map fun seg => min seg.stop t - min seg.start t).sum := by
  have one : ∀ l : List Segment, ranBefore p t l =
      (((l.filter fun seg => seg.proc = some p).filter fun seg => seg.kind = .run).map
        fun seg => min seg.stop t - min seg.start t).sum := by
    intro l
    induction l with
    | nil => rfl
    | cons seg rest ih =>
        rw [ranBefore, ih]
        by_cases own : seg.proc = some p
        · by_cases run : seg.kind = .run
          · simp [own, run, add_comm]
          · simp [own, run]
        · simp [own]
  unfold ranOf runsOf busyOf
  induction n with
  | zero => rfl
  | succ n ih =>
      rw [Finset.sum_range_succ, ih, one]
      simp [List.range_succ, List.flatMap_append]

end Lists

/-- The older segments end before the newer ones start. -/
theorem Tiled.pairwise {cs first stop : Int} {l : List Segment} (tiled : Tiled cs first l stop) :
    (∀ seg ∈ l, seg.stop ≤ stop) ∧ l.Pairwise fun newer older => older.stop ≤ newer.start := by
  induction tiled with
  | nil => simp
  | cons before lt follows ih =>
      refine ⟨fun seg mem => ?_, List.pairwise_cons.mpr ⟨ih.1, ih.2⟩⟩
      rcases List.mem_cons.mp mem with rfl | mem
      · exact le_rfl
      · exact (ih.1 seg mem).trans lt.le

theorem ranBefore_reverse (p : Nat) (t : Int) (l : List Segment) :
    ranBefore p t l.reverse = ranBefore p t l := by
  have append : ∀ l l' : List Segment,
      ranBefore p t (l ++ l') = ranBefore p t l + ranBefore p t l' := by
    intro l l'
    induction l with
    | nil => simp [ranBefore]
    | cons seg rest ih =>
        simp only [List.cons_append, ranBefore, ih]
        ring
  induction l with
  | nil => rfl
  | cons seg rest ih =>
      rw [List.reverse_cons, append, ih]
      simp [ranBefore]

/-! ## Bursts -/

/-- The CPU bursts of a process. -/
def Process.cpuBursts (proc : Process) : List Int :=
  (List.range ((proc.phaseCount + 1) / 2)).map fun j => proc.phase (2 * j)

/-- The segments in `busy` and the outcome `o` serve the process in full: its runs
split into blocks, one for each CPU burst, and its I/O phases lie between
them. -/
structure ServedInFull (proc : Process) (o : ProcOutcome) (busy runs : List Segment)
    (blocks : List (List Segment)) : Prop where
  split : blocks.flatten.Perm runs
  ordered : blocks.flatten.Pairwise fun a b => a.stop ≤ b.start
  bursts : blocks.map (fun block => (block.map Segment.length).sum) = proc.cpuBursts
  arrived : ∀ seg ∈ blocks.flatten, proc.arrival ≤ seg.start
  io : ∀ {j block}, blocks[j]? = some block → 2 * j + 1 < proc.phaseCount →
    ∃ last ∈ block.getLast?, ∀ seg ∈ busy,
      seg.stop ≤ last.stop ∨ last.stop + proc.phase (2 * j + 1) ≤ seg.start
  apart : busy.Pairwise (Apart Segment.start Segment.stop)
  start_eq : ∃ first ∈ blocks.flatten.head?, first.start = o.start
  completion_eq : ∃ last ∈ blocks.flatten.getLast?, last.stop = o.completion

/-- The ends of the bursts before burst `j`. -/
def burstFrom (arrival : Int) (ends : Nat → Int) : Nat → Int
  | 0 => arrival
  | j + 1 => ends j

/-- Block `j` of the runs in `l`. -/
def blockOf (arrival : Int) (ends : Nat → Int) (l : List Segment) (j : Nat) : List Segment :=
  endingIn Segment.stop (burstFrom arrival ends j) (ends j) l

/-- The blocks up to burst `j` are the runs that end by then. -/
theorem flatten_blocks {a : Int} {ends : Nat → Int} {l : List Segment}
    (sorted : l.Pairwise fun x y => x.stop ≤ y.stop) (later : ∀ seg ∈ l, a < seg.stop)
    (m : Nat) (order : ∀ j < m, burstFrom a ends j ≤ ends j) :
    ((List.range m).map (blockOf a ends l)).flatten =
      endingBy Segment.stop (burstFrom a ends m) l := by
  induction m with
  | zero =>
      symm
      rw [endingBy, List.range_zero, List.map_nil, List.flatten_nil, List.filter_eq_nil_iff]
      intro seg mem
      rw [decide_eq_true_eq, burstFrom, not_le]
      exact later seg mem
  | succ m ih =>
      rw [List.range_succ, List.map_append, List.flatten_append, ih fun j hj => order j (by omega)]
      simp only [List.map_cons, List.map_nil, List.flatten_cons, List.flatten_nil, List.append_nil]
      exact (endingBy_append sorted (order m (by omega))).symm

/-- No two segments of a process overlap. -/
theorem Life.busy_apart {proc : Process} {n : Nat} {timelines : Nat → List Segment} {p : Nat}
    {ran : Int → Int} {ends : Nat → Int} {m : Nat} {edge : Int}
    (life : Life proc (trailOf n timelines p) ran ends m edge)
    (each : ∀ c < n, (timelines c).Pairwise fun a b => a.stop ≤ b.start) :
    (busyOf n timelines p).Pairwise (Apart Segment.start Segment.stop) := by
  refine List.pairwise_flatMap.mpr ⟨fun c hc => ?_, ?_⟩
  · exact ((each c (List.mem_range.mp hc)).imp fun h => Or.inl h).filter _
  · refine List.Nodup.pairwise_of_forall_ne List.nodup_range
      fun c hc c' hc' ne seg mem seg' mem' => ?_
    simp only [List.mem_filter, decide_eq_true_eq] at mem mem'
    exact life.apart ⟨List.mem_range.mp hc, mem⟩ ⟨List.mem_range.mp hc', mem'⟩ ne

section Blocks

variable {proc : Process} {n : Nat} {timelines : Nat → List Segment} {p : Nat} {ends : Nat → Int}
  {m : Nat} {edge : Int}

/-- The ends of the bursts come one after another. -/
theorem Life.burstFrom_lt (valid : proc.Valid) {trail : Trail} {ran : Int → Int}
    (life : Life proc trail ran ends m edge) : ∀ j < m, burstFrom proc.arrival ends j < ends j := by
  intro j hj
  cases j with
  | zero =>
      obtain ⟨c, seg, here, -, stop_eq⟩ := life.closed hj
      have := (life.bounded here).1
      have := life.pos here
      simp only [burstFrom]
      omega
  | succ j =>
      have := life.order hj
      have := valid.ioPhase_nonneg j
      simp only [burstFrom]
      omega

/-- The runs that end with the first bursts add up to these bursts. -/
theorem Life.sum_endingBy
    (life : Life proc (trailOf n timelines p) (ranOf n timelines p) ends m edge)
    {l : List Segment} (perm : l.Perm (runsOf n timelines p)) (valid : proc.Valid) :
    ∀ j ≤ m, ((endingBy Segment.stop (burstFrom proc.arrival ends j) l).map Segment.length).sum =
      proc.cpuBefore (2 * j) := by
  have mem_l : ∀ seg ∈ l, ∃ c, trailOf n timelines p c seg := fun seg mem =>
    (mem_runsOf.mp (perm.mem_iff.mp mem)).1
  intro j hj
  cases j with
  | zero =>
      have empty : endingBy Segment.stop (burstFrom proc.arrival ends 0) l = [] := by
        rw [endingBy, List.filter_eq_nil_iff]
        intro seg mem
        obtain ⟨c, here⟩ := mem_l seg mem
        have := (life.bounded here).1
        have := life.pos here
        rw [decide_eq_true_eq, burstFrom]
        omega
      simp [empty, Process.cpuBefore, evenSum]
  | succ j =>
      have total := sum_before Segment.start Segment.stop (t := ends j) (l := l)
        (fun seg mem => by
          obtain ⟨c, here⟩ := mem_l seg mem
          exact (life.pos here).le)
        (fun seg mem => by
          obtain ⟨c, here⟩ := mem_l seg mem
          rcases life.fence hj here with h | h
          · exact .inl h
          · have := valid.ioPhase_nonneg j
            exact .inr (by omega))
      have sums := life.sums hj
      rw [ranOf_eq_sum, ← (perm.map _).sum_eq, total] at sums
      exact sums

/-- The runs of a process that has finished all its bursts add up to its work. -/
theorem Life.sum_runs (valid : proc.Valid)
    (life : Life proc (trailOf n timelines p) (ranOf n timelines p) ends (m + 1) edge)
    (all : 2 * m + 1 = proc.phaseCount)
    (bound : ∀ {c seg}, trailOf n timelines p c seg → seg.stop ≤ ends m) :
    ((runsOf n timelines p).map fun seg => seg.stop - seg.start).sum = proc.burst := by
  have sums := life.sums (Nat.lt_succ_self m)
  have whole : proc.cpuBefore (2 * m + 2) = proc.burst := by
    rw [valid.burst_eq, Process.cpuBefore,
      List.take_of_length_le (by unfold Process.phaseCount at all; omega)]
  rw [whole, ranOf_eq_sum] at sums
  rw [← sums]
  refine congrArg List.sum (List.map_congr_left fun seg mem => ?_)
  obtain ⟨⟨c, here⟩, -⟩ := mem_runsOf.mp mem
  have := bound here
  have := life.pos here
  omega

/-- A process that has finished all its bursts has been served in full. -/
theorem Life.servedInFull (valid : proc.Valid) {o : ProcOutcome}
    (life : Life proc (trailOf n timelines p) (ranOf n timelines p) ends (m + 1) edge)
    (all : 2 * m + 1 = proc.phaseCount)
    (start : StartOk proc.arrival (trailOf n timelines p) o edge none)
    (completion : o.completion = ends m)
    (bound : ∀ {c seg}, trailOf n timelines p c seg → seg.stop ≤ o.completion)
    (each : ∀ c < n, (timelines c).Pairwise fun a b => a.stop ≤ b.start) :
    ∃ blocks, ServedInFull proc o (busyOf n timelines p) (runsOf n timelines p) blocks := by
  obtain ⟨l, hl⟩ : ∃ l, l = (runsOf n timelines p).mergeSort fun a b => a.start ≤
    b.start := ⟨_, rfl⟩
  have perm : l.Perm (runsOf n timelines p) := hl ▸ List.mergeSort_perm ..
  have mem_l : ∀ {seg}, seg ∈ l ↔ (∃ c, trailOf n timelines p c seg) ∧ seg.kind = .run := by
    intro seg
    rw [perm.mem_iff, mem_runsOf]
  have pos : ∀ seg ∈ l, seg.start < seg.stop := fun seg mem => by
    obtain ⟨⟨c, here⟩, -⟩ := mem_l.mp mem
    exact life.pos here
  have busy_apart := life.busy_apart each
  have apart : l.Pairwise (Apart Segment.start Segment.stop) :=
    perm.symm.pairwise (busy_apart.filter _) fun h => h.symm
  have byStart : l.Pairwise fun a b => a.start ≤ b.start :=
    hl ▸ pairwise_mergeSort_key Segment.start _
  have ordered : l.Pairwise fun a b => a.stop ≤ b.start := by
    refine (byStart.and apart).imp_of_mem fun {a b} ha hb h => ?_
    have := pos b hb
    rcases h.2 with h' | h'
    · exact h'
    · have := h.1
      omega
  have byStop : l.Pairwise fun a b => a.stop ≤ b.stop :=
    ordered.imp_of_mem fun {a b} _ hb h => h.trans (pos b hb).le
  have lt := life.burstFrom_lt valid
  have flatten := flatten_blocks (a := proc.arrival) byStop (fun seg mem => by
    obtain ⟨⟨c, here⟩, -⟩ := mem_l.mp mem
    have := (life.bounded here).1
    have := life.pos here
    omega) (m + 1) fun j hj => (lt j hj).le
  have every : endingBy Segment.stop (burstFrom proc.arrival ends (m + 1)) l = l := by
    rw [endingBy, List.filter_eq_self]
    intro seg mem
    obtain ⟨⟨c, here⟩, -⟩ := mem_l.mp mem
    have := bound here
    rw [decide_eq_true_eq, burstFrom]
    omega
  rw [every] at flatten
  refine ⟨(List.range (m + 1)).map (blockOf proc.arrival ends l), ?_⟩
  constructor
  · rw [flatten]
    exact perm
  · rw [flatten]
    exact ordered
  · have count : (proc.phaseCount + 1) / 2 = m + 1 := by omega
    rw [Process.cpuBursts, count, List.map_map]
    refine List.map_congr_left fun j hj => ?_
    have hj := List.mem_range.mp hj
    have split := endingBy_append byStop (lt j hj).le
    have upTo := life.sum_endingBy perm valid (j + 1) hj
    have before := life.sum_endingBy perm valid j hj.le
    have cpu : proc.cpuBefore (2 * j + 2) = proc.cpuBefore (2 * j) + proc.phase (2 * j) :=
      Process.cpuBefore_add (by omega) (by omega)
    rw [burstFrom, split, List.map_append, List.sum_append, before, mul_add, mul_one, cpu] at upTo
    simpa [blockOf] using upTo
  · rw [flatten]
    intro seg mem
    obtain ⟨⟨c, here⟩, -⟩ := mem_l.mp mem
    exact (life.bounded here).1
  · intro j block block_eq more
    have hj : j < m + 1 := by omega
    rw [List.getElem?_map, List.getElem?_range hj, Option.map_some] at block_eq
    obtain rfl := Option.some.inj block_eq
    obtain ⟨c, seg, here, run, stop_eq⟩ := life.closed hj
    obtain ⟨last, last_eq, last_stop⟩ := getLast?_hi Segment.stop (t := ends j)
      (l := blockOf proc.arrival ends l j) (byStop.filter _) (fun a mem => by
        simp only [blockOf, endingIn, List.mem_filter, decide_eq_true_eq] at mem
        exact mem.2.2) ⟨seg, by
        simp only [blockOf, endingIn, List.mem_filter, decide_eq_true_eq, stop_eq]
        exact ⟨mem_l.mpr ⟨⟨c, here⟩, run⟩, lt j hj, le_rfl⟩, stop_eq⟩
    refine ⟨last, last_eq, fun s mem => ?_⟩
    obtain ⟨c', here'⟩ := mem_busyOf.mp mem
    rw [last_stop]
    exact life.fence hj here'
  · exact busy_apart
  · rw [flatten]
    have ran : 0 ≤ o.start := by
      by_contra first
      obtain ⟨c, seg, here, run, -⟩ := life.closed (Nat.succ_pos m)
      exact (start.unstarted (not_le.mp first)).1 here run
    obtain ⟨-, -, earliest, reached⟩ := start.started ran
    obtain ⟨c, seg, here, run, start_eq⟩ := reached.resolve_right (by simp)
    exact head?_lo Segment.start byStart (fun a mem => by
      obtain ⟨⟨c, here⟩, run⟩ := mem_l.mp mem
      exact earliest here run) ⟨seg, mem_l.mpr ⟨⟨c, here⟩, run⟩, start_eq⟩
  · rw [flatten]
    obtain ⟨c, seg, here, run, stop_eq⟩ := life.closed (Nat.lt_succ_self m)
    exact getLast?_hi Segment.stop byStop (fun a mem => by
      obtain ⟨⟨c, here⟩, -⟩ := mem_l.mp mem
      exact bound here) ⟨seg, mem_l.mpr ⟨⟨c, here⟩, run⟩, stop_eq.trans completion.symm⟩

end Blocks

/-! ## What a process does during a tick -/

/-- Process `p` runs during the tick from `t`. -/
def RunsAt (n : Nat) (timelines : Nat → List Segment) (p : Nat) (t : Int) : Prop :=
  Covers Segment.start Segment.stop (runsOf n timelines p) t

/-- A run of process `p` stops at `t`, and with it burst `j` is over. -/
def BurstEnds (proc : Process) (n : Nat) (timelines : Nat → List Segment) (p j : Nat) (t : Int) :
    Prop :=
  (∃ seg ∈ runsOf n timelines p, seg.stop = t) ∧
    ranOf n timelines p t = proc.cpuBefore (2 * j + 2)

/-- During the tick from `t` process `p` is in the I/O phase that follows one of its
bursts. -/
def InIo (proc : Process) (n : Nat) (timelines : Nat → List Segment) (p : Nat) (t : Int) : Prop :=
  ∃ j e, 2 * j + 1 < proc.phaseCount ∧ BurstEnds proc n timelines p j e ∧
    e ≤ t ∧ t < e + proc.phase (2 * j + 1)

section Ticks

variable {proc : Process} {n : Nat} {timelines : Nat → List Segment} {p : Nat} {ends : Nat → Int}
  {m : Nat} {edge : Int}

/-- A process has executed more when one of its runs stops than at any time
before. -/
theorem Life.ranOf_lt {ran : Int → Int} (life : Life proc (trailOf n timelines p) ran ends m edge)
    {t t' : Int} (lt : t < t') (stops : ∃ seg ∈ runsOf n timelines p, seg.stop = t') :
    ranOf n timelines p t < ranOf n timelines p t' := by
  have pos : ∀ seg ∈ runsOf n timelines p, seg.start < seg.stop := fun seg mem => by
    obtain ⟨⟨c, here⟩, -⟩ := mem_runsOf.mp mem
    exact life.pos here
  rw [ranOf_eq_sum, ranOf_eq_sum]
  apply List.sum_lt_sum
  · intro seg mem
    have := pos seg mem
    omega
  · obtain ⟨seg, mem, stop_eq⟩ := stops
    have := pos seg mem
    exact ⟨seg, mem, by omega⟩

/-- A burst ends only once. -/
theorem Life.burstEnds_iff
    (life : Life proc (trailOf n timelines p) (ranOf n timelines p) ends m edge) {j : Nat}
    (hj : j < m) {t : Int} : BurstEnds proc n timelines p j t ↔ t = ends j := by
  obtain ⟨c, seg, here, run, stop_eq⟩ := life.closed hj
  have stops : ∃ seg ∈ runsOf n timelines p, seg.stop = ends j :=
    ⟨seg, mem_runsOf.mpr ⟨⟨c, here⟩, run⟩, stop_eq⟩
  have sums := life.sums hj
  constructor
  · rintro ⟨stops', sums'⟩
    rcases lt_trichotomy t (ends j) with lt | rfl | lt
    · have := life.ranOf_lt lt stops
      omega
    · rfl
    · have := life.ranOf_lt lt stops'
      omega
  · rintro rfl
    exact ⟨stops, sums⟩

end Ticks

/-! ## Successful runs -/

namespace Sim

variable {D : Type} [Double D] {S : Sim D}

section Final

variable {e : S.Eng} {sp : Nat → Spot} {r : SimResult} (final : Final S e sp r)
include final

omit [Double D] in
theorem Final.same (p : Nat) :
    ∀ c < S.opt.cores, SameFor p (e.timelines c) (r.timelines c) := by
  intro c hc
  rw [final.timelines c hc]
  have reversed : ∀ l : List Segment, SameFor p l l.reverse := fun l =>
    ⟨fun seg _ => List.mem_reverse, fun t => ranBefore_reverse p t l⟩
  exact (SameFor.record (by simp)).trans (reversed _)

omit [Double D] in
/-- How a process has lived, told by the result. -/
theorem Final.life {p : Nat} (hp : p < S.w.len) : ∃ ends m,
    Life (S.w.proc p) (trailOf S.opt.cores r.timelines p) (ranOf S.opt.cores r.timelines p) ends
      (m + 1) e.now ∧
    2 * m + 1 = (S.w.proc p).phaseCount ∧
    StartOk (S.w.proc p).arrival (trailOf S.opt.cores r.timelines p) (r.outcomes p) e.now none ∧
    (r.outcomes p).completion = ends m ∧
    ∀ {c seg}, trailOf S.opt.cores r.timelines p c seg → seg.stop ≤ (r.outcomes p).completion := by
  obtain ⟨ends, lived, bursts, edge⟩ := final.lived hp
  obtain ⟨completion, bound⟩ := lived.finished (final.done p hp)
  have last : e.phase p + 1 = (S.w.proc p).phaseCount := (final.spent p hp).1
  have odd := (final.valid.proc hp).phases_odd
  have run : (Config.track ⟨e, sp⟩ p).run = none := by
    simp [Config.track, Config.run, final.done p hp]
  have life := lived.life
  have start := lived.start
  rw [bursts, edge] at life
  rw [edge, run] at start
  rw [trailOf_congr (final.same p), ranOf_congr (final.same p), final.outcomes]
  have phase : (Config.track ⟨e, sp⟩ p).phase = e.phase p := rfl
  exact ⟨ends, e.phase p / 2, life, by omega, start, completion, bound⟩

omit [Double D] in
theorem Final.ordered {c : Nat} (hc : c < S.opt.cores) :
    (r.timelines c).Pairwise fun a b => a.stop ≤ b.start := by
  have := (final.tiled hc).pairwise.2
  rwa [List.pairwise_reverse] at this

end Final

/-- In a successful run of a built-in policy every process receives exactly its
bursts. -/
theorem simRun_service (builtIn : BuiltIn S) {r : SimResult} (success : S.simRun = .ok r) :
    ∀ p < S.w.len, ∃ blocks, ServedInFull (S.w.proc p) (r.outcomes p)
      (busyOf S.opt.cores r.timelines p) (runsOf S.opt.cores r.timelines p) blocks := by
  intro p hp
  obtain ⟨e, sp, final⟩ := simRun_final builtIn success
  obtain ⟨ends, m, life, all, start, completion, bound⟩ := final.life hp
  exact life.servedInFull (final.valid.proc hp) all start completion bound fun c hc =>
    final.ordered hc

/-- Each of the three processes receives its bursts: the first one in two blocks with its I/O
between them, the second one in two segments. -/
theorem trioSim_service : ∃ r, trioSim.simRun = .ok r ∧ TrioSchedule r ∧
    ∀ p < 3, ∃ blocks, ServedInFull (trioWorkload.proc p) (r.outcomes p) (busyOf 2 r.timelines p)
      (runsOf 2 r.timelines p) blocks := by
  obtain ⟨r, success, seen⟩ := trioSim_succeeds
  exact ⟨r, success, seen, simRun_service trioSim_builtIn success⟩

end Sim

end CpuSched
