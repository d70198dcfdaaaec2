import CpuSched.Engine.Schedule
import CpuSched.Policy.Calm
import CpuSched.Reference.TickLoop

/-!
# The engine and the tick loop side by side

Between two events the engine stands still while the tick loop counts.  `Mirrors` is
what the two have in common when the loop has come to the time `τ c` on core `c`: the
fields the engine changes at events only are the same, and what the loop counts tick by
tick is what the engine's times say.  One lemma for each kind of step of an instant, and
one for a tick of a core, keep it.
-/

namespace CpuSched

/-! ## Timelines as tick sequences -/

/-- What a core does during each tick of a segment. -/
def Segment.tick (seg : Segment) : CoreTick :=
  match seg.kind, seg.proc with
  | .run, some p => .run p
  | .cs, some p => .cs p
  | _, _ => .idle

/-- The ticks of a segment. -/
def Segment.ticks (seg : Segment) : List CoreTick := List.replicate seg.length.toNat seg.tick

/-- A timeline tick by tick. -/
def tickSequence (timeline : List Segment) : List CoreTick := timeline.flatMap Segment.ticks

theorem tickSequence_reverse (timeline : List Segment) :
    tickSequence timeline.reverse = (tickSequence timeline).reverse := by
  induction timeline with
  | nil => rfl
  | cons seg rest ih =>
      have own : seg.ticks.reverse = seg.ticks := by simp [Segment.ticks]
      rw [List.reverse_cons, tickSequence, List.flatMap_append, ← tickSequence, ih]
      simp [tickSequence, own]

/-- No segment of the timeline ends before it starts. -/
def Forward (timeline : List Segment) : Prop := ∀ seg ∈ timeline, seg.start ≤ seg.stop

section Record

variable {l : List Segment} {a b : Int} {p : Option Nat} {k : SegmentKind}

theorem Forward.record (forward : Forward l) : Forward (record l a b p k) := by
  unfold CpuSched.record
  split_ifs with empty
  · exact forward
  · cases l with
    | nil => simp [Forward, (not_le.mp empty).le]
    | cons last rest =>
        have here : last.start ≤ last.stop := forward last List.mem_cons_self
        dsimp only
        split_ifs with merge
        · intro seg mem
          rcases List.mem_cons.mp mem with rfl | mem
          · simp only
            omega
          · exact forward seg (List.mem_cons_of_mem _ mem)
        · intro seg mem
          rcases List.mem_cons.mp mem with rfl | mem
          · exact (not_le.mp empty).le
          · exact forward seg mem

/-- Recording an interval adds its ticks, whether it is merged or not. -/
theorem tickSequence_record (forward : Forward l) :
    tickSequence (record l a b p k) =
      List.replicate (b - a).toNat (Segment.tick ⟨a, b, p, k⟩) ++ tickSequence l := by
  unfold CpuSched.record
  split_ifs with empty
  · simp [show (b - a).toNat = 0 by omega]
  · cases l with
    | nil => simp [tickSequence, Segment.ticks, Segment.length]
    | cons last rest =>
        have here : last.start ≤ last.stop := forward last List.mem_cons_self
        dsimp only
        split_ifs with merge
        · obtain ⟨rfl, rfl, rfl⟩ := merge
          have split : (b - last.start).toNat =
              (b - last.stop).toNat + (last.stop - last.start).toNat := by omega
          have tick : Segment.tick { last with stop := b } = last.tick := rfl
          have tick' : Segment.tick ⟨last.stop, b, last.proc, last.kind⟩ = last.tick := rfl
          simp only [tickSequence, List.flatMap_cons, Segment.ticks, Segment.length, tick, tick',
            split, List.replicate_add, List.append_assoc]
        · simp [tickSequence, Segment.ticks, Segment.length]

end Record

/-! ## A core -/

/-- The ticks of a core up to `x`: the timeline, and what has not been recorded yet or
has been recorded in advance. -/
def TicksOk (core : Core) (l : List Segment) (ticks : List CoreTick) (x : Int) : Prop :=
  match core.proc with
  | none => ticks = List.replicate (x - core.freeSince).toNat .idle ++ tickSequence l
  | some p =>
      if core.inCs = true then
        List.replicate (core.busyUntil - x).toNat (.cs p) ++ ticks = tickSequence l
      else ticks = List.replicate (x - core.runStart).toNat (.run p) ++ tickSequence l

/-- A core of the engine, its timeline, and the same core of the tick loop at `x`. -/
structure LaneMirror (core : Core) (l : List Segment) (rc : RefCore) (ticks : List CoreTick)
    (x : Int) : Prop where
  proc_eq : rc.proc = core.proc
  context_eq : rc.context = core.context
  on : core.proc ≠ none → rc.inCs = core.inCs ∧ rc.length = core.length ∧
    core.deadline = schedNoDeadline ∧ core.recheck = false
  switching : core.proc ≠ none → core.inCs = true → rc.left = core.busyUntil - x
  running : core.proc ≠ none → core.inCs = false →
    rc.left = core.runEnd - x ∧ rc.ran = x - core.runStart
  forward : Forward l
  ticks : TicksOk core l ticks x

/-- A core whose timeline is up to date starts its run. -/
theorem LaneMirror.started {core : Core} {l : List Segment} {rc : RefCore} {ticks : List CoreTick}
    {x rem : Int} {p : Nat} (on : core.proc = some p) (proc_eq : rc.proc = core.proc)
    (context_eq : rc.context = core.context) (length_eq : rc.length = core.length)
    (undated : core.deadline = schedNoDeadline) (quiet : core.recheck = false) (forward : Forward l)
    (recorded : ticks = tickSequence l) :
    LaneMirror (Sim.startedCore core x rem) l
      { rc with inCs := false, ran := 0, left := if rc.length < rem then rc.length else rem }
      ticks x where
  proc_eq := proc_eq
  context_eq := context_eq
  on _ := ⟨rfl, length_eq, undated, quiet⟩
  switching _ switching := by simp [Sim.startedCore] at switching
  running _ _ := by
    simp only [Sim.startedCore, length_eq]
    rw [min_def]
    split_ifs <;> omega
  forward := forward
  ticks := by simp [TicksOk, Sim.startedCore, on, recorded]

/-! ## Remaining and start times -/

/-- Core `c` runs process `q`. -/
structure Runs (n : Nat) (cores : Nat → Core) (c q : Nat) : Prop where
  lt : c < n
  proc_eq : (cores c).proc = some q
  inCs_eq : (cores c).inCs = false

/-- What the tick loop counts for each process: the ticks that are left of its burst, and
its first tick. -/
structure Clocks (n : Nat) (cores : Nat → Core) (remaining start : Nat → Int) (τ : Nat → Int)
    (refRemaining : Nat → Int) (refStart : Nat → Option Int) : Prop where
  on : ∀ {q c}, Runs n cores c q →
    refRemaining q = remaining q - (τ c - (cores c).runStart) ∧
    start q = (refStart q).getD (cores c).runStart ∧
    (refStart q = none → (cores c).runStart = τ c)
  off : ∀ {q}, (∀ c, ¬ Runs n cores c q) →
    refRemaining q = remaining q ∧ start q = (refStart q).getD (-1)
  nonneg : ∀ {q x}, refStart q = some x → 0 ≤ x

/-- A step about core `c` and process `p`. -/
theorem Clocks.step {n : Nat} {cores cores' : Nat → Core}
    {remaining remaining' start start' τ τ' : Nat → Int}
    {refRemaining refRemaining' : Nat → Int} {refStart refStart' : Nat → Option Int} {c p : Nat}
    (clocks : Clocks n cores remaining start τ refRemaining refStart)
    (cores_eq : ∀ c', c' ≠ c → cores' c' = cores c') (τ_eq : ∀ c', c' ≠ c → τ' c' = τ c')
    (before : ∀ q, (cores c).proc = some q → q = p) (after : ∀ q, (cores' c).proc = some q → q = p)
    (elsewhere : ∀ c', c' ≠ c → ¬ Runs n cores c' p)
    (others : ∀ q, q ≠ p → remaining' q = remaining q ∧ start' q = start q ∧
      refRemaining' q = refRemaining q ∧ refStart' q = refStart q)
    (on : Runs n cores' c p →
      refRemaining' p = remaining' p - (τ' c - (cores' c).runStart) ∧
      start' p = (refStart' p).getD (cores' c).runStart ∧
      (refStart' p = none → (cores' c).runStart = τ' c))
    (off : ¬ Runs n cores' c p →
      refRemaining' p = remaining' p ∧ start' p = (refStart' p).getD (-1))
    (nonneg : ∀ {x}, refStart' p = some x → 0 ≤ x) :
    Clocks n cores' remaining' start' τ' refRemaining' refStart' := by
  have same : ∀ {c' q}, c' ≠ c → (Runs n cores' c' q ↔ Runs n cores c' q) := by
    intro c' q ne
    constructor
    · intro runs
      exact ⟨runs.lt, cores_eq c' ne ▸ runs.proc_eq, cores_eq c' ne ▸ runs.inCs_eq⟩
    · intro runs
      exact ⟨runs.lt, (cores_eq c' ne).symm ▸ runs.proc_eq, (cores_eq c' ne).symm ▸ runs.inCs_eq⟩
  refine ⟨fun {q c'} runs => ?_, fun {q} idle => ?_, fun {q x} started => ?_⟩
  · by_cases hc : c' = c
    · subst hc
      obtain rfl := after q runs.proc_eq
      exact on runs
    · have runs' := (same hc).mp runs
      have ne : q ≠ p := by
        rintro rfl
        exact elsewhere c' hc runs'
      obtain ⟨rem, st, rrem, rst⟩ := others q ne
      rw [rem, st, rrem, rst, cores_eq c' hc, τ_eq c' hc]
      exact clocks.on runs'
  · by_cases hq : q = p
    · subst hq
      exact off (idle c)
    · obtain ⟨rem, st, rrem, rst⟩ := others q hq
      rw [rem, st, rrem, rst]
      refine clocks.off fun c' runs => ?_
      by_cases hc : c' = c
      · subst hc
        exact hq (before q runs.proc_eq)
      · exact idle c' ((same hc).mpr runs)
  · by_cases hq : q = p
    · subst hq
      exact nonneg started
    · rw [(others q hq).2.2.2] at started
      exact clocks.nonneg started

/-- The clocks of a process that starts to run on core `c`. -/
theorem Clocks.begin {n : Nat} {cores cores' : Nat → Core} {remaining refRemaining : Nat → Int}
    {outcomes : Nat → ProcOutcome} {τ : Nat → Int} {refStart : Nat →
      Option Int} {c p : Nat} {now : Int}
    (clocks : Clocks n cores remaining (fun q => (outcomes q).start) τ refRemaining refStart)
    (τ_eq : τ c = now) (idle : ∀ c', ¬ Runs n cores c' p)
    (cores_eq : ∀ c', c' ≠ c → cores' c' = cores c')
    (before : ∀ q, (cores c).proc = some q → q = p) (on : (cores' c).proc = some p)
    (start_eq : (cores' c).runStart = now) (runs : (cores' c).inCs = false) (lt : c < n) :
    Clocks n cores' remaining
      (fun q => (Function.update outcomes p (Sim.startedOutcome (outcomes p) now) q).start) τ
        refRemaining
      refStart := by
  obtain ⟨rem_eq, start₀⟩ := clocks.off idle
  refine clocks.step (c := c) (p := p) cores_eq (fun _ _ => rfl) before
    (fun q hq => Option.some.inj (hq.symm.trans on)) (fun c' _ => idle c')
      (fun q hq => by simp [hq])
    (fun _ => ⟨by omega, ?_, fun _ => start_eq.trans τ_eq.symm⟩)
    (fun stops => absurd ⟨lt, on, runs⟩ stops) (fun {x} started => clocks.nonneg started)
  simp only [Function.update_self, Sim.startedOutcome]
  cases started : refStart p with
  | none =>
      rw [started] at start₀
      simp [show (outcomes p).start = -1 from start₀, start_eq]
  | some x =>
      have := clocks.nonneg started
      rw [started] at start₀
      simp only [Option.getD_some] at start₀ ⊢
      rw [start₀, if_neg (by omega), start₀]

namespace Sim

variable {D : Type} {S : Sim D}

/-- The engine and the tick loop, which has come to `τ c` on core `c`. -/
structure Mirrors (S : Sim D) (e : S.Eng) (τ : Nat → Int) (r : S.Ref) : Prop where
  state : r.state = e.state
  phase : r.phase = e.phase
  burstLen : r.burstLen = e.burstLen
  predicted : (S.refView r).predicted = e.predicted
  wake : ∀ p, r.wake p = if p ∈ e.blocked.toList then some (e.wake p) else none
  done : r.done = e.completed
  completion : ∀ p, (e.outcomes p).completion = (r.completion p).getD (-1)
  switches : r.switches = e.switches
  csTime : r.csTime = e.csTime
  clocks : Clocks S.opt.cores e.cores e.remaining (fun p => (e.outcomes p).start) τ
    r.remaining r.start
  lanes : ∀ c < S.opt.cores, LaneMirror (e.cores c) (e.timelines c) (r.cores c) (r.ticks c) (τ c)

section Steps

variable {PInv : SchedView D → S.policy.State → Places → Prop} {budget : Int}
  {e : S.Eng} {sp : Nat → Spot} {τ : Nat → Int} {r : S.Ref}

theorem Sound.not_runs (sound : S.Sound PInv budget ⟨e, sp⟩) {c p : Nat}
    (away : ∀ s, sp p ≠ .core c s) : ¬ Runs S.opt.cores e.cores c p := by
  intro runs
  obtain ⟨s, seat⟩ := sound.cores.owner c runs.lt p runs.proc_eq
  exact away s seat

/-- A process on core `c` runs nowhere else. -/
theorem Sound.elsewhere (sound : S.Sound PInv budget ⟨e, sp⟩) {c p : Nat} {s : Slice}
    (seat : sp p = .core c s) : ∀ c', c' ≠ c → ¬ Runs S.opt.cores e.cores c' p := by
  intro c' ne
  refine sound.not_runs fun s' seat' => ne ?_
  rw [seat, Spot.core.injEq] at seat'
  exact seat'.1.symm

/-- The view of the tick loop is a shadow of the engine's. -/
theorem Mirrors.shadow (mirrors : Mirrors S e τ r) (t_eq : r.t = e.now) {pl : Places}
    (out : ∀ c q, Runs S.opt.cores e.cores c q → ∃ s, pl q = .out s) :
    Shadow pl (S.view e) (S.refView r) where
  view_eq := by
    have predicted := mirrors.predicted
    simp only [refView, view, t_eq, mirrors.burstLen] at predicted ⊢
    rw [predicted]
  remaining_eq p away := (mirrors.clocks.off fun c runs => by
    obtain ⟨s, hs⟩ := out c p runs
    exact away s hs).1

theorem Mirrors.shadow_of_sound (mirrors : Mirrors S e τ r) (t_eq : r.t = e.now)
    (sound : S.Sound PInv budget ⟨e, sp⟩) : Shadow (places sp) (S.view e) (S.refView r) :=
  mirrors.shadow t_eq fun c q runs => by
    obtain ⟨s, seat⟩ := sound.cores.owner c runs.lt q runs.proc_eq
    exact ⟨s, places_of_core seat⟩

/-- The policy moves on to the same state. -/
theorem Mirrors.withState (mirrors : Mirrors S e τ r) (state : S.policy.State) :
    Mirrors S { e with state } τ { r with state } :=
  ⟨rfl, mirrors.phase, mirrors.burstLen, mirrors.predicted, mirrors.wake, mirrors.done,
    mirrors.completion, mirrors.switches, mirrors.csTime, mirrors.clocks, mirrors.lanes⟩

/-- A process joins the ready set after its I/O. -/
theorem Mirrors.woken (mirrors : Mirrors S e τ r) (sound : S.Sound PInv budget ⟨e, sp⟩) {p : Nat}
    {heap : Heap} {state : S.policy.State}
    (sound' : S.Sound PInv budget
      ⟨{ e with state, blocked := heap }, Function.update sp p .ready⟩) :
    Mirrors S { e with state, blocked := heap } τ
      { r with wake := Function.update r.wake p none, state } := by
  refine ⟨rfl, mirrors.phase, mirrors.burstLen, mirrors.predicted, fun q => ?_, mirrors.done,
    mirrors.completion, mirrors.switches, mirrors.csTime, mirrors.clocks, mirrors.lanes⟩
  have before : q ∈ e.blocked.toList ↔ sp q = .blocked := sound.blocked.mem_iff q
  have after : q ∈ heap.toList ↔ Function.update sp p .ready q = .blocked :=
    sound'.blocked.mem_iff q
  by_cases hq : q = p
  · subst hq
    have out : q ∉ heap.toList := by simp [after]
    simp [out]
  · have same : q ∈ heap.toList ↔ q ∈ e.blocked.toList := by
      rw [after, before, Function.update_of_ne hq]
    simp only [Function.update_of_ne hq, same]
    exact mirrors.wake q

/-- A slice ends, and the core is free. -/
theorem Mirrors.charged (mirrors : Mirrors S e τ r) (sound : S.Sound PInv budget ⟨e, sp⟩)
    {c p : Nat} {s : Slice} (seat : sp p = .core c s) (runs : (e.cores c).inCs = false)
    (ran : (e.cores c).runStart < e.now) (τ_eq : τ c = e.now)
      (ok : (S.chargeRun e c p).fail = .ok) :
    Mirrors S (S.chargeRun e c p) τ (S.refFree r c) := by
  obtain ⟨hc, rfl, seatOk⟩ := sound.cores.seat p c s seat
  have on_core : (e.cores c).proc = some s.proc := seatOk.proc_eq
  have here : Runs S.opt.cores e.cores c s.proc := ⟨hc, on_core, runs⟩
  obtain ⟨rem_eq, start_eq, fresh⟩ := mirrors.clocks.on here
  rw [chargeRun_fail] at ok
  obtain ⟨-, timelines⟩ := append_timelines ok
  refine ⟨?_, ?_, ?_, ?_, ?_, ?_, ?_, ?_, ?_, ?_, fun c' hc' => ?_⟩
  · simpa [refFree] using mirrors.state
  · simpa [refFree] using mirrors.phase
  · simpa [refFree] using mirrors.burstLen
  · rw [chargeRun_predicted]
    exact mirrors.predicted
  · simpa [refFree] using mirrors.wake
  · simpa [refFree] using mirrors.done
  · simpa [refFree] using mirrors.completion
  · simpa [refFree] using mirrors.switches
  · simpa [refFree] using mirrors.csTime
  · refine mirrors.clocks.step (c := c) (p := s.proc) (fun c' ne => by simp [ne]) (fun _ _ => rfl)
      (fun q hq => ?_) (fun q hq => by simp at hq) (sound.elsewhere seat)
        (fun q hq => by simp [refFree, hq])
      (fun runs' => by simpa using runs'.proc_eq) (fun _ => ?_)
      (fun {x} started => mirrors.clocks.nonneg started)
    · exact (Option.some.inj (on_core.symm.trans hq)).symm
    · refine ⟨?_, ?_⟩
      · simp only [refFree, chargeRun_remaining, Function.update_self, rem_eq, τ_eq]
      · cases started : r.start s.proc with
        | none =>
            have := fresh started
            omega
        | some x => simpa [refFree, started] using start_eq
  · rw [chargeRun_timelines, timelines, chargeRun_cores]
    by_cases hcc : c' = c
    · subst hcc
      have lane := mirrors.lanes c' hc'
      simp only [refFree, Function.update_self]
      refine ⟨rfl, lane.context_eq, fun h => absurd rfl h, fun h => absurd rfl h,
        fun h => absurd rfl h, lane.forward.record, ?_⟩
      have ticks := lane.ticks
      simp only [TicksOk, on_core, runs, τ_eq, Bool.false_eq_true, if_false] at ticks
      simp only [TicksOk, τ_eq, sub_self, Int.toNat_zero, List.replicate_zero, List.nil_append,
        tickSequence_record lane.forward, ticks]
      rfl
    · simp only [refFree, Function.update_of_ne hcc]
      exact mirrors.lanes c' hc'

/-! ## The end of a slice -/

section EndRun

/-- A hook that does not see the difference. -/
theorem Mirrors.hook (mirrors : Mirrors S e τ r)
    {f : SchedView D → S.policy.State → Option S.policy.State}
    (same : f (S.refView r) e.state = f (S.view e) e.state) {e' : S.Eng}
    (run : S.hook e f = some e') :
    ∃ r', S.refHook r f = some r' ∧ Mirrors S e' τ r' ∧ r'.t = r.t := by
  obtain ⟨state, hook, rfl⟩ := Option.map_eq_some_iff.mp run
  refine ⟨{ r with state }, ?_, mirrors.withState state, rfl⟩
  rw [refHook, mirrors.state, same, hook]
  rfl

theorem hook_ok {f : SchedView D → S.policy.State → Option S.policy.State} {e' : S.Eng}
    (run : S.hook e f = some e') (ok : e'.fail = .ok) : e.fail = .ok := by
  obtain ⟨state, -, rfl⟩ := Option.map_eq_some_iff.mp run
  exact ok

theorem optHook_ok {f : Option (SchedView D → S.policy.State → Nat → Int → Option S.policy.State)}
    {p : Nat} {ran : Int} {e' : S.Eng} (run : S.optHook e f p ran = some e') (ok : e'.fail = .ok) :
    e.fail = .ok := by
  cases f with
  | none =>
      obtain rfl := Option.some.inj run
      exact ok
  | some f => exact hook_ok (f := fun v state => f v state p ran) run ok

theorem Mirrors.optHook (mirrors : Mirrors S e τ r)
    {f : Option (SchedView D → S.policy.State → Nat → Int → Option S.policy.State)} {p : Nat}
    {ran : Int}
    (same : optCall f (S.refView r) e.state p ran = optCall f (S.view e) e.state p ran)
    {e' : S.Eng} (run : S.optHook e f p ran = some e') :
    ∃ r', S.refOptHook r f p ran = some r' ∧ Mirrors S e' τ r' ∧ r'.t = r.t := by
  cases f with
  | none =>
      obtain rfl := Option.some.inj run
      exact ⟨r, rfl, mirrors, rfl⟩
  | some f => exact mirrors.hook (f := fun v state => f v state p ran) same run

variable [Double D]

/-- Both update the prediction at the end of a burst. -/
theorem Mirrors.burstOver (mirrors : Mirrors S e τ r) (p : Nat) :
    Mirrors S { e with predicted := S.ewma e p } τ { r with tau := S.refTau r p } := by
  refine ⟨mirrors.state, mirrors.phase, mirrors.burstLen, ?_, mirrors.wake, mirrors.done,
    mirrors.completion, mirrors.switches, mirrors.csTime, mirrors.clocks, mirrors.lanes⟩
  have predicted := mirrors.predicted
  simp only [refView, ewma, refTau] at predicted ⊢
  rw [← predicted]
  cases S.opt.predict with
  | oracle => rfl
  | ewma => simp [mirrors.burstLen]

omit [Double D] in
/-- A process completes. -/
theorem Mirrors.finished (mirrors : Mirrors S e τ r) (t_eq : r.t = e.now) (p : Nat) :
    Mirrors S (S.finishProcess e p) τ (S.refComplete r p) := by
  have start_eq : (fun q => ((S.finishProcess e p).outcomes q).start) =
      fun q => (e.outcomes q).start := by
    funext q
    by_cases hq : q = p
    · subst hq
      simp [finishProcess]
    · simp [finishProcess, hq]
  refine ⟨mirrors.state, mirrors.phase, mirrors.burstLen, mirrors.predicted, mirrors.wake,
    congrArg (· + 1) mirrors.done, fun q => ?_, mirrors.switches, mirrors.csTime,
    start_eq ▸ mirrors.clocks, mirrors.lanes⟩
  by_cases hq : q = p
  · subst hq
    simp [finishProcess, refComplete, t_eq]
  · simpa [finishProcess, refComplete, hq] using mirrors.completion q

/-- The engine after a process started its I/O. -/
def ioStarted (S : Sim D) (e : S.Eng) (p : Nat) (heap : Heap) : S.Eng :=
  { e with
    wake := Function.update e.wake p (e.now + (S.w.proc p).phase (e.phase p + 1))
    phase := Function.update e.phase p (e.phase p + 2)
    burstLen := Function.update e.burstLen p ((S.w.proc p).phase (e.phase p + 2))
    remaining := Function.update e.remaining p ((S.w.proc p).phase (e.phase p + 2))
    blocked := heap }

omit [Double D] in
/-- A process starts its I/O. -/
theorem Mirrors.blocked (mirrors : Mirrors S e τ r) (t_eq : r.t = e.now) {p : Nat}
    (idle : ∀ c, ¬ Runs S.opt.cores e.cores c p) {heap : Heap}
    (mem_iff : ∀ q, q ∈ heap.toList ↔ q = p ∨ q ∈ e.blocked.toList) :
    Mirrors S (ioStarted S e p heap) τ (S.refBlock r p) := by
  refine ⟨mirrors.state, ?_, ?_, mirrors.predicted, fun q => ?_, mirrors.done, mirrors.completion,
    mirrors.switches, mirrors.csTime,
      ⟨fun {q c} runs => ?_, fun {q} off => ?_, mirrors.clocks.nonneg⟩,
    mirrors.lanes⟩
  · simp only [ioStarted, refBlock, mirrors.phase]
  · simp only [ioStarted, refBlock, mirrors.phase, mirrors.burstLen]
  · by_cases hq : q = p
    · subst hq
      simp [ioStarted, refBlock, mem_iff, t_eq, mirrors.phase]
    · simpa [ioStarted, refBlock, mem_iff, hq] using mirrors.wake q
  · have hq : q ≠ p := by
      rintro rfl
      exact idle c runs
    simp only [ioStarted, refBlock, Function.update_of_ne hq]
    exact mirrors.clocks.on runs
  · by_cases hq : q = p
    · subst hq
      simp only [ioStarted, refBlock, Function.update_self, mirrors.phase, true_and]
      exact (mirrors.clocks.off idle).2
    · simp only [ioStarted, refBlock, Function.update_of_ne hq]
      exact mirrors.clocks.off off

/-- `end_run` and `end_slice` do the same. -/
theorem Mirrors.endRun (valid : S.w.Valid) (contract : Contract S.w S.policy PInv)
    (calm : Calm S.w S.policy PInv) (mirrors : Mirrors S e τ r) (t_eq : r.t = e.now)
    (sound : S.Sound PInv budget ⟨e, sp⟩) {c p : Nat} {s : Slice} (seat : sp p = .core c s)
    (runs : (e.cores c).inCs = false) (ran : (e.cores c).runStart < e.now) (τ_eq : τ c = e.now)
    {e' : S.Eng} {requeued : Bool} (run : S.endRun e c = some (e', requeued)) (ok : e'.fail = .ok) :
    ∃ r', S.endSlice r c = some r' ∧ Mirrors S e' τ r' ∧ r'.t = r.t := by
  obtain ⟨hc, rfl, seatOk⟩ := sound.cores.seat p c s seat
  have on_core : (e.cores c).proc = some s.proc := seatOk.proc_eq
  have lane := mirrors.lanes c hc
  have on_core' : (r.cores c).proc = some s.proc := lane.proc_eq.trans on_core
  have ran_eq : (r.cores c).ran = e.now - (e.cores c).runStart := by
    rw [← τ_eq]
    exact (lane.running (by simp [on_core]) runs).2
  have idle : ∀ c', ¬ Runs S.opt.cores (S.chargeRun e c s.proc).cores c' s.proc := by
    intro c' runs'
    by_cases hcc : c' = c
    · subst hcc
      simpa using runs'.proc_eq
    · have proc_eq := runs'.proc_eq
      have inCs_eq := runs'.inCs_eq
      simp only [chargeRun_cores, Function.update_of_ne hcc] at proc_eq inCs_eq
      exact sound.elsewhere seat c' hcc ⟨runs'.lt, proc_eq, inCs_eq⟩
  have out : ∀ c' q, Runs S.opt.cores (S.chargeRun e c s.proc).cores c' q →
      ∃ s', places sp q = .out s' := by
    intro c' q runs'
    by_cases hcc : c' = c
    · subst hcc
      simpa using runs'.proc_eq
    · have proc_eq := runs'.proc_eq
      simp only [chargeRun_cores, Function.update_of_ne hcc] at proc_eq
      obtain ⟨s', seat'⟩ := sound.cores.owner c' runs'.lt q proc_eq
      exact ⟨s', places_of_core seat'⟩
  have bounds := sound.ran_bounds seat runs ran
  have now₁ : r.t = (S.chargeRun e c s.proc).now := by rw [t_eq, chargeRun_now]
  have run₁ : S.endSlice r c = if 0 < r.remaining s.proc then
      S.policy.onPreempt.bind fun f => S.refHook (S.refFree r c) fun v state =>
        f v state s.proc (r.cores c).ran
    else if r.phase s.proc + 1 = (S.w.proc s.proc).phaseCount then
      S.refOptHook (S.refComplete
        { S.refFree r c with tau := S.refTau (S.refFree r c) s.proc } s.proc)
        S.policy.onComplete s.proc (r.cores c).ran
    else
      S.refOptHook (S.refBlock { S.refFree r c with tau := S.refTau (S.refFree r c) s.proc } s.proc)
        S.policy.onBlock s.proc (r.cores c).ran := by
    unfold endSlice
    rw [on_core']
    cases S.policy.onPreempt <;> rfl
  rw [ran_eq] at run₁
  have charged : (S.chargeRun e c s.proc).fail = .ok →
    Mirrors S (S.chargeRun e c s.proc) τ (S.refFree r c) :=
    mirrors.charged sound seat runs ran τ_eq
  have proc_rem : (S.chargeRun e c s.proc).fail = .ok →
      r.remaining s.proc = (S.chargeRun e c s.proc).remaining s.proc := fun ok =>
    ((charged ok).clocks.off idle).1
  rw [run₁]
  by_cases left : (S.chargeRun e c s.proc).remaining s.proc = 0
  · have run : (if (S.chargeRun e c s.proc).phase s.proc + 1 = (S.w.proc s.proc).phaseCount then
        S.optHook (S.finishProcess (S.burstOver e c s.proc) s.proc) S.policy.onComplete s.proc
          (e.now - (e.cores c).runStart)
      else (heapPush (S.blockedLess (S.startIo (S.burstOver e c s.proc) s.proc).wake)
          (S.startIo (S.burstOver e c s.proc) s.proc).blocked s.proc).bind fun blocked =>
            S.optHook { S.startIo (S.burstOver e c s.proc) s.proc with blocked } S.policy.onBlock
              s.proc (e.now - (e.cores c).runStart)) = some e' := by
      simp only [Sim.endRun, on_core, left, if_true, Option.map_eq_some_iff, Prod.mk.injEq] at run
      obtain ⟨e'', run, rfl, -⟩ := run
      exact run
    rw [chargeRun_phase] at run
    by_cases last : e.phase s.proc + 1 = (S.w.proc s.proc).phaseCount
    · rw [if_pos last] at run
      have ok₁ : (S.chargeRun e c s.proc).fail = .ok :=
        optHook_ok (e := S.finishProcess (S.burstOver e c s.proc) s.proc) run ok
      obtain ⟨inv, viewOk⟩ := sound.lendBurstOver contract seat
      rw [← S.chargeRun_state e c s.proc] at inv
      have ended := (charged ok₁).burstOver s.proc
      rw [proc_rem ok₁, left, if_neg (lt_irrefl _), mirrors.phase, if_pos last]
      refine (ended.finished now₁ s.proc).optHook ?_ run
      exact calm.complete inv viewOk (ended.shadow now₁ out) (places_of_core seat) (proc_rem ok₁)
    · rw [if_neg last, Option.bind_eq_some_iff] at run
      obtain ⟨heap, pushed, run⟩ := run
      have ok₁ : (S.chargeRun e c s.proc).fail = .ok := by
        have := optHook_ok run ok
        rw [(sound.startIo_eq valid seat runs left last).2] at this
        exact this
      obtain ⟨inv, viewOk⟩ := sound.lendStartIo valid contract seat runs left last
      rw [← S.chargeRun_state e c s.proc] at inv
      have ended := (charged ok₁).burstOver s.proc
      have hio := (valid.proc (sound.inside (p := s.proc) (by simp [seat]))).phase_pos
        (k := e.phase s.proc + 1) (by have := (sound.startIo_eq valid seat runs left last).1; omega)
      have io_eq : { S.startIo (S.burstOver e c s.proc) s.proc with blocked := heap } =
          ioStarted S (S.burstOver e c s.proc) s.proc heap := by
        rw [(sound.startIo_eq valid seat runs left last).2]
        simp [ioStarted, Sim.burstOver]
      have mem_iff : ∀ q, q ∈ heap.toList ↔ q = s.proc ∨
        q ∈ (S.burstOver e c s.proc).blocked.toList := by
        obtain ⟨heap', pushed', blockedOk⟩ := sound.pushBlocked valid seat hio.le
        rw [(sound.startIo_eq valid seat runs left last).2] at pushed
        simp only [Sim.burstOver, chargeRun_blocked] at pushed ⊢
        obtain rfl := Option.some.inj (pushed.symm.trans pushed')
        have before : ∀ q, q ∈ e.blocked.toList ↔ sp q = .blocked := sound.blocked.mem_iff
        intro q
        rw [blockedOk.mem_iff, before]
        by_cases hq : q = s.proc
        · simp [hq]
        · simp [hq]
      have blocked := ended.blocked now₁ idle mem_iff
      rw [proc_rem ok₁, left, if_neg (lt_irrefl _), mirrors.phase, if_neg last]
      have view_eq : S.view (S.startIo (S.burstOver e c s.proc) s.proc) =
          S.view (ioStarted S (S.burstOver e c s.proc) s.proc heap) := by
        rw [← io_eq]
        rfl
      rw [io_eq] at run
      rw [view_eq] at inv viewOk
      refine blocked.optHook ?_ run
      exact calm.block inv viewOk (blocked.shadow now₁ out) (places_of_core seat)
        (blocked.clocks.off idle).1
  · have left' : 0 < (S.chargeRun e c s.proc).remaining s.proc := by
      rw [chargeRun_remaining, Function.update_self] at left ⊢
      omega
    simp only [Sim.endRun, on_core, if_neg left] at run
    cases hook_eq : S.policy.onPreempt with
    | none => simp [hook_eq] at run
    | some f =>
        simp only [hook_eq, Option.map_eq_some_iff, Prod.mk.injEq] at run
        obtain ⟨e'', run, rfl, -⟩ := run
        have ok₁ : (S.chargeRun e c s.proc).fail = .ok := hook_ok run ok
        obtain ⟨inv, viewOk⟩ := sound.lendCharge contract seat
        rw [← S.chargeRun_state e c s.proc] at inv
        rw [proc_rem ok₁, if_pos left', Option.bind_some]
        exact (charged ok₁).hook (calm.preempt inv viewOk ((charged ok₁).shadow now₁ out)
          (places_of_core seat) (proc_rem ok₁) hook_eq) run

end EndRun

/-! ## The start of a slice -/

section Start

theorem refStartRun_of {c p : Nat} (on : (r.cores c).proc = some p) (length : Int) :
    S.refStartRun r c length = some { r with cores := Function.update r.cores c { r.cores c with
      inCs := false
      ran := 0
      left := if length < r.remaining p then length else r.remaining p } } := by
  rw [refStartRun, on, Option.map_some]

/-- A switch-in that is over turns into a run. -/
theorem Mirrors.startRun (valid : S.w.Valid) (mirrors : Mirrors S e τ r)
    (sound : S.Sound PInv budget ⟨e, sp⟩) {c p : Nat} {s : Slice} (seat : sp p = .core c s)
    (switching : (e.cores c).inCs = true) (elapsed : (e.cores c).busyUntil = e.now)
    (τ_eq : τ c = e.now) :
    ∃ r', S.refStartRun r c (r.cores c).length = some r' ∧
      Mirrors S (S.startRun e c p (e.cores c).deadline) τ r' ∧ r'.t = r.t := by
  obtain ⟨hc, rfl, seatOk⟩ := sound.cores.seat p c s seat
  have on_core : (e.cores c).proc = some s.proc := seatOk.proc_eq
  have lane := mirrors.lanes c hc
  obtain ⟨-, length_eq, undated, quiet⟩ := lane.on (by simp [on_core])
  have idle : ∀ c', ¬ Runs S.opt.cores e.cores c' s.proc := by
    intro c' runs
    by_cases hcc : c' = c
    · subst hcc
      cases switching.symm.trans runs.inCs_eq
    · exact sound.elsewhere seat c' hcc runs
  have on_ref : (r.cores c).proc = some s.proc := lane.proc_eq.trans on_core
  refine ⟨_, refStartRun_of on_ref _, ?_, rfl⟩
  rw [sound.startRun_eq valid seat switching]
  refine ⟨mirrors.state, mirrors.phase, mirrors.burstLen, mirrors.predicted,
    mirrors.wake, mirrors.done,
    fun q => ?_, mirrors.switches, mirrors.csTime, ?_, fun c' hc' => ?_⟩
  · by_cases hq : q = s.proc
    · subst hq
      simpa using mirrors.completion s.proc
    · simpa [hq] using mirrors.completion q
  · refine mirrors.clocks.begin τ_eq idle (fun c' ne => by simp [ne])
      (fun q hq => Option.some.inj (hq.symm.trans on_core)) ?_ ?_ ?_ hc
    all_goals simp [startedCore, on_core]
  · by_cases hcc : c' = c
    · subst hcc
      simp only [Function.update_self]
      rw [τ_eq, (mirrors.clocks.off idle).1]
      refine LaneMirror.started on_core lane.proc_eq lane.context_eq length_eq
        undated quiet lane.forward ?_
      have ticks := lane.ticks
      simpa [TicksOk, on_core, switching, elapsed, τ_eq] using ticks
    · simpa only [Function.update_of_ne hcc] using mirrors.lanes c' hc'

/-- The timeline of a core that is offered a slice, once its idle time is recorded. -/
theorem placedRecord_timelines {c : Nat} {s : Slice} (ok : (S.placedRecord e c s).fail = .ok) :
    (∀ c', c' ≠ c → (S.placedRecord e c s).timelines c' = e.timelines c') ∧
      (S.placedRecord e c s).timelines c =
        if S.switching e c s.proc = true ∧ 0 < S.opt.csCost then
          record (idleRecord (e.cores c) e.now (e.timelines c)) e.now (e.now + S.opt.csCost)
            (some s.proc) .cs
        else idleRecord (e.cores c) e.now (e.timelines c) := by
  unfold placedRecord at ok ⊢
  by_cases switches : S.switching e c s.proc = true ∧ 0 < S.opt.csCost
  · simp only [if_pos switches] at ok ⊢
    obtain ⟨ok₁, second⟩ := append_timelines ok
    obtain ⟨-, first⟩ := append_timelines ok₁
    rw [second, first]
    exact ⟨fun c' ne => by simp [ne], by simp [idleRecord]⟩
  · simp only [if_neg switches] at ok ⊢
    obtain ⟨-, first⟩ := append_timelines ok
    rw [first]
    exact ⟨fun c' ne => by simp [ne], by simp [idleRecord]⟩

/-- The core of the tick loop on which `p` is placed. -/
def refSeated (core : RefCore) (s : Slice) : RefCore :=
  { core with proc := some s.proc, context := some s.proc, length := s.length }

theorem refPlace_switching {c : Nat} {s : Slice} (switches : ((r.cores c).context ≠ none ∧
    (r.cores c).context ≠ some s.proc) ∧ 0 < S.opt.csCost) :
    S.refPlace r (c, s) = some { r with
      cores := Function.update r.cores c
        { refSeated (r.cores c) s with inCs := true, left := S.opt.csCost }
      switches := r.switches + 1
      csTime := r.csTime + S.opt.csCost } := by
  simp only [refPlace, if_pos switches, if_pos switches.1, Function.update_idem, refSeated]

theorem refPlace_direct {c : Nat} {s : Slice} (stays : ¬ (((r.cores c).context ≠ none ∧
    (r.cores c).context ≠ some s.proc) ∧ 0 < S.opt.csCost)) :
    S.refPlace r (c, s) = some { r with
      cores := Function.update r.cores c { refSeated (r.cores c) s with
        inCs := false
        ran := 0
        left := if s.length < r.remaining s.proc then s.length else r.remaining s.proc }
      switches := if (r.cores c).context ≠ none ∧ (r.cores c).context ≠ some s.proc
        then r.switches + 1 else r.switches } := by
  simp only [refPlace, if_neg stays]
  rw [refStartRun_of (p := s.proc) (by simp)]
  simp only [Function.update_idem, Function.update_self, refSeated]

/-- A slice is entered on a free core. -/
theorem Mirrors.placed (valid : S.w.Valid) (hcs : 0 ≤ S.opt.csCost) (mirrors : Mirrors S e τ r)
    (sound : S.Sound PInv budget ⟨e, sp⟩) {c : Nat} {s : Slice} (held : sp s.proc = .held s)
    (hc : c < S.opt.cores) (free : (e.cores c).proc = none) (fits : e.now + S.opt.csCost ≤ int64Max)
    (undated : s.deadline = schedNoDeadline) (τ_eq : τ c = e.now)
    (ok : (S.placed e c s).fail = .ok) :
    ∃ r', S.refPlace r (c, s) = some r' ∧ Mirrors S (S.placed e c s) τ r' ∧ r'.t = r.t := by
  have lane := mirrors.lanes c hc
  have idle : ∀ c', ¬ Runs S.opt.cores e.cores c' s.proc := fun c' =>
    sound.not_runs fun s' seat => by cases held.symm.trans seat
  have switching_iff : S.switching e c s.proc = true ↔
      (r.cores c).context ≠ none ∧ (r.cores c).context ≠ some s.proc := by
    simp [switching, lane.context_eq]
  have ticks := lane.ticks
  simp only [TicksOk, free, τ_eq] at ticks
  rw [sound.placed_eq (c := c) valid hcs held fits] at ok ⊢
  obtain ⟨others, here⟩ := placedRecord_timelines ok
  have idle_forward : Forward (idleRecord (e.cores c) e.now (e.timelines c)) := lane.forward.record
  have idle_ticks : r.ticks c = tickSequence (idleRecord (e.cores c) e.now (e.timelines c)) := by
    rw [ticks, idleRecord, tickSequence_record lane.forward]
    rfl
  by_cases switches : S.switching e c s.proc = true ∧ 0 < S.opt.csCost
  · have switches' := switches
    rw [switching_iff] at switches'
    refine ⟨_, refPlace_switching switches', ?_, rfl⟩
    refine ⟨mirrors.state, mirrors.phase, mirrors.burstLen, mirrors.predicted, mirrors.wake,
      mirrors.done, fun q => ?_, ?_, ?_, ?_, fun c' hc' => ?_⟩
    · simpa only [placedOutcomes, if_pos switches] using mirrors.completion q
    · simp only [if_pos switches.1, mirrors.switches]
    · simp only [if_pos switches, mirrors.csTime]
    · simp only [placedOutcomes, placedCore, if_pos switches]
      refine mirrors.clocks.step (c := c) (p := s.proc) (fun c' ne => by simp [ne]) (fun _ _ => rfl)
        (fun q hq => by cases free.symm.trans hq) (fun q hq => ?_) (fun c' _ => idle c')
        (fun q hq => ⟨rfl, rfl, rfl, rfl⟩) (fun runs => ?_) (fun _ => mirrors.clocks.off idle)
        (fun {x} started => mirrors.clocks.nonneg started)
      · simpa [seatedCore, eq_comm] using hq
      · have := runs.inCs_eq
        simp at this
    · by_cases hcc : c' = c
      · subst hcc
        simp only [Function.update_self, here, if_pos switches, placedCore]
        refine ⟨rfl, rfl, fun _ => ⟨rfl, rfl, undated, rfl⟩, fun _ _ => ?_, fun _ h => by simp at h,
          idle_forward.record, ?_⟩
        · simp only [τ_eq]
          omega
        · simp only [TicksOk, seatedCore, if_true, τ_eq,
            tickSequence_record idle_forward, idle_ticks]
          rfl
      · simpa only [Function.update_of_ne hcc, others c' hcc] using mirrors.lanes c' hc'
  · have stays := switches
    rw [switching_iff] at stays
    refine ⟨_, refPlace_direct stays, ?_, rfl⟩
    refine ⟨mirrors.state, mirrors.phase, mirrors.burstLen, mirrors.predicted, mirrors.wake,
      mirrors.done, fun q => ?_, ?_, ?_, ?_, fun c' hc' => ?_⟩
    · simp only [placedOutcomes, if_neg switches]
      by_cases hq : q = s.proc
      · subst hq
        simpa using mirrors.completion s.proc
      · simpa [hq] using mirrors.completion q
    · simp only [switching_iff, mirrors.switches]
    · simp only [if_neg switches, mirrors.csTime]
    · simp only [placedOutcomes, placedCore, if_neg switches]
      refine mirrors.clocks.begin τ_eq idle (fun c' ne => by simp [ne])
        (fun q hq => by cases free.symm.trans hq) ?_ ?_ ?_ hc
      all_goals simp [startedCore, seatedCore]
    · by_cases hcc : c' = c
      · subst hcc
        simp only [Function.update_self, here, if_neg switches, placedCore]
        rw [τ_eq, (mirrors.clocks.off idle).1]
        have on : (seatedCore (e.cores c') s).proc = some s.proc := rfl
        have on_ref : (refSeated (r.cores c') s).proc = (seatedCore (e.cores c') s).proc := rfl
        exact LaneMirror.started on on_ref rfl rfl undated rfl idle_forward idle_ticks
      · simpa only [Function.update_of_ne hcc, others c' hcc] using mirrors.lanes c' hc'

end Start

/-! ## One tick passes -/

section Passing

/-- Between its events the engine has nothing to do on the core during the tick from `t`
on. -/
structure Steadily (core : Core) (t : Int) : Prop where
  since : core.proc = none → core.freeSince ≤ t
  switching : core.proc ≠ none → core.inCs = true → t < core.busyUntil
  running : core.proc ≠ none → core.inCs = false → core.runStart ≤ t

theorem Mirrors.congr (mirrors : Mirrors S e τ r) {τ' : Nat → Int}
    (same : ∀ c < S.opt.cores, τ' c = τ c) : Mirrors S e τ' r :=
  ⟨mirrors.state, mirrors.phase, mirrors.burstLen, mirrors.predicted, mirrors.wake, mirrors.done,
    mirrors.completion, mirrors.switches, mirrors.csTime,
    ⟨fun {q c} runs => by
      rw [same c runs.lt]
      exact mirrors.clocks.on runs, mirrors.clocks.off, mirrors.clocks.nonneg⟩,
    fun c hc => by
      rw [same c hc]
      exact mirrors.lanes c hc⟩

/-- One tick passes on core `c`. -/
theorem Mirrors.tick (mirrors : Mirrors S e τ r) (sound : S.Sound PInv budget ⟨e, sp⟩) {c : Nat}
    (hc : c < S.opt.cores) (t_nonneg : 0 ≤ r.t) (τ_eq : τ c = r.t)
    (still : Steadily (e.cores c) r.t) :
    Mirrors S e (Function.update τ c (r.t + 1)) (S.refTick r c) ∧ (S.refTick r c).t = r.t := by
  have lane := mirrors.lanes c hc
  have ticks := lane.ticks
  cases on : (e.cores c).proc with
  | none =>
      have since := still.since on
      have on_ref : (r.cores c).proc = none := lane.proc_eq.trans on
      simp only [refTick, on_ref, and_true]
      refine ⟨mirrors.state, mirrors.phase, mirrors.burstLen, mirrors.predicted, mirrors.wake,
        mirrors.done, mirrors.completion, mirrors.switches, mirrors.csTime,
        ⟨fun {q c'} runs => ?_, mirrors.clocks.off, mirrors.clocks.nonneg⟩, fun c' hc' => ?_⟩
      · have ne : c' ≠ c := by
          rintro rfl
          cases on.symm.trans runs.proc_eq
        rw [Function.update_of_ne ne]
        exact mirrors.clocks.on runs
      · by_cases hcc : c' = c
        · subst hcc
          simp only [Function.update_self]
          refine ⟨lane.proc_eq, lane.context_eq, lane.on, fun h => absurd on h,
            fun h => absurd on h,
            lane.forward, ?_⟩
          simp only [TicksOk, on, τ_eq] at ticks ⊢
          rw [show (r.t + 1 - (e.cores c').freeSince).toNat =
            (r.t - (e.cores c').freeSince).toNat + 1 by omega, ticks]
          rfl
        · simpa only [Function.update_of_ne hcc] using mirrors.lanes c' hc'
  | some p =>
      have on_ref : (r.cores c).proc = some p := lane.proc_eq.trans on
      obtain ⟨inCs_eq, -⟩ := lane.on (by simp [on])
      cases switching : (e.cores c).inCs with
      | true =>
          have busy := still.switching (by simp [on]) switching
          have left_eq := lane.switching (by simp [on]) switching
          simp only [refTick, on_ref, inCs_eq.trans switching, if_true, and_true]
          refine ⟨mirrors.state, mirrors.phase, mirrors.burstLen, mirrors.predicted, mirrors.wake,
            mirrors.done, mirrors.completion, mirrors.switches, mirrors.csTime,
            ⟨fun {q c'} runs => ?_, mirrors.clocks.off, mirrors.clocks.nonneg⟩, fun c' hc' => ?_⟩
          · have ne : c' ≠ c := by
              rintro rfl
              cases switching.symm.trans runs.inCs_eq
            rw [Function.update_of_ne ne]
            exact mirrors.clocks.on runs
          · by_cases hcc : c' = c
            · subst hcc
              simp only [Function.update_self]
              refine ⟨on.symm, lane.context_eq,
                fun h => ⟨switching.symm, (lane.on h).2⟩, fun _ _ => ?_,
                fun _ h => by simp [switching] at h, lane.forward, ?_⟩
              · simp only
                omega
              · simp only [TicksOk, on, switching, if_true, τ_eq] at ticks ⊢
                rw [← ticks, show ((e.cores c').busyUntil - r.t).toNat =
                  ((e.cores c').busyUntil - (r.t + 1)).toNat + 1 by omega, List.replicate_succ']
                simp
            · simpa only [Function.update_of_ne hcc] using mirrors.lanes c' hc'
      | false =>
          have since := still.running (by simp [on]) switching
          have here : Runs S.opt.cores e.cores c p := ⟨hc, on, switching⟩
          obtain ⟨s, seat⟩ := sound.cores.owner c hc p on
          obtain ⟨rem_eq, start_eq, fresh⟩ := mirrors.clocks.on here
          obtain ⟨left_eq, ran_eq⟩ := lane.running (by simp [on]) switching
          simp only [refTick, on_ref, inCs_eq.trans switching, Bool.false_eq_true,
            if_false, and_true]
          refine ⟨mirrors.state, mirrors.phase, mirrors.burstLen, mirrors.predicted, mirrors.wake,
            mirrors.done, mirrors.completion, mirrors.switches, mirrors.csTime, ?_,
              fun c' hc' => ?_⟩
          · refine mirrors.clocks.step (c := c) (p := p) (fun _ _ => rfl)
              (fun c' ne => by simp [ne])
              (fun q hq => Option.some.inj (hq.symm.trans on))
              (fun q hq => Option.some.inj (hq.symm.trans on)) (sound.elsewhere seat)
              (fun q hq => by simp [hq]) (fun _ => ?_) (fun stops => absurd here stops)
              (fun {x} started => ?_)
            · simp only [Function.update_self, Option.getD_some, reduceCtorEq,
                false_implies, and_true]
              refine ⟨by omega, ?_⟩
              cases started : r.start p with
              | none =>
                  have := fresh started
                  rw [started] at start_eq
                  simp only [Option.getD_none] at start_eq ⊢
                  omega
              | some x =>
                  rw [started] at start_eq
                  simpa using start_eq
            · simp only [Function.update_self, Option.some.injEq] at started
              cases before : r.start p with
              | none =>
                  rw [before, Option.getD_none] at started
                  omega
              | some y =>
                  have := mirrors.clocks.nonneg before
                  rw [before, Option.getD_some] at started
                  omega
          · by_cases hcc : c' = c
            · subst hcc
              simp only [Function.update_self]
              refine ⟨on.symm, lane.context_eq, fun h => ⟨switching.symm, (lane.on h).2⟩,
                fun _ h => by simp [switching] at h, fun _ _ => ⟨?_, ?_⟩, lane.forward, ?_⟩
              · simp only
                omega
              · simp only
                omega
              · simp only [TicksOk, on, switching, Bool.false_eq_true, if_false, τ_eq] at ticks ⊢
                rw [show (r.t + 1 - (e.cores c').runStart).toNat =
                  (r.t - (e.cores c').runStart).toNat + 1 by omega, ticks]
                rfl
            · simpa only [Function.update_of_ne hcc] using mirrors.lanes c' hc'

/-- One tick passes on the cores of a list. -/
theorem Mirrors.ticks (sound : S.Sound PInv budget ⟨e, sp⟩) (cs : List Nat) (nodup : cs.Nodup)
    (inside : ∀ c ∈ cs, c < S.opt.cores) (mirrors : Mirrors S e τ r) (t_nonneg : 0 ≤ r.t)
    (τ_eq : ∀ c ∈ cs, τ c = r.t) (still : ∀ c ∈ cs, Steadily (e.cores c) r.t) :
    ∃ τ', Mirrors S e τ' (cs.foldl S.refTick r) ∧ (cs.foldl S.refTick r).t = r.t ∧
      (∀ c ∈ cs, τ' c = r.t + 1) ∧ ∀ c ∉ cs, τ' c = τ c := by
  induction cs generalizing τ r with
  | nil => exact ⟨τ, mirrors, rfl, by simp, by simp⟩
  | cons c rest ih =>
      simp only [List.mem_cons, forall_eq_or_imp, List.nodup_cons] at *
      obtain ⟨ticked, t_eq⟩ := mirrors.tick sound inside.1 t_nonneg τ_eq.1 still.1
      have away : ∀ c' ∈ rest, c' ≠ c := by
        rintro c' mem rfl
        exact nodup.1 mem
      obtain ⟨τ', done, t_eq', after, others⟩ :=
        ih nodup.2 inside.2 ticked (by rw [t_eq]; exact t_nonneg)
        (fun c' mem => by rw [Function.update_of_ne (away c' mem), t_eq]; exact τ_eq.2 c' mem)
        (fun c' mem => by rw [t_eq]; exact still.2 c' mem)
      rw [List.foldl_cons]
      refine ⟨τ', done, t_eq'.trans t_eq, ⟨?_, fun c' mem => (after c' mem).trans (by rw [t_eq])⟩,
        fun c' away' => ?_⟩
      · rw [others c nodup.1, Function.update_self]
      · rw [not_or] at away'
        rw [others c' away'.2, Function.update_of_ne away'.1]

/-- One tick passes. -/
theorem Mirrors.pass (mirrors : Mirrors S e (fun _ => r.t) r) (sound : S.Sound PInv budget ⟨e, sp⟩)
    (t_nonneg : 0 ≤ r.t) (still : ∀ c < S.opt.cores, Steadily (e.cores c) r.t) :
    Mirrors S e (fun _ => (S.refPass r).t) (S.refPass r) ∧ (S.refPass r).t = r.t + 1 := by
  have inside : ∀ c ∈ List.range S.opt.cores, c < S.opt.cores := fun c mem => List.mem_range.mp mem
  obtain ⟨τ', done, t_eq, after, -⟩ := mirrors.ticks sound (List.range S.opt.cores) List.nodup_range
    inside t_nonneg (fun _ _ => rfl) fun c mem => still c (inside c mem)
  have t_eq' : (S.refPass r).t = r.t + 1 := congrArg (· + 1) t_eq
  have done : Mirrors S e (fun _ => (S.refPass r).t) _ := done.congr fun c hc => by
    rw [t_eq', after c (List.mem_range.mpr hc)]
  exact ⟨⟨done.state, done.phase, done.burstLen, done.predicted, done.wake, done.done,
    done.completion, done.switches, done.csTime, done.clocks, done.lanes⟩, t_eq'⟩

end Passing

end Steps

end Sim

end CpuSched
