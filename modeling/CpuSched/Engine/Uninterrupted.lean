import CpuSched.Engine.Runs
import CpuSched.Policy.Calm

/-!
# Slices that run to their end

Where a policy gives its slices no deadline and is not asked again while they run, an
instant consists of the arrivals, the wake-ups, the slices that ran their length and the
switch-ins that are over: no slice is interrupted.
-/

namespace CpuSched

variable {D : Type}

/-! ## Cores that a step leaves alone -/

/-- A core that is busy after core `c` was freed. -/
theorem freed_core {cores cores' : Nat → Core} (c : Nat) (core : Core)
    (eq : cores' = Function.update cores c core) (free : core.proc = none) {i : Nat}
    (busy : (cores' i).proc ≠ none) : cores' i = cores i := by
  subst eq
  by_cases same : i = c
  · subst same
    rw [Function.update_self] at busy
    exact absurd free busy
  · rw [Function.update_of_ne same]

namespace Sim

variable {S : Sim D} {PInv : SchedView D → S.policy.State → Places → Prop} {budget : Int}

/-! ## No deadlines -/

/-- No slice has a deadline, and no core is flagged. -/
structure Undated (a : S.Config) : Prop where
  held : ∀ p s, a.spots p = .held s → s.deadline = schedNoDeadline
  core : ∀ c < S.opt.cores, (a.eng.cores c).proc ≠ none →
    (a.eng.cores c).deadline = schedNoDeadline ∧ (a.eng.cores c).recheck = false

theorem Undated.init [Double D] (state : S.policy.State) : Undated (S.initConfig state) where
  held _ _ here := by cases here
  core _ _ busy := absurd rfl busy

/-- A step that seats no process. -/
theorem Undated.frame {a b : S.Config} (undated : Undated a)
    (held : ∀ p s, b.spots p = .held s → a.spots p = .held s)
    (cores : ∀ c < S.opt.cores, (b.eng.cores c).proc ≠ none → b.eng.cores c = a.eng.cores c) :
    Undated b where
  held p s here := undated.held p s (held p s here)
  core c hc busy := by
    have same := cores c hc busy
    rw [same] at busy ⊢
    exact undated.core c hc busy

variable [Double D]

theorem Undated.move {a b : S.Config} (valid : S.w.Valid) (hcs : 0 ≤ S.opt.csCost)
    (un : Uninterrupted S.w S.policy PInv) (move : S.Move a b) (sound : S.Sound PInv budget a)
    (undated : Undated a) : Undated b := by
  -- a process off its core is neither held nor on one
  have off : ∀ {e e' : S.Eng} {sp : Nat → Spot} {p : Nat} {z : Spot}, z.OffCore →
      (∀ c < S.opt.cores, (e'.cores c).proc ≠ none → e'.cores c = e.cores c) → Undated ⟨e, sp⟩ →
      Undated ⟨e', Function.update sp p z⟩ := fun off cores undated =>
    undated.frame (fun r s here => off.stays (.inl ⟨s, rfl⟩) here) cores
  cases move with
  | @arrive e sp key rest state pending due hook =>
      exact off (e := e) (z := .ready) trivial (fun _ _ _ => rfl) undated
  | @wake e sp p heap state popped due hook =>
      exact off (e := e) (z := .ready) trivial (fun _ _ _ => rfl) undated
  | @preempt e sp c p s f state seat runs ran left hook_eq hook =>
      exact off (z := .ready) trivial (fun i _ busy => freed_core c
        { e.cores c with proc := none, freeSince := e.now } (by simp) rfl busy) undated
  | @block e sp c p s heap state seat runs ran used more pushed hook =>
      have eq := (sound.startIo_eq valid seat runs used more).2
      refine off (z := .blocked) trivial (fun i _ busy => ?_) undated
      dsimp only at busy ⊢
      rw [eq] at busy ⊢
      exact freed_core c { e.cores c with proc := none, freeSince := e.now }
        (by simp [burstOver]) rfl busy
  | @complete e sp c p s state seat runs ran used last hook =>
      exact off (z := .done) trivial (fun i _ busy => freed_core c
        { e.cores c with proc := none, freeSince := e.now }
        (by simp [finishProcess, burstOver]) rfl busy) undated
  | mark seat switching redecides => cases un.notReady.symm.trans redecides
  | @start e sp c p s deadline seat switching elapsed deadline_eq =>
      obtain ⟨hc, -, ok⟩ := sound.cores.seat p c s seat
      have proc_eq : (e.cores c).proc = some s.proc := ok.proc_eq
      obtain ⟨none, unflagged⟩ := undated.core c hc (by simp [proc_eq])
      dsimp only at none unflagged
      -- a tick of the burst is left before the end of time
      have early : e.now < int64Max := by
        have := sound.switching_fits valid seat switching
        omega
      have kept : deadline = schedNoDeadline := by
        rcases deadline_eq with ⟨same, -, -⟩ | ⟨-, flagged | past⟩
        · exact same.trans none
        · cases unflagged.symm.trans flagged
        · rw [none] at past
          exact absurd past early.not_ge
      rw [sound.startRun_eq valid seat switching]
      refine ⟨undated.held, fun i hi busy => ?_⟩
      dsimp only at busy ⊢
      by_cases same : i = c
      · subst same
        rw [Function.update_self]
        exact ⟨kept, unflagged⟩
      · rw [Function.update_of_ne same] at busy ⊢
        exact undated.core i hi busy
  | @pick e sp s state hook early =>
      refine ⟨fun p s' here => ?_, undated.core⟩
      by_cases same : p = s.proc
      · subst same
        obtain rfl : s = s' := by simpa using here
        exact un.undated sound.policy (sound.viewOk rfl fun _ _ => rfl) early hook
      · simp only [Function.update_of_ne same] at here
        exact undated.held p s' here
  | refuse hook early => exact ⟨undated.held, undated.core⟩
  | @place e sp c s held core_lt free fits =>
      rw [sound.placed_eq valid hcs held fits]
      refine ⟨fun p s' here => ?_, fun i hi busy => ?_⟩
      · by_cases same : p = s.proc
        · subst same
          simp at here
        · simp only [Function.update_of_ne same] at here
          exact undated.held p s' here
      · dsimp only at busy ⊢
        by_cases same : i = c
        · subst same
          have none := undated.held s.proc s held
          rw [Function.update_self, placedCore]
          split_ifs with switches
          · exact ⟨none, rfl⟩
          · exact ⟨none, rfl⟩
        · rw [Function.update_of_ne same] at busy ⊢
          exact undated.core i hi busy

theorem Undated.runInv (valid : S.w.Valid) (hcs : 0 ≤ S.opt.csCost)
    (un : Uninterrupted S.w S.policy PInv) : RunInv S PInv Undated where
  init state _ := .init state
  move move sound _ _ undated := undated.move valid hcs un move sound
  advance _ _ _ _ _ undated := ⟨undated.held, undated.core⟩

/-! ## Instants -/

omit [Double D] in
theorem markRecheck_false (cs : List Nat) (e : S.Eng) : cs.foldl (S.markRecheck false) e = e := by
  induction cs with
  | nil => rfl
  | cons c rest ih =>
      have same : S.markRecheck false e c = e := by simp [markRecheck]
      rw [List.foldl_cons, same, ih]

/-- No deadline interrupts a slice that has none. -/
theorem Sound.interrupt_none (valid : S.w.Valid) (cs : List Nat)
    (inside : ∀ c ∈ cs, c < S.opt.cores)
    {e : S.Eng} {sp : Nat → Spot} (sound : S.Sound PInv budget ⟨e, sp⟩)
    (undated : ∀ c < S.opt.cores, (e.cores c).proc ≠ none → (e.cores c).deadline = schedNoDeadline)
    (lengths : ∀ c, c < S.opt.cores → OnCore (LengthDone e.now) c ⟨e, sp⟩) :
    S.interrupt false cs e = some e := by
  induction cs with
  | nil => rfl
  | cons c rest ih =>
      simp only [List.mem_cons, forall_eq_or_imp] at inside
      have goesOn : ¬ ((e.cores c).proc ≠ none ∧ (e.cores c).inCs = false ∧
          (e.cores c).runStart ≠ e.now ∧ (false = true ∨ (e.cores c).busyUntil = e.now)) := by
        rintro ⟨on, runs, -, h⟩
        obtain ⟨p, on_core⟩ := Option.ne_none_iff_exists'.mp on
        obtain ⟨s, seat⟩ : ∃ s, sp p = .core c s := sound.cores.owner c inside.1 p on_core
        have hp : p < S.w.len := sound.inside (by simp [seat])
        have ok : SeatOk _ e.now (e.remaining p) (e.cores c) s := (sound.cores.seat p c s seat).2.2
        obtain ⟨-, -, -, hend, hbusy⟩ := ok.running runs
        have undated := undated c inside.1 on
        have unfinished : (e.cores c).runEnd ≠ e.now := lengths c inside.1 p s seat runs
        have fits : e.now + S.spotWork e p (sp p) ≤ int64Max := sound.fits valid hp
        have tail := (valid.proc hp).tail_nonneg (e.phase p)
        have hmax : schedNoDeadline = int64Max := rfl
        simp only [seat, spotWork, runs, Bool.false_eq_true, if_false] at fits
        simp only [Bool.false_eq_true, false_or] at h
        omega
      simp only [Sim.interrupt, if_neg goesOn]
      exact ih inside.2

/-- The slices and the switch-ins that end at an instant, after which no slice that ran its
length is on a core. -/
theorem Sound.ends (valid : S.w.Valid) (hcs : 0 ≤ S.opt.csCost)
    (contract : Contract S.w S.policy PInv) {e e₁ : S.Eng} {sp : Nat → Spot} {requeued : Bool}
    (sound : S.Sound PInv budget ⟨e, sp⟩)
    (run : S.endFinished (List.range S.opt.cores) e = some (e₁, requeued)) :
    ∃ sp₁, S.Moves ⟨e, sp⟩ ⟨e₁, sp₁⟩ ∧
      S.Moves ⟨e₁, sp₁⟩ ⟨(List.range S.opt.cores).foldl S.finishSwitch e₁, sp₁⟩ ∧
      ∀ c < S.opt.cores,
        OnCore (LengthDone ((List.range S.opt.cores).foldl S.finishSwitch e₁).now) c
          ⟨(List.range S.opt.cores).foldl S.finishSwitch e₁, sp₁⟩ := by
  have inside : ∀ c ∈ List.range S.opt.cores, c < S.opt.cores := fun c hc => List.mem_range.mp hc
  obtain ⟨e₂, sp₂, requeued', run', events, lengths⟩ :=
    endFinished_spec valid hcs contract (List.range S.opt.cores) inside sound
  obtain ⟨rfl, -⟩ : e₂ = e₁ ∧ requeued' = requeued := by simpa using run'.symm.trans run
  have sound₂ := events.moves.sound valid hcs contract sound
  obtain ⟨switches, -⟩ :=
    finishSwitch_spec valid hcs contract (List.range S.opt.cores) inside sound₂
  refine ⟨sp₂, events.moves, switches.moves, fun c hc => ?_⟩
  exact Moves.keep valid hcs contract (I := fun a => OnCore (LengthDone a.eng.now) c a)
    (fun move sound => move.lengthDone valid hcs sound) switches.moves sound₂
    (lengths c (List.mem_range.mpr hc))

/-- An instant without interruptions. -/
theorem Undated.processInstant (valid : S.w.Valid) (hcs : 0 ≤ S.opt.csCost)
    (contract : Contract S.w S.policy PInv) (un : Uninterrupted S.w S.policy PInv) {e e' : S.Eng}
    {sp : Nat → Spot} (undated : Undated ⟨e, sp⟩) (sound : S.Sound PInv budget ⟨e, sp⟩)
    (run : S.processInstant e = some e') :
    ∃ e₁ arrived e₂ woken e₃ requeued, S.admitArrivals e.pending e = some (e₁, arrived) ∧
      S.wakeBlocked e₁.blocked.len e₁ = some (e₂, woken) ∧
      S.endFinished (List.range S.opt.cores) e₂ = some (e₃, requeued) ∧
      e' = (List.range S.opt.cores).foldl S.finishSwitch e₃ := by
  have inside : ∀ c ∈ List.range S.opt.cores, c < S.opt.cores := fun c hc => List.mem_range.mp hc
  simp only [Sim.processInstant, un.notReady, Bool.false_and, markRecheck_false,
    Option.bind_eq_bind, Option.bind_eq_some_iff] at run
  obtain ⟨⟨e₁, arrived⟩, run₁, ⟨e₂, woken⟩, run₂, ⟨e₃, requeued⟩, run₃, run₄⟩ := run
  obtain ⟨e₁', sp₁, arrived', run₁', events₁, -⟩ :=
    admitArrivals_spec valid hcs contract e.pending sound rfl
  obtain ⟨rfl, -⟩ : e₁' = e₁ ∧ arrived' = arrived := by simpa using run₁'.symm.trans run₁
  have sound₁ := events₁.moves.sound valid hcs contract sound
  obtain ⟨e₂', sp₂, woken', run₂', events₂, -⟩ :=
    wakeBlocked_spec valid hcs contract e₁'.blocked.len sound₁ le_rfl
  obtain ⟨rfl, -⟩ : e₂' = e₂ ∧ woken' = woken := by simpa using run₂'.symm.trans run₂
  have sound₂ := events₂.moves.sound valid hcs contract sound₁
  obtain ⟨sp₃, moves₃, moves₄, lengths⟩ := sound₂.ends valid hcs contract run₃
  have moves : S.Moves _ _ := events₁.moves.trans (events₂.moves.trans (moves₃.trans moves₄))
  have sound₄ := moves.sound valid hcs contract sound
  have undated₄ : Undated ⟨_, sp₃⟩ := Moves.keep valid hcs contract (I := Undated)
    (fun move sound undated => undated.move valid hcs un move sound) moves sound undated
  have stays := sound₄.interrupt_none valid (List.range S.opt.cores) inside
    (fun c hc busy => (undated₄.core c hc busy).1) lengths
  exact ⟨e₁', arrived, e₂', woken, e₃, requeued, run₁, run₂, run₃,
    (Option.some.inj (stays.symm.trans run₄)).symm⟩

end Sim

end CpuSched
