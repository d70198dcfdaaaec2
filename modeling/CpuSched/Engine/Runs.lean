import CpuSched.Engine.Start

/-!
# Whole runs

`Reached` are the states of the main loop at its two ends of an instant.  Under
the contract of a policy every one of them is sound, each round of the loop
succeeds and moves the clock, and so the loop ends.  `RunInv` is the induction
principle for what holds along a run.
-/

namespace CpuSched

/-- Where in the main loop a state is looked at: at the end of
`process_instant`, or after `dispatch`. -/
inductive LoopPoint
  | settled
  | dispatched
  deriving DecidableEq

namespace Sim

variable {D : Type} [Double D]

/-- `sim_run` accepts its arguments, and the policy starts in `state`. -/
structure Started (S : Sim D) (state : S.policy.State) : Prop where
  validated : workloadValidate S.w = .ok ()
  options : S.checkOptions = .ok ()
  created : S.policy.create S.initView S.params = .ok state

/-- The states that the main loop goes through. -/
inductive Reached (S : Sim D) (state : S.policy.State) : LoopPoint → S.Eng → Prop
  | first {e} (run : S.processInstant (S.initEngine state) = some e) : Reached S state .settled e
  | dispatch {e e'} (before : Reached S state .settled e) (running : S.running e = true)
      (run : S.dispatch e = some e') : Reached S state .dispatched e'
  | instant {e e'} (before : Reached S state .dispatched e)
      (event : S.build.assert (S.nextEvent e ≠ int64Max) = some ())
      (run : S.processInstant { e with now := S.nextEvent e } = some e') :
      Reached S state .settled e'

variable {S : Sim D} {PInv : SchedView D → S.policy.State → Places → Prop}

/-! ## Work left -/

omit [Double D] in
/-- A process that has not completed is not counted. -/
theorem Sound.completed_lt {budget : Int} {a : S.Config} (sound : S.Sound PInv budget a) {p : Nat}
    (hp : p < S.w.len) (unfinished : a.spots p ≠ .done) : a.eng.completed < S.w.len := by
  have unfinished : p ∉ doneSet S.w.len a.spots := fun mem =>
    unfinished (Finset.mem_filter.mp mem).2
  rw [sound.completed_eq]
  calc (doneSet S.w.len a.spots).card < (Finset.range S.w.len).card :=
        Finset.card_lt_card ⟨Finset.filter_subset _ _,
          fun sub => unfinished (sub (Finset.mem_range.mpr hp))⟩
    _ = S.w.len := Finset.card_range _

omit [Double D] in
/-- Some process is unfinished if work is left. -/
theorem Sound.unfinished_of_work {budget : Int} {a : S.Config} (sound : S.Sound PInv budget a)
    (left : 0 < S.work a) : a.eng.completed < S.w.len := by
  have positive : ∑ p ∈ Finset.range S.w.len, (0 : Int) < S.work a := by simpa using left
  obtain ⟨p, hp, pos⟩ := Finset.exists_lt_of_sum_lt positive
  refine sound.completed_lt (Finset.mem_range.mp hp) fun done => ?_
  rw [done] at pos
  simp [spotWork] at pos

omit [Double D] in
theorem Sound.exists_unfinished {budget : Int} {a : S.Config} (sound : S.Sound PInv budget a)
    (running : a.eng.completed < S.w.len) : ∃ p < S.w.len, a.spots p ≠ .done := by
  by_contra hall
  push Not at hall
  have : doneSet S.w.len a.spots = Finset.range S.w.len :=
    Finset.filter_true_of_mem fun p hp => hall p (Finset.mem_range.mp hp)
  have := sound.completed_eq
  simp_all

omit [Double D] in
/-- In a settled state an unfinished process has a tick of work left. -/
theorem Settled.spotWork_pos {budget : Int} {a : S.Config} (valid : S.w.Valid)
    (sound : S.Sound PInv budget a) (settled : Settled a) {p : Nat} (hp : p < S.w.len)
    (unfinished : a.spots p ≠ .done) : 0 < S.spotWork a.eng p (a.spots p) := by
  have progress := sound.data.progress p hp unfinished
  have left := progress.remaining_pos
  have tail := (valid.proc hp).tail_nonneg (a.eng.phase p)
  cases h : a.spots p with
  | done => exact absurd h unfinished
  | blocked =>
      have := sound.blocked.wake_ge p h
      simp only [spotWork]
      omega
  | core c s =>
      have seat := (sound.cores.seat p c s h).2.2
      simp only [spotWork]
      split_ifs with hcs
      · omega
      · have runs : (a.eng.cores c).inCs = false := by simpa using hcs
        have := settled.cuts c p s h runs
        obtain ⟨_, _, _, hend, hbusy⟩ := seat.running runs
        omega
  | _ =>
      simp only [spotWork]
      omega

omit [Double D] in
theorem Settled.work_pos {budget : Int} {a : S.Config} (valid : S.w.Valid)
    (sound : S.Sound PInv budget a) (settled : Settled a) (running : a.eng.completed < S.w.len) :
    0 < S.work a := by
  obtain ⟨p, hp, unfinished⟩ := sound.exists_unfinished running
  have := settled.spotWork_pos valid sound hp unfinished
  have := sound.spotWork_le valid hp
  omega

/-! ## The invariant of the main loop -/

/-- The horizon and the cost of every switch charged so far. -/
def reach (S : Sim D) (e : S.Eng) : Int := workloadHorizon S.w + e.switches * S.opt.csCost

/-- What a run starts from. -/
structure Launched (S : Sim D) (PInv : SchedView D → S.policy.State → Places → Prop)
    (state : S.policy.State) : Prop where
  valid : S.w.Valid
  options : OptionsOk S
  contract : Contract S.w S.policy PInv
  start : PInv S.initView state fun _ => .new

/-- What holds at the two points of the main loop. -/
structure Course (PInv : SchedView D → S.policy.State → Places → Prop) (point : LoopPoint)
    (a : S.Config) : Prop where
  sound : ∃ budget, S.Sound PInv budget a
  settled : Settled a
  paid : Paid a.eng
  bound : ∃ rounds, Bound rounds a ∧ (point = .dispatched → S.limit rounds ≤ int64Max)
  dispatched : point = .dispatched → Dispatched a ∧ a.eng.completed < S.w.len

/-- What every move and every advance of the clock keeps. -/
structure RunInv (S : Sim D) (PInv : SchedView D → S.policy.State → Places → Prop)
    (I : S.Config → Prop) : Prop where
  init : ∀ state, PInv S.initView state (fun _ => .new) → I (S.initConfig state)
  move : ∀ {budget a b}, S.Move a b → S.Sound PInv budget a → Paid a.eng →
    a.eng.now + S.work a ≤ S.reach a.eng → I a → I b
  advance : ∀ {budget a t}, S.Sound PInv budget a → Dispatched a → EventAt a t →
    (∀ {t'}, EventAt a t' → t ≤ t') → a.eng.now < t → I a → I (later a t)

theorem RunInv.true : RunInv S PInv fun _ => True :=
  ⟨fun _ _ => trivial, fun _ _ _ _ _ => trivial, fun _ _ _ _ _ _ => trivial⟩

theorem RunInv.and {I J : S.Config → Prop} (hI : RunInv S PInv I) (hJ : RunInv S PInv J) :
    RunInv S PInv fun a => I a ∧ J a where
  init state start := ⟨hI.init state start, hJ.init state start⟩
  move move sound paid clock both :=
    ⟨hI.move move sound paid clock both.1, hJ.move move sound paid clock both.2⟩
  advance sound dispatched event first gt both :=
    ⟨hI.advance sound dispatched event first gt both.1,
      hJ.advance sound dispatched event first gt both.2⟩

omit [Double D] in
theorem Bound.clock_le (hcs : 0 ≤ S.opt.csCost) {rounds : Nat} {a : S.Config}
    (bound : Bound rounds a) : a.eng.now + S.work a ≤ S.reach a.eng := by
  have := bound.clock
  have := mul_le_mul_of_nonneg_right bound.rounds_le hcs
  simp only [limit, reach] at *
  omega

/-- The part of `RunInv` about moves. -/
def KeptByMoves (S : Sim D) (PInv : SchedView D → S.policy.State → Places → Prop)
    (I : S.Config → Prop) : Prop :=
  ∀ {budget a b}, S.Move a b → S.Sound PInv budget a → Paid a.eng →
    a.eng.now + S.work a ≤ S.reach a.eng → I a → I b

section Steps

variable {state : S.policy.State} (launched : Launched S PInv state) {I : S.Config → Prop}
  (inv : RunInv S PInv I)
include launched

/-- A sequence of moves keeps what each move keeps. -/
theorem Launched.moves {budget : Int} {a b : S.Config} {rounds : Nat} (moves : S.Moves a b)
    (sound : S.Sound PInv budget a) (paid : Paid a.eng) (bound : Bound rounds a) :
    S.Sound PInv budget b ∧ Paid b.eng ∧ (∃ rounds' ≤ rounds + 1, Bound rounds' b) ∧
      (KeptByMoves S PInv I → I a → I b) := by
  have valid := launched.valid
  have hcs := launched.options.cs_nonneg
  have contract := launched.contract
  refine ⟨moves.sound valid hcs contract sound, ?_, moves.bound valid hcs contract sound bound,
    fun kept start => ?_⟩
  · exact Moves.keep valid hcs contract (I := fun a => Paid a.eng)
      (fun move sound => move.paid valid hcs sound) moves sound paid
  · refine (Moves.keep valid hcs contract
      (I := fun a => Paid a.eng ∧ a.eng.now + S.work a ≤ S.reach a.eng ∧ I a) ?_ moves sound
      ⟨paid, bound.clock_le hcs, start⟩).2.2
    rintro a b move sound ⟨paid, clock, here⟩
    have work_eq := sound.work_eq (move.sound valid hcs contract sound) move.now_eq
    have switches := mul_le_mul_of_nonneg_right (move.switches_le valid hcs sound) hcs
    refine ⟨move.paid valid hcs sound paid, ?_, kept move sound paid clock here⟩
    have now_eq := move.now_eq
    simp only [reach] at *
    omega

/-- The first instant. -/
theorem Launched.first : ∃ e sp, S.processInstant (S.initEngine state) = some e ∧
    S.Events (S.initConfig state) ⟨e, sp⟩ ∧ Course PInv .settled ⟨e, sp⟩ ∧
    (KeptByMoves S PInv I → I (S.initConfig state) → I ⟨e, sp⟩) := by
  have sound := Sound.init launched.valid launched.start
  obtain ⟨e, sp, run, events, settled⟩ := processInstant_spec launched.valid
    launched.options.cs_nonneg launched.contract sound (fun p s h => by cases h)
  obtain ⟨sound', paid, ⟨rounds, -, bound⟩, keeps⟩ := launched.moves (I := I) events.moves sound
    (Paid.init state) (Bound.init launched.valid state)
  exact ⟨e, sp, run, events, ⟨⟨_, sound'⟩, settled, paid, ⟨rounds, bound, nofun⟩, nofun⟩,
    keeps⟩

omit [Double D] launched in
theorem running_iff {e : S.Eng} :
    S.running e = true ↔ e.completed < S.w.len ∧ e.fail = .ok := by
  simp [running]

omit [Double D] in
/-- While something is left to do, the clock has not reached the end of time. -/
theorem Launched.early {a : S.Config} (course : Course PInv .settled a)
    (running : S.running a.eng = true) : a.eng.now < int64Max := by
  obtain ⟨budget, sound⟩ := course.sound
  have left := course.settled.work_pos launched.valid sound (running_iff.mp running).1
  have := sound.budget_eq
  have := sound.budget_le
  omega

/-- A round of `dispatch`. -/
theorem Launched.dispatch {a : S.Config} (course : Course PInv .settled a)
    (running : S.running a.eng = true) :
    ∃ e sp, S.dispatch a.eng = some e ∧ S.Moves a ⟨e, sp⟩ ∧ Course PInv .dispatched ⟨e, sp⟩ ∧
      (KeptByMoves S PInv I → I a → I ⟨e, sp⟩) := by
  obtain ⟨unfinished, ok⟩ := running_iff.mp running
  obtain ⟨budget, sound⟩ := course.sound
  obtain ⟨rounds, bound, -⟩ := course.bound
  have left := course.settled.work_pos launched.valid sound unfinished
  obtain ⟨fits, hlimit⟩ := bound.fits launched.options course.paid ok launched.valid left.le
  obtain ⟨e, sp, run, moves, dispatched⟩ := dispatch_spec launched.valid
    launched.options.cs_nonneg launched.contract sound course.settled
    (launched.early course running) fits
  obtain ⟨sound', paid, ⟨rounds', le, bound'⟩, keeps⟩ := launched.moves (I := I) moves sound
    course.paid bound
  refine ⟨e, sp, run, moves,
    ⟨⟨_, sound'⟩, dispatched.toSettled, paid, ⟨rounds', bound', fun _ => ?_⟩,
    fun _ => ⟨dispatched, ?_⟩⟩, keeps⟩
  · have := limit_mono launched.options.cs_nonneg le
    rw [limit_succ] at this
    omega
  · have := sound.work_eq sound' moves.now_eq
    exact sound'.unfinished_of_work (by omega)

/-- The clock moves to the next event. -/
theorem Launched.advance {a : S.Config} (course : Course PInv .dispatched a) :
    a.eng.now < S.nextEvent a.eng ∧ EventAt a (S.nextEvent a.eng) ∧
      ∃ e sp, S.processInstant { a.eng with now := S.nextEvent a.eng } = some e ∧
      S.Events (later a (S.nextEvent a.eng)) ⟨e, sp⟩ ∧ Course PInv .settled ⟨e, sp⟩ ∧
      (KeptByMoves S PInv I → I (later a (S.nextEvent a.eng)) → I ⟨e, sp⟩) := by
  obtain ⟨budget, sound⟩ := course.sound
  obtain ⟨rounds, bound, hlimit⟩ := course.bound
  obtain ⟨dispatched, unfinished⟩ := course.dispatched rfl
  obtain ⟨event, gt⟩ := dispatched.nextEvent_spec launched.valid launched.options sound unfinished
    bound (hlimit rfl)
  obtain ⟨budget', sound', bound'⟩ := dispatched.advance launched.valid launched.contract
    launched.options sound unfinished bound (hlimit rfl)
  have none : NoneHeld (later a (S.nextEvent a.eng)) := course.settled.noneHeld
  obtain ⟨e, sp, run, events, settled⟩ := processInstant_spec launched.valid
    launched.options.cs_nonneg launched.contract sound' none
  have paid : Paid (later a (S.nextEvent a.eng)).eng :=
    course.paid.congr rfl rfl rfl rfl fun c _ free => ⟨free, rfl⟩
  obtain ⟨sound'', paid', ⟨rounds', -, bound''⟩, keeps⟩ := launched.moves (I := I) events.moves
    sound' paid bound'
  exact ⟨gt, event, e, sp, run, events,
    ⟨⟨_, sound''⟩, settled, paid', ⟨rounds', bound'', nofun⟩, nofun⟩,
    keeps⟩

/-- What moves keep, and the advances of the clock from the states of the run, holds in
every state of the main loop. -/
theorem Reached.course_of (init : I (S.initConfig state)) (move : KeptByMoves S PInv I)
    (advance : ∀ {e sp}, Reached S state .dispatched e → Course PInv .dispatched ⟨e, sp⟩ →
      e.now < S.nextEvent e → I ⟨e, sp⟩ → I (later ⟨e, sp⟩ (S.nextEvent e)))
    {point : LoopPoint} {e : S.Eng} (reached : Reached S state point e) :
    ∃ sp, Course PInv point ⟨e, sp⟩ ∧ I ⟨e, sp⟩ := by
  induction reached with
  | first run =>
      obtain ⟨e', sp, run', -, course, keeps⟩ := launched.first (I := I)
      cases run.symm.trans run'
      exact ⟨sp, course, keeps move init⟩
  | dispatch before running run ih =>
      obtain ⟨sp, course, here⟩ := ih
      obtain ⟨e', sp', run', -, course', keeps⟩ := launched.dispatch (I := I) course running
      cases run.symm.trans run'
      exact ⟨sp', course', keeps move here⟩
  | instant before event run ih =>
      obtain ⟨sp, course, here⟩ := ih
      obtain ⟨gt, -, e', sp', run', -, course', keeps⟩ := launched.advance (I := I) course
      cases run.symm.trans run'
      exact ⟨sp', course', keeps move (advance before course gt here)⟩

include inv

/-- Every state of the main loop keeps the invariant, and what a run keeps. -/
theorem Reached.course {point : LoopPoint} {e : S.Eng} (reached : Reached S state point e) :
    ∃ sp, Course PInv point ⟨e, sp⟩ ∧ I ⟨e, sp⟩ := by
  refine reached.course_of launched (inv.init state launched.start) inv.move
    fun {e sp} _ course gt here => ?_
  obtain ⟨budget, sound⟩ := course.sound
  obtain ⟨-, event, -⟩ := launched.advance (I := I) course
  exact inv.advance sound (course.dispatched rfl).1 event
    (sound.nextEvent_le launched.valid) gt here

end Steps

/-! ## Every move of a run -/

/-- Moves of which each is in relation `R`. -/
abbrev MovesIn (R : S.Config → S.Config → Prop) : S.Config → S.Config → Prop :=
  Relation.ReflTransGen fun a b => S.Move a b ∧ R a b

/-- What the engine does at one instant of a run is a sequence of moves, each in relation
`R`: at the first instant, in every dispatch and at every event. -/
structure EachMove (S : Sim D) (state : S.policy.State)
    (R : S.Config → S.Config → Prop) : Prop where
  first : ∃ e sp, S.processInstant (S.initEngine state) = some e ∧
    MovesIn R (S.initConfig state) ⟨e, sp⟩
  dispatch : ∀ e, Reached S state .settled e → S.running e = true →
    ∃ sp e' sp', S.dispatch e = some e' ∧ MovesIn R ⟨e, sp⟩ ⟨e', sp'⟩
  instant : ∀ e, Reached S state .dispatched e →
    ∃ sp e' sp', S.processInstant { e with now := S.nextEvent e } = some e' ∧
      MovesIn R ⟨{ e with now := S.nextEvent e }, sp⟩ ⟨e', sp'⟩

theorem Moves.movesIn (valid : S.w.Valid) (hcs : 0 ≤ S.opt.csCost)
    (contract : Contract S.w S.policy PInv) {R : S.Config → S.Config → Prop}
    {I : S.Config → Prop} {budget : Int}
    (kept : ∀ {a b}, S.Move a b → S.Sound PInv budget a → I a → I b)
    (step : ∀ {a b}, S.Move a b → S.Sound PInv budget a → I a → R a b) {a b : S.Config}
    (moves : S.Moves a b) (sound : S.Sound PInv budget a) (here : I a) : MovesIn R a b := by
  suffices both : MovesIn R a b ∧ I b from both.1
  induction moves with
  | refl => exact ⟨.refl, here⟩
  | tail before move ih =>
      obtain ⟨before', there⟩ := ih
      have sound' := Moves.sound valid hcs contract before sound
      exact ⟨before'.tail ⟨move, step move sound' there⟩, kept move sound' there⟩

/-- Every move of a run is in a relation that moves are in from sound configurations
with what all moves and all advances of the clock keep. -/
theorem Launched.eachMove {state : S.policy.State} (launched : Launched S PInv state)
    {R : S.Config → S.Config → Prop} {I : S.Config → Prop} (init : I (S.initConfig state))
    (kept : ∀ {budget a b}, S.Move a b → S.Sound PInv budget a → I a → I b)
    (later_ : ∀ {a t}, I a → I (later a t))
    (step : ∀ {budget a b}, S.Move a b → S.Sound PInv budget a → I a → R a b) :
    EachMove S state R := by
  have valid := launched.valid
  have hcs := launched.options.cs_nonneg
  have contract := launched.contract
  have here : ∀ {point e}, Reached S state point e → ∃ sp, Course PInv point ⟨e, sp⟩ ∧ I ⟨e, sp⟩ :=
    fun reached => reached.course_of launched init (fun move sound _ _ here => kept move sound here)
      fun _ _ _ here => later_ here
  constructor
  · obtain ⟨e, sp, run, events, -⟩ := launched.first (I := I)
    exact ⟨e, sp, run, events.moves.movesIn valid hcs contract kept step
      (Sound.init valid launched.start) init⟩
  · intro e reached running
    obtain ⟨sp, course, start⟩ := here reached
    obtain ⟨budget, sound⟩ := course.sound
    obtain ⟨e', sp', run, moves, -⟩ := launched.dispatch (I := I) course running
    exact ⟨sp, e', sp', run, moves.movesIn valid hcs contract kept step sound start⟩
  · intro e reached
    obtain ⟨sp, course, start⟩ := here reached
    obtain ⟨budget, sound⟩ := course.sound
    obtain ⟨rounds, bound, limit⟩ := course.bound
    obtain ⟨dispatched, unfinished⟩ := course.dispatched rfl
    obtain ⟨-, -, e', sp', run, events, -⟩ := launched.advance (I := I) course
    obtain ⟨budget', sound', -⟩ := dispatched.advance valid contract launched.options sound
      unfinished bound (limit rfl)
    exact ⟨sp, e', sp', run, events.moves.movesIn valid hcs contract kept step sound'
      (later_ start)⟩

/-! ## The main loop -/

section Loop

variable {state : S.policy.State} (launched : Launched S PInv state)
include launched

/-- A state after `dispatch` in which `next_event` gives the sentinel. -/
def Blind (S : Sim D) (state : S.policy.State) : Prop :=
  ∃ e, Reached S state .dispatched e ∧ S.nextEvent e = int64Max

omit launched in
theorem iterate_of {e e₁ : S.Eng} (run : S.dispatch e = some e₁) : S.iterate e =
    (S.build.assert (S.nextEvent e₁ ≠ int64Max)).bind fun _ =>
      S.processInstant { e₁ with now := S.nextEvent e₁ } := by
  rw [Sim.iterate, run]
  rfl

omit [Double D] launched in
theorem assert_eq (build : Build) (cond : Bool) :
    build.assert cond = some () ∨ (build = .debug ∧ cond = false ∧ build.assert cond = none) := by
  cases build <;> cases cond <;> simp [Build.assert]

/-- One round of the main loop: it moves the clock, or the assertion on the next
event ends the run. -/
theorem Launched.iterate {e : S.Eng} (reached : Reached S state .settled e)
    (running : S.running e = true) :
    (∃ e', S.iterate e = some e' ∧ Reached S state .settled e' ∧ e.now < e'.now) ∨
      (S.iterate e = none ∧ S.build = .debug ∧ Blind S state) := by
  obtain ⟨sp, course, -⟩ := reached.course launched RunInv.true
  obtain ⟨e₁, sp₁, run₁, moves₁, course₁, -⟩ := launched.dispatch
    (I := fun _ => True) course running
  have reached₁ := reached.dispatch running run₁
  obtain ⟨gt, -, e₂, sp₂, run₂, events₂, -, -⟩ := launched.advance (I := fun _ => True) course₁
  have now₁ : e₁.now = e.now := moves₁.now_eq
  have now₂ : e₂.now = S.nextEvent e₁ := events₂.moves.now_eq
  rcases assert_eq S.build (S.nextEvent e₁ ≠ int64Max) with event | ⟨debug, failed, stop⟩
  · left
    refine ⟨e₂, by rw [iterate_of run₁, event]; exact run₂, reached₁.instant event run₂, ?_⟩
    simp only at gt
    omega
  · right
    exact ⟨by rw [iterate_of run₁, stop]; rfl, debug, e₁, reached₁, by simpa using failed⟩

/-- The main loop ends, after the last process or at a failed assertion. -/
theorem Launched.mainLoop (fuel : Nat) {e : S.Eng} (reached : Reached S state .settled e)
    (enough : int64Max < fuel + e.now) :
    (∃ e', S.mainLoop fuel e = .done e' ∧ Reached S state .settled e' ∧ S.running e' = false) ∨
      (S.mainLoop fuel e = .aborted ∧ S.build = .debug ∧ Blind S state) := by
  induction fuel generalizing e with
  | zero =>
      obtain ⟨sp, course, -⟩ := reached.course launched RunInv.true
      obtain ⟨budget, sound⟩ := course.sound
      have := sound.work_nonneg launched.valid
      have := sound.budget_eq
      have := sound.budget_le
      simp only at *
      omega
  | succ fuel ih =>
      cases running : S.running e with
      | false => exact .inl ⟨e, by simp [Sim.mainLoop, running], reached, running⟩
      | true =>
          rcases launched.iterate reached running with ⟨e', run, reached', gt⟩ | ⟨run, stop⟩
          · rcases ih reached' (by push_cast at enough; omega)
              with ⟨e'', done, rest⟩ | ⟨aborted, rest⟩
            · exact .inl ⟨e'', by simp [Sim.mainLoop, running, run, done], rest⟩
            · exact .inr ⟨by simp [Sim.mainLoop, running, run, aborted], rest⟩
          · exact .inr ⟨by simp [Sim.mainLoop, running, run], stop⟩

/-- The main loop visits every state that is reached: `k` rounds lead there, and
the clock has moved at least that often. -/
theorem Reached.rounds {point : LoopPoint} {e : S.Eng} (reached : Reached S state point e) :
    ∃ e₀, ∃ k : Nat, ∃ e', S.processInstant (S.initEngine state) = some e₀ ∧
      Reached S state .settled e' ∧
      (k : Int) ≤ e'.now ∧ (∀ fuel, S.mainLoop (k + fuel) e₀ = S.mainLoop fuel e') ∧
      (match point with
        | .settled => e = e'
        | .dispatched => S.running e' = true ∧ S.dispatch e' = some e) := by
  induction reached with
  | @first e run =>
      have reached : Reached S state .settled e := .first run
      obtain ⟨sp, course, -⟩ := reached.course launched RunInv.true
      obtain ⟨budget, sound⟩ := course.sound
      exact ⟨e, 0, e, run, reached, sound.now_nonneg, fun fuel => by rw [Nat.zero_add], rfl⟩
  | dispatch before running run ih =>
      obtain ⟨e₀, k, e', start, reached', hk, loop, rfl⟩ := ih
      exact ⟨e₀, k, _, start, before, hk, loop, running, run⟩
  | @instant e e₂ before event run ih =>
      obtain ⟨e₀, k, e', start, reached', hk, loop, running, run₁⟩ := ih
      have run₂ : S.iterate e' = some e₂ := by
        rw [iterate_of run₁, event]
        exact run
      have gt : e'.now < e₂.now := by
        rcases launched.iterate reached' running with ⟨e'', run', -, gt⟩ | ⟨run', -⟩
        · cases run₂.symm.trans run'
          exact gt
        · cases run₂.symm.trans run'
      refine ⟨e₀, k + 1, e₂, start, before.instant event
        run, by push_cast; omega, fun fuel => ?_, rfl⟩
      rw [show k + 1 + fuel = k + (fuel + 1) by omega, loop]
      simp [Sim.mainLoop, running, run₂]

/-- There is fuel for every tick. -/
theorem Reached.fuel_enough {point : LoopPoint} {e : S.Eng} (reached : Reached S state point e) :
    int64Max < (loopFuel : Nat) + e.now := by
  obtain ⟨sp, course, -⟩ := reached.course launched RunInv.true
  obtain ⟨budget, sound⟩ := course.sound
  have : 0 ≤ e.now := sound.now_nonneg
  simp only [int64Max, loopFuel]
  norm_num
  omega

/-- The main loop of `sim_run` is aborted exactly when assertions are compiled in
and some state has no event before the sentinel. -/
theorem Launched.aborted_iff {e : S.Eng} (run : S.processInstant (S.initEngine state) = some e) :
    S.mainLoop loopFuel e = .aborted ↔ S.build = .debug ∧ Blind S state := by
  have reached : Reached S state .settled e := .first run
  constructor
  · intro aborted
    rcases launched.mainLoop loopFuel reached (reached.fuel_enough launched) with
      ⟨e', done, -⟩ | ⟨-, stop⟩
    · rw [aborted] at done
      cases done
    · exact stop
  · rintro ⟨debug, e', reached', blind⟩
    obtain ⟨e₀, k, e₁, start, reached₁, hk, loop, running, run₁⟩ := reached'.rounds launched
    cases run.symm.trans start
    obtain ⟨sp, course, -⟩ := reached₁.course launched RunInv.true
    obtain ⟨budget, sound⟩ := course.sound
    have unfinished : e₁.completed < S.w.len := (running_iff.mp running).1
    have left := course.settled.work_pos launched.valid sound unfinished
    have hk : k + 1 ≤ loopFuel := by
      have := sound.budget_eq
      have := sound.budget_le
      simp only [int64Max, loopFuel] at *
      omega
    obtain ⟨fuel, hfuel⟩ := Nat.exists_eq_add_of_le hk
    rw [hfuel, show k + 1 + fuel = k + (fuel + 1) by omega, loop]
    have stop : S.iterate e₁ = none := by
      rw [iterate_of run₁, blind, debug]
      rfl
    simp [Sim.mainLoop, running, stop]

end Loop

end Sim

end CpuSched
