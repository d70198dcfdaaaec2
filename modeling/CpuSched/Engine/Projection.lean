import CpuSched.Engine.Runs

/-!
# Policies that only add to their state

The engine touches the state of a policy through the hooks alone.  So if `Q` does
what `P` does and keeps more in its state, a run with `Q` is the run with `P` once
the rest is forgotten.
-/

namespace CpuSched

variable {D : Type} [Double D]

/-- The hooks of `Q` do what those of `P` do, after `f` has forgotten part of the
state. -/
structure Policy.Projects (Q P : Policy D) (f : Q.State → P.State) : Prop where
  name_eq : P.name = Q.name
  preemptOnReady_eq : P.preemptOnReady = Q.preemptOnReady
  usesQuantum_eq : P.usesQuantum = Q.usesQuantum
  create : ∀ v params, P.create v params = (Q.create v params).map f
  onArrival : ∀ v s p, P.onArrival v (f s) p = (Q.onArrival v s p).map f
  wakeHook : ∀ v s p, P.wakeHook v (f s) p = (Q.wakeHook v s p).map f
  nextSlice : ∀ v s, P.nextSlice v (f s) = (Q.nextSlice v s).map (Prod.map f id)
  preempt_none : P.onPreempt = none ↔ Q.onPreempt = none
  onPreempt : ∀ v s p ran g h, P.onPreempt = some g → Q.onPreempt = some h →
    g v (f s) p ran = (h v s p ran).map f
  onBlock : ∀ v s p ran, optCall P.onBlock v (f s) p ran = (optCall Q.onBlock v s p ran).map f
  onComplete : ∀ v s p ran,
    optCall P.onComplete v (f s) p ran = (optCall Q.onComplete v s p ran).map f

/-- The engine with another policy state. -/
abbrev Engine.map {σ τ : Type} (f : σ → τ) (e : Engine D σ) : Engine D τ where
  state := f e.state
  now := e.now
  pending := e.pending
  remaining := e.remaining
  burstLen := e.burstLen
  predicted := e.predicted
  phase := e.phase
  wake := e.wake
  blocked := e.blocked
  cores := e.cores
  outcomes := e.outcomes
  timelines := e.timelines
  switches := e.switches
  csTime := e.csTime
  segments := e.segments
  completed := e.completed
  fail := e.fail

namespace Sim

/-- The same simulation with the policy `Q`. -/
abbrev withPolicy (S : Sim D) (Q : Policy D) : Sim D where
  build := S.build
  w := S.w
  policy := Q
  params := S.params
  opt := S.opt

variable {S : Sim D} {Q : Policy D} {f : Q.State → S.policy.State}

/-! ## Operations that call no hook -/

section Silent

variable (e : Engine D Q.State)

omit [Double D] in
theorem pushSegment_map (c : Nat) (seg : Segment) :
    S.pushSegment (e.map f) c seg = ((S.withPolicy Q).pushSegment e c seg).map f := by
  unfold pushSegment
  split <;> rfl

omit [Double D] in
theorem append_map (c : Nat) (a b : Int) (p : Option Nat) (k : SegmentKind) :
    S.append (e.map f) c a b p k = ((S.withPolicy Q).append e c a b p k).map f := by
  unfold append
  dsimp only
  split
  · rfl
  · split
    · split
      · rfl
      · exact pushSegment_map e c _
    · exact pushSegment_map e c _

omit [Double D] in
theorem addTime_map (a b : Int) : S.addTime (e.map f) a b =
    (((S.withPolicy Q).addTime e a b).1.map f, ((S.withPolicy Q).addTime e a b).2) := by
  cases h : ckAddI64 a b with
  | none => simp only [addTime, h]
  | some r => simp only [addTime, h]

omit [Double D] in
theorem chargeRun_map (c p : Nat) :
    S.chargeRun (e.map f) c p = ((S.withPolicy Q).chargeRun e c p).map f := by
  simp only [chargeRun, append_map]
  rfl

omit [Double D] in
theorem startIo_map (p : Nat) : S.startIo (e.map f) p = ((S.withPolicy Q).startIo e p).map f := by
  simp only [startIo, addTime_map]

omit [Double D] in
theorem setCore_map (c : Nat) (core : Core) :
    S.setCore (e.map f) c core = ((S.withPolicy Q).setCore e c core).map f := rfl

omit [Double D] in
theorem beginRun_map (c p : Nat) :
    S.beginRun (e.map f) c p = ((S.withPolicy Q).beginRun e c p).map f := by
  dsimp only [beginRun, addTime, setCore]
  by_cases fresh : (e.outcomes p).start < 0
  · simp only [fresh, if_true]
    generalize (if (e.cores c).length < e.remaining p then (e.cores c).length else e.remaining p) =
      len
    cases ckAddI64 e.now len <;> rfl
  · simp only [fresh, if_false]
    generalize (if (e.cores c).length < e.remaining p then (e.cores c).length else e.remaining p) =
      len
    cases ckAddI64 e.now len <;> rfl

omit [Double D] in
theorem switching_map (c p : Nat) :
    S.switching (e.map f) c p = (S.withPolicy Q).switching e c p := rfl

omit [Double D] in
theorem seat_map (c : Nat) (s : Slice) :
    S.seat (e.map f) c s = ((S.withPolicy Q).seat e c s).map f := by
  simp only [seat, append_map, setCore_map, switching_map]
  split_ifs <;> rfl

omit [Double D] in
theorem switchIn_map (c p : Nat) :
    S.switchIn (e.map f) c p = ((S.withPolicy Q).switchIn e c p).map f := by
  simp only [switchIn, addTime_map, setCore_map, append_map]

omit [Double D] in
theorem markRecheck_map (redecide : Bool) (c : Nat) :
    S.markRecheck redecide (e.map f) c = ((S.withPolicy Q).markRecheck redecide e c).map f := by
  simp only [markRecheck]
  split_ifs <;> rfl

omit [Double D] in
theorem finishSwitch_map (c : Nat) :
    S.finishSwitch (e.map f) c = ((S.withPolicy Q).finishSwitch e c).map f := by
  simp only [finishSwitch]
  cases (e.cores c).proc with
  | none => rfl
  | some p =>
      simp only [addTime_map, setCore_map, beginRun_map]
      split_ifs <;> rfl

omit [Double D] in
theorem appendTrailing_map (c : Nat) :
    S.appendTrailing (e.map f) c = ((S.withPolicy Q).appendTrailing e c).map f :=
  append_map e c _ _ _ _

omit [Double D] in
theorem foldl_map {step : S.Eng → Nat → S.Eng}
    {step' : (S.withPolicy Q).Eng → Nat → (S.withPolicy Q).Eng}
    (commutes : ∀ e c, step (e.map f) c = (step' e c).map f) (cs : List Nat) :
    cs.foldl step (e.map f) = (cs.foldl step' e).map f := by
  induction cs generalizing e with
  | nil => rfl
  | cons c rest ih => rw [List.foldl_cons, List.foldl_cons, commutes, ih]

end Silent

/-! ## Operations that call hooks -/

/-- Two computations that agree up to `g` before the bind and up to `h` after it
agree up to `h`. -/
theorem bind_map {α α' β β' : Type} {x : Option α'} {y : Option α} {k : α' → Option β'}
    {k' : α → Option β} {g : α → α'} {h : β → β'} (first : x = y.map g)
    (rest : ∀ a, k (g a) = (k' a).map h) : (x >>= k) = (y >>= k').map h := by
  subst first
  cases y with
  | none => rfl
  | some a => exact rest a

section Calls

variable (proj : Q.Projects S.policy f)
include proj

omit [Double D] proj in
theorem hook_map (e : Engine D Q.State) {g : SchedView D → S.policy.State → Option S.policy.State}
    {h : SchedView D → Q.State → Option Q.State} (commutes : ∀ v s, g v (f s) = (h v s).map f) :
    S.hook (e.map f) g = ((S.withPolicy Q).hook e h).map (Engine.map f) := by
  simp only [hook, commutes, Option.map_map]
  rfl

theorem burstDone_map (e : Engine D Q.State) (p : Nat) (ran : Int) :
    S.burstDone (e.map f) p ran = ((S.withPolicy Q).burstDone e p ran).map (Engine.map f) := by
  have optional : ∀ (e : Engine D Q.State)
      {g : Option (SchedView D → S.policy.State → Nat → Int → Option S.policy.State)}
      {h : Option (SchedView D → Q.State → Nat → Int → Option Q.State)},
      (∀ v s p ran, optCall g v (f s) p ran = (optCall h v s p ran).map f) →
      S.optHook (e.map f) g p ran = ((S.withPolicy Q).optHook e h p ran).map (Engine.map f) := by
    intro e g h commutes
    refine (S.optHook_eq _ _ _ _).trans
      (Eq.trans ?_ (congrArg _ ((S.withPolicy Q).optHook_eq e h p ran).symm))
    rw [commutes, Option.map_map, Option.map_map]
    rfl
  obtain ⟨e₁, he₁⟩ : ∃ e₁ : Engine D Q.State,
      e₁ = { e with predicted := (S.withPolicy Q).ewma e p } := ⟨_, rfl⟩
  obtain ⟨e₂, he₂⟩ : ∃ e₂ : Engine D Q.State, e₂ = (S.withPolicy Q).startIo e₁ p := ⟨_, rfl⟩
  have source : (S.withPolicy Q).burstDone e p ran =
      if e.phase p + 1 = (S.w.proc p).phaseCount then
        (S.withPolicy Q).optHook ((S.withPolicy Q).finishProcess e₁ p) Q.onComplete p ran
      else (heapPush (S.blockedLess e₂.wake) e₂.blocked p).bind fun blocked =>
        (S.withPolicy Q).optHook { e₂ with blocked } Q.onBlock p ran := by
    rw [he₂, he₁]
    rfl
  have target : S.burstDone (e.map f) p ran =
      if e.phase p + 1 = (S.w.proc p).phaseCount then
        S.optHook (((S.withPolicy Q).finishProcess e₁ p).map f) S.policy.onComplete p ran
      else (heapPush (S.blockedLess e₂.wake) e₂.blocked p).bind fun blocked =>
        S.optHook (Engine.map f { e₂ with blocked }) S.policy.onBlock p ran := by
    have io : S.startIo (e₁.map f) p = e₂.map f := by rw [startIo_map, he₂]
    have unfolded : S.burstDone (e.map f) p ran =
        if e.phase p + 1 = (S.w.proc p).phaseCount then
          S.optHook (((S.withPolicy Q).finishProcess e₁ p).map f) S.policy.onComplete p ran
        else (heapPush (S.blockedLess (S.startIo (e₁.map f) p).wake)
            (S.startIo (e₁.map f) p).blocked p).bind fun blocked =>
          S.optHook { S.startIo (e₁.map f) p with blocked } S.policy.onBlock p ran := by
      rw [he₁]
      rfl
    rw [unfolded, io]
  rw [source, target]
  split_ifs
  · exact optional _ proj.onComplete
  · cases heapPush (S.blockedLess e₂.wake) e₂.blocked p with
    | none => rfl
    | some blocked => exact optional { e₂ with blocked } proj.onBlock

theorem endRun_map (e : Engine D Q.State) (c : Nat) :
    S.endRun (e.map f) c = ((S.withPolicy Q).endRun e c).map (Prod.map (Engine.map f) id) := by
  simp only [endRun]
  cases (e.cores c).proc with
  | none => rfl
  | some p =>
      simp only [chargeRun_map]
      split_ifs with elapsed
      · rw [burstDone_map proj, Option.map_map, Option.map_map]
        rfl
      · cases target : S.policy.onPreempt with
        | none =>
            have : Q.onPreempt = none := proj.preempt_none.mp target
            simp [this]
        | some g =>
            cases source : Q.onPreempt with
            | none => simp [proj.preempt_none.mpr source] at target
            | some h =>
                simp only
                rw [hook_map _ fun v s => proj.onPreempt v s p _ g h target source,
                  Option.map_map, Option.map_map]
                rfl

omit [Double D] in
theorem admitArrivals_map (pending : List ArrivalKey) (e : Engine D Q.State) :
    S.admitArrivals pending (e.map f) =
      ((S.withPolicy Q).admitArrivals pending e).map (Prod.map (Engine.map f) id) := by
  induction pending generalizing e with
  | nil => rfl
  | cons key rest ih =>
      simp only [admitArrivals]
      split_ifs
      · refine bind_map (hook_map e fun v s => proj.onArrival v s key.index) fun e₁ => ?_
        exact bind_map (ih { e₁ with pending := rest }) fun _ => rfl
      · rfl

omit [Double D] in
theorem wakeBlocked_map (fuel : Nat) (e : Engine D Q.State) :
    S.wakeBlocked fuel (e.map f) =
      ((S.withPolicy Q).wakeBlocked fuel e).map (Prod.map (Engine.map f) id) := by
  induction fuel generalizing e with
  | zero => rfl
  | succ fuel ih =>
      simp only [wakeBlocked]
      split_ifs
      · refine bind_map (g := id) Option.map_id'.symm fun popped => ?_
        obtain ⟨p, blocked⟩ := popped
        refine bind_map (hook_map { e with blocked } fun v s => proj.wakeHook v s p) fun e₁ => ?_
        exact bind_map (ih e₁) fun _ => rfl
      · rfl

omit proj in
omit [Double D] in
theorem dispatchOne_map (e : Engine D Q.State) (c : Nat) (s : Slice) :
    S.dispatchOne (e.map f) c s = ((S.withPolicy Q).dispatchOne e c s).map (Engine.map f) := by
  simp only [dispatchOne, switching_map, seat_map, switchIn_map, beginRun_map]
  refine bind_map (g := id) Option.map_id'.symm fun _ => ?_
  split_ifs <;> rfl

omit [Double D] in
theorem collectPicks_map (nfree : Nat) (e : Engine D Q.State) :
    S.collectPicks nfree (e.map f) =
      ((S.withPolicy Q).collectPicks nfree e).map (Prod.map (Engine.map f) id) := by
  induction nfree generalizing e with
  | zero => rfl
  | succ nfree ih =>
      refine bind_map (proj.nextSlice _ _) fun next => ?_
      obtain ⟨state, pick⟩ := next
      cases pick with
      | none => rfl
      | some s => exact bind_map (ih { e with state }) fun _ => rfl

omit [Double D] proj in
theorem placeHome_map (picks : List Slice) (e : Engine D Q.State) (used : Nat → Bool) :
    S.placeHome picks (e.map f) used =
      ((S.withPolicy Q).placeHome picks e used).map (Prod.map (Engine.map f) id) := by
  induction picks generalizing e used with
  | nil => rfl
  | cons s picks ih =>
      have same_free : S.isFree (e.map f) used = (S.withPolicy Q).isFree e used := rfl
      simp only [placeHome, same_free]
      cases (List.range S.opt.cores).find? fun c =>
          (S.withPolicy Q).isFree e used c && ((e.cores c).context = some s.proc) with
      | none => exact bind_map (ih e used) fun _ => rfl
      | some c => exact bind_map (dispatchOne_map e c s) fun e₁ => ih e₁ _

omit [Double D] proj in
theorem placeRest_map (picks : List Slice) (c : Nat) (e : Engine D Q.State) (used : Nat → Bool) :
    S.placeRest picks c (e.map f) used =
      ((S.withPolicy Q).placeRest picks c e used).map (Engine.map f) := by
  induction picks generalizing c e used with
  | nil => rfl
  | cons s picks ih =>
      have same_free : S.isFree (e.map f) used = (S.withPolicy Q).isFree e used := rfl
      simp only [placeRest, same_free]
      cases (List.range S.opt.cores).find? fun i =>
          decide (c ≤ i) && (S.withPolicy Q).isFree e used i with
      | none => rfl
      | some c => exact bind_map (dispatchOne_map e c s) fun e₁ => ih _ e₁ _

omit [Double D] in
theorem dispatch_map (e : Engine D Q.State) :
    S.dispatch (e.map f) = ((S.withPolicy Q).dispatch e).map (Engine.map f) := by
  refine bind_map (collectPicks_map proj _ e) fun collected => ?_
  obtain ⟨e₁, picks⟩ := collected
  have rest : ∀ r : Engine D Q.State × (Nat → Bool) × List Slice,
      S.placeRest r.2.2 0 (r.1.map f) r.2.1 =
        ((S.withPolicy Q).placeRest r.2.2 0 r.1 r.2.1).map (Engine.map f) :=
    fun r => placeRest_map r.2.2 0 r.1 r.2.1
  simp only [Prod.map, id]
  split_ifs
  · exact bind_map (placeHome_map picks e₁ _) rest
  · exact rest (e₁, _, picks)

theorem endFinished_map (cs : List Nat) (e : Engine D Q.State) :
    S.endFinished cs (e.map f) =
      ((S.withPolicy Q).endFinished cs e).map (Prod.map (Engine.map f) id) := by
  induction cs generalizing e with
  | nil => rfl
  | cons c rest ih =>
      simp only [endFinished]
      split_ifs
      · refine bind_map (endRun_map proj e c) fun ended => ?_
        exact bind_map (ih ended.1) fun _ => rfl
      · exact ih e

theorem interrupt_map (redecide : Bool) (cs : List Nat) (e : Engine D Q.State) :
    S.interrupt redecide cs (e.map f) =
      ((S.withPolicy Q).interrupt redecide cs e).map (Engine.map f) := by
  induction cs generalizing e with
  | nil => rfl
  | cons c rest ih =>
      simp only [interrupt]
      split_ifs
      · exact bind_map (endRun_map proj e c) fun ended => ih ended.1
      · exact ih e

theorem processInstant_map (e : Engine D Q.State) :
    S.processInstant (e.map f) = ((S.withPolicy Q).processInstant e).map (Engine.map f) := by
  refine bind_map (admitArrivals_map proj _ e) fun admitted => ?_
  obtain ⟨e₁, arrived⟩ := admitted
  refine bind_map (wakeBlocked_map proj _ e₁) fun awake => ?_
  obtain ⟨e₂, woken⟩ := awake
  refine bind_map (endFinished_map proj _ e₂) fun ended => ?_
  obtain ⟨e₃, requeued⟩ := ended
  obtain ⟨redecide, hredecide⟩ : ∃ redecide, redecide = (Q.preemptOnReady &&
    ((arrived || woken) || requeued || (S.withPolicy Q).cutDue e)) := ⟨_, rfl⟩
  have target : (S.policy.preemptOnReady &&
    ((arrived || woken) || requeued || S.cutDue (e.map f))) =
      redecide := by
    rw [proj.preemptOnReady_eq, hredecide]
    rfl
  simp only [Prod.map, id]
  rw [target, foldl_map e₃ (markRecheck_map · redecide), foldl_map _ finishSwitch_map,
    interrupt_map proj, hredecide]

theorem iterate_map (e : Engine D Q.State) :
    S.iterate (e.map f) = ((S.withPolicy Q).iterate e).map (Engine.map f) := by
  refine bind_map (dispatch_map proj e) fun e₁ => ?_
  refine bind_map (g := id) Option.map_id'.symm fun _ => ?_
  exact processInstant_map proj { e₁ with now := (S.withPolicy Q).nextEvent e₁ }

/-- How the loop ends, with another policy state. -/
def LoopResult.map {α β : Type} (f : α → β) : LoopResult α → LoopResult β
  | .done e => .done (f e)
  | .aborted => .aborted
  | .diverged => .diverged

theorem mainLoop_map (fuel : Nat) (e : Engine D Q.State) :
    S.mainLoop fuel (e.map f) = ((S.withPolicy Q).mainLoop fuel e).map (Engine.map f) := by
  have same : S.running (e.map f) = (S.withPolicy Q).running e := rfl
  induction fuel generalizing e with
  | zero =>
      simp only [mainLoop, same]
      split_ifs <;> rfl
  | succ fuel ih =>
      simp only [mainLoop, same, iterate_map proj]
      split_ifs
      · cases (S.withPolicy Q).iterate e with
        | none => rfl
        | some e₁ => exact ih e₁ rfl
      · rfl

omit [Double D] in
theorem finish_map (r : LoopResult (Engine D Q.State)) :
    S.finish (r.map (Engine.map f)) = (S.withPolicy Q).finish r := by
  cases r with
  | aborted => rfl
  | diverged => rfl
  | done e =>
      simp only [LoopResult.map, finish]
      rw [foldl_map e appendTrailing_map]
      split_ifs
      · rfl
      · simp only [failError, proj.name_eq]

theorem checkOptions_eq : S.checkOptions = (S.withPolicy Q).checkOptions := by
  simp only [checkOptions, proj.usesQuantum_eq, proj.name_eq]

/-- The two runs end alike. -/
theorem simRun_eq : S.simRun = (S.withPolicy Q).simRun := by
  simp only [simRun]
  rw [checkOptions_eq proj, proj.create]
  rw [show (S.withPolicy Q).initView = S.initView from rfl]
  cases Q.create S.initView S.params with
  | error err => rfl
  | ok state =>
      have first := processInstant_map proj ((S.withPolicy Q).initEngine state)
      have init : S.initEngine (f state) = ((S.withPolicy Q).initEngine state).map f := rfl
      simp only [Except.map, init, first]
      cases (S.withPolicy Q).processInstant ((S.withPolicy Q).initEngine state) with
      | none => rfl
      | some e => simp only [Option.map_some, mainLoop_map proj, finish_map proj]

/-- A run that starts with `P` starts with `Q`. -/
theorem Started.project {state : Q.State} :
    Started (S.withPolicy Q) state → Started S (f state) := fun started =>
  ⟨started.validated, (checkOptions_eq proj).trans started.options,
    (proj.create _ _).trans (congrArg (Except.map f) started.created)⟩

theorem Started.lift {state : S.policy.State} (started : Started S state) :
    ∃ state', f state' = state ∧ Started (S.withPolicy Q) state' := by
  have created := started.created
  rw [proj.create] at created
  cases h : Q.create S.initView S.params with
  | error err =>
      rw [h] at created
      cases created
  | ok state' =>
      rw [h] at created
      cases created
      exact ⟨state', rfl, started.validated, (checkOptions_eq proj).symm.trans started.options, h⟩

/-- A state of the main loop projects to one. -/
theorem Reached.project {state : Q.State} {point : LoopPoint} {e : (S.withPolicy Q).Eng}
    (reached : Reached (S.withPolicy Q) state point e) : Reached S (f state) point (e.map f) := by
  induction reached with
  | first run =>
      have image := processInstant_map proj ((S.withPolicy Q).initEngine state)
      rw [run] at image
      exact .first image
  | dispatch before running run ih =>
      exact .dispatch ih running
        ((dispatch_map proj _).trans (congrArg (Option.map (Engine.map f)) run))
  | @instant e e' before event run ih =>
      have image := processInstant_map proj { e with now := (S.withPolicy Q).nextEvent e }
      rw [run] at image
      exact .instant ih event image

/-- Every state of the main loop is the projection of one. -/
theorem Reached.lift {state : Q.State} {point : LoopPoint} {e : S.Eng}
    (reached : Reached S (f state) point e) :
    ∃ e', e'.map f = e ∧ Reached (S.withPolicy Q) state point e' := by
  induction reached with
  | first run =>
      have image := processInstant_map proj ((S.withPolicy Q).initEngine state)
      obtain ⟨e', run', rfl⟩ := Option.map_eq_some_iff.mp (image.symm.trans run)
      exact ⟨e', rfl, .first run'⟩
  | dispatch before running run ih =>
      obtain ⟨e₁, rfl, reached₁⟩ := ih
      obtain ⟨e', run', rfl⟩ := Option.map_eq_some_iff.mp ((dispatch_map proj e₁).symm.trans run)
      exact ⟨e', rfl, .dispatch reached₁ running run'⟩
  | instant before event run ih =>
      obtain ⟨e₁, rfl, reached₁⟩ := ih
      have image := processInstant_map proj { e₁ with now := (S.withPolicy Q).nextEvent e₁ }
      obtain ⟨e', run', rfl⟩ := Option.map_eq_some_iff.mp (image.symm.trans run)
      exact ⟨e', rfl, .instant reached₁ event run'⟩

end Calls

end Sim

end CpuSched
