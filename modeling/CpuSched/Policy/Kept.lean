import CpuSched.Policy.Log

/-!
# What the calls also keep

The invariant of a contract may be strengthened by whatever its calls keep.  What a
policy does over a run is stated about the log of its calls: `EachPick` is a
property of every answer of `next_slice`, together with the calls before it.
-/

namespace CpuSched

variable {D : Type}

/-- Where a call of `next_slice` leaves the processes. -/
def Places.afterNext (pl : Places) : Option Slice → Places
  | none => pl
  | some slice => pl.move slice.proc (.out slice)

/-- The calls that the protocol allows keep `J` wherever `Inv` holds. -/
structure Kept (w : Workload) (P : Policy D) (Inv J : SchedView D → P.State → Places → Prop) :
    Prop where
  view : ∀ {v v' s pl}, Inv v s pl → J v s pl → ViewOk w v pl → ViewStep pl v v' → J v' s pl
  arrival : ∀ {v s s' pl p}, Inv v s pl → J v s pl → ViewOk w v pl → pl p = .new →
    P.onArrival v s p = some s' → J v s' (pl.move p .ready)
  wake : ∀ {v s s' pl p}, Inv v s pl → J v s pl → ViewOk w v pl → pl p = .blocked →
    P.wakeHook v s p = some s' → J v s' (pl.move p .ready)
  next : ∀ {v s s' pl r}, Inv v s pl → J v s pl → ViewOk w v pl → v.now < int64Max →
    P.nextSlice v s = some (s', r) → J v s' (pl.afterNext r)
  preempt : ∀ {v s s' pl p slice ran f}, Inv v s pl → J v s pl → ViewOk w v pl →
    pl p = .out slice → 1 ≤ ran → ran ≤ slice.length → P.onPreempt = some f →
    f v s p ran = some s' → J v s' (pl.move p .ready)
  block : ∀ {v s s' pl p slice ran}, Inv v s pl → J v s pl → ViewOk w v pl → pl p = .out slice →
    optCall P.onBlock v s p ran = some s' → J v s' (pl.move p .blocked)
  complete : ∀ {v s s' pl p slice ran}, Inv v s pl → J v s pl → ViewOk w v pl →
    pl p = .out slice → optCall P.onComplete v s p ran = some s' → J v s' (pl.move p .done)

/-- A contract keeps what its calls keep. -/
theorem Contract.and {w : Workload} {P : Policy D} {Inv J : SchedView D → P.State → Places → Prop}
    (contract : Contract w P Inv) (kept : Kept w P Inv J) :
    Contract w P fun v s pl => Inv v s pl ∧ J v s pl where
  interruptible := contract.interruptible
  view both ok ok' step := ⟨contract.view both.1 ok ok' step, kept.view both.1 both.2 ok step⟩
  arrival both ok hp new pos := by
    obtain ⟨s', run, inv'⟩ := contract.arrival both.1 ok hp new pos
    exact ⟨s', run, inv', kept.arrival both.1 both.2 ok new run⟩
  wake both ok blocked pos := by
    obtain ⟨s', run, inv'⟩ := contract.wake both.1 ok blocked pos
    exact ⟨s', run, inv', kept.wake both.1 both.2 ok blocked run⟩
  next both ok early := by
    obtain ⟨s', r, run, next⟩ := contract.next both.1 ok early
    have keeps := kept.next both.1 both.2 ok early run
    refine ⟨s', r, run, ?_⟩
    cases r with
    | none => exact ⟨⟨next.1, keeps⟩, next.2⟩
    | some slice =>
        obtain ⟨ready, length_pos, later, le, whole, inv'⟩ := next
        exact ⟨ready, length_pos, later, le, whole, inv', keeps⟩
  preempt both ok out one le pos hook := by
    obtain ⟨s', run, inv'⟩ := contract.preempt both.1 ok out one le pos hook
    exact ⟨s', run, inv', kept.preempt both.1 both.2 ok out one le hook run⟩
  block both ok out one le more := by
    obtain ⟨s', run, inv'⟩ := contract.block both.1 ok out one le more
    exact ⟨s', run, inv', kept.block both.1 both.2 ok out run⟩
  complete both ok out one le := by
    obtain ⟨s', run, inv'⟩ := contract.complete both.1 ok out one le
    exact ⟨s', run, inv', kept.complete both.1 both.2 ok out run⟩

/-- Whether the bursts are predicted does not change. -/
theorem Contract.oracle {w : Workload} {P : Policy D} {Inv : SchedView D → P.State → Places → Prop}
    (contract : Contract w P Inv) : Contract w P fun v s pl => Inv v s pl ∧ v.predicted = none := by
  refine contract.and ⟨?_, ?_, ?_, ?_, ?_, ?_, ?_⟩
  · exact fun _ oracle _ step => step.oracle_iff.mpr oracle
  all_goals
    intros
    assumption

/-! ## Logged policies -/

/-- The log after a process left the protocol's cores for `block` or `complete`: the
call stands in it when the hook is not null. -/
inductive Left (now : Int) (p : Nat) (log : List TimedCall) : List TimedCall → Prop
  | silent : Left now p log log
  | block (ran : Int) : Left now p log (⟨now, .block p ran⟩ :: log)
  | complete (ran : Int) : Left now p log (⟨now, .complete p ran⟩ :: log)

/-- `Kept` for a logged policy, in terms of the hooks of the policy itself. -/
structure KeptLog (w : Workload) (P : Policy D)
    (Inv J : SchedView D → Logged P.State → Places → Prop) : Prop where
  view : ∀ {v v' s pl}, Inv v s pl → J v s pl → ViewOk w v pl → ViewStep pl v v' → J v' s pl
  arrival : ∀ {v s s' pl p}, Inv v s pl → J v s pl → ViewOk w v pl → pl p = .new →
    P.onArrival v s.state p = some s' → J v (s.push v (.arrival p) s') (pl.move p .ready)
  wake : ∀ {v s s' pl p call}, Inv v s pl → J v s pl → ViewOk w v pl → pl p = .blocked →
    P.wakeHook v s.state p = some s' → (call = .arrival p ∨ call = .ready p) →
    J v (s.push v call s') (pl.move p .ready)
  refuse : ∀ {v s s' pl}, Inv v s pl → J v s pl → ViewOk w v pl → v.now < int64Max →
    P.nextSlice v s.state = some (s', none) → J v ⟨s', s.log⟩ pl
  pick : ∀ {v s s' pl slice}, Inv v s pl → J v s pl → ViewOk w v pl → v.now < int64Max →
    P.nextSlice v s.state = some (s', some slice) →
    J v (s.push v (.slice slice) s') (pl.move slice.proc (.out slice))
  preempt : ∀ {v s s' pl p slice ran f}, Inv v s pl → J v s pl → ViewOk w v pl →
    pl p = .out slice → 1 ≤ ran → ran ≤ slice.length → P.onPreempt = some f →
    f v s.state p ran = some s' → J v (s.push v (.preempt p ran) s') (pl.move p .ready)
  leave : ∀ {v s s' log pl p slice ran place}, Inv v s pl → J v s pl → ViewOk w v pl →
    pl p = .out slice → Left v.now p s.log log →
    ((place = .blocked ∧ optCall P.onBlock v s.state p ran = some s') ∨
      (place = .done ∧ optCall P.onComplete v s.state p ran = some s')) →
    J v ⟨s', log⟩ (pl.move p place)

/-- A logged hook off a core succeeds with the hook, and the log tells of the call. -/
theorem optCall_logged_left {σ : Type} {call : Nat → Int → HookCall}
    (kind : ∀ p ran, call p ran = .block p ran ∨ call p ran = .complete p ran)
    {f : Option (SchedView D → σ → Nat → Int → Option σ)} {v : SchedView D} {s s' : Logged σ}
    {p : Nat} {ran : Int} (run : optCall (f.map (logHook call)) v s p ran = some s') :
    optCall f v s.state p ran = some s'.state ∧ Left v.now p s.log s'.log := by
  cases f with
  | none =>
      obtain rfl : s = s' := Option.some.inj run
      exact ⟨rfl, .silent⟩
  | some f =>
      simp only [Option.map_some, optCall, logHook, Option.map_eq_some_iff] at run
      obtain ⟨state, run, rfl⟩ := run
      refine ⟨run, ?_⟩
      rcases kind p ran with h | h
      · simp only [Logged.push, h]
        exact .block ran
      · simp only [Logged.push, h]
        exact .complete ran

theorem KeptLog.kept {w : Workload} {P : Policy D}
    {Inv J : SchedView D → Logged P.State → Places → Prop} (kept : KeptLog w P Inv J) :
    Kept w P.logged Inv J where
  view := kept.view
  arrival inv here ok new run := by
    obtain ⟨state, source, rfl⟩ := Option.map_eq_some_iff.mp run
    exact kept.arrival inv here ok new source
  wake {v s s' pl p} inv here ok blocked run := by
    cases hook : P.onReady with
    | none =>
        have run : (P.onArrival v s.state p).map (s.push v (.arrival p)) = some s' := by
          simpa only [Policy.wakeHook, Policy.logged, hook, Option.map_none,
            Option.getD_none] using run
        obtain ⟨state, source, rfl⟩ := Option.map_eq_some_iff.mp run
        exact kept.wake inv here ok blocked (by rwa [Policy.wakeHook, hook]) (.inl rfl)
    | some f =>
        have run : (f v s.state p).map (s.push v (.ready p)) = some s' := by
          simpa only [Policy.wakeHook, Policy.logged, hook, Option.map_some,
            Option.getD_some] using run
        obtain ⟨state, source, rfl⟩ := Option.map_eq_some_iff.mp run
        exact kept.wake inv here ok blocked (by rwa [Policy.wakeHook, hook]) (.inr rfl)
  next inv here ok early run := by
    obtain ⟨⟨state, r⟩, source, eq⟩ := Option.map_eq_some_iff.mp run
    cases r with
    | none =>
        obtain ⟨rfl, rfl⟩ := Prod.mk.inj eq
        exact kept.refuse inv here ok early source
    | some slice =>
        obtain ⟨rfl, rfl⟩ := Prod.mk.inj eq
        exact kept.pick inv here ok early source
  preempt inv here ok out one le hook run := by
    obtain ⟨f, source, rfl⟩ := Option.map_eq_some_iff.mp hook
    obtain ⟨state, called, rfl⟩ := Option.map_eq_some_iff.mp run
    exact kept.preempt inv here ok out one le source called
  block inv here ok out run := by
    obtain ⟨run, left⟩ := optCall_logged_left (fun _ _ => .inl rfl) run
    exact kept.leave inv here ok out left (.inl ⟨rfl, run⟩)
  complete inv here ok out run := by
    obtain ⟨run, left⟩ := optCall_logged_left (fun _ _ => .inr rfl) run
    exact kept.leave inv here ok out left (.inr ⟨rfl, run⟩)

/-! ## The answers of `next_slice` -/

/-- `(key, arrival, pid)` of `p` is smaller than that of `q`. -/
def Workload.Before (w : Workload) (key : Nat → Int) (p q : Nat) : Prop :=
  key p < key q ∨ (key p = key q ∧ ((w.proc p).arrival < (w.proc q).arrival ∨
    ((w.proc p).arrival = (w.proc q).arrival ∧ (w.proc p).pid < (w.proc q).pid)))

instance (w : Workload) (key : Nat → Int) (p q : Nat) : Decidable (w.Before key p q) :=
  inferInstanceAs (Decidable (_ ∨ _))

theorem Workload.Before.asymm {w : Workload} {key : Nat → Int} {p q : Nat}
    (less : w.Before key p q) : ¬w.Before key q p := by
  unfold Workload.Before at *
  omega

/-- Process `p` is the least of the ready ones by `(key, arrival, pid)`. -/
def Workload.Least (w : Workload) (key : Nat → Int) (ready : List Nat) (p : Nat) : Prop :=
  ∀ q ∈ ready, q ≠ p → w.Before key p q

instance (w : Workload) (key : Nat → Int) (ready : List Nat) (p : Nat) :
    Decidable (w.Least key ready p) :=
  inferInstanceAs (Decidable (∀ q ∈ ready, _))

/-- Every call of `next_slice` in the log, made at `now` after the calls `before`,
took a process `p` out of the ready processes with `Pick before now ready p`. -/
def EachPick (Pick : List TimedCall → Int → List Nat → Nat → Prop) : List TimedCall → Prop
  | [] => True
  | call :: before => EachPick Pick before ∧
      match call.call with
      | .slice s => ∃ ready, queued before = some ready ∧ s.proc ∈ ready ∧
          Pick before call.now ready s.proc
      | _ => True

theorem EachPick.left {Pick : List TimedCall → Int → List Nat → Nat → Prop} {now : Int} {p : Nat}
    {log log' : List TimedCall} (picks : EachPick Pick log) (left : Left now p log log') :
    EachPick Pick log' := by
  cases left with
  | silent => exact picks
  | block => exact ⟨picks, trivial⟩
  | complete => exact ⟨picks, trivial⟩

/-- What each answer satisfies when it is given holds of all answers in the log. -/
theorem keptLog_eachPick {w : Workload} {P : Policy D}
    {Inv : SchedView D → Logged P.State → Places → Prop}
    {Pick : List TimedCall → Int → List Nat → Nat → Prop}
    (logOk : ∀ {v s pl}, Inv v s pl → LogOk s.log pl)
    (pick : ∀ {v s s' pl slice queue}, Inv v s pl → ViewOk w v pl →
      P.nextSlice v s.state = some (s', some slice) → queued s.log = some queue →
      Holds pl queue → slice.proc ∈ queue ∧ Pick s.log v.now queue slice.proc) :
    KeptLog w P Inv fun _ s _ => EachPick Pick s.log where
  view _ picks _ _ := picks
  arrival _ picks _ _ _ := ⟨picks, trivial⟩
  wake _ picks _ _ _ kind := by
    rcases kind with rfl | rfl
    · exact ⟨picks, trivial⟩
    · exact ⟨picks, trivial⟩
  refuse _ picks _ _ _ := picks
  pick inv picks ok _ run := by
    obtain ⟨queue, replay, holds⟩ := logOk inv
    exact ⟨picks, queue, replay, pick inv ok run replay holds⟩
  preempt _ picks _ _ _ _ _ _ := ⟨picks, trivial⟩
  leave _ picks _ _ left _ := picks.left left

end CpuSched
