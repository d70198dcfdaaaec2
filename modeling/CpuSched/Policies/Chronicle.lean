import CpuSched.Engine.Redecide
import CpuSched.Policies.Protocol

/-!
# The calls of a run, one after the other

A policy that has every optional hook is told of all that happens to its processes, so
the log of its calls alone tells where each of them is.  A `Chronicle` is a log with the
state after it, every call of which was made as the protocol allows; what a policy does
along a run is proved by induction on it.
-/

namespace CpuSched

variable {D : Type} {w : Workload}

/-! ## Calls that the protocol allows -/

/-- The process that the call is about. -/
def HookCall.proc : HookCall → Nat
  | .arrival p => p
  | .ready p => p
  | .slice s => s.proc
  | .preempt p _ => p
  | .block p _ => p
  | .complete p _ => p

/-- Where the call leaves it. -/
def HookCall.place : HookCall → Place
  | .slice s => .out s
  | .block _ _ => .blocked
  | .complete _ _ => .done
  | _ => .ready

/-- The ticks that the call reports. -/
def HookCall.ran : HookCall → Int
  | .preempt _ ran => ran
  | .block _ ran => ran
  | .complete _ ran => ran
  | _ => 0

/-- Where the calls leave the processes, the newest call first. -/
def placesAfter : List TimedCall → Places
  | [] => fun _ => .new
  | call :: before => (placesAfter before).move call.call.proc call.call.place

theorem placesAfter_self {now : Int} {call : HookCall} {log : List TimedCall} :
    placesAfter (⟨now, call⟩ :: log) call.proc = call.place :=
  Places.move_self ..

theorem placesAfter_of_ne {now : Int} {call : HookCall} {log : List TimedCall} {p : Nat}
    (ne : p ≠ call.proc) : placesAfter (⟨now, call⟩ :: log) p = placesAfter log p :=
  Places.move_of_ne _ _ ne

/-- The protocol allows a call with this entry. -/
def HookCall.Legal (w : Workload) (pl : Places) : HookCall → Prop
  | .arrival p => p < w.len ∧ pl p = .new
  | .ready p => pl p = .blocked
  | .slice s => pl s.proc = .ready
  | .preempt p ran => Ran pl p ran
  | .block p ran => Ran pl p ran
  | .complete p ran => Ran pl p ran

/-- The state after the call with this entry. -/
def Policy.redo (P : Policy D) (v : SchedView D) (s : P.State) : HookCall → Option P.State
  | .arrival p => P.onArrival v s p
  | .ready p => P.wakeHook v s p
  | .slice slice => (P.nextSlice v s).bind fun (s', r) => if r = some slice then some s' else none
  | .preempt p ran => P.onPreempt.bind fun f => f v s p ran
  | .block p ran => optCall P.onBlock v s p ran
  | .complete p ran => optCall P.onComplete v s p ran

theorem Policy.redo_slice {P : Policy D} {v : SchedView D} {s s' : P.State} {slice : Slice} :
    P.redo v s (.slice slice) = some s' ↔ P.nextSlice v s = some (s', some slice) := by
  rw [redo, Option.bind_eq_some_iff]
  constructor
  · rintro ⟨⟨s₁, r⟩, run, same⟩
    dsimp only at same
    split_ifs at same with answer
    cases same
    rw [run, answer]
  · intro run
    exact ⟨_, run, if_pos rfl⟩

/-- No optional hook is null, and a refusal changes nothing. -/
structure Policy.Reports (P : Policy D) : Prop where
  ready : P.onReady ≠ none
  preempt : P.onPreempt ≠ none
  block : P.onBlock ≠ none
  complete : P.onComplete ≠ none
  refuse : ∀ {v s s'}, P.nextSlice v s = some (s', none) → s' = s

/-- The hooks read nothing of the view but the processes. -/
def Policy.ReadsProcs (P : Policy D) : Prop :=
  ∀ {v v' : SchedView D} (s call), v'.procs = v.procs → P.redo v' s call = P.redo v s call

/-- A log of calls that the protocol allows, with the state that they lead to from
`start`; `Inv` holds before every call. -/
inductive Chronicle (w : Workload) (P : Policy D) (Inv : SchedView D → P.State → Places → Prop)
    (start : P.State) : List TimedCall → P.State → Prop
  | start : Chronicle w P Inv start [] start
  | call {v now s s' call before} (earlier : Chronicle w P Inv start before s)
      (time : v.now = now) (ok : ViewOk w v (placesAfter before))
      (inv : Inv v s (placesAfter before)) (legal : call.Legal w (placesAfter before))
      (run : P.redo v s call = some s') : Chronicle w P Inv start (⟨now, call⟩ :: before) s'

/-- A chronicle of which nothing else is known. -/
abbrev History (w : Workload) (P : Policy D) (start : P.State) (log : List TimedCall)
    (s : P.State) : Prop :=
  Chronicle w P (fun _ _ _ => True) start log s

namespace Chronicle

variable {P : Policy D} {Inv : SchedView D → P.State → Places → Prop} {start s s' : P.State}
  {log calls : List TimedCall}

/-- The state is a function of the log. -/
theorem unique (reads : P.ReadsProcs) (first : Chronicle w P Inv start log s)
    (second : Chronicle w P Inv start log s') : s = s' := by
  induction first generalizing s' with
  | start =>
      cases second
      rfl
  | call earlier time ok inv legal run ih =>
      cases second with
      | call earlier' time' ok' inv' legal' run' =>
          obtain rfl := ih earlier'
          rw [reads _ _ (ok'.procs_eq.trans ok.procs_eq.symm), run] at run'
          exact Option.some.inj run'

/-- The invariant of a chronicle may be weakened. -/
theorem mono {Inv' : SchedView D → P.State → Places → Prop}
    (weaker : ∀ {v s pl}, Inv v s pl → Inv' v s pl) (chronicle : Chronicle w P Inv start log s) :
    Chronicle w P Inv' start log s := by
  induction chronicle with
  | start => exact .start
  | call earlier time ok inv legal run ih => exact .call ih time ok (weaker inv) legal run

/-- What was called before the last calls is a chronicle itself. -/
theorem earlier (chronicle : Chronicle w P Inv start (calls ++ log) s) :
    ∃ s', Chronicle w P Inv start log s' := by
  induction calls generalizing s with
  | nil => exact ⟨s, chronicle⟩
  | cons call calls ih =>
      cases chronicle with
      | call before => exact ih before

end Chronicle

/-- The ticks that the calls report of `p`. -/
def charged (p : Nat) : List TimedCall → Int
  | [] => 0
  | call :: before => charged p before + if call.call.proc = p then call.call.ran else 0

theorem sum_charged (n : Nat) (call : TimedCall) (before : List TimedCall)
    (inside : call.call.ran ≠ 0 → call.call.proc < n) :
    ∑ p ∈ Finset.range n, charged p (call :: before) =
      ∑ p ∈ Finset.range n, charged p before + call.call.ran := by
  simp only [charged, Finset.sum_add_distrib, Finset.sum_ite_eq, Finset.mem_range]
  by_cases silent : call.call.ran = 0
  · simp [silent]
  · rw [if_pos (inside silent)]

/-- `p` is ready or on a core. -/
def Active (pl : Places) (p : Nat) : Prop := pl p = .ready ∨ ∃ slice, pl p = .out slice

/-- A process that is ready or on a core, and does not leave, is picked or handed back. -/
theorem HookCall.Legal.of_active {pl : Places} {call : HookCall} (legal : call.Legal w pl)
    (active : Active pl call.proc) (stays : ¬call.Leaves) :
    (∃ slice, call = .slice slice) ∨ ∃ p ran, call = .preempt p ran := by
  cases call with
  | arrival p =>
      have new : pl p = .new := legal.2
      rcases active with ready | ⟨slice, out⟩
      · cases new.symm.trans ready
      · cases new.symm.trans out
  | ready p =>
      have blocked : pl p = .blocked := legal
      rcases active with ready | ⟨slice, out⟩
      · cases blocked.symm.trans ready
      · cases blocked.symm.trans out
  | slice slice => exact .inl ⟨slice, rfl⟩
  | preempt p ran => exact .inr ⟨p, ran, rfl⟩
  | block p ran => exact absurd trivial stays
  | complete p ran => exact absurd trivial stays

/-- A process that neither blocks nor completes stays ready or on a core, and is not
admitted again. -/
theorem Active.call {log : List TimedCall} {p : Nat} (active : Active (placesAfter log) p)
    {call : TimedCall}
    (stays : ¬(call.call.Leaves ∧ call.call.proc = p)) : Active (placesAfter (call :: log)) p := by
  by_cases own : p = call.call.proc
  · subst own
    rw [Active, placesAfter, Places.move_self]
    cases eq : call.call with
    | slice s => exact .inr ⟨s, rfl⟩
    | block => exact absurd ⟨by simp [eq, HookCall.Leaves], rfl⟩ stays
    | complete => exact absurd ⟨by simp [eq, HookCall.Leaves], rfl⟩ stays
    | _ => exact .inl rfl
  · rwa [Active, placesAfter, Places.move_of_ne _ _ own]

/-- At most one process is on a core. -/
def OneOut (pl : Places) : Prop := ∀ p q s s', pl p = .out s → pl q = .out s' → p = q

/-- Calls that pick nothing put no process on a core. -/
theorem OneOut.grown {log log' : List TimedCall} (grown : Grown HookCall.NoPick log log')
    (one : ∀ l, l <:+ log → OneOut (placesAfter l)) : ∀ l, l <:+ log' → OneOut (placesAfter l) := by
  obtain ⟨calls, rfl, noPick⟩ := grown
  induction calls with
  | nil => exact one
  | cons call calls ih =>
      have ih := ih fun c mem => noPick c (List.mem_cons_of_mem _ mem)
      intro l suffix
      rcases List.suffix_cons_iff.mp suffix with rfl | suffix
      · have before := ih _ (List.suffix_refl _)
        have kind := noPick call List.mem_cons_self
        have off : ∀ p s, placesAfter (call :: (calls ++ log)) p = .out s →
            placesAfter (calls ++ log) p = .out s := by
          intro p s out
          rw [placesAfter, Places.move_apply] at out
          split_ifs at out with own
          · cases eq : call.call <;> simp [eq, HookCall.place, HookCall.NoPick] at out kind
          · exact out
        exact fun p q s s' hp hq => before p q s s' (off p s hp) (off q s' hq)
      · exact ih l suffix

/-! ## The chronicle of a contract -/

section Contract

variable {P : Policy D} {Inv : SchedView D → P.State → Places → Prop} {start : P.State}

/-- What the log of a policy tells: where the processes are, and how they got there. -/
structure Chronicled (w : Workload) (P : Policy D) (Inv : SchedView D → P.State → Places → Prop)
    (start : P.State) (v : SchedView D) (s : Logged P.State) (pl : Places) : Prop where
  inv : Inv v s.state pl
  places : pl = placesAfter s.log
  chronicle : Chronicle w P Inv start s.log s.state

/-- A call that the protocol allows goes on with the chronicle. -/
theorem Chronicled.push {v : SchedView D} {s : Logged P.State} {pl : Places} (call : HookCall)
    {s' : P.State} (here : Chronicled w P Inv start v s pl) (ok : ViewOk w v pl)
    (legal : call.Legal w pl) (run : P.redo v s.state call = some s')
    (inv : Inv v s' (pl.move call.proc call.place)) :
    Chronicled w P Inv start v (s.push v call s') (pl.move call.proc call.place) := by
  obtain ⟨inv₀, rfl, chronicle⟩ := here
  exact ⟨inv, rfl, .call chronicle rfl ok inv₀ legal run⟩

/-- A policy that keeps a contract and reports everything has a chronicle. -/
theorem Contract.chronicled (contract : Contract w P Inv) (reports : P.Reports) :
    Contract w P.logged (Chronicled w P Inv start) where
  interruptible hook := absurd hook (by simp [Policy.logged, reports.preempt])
  view here ok ok' step := ⟨contract.view here.inv ok ok' step, here.places, here.chronicle⟩
  arrival {v s pl p} here ok hp new pos := by
    obtain ⟨s', run, inv⟩ := contract.arrival here.inv ok hp new pos
    exact ⟨_, by simp only [Policy.logged, run, Option.map_some],
      here.push (.arrival p) ok ⟨hp, new⟩ run inv⟩
  wake {v s pl p} here ok blocked pos := by
    obtain ⟨s', run, inv⟩ := contract.wake here.inv ok blocked pos
    obtain ⟨f, hook⟩ := Option.ne_none_iff_exists'.mp reports.ready
    have called : f v s.state p = some s' := by
      rwa [Policy.wakeHook, hook, Option.getD_some] at run
    refine ⟨s.push v (.ready p) s', ?_, here.push (.ready p) ok blocked run inv⟩
    simp only [Policy.wakeHook, Policy.logged, hook, Option.map_some, Option.getD_some, called]
  next {v s pl} here ok early := by
    obtain ⟨s', r, run, next⟩ := contract.next here.inv ok early
    refine ⟨(s.pushSlice v (s', r)).1, r, ?_, ?_⟩
    · simp only [Policy.logged, run, Option.map_some]
      cases r <;> rfl
    · cases r with
      | none =>
          obtain rfl := reports.refuse run
          exact ⟨here, next.2⟩
      | some slice =>
          obtain ⟨ready, pos, later, le, whole, inv⟩ := next
          exact ⟨ready, pos, later, le, fun hook => whole (by simpa [Policy.logged] using hook),
            here.push (.slice slice) ok ready (by simp [Policy.redo, run]) inv⟩
  preempt {v s pl p slice ran f} here ok out one le pos hook := by
    obtain ⟨g, source, rfl⟩ := Option.map_eq_some_iff.mp hook
    obtain ⟨s', run, inv⟩ := contract.preempt here.inv ok out one le pos source
    exact ⟨s.push v (.preempt p ran) s', by
        simp only [logHook, run, Option.map_some]
        rfl,
      here.push (.preempt p ran) ok ⟨slice, out, one, le⟩ (by simp [Policy.redo, source, run]) inv⟩
  block {v s pl p slice ran} here ok out one le more := by
    obtain ⟨s', run, inv⟩ := contract.block here.inv ok out one le more
    obtain ⟨f, hook⟩ := Option.ne_none_iff_exists'.mp reports.block
    have called : f v s.state p ran = some s' := by simpa only [hook, optCall] using run
    refine ⟨s.push v (.block p ran) s', ?_, here.push (.block p ran) ok
      ⟨slice, out, one, le⟩ run inv⟩
    simp only [Policy.logged, hook, Option.map_some, optCall, logHook, called]
  complete {v s pl p slice ran} here ok out one le := by
    obtain ⟨s', run, inv⟩ := contract.complete here.inv ok out one le
    obtain ⟨f, hook⟩ := Option.ne_none_iff_exists'.mp reports.complete
    have called : f v s.state p ran = some s' := by simpa only [hook, optCall] using run
    refine ⟨s.push v (.complete p ran) s', ?_, here.push (.complete p ran) ok
      ⟨slice, out, one, le⟩ run inv⟩
    simp only [Policy.logged, hook, Option.map_some, optCall, logHook, called]

end Contract

/-! ## The chronicle of a run -/

/-- The first phases do not take more than all of them. -/
theorem evenSum_take_le {l : List Int} (pos : ∀ x ∈ l, 0 < x) (k : Nat) :
    evenSum (l.take k) ≤ evenSum l ∧ oddSum (l.take k) ≤ oddSum l := by
  induction l generalizing k with
  | nil => simp
  | cons x rest ih =>
      have rest_pos := fun y mem => pos y (List.mem_cons_of_mem _ mem)
      cases k with
      | zero =>
          have := evenSum_nonneg pos
          simpa [evenSum, oddSum] using this
      | succ k =>
          obtain ⟨even, odd⟩ := ih rest_pos k
          rw [List.take_succ_cons, evenSum_cons, evenSum_cons, oddSum_cons, oddSum_cons]
          exact ⟨by omega, even⟩

theorem Process.Valid.cpuBefore_le {p : Process} (valid : p.Valid) (k : Nat) :
    p.cpuBefore k ≤ p.burst := by
  rw [valid.burst_eq]
  exact (evenSum_take_le valid.phases_pos k).1

namespace Sim

variable [Double D] {S : Sim D} {Inv : SchedView D → S.policy.State → Places → Prop}
  {state : S.policy.State}

/-- What is known of a state of a run with its chronicle. -/
structure Recounted (S : Sim D) (Inv : SchedView D → S.policy.State → Places → Prop)
    (state : S.policy.State) (point : LoopPoint) (e : S.logged.Eng) (sp : Nat → Spot) : Prop where
  course : Course (Chronicled S.w S.policy Inv state) point (⟨e, sp⟩ : S.logged.Config)
  here : Chronicled S.w S.policy Inv state (S.logged.view e) e.state (places sp)

/-- The run of a policy that keeps a contract and reports everything can be logged. -/
theorem Started.chronicled (started : Started S state) (contract : Contract S.w S.policy Inv)
    (reports : S.policy.Reports) (start : Inv S.initView state fun _ => .new) :
    Launched S.logged (Chronicled S.w S.policy Inv state) ⟨state, []⟩ where
  valid := workloadValidate_ok started.validated
  options := by
    have options := checkOptions_ok (workloadValidate_ok started.validated) started.options
    exact ⟨options.cores_pos, options.segments_pos, options.cs_nonneg, options.cs_le⟩
  contract := contract.chronicled reports
  start := ⟨start, rfl, .start⟩

theorem Reached.recounted
    (launched : Launched S.logged (Chronicled S.w S.policy Inv state) ⟨state, []⟩)
    {point : LoopPoint} {e : S.logged.Eng} (reached : Reached S.logged ⟨state, []⟩ point e) :
    ∃ sp, Recounted S Inv state point e sp := by
  obtain ⟨sp, course, -⟩ := reached.course launched RunInv.true
  obtain ⟨budget, sound⟩ := course.sound
  exact ⟨sp, course, sound.policy⟩

/-- An event adds no pick to the log. -/
theorem Event.grown {a b : S.logged.Config} (event : Event a b) (none : NoneHeld a) :
    Grown HookCall.NoPick a.eng.state.log b.eng.state.log := by
  obtain ⟨move, held⟩ := event
  cases move with
  | arrive pending due hook => exact arrival_grown hook
  | wake popped due hook => exact wakeHook_grown hook
  | preempt seat runs ran left hook_eq hook => exact preempt_grown hook_eq hook
  | block seat runs ran used more pushed hook =>
      exact (Grown.left (optCall_logged_left (fun _ _ => .inl rfl) hook).2).mono
        fun _ => HookCall.Leaves.noPick
  | complete seat runs ran used last hook =>
      exact (Grown.left (optCall_logged_left (fun _ _ => .inr rfl) hook).2).mono
        fun _ => HookCall.Leaves.noPick
  | mark => exact .refl _
  | @start e sp c p s deadline =>
      have same : (S.logged.startRun e c p deadline).state = e.state := (beginRun_core _ _ _).2.1
      simp only [same]
      exact .refl _
  | @pick e sp s state hook early => exact absurd (Function.update_self ..) (held none s.proc s)
  | refuse hook early =>
      simp only [refuse_log hook]
      exact .refl _
  | place held' => exact absurd held' (none _ _)

theorem Events.grown {a b : S.logged.Config} (events : S.logged.Events a b) (none : NoneHeld a) :
    Grown HookCall.NoPick a.eng.state.log b.eng.state.log := by
  induction events with
  | refl => exact .refl _
  | tail before event ih => exact ih.trans (event.grown (Events.noneHeld before none))

/-! ## One core -/

/-- On one core a dispatch picks nothing, or the core was free and it picks one slice. -/
theorem Reached.dispatch_log {PInv : SchedView D → S.logged.policy.State → Places → Prop}
    {start : S.logged.policy.State} (launched : Launched S.logged PInv start)
    (one : S.opt.cores = 1)
    {e e' : S.logged.Eng} (before : Reached S.logged start .settled e)
    (running : S.logged.running e = true) (run : S.logged.dispatch e = some e') :
    e'.state.log = e.state.log ∨ ((e.cores 0).proc = none ∧
      ∃ s, e'.state.log = ⟨e.now, .slice s⟩ :: e.state.log) := by
  obtain ⟨picks, seats, dispatches, log⟩ := before.dispatch_picks launched running run
  obtain ⟨-, nodup, free, -⟩ := dispatches.seated
  have perm := dispatches.perm
  have zero : ∀ x ∈ seats, x.1 = 0 := fun x mem => by
    have lt : x.1 < S.opt.cores := (free x mem).1
    omega
  cases seats with
  | nil =>
      obtain rfl := List.nil_perm.mp perm
      exact .inl log
  | cons x rest =>
      cases rest with
      | nil =>
          obtain rfl : picks = [x.2] := List.perm_singleton.mp perm.symm
          have core_free := (free x List.mem_cons_self).2
          rw [zero x List.mem_cons_self] at core_free
          exact .inr ⟨core_free, x.2, log⟩
      | cons y rest =>
          have first := zero x (by simp)
          have second := zero y (by simp)
          simp [first, second] at nodup

/-- On one core at most one process is out at any time of the run. -/
theorem Reached.oneOut (launched : Launched S.logged (Chronicled S.w S.policy Inv state)
    ⟨state, []⟩)
    (one : S.opt.cores = 1) {point : LoopPoint} {e : S.logged.Eng}
    (reached : Reached S.logged ⟨state, []⟩ point e) :
    ∀ l, l <:+ e.state.log → OneOut (placesAfter l) := by
  induction reached with
  | @first e run =>
      obtain ⟨e', sp, run', events, -⟩ := launched.first (I := fun _ => True)
      obtain rfl := Option.some.inj (run.symm.trans run')
      have none : NoneHeld (S.logged.initConfig ⟨state, []⟩) := fun p s held => by cases held
      refine OneOut.grown (events.grown none) fun l suffix => ?_
      rw [List.suffix_nil.mp suffix]
      exact fun p q s s' out => by cases out
  | @dispatch e e' before running run ih =>
      obtain ⟨sp, course, here⟩ := before.recounted launched
      obtain ⟨budget, sound⟩ := course.sound
      rcases before.dispatch_log launched one running run with same | ⟨free, s, log⟩
      · rwa [same]
      have none_out : ∀ p s, placesAfter e.state.log p ≠ .out s := by
        intro p s out
        rw [← here.places] at out
        cases spot : sp p with
        | core c s' =>
            obtain ⟨core_lt, -, seat⟩ := sound.cores.seat p c s' spot
            obtain rfl : c = 0 := by
              have : c < S.opt.cores := core_lt
              omega
            cases free.symm.trans seat.proc_eq
        | held s' => exact course.settled.noneHeld p s' spot
        | _ => simp [places, spot, Spot.place] at out
      rw [log]
      intro l suffix
      rcases List.suffix_cons_iff.mp suffix with rfl | suffix
      · have own : ∀ p s', placesAfter (⟨e.now, .slice s⟩ :: e.state.log) p = .out s' →
          p = s.proc := by
          intro p s' out
          by_contra ne
          rw [placesAfter, Places.move_of_ne] at out
          · exact none_out p s' out
          · exact ne
        exact fun p q s s' hp hq => (own p s hp).trans (own q s' hq).symm
      · exact ih l suffix
  | @instant e e' before event run ih =>
      obtain ⟨sp, course, -⟩ := before.recounted launched
      obtain ⟨-, -, e₂, sp₂, run₂, events, -⟩ := launched.advance (I := fun _ => True) course
      obtain rfl := Option.some.inj (run.symm.trans run₂)
      have none : NoneHeld (later (⟨e, sp⟩ : S.logged.Config) (S.logged.nextEvent e)) :=
        course.settled.noneHeld
      exact OneOut.grown (events.grown none) ih

/-! ## The ticks reported -/

omit [Double D] in
/-- A wake-up leaves its call in the log. -/
theorem wakeHook_push {P : Policy D} (reports : P.Reports) {v : SchedView D} {s s' : Logged P.State}
    {p : Nat} (run : P.logged.wakeHook v s p = some s') : s'.log = ⟨v.now, .ready p⟩ :: s.log := by
  obtain ⟨f, hook⟩ := Option.ne_none_iff_exists'.mp reports.ready
  simp only [Policy.wakeHook, Policy.logged, hook, Option.map_some, Option.getD_some] at run
  obtain ⟨state, -, rfl⟩ := Option.map_eq_some_iff.mp run
  rfl

omit [Double D] in
/-- An optional hook off a core leaves its call in the log. -/
theorem optCall_logged_push {σ : Type} {call : Nat → Int → HookCall}
    {f : Option (SchedView D → σ → Nat → Int → Option σ)} (reports : f ≠ none) {v : SchedView D}
    {s s' : Logged σ} {p : Nat} {ran :
      Int} (run : optCall (f.map (logHook call)) v s p ran = some s') :
    s'.log = ⟨v.now, call p ran⟩ :: s.log := by
  obtain ⟨g, rfl⟩ := Option.ne_none_iff_exists'.mp reports
  simp only [Option.map_some, optCall, logHook, Option.map_eq_some_iff] at run
  obtain ⟨state, -, rfl⟩ := run
  rfl

/-- The policy is told exactly of the ticks that were executed. -/
theorem charged_runInv (valid : S.w.Valid) (hcs : 0 ≤ S.opt.csCost) (reports : S.policy.Reports)
    {PInv : SchedView D → S.logged.policy.State → Places → Prop}
    (start : ∀ {v s}, PInv v s (fun _ => .new) → s.log = []) :
    RunInv S.logged PInv fun a => ∀ p, charged p a.eng.state.log = S.logged.executed a.eng p where
  init state begins p := by
    have log : state.log = [] := start begins
    simp [initConfig, initEngine, log, charged, executed, Process.cpuBefore, evenSum]
  move {budget a b} move sound paid clock here p := by
    have valid : S.logged.w.Valid := valid
    have hcs : 0 ≤ S.logged.opt.csCost := hcs
    cases move with
    | arrive pending due hook =>
        obtain ⟨state, -, rfl⟩ := Option.map_eq_some_iff.mp hook
        simp only [Logged.push, charged, HookCall.ran, ite_self, add_zero]
        exact here p
    | wake popped due hook =>
        simp only [wakeHook_push reports hook, charged, HookCall.ran, ite_self, add_zero]
        exact here p
    | @preempt e sp c q s f state seat runs ran left hook_eq hook =>
        obtain ⟨g, -, rfl⟩ := Option.map_eq_some_iff.mp hook_eq
        obtain ⟨state, -, rfl⟩ := Option.map_eq_some_iff.mp hook
        simp only [Logged.push, charged, HookCall.ran, HookCall.proc, here p]
        by_cases same : p = q
        · subst same
          simp [executed]
          ring
        · simp [executed, same, Ne.symm same]
    | @block e sp c q s heap state seat runs ran used more pushed hook =>
        have log := optCall_logged_push reports.block hook
        simp only [log, charged, HookCall.ran, HookCall.proc, here p]
        have progress := sound.progress (p := q) (by simp [seat]) (by simp [seat])
        rw [(sound.startIo_eq valid seat runs used more).2]
        by_cases same : p = q
        · subst same
          have cpu : (S.w.proc p).cpuBefore (e.phase p + 2) =
              (S.w.proc p).cpuBefore (e.phase p) + (S.w.proc p).phase (e.phase p) :=
            Process.cpuBefore_add progress.even progress.phase_lt
          have burst : e.burstLen p = (S.w.proc p).phase (e.phase p) := progress.burstLen_eq
          have used : e.remaining p - (e.now - (e.cores c).runStart) = 0 := by simpa using used
          simp only [executed, Function.update_self, if_true]
          omega
        · simp [executed, same, Ne.symm same]
    | @complete e sp c q s state seat runs ran used last hook =>
        have log := optCall_logged_push reports.complete hook
        simp only [log, charged, HookCall.ran, HookCall.proc, here p]
        by_cases same : p = q
        · subst same
          simp [executed, finishProcess, burstOver]
          ring
        · simp [executed, same, Ne.symm same, finishProcess, burstOver]
    | mark => exact here p
    | @start e sp c q s deadline seat switching =>
        rw [sound.startRun_eq valid seat switching]
        exact here p
    | pick hook early =>
        have log := pick_log hook
        simp only [log, charged, HookCall.ran, ite_self, add_zero]
        exact here p
    | refuse hook early =>
        simp only [refuse_log hook]
        exact here p
    | @place e sp c s held core_lt free fits =>
        rw [sound.placed_eq valid hcs held fits]
        exact here p
  advance sound dispatched event first gt here p := here p

omit [Double D] in
/-- No process is charged for more than its CPU bursts. -/
theorem Sound.executed_le {PInv : SchedView D → S.policy.State → Places → Prop} {budget : Int}
    {a : S.Config} (valid : S.w.Valid) (sound : S.Sound PInv budget a)
    (spent : ∀ p < S.w.len, a.spots p = .done → Spent S a.eng p) {p : Nat} (hp : p < S.w.len) :
    S.executed a.eng p ≤ (S.w.proc p).burst := by
  by_cases finished : a.spots p = .done
  · exact (spent p hp finished).2.le
  · have progress := sound.data.progress p hp finished
    have before := (S.w.proc p).cpuBefore_add progress.even progress.phase_lt
    have all := (valid.proc hp).cpuBefore_le (a.eng.phase p + 2)
    have := progress.burstLen_eq
    have := progress.remaining_pos
    unfold executed
    omega

omit [Double D] in
/-- Only the empty log leaves every process new. -/
theorem Chronicled.log_nil {P : Policy D} {Inv : SchedView D → P.State → Places → Prop}
    {start : P.State}
    {v : SchedView D} {s : Logged P.State} (here : Chronicled w P Inv start v s fun _ => .new) :
    s.log = [] := by
  have places := here.places
  cases log : s.log with
  | nil => rfl
  | cons call before =>
      have own : placesAfter s.log call.call.proc = .new := by rw [← places]
      rw [log, placesAfter_self] at own
      cases kind : call.call <;> simp [kind, HookCall.place] at own

/-- In every state of a run the calls reported the ticks that were executed, for no process
more than its CPU bursts. -/
theorem Reached.charged_eq
    (launched : Launched S.logged (Chronicled S.w S.policy Inv state) ⟨state, []⟩)
    (reports : S.policy.Reports) {point : LoopPoint} {e : S.logged.Eng}
    (reached : Reached S.logged ⟨state, []⟩ point e) :
    (∀ p, charged p e.state.log = S.logged.executed e p) ∧
      ∀ p < S.w.len, charged p e.state.log ≤ (S.w.proc p).burst := by
  have valid : S.logged.w.Valid := launched.valid
  have hcs := launched.options.cs_nonneg
  obtain ⟨sp, course, told, spent⟩ := reached.course launched
    ((charged_runInv (S := S) valid hcs reports Chronicled.log_nil).and (Spent.runInv valid hcs))
  obtain ⟨budget, sound⟩ := course.sound
  refine ⟨told, fun p hp => ?_⟩
  rw [told p]
  exact sound.executed_le valid spent hp

end Sim

end CpuSched
