import CpuSched.Engine.Contexts
import CpuSched.Policy.LatestPick

/-!
# Re-deciding

A preemptive policy is asked again whenever a process may have become better than a
running one.  Whenever `process_instant` hands a process to the policy it interrupts
every slice that has run for a tick, and flags the switch-ins: these run for one tick
and are interrupted then.  So between the pick of any other running process and now no
process was handed over.
-/

namespace CpuSched

namespace Sim

variable {D : Type} {S : Sim D}

/-- The simulation with its calls logged. -/
abbrev logged (S : Sim D) : Sim D := S.withPolicy S.policy.logged

/-! ## What an instant does to the log and the cores -/

section Hooks

variable {P : Policy D} {v : SchedView D} {s s' : Logged P.State} {p : Nat}

theorem arrival_grown (run : P.logged.onArrival v s p = some s') :
    Grown HookCall.NoPick s.log s'.log := by
  obtain ⟨state, -, rfl⟩ := Option.map_eq_some_iff.mp run
  exact .single trivial

theorem wakeHook_grown (run : P.logged.wakeHook v s p = some s') :
    Grown HookCall.NoPick s.log s'.log := by
  cases ready : P.onReady with
  | none =>
      simp only [Policy.wakeHook, Policy.logged, ready, Option.map_none, Option.getD_none] at run
      obtain ⟨state, -, rfl⟩ := Option.map_eq_some_iff.mp run
      exact .single trivial
  | some f =>
      simp only [Policy.wakeHook, Policy.logged, ready, Option.map_some, Option.getD_some] at run
      obtain ⟨state, -, rfl⟩ := Option.map_eq_some_iff.mp run
      exact .single trivial

theorem preempt_grown {ran : Int}
    {f : SchedView D → Logged P.State → Nat → Int → Option (Logged P.State)}
    (hook : P.logged.onPreempt = some f) (run : f v s p ran = some s') :
    Grown HookCall.NoPick s.log s'.log := by
  obtain ⟨g, -, rfl⟩ := Option.map_eq_some_iff.mp hook
  obtain ⟨state, -, rfl⟩ := Option.map_eq_some_iff.mp run
  exact .single trivial

theorem pick_log {slice : Slice} (run : P.logged.nextSlice v s = some (s', some slice)) :
    s'.log = ⟨v.now, .slice slice⟩ :: s.log := by
  obtain ⟨⟨state, r⟩, -, eq⟩ := Option.map_eq_some_iff.mp run
  cases r <;> cases eq
  rfl

theorem refuse_log (run : P.logged.nextSlice v s = some (s', none)) : s'.log = s.log := by
  obtain ⟨⟨state, r⟩, -, eq⟩ := Option.map_eq_some_iff.mp run
  cases r <;> cases eq
  rfl

theorem HookCall.Leaves.noPick {call : HookCall} (leaves : call.Leaves) : call.NoPick := by
  cases call <;> simp_all [HookCall.Leaves, HookCall.NoPick]

end Hooks

section Frames

variable {e e' : S.logged.Eng} {c : Nat}

theorem admitArrivals_frame {pending : List ArrivalKey} {any : Bool}
    (run : S.logged.admitArrivals pending e = some (e', any)) :
    e'.now = e.now ∧ e'.cores = e.cores ∧ Grown HookCall.NoPick e.state.log e'.state.log ∧
      (any = false → Grown HookCall.Leaves e.state.log e'.state.log) := by
  induction pending generalizing e e' any with
  | nil =>
      cases run
      exact ⟨rfl, rfl, .refl _, fun _ => .refl _⟩
  | cons key rest ih =>
      simp only [admitArrivals] at run
      split_ifs at run with due
      · simp only [Option.bind_eq_bind, Option.bind_eq_some_iff] at run
        obtain ⟨e₁, hook, ⟨e₂, any'⟩, run, eq⟩ := run
        cases eq
        obtain ⟨s, call, rfl⟩ := Option.map_eq_some_iff.mp hook
        obtain ⟨now_eq, cores_eq, grown, -⟩ := ih run
        exact ⟨now_eq, cores_eq, (arrival_grown call).trans grown,
          fun no => by cases no⟩
      · cases run
        exact ⟨rfl, rfl, .refl _, fun _ => .refl _⟩

theorem wakeBlocked_frame {fuel : Nat} {any : Bool}
    (run : S.logged.wakeBlocked fuel e = some (e', any)) :
    e'.now = e.now ∧ e'.cores = e.cores ∧ Grown HookCall.NoPick e.state.log e'.state.log ∧
      (any = false → Grown HookCall.Leaves e.state.log e'.state.log) := by
  induction fuel generalizing e e' any with
  | zero =>
      cases run
      exact ⟨rfl, rfl, .refl _, fun _ => .refl _⟩
  | succ fuel ih =>
      simp only [wakeBlocked] at run
      split_ifs at run with due
      · simp only [Option.bind_eq_bind, Option.bind_eq_some_iff] at run
        obtain ⟨⟨p, blocked⟩, -, e₁, hook, ⟨e₂, any'⟩, run, eq⟩ := run
        cases eq
        obtain ⟨s, call, rfl⟩ := Option.map_eq_some_iff.mp hook
        obtain ⟨now_eq, cores_eq, grown, -⟩ := ih run
        exact ⟨now_eq, cores_eq, (wakeHook_grown call).trans grown,
          fun no => by cases no⟩
      · cases run
        exact ⟨rfl, rfl, .refl _, fun _ => .refl _⟩

/-- A hook that reports a process off its core. -/
theorem optHook_frame {call : Nat → Int → HookCall}
    (kind : ∀ p ran, call p ran = .block p ran ∨ call p ran = .complete p ran)
    {f : Option (SchedView D → S.policy.State → Nat → Int → Option S.policy.State)} {p : Nat}
    {ran : Int} (run : S.logged.optHook e (f.map (logHook call)) p ran = some e') :
    ∃ s, e' = { e with state := s } ∧ Grown HookCall.Leaves e.state.log s.log := by
  rw [optHook_eq] at run
  obtain ⟨s, call, rfl⟩ := Option.map_eq_some_iff.mp run
  exact ⟨s, rfl, .left (optCall_logged_left kind call).2⟩

variable [Double D]

theorem burstDone_frame {p : Nat} {ran : Int} (run : S.logged.burstDone e p ran = some e') :
    e'.now = e.now ∧ e'.cores = e.cores ∧ Grown HookCall.Leaves e.state.log e'.state.log := by
  simp only [burstDone] at run
  split_ifs at run with last
  · obtain ⟨s, rfl, grown⟩ := optHook_frame (fun _ _ => .inr rfl) run
    exact ⟨rfl, rfl, grown⟩
  · obtain ⟨blocked, -, run⟩ := Option.bind_eq_some_iff.mp run
    obtain ⟨s, rfl, grown⟩ := optHook_frame (fun _ _ => .inl rfl) run
    simp only [startIo, addTime] at grown ⊢
    cases added : ckAddI64 e.now ((S.w.proc p).phase (e.phase p + 1)) with
    | none =>
        simp only [added] at grown ⊢
        exact ⟨trivial, trivial, grown⟩
    | some t =>
        simp only [added] at grown ⊢
        exact ⟨trivial, trivial, grown⟩

/-- `end_run` frees the core; without handing the process over it calls `on_block` or
`on_complete`. -/
theorem endRun_frame {requeued : Bool} (run : S.logged.endRun e c = some (e', requeued)) :
    e'.now = e.now ∧ (e'.cores c).proc = none ∧ (∀ i, i ≠ c → e'.cores i = e.cores i) ∧
      Grown HookCall.NoPick e.state.log e'.state.log ∧
      (requeued = false → Grown HookCall.Leaves e.state.log e'.state.log) := by
  simp only [endRun] at run
  cases on : (e.cores c).proc with
  | none => simp [on] at run
  | some p =>
      simp only [on] at run
      have free : (((S.logged.chargeRun e c p).cores) c).proc = none := by simp
      have others : ∀ i, i ≠ c → (S.logged.chargeRun e c p).cores i = e.cores i := by
        intro i ne
        simp [ne]
      split_ifs at run with used
      · obtain ⟨e₁, done, eq⟩ := Option.map_eq_some_iff.mp run
        obtain ⟨rfl, rfl⟩ := Prod.mk.inj eq
        obtain ⟨now_eq, cores_eq, grown⟩ := burstDone_frame done
        rw [chargeRun_state] at grown
        refine ⟨now_eq.trans (by simp), ?_, ?_, grown.mono fun _ => HookCall.Leaves.noPick,
          fun _ => grown⟩
        · rw [cores_eq]
          exact free
        · rw [cores_eq]
          exact others
      · cases hook : S.policy.onPreempt with
        | none => simp [Policy.logged, hook] at run
        | some f =>
            simp only [Policy.logged, hook, Option.map_some] at run
            obtain ⟨e₁, called, eq⟩ := Option.map_eq_some_iff.mp run
            obtain ⟨rfl, rfl⟩ := Prod.mk.inj eq
            obtain ⟨s, call, rfl⟩ := Option.map_eq_some_iff.mp called
            obtain ⟨state, -, rfl⟩ := Option.map_eq_some_iff.mp call
            refine ⟨by simp, free, others, ?_, fun no => by cases no⟩
            simp only [Logged.push, chargeRun_state]
            exact .single trivial

/-- Cores are freed and not touched otherwise. -/
def Freed (cores cores' : Nat → Core) : Prop :=
  ∀ i, (cores' i).proc = none ∨ cores' i = cores i

omit [Double D] in
theorem Freed.trans {cores cores' cores'' : Nat → Core} (first : Freed cores cores')
    (then_ : Freed cores' cores'') : Freed cores cores'' := by
  intro i
  rcases then_ i with free | same
  · exact .inl free
  · rw [same]
    exact first i

theorem endRun_freed {requeued : Bool} (run : S.logged.endRun e c = some (e', requeued)) :
    Freed e.cores e'.cores := by
  obtain ⟨-, free, others, -⟩ := endRun_frame run
  intro i
  by_cases same : i = c
  · exact .inl (same ▸ free)
  · exact .inr (others i same)

theorem endFinished_frame {cs : List Nat} {requeued : Bool}
    (run : S.logged.endFinished cs e = some (e', requeued)) :
    e'.now = e.now ∧ Freed e.cores e'.cores ∧
      (∀ i ∈ cs, (e'.cores i).proc ≠ none → (e'.cores i).inCs = false →
        (e'.cores i).runEnd ≠ e.now) ∧
      Grown HookCall.NoPick e.state.log e'.state.log ∧
      (requeued = false → Grown HookCall.Leaves e.state.log e'.state.log) := by
  induction cs generalizing e e' requeued with
  | nil =>
      cases run
      exact ⟨rfl, fun _ => .inr rfl, by simp, .refl _, fun _ => .refl _⟩
  | cons c rest ih =>
      simp only [endFinished] at run
      split_ifs at run with elapsed
      · simp only [Option.bind_eq_bind, Option.bind_eq_some_iff] at run
        obtain ⟨⟨e₁, requeued₁⟩, ended, ⟨e₂, more⟩, later, eq⟩ := run
        obtain ⟨rfl, rfl⟩ := Prod.mk.inj (Option.some.inj eq)
        obtain ⟨now₁, free, -, grown₁, leaves₁⟩ := endRun_frame ended
        obtain ⟨now₂, freed, ends, grown₂, leaves₂⟩ := ih later
        refine ⟨now₂.trans now₁, (endRun_freed ended).trans freed, fun i mem on runs => ?_,
          grown₁.trans grown₂, fun none => ?_⟩
        · rcases List.mem_cons.mp mem with rfl | mem
          · rcases freed i with free' | same
            · exact absurd free' on
            · rw [same] at on
              exact absurd free on
          · rw [← now₁]
            exact ends i mem on runs
        · rw [Bool.or_eq_false_iff] at none
          exact (leaves₁ none.1).trans (leaves₂ none.2)
      · obtain ⟨now_eq, freed, ends, grown, leaves⟩ := ih run
        refine ⟨now_eq, freed, fun i mem on runs => ?_, grown, leaves⟩
        rcases List.mem_cons.mp mem with rfl | mem
        · rcases freed i with free | same
          · exact absurd free on
          · rw [same] at on runs ⊢
            exact fun ended => elapsed ⟨on, runs, ended⟩
        · exact ends i mem on runs

theorem interrupt_frame {redecide : Bool} {cs : List Nat}
    (run : S.logged.interrupt redecide cs e = some e') :
    e'.now = e.now ∧ Freed e.cores e'.cores ∧ Grown HookCall.NoPick e.state.log e'.state.log ∧
      (redecide = true → ∀ i ∈ cs, (e'.cores i).proc ≠ none → (e'.cores i).inCs = false →
        (e'.cores i).runStart = e.now) ∧
      (redecide = false → (∀ i ∈ cs, (e.cores i).proc ≠ none → (e.cores i).inCs = false →
        (e.cores i).runStart ≠ e.now → (e.cores i).busyUntil ≠ e.now) → e' = e) := by
  induction cs generalizing e e' with
  | nil =>
      cases run
      exact ⟨rfl, fun _ => .inr rfl, .refl _, by simp, fun _ _ => rfl⟩
  | cons c rest ih =>
      simp only [interrupt] at run
      split_ifs at run with cut
      · simp only [Option.bind_eq_bind, Option.bind_eq_some_iff] at run
        obtain ⟨⟨e₁, requeued⟩, ended, later⟩ := run
        obtain ⟨now₁, free, -, grown₁, -⟩ := endRun_frame ended
        obtain ⟨now₂, freed, grown₂, stops, -⟩ := ih later
        refine ⟨now₂.trans now₁, (endRun_freed ended).trans freed, grown₁.trans grown₂,
          fun all i mem on runs => ?_, fun none uncut => ?_⟩
        · rcases List.mem_cons.mp mem with rfl | mem
          · rcases freed i with free' | same
            · exact absurd free' on
            · rw [same] at on
              exact absurd free on
          · rw [← now₁]
            exact stops all i mem on runs
        · rcases cut.2.2.2 with all | due
          · cases none.symm.trans all
          · exact absurd due (uncut c List.mem_cons_self cut.1 cut.2.1 cut.2.2.1)
      · obtain ⟨now_eq, freed, grown, stops, still⟩ := ih run
        refine ⟨now_eq, freed, grown, fun all i mem on runs => ?_, fun none uncut =>
          still none fun i mem => uncut i (List.mem_cons_of_mem _ mem)⟩
        rcases List.mem_cons.mp mem with rfl | mem
        · rcases freed i with free | same
          · exact absurd free on
          · rw [same] at on runs ⊢
            by_contra started
            exact cut ⟨on, runs, started, .inl all⟩
        · exact stops all i mem on runs

end Frames

/-! ## Switch-ins -/

section Switches

variable {e : S.Eng}

theorem markRecheck_frame (redecide : Bool) (cs : List Nat) (e : S.Eng) :
    (cs.foldl (S.markRecheck redecide) e).now = e.now ∧
      (cs.foldl (S.markRecheck redecide) e).state = e.state ∧
      ∀ i, ((cs.foldl (S.markRecheck redecide) e).cores i = e.cores i ∨
          (cs.foldl (S.markRecheck redecide) e).cores i = { e.cores i with recheck := true }) ∧
        (redecide = false → (cs.foldl (S.markRecheck redecide) e).cores i = e.cores i) ∧
        (redecide = true → i ∈ cs → (e.cores i).proc ≠ none → (e.cores i).inCs = true →
          ((cs.foldl (S.markRecheck redecide) e).cores i).recheck = true) := by
  induction cs generalizing e with
  | nil => exact ⟨rfl, rfl, fun i => ⟨.inl rfl, fun _ => rfl, by simp⟩⟩
  | cons c rest ih =>
      rw [List.foldl_cons]
      by_cases switching : redecide = true ∧ (e.cores c).proc ≠ none ∧ (e.cores c).inCs = true
      · have step : S.markRecheck redecide e c = S.setCore e c
          { e.cores c with recheck := true } := by
          simp only [markRecheck, if_pos switching]
        rw [step]
        obtain ⟨now_eq, state_eq, cores⟩ := ih (S.setCore e c { e.cores c with recheck := true })
        refine ⟨now_eq, state_eq, fun i => ?_⟩
        obtain ⟨either, none, all⟩ := cores i
        refine ⟨?_, fun h => by simp [h] at switching, fun h mem on cs => ?_⟩
        · by_cases same : i = c
          · subst same
            right
            rcases either with h | h
            · rw [h]
              simp [setCore]
            · rw [h]
              simp [setCore]
          · simpa [setCore, same] using either
        · by_cases same : i = c
          · subst same
            rcases either with h | h
            · rw [h]
              simp [setCore]
            · rw [h]
          · refine all h ?_ (by simpa [setCore, same] using on) (by simpa [setCore, same] using cs)
            exact (List.mem_cons.mp mem).resolve_left same
      · have step : S.markRecheck redecide e c = e := by
          simp only [markRecheck, if_neg switching]
        rw [step]
        obtain ⟨now_eq, state_eq, cores⟩ := ih e
        refine ⟨now_eq, state_eq, fun i => ?_⟩
        obtain ⟨either, none, all⟩ := cores i
        refine ⟨either, none, fun h mem on cs => ?_⟩
        rcases List.mem_cons.mp mem with rfl | mem
        · exact absurd ⟨h, on, cs⟩ switching
        · exact all h mem on cs

/-- A switch-in on `core` ended at `now` and its slice runs, for one tick at first if
the core was flagged or the deadline has passed. -/
structure RunsNow (now : Int) (core core' : Core) : Prop where
  switching : core.inCs = true
  elapsed : core.busyUntil = now
  proc_eq : core'.proc = core.proc
  runs : core'.inCs = false
  start_eq : core'.runStart = now
  deadline_eq : core'.deadline =
    if core.recheck = true ∨ core.deadline ≤ now then now + 1 else core.deadline

theorem beginRun_core (e : S.Eng) (c p : Nat) :
    (S.beginRun e c p).now = e.now ∧ (S.beginRun e c p).state = e.state ∧
      ∃ runEnd, (S.beginRun e c p).cores = Function.update e.cores c { e.cores c with
        inCs := false
        runStart := e.now
        runEnd
        busyUntil := if (e.cores c).deadline < runEnd then (e.cores c).deadline else runEnd } := by
  dsimp only [beginRun, addTime, setCore]
  by_cases fresh : (e.outcomes p).start < 0
  · simp only [fresh, if_true]
    generalize (if (e.cores c).length < e.remaining p then (e.cores c).length else e.remaining p) =
      len
    cases ckAddI64 e.now len with
    | none => exact ⟨rfl, rfl, _, rfl⟩
    | some r => exact ⟨rfl, rfl, _, rfl⟩
  · simp only [fresh, if_false]
    generalize (if (e.cores c).length < e.remaining p then (e.cores c).length else e.remaining p) =
      len
    cases ckAddI64 e.now len with
    | none => exact ⟨rfl, rfl, _, rfl⟩
    | some r => exact ⟨rfl, rfl, _, rfl⟩

theorem finishSwitch_frame (early : e.now < int64Max) (c : Nat) :
    (S.finishSwitch e c).now = e.now ∧ (S.finishSwitch e c).state = e.state ∧
      ∀ i, (S.finishSwitch e c).cores i = e.cores i ∨
        RunsNow e.now (e.cores i) ((S.finishSwitch e c).cores i) := by
  -- the new slice starts on core `c` alone, with the deadline `deadline`
  have start : ∀ {e₁ : S.Eng} {p : Nat} {deadline : Int}, (e.cores c).inCs = true →
      (e.cores c).busyUntil = e.now →
      deadline = (if (e.cores c).recheck = true ∨ (e.cores c).deadline ≤ e.now then e.now + 1
        else (e.cores c).deadline) →
      e₁ = S.setCore e c { e.cores c with deadline } →
      (S.beginRun e₁ c p).now = e.now ∧ (S.beginRun e₁ c p).state = e.state ∧
      ∀ i, (S.beginRun e₁ c p).cores i = e.cores i ∨
        RunsNow e.now (e.cores i) ((S.beginRun e₁ c p).cores i) := by
    rintro e₁ p deadline switching elapsed deadline_eq rfl
    obtain ⟨now_eq, state_eq, runEnd, cores⟩ :=
      beginRun_core (S.setCore e c { e.cores c with deadline }) c p
    refine ⟨now_eq, state_eq, fun i => ?_⟩
    by_cases same : i = c
    · subst same
      right
      rw [cores]
      simp only [setCore, Function.update_self]
      exact ⟨switching, elapsed, rfl, rfl, rfl, deadline_eq⟩
    · left
      rw [cores]
      simp [setCore, same]
  simp only [finishSwitch]
  cases on : (e.cores c).proc with
  | none => exact ⟨rfl, rfl, fun _ => .inl rfl⟩
  | some p =>
      simp only
      split_ifs with still again
      · exact ⟨rfl, rfl, fun _ => .inl rfl⟩
      · rw [not_or, Bool.not_eq_false, not_not] at still
        rw [S.addTime_of_le e (by omega) (by omega)]
        exact start still.1 still.2 (if_pos again).symm (by rw [← on])
      · rw [not_or, Bool.not_eq_false, not_not] at still
        exact start still.1 still.2 (if_neg again).symm (S.setCore_self e c).symm

/-- All switch-ins that are over. -/
theorem finishSwitches_frame (cs : List Nat) (early : e.now < int64Max) :
    (cs.foldl S.finishSwitch e).now = e.now ∧ (cs.foldl S.finishSwitch e).state = e.state ∧
      ∀ i, (cs.foldl S.finishSwitch e).cores i = e.cores i ∨
        RunsNow e.now (e.cores i) ((cs.foldl S.finishSwitch e).cores i) := by
  induction cs generalizing e with
  | nil => exact ⟨rfl, rfl, fun _ => .inl rfl⟩
  | cons c rest ih =>
      obtain ⟨now₁, state₁, cores₁⟩ := finishSwitch_frame early c
      obtain ⟨now₂, state₂, cores₂⟩ := ih (e := S.finishSwitch e c) (now₁ ▸ early)
      rw [List.foldl_cons]
      refine ⟨now₂.trans now₁, state₂.trans state₁, fun i => ?_⟩
      rcases cores₂ i with same | runs
      · rw [same]
        exact cores₁ i
      · rcases cores₁ i with same | runs'
        · rw [same, now₁] at runs
          exact .inr runs
        · -- a core that runs is in no switch-in
          cases runs'.runs.symm.trans runs.switching

end Switches

/-! ## A whole instant -/

/-- What an instant at `now` leaves on core `c`: when it re-decided, a flagged switch-in,
or a slice that starts now for one tick. -/
def Exempt (now : Int) (core : Core) : Prop :=
  (core.inCs = true ∧ core.recheck = true) ∨
    (core.inCs = false ∧ core.runStart = now ∧ core.deadline = now + 1)

variable [Double D]

/-- An instant of a preemptive policy either hands over no process and leaves the cores
that are not freed alone, but for switch-ins that end, or every process that is still on
a core is exempt. -/
theorem processInstant_frame (online : S.policy.preemptOnReady = true) {e e' : S.logged.Eng}
    (early : e.now < int64Max)
    (past : ∀ c < S.opt.cores, (e.cores c).proc ≠ none → (e.cores c).inCs = false →
      (e.cores c).runStart < e.now ∧
        (e.cores c).busyUntil = min (e.cores c).deadline (e.cores c).runEnd)
    (run : S.logged.processInstant e = some e') :
    e'.now = e.now ∧ Grown HookCall.NoPick e.state.log e'.state.log ∧
      (∀ c < S.opt.cores, (e'.cores c).proc ≠ none → (e'.cores c).proc = (e.cores c).proc) ∧
      ((∀ c < S.opt.cores, (e'.cores c).proc ≠ none → Exempt e.now (e'.cores c)) ∨
        (Grown HookCall.Leaves e.state.log e'.state.log ∧
          ∀ c < S.opt.cores, (e'.cores c).proc ≠ none →
            e'.cores c = e.cores c ∨ RunsNow e.now (e.cores c) (e'.cores c))) := by
  simp only [processInstant, Option.bind_eq_bind, Option.bind_eq_some_iff, Prod.exists] at run
  obtain ⟨e₁, arrived, run₁, e₂, woken, run₂, e₃, requeued, run₃, run₆⟩ := run
  obtain ⟨now₁, cores₁, grown₁, quiet₁⟩ := admitArrivals_frame run₁
  obtain ⟨now₂, cores₂, grown₂, quiet₂⟩ := wakeBlocked_frame run₂
  obtain ⟨now₃, freed₃, ends₃, grown₃, quiet₃⟩ := endFinished_frame run₃
  generalize hredecide : (S.logged.policy.preemptOnReady &&
    ((arrived || woken) || requeued || S.logged.cutDue e)) = redecide at run₆
  obtain ⟨now₄, state₄, cores₄⟩ := markRecheck_frame redecide (List.range S.opt.cores) e₃
  generalize (List.range S.opt.cores).foldl (S.logged.markRecheck redecide) e₃ = e₄ at *
  have at₃ : e₃.now = e.now := now₃.trans (now₂.trans now₁)
  have at₄ : e₄.now = e.now := now₄.trans at₃
  obtain ⟨now₅, state₅, cores₅⟩ := finishSwitches_frame (List.range S.opt.cores) (e := e₄)
    (at₄ ▸ early)
  generalize (List.range S.opt.cores).foldl S.logged.finishSwitch e₄ = e₅ at *
  obtain ⟨now₆, freed₆, grown₆, stops, still⟩ := interrupt_frame run₆
  have at₅ : e₅.now = e.now := now₅.trans at₄
  have log₅ : Grown HookCall.NoPick e.state.log e₅.state.log := by
    rw [state₅, state₄]
    exact grown₁.trans (grown₂.trans grown₃)
  -- a core that was not freed before the switch-ins ended
  have kept₃ : ∀ c, (e₃.cores c).proc ≠ none → e₃.cores c = e.cores c := by
    intro c on
    rcases freed₃ c with free | same
    · exact absurd free on
    · rw [same, cores₂, cores₁]
  have on₄ : ∀ c, (e₄.cores c).proc = (e₃.cores c).proc := by
    intro c
    rcases (cores₄ c).1 with h | h <;> rw [h]
  have on₅ : ∀ c, (e₅.cores c).proc = (e₃.cores c).proc := by
    intro c
    rcases cores₅ c with h | h
    · rw [h, on₄]
    · rw [h.proc_eq, on₄]
  refine ⟨now₆.trans at₅, log₅.trans grown₆, fun c _ on => ?_, ?_⟩
  · rcases freed₆ c with free | same
    · exact absurd free on
    · rw [same] at on ⊢
      rw [on₅] at on ⊢
      rw [kept₃ c on]
  cases redecide with
  | true =>
      left
      intro c hc on
      have mem := List.mem_range.mpr hc
      rcases freed₆ c with free | same
      · exact absurd free on
      have stop := stops rfl c mem on
      rw [same] at on stop ⊢
      rw [on₅] at on
      rcases cores₅ c with unchanged | starts
      · rw [unchanged] at stop ⊢
        cases switching : (e₄.cores c).inCs with
        | true =>
            refine .inl ⟨switching, (cores₄ c).2.2 rfl mem on ?_⟩
            rcases (cores₄ c).1 with h | h <;> rw [h] at switching <;> exact switching
        | false =>
            -- it would have run before this instant
            exfalso
            have start := stop switching
            have eq : (e₄.cores c).inCs = (e₃.cores c).inCs ∧
                (e₄.cores c).runStart = (e₃.cores c).runStart := by
              rcases (cores₄ c).1 with h | h <;> rw [h] <;> exact ⟨rfl, rfl⟩
            rw [eq.1, kept₃ c on] at switching
            rw [eq.2, kept₃ c on, at₅] at start
            rw [kept₃ c on] at on
            exact absurd start (past c hc on switching).1.ne
      · refine .inr ⟨starts.runs, starts.start_eq.trans at₄, ?_⟩
        have switching : (e₃.cores c).inCs = true := by
          have := starts.switching
          rcases (cores₄ c).1 with h | h <;> rw [h] at this <;> exact this
        rw [starts.deadline_eq, if_pos (.inl ((cores₄ c).2.2 rfl mem on switching)), at₄]
  | false =>
      right
      rw [show S.logged.policy.preemptOnReady = true from online] at hredecide
      simp only [Bool.true_and, Bool.or_eq_false_iff] at hredecide
      obtain ⟨⟨⟨arrived_eq, woken_eq⟩, requeued_eq⟩, cut_eq⟩ := hredecide
      have same₄ : ∀ c, e₄.cores c = e₃.cores c := fun c => (cores₄ c).2.1 rfl
      have eq : e' = e₅ := by
        refine still rfl fun c mem on runs started due => ?_
        rw [on₅] at on
        rcases cores₅ c with unchanged | starts
        · rw [unchanged, same₄] at runs started due
          have ended := ends₃ c mem on runs
          have same := kept₃ c on
          rw [same] at on runs due ended
          have busy := (past c (List.mem_range.mp mem) on runs).2
          have cut := List.any_eq_false.mp cut_eq c mem
          simp only [decide_eq_true_eq, not_and] at cut
          have := cut on
          rw [at₅] at due
          rw [now₂, now₁] at ended
          omega
        · exact started (starts.start_eq.trans now₅.symm)
      subst eq
      refine ⟨?_, fun c hc on => ?_⟩
      · rw [state₅, state₄]
        exact (quiet₁ arrived_eq).trans ((quiet₂ woken_eq).trans (quiet₃ requeued_eq))
      · rw [on₅] at on
        rcases cores₅ c with unchanged | starts
        · rw [unchanged, same₄, kept₃ c on]
          exact .inl rfl
        · rw [same₄, kept₃ c on, at₄] at starts
          exact .inr starts

/-! ## The picks of the running processes -/

/-- What the latest pick `k` of a process has to do with the core it is on. -/
structure TrackedCore (csCost now : Int) (core : Core) (k : Pick) : Prop where
  time_le : k.time ≤ now
  /-- Without a switch cost the slice starts where it is picked. -/
  free : csCost = 0 → core.inCs = false ∧ k.time = core.runStart
  switching : core.inCs = true → core.deadline = k.slice.deadline ∧ k.time < core.busyUntil
  /-- The deadline is that of the slice, or a tick after a switch-in. -/
  running : core.inCs = false → core.deadline = k.slice.deadline ∨
    (core.deadline = core.runStart + 1 ∧ k.time < core.runStart)

/-- The slices held and on the cores are those of the latest picks. -/
structure Tracked (a : S.logged.Config) : Prop where
  held : ∀ p s, a.spots p = .held s → ∃ k, latestPick p a.eng.state.log = some k ∧ k.slice = s ∧
    k.time = a.eng.now
  seat : ∀ p c s, a.spots p = .core c s → ∃ k, latestPick p a.eng.state.log = some k ∧
    k.slice = s ∧ TrackedCore S.opt.csCost a.eng.now (a.eng.cores c) k

section Tracking

variable {PInv : SchedView D → S.logged.policy.State → Places → Prop} {budget : Int}
  {a b : S.logged.Config}

omit [Double D] in
/-- Calls that pick nothing leave the picks of the processes that stay. -/
theorem Tracked.frame (tracked : Tracked a) (now_eq : b.eng.now = a.eng.now)
    (grown : Grown HookCall.NoPick a.eng.state.log b.eng.state.log)
    (held : ∀ p s, b.spots p = .held s → a.spots p = .held s)
    (seat : ∀ p c s, b.spots p = .core c s → a.spots p = .core c s ∧
      b.eng.cores c = a.eng.cores c) :
    Tracked b := by
  refine ⟨fun p s here => ?_, fun p c s here => ?_⟩
  · obtain ⟨k, pick, slice, time⟩ := tracked.held p s (held p s here)
    obtain ⟨k', pick', time', slice'⟩ := grown.latestPick_kept pick
    exact ⟨k', pick', slice'.trans slice, time'.trans (time.trans now_eq.symm)⟩
  · obtain ⟨here, same⟩ := seat p c s here
    obtain ⟨k, pick, slice, core⟩ := tracked.seat p c s here
    obtain ⟨k', pick', time', slice'⟩ := grown.latestPick_kept pick
    refine ⟨k', pick', slice'.trans slice, ?_⟩
    rw [now_eq, same]
    exact ⟨time' ▸ core.time_le, time' ▸ core.free, time' ▸ slice' ▸ core.switching,
      time' ▸ slice' ▸ core.running⟩

theorem Tracked.runInv (valid : S.w.Valid) (hcs : 0 ≤ S.opt.csCost)
    (contract : Contract S.w S.logged.policy PInv) : RunInv S.logged PInv Tracked where
  init _ _ := ⟨fun _ _ h => (by cases h), fun _ _ _ h => (by cases h)⟩
  move {budget a b} move sound _ _ tracked := by
    have valid : S.logged.w.Valid := valid
    -- a process that moves off its core leaves the other cores alone
    have leave : ∀ {e e' : S.logged.Eng} {sp : Nat → Spot} {c p : Nat} {s : Slice} {z : Spot}
        {core : Core}, S.logged.Sound PInv budget ⟨e, sp⟩ → sp p = .core c s → z.OffCore →
        e'.cores = Function.update e.cores c core →
        (∀ q s', Function.update sp p z q = .held s' → sp q = .held s') ∧
        ∀ q c' s', Function.update sp p z q = .core c' s' →
          sp q = .core c' s' ∧ e'.cores c' = e.cores c' := by
      intro e e' sp c p s z core sound seat off cores_eq
      refine ⟨fun q s' here => off.stays (.inl ⟨s', rfl⟩) here, fun q c' s' here => ?_⟩
      have stays := off.stays (.inr ⟨c', s', rfl⟩) here
      refine ⟨stays, ?_⟩
      rw [cores_eq, Function.update_of_ne]
      rintro rfl
      exact off.other (.inr ⟨_, s', rfl⟩) here (sound.alone seat stays)
    -- a process that enters the ready set was on no core
    have enter : ∀ {sp : Nat → Spot} {p : Nat} {z : Spot}, z.OffCore →
        (∀ q s', Function.update sp p z q = .held s' → sp q = .held s') ∧
        ∀ q c' s', Function.update sp p z q = .core c' s' → sp q = .core c' s' := by
      intro sp p z off
      exact ⟨fun q s' here => off.stays (.inl ⟨s', rfl⟩) here,
        fun q c' s' here => off.stays (.inr ⟨c', s', rfl⟩) here⟩
    cases move with
    | arrive pending due hook =>
        obtain ⟨held, seat⟩ := enter (z := .ready) trivial
        exact tracked.frame rfl (arrival_grown hook) held fun q c s here => ⟨seat q c s here, rfl⟩
    | wake popped due hook =>
        obtain ⟨held, seat⟩ := enter (z := .ready) trivial
        exact tracked.frame rfl (wakeHook_grown hook) held fun q c s here => ⟨seat q c s here, rfl⟩
    | @preempt e sp c p s f state seat runs ran left hook_eq hook =>
        have cores : (S.logged.chargeRun e c p).cores =
            Function.update e.cores c { e.cores c with proc := none, freeSince := e.now } := by simp
        obtain ⟨held, seats⟩ := leave (z := .ready) sound seat trivial cores
        have grown := preempt_grown hook_eq hook
        exact tracked.frame (by simp) grown held seats
    | @block e sp c p s heap state seat runs ran used more pushed hook =>
        have cores : (S.logged.startIo (S.logged.burstOver e c p) p).cores =
            Function.update e.cores c { e.cores c with proc := none, freeSince := e.now } := by
          rw [(sound.startIo_eq valid seat runs used more).2]
          simp [burstOver]
        have now_eq : (S.logged.startIo (S.logged.burstOver e c p) p).now = e.now := by
          rw [(sound.startIo_eq valid seat runs used more).2]
          simp [burstOver]
        obtain ⟨held, seats⟩ := leave (z := .blocked) sound seat trivial cores
        have left := (optCall_logged_left (fun _ _ => .inl rfl) hook).2
        exact tracked.frame now_eq
          ((Grown.left left).mono fun _ => HookCall.Leaves.noPick) held seats
    | @complete e sp c p s state seat runs ran used last hook =>
        have cores : (S.logged.finishProcess (S.logged.burstOver e c p) p).cores =
            Function.update e.cores c { e.cores c with proc := none, freeSince := e.now } := by
          simp [finishProcess, burstOver]
        obtain ⟨held, seats⟩ := leave (z := .done) sound seat trivial cores
        have left := (optCall_logged_left (fun _ _ => .inr rfl) hook).2
        exact tracked.frame (by simp [finishProcess, burstOver])
          ((Grown.left left).mono fun _ => HookCall.Leaves.noPick) held seats
    | @mark e sp c p s seat switching redecides =>
        refine ⟨tracked.held, fun q c' s' here => ?_⟩
        obtain ⟨k, pick, slice, core⟩ := tracked.seat q c' s' here
        refine ⟨k, pick, slice, ?_⟩
        by_cases same : c' = c
        · subst same
          simp only [setCore, Function.update_self]
          exact ⟨core.time_le, core.free, core.switching, core.running⟩
        · simp only [setCore, Function.update_of_ne same]
          exact core
    | @start e sp c p s deadline seat switching elapsed deadline_eq =>
        rw [sound.startRun_eq valid seat switching]
        refine ⟨tracked.held, fun q c' s' here => ?_⟩
        obtain ⟨k, pick, slice, core⟩ := tracked.seat q c' s' here
        refine ⟨k, pick, slice, ?_⟩
        by_cases same : c' = c
        · subst same
          obtain ⟨deadline_eq', earlier⟩ := core.switching switching
          simp only [Function.update_self]
          refine ⟨core.time_le, fun none => ?_, fun h => by simp [startedCore] at h, fun _ => ?_⟩
          · cases (core.free none).1.symm.trans switching
          simp only [startedCore] at *
          rcases deadline_eq with ⟨eq, -⟩ | ⟨eq, -⟩
          · exact .inl (eq.trans deadline_eq')
          · exact .inr ⟨eq, by omega⟩
        · simp only [Function.update_of_ne same]
          exact core
    | @pick e sp s state hook early =>
        have ready := (sound.pick contract hook early).1
        have log := pick_log hook
        refine ⟨fun q s' here => ?_, fun q c' s' here => ?_⟩
        · by_cases same : q = s.proc
          · subst same
            obtain rfl : s = s' := by simpa using here
            exact ⟨⟨e.now, s, true⟩, by rw [log]; exact latestPick_slice, rfl, rfl⟩
          · simp only [Function.update_of_ne same] at here
            rw [log, latestPick_slice_of_ne (Ne.symm same)]
            exact tracked.held q s' here
        · by_cases same : q = s.proc
          · subst same
            simp at here
          · simp only [Function.update_of_ne same] at here
            rw [log, latestPick_slice_of_ne (Ne.symm same)]
            exact tracked.seat q c' s' here
    | refuse hook early =>
        exact tracked.frame rfl (refuse_log hook ▸ .refl _) (fun _ _ here => here)
          fun _ _ _ here => ⟨here, rfl⟩
    | @place e sp c s held core_lt free fits =>
        rw [sound.placed_eq valid hcs held fits]
        refine ⟨fun q s' here => ?_, fun q c' s' here => ?_⟩
        · by_cases same : q = s.proc
          · subst same
            simp at here
          · simp only [Function.update_of_ne same] at here
            exact tracked.held q s' here
        · by_cases same : q = s.proc
          · subst same
            obtain ⟨rfl, rfl⟩ : c = c' ∧ s = s' := by simpa using here
            obtain ⟨k, pick, slice, time⟩ := tracked.held _ s held
            refine ⟨k, pick, slice, ?_⟩
            simp only [Function.update_self, placedCore]
            split_ifs with switches
            · refine ⟨time.le, fun none => ?_, fun _ => ⟨by rw [slice]; rfl, ?_⟩, by simp⟩
              · exact absurd switches.2 none.not_gt
              · have := switches.2
                simp only at time ⊢
                omega
            · exact ⟨time.le, fun _ => ⟨rfl, time⟩, by simp [startedCore],
                fun _ => .inl (by rw [slice]; rfl)⟩
          · simp only [Function.update_of_ne same] at here
            obtain ⟨k, pick, slice, core⟩ := tracked.seat q c' s' here
            have ne : c' ≠ c := by
              rintro rfl
              have := (sound.cores.seat q c' s' here).2.2.proc_eq
              rw [free] at this
              cases this
            refine ⟨k, pick, slice, ?_⟩
            simp only [Function.update_of_ne ne]
            exact core
  advance sound dispatched _ _ gt tracked := by
    refine ⟨fun p s here => absurd here (dispatched.noneHeld p s), fun p c s here => ?_⟩
    obtain ⟨k, pick, slice, core⟩ := tracked.seat p c s here
    exact ⟨k, pick, slice, core.time_le.trans gt.le, core.free, core.switching, core.running⟩

end Tracking

/-! ## Slices of the whole burst -/

/-- Each slice held or on a core is as long as the burst has left. -/
def WholeSlices (a : S.Config) : Prop :=
  ∀ p s, (a.spots p = .held s ∨ ∃ c, a.spots p = .core c s) → s.length = a.eng.remaining p

/-- A policy whose slices are whole bursts keeps them so until they end. -/
theorem WholeSlices.runInv (valid : S.w.Valid) (hcs : 0 ≤ S.opt.csCost)
    {PInv : SchedView D → S.policy.State → Places → Prop}
    (whole : ∀ {v s s' slice}, S.policy.nextSlice v s = some (s', some slice) →
      slice.length = v.remaining slice.proc) : RunInv S PInv WholeSlices where
  init _ _ _ _ here := by rcases here with here | ⟨c, here⟩ <;> cases here
  move {budget a b} move sound _ _ slices := by
    -- a process that is not on a core after the step has no slice, the others keep theirs
    have off : ∀ {e e' : S.Eng} {sp : Nat → Spot} {p : Nat} {z : Spot}, z.OffCore →
        (∀ q, q ≠ p → e'.remaining q = e.remaining q) → WholeSlices ⟨e, sp⟩ →
        WholeSlices ⟨e', Function.update sp p z⟩ := by
      intro e e' sp p z off same slices q s here
      rcases here with here | ⟨c, here⟩
      · rw [same q (off.other (.inl ⟨s, rfl⟩) here)]
        exact slices q s (.inl (off.stays (.inl ⟨s, rfl⟩) here))
      · rw [same q (off.other (.inr ⟨c, s, rfl⟩) here)]
        exact slices q s (.inr ⟨c, off.stays (.inr ⟨c, s, rfl⟩) here⟩)
    cases move with
    | arrive pending due hook => exact off (z := .ready) trivial (fun _ _ => rfl) slices
    | wake popped due hook => exact off (z := .ready) trivial (fun _ _ => rfl) slices
    | preempt seat runs ran left hook_eq hook =>
        exact off (z := .ready) trivial (fun q ne => by simp [ne]) slices
    | block seat runs ran used more pushed hook =>
        refine off (z := .blocked) trivial (fun q ne => ?_) slices
        rw [(sound.startIo_eq valid seat runs used more).2]
        simp [ne]
    | complete seat runs ran used last hook =>
        exact off (z := .done) trivial (fun q ne => by simp [finishProcess, burstOver, ne]) slices
    | mark seat switching redecides => exact slices
    | start seat switching elapsed deadline_eq =>
        rw [sound.startRun_eq valid seat switching]
        exact slices
    | @pick e sp s state hook early =>
        intro q s' here
        by_cases same : q = s.proc
        · subst same
          obtain rfl : s = s' := by simpa using here
          exact whole hook
        · simp only [Function.update_of_ne same] at here
          exact slices q s' here
    | refuse hook early => exact slices
    | @place e sp c s held core_lt free fits =>
        rw [sound.placed_eq valid hcs held fits]
        intro q s' here
        by_cases same : q = s.proc
        · subst same
          obtain rfl : s = s' := by simpa using here
          exact slices _ s (.inl held)
        · simp only [Function.update_of_ne same] at here
          exact slices q s' here
  advance _ _ _ _ _ slices := slices

/-! ## The calls of a dispatch -/

section Dispatches

omit [Double D] in
theorem dispatchOne_state {e e' : S.Eng} {c : Nat} {s : Slice}
    (run : S.dispatchOne e c s = some e') :
    e'.state = e.state := by
  simp only [dispatchOne, Option.bind_eq_bind, Option.bind_eq_some_iff] at run
  obtain ⟨-, -, run⟩ := run
  have seat : (S.seat e c s).state = e.state := by rw [seat_eq]
  split_ifs at run with switches
  · cases run
    rw [← seat]
    simp only [switchIn, addTime]
    cases ckAddI64 (S.seat e c s).now S.opt.csCost <;> simp [setCore]
  · cases run
    rw [(beginRun_core _ _ _).2.1, seat]

omit [Double D] in
theorem placeHome_state {picks left : List Slice} {e e' : S.Eng} {used used' : Nat → Bool}
    (run : S.placeHome picks e used = some (e', used', left)) : e'.state = e.state := by
  induction picks generalizing e used left with
  | nil =>
      cases run
      rfl
  | cons s picks ih =>
      simp only [placeHome] at run
      split at run
      · simp only [Option.bind_eq_bind, Option.bind_eq_some_iff] at run
        obtain ⟨e₁, first, run⟩ := run
        rw [ih run, dispatchOne_state first]
      · simp only [Option.bind_eq_bind, Option.bind_eq_some_iff] at run
        obtain ⟨⟨e₁, used₁, left₁⟩, run, eq⟩ := run
        cases eq
        exact ih run

omit [Double D] in
theorem placeRest_state {picks : List Slice} {c : Nat} {e e' : S.Eng} {used : Nat → Bool}
    (run : S.placeRest picks c e used = some e') : e'.state = e.state := by
  induction picks generalizing c e used with
  | nil =>
      cases run
      rfl
  | cons s picks ih =>
      simp only [placeRest] at run
      split at run
      · cases run
      · simp only [Option.bind_eq_bind, Option.bind_eq_some_iff] at run
        obtain ⟨e₁, first, run⟩ := run
        rw [ih run, dispatchOne_state first]

omit [Double D] in
/-- The hook calls of a dispatch are those that its picks come from. -/
theorem dispatch_state {e e' e₁ : S.Eng} {picks : List Slice} (run : S.dispatch e = some e')
    (asked : S.collectPicks ((List.range S.opt.cores).countP fun c => (e.cores c).proc = none) e =
      some (e₁, picks)) : e'.state = e₁.state := by
  by_cases several : 1 < S.opt.cores
  · simp only [dispatch, asked, Option.bind_eq_bind, Option.bind_some, if_pos several,
      Option.bind_eq_some_iff] at run
    obtain ⟨⟨e₂, used, left⟩, home, rest⟩ := run
    rw [placeRest_state rest, placeHome_state home]
  · simp only [dispatch, asked, Option.bind_eq_bind, Option.bind_some, if_neg several] at run
    exact placeRest_state run

omit [Double D] in
/-- The log of the picks. -/
theorem collectPicks_log {nfree : Nat} {e e' : S.logged.Eng} {picks : List Slice}
    (run : S.logged.collectPicks nfree e = some (e', picks)) :
    e'.state.log = (picks.map fun s => ⟨e.now, .slice s⟩).reverse ++ e.state.log := by
  induction nfree generalizing e picks with
  | zero =>
      cases run
      rfl
  | succ nfree ih =>
      simp only [collectPicks, Option.bind_eq_bind, Option.bind_eq_some_iff] at run
      obtain ⟨⟨state, pick⟩, hook, run⟩ := run
      cases pick with
      | none =>
          cases run
          simpa using refuse_log hook
      | some s =>
          simp only [Option.bind_eq_some_iff] at run
          obtain ⟨⟨e₁, picks₁⟩, run, eq⟩ := run
          cases eq
          have first := pick_log hook
          rw [ih run]
          simp only [List.map_cons, List.reverse_cons, List.append_assoc, List.cons_append,
            List.nil_append, first]
          rfl

/-- A dispatch of the main loop, and what it adds to the log. -/
theorem Reached.dispatch_picks {PInv : SchedView D → S.logged.policy.State → Places → Prop}
    {start : S.logged.policy.State} (launched : Launched S.logged PInv start) {e e' : S.logged.Eng}
    (before : Reached S.logged start .settled e) (running : S.logged.running e = true)
    (run : S.logged.dispatch e = some e') :
    ∃ picks seats, Dispatches S.logged e picks seats e' ∧
      e'.state.log = (picks.map fun s => ⟨e.now, .slice s⟩).reverse ++ e.state.log := by
  obtain ⟨sp, course, -⟩ := before.course launched RunInv.true
  obtain ⟨e₁, picks, seats, dispatches⟩ := launched.dispatches course running
    (before.contextsApart launched)
  obtain rfl := Option.some.inj (run.symm.trans dispatches.run)
  obtain ⟨asked_state, asked⟩ := dispatches.asked
  refine ⟨picks, seats, dispatches, ?_⟩
  rw [dispatch_state run asked]
  exact collectPicks_log asked

end Dispatches

/-! ## Running processes between two decisions -/

/-- No process was handed over since the latest pick of a process on a core, unless it
is switching in and flagged, or runs the one tick after such a switch-in. -/
def AloneOn (S : Sim D) (e : S.logged.Eng) : Prop :=
  ∀ c < S.opt.cores, ∀ p k, (e.cores c).proc = some p → latestPick p e.state.log = some k →
    k.alone = true ∨ ((e.cores c).inCs = true ∧ (e.cores c).recheck = true) ∨
      ((e.cores c).inCs = false ∧ (e.cores c).deadline = (e.cores c).runStart + 1 ∧
        k.time < (e.cores c).runStart)

section Runs

variable {PInv : SchedView D → S.logged.policy.State → Places → Prop}
    {state : S.logged.policy.State}
  (launched : Launched S.logged PInv state) (online : S.policy.preemptOnReady = true)
include launched

omit [Double D] in
/-- While a core is busy, the clock has not reached the end of time. -/
theorem Launched.busy_early {a : S.logged.Config} (course : Course PInv .settled a) {c : Nat}
    (hc : c < S.opt.cores) (on : (a.eng.cores c).proc ≠ none) : a.eng.now < int64Max := by
  obtain ⟨budget, sound⟩ := course.sound
  obtain ⟨p, on⟩ := Option.ne_none_iff_exists'.mp on
  obtain ⟨s, seat⟩ := sound.cores.owner c hc p on
  have hp : p < S.logged.w.len := sound.inside (by simp [seat])
  have := course.settled.spotWork_pos launched.valid sound hp (by simp [seat])
  have := sound.fits launched.valid hp
  omega

include online

theorem Reached.aloneOn {point : LoopPoint} {e : S.logged.Eng}
    (reached : Reached S.logged state point e) : AloneOn S e := by
  have valid : S.logged.w.Valid := launched.valid
  have hcs := launched.options.cs_nonneg
  have track := Tracked.runInv (S := S) valid hcs launched.contract
  induction reached with
  | @first e run =>
      obtain ⟨sp, course, -⟩ := (Reached.first run).course launched RunInv.true
      intro c hc p k on _
      have early := launched.busy_early course hc (by simp [on])
      have now_eq : e.now = (S.logged.initEngine state).now := by
        obtain ⟨e', sp', run', events, -⟩ := launched.first (I := fun _ => True)
        cases run.symm.trans run'
        exact events.moves.now_eq
      obtain ⟨-, -, same, -⟩ := processInstant_frame online (e := S.logged.initEngine state)
        (now_eq ▸ early) (fun c _ on => absurd rfl on) run
      have := same c hc (by simp [on])
      rw [on] at this
      cases this
  | @dispatch e e' before running run ih =>
      obtain ⟨picks, seats, dispatches, log⟩ := before.dispatch_picks launched running run
      intro c hc p k on pick
      rw [log] at pick
      rcases latestPick_picks pick with alone | ⟨pick, others⟩
      · exact .inl alone
      · by_cases here : c ∈ seats.map Prod.fst
        · obtain ⟨x, hx, rfl⟩ := List.mem_map.mp here
          have mine := (dispatches.seated.on x hx).1
          have own : x.2.proc = p := Option.some.inj (mine.symm.trans on)
          exact absurd own (others x.2 (dispatches.perm.mem_iff.mp (List.mem_map_of_mem hx)))
        · have same := (dispatches.seated.others c here).1
          rw [same] at on ⊢
          exact ih c hc p k on pick
  | @instant e e' before event run ih =>
      obtain ⟨sp, course, tracked⟩ := before.course launched track
      obtain ⟨sp', course', -⟩ := (Reached.instant before event run).course launched RunInv.true
      obtain ⟨budget, sound⟩ := course.sound
      obtain ⟨gt, -, e₂, sp₂, run₂, events, -⟩ := launched.advance (I := fun _ => True) course
      obtain rfl := Option.some.inj (run.symm.trans run₂)
      have now_eq : e'.now = S.logged.nextEvent e := events.moves.now_eq
      intro c hc p k' on pick'
      have early := launched.busy_early course' hc (by simp [on])
      obtain ⟨-, grown, same, frame⟩ := processInstant_frame online
        (e := { e with now := S.logged.nextEvent e }) (now_eq ▸ early) (fun c hc on runs => by
          obtain ⟨p, on⟩ := Option.ne_none_iff_exists'.mp on
          obtain ⟨s, seat⟩ := sound.cores.owner c hc p on
          obtain ⟨le, -, -, -, busy⟩ := (sound.cores.seat p c s seat).2.2.running runs
          exact ⟨le.trans_lt gt, busy⟩) run
      have on₀ : (e.cores c).proc = some p := (same c hc (by simp [on])).symm.trans on
      obtain ⟨s, seat⟩ := sound.cores.owner c hc p on₀
      obtain ⟨k, pick, slice, core⟩ := tracked.seat p c s seat
      obtain ⟨k₁, pick₁, time, -⟩ := grown.latestPick_kept pick
      obtain rfl := Option.some.inj (pick'.symm.trans pick₁)
      have earlier : k'.time < S.logged.nextEvent e := by
        rw [time]
        exact core.time_le.trans_lt gt
      rcases frame with exempt | ⟨quiet, cores⟩
      · rcases exempt c hc (by simp [on]) with flagged | ⟨runs, start, deadline⟩
        · exact .inr (.inl flagged)
        · exact .inr (.inr ⟨runs, by rw [deadline, start], by rw [start]; exact earlier⟩)
      · have pick : latestPick p e.state.log = some k' := by
          rw [← quiet.latestPick_eq]
          exact pick'
        have here := ih c hc p k' on₀ pick
        rcases cores c hc (by simp [on]) with unchanged | starts
        · rw [unchanged]
          exact here
        · rcases here with alone | ⟨-, flagged⟩ | ⟨runs, -⟩
          · exact .inl alone
          · refine .inr (.inr ⟨starts.runs, ?_, by rw [starts.start_eq]; exact earlier⟩)
            rw [starts.deadline_eq, if_pos (.inl flagged), starts.start_eq]
          · cases runs.symm.trans starts.switching

/-- Process `p` runs on core `c`, and either it has executed a tick of its slice or it
was picked at this instant, which put it to run without a switch-in. -/
structure RunsOn (S : Sim D) (e : S.logged.Eng) (c p : Nat) : Prop where
  core_lt : c < S.opt.cores
  on : (e.cores c).proc = some p
  runs : (e.cores c).inCs = false
  since : (e.cores c).runStart < e.now ∨ ∃ k, latestPick p e.state.log = some k ∧ k.time = e.now

omit online in
/-- Without a switch cost every process on a core has executed a tick of its slice or was
picked at this instant. -/
theorem Reached.runsOn (free : S.opt.csCost = 0) {e : S.logged.Eng}
    (reached : Reached S.logged state .dispatched e) {c p : Nat} (hc : c < S.opt.cores)
    (on : (e.cores c).proc = some p) : RunsOn S e c p := by
  have track := Tracked.runInv (S := S) launched.valid launched.options.cs_nonneg launched.contract
  obtain ⟨sp, course, tracked⟩ := reached.course launched track
  obtain ⟨budget, sound⟩ := course.sound
  obtain ⟨s, seat⟩ := sound.cores.owner c hc p on
  obtain ⟨k, pick, -, core⟩ := tracked.seat p c s seat
  obtain ⟨runs, time⟩ := core.free free
  refine ⟨hc, on, runs, ?_⟩
  rcases core.time_le.lt_or_eq with earlier | now
  · exact .inl (time ▸ earlier)
  · exact .inr ⟨k, pick, now⟩

/-- After a dispatch no process has been handed over since the pick of a running one,
and its deadline has not come. -/
theorem Reached.alone {I : S.logged.Config → Prop} (keeps : RunInv S.logged PInv I)
    {e : S.logged.Eng} (reached : Reached S.logged state .dispatched e) :
    ∃ sp, Course PInv .dispatched ⟨e, sp⟩ ∧ I ⟨e, sp⟩ ∧ ∀ c p, RunsOn S e c p →
      ∃ s time, sp p = .core c s ∧ latestPick p e.state.log = some ⟨time, s, true⟩ ∧
        e.now < s.deadline := by
  have track := Tracked.runInv (S := S) launched.valid launched.options.cs_nonneg launched.contract
  obtain ⟨sp, course, tracked, kept⟩ := reached.course launched (track.and keeps)
  refine ⟨sp, course, kept, fun c p runsOn => ?_⟩
  obtain ⟨budget, sound⟩ := course.sound
  obtain ⟨hc, on, runs, since⟩ := runsOn
  obtain ⟨s, seat⟩ := sound.cores.owner c hc p on
  obtain ⟨k, pick, slice, core⟩ := tracked.seat p c s seat
  obtain ⟨le, -, -, -, busy⟩ := (sound.cores.seat p c s seat).2.2.running runs
  have cut := course.settled.cuts c p s seat runs
  have notTick : ¬((e.cores c).deadline = (e.cores c).runStart + 1 ∧
      k.time < (e.cores c).runStart) := by
    rintro ⟨deadline, time⟩
    simp only at le cut busy
    rcases since with started | ⟨k', pick', now_eq⟩
    · omega
    · obtain rfl := Option.some.inj (pick.symm.trans pick')
      omega
  have alone : k.alone = true := by
    rcases reached.aloneOn launched online c hc p k on pick with alone | ⟨switching, -⟩ | ⟨-, tick⟩
    · exact alone
    · cases runs.symm.trans switching
    · exact absurd tick notTick
  have deadline : (e.cores c).deadline = k.slice.deadline :=
    (core.running runs).resolve_right notTick
  refine ⟨s, k.time, seat, ?_, ?_⟩
  · rw [pick, ← slice, ← alone]
  · simp only at cut busy
    rw [← slice]
    omega

end Runs

end Sim

end CpuSched
