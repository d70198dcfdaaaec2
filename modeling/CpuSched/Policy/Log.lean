import CpuSched.Engine.Projection

/-!
# The calls of the hooks

`Policy.logged` is a policy that also keeps the list of the hook calls made so
far, with their times and arguments; calls of `next_slice` that return nothing are
left out.  The engine cannot tell the two apart, so the log of a run tells what
the engine does to the policy.
-/

namespace CpuSched

variable {D : Type}

/-- A call of a hook that is not null. -/
inductive HookCall
  | arrival (proc : Nat)
  | ready (proc : Nat)
  /-- `next_slice` returned `slice`. -/
  | slice (slice : Slice)
  | preempt (proc : Nat) (ran : Int)
  | block (proc : Nat) (ran : Int)
  | complete (proc : Nat) (ran : Int)
  deriving DecidableEq

/-- A hook call and the time of the view it got. -/
structure TimedCall where
  now : Int
  call : HookCall
  deriving DecidableEq

/-- The state of a policy and the calls that led to it, the newest first. -/
structure Logged (σ : Type) where
  state : σ
  log : List TimedCall

/-- What a successful call leaves. -/
def Logged.push {σ : Type} (s : Logged σ) (v : SchedView D) (call : HookCall) (state : σ) :
    Logged σ :=
  ⟨state, ⟨v.now, call⟩ :: s.log⟩

/-- The log of a call of `next_slice`. -/
def Logged.pushSlice {σ : Type} (s : Logged σ) (v : SchedView D) :
    σ × Option Slice → Logged σ × Option Slice
  | (state, none) => (⟨state, s.log⟩, none)
  | (state, some slice) => (s.push v (.slice slice) state, some slice)

/-- A hook of three arguments, logged. -/
def logHook {σ : Type} (call : Nat → Int → HookCall)
    (f : SchedView D → σ → Nat → Int → Option σ) (v : SchedView D) (s : Logged σ) (p : Nat)
    (ran : Int) : Option (Logged σ) :=
  (f v s.state p ran).map (s.push v (call p ran))

/-- The policy that logs its calls. -/
def Policy.logged (P : Policy D) : Policy D where
  State := Logged P.State
  name := P.name
  preemptive := P.preemptive
  preemptOnReady := P.preemptOnReady
  usesQuantum := P.usesQuantum
  usesEstimates := P.usesEstimates
  workConserving := P.workConserving
  offline := P.offline
  create v params := (P.create v params).map fun state => ⟨state, []⟩
  onArrival v s p := (P.onArrival v s.state p).map (s.push v (.arrival p))
  onReady := P.onReady.map fun f v s p => (f v s.state p).map (s.push v (.ready p))
  nextSlice v s := (P.nextSlice v s.state).map (s.pushSlice v)
  onPreempt := P.onPreempt.map (logHook .preempt)
  onBlock := P.onBlock.map (logHook .block)
  onComplete := P.onComplete.map (logHook .complete)

theorem optCall_logged {σ : Type} (call : Nat → Int → HookCall)
    (f : Option (SchedView D → σ → Nat → Int → Option σ)) (v : SchedView D) (s : Logged σ) (p : Nat)
    (ran : Int) : optCall f v s.state p ran =
      (optCall (f.map (logHook call)) v s p ran).map Logged.state := by
  cases f with
  | none => rfl
  | some f =>
      simp only [optCall, Option.map_some, logHook, Option.map_map]
      exact Option.map_id'.symm

/-- Logging changes nothing but the log. -/
theorem Policy.logged_projects (P : Policy D) : P.logged.Projects P Logged.state where
  name_eq := rfl
  preemptOnReady_eq := rfl
  usesQuantum_eq := rfl
  create v params := by
    simp only [logged]
    cases P.create v params <;> rfl
  onArrival v s p := by
    simp only [logged, Option.map_map]
    exact Option.map_id'.symm
  wakeHook v s p := by
    unfold wakeHook logged
    cases P.onReady
    all_goals
      simp only [Option.map_none, Option.map_some, Option.getD, Option.map_map]
      exact Option.map_id'.symm
  nextSlice v s := by
    simp only [logged, Option.map_map]
    cases P.nextSlice v s.state with
    | none => rfl
    | some r => rcases r with ⟨state, _ | slice⟩ <;> rfl
  preempt_none := by simp [logged]
  onPreempt v s p ran g h hg hh := by
    simp only [logged, hg, Option.map_some] at hh
    obtain rfl := Option.some.inj hh
    simp only [logHook]
    cases g v s.state p ran <;> rfl
  onBlock v s p ran := optCall_logged .block P.onBlock v s p ran
  onComplete v s p ran := optCall_logged .complete P.onComplete v s p ran

/-! ## What the log says about the ready set -/

/-- The processes handed over and not yet returned by `next_slice`, replayed from
the log; `none` if a hook hands over a process that is in the set already, or
`next_slice` returns one that is not. -/
def queued : List TimedCall → Option (List Nat)
  | [] => some []
  | call :: before => (queued before).bind fun ready =>
      match call.call with
      | .arrival p => if p ∈ ready then none else some (p :: ready)
      | .ready p => if p ∈ ready then none else some (p :: ready)
      | .preempt p _ => if p ∈ ready then none else some (p :: ready)
      | .slice s => if s.proc ∈ ready then some (ready.erase s.proc) else none
      | .block _ _ => some ready
      | .complete _ _ => some ready

/-- The log replays to the ready processes. -/
def LogOk (log : List TimedCall) (pl : Places) : Prop :=
  ∃ ready, queued log = some ready ∧ Holds pl ready

namespace LogOk

variable {log : List TimedCall} {pl : Places} {p : Nat} {now : Int}

theorem handOver {call : HookCall} (ok : LogOk log pl) (notReady : pl p ≠ .ready)
    (kind : call = .arrival p ∨ call = .ready p ∨ ∃ ran, call = .preempt p ran) :
    LogOk (⟨now, call⟩ :: log) (pl.move p .ready) := by
  obtain ⟨ready, replay, holds⟩ := ok
  have outside : p ∉ ready := fun mem => notReady ((holds.mem_iff p).mp mem)
  refine ⟨p :: ready, ?_, holds.push notReady⟩
  rcases kind with rfl | rfl | ⟨ran, rfl⟩ <;> simp [queued, replay, outside]

theorem takeOut {s : Slice} (ok : LogOk log pl) (isReady : pl s.proc = .ready) :
    LogOk (⟨now, .slice s⟩ :: log) (pl.move s.proc (.out s)) := by
  obtain ⟨ready, replay, holds⟩ := ok
  have mem := (holds.mem_iff s.proc).mpr isReady
  refine ⟨ready.erase s.proc, by simp [queued, replay, mem], ?_⟩
  exact ((holds.perm (List.perm_cons_erase mem).symm).pop (by simp)).2

theorem leave {call : HookCall} {place : Place} (ok : LogOk log pl) (notReady : pl p ≠ .ready)
    (stays : place ≠ .ready) (kind : ∃ ran, call = .block p ran ∨ call = .complete p ran) :
    LogOk (⟨now, call⟩ :: log) (pl.move p place) := by
  obtain ⟨ready, replay, holds⟩ := ok
  obtain ⟨ran, rfl | rfl⟩ := kind
  · exact ⟨ready, by simp [queued, replay], holds.other notReady stays⟩
  · exact ⟨ready, by simp [queued, replay], holds.other notReady stays⟩

theorem silent {place : Place} (ok : LogOk log pl) (notReady : pl p ≠ .ready)
    (stays : place ≠ .ready) : LogOk log (pl.move p place) := by
  obtain ⟨ready, replay, holds⟩ := ok
  exact ⟨ready, replay, holds.other notReady stays⟩

end LogOk

/-- The contract invariant of a logged policy. -/
structure LoggedInv {σ : Type} (Inv : SchedView D → σ → Places → Prop) (v : SchedView D)
    (s : Logged σ) (pl : Places) : Prop where
  inv : Inv v s.state pl
  log : LogOk s.log pl

/-- An optional hook that reports a process off its core, logged. -/
theorem optCall_logged_spec {σ : Type} {Inv : SchedView D → σ → Places → Prop}
    {call : Nat → Int → HookCall} {f : Option (SchedView D → σ → Nat → Int → Option σ)}
    {v : SchedView D} {s : Logged σ} {pl : Places} {p : Nat} {ran : Int} {place : Place}
    (kind : call p ran = .block p ran ∨ call p ran = .complete p ran) (log : LogOk s.log pl)
    (notReady : pl p ≠ .ready) (stays : place ≠ .ready)
    (run : ∃ s', optCall f v s.state p ran = some s' ∧ Inv v s' (pl.move p place)) :
    ∃ s', optCall (f.map (logHook call)) v s p ran = some s' ∧
      LoggedInv Inv v s' (pl.move p place) := by
  obtain ⟨s', run, inv⟩ := run
  cases f with
  | none =>
      obtain rfl : s.state = s' := Option.some.inj run
      exact ⟨s, rfl, inv, log.silent notReady stays⟩
  | some f =>
      refine ⟨s.push v (call p ran) s', ?_, inv, log.leave notReady stays ⟨ran, kind⟩⟩
      simp only [optCall] at run
      simp only [Option.map_some, optCall, logHook, run]

/-- A logged policy keeps the contract, and its log replays to the ready
processes. -/
theorem Contract.logged {w : Workload} {P : Policy D} {Inv : SchedView D → P.State → Places → Prop}
    (contract : Contract w P Inv) : Contract w P.logged (LoggedInv Inv) where
  interruptible hook := contract.interruptible (by simpa [Policy.logged] using hook)
  view inv ok ok' step := ⟨contract.view inv.inv ok ok' step, inv.log⟩
  arrival {v s pl p} inv ok hp new pos := by
    obtain ⟨s', run, inv'⟩ := contract.arrival inv.inv ok hp new pos
    exact ⟨s.push v (.arrival p) s', by simp [Policy.logged, run], inv',
      inv.log.handOver (by simp [new]) (.inl rfl)⟩
  wake {v s pl p} inv ok blocked pos := by
    obtain ⟨s', run, inv'⟩ := contract.wake inv.inv ok blocked pos
    cases ready : P.onReady with
    | none =>
        rw [Policy.wakeHook, ready, Option.getD_none] at run
        exact ⟨s.push v (.arrival p) s', by simp [Policy.wakeHook, Policy.logged, ready, run], inv',
          inv.log.handOver (by simp [blocked]) (.inl rfl)⟩
    | some f =>
        rw [Policy.wakeHook, ready, Option.getD_some] at run
        exact ⟨s.push v (.ready p) s', by simp [Policy.wakeHook, Policy.logged, ready, run], inv',
          inv.log.handOver (by simp [blocked]) (.inr (.inl rfl))⟩
  next {v s pl} inv ok early := by
    obtain ⟨s', r, run, next⟩ := contract.next inv.inv ok early
    refine ⟨(s.pushSlice v (s', r)).1, r, ?_, ?_⟩
    · simp only [Policy.logged, run, Option.map_some]
      cases r <;> rfl
    · cases r with
      | none => exact ⟨⟨next.1, inv.log⟩, next.2⟩
      | some slice =>
          obtain ⟨ready, length_pos, later, le, whole, inv'⟩ := next
          exact ⟨ready, length_pos, later, le,
            fun h => whole (by simpa [Policy.logged] using h), inv', inv.log.takeOut ready⟩
  preempt {v s pl p slice ran f} inv ok out one le pos hook := by
    cases source : P.onPreempt with
    | none => simp [Policy.logged, source] at hook
    | some g =>
        obtain ⟨s', run, inv'⟩ := contract.preempt inv.inv ok out one le pos source
        simp only [Policy.logged, source, Option.map_some] at hook
        obtain rfl := Option.some.inj hook
        exact ⟨s.push v (.preempt p ran) s', by
            simp only [logHook, run, Option.map_some]
            rfl, inv',
          inv.log.handOver (by simp [out]) (.inr (.inr ⟨ran, rfl⟩))⟩
  block inv ok out one le more :=
    optCall_logged_spec (.inl rfl) inv.log (by simp [out]) (by simp)
      (contract.block inv.inv ok out one le more)
  complete inv ok out one le :=
    optCall_logged_spec (.inr rfl) inv.log (by simp [out]) (by simp)
      (contract.complete inv.inv ok out one le)

end CpuSched
