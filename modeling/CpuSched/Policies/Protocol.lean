import CpuSched.Policies.RegistryContract
import CpuSched.Policy.Kept

/-!
# The built-in policies under the call protocol

`include/sched/policy.h` describes the calls that an engine may make.  `Protocol`
is every sequence of such calls, whatever engine makes them: the view may change
between two calls as long as the clock does not go back and the fields of a
ready process stay, and each call is one that the places of the processes
admit.  In every state that such calls reach, a built-in policy stores exactly
the ready processes, answers every admitted call, and picks one of the processes
it stores.
-/

namespace CpuSched

variable {D : Type} [Double D] {w : Workload} {params : PolicyParams}

/-! ## The calls -/

/-- `p` is new and has work: it may be reported as arrived, once. -/
structure MayArrive (w : Workload) (v : SchedView D) (pl : Places) (p : Nat) : Prop where
  inside : p < w.len
  new : pl p = .new
  pos : 0 < v.remaining p

/-- `p` is blocked and has work: it may be woken. -/
structure MayWake (v : SchedView D) (pl : Places) (p : Nat) : Prop where
  blocked : pl p = .blocked
  pos : 0 < v.remaining p

/-- `p` was returned by `next_slice` and has run for `ran` ticks of its slice. -/
def Ran (pl : Places) (p : Nat) (ran : Int) : Prop :=
  ∃ slice, pl p = .out slice ∧ 1 ≤ ran ∧ ran ≤ slice.length

/-- The states a policy reaches by calls that follow the protocol, with the view
lent last and the place of every process after these calls. -/
inductive Protocol (w : Workload) (P : Policy D) (params : PolicyParams) :
    SchedView D → P.State → Places → Prop
  | create {v s} (view : ViewOk w v fun _ => .new) (run : P.create v params = .ok s) :
      Protocol w P params v s fun _ => .new
  /-- The engine lends another view. -/
  | lend {v v' s pl} (before : Protocol w P params v s pl) (view : ViewOk w v' pl)
      (step : ViewStep pl v v') : Protocol w P params v' s pl
  | arrival {v s s' pl p} (before : Protocol w P params v s pl) (call : MayArrive w v pl p)
      (run : P.onArrival v s p = some s') : Protocol w P params v s' (pl.move p .ready)
  | wake {v s s' pl p} (before : Protocol w P params v s pl) (call : MayWake v pl p)
      (run : P.wakeHook v s p = some s') : Protocol w P params v s' (pl.move p .ready)
  | next {v s s' pl r} (before : Protocol w P params v s pl) (early : v.now < int64Max)
      (run : P.nextSlice v s = some (s', r)) : Protocol w P params v s' (pl.afterNext r)
  | preempt {v s s' pl p ran f} (before : Protocol w P params v s pl) (call : Ran pl p ran)
      (pos : 0 < v.remaining p) (hook : P.onPreempt = some f) (run : f v s p ran = some s') :
      Protocol w P params v s' (pl.move p .ready)
  | block {v s s' pl p ran} (before : Protocol w P params v s pl) (call : Ran pl p ran)
      (more : 1 < (w.proc p).phaseCount) (run : optCall P.onBlock v s p ran = some s') :
      Protocol w P params v s' (pl.move p .blocked)
  | complete {v s s' pl p ran} (before : Protocol w P params v s pl) (call : Ran pl p ran)
      (run : optCall P.onComplete v s p ran = some s') :
      Protocol w P params v s' (pl.move p .done)

/-! ## Sequences of calls -/

/-- A call of a hook, whether the policy has it or not. -/
inductive Call
  | arrival (p : Nat)
  | wake (p : Nat)
  | next
  | preempt (p : Nat) (ran : Int)
  | block (p : Nat) (ran : Int)
  | complete (p : Nat) (ran : Int)

/-- The protocol allows the call. -/
def Call.Allowed (w : Workload) (v : SchedView D) (pl : Places) : Call → Prop
  | arrival p => MayArrive w v pl p
  | wake p => MayWake v pl p
  | next => v.now < int64Max
  | preempt p ran => Ran pl p ran ∧ 0 < v.remaining p
  | block p ran => Ran pl p ran ∧ 1 < (w.proc p).phaseCount
  | complete p ran => Ran pl p ran

/-- Where the call leaves the processes when `next_slice` returns `r`. -/
def Call.after (pl : Places) (r : Option Slice) : Call → Places
  | arrival p => pl.move p .ready
  | wake p => pl.move p .ready
  | next => pl.afterNext r
  | preempt p _ => pl.move p .ready
  | block p _ => pl.move p .blocked
  | complete p _ => pl.move p .done

/-- The state after the call, and what `next_slice` returns. -/
def Policy.call (P : Policy D) (v : SchedView D) (s : P.State) : Call →
    Option (P.State × Option Slice)
  | .arrival p => (P.onArrival v s p).map fun s' => (s', none)
  | .wake p => (P.wakeHook v s p).map fun s' => (s', none)
  | .next => P.nextSlice v s
  | .preempt p ran => P.onPreempt.bind fun f => (f v s p ran).map fun s' => (s', none)
  | .block p ran => (optCall P.onBlock v s p ran).map fun s' => (s', none)
  | .complete p ran => (optCall P.onComplete v s p ran).map fun s' => (s', none)

/-- The process and the length of a slice. -/
def Slice.choice (slice : Slice) : Nat × Int := (slice.proc, slice.length)

/-- The process and length that each call returns, with the views lent for the calls. -/
def Policy.answers (P : Policy D) : P.State → List (SchedView D × Call) →
    Option (List (Option (Nat × Int)))
  | _, [] => some []
  | s, (v, c) :: rest =>
      (P.call v s c).bind fun (s', r) => (P.answers s' rest).map fun answers =>
        r.map Slice.choice :: answers

/-- The calls follow the protocol from the state `s` on. -/
def FollowsProtocol (w : Workload) (P : Policy D) :
    SchedView D → P.State → Places → List (SchedView D × Call) → Prop
  | _, _, _, [] => True
  | v, s, pl, (v', c) :: rest => ViewOk w v' pl ∧ ViewStep pl v v' ∧ c.Allowed w v' pl ∧
      ∀ s' r, P.call v' s c = some (s', r) → FollowsProtocol w P v' s' (c.after pl r) rest

omit [Double D] in
/-- An allowed call is one of the protocol. -/
theorem Protocol.call {P : Policy D} {v : SchedView D} {s s' : P.State} {pl : Places} {c : Call}
    {r : Option Slice} (before : Protocol w P params v s pl) (allowed : c.Allowed w v pl)
    (run : P.call v s c = some (s', r)) : Protocol w P params v s' (c.after pl r) := by
  cases c with
  | arrival p =>
      obtain ⟨s₁, called, eq⟩ := Option.map_eq_some_iff.mp run
      cases eq
      exact .arrival before allowed called
  | wake p =>
      obtain ⟨s₁, called, eq⟩ := Option.map_eq_some_iff.mp run
      cases eq
      exact .wake before allowed called
  | next => exact .next before allowed run
  | preempt p ran =>
      obtain ⟨f, hook, run⟩ := Option.bind_eq_some_iff.mp run
      obtain ⟨s₁, called, eq⟩ := Option.map_eq_some_iff.mp run
      cases eq
      exact .preempt before allowed.1 allowed.2 hook called
  | block p ran =>
      obtain ⟨s₁, called, eq⟩ := Option.map_eq_some_iff.mp run
      cases eq
      exact .block before allowed.1 allowed.2 called
  | complete p ran =>
      obtain ⟨s₁, called, eq⟩ := Option.map_eq_some_iff.mp run
      cases eq
      exact .complete before allowed called

/-- The view lent last. -/
def lastView : SchedView D → List (SchedView D × Call) → SchedView D
  | v, [] => v
  | _, (v, _) :: rest => lastView v rest

/-- The state and the places after the calls. -/
def Policy.afterCalls (P : Policy D) : P.State → Places → List (SchedView D × Call) →
    Option (P.State × Places)
  | s, pl, [] => some (s, pl)
  | s, pl, (v, c) :: rest =>
      (P.call v s c).bind fun called => P.afterCalls called.1 (c.after pl called.2) rest

omit [Double D] in
theorem ViewStep.refl (pl : Places) (v : SchedView D) : ViewStep pl v v :=
  ⟨rfl, rfl, rfl, rfl, le_rfl, Iff.rfl, fun _ _ => rfl, fun _ _ => rfl, fun _ _ => rfl⟩

omit [Double D] in
theorem ViewStep.trans {pl : Places} {v₁ v₂ v₃ : SchedView D} (first : ViewStep pl v₁ v₂)
    (second : ViewStep pl v₂ v₃) : ViewStep pl v₁ v₃ where
  procs_eq := second.procs_eq.trans first.procs_eq
  n_eq := second.n_eq.trans first.n_eq
  cores_eq := second.cores_eq.trans first.cores_eq
  csCost_eq := second.csCost_eq.trans first.csCost_eq
  now_le := first.now_le.trans second.now_le
  oracle_iff := second.oracle_iff.trans first.oracle_iff
  remaining_eq p ready := (second.remaining_eq p ready).trans (first.remaining_eq p ready)
  burstLen_eq p ready := (second.burstLen_eq p ready).trans (first.burstLen_eq p ready)
  predicted_eq p ready := (second.predicted_eq p ready).trans (first.predicted_eq p ready)

omit [Double D] in
/-- One more call. -/
theorem FollowsProtocol.snoc {P : Policy D} {v₀ v : SchedView D} {s₀ s s' : P.State}
    {pl₀ pl : Places} {calls : List (SchedView D × Call)} {c : Call} {r : Option Slice}
    (follows : FollowsProtocol w P v₀ s₀ pl₀ calls)
    (after : P.afterCalls s₀ pl₀ calls = some (s, pl)) (ok : ViewOk w v pl)
    (step : ViewStep pl (lastView v₀ calls) v) (allowed : c.Allowed w v pl)
    (run : P.call v s c = some (s', r)) :
    FollowsProtocol w P v₀ s₀ pl₀ (calls ++ [(v, c)]) ∧
      P.afterCalls s₀ pl₀ (calls ++ [(v, c)]) = some (s', c.after pl r) ∧
      lastView v₀ (calls ++ [(v, c)]) = v := by
  induction calls generalizing v₀ s₀ pl₀ with
  | nil =>
      obtain ⟨rfl, rfl⟩ := Prod.mk.inj (Option.some.inj after)
      refine ⟨⟨ok, step, allowed, fun _ _ _ => trivial⟩, ?_, rfl⟩
      rw [List.nil_append, Policy.afterCalls, run]
      rfl
  | cons first rest ih =>
      obtain ⟨v₁, c₁⟩ := first
      obtain ⟨ok₁, step₁, allowed₁, goesOn⟩ := follows
      obtain ⟨⟨s₁, r₁⟩, called, after⟩ := Option.bind_eq_some_iff.mp after
      obtain ⟨follows', after', last⟩ := ih (goesOn s₁ r₁ called) after step
      refine ⟨⟨ok₁, step₁, allowed₁, fun s₂ r₂ called' => ?_⟩, ?_, last⟩
      · obtain ⟨rfl, rfl⟩ := Prod.mk.inj (Option.some.inj (called.symm.trans called'))
        exact follows'
      · rw [List.cons_append, Policy.afterCalls, called]
        exact after'

/-- The calls that led to a state. -/
structure CameBy (w : Workload) (P : Policy D) (params : PolicyParams) (v : SchedView D)
    (s : P.State) (pl : Places) (v₀ : SchedView D) (s₀ : P.State)
    (calls : List (SchedView D × Call)) : Prop where
  view : ViewOk w v₀ fun _ => .new
  created : P.create v₀ params = .ok s₀
  follows : FollowsProtocol w P v₀ s₀ (fun _ => .new) calls
  after : P.afterCalls s₀ (fun _ => .new) calls = some (s, pl)
  step : ViewStep pl (lastView v₀ calls) v
  clock : ∀ x ∈ calls, x.1.now ≤ v.now

omit [Double D] in
theorem CameBy.call {P : Policy D} {v v₀ : SchedView D} {s s' s₀ : P.State} {pl : Places}
    {calls : List (SchedView D × Call)} {c : Call} {r : Option Slice}
    (came : CameBy w P params v s pl v₀ s₀ calls) (ok : ViewOk w v pl)
    (allowed : c.Allowed w v pl) (run : P.call v s c = some (s', r)) :
    CameBy w P params v s' (c.after pl r) v₀ s₀ (calls ++ [(v, c)]) := by
  obtain ⟨follows, after, last⟩ := came.follows.snoc came.after ok came.step allowed run
  refine ⟨came.view, came.created, follows, after, ?_, fun x mem => ?_⟩
  · rw [last]
    exact .refl _ _
  · rcases List.mem_append.mp mem with mem | mem
    · exact came.clock x mem
    · rw [List.mem_singleton.mp mem]

omit [Double D] in
/-- A state of the protocol is reached by a sequence of calls that follows it. -/
theorem Protocol.cameBy {P : Policy D} {v : SchedView D} {s : P.State} {pl : Places}
    (ok : ∀ {v s pl}, Protocol w P params v s pl → ViewOk w v pl)
    (run : Protocol w P params v s pl) : ∃ v₀ s₀ calls, CameBy w P params v s pl v₀ s₀ calls := by
  induction run with
  | @create v s view run =>
      exact ⟨v, s, [], view, run, trivial, rfl, .refl _ _, fun _ mem => by cases mem⟩
  | lend before view step ih =>
      obtain ⟨v₀, s₀, calls, came⟩ := ih
      exact ⟨v₀, s₀, calls, { came with
        step := came.step.trans step
        clock := fun x mem => (came.clock x mem).trans step.now_le }⟩
  | @arrival v s s' pl p before call run ih =>
      obtain ⟨v₀, s₀, calls, came⟩ := ih
      exact ⟨v₀, s₀, _, came.call (c := .arrival p) (ok before) call
        (Option.map_eq_some_iff.mpr ⟨s', run, rfl⟩)⟩
  | @wake v s s' pl p before call run ih =>
      obtain ⟨v₀, s₀, calls, came⟩ := ih
      exact ⟨v₀, s₀, _, came.call (c := .wake p) (ok before) call
        (Option.map_eq_some_iff.mpr ⟨s', run, rfl⟩)⟩
  | next before early run ih =>
      obtain ⟨v₀, s₀, calls, came⟩ := ih
      exact ⟨v₀, s₀, _, came.call (c := .next) (ok before) early run⟩
  | @preempt v s s' pl p ran f before call pos hook run ih =>
      obtain ⟨v₀, s₀, calls, came⟩ := ih
      exact ⟨v₀, s₀, _, came.call (c := .preempt p ran) (ok before) ⟨call, pos⟩
        (Option.bind_eq_some_iff.mpr ⟨f, hook, Option.map_eq_some_iff.mpr ⟨s', run, rfl⟩⟩)⟩
  | @block v s s' pl p ran before call more run ih =>
      obtain ⟨v₀, s₀, calls, came⟩ := ih
      exact ⟨v₀, s₀, _, came.call (c := .block p ran) (ok before) ⟨call, more⟩
        (Option.map_eq_some_iff.mpr ⟨s', run, rfl⟩)⟩
  | @complete v s s' pl p ran before call run ih =>
      obtain ⟨v₀, s₀, calls, came⟩ := ih
      exact ⟨v₀, s₀, _, came.call (c := .complete p ran) (ok before) call
        (Option.map_eq_some_iff.mpr ⟨s', run, rfl⟩)⟩

/-- Along the calls `I` holds of every state and `Q` of every call. -/
def Policy.Throughout (P : Policy D) (I : P.State → Places → Prop)
    (Q : SchedView D → P.State → Call → Prop) : P.State → Places → List (SchedView D × Call) → Prop
  | s, pl, [] => I s pl
  | s, pl, (v, c) :: rest => I s pl ∧ Q v s c ∧
      ∀ s' r, P.call v s c = some (s', r) → P.Throughout I Q s' (c.after pl r) rest

omit [Double D] in
/-- Two properties of the calls that agree in every state that the protocol reaches agree
along all calls that follow it; `V` restricts the views. -/
theorem Protocol.throughout_iff {P : Policy D} {I : P.State → Places → Prop}
    {Q R : SchedView D → P.State → Call → Prop} {V : SchedView D → Prop}
    (inv : ∀ {v s pl}, Protocol w P params v s pl → I s pl)
    (step : ∀ {v s pl c}, Protocol w P params v s pl → c.Allowed w v pl → V v → (Q v s c ↔ R v s c))
    {calls : List (SchedView D × Call)} {v : SchedView D} {s : P.State} {pl : Places}
    (run : Protocol w P params v s pl) (follows : FollowsProtocol w P v s pl calls)
    (views : ∀ x ∈ calls, V x.1) :
    P.Throughout I Q s pl calls ↔ P.Throughout (fun _ _ => True) R s pl calls := by
  induction calls generalizing v s pl with
  | nil => exact ⟨fun _ => trivial, fun _ => inv run⟩
  | cons x rest ih =>
      obtain ⟨v', c⟩ := x
      obtain ⟨ok, lent, allowed, goesOn⟩ := follows
      have here := Protocol.lend run ok lent
      have agree := step here allowed (views _ List.mem_cons_self)
      have after := fun s' r called => ih (here.call allowed called) (goesOn s' r called)
        fun x hx => views x (List.mem_cons_of_mem _ hx)
      constructor
      · rintro ⟨-, first, others⟩
        exact ⟨trivial, agree.mp first, fun s' r called => (after s' r called).mp
          (others s' r called)⟩
      · rintro ⟨-, first, others⟩
        exact ⟨inv run, agree.mpr first, fun s' r called => (after s' r called).mpr
          (others s' r called)⟩

/-! ## What the policies keep -/

/-- What a call of `next_slice` that ends in `s'` may return: a process of the
ready structure, which it removes, for a positive time and until a later
instant; nothing only when no process is ready, but for `opt-np`. -/
def PickOk (B : BuiltInPolicy D) (v : SchedView D) (pl : Places) (s s' : B.policy.State) :
    Option Slice → Prop
  | none => (∀ p, pl p ≠ .ready) ∨ B.policy.name = "opt-np"
  | some slice =>
      pl slice.proc = .ready ∧ 0 < slice.length ∧ v.now < slice.deadline ∧
        ∃ ready left, B.stores s ready ∧ B.stores s' left ∧ ready.Perm (slice.proc :: left)

/-- The interface contract in one state: the structure stores the ready
processes, each once, and every admitted call succeeds. -/
structure Keeps (w : Workload) (B : BuiltInPolicy D) (v : SchedView D) (s : B.policy.State)
    (pl : Places) : Prop where
  stored : ∃ ready, B.stores s ready ∧ Holds pl ready
  arrival : ∀ p, MayArrive w v pl p → ∃ s', B.policy.onArrival v s p = some s'
  wake : ∀ p, MayWake v pl p → ∃ s', B.policy.wakeHook v s p = some s'
  next : v.now < int64Max → ∃ s' r, B.policy.nextSlice v s = some (s', r) ∧ PickOk B v pl s s' r
  preempt : ∀ p ran f, Ran pl p ran → 0 < v.remaining p → B.policy.onPreempt = some f →
    ∃ s', f v s p ran = some s'
  block : ∀ p ran, Ran pl p ran → 1 < (w.proc p).phaseCount →
    ∃ s', optCall B.policy.onBlock v s p ran = some s'
  complete : ∀ p ran, Ran pl p ran → ∃ s', optCall B.policy.onComplete v s p ran = some s'

/-- Only `opt-np` may idle while processes are ready. -/
theorem builtIn_mayIdle {realloc : Nat → Bool} {B : BuiltInPolicy D}
    (builtIn : B ∈ builtInPolicies realloc) (idles : B.policy.workConserving = false) :
    B.policy.name = "opt-np" := by
  simp only [builtInPolicies, List.mem_cons, List.not_mem_nil, or_false] at builtIn
  rcases builtIn with rfl | rfl | rfl | rfl | rfl | rfl | rfl | rfl | rfl | rfl | rfl | rfl
  case inr.inr.inr.inr.inr.inr.inr.inr.inr.inr.inr => rfl
  all_goals cases idles

omit [Double D] in
theorem ViewOk.move {v : SchedView D} {pl : Places} {p : Nat} {z : Place} (ok : ViewOk w v pl)
    (hp : p < w.len) (pos : z = .ready → 0 < v.remaining p) : ViewOk w v (pl.move p z) where
  procs_eq := ok.procs_eq
  n_eq := ok.n_eq
  now_nonneg := ok.now_nonneg
  ready_pos q ready := by
    by_cases same : q = p
    · subst same
      exact pos (by simpa using ready)
    · exact ok.ready_pos q (by simpa [same] using ready)
  outside q known := by
    by_cases same : q = p
    · exact same ▸ hp
    · exact ok.outside q (by simpa [same] using known)

omit [Double D] in
theorem Ran.inside {v : SchedView D} {pl : Places} {p : Nat} {ran : Int} (call : Ran pl p ran)
    (ok : ViewOk w v pl) : p < w.len := by
  obtain ⟨slice, out, -⟩ := call
  exact ok.outside p (by simp [out])

omit [Double D] in
/-- A contract invariant that the policy starts with holds along every sequence of calls;
it may depend on how the policy was created. -/
theorem Protocol.inv_of {P : Policy D} {Q : (SchedView D → P.State → Places → Prop) → Prop}
    {v : SchedView D} {s : P.State} {pl : Places} (run : Protocol w P params v s pl)
    (start : ∀ (v : SchedView D) s, ViewOk w v (fun _ => .new) → P.create v params = .ok s →
      ∃ Inv, Q Inv ∧ Contract w P Inv ∧ Inv v s fun _ => .new) :
    ∃ Inv, Q Inv ∧ Contract w P Inv ∧ Inv v s pl ∧ ViewOk w v pl := by
  induction run with
  | create view run =>
      obtain ⟨Inv, q, contract, start⟩ := start _ _ view run
      exact ⟨Inv, q, contract, start, view⟩
  | lend before view step ih =>
      obtain ⟨Inv, q, contract, inv, ok⟩ := ih
      exact ⟨Inv, q, contract, contract.view inv ok view step, view⟩
  | arrival before call run ih =>
      obtain ⟨Inv, q, contract, inv, ok⟩ := ih
      obtain ⟨s', run', inv'⟩ := contract.arrival inv ok call.inside call.new call.pos
      obtain rfl := Option.some.inj (run.symm.trans run')
      exact ⟨Inv, q, contract, inv', ok.move call.inside fun _ => call.pos⟩
  | wake before call run ih =>
      obtain ⟨Inv, q, contract, inv, ok⟩ := ih
      obtain ⟨s', run', inv'⟩ := contract.wake inv ok call.blocked call.pos
      obtain rfl := Option.some.inj (run.symm.trans run')
      have inside := ok.outside _ (by rw [call.blocked]; simp)
      exact ⟨Inv, q, contract, inv', ok.move inside fun _ => call.pos⟩
  | @next v s s' pl r before early run ih =>
      obtain ⟨Inv, q, contract, inv, ok⟩ := ih
      obtain ⟨s₁, r₁, run', next⟩ := contract.next inv ok early
      obtain ⟨rfl, rfl⟩ := Prod.mk.inj (Option.some.inj (run.symm.trans run'))
      cases r with
      | none => exact ⟨Inv, q, contract, next.1, ok⟩
      | some slice =>
          obtain ⟨ready, -, -, -, -, inv'⟩ := next
          have inside := ok.outside slice.proc (by rw [ready]; simp)
          exact ⟨Inv, q, contract, inv', ok.move inside (by simp)⟩
  | preempt before call pos hook run ih =>
      obtain ⟨Inv, q, contract, inv, ok⟩ := ih
      have inside := call.inside ok
      obtain ⟨slice, out, one, le⟩ := call
      obtain ⟨s', run', inv'⟩ := contract.preempt inv ok out one le pos hook
      obtain rfl := Option.some.inj (run.symm.trans run')
      exact ⟨Inv, q, contract, inv', ok.move inside fun _ => pos⟩
  | block before call more run ih =>
      obtain ⟨Inv, q, contract, inv, ok⟩ := ih
      have inside := call.inside ok
      obtain ⟨slice, out, one, le⟩ := call
      obtain ⟨s', run', inv'⟩ := contract.block inv ok out one le more
      obtain rfl := Option.some.inj (run.symm.trans run')
      exact ⟨Inv, q, contract, inv', ok.move inside (by simp)⟩
  | complete before call run ih =>
      obtain ⟨Inv, q, contract, inv, ok⟩ := ih
      have inside := call.inside ok
      obtain ⟨slice, out, one, le⟩ := call
      obtain ⟨s', run', inv'⟩ := contract.complete inv ok out one le
      obtain rfl := Option.some.inj (run.symm.trans run')
      exact ⟨Inv, q, contract, inv', ok.move inside (by simp)⟩

omit [Double D] in
/-- What a contract keeps from the start on. -/
theorem Protocol.keep {P : Policy D} {Inv : SchedView D → P.State → Places → Prop}
    {v : SchedView D} {s : P.State} {pl : Places} (run : Protocol w P params v s pl)
    (contract : Contract w P Inv)
    (start : ∀ (v : SchedView D) s, ViewOk w v (fun _ => .new) → P.create v params = .ok s →
      Inv v s fun _ => .new) : Inv v s pl ∧ ViewOk w v pl := by
  obtain ⟨Inv', eq, -, kept⟩ := run.inv_of (Q := (· = Inv)) fun v s view created =>
    ⟨Inv, rfl, contract, start v s view created⟩
  exact eq ▸ kept

omit [Double D] in
/-- The calls of an engine that keeps to a contract follow the protocol. -/
theorem Contract.protocol {P : Policy D} {Inv : SchedView D → P.State → Places → Prop}
    (contract : Contract w P Inv) (params : PolicyParams) :
    Contract w P fun v s pl => Inv v s pl ∧ Protocol w P params v s pl where
  interruptible := contract.interruptible
  view kept ok ok' step := ⟨contract.view kept.1 ok ok' step, .lend kept.2 ok' step⟩
  arrival kept ok hp new pos := by
    obtain ⟨s', run, inv⟩ := contract.arrival kept.1 ok hp new pos
    exact ⟨s', run, inv, .arrival kept.2 ⟨hp, new, pos⟩ run⟩
  wake kept ok blocked pos := by
    obtain ⟨s', run, inv⟩ := contract.wake kept.1 ok blocked pos
    exact ⟨s', run, inv, .wake kept.2 ⟨blocked, pos⟩ run⟩
  next kept ok early := by
    obtain ⟨s', r, run, next⟩ := contract.next kept.1 ok early
    have after := Protocol.next kept.2 early run
    refine ⟨s', r, run, ?_⟩
    cases r with
    | none => exact ⟨⟨next.1, after⟩, next.2⟩
    | some slice =>
        obtain ⟨ready, pos, later, le, whole, inv⟩ := next
        exact ⟨ready, pos, later, le, whole, inv, after⟩
  preempt kept ok out one le pos hook := by
    obtain ⟨s', run, inv⟩ := contract.preempt kept.1 ok out one le pos hook
    exact ⟨s', run, inv, .preempt kept.2 ⟨_, out, one, le⟩ pos hook run⟩
  block kept ok out one le more := by
    obtain ⟨s', run, inv⟩ := contract.block kept.1 ok out one le more
    exact ⟨s', run, inv, .block kept.2 ⟨_, out, one, le⟩ more run⟩
  complete kept ok out one le := by
    obtain ⟨s', run, inv⟩ := contract.complete kept.1 ok out one le
    exact ⟨s', run, inv, .complete kept.2 ⟨_, out, one, le⟩ run⟩

/-- The list of the ready processes loses the one that goes out. -/
theorem Holds.perm_out {pl : Places} {slice : Slice} {ready left : List Nat}
    (holds : Holds pl ready) (isReady : pl slice.proc = .ready)
    (after : Holds (pl.move slice.proc (.out slice)) left) : ready.Perm (slice.proc :: left) := by
  have gone : slice.proc ∉ left := by
    rw [after.mem_iff]
    simp
  apply (List.perm_ext_iff_of_nodup holds.nodup (List.nodup_cons.mpr ⟨gone, after.nodup⟩)).mpr
  intro p
  by_cases same : p = slice.proc
  · subst same
    simp [holds.mem_iff, isReady]
  · rw [List.mem_cons, holds.mem_iff, after.mem_iff, pl.move_of_ne _ same]
    simp [same]

/-- Where a contract of a built-in policy holds, the policy keeps the interface contract. -/
theorem Contract.keeps {realloc : Nat → Bool} {B : BuiltInPolicy D}
    (builtIn : B ∈ builtInPolicies realloc)
    {Inv : SchedView D → B.policy.State → Places → Prop} (contract : Contract w B.policy Inv)
    (stored : ∀ {v s pl}, Inv v s pl → ViewOk w v pl → ∃ ready, B.stores s ready ∧ Holds pl ready)
    {v : SchedView D} {s : B.policy.State} {pl : Places} (inv : Inv v s pl)
    (ok : ViewOk w v pl) : Keeps w B v s pl := by
  constructor
  case stored => exact stored inv ok
  case arrival =>
    intro p call
    obtain ⟨s', run, -⟩ := contract.arrival inv ok call.inside call.new call.pos
    exact ⟨s', run⟩
  case wake =>
    intro p call
    obtain ⟨s', run, -⟩ := contract.wake inv ok call.blocked call.pos
    exact ⟨s', run⟩
  case next =>
    intro early
    obtain ⟨s', r, run, next⟩ := contract.next inv ok early
    refine ⟨s', r, run, ?_⟩
    cases r with
    | none =>
        obtain ⟨-, idle | ⟨idles, -⟩⟩ := next
        · exact .inl idle
        · exact .inr (builtIn_mayIdle builtIn idles)
    | some slice =>
        obtain ⟨isReady, length_pos, later, -, -, inv'⟩ := next
        have inside := ok.outside slice.proc (by rw [isReady]; simp)
        obtain ⟨ready, before, holds⟩ := stored inv ok
        obtain ⟨left, after, holds'⟩ := stored inv' (ok.move inside (by simp))
        exact ⟨isReady, length_pos, later, ready, left, before, after,
          holds.perm_out isReady holds'⟩
  case preempt =>
    intro p ran f ⟨slice, out, one, le⟩ pos hook
    obtain ⟨s', run, -⟩ := contract.preempt inv ok out one le pos hook
    exact ⟨s', run⟩
  case block =>
    intro p ran ⟨slice, out, one, le⟩ more
    obtain ⟨s', run, -⟩ := contract.block inv ok out one le more
    exact ⟨s', run⟩
  case complete =>
    intro p ran ⟨slice, out, one, le⟩
    obtain ⟨s', run, -⟩ := contract.complete inv ok out one le
    exact ⟨s', run⟩

/-- Every built-in policy keeps the interface contract in every state that calls
of its hooks reach by the protocol. -/
theorem protocol_keeps (valid : w.Valid) {realloc : Nat → Bool} {B : BuiltInPolicy D}
    (builtIn : B ∈ builtInPolicies realloc) (admitted : params.Admitted) {v : SchedView D}
    {s : B.policy.State} {pl : Places} (run : Protocol w B.policy params v s pl) :
    Keeps w B v s pl := by
  obtain ⟨Inv, stored, contract, inv, ok⟩ := run.inv_of
    (Q := fun Inv => ∀ {v s pl}, Inv v s pl → ViewOk w v pl →
      ∃ ready, B.stores s ready ∧ Holds pl ready)
    fun v s view created => by
      obtain ⟨Inv, contract, start, stored⟩ :=
        builtIn_lawful valid builtIn admitted view.procs_eq view.n_eq s created
      exact ⟨Inv, stored, contract, start⟩
  exact contract.keeps builtIn stored inv ok

/-! ## Computed runs -/

/-- What changes in the views of a run: the clock, and for each process the ticks that are
left of its CPU burst and the length of that burst. -/
structure Lent where
  now : Int
  left : List (Int × Int)

namespace Lent

/-- The view with exact bursts, on one core without switch cost. -/
def view (w : Workload) (l : Lent) : SchedView Float where
  procs := w.proc
  n := w.len
  cores := 1
  csCost := 0
  now := l.now
  remaining := fun p => (l.left.getD p (0, 0)).1
  burstLen := fun p => (l.left.getD p (0, 0)).2
  predicted := none

/-- The view may be lent after `before`. -/
def mayFollow (w : Workload) (pl : Places) (before l : Lent) : Bool :=
  decide (0 ≤ l.now ∧ before.now ≤ l.now) && (List.range w.len).all fun p =>
    decide (pl p = .ready → 0 < (l.left.getD p (0, 0)).1 ∧
      l.left.getD p (0, 0) = before.left.getD p (0, 0))

theorem viewOk {l before : Lent} {pl : Places} (inside : ∀ p, pl p ≠ .new → p < w.len)
    (may : before.mayFollow w pl l = true) : ViewOk w (l.view w) pl ∧
      ViewStep pl (before.view w) (l.view w) := by
  obtain ⟨clock, ready⟩ := Bool.and_eq_true_iff.mp may
  have clock := of_decide_eq_true clock
  have known : ∀ p, pl p = .ready → 0 < (l.left.getD p (0, 0)).1 ∧
      l.left.getD p (0, 0) = before.left.getD p (0, 0) := by
    intro p isReady
    have hp := inside p (by rw [isReady]; simp)
    exact of_decide_eq_true (List.all_eq_true.mp ready p (List.mem_range.mpr hp)) isReady
  exact ⟨⟨rfl, rfl, clock.1, fun p isReady => (known p isReady).1, inside⟩,
    ⟨rfl, rfl, rfl, rfl, clock.2, Iff.rfl, fun p isReady => congrArg Prod.fst (known p isReady).2,
      fun p isReady => congrArg Prod.snd (known p isReady).2, fun _ _ => rfl⟩⟩

end Lent

/-- `Ran`, computed. -/
def ranFor (pl : Places) (p : Nat) (ran : Int) : Bool :=
  match pl p with
  | .out slice => decide (1 ≤ ran ∧ ran ≤ slice.length)
  | _ => false

theorem ran_of_ranFor {pl : Places} {p : Nat} {ran : Int} (may : ranFor pl p ran = true) :
    Ran pl p ran := by
  unfold ranFor at may
  split at may
  · next slice out => exact ⟨slice, out, of_decide_eq_true may⟩
  · cases may

/-- `Call.Allowed`, computed. -/
def Call.may (w : Workload) (v : SchedView D) (pl : Places) : Call → Bool
  | arrival p => decide (p < w.len ∧ pl p = .new ∧ 0 < v.remaining p)
  | wake p => decide (pl p = .blocked ∧ 0 < v.remaining p)
  | next => decide (v.now < int64Max)
  | preempt p ran => ranFor pl p ran && decide (0 < v.remaining p)
  | block p ran => ranFor pl p ran && decide (1 < (w.proc p).phaseCount)
  | complete p ran => ranFor pl p ran

omit [Double D] in
theorem Call.allowed_of_may {v : SchedView D} {pl : Places} {c : Call}
    (may : c.may w v pl = true) : c.Allowed w v pl := by
  cases c with
  | arrival p =>
      obtain ⟨inside, new, pos⟩ := of_decide_eq_true may
      exact ⟨inside, new, pos⟩
  | wake p =>
      obtain ⟨blocked, pos⟩ := of_decide_eq_true may
      exact ⟨blocked, pos⟩
  | next =>
      have early : v.now < int64Max := of_decide_eq_true may
      exact early
  | preempt p ran =>
      obtain ⟨ran, pos⟩ := Bool.and_eq_true_iff.mp may
      exact ⟨ran_of_ranFor ran, of_decide_eq_true pos⟩
  | block p ran =>
      obtain ⟨ran, more⟩ := Bool.and_eq_true_iff.mp may
      exact ⟨ran_of_ranFor ran, of_decide_eq_true more⟩
  | complete p ran => exact ran_of_ranFor may

omit [Double D] in
theorem Call.inside_after {v : SchedView D} {pl : Places} {c : Call} {r : Option Slice}
    (inside : ∀ p, pl p ≠ .new → p < w.len) (allowed : c.Allowed w v pl)
    (returned : ∀ slice, r = some slice → slice.proc < w.len) :
    ∀ p, c.after pl r p ≠ .new → p < w.len := by
  have moved : ∀ {q place}, q < w.len → ∀ p, pl.move q place p ≠ .new → p < w.len := by
    intro q place hq p known
    by_cases same : p = q
    · exact same ▸ hq
    · rw [Places.move_of_ne _ _ same] at known
      exact inside p known
  have ranInside : ∀ {q ran}, Ran pl q ran → q < w.len := by
    rintro q ran ⟨slice, out, -⟩
    exact inside q (by rw [out]; simp)
  cases c with
  | arrival q => exact moved allowed.inside
  | wake q => exact moved (inside q (by rw [allowed.blocked]; simp))
  | next =>
      cases r with
      | none => exact inside
      | some slice => exact moved (returned slice rfl)
  | preempt q ran => exact moved (ranInside allowed.1)
  | block q ran => exact moved (ranInside allowed.1)
  | complete q ran => exact moved (ranInside allowed)

/-- Lends the views and makes the calls while the protocol allows them.  `note` takes notes
of every call. -/
def Policy.follow {X : Type} (P : Policy Float) (w : Workload)
    (note : X → SchedView Float → P.State → Call → Option Slice → X) :
    Lent → P.State → Places → X → List (Lent × Call) → Option (Lent × P.State × Places × X)
  | l, s, pl, x, [] => some (l, s, pl, x)
  | l, s, pl, x, (l', c) :: rest =>
      if l.mayFollow w pl l' && c.may w (l'.view w) pl then
        (P.call (l'.view w) s c).bind fun (s', r) =>
          if r.all fun slice => decide (slice.proc < w.len) then
            P.follow w note l' s' (c.after pl r) (note x (l'.view w) s c r) rest
          else none
      else none

theorem eq_ok_of_toOption {ε α : Type} {x : Except ε α} {a : α} (some_ : x.toOption = some a) :
    x = .ok a := by
  cases x with
  | error err => cases some_
  | ok b => exact congrArg Except.ok (Option.some.inj some_)

/-- The same from the creation of the policy on. -/
def Policy.runs {X : Type} (P : Policy Float) (w : Workload) (params : PolicyParams)
    (note : X → SchedView Float → P.State → Call → Option Slice → X) (l : Lent) (x : X)
    (calls : List (Lent × Call)) : Option (Lent × P.State × Places × X) :=
  (P.create (l.view w) params).toOption.bind fun s => P.follow w note l s (fun _ => .new) x calls

section Follow

variable {X : Type} {P : Policy Float}
  {note : X → SchedView Float → P.State → Call → Option Slice → X}
  {l l' : Lent} {s s' : P.State} {pl pl' : Places} {x x' : X} {calls : List (Lent × Call)}

/-- The first call of a computed run. -/
theorem Policy.follow_cons {c : Call} (inside : ∀ p, pl p ≠ .new → p < w.len)
    (run : P.follow w note l s pl x ((l', c) :: calls) = some r') :
    ViewOk w (l'.view w) pl ∧ ViewStep pl (l.view w) (l'.view w) ∧
      c.Allowed w (l'.view w) pl ∧ ∃ s₁ r, P.call (l'.view w) s c = some (s₁, r) ∧
        (∀ p, c.after pl r p ≠ .new → p < w.len) ∧
        P.follow w note l' s₁ (c.after pl r) (note x (l'.view w) s c r) calls = some r' := by
  rw [Policy.follow] at run
  split_ifs at run with may
  obtain ⟨lends, comes⟩ := Bool.and_eq_true_iff.mp may
  obtain ⟨ok, step⟩ := Lent.viewOk inside lends
  have allowed := Call.allowed_of_may comes
  obtain ⟨⟨s₁, r⟩, call, run⟩ := Option.bind_eq_some_iff.mp run
  dsimp only at run
  split_ifs at run with returned
  refine ⟨ok, step, allowed, s₁, r, call, Call.inside_after inside allowed ?_, run⟩
  rintro slice rfl
  exact of_decide_eq_true returned

/-- A computed run keeps what lending a view and every allowed call keep. -/
theorem Policy.follow_keeps {I : SchedView Float → P.State → Places → X → Prop}
    (lend : ∀ {v v' s pl x}, I v s pl x → ViewOk w v' pl → ViewStep pl v v' → I v' s pl x)
    (call : ∀ {v s s' pl c r x}, I v s pl x → c.Allowed w v pl → P.call v s c = some (s', r) →
      I v s' (c.after pl r) (note x v s c r))
    (inside : ∀ p, pl p ≠ .new → p < w.len) (start : I (l.view w) s pl x)
    (run : P.follow w note l s pl x calls = some (l', s', pl', x')) :
    I (l'.view w) s' pl' x' := by
  induction calls generalizing l s pl x with
  | nil =>
      obtain ⟨rfl, rfl, rfl, rfl⟩ : l = l' ∧ s = s' ∧ pl = pl' ∧ x = x' := by
        simpa [Policy.follow] using run
      exact start
  | cons first rest ih =>
      obtain ⟨l₁, c⟩ := first
      obtain ⟨ok, step, allowed, s₁, r, called, inside', run⟩ := Policy.follow_cons inside run
      exact ih inside' (call (lend start ok step) allowed called) run

/-- The calls of a computed run follow the protocol. -/
theorem Policy.follow_followsProtocol (inside : ∀ p, pl p ≠ .new → p < w.len)
    (run : P.follow w note l s pl x calls = some (l', s', pl', x')) :
    FollowsProtocol w P (l.view w) s pl (calls.map fun call => (call.1.view w, call.2)) := by
  induction calls generalizing l s pl x with
  | nil => trivial
  | cons first rest ih =>
      obtain ⟨l₁, c⟩ := first
      obtain ⟨ok, step, allowed, s₁, r, called, inside', run⟩ := Policy.follow_cons inside run
      refine ⟨ok, step, allowed, fun s₂ r₂ called' => ?_⟩
      obtain ⟨rfl, rfl⟩ := Prod.mk.inj (Option.some.inj (called.symm.trans called'))
      exact ih inside' run

/-- Where a computed run starts from. -/
theorem Policy.runs_start (run : P.runs w params note l x calls = some (l', s', pl', x')) :
    ∃ s, P.create (l.view w) params = .ok s ∧
      P.follow w note l s (fun _ => .new) x calls = some (l', s', pl', x') := by
  obtain ⟨s, created, run⟩ := Option.bind_eq_some_iff.mp run
  exact ⟨s, eq_ok_of_toOption created, run⟩

omit [Double D] in
theorem Lent.start_ok (nonneg : 0 ≤ l.now) : ViewOk w (l.view w) fun _ => .new where
  procs_eq := rfl
  n_eq := rfl
  now_nonneg := nonneg
  ready_pos _ new := by cases new
  outside _ known := absurd rfl known

/-- A computed run reaches a state of the protocol. -/
theorem Protocol.computed (nonneg : 0 ≤ l.now)
    (run : P.runs w params note l x calls = some (l', s', pl', x')) :
    Protocol w P params (l'.view w) s' pl' := by
  obtain ⟨s, created, run⟩ := Policy.runs_start run
  exact Policy.follow_keeps (I := fun v s pl _ => Protocol w P params v s pl)
    (fun before ok step => .lend before ok step) (fun before allowed run => before.call allowed run)
    (fun p known => absurd rfl known) (.create (Lent.start_ok nonneg) created) run

/-- The calls of a computed run follow the protocol from the created state on. -/
theorem Policy.runs_followsProtocol
    (run : P.runs w params note l x calls = some (l', s', pl', x')) :
    ∃ s, P.create (l.view w) params = .ok s ∧ FollowsProtocol w P (l.view w) s (fun _ => .new)
      (calls.map fun call => (call.1.view w, call.2)) := by
  obtain ⟨s, created, run⟩ := Policy.runs_start run
  exact ⟨s, created, Policy.follow_followsProtocol (fun p known => absurd rfl known) run⟩

end Follow

/-! ## A run of two processes -/

/-- The first process blocks between its bursts, and the second one arrives meanwhile with a
better priority. -/
def pausing : Workload :=
  ⟨[{ pid := 1, arrival := 0, burst := 4, io := 2, phases := [3, 2, 1], priority := 1 },
    processMake 2 1 5]⟩

theorem pausing_valid : pausing.Valid where
  nonempty := by decide
  procs p mem := by
    simp only [pausing, List.mem_cons, List.not_mem_nil, or_false] at mem
    rcases mem with rfl | rfl
    · constructor <;> decide
    · constructor <;> decide
  pids_nodup := by decide
  horizon_le := by decide

/-- The first view. -/
def pausingStart : Lent := ⟨0, [(3, 3), (5, 5)]⟩

/-- Both processes are preempted after two ticks.  Then the first one blocks, and is woken
when the second one is preempted again. -/
def pausingCalls : List (Lent × Call) :=
  [(pausingStart, .arrival 0), (pausingStart, .next), (⟨1, [(2, 3), (5, 5)]⟩, .arrival 1),
    (⟨2, [(1, 3), (5, 5)]⟩, .preempt 0 2), (⟨2, [(1, 3), (5, 5)]⟩, .next),
    (⟨4, [(1, 3), (3, 5)]⟩, .preempt 1 2), (⟨4, [(1, 3), (3, 5)]⟩, .next),
    (⟨5, [(0, 3), (3, 5)]⟩, .block 0 1), (⟨5, [(0, 3), (3, 5)]⟩, .next),
    (⟨7, [(1, 1), (1, 5)]⟩, .wake 0), (⟨7, [(1, 1), (1, 5)]⟩, .preempt 1 2)]

/-- What `next_slice` returns, the last answer first. -/
def noteAnswers {P : Policy Float} (answers : List (Nat × Int)) (_ : SchedView Float)
    (_ : P.State) (_ : Call) (r : Option Slice) : List (Nat × Int) :=
  (r.map Slice.choice).toList ++ answers

/-- Round robin with a quantum of 2 returns the two processes in turn. -/
theorem pausing_rr : ((policyRr.runs pausing {} noteAnswers pausingStart [] pausingCalls).map
    fun e => (e.1.now, e.2.2.2, e.2.2.1 0, e.2.2.1 1)) =
      some (7, [(1, 2), (0, 2), (1, 2), (0, 2)], .ready, .ready) := by
  decide +kernel

/-- Round robin keeps to the protocol through preemptions, a block and a wake-up. -/
theorem pausing_keeps : ∃ (l : Lent) (s : Rr) (pl : Places),
    Protocol pausing policyRr {} (l.view pausing) s pl ∧ l.now = 7 ∧ pl 0 = .ready ∧
    pl 1 = .ready ∧ Keeps pausing ⟨policyRr, rrStores⟩ (l.view pausing) s pl := by
  obtain ⟨⟨l, s, pl, answers⟩, run, seen⟩ := Option.map_eq_some_iff.mp pausing_rr
  simp only [Prod.mk.injEq] at seen
  obtain ⟨now, -, first, second⟩ := seen
  have reached := Protocol.computed le_rfl run
  exact ⟨l, s, pl, reached, now, first, second,
    protocol_keeps (B := ⟨policyRr, rrStores⟩) pausing_valid
      (show _ ∈ builtInPolicies fun _ => true by simp [builtInPolicies])
      PolicyParams.admitted_default reached⟩

end CpuSched
