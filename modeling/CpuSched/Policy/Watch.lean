import CpuSched.Policy.Kept

/-!
# What the hooks see

`Policy.watched` is a policy that also keeps, for every hook call made so far, the view
and the state that the hook got and the state that it left.  What an invariant of the
contract says of a state holds there, under the view of the call.
-/

namespace CpuSched

variable {D : Type}

/-- A call of a hook that is not null; `next_slice` may return nothing. -/
inductive SeenCall
  | hook (call : HookCall)
  | refused
  deriving DecidableEq

/-- A hook call, with what the hook got and what it left. -/
structure Seen (D σ : Type) where
  view : SchedView D
  before : σ
  call : SeenCall
  after : σ

/-- The state of a policy and what its hooks saw, the newest call first. -/
structure Watched (D σ : Type) where
  state : σ
  seen : List (Seen D σ)

/-- What a successful call leaves. -/
def Watched.push {σ : Type} (s : Watched D σ) (v : SchedView D) (call : SeenCall) (state : σ) :
    Watched D σ :=
  ⟨state, ⟨v, s.state, call, state⟩ :: s.seen⟩

/-- What `next_slice` leaves. -/
def Watched.pushSlice {σ : Type} (s : Watched D σ) (v : SchedView D) :
    σ × Option Slice → Watched D σ × Option Slice
  | (state, none) => (s.push v .refused state, none)
  | (state, some slice) => (s.push v (.hook (.slice slice)) state, some slice)

/-- A hook of three arguments, watched. -/
def watchHook {σ : Type} (call : Nat → Int → HookCall)
    (f : SchedView D → σ → Nat → Int → Option σ) (v : SchedView D) (s : Watched D σ) (p : Nat)
    (ran : Int) : Option (Watched D σ) :=
  (f v s.state p ran).map (s.push v (.hook (call p ran)))

/-- The policy that keeps what its hooks see. -/
def Policy.watched (P : Policy D) : Policy D where
  State := Watched D P.State
  name := P.name
  preemptive := P.preemptive
  preemptOnReady := P.preemptOnReady
  usesQuantum := P.usesQuantum
  usesEstimates := P.usesEstimates
  workConserving := P.workConserving
  offline := P.offline
  create v params := (P.create v params).map fun state => ⟨state, []⟩
  onArrival v s p := (P.onArrival v s.state p).map (s.push v (.hook (.arrival p)))
  onReady := P.onReady.map fun f v s p => (f v s.state p).map (s.push v (.hook (.ready p)))
  nextSlice v s := (P.nextSlice v s.state).map (s.pushSlice v)
  onPreempt := P.onPreempt.map (watchHook .preempt)
  onBlock := P.onBlock.map (watchHook .block)
  onComplete := P.onComplete.map (watchHook .complete)

theorem optCall_watched {σ : Type} (call : Nat → Int → HookCall)
    (f : Option (SchedView D → σ → Nat → Int → Option σ)) (v : SchedView D) (s : Watched D σ)
    (p : Nat) (ran : Int) : optCall f v s.state p ran =
      (optCall (f.map (watchHook call)) v s p ran).map Watched.state := by
  cases f with
  | none => rfl
  | some f =>
      simp only [optCall, Option.map_some, watchHook, Option.map_map]
      exact Option.map_id'.symm

/-- Watching changes nothing but what was seen. -/
theorem Policy.watched_projects [Double D] (P : Policy D) : P.watched.Projects P Watched.state where
  name_eq := rfl
  preemptOnReady_eq := rfl
  usesQuantum_eq := rfl
  create v params := by
    simp only [watched]
    cases P.create v params <;> rfl
  onArrival v s p := by
    simp only [watched, Option.map_map]
    exact Option.map_id'.symm
  wakeHook v s p := by
    unfold wakeHook watched
    cases P.onReady with
    | none =>
        simp only [Option.map_none, Option.getD_none, Option.map_map]
        exact Option.map_id'.symm
    | some f =>
        simp only [Option.map_some, Option.getD_some, Option.map_map]
        exact Option.map_id'.symm
  nextSlice v s := by
    simp only [watched, Option.map_map]
    cases P.nextSlice v s.state with
    | none => rfl
    | some r => rcases r with ⟨state, _ | slice⟩ <;> rfl
  preempt_none := by simp [watched]
  onPreempt v s p ran g h hg hh := by
    simp only [watched, hg, Option.map_some] at hh
    obtain rfl := Option.some.inj hh
    simp only [watchHook]
    cases g v s.state p ran <;> rfl
  onBlock v s p ran := optCall_watched .block P.onBlock v s p ran
  onComplete v s p ran := optCall_watched .complete P.onComplete v s p ran

/-! ## One call more -/

/-- A call of a hook saw the view `v`; a null hook saw nothing. -/
def Watched.Sees {σ : Type} (v : SchedView D) (s s' : Watched D σ) : Prop :=
  s'.seen = s.seen ∨ ∃ x, s'.seen = x :: s.seen ∧ x.view = v

theorem Watched.push_sees {σ : Type} (s : Watched D σ) (v : SchedView D) (call : SeenCall)
    (state : σ) : s.Sees v (s.push v call state) := .inr ⟨_, rfl, rfl⟩

theorem Watched.Sees.view_eq {σ : Type} {v : SchedView D} {s s' : Watched D σ}
    (sees : s.Sees v s') {x : Seen D σ} (seen : s'.seen = x :: s.seen) : x.view = v := by
  rcases sees with same | ⟨y, seen', view⟩
  · have length := congrArg List.length (seen.symm.trans same)
    simp at length
  · rw [(List.cons.inj (seen.symm.trans seen')).1, view]

section Sees

variable {P : Policy D} {v : SchedView D} {s s' : Watched D P.State} {p : Nat} {ran : Int}

theorem Policy.watched_onArrival_sees (run : P.watched.onArrival v s p = some s') :
    Watched.Sees v s s' := by
  obtain ⟨state, -, rfl⟩ := Option.map_eq_some_iff.mp run
  exact s.push_sees v _ state

theorem Policy.watched_wakeHook_sees (run : P.watched.wakeHook v s p = some s') :
    Watched.Sees v s s' := by
  unfold wakeHook watched at run
  cases ready : P.onReady with
  | none =>
      rw [ready] at run
      obtain ⟨state, -, rfl⟩ := Option.map_eq_some_iff.mp run
      exact s.push_sees v _ state
  | some f =>
      rw [ready] at run
      obtain ⟨state, -, rfl⟩ := Option.map_eq_some_iff.mp run
      exact s.push_sees v _ state

theorem Policy.watched_nextSlice_sees {slice : Option Slice}
    (run : P.watched.nextSlice v s = some (s', slice)) : Watched.Sees v s s' := by
  obtain ⟨⟨state, answer⟩, -, eq⟩ := Option.map_eq_some_iff.mp run
  cases answer with
  | none =>
      cases eq
      exact s.push_sees v _ state
  | some slice =>
      cases eq
      exact s.push_sees v _ state

theorem Policy.watched_onPreempt_sees {f : SchedView D → Watched D P.State → Nat → Int →
    Option (Watched D P.State)} (hook : P.watched.onPreempt = some f)
    (run : f v s p ran = some s') : Watched.Sees v s s' := by
  obtain ⟨g, -, rfl⟩ := Option.map_eq_some_iff.mp hook
  obtain ⟨state, -, rfl⟩ := Option.map_eq_some_iff.mp run
  exact s.push_sees v _ state

theorem optCall_watched_sees {call : Nat → Int → HookCall}
    {f : Option (SchedView D → P.State → Nat → Int → Option P.State)}
    (run : optCall (f.map (watchHook call)) v s p ran = some s') : Watched.Sees v s s' := by
  cases f with
  | none => exact .inl (congrArg Watched.seen (Option.some.inj run)).symm
  | some f =>
      obtain ⟨state, -, rfl⟩ := Option.map_eq_some_iff.mp run
      exact s.push_sees v _ state

end Sees

/-! ## The contract of a watched policy -/

/-- The view is one that the engine may lend, the invariant holds before and after the
call, and a slice is the answer of `next_slice`. -/
structure Seen.Sound (w : Workload) (P : Policy D) (Inv : SchedView D → P.State → Places → Prop)
    (x : Seen D P.State) : Prop where
  before : ∃ pl, ViewOk w x.view pl ∧ Inv x.view x.before pl
  after : ∃ pl, Inv x.view x.after pl
  answer : ∀ slice, x.call = .hook (.slice slice) →
    P.nextSlice x.view x.before = some (x.after, some slice)

/-- The contract invariant of a watched policy. -/
structure WatchedInv (w : Workload) (P : Policy D) (Inv : SchedView D → P.State → Places → Prop)
    (v : SchedView D) (s : Watched D P.State) (pl : Places) : Prop where
  inv : Inv v s.state pl
  seen : ∀ x ∈ s.seen, Seen.Sound w P Inv x

section Contract

variable {w : Workload} {P : Policy D} {Inv : SchedView D → P.State → Places → Prop}
  {v : SchedView D} {s : Watched D P.State} {pl pl' : Places} {p : Nat}

/-- One more call. -/
theorem WatchedInv.push (here : WatchedInv w P Inv v s pl) (ok : ViewOk w v pl) (call : SeenCall)
    {s' : P.State} (inv : Inv v s' pl')
    (answer : ∀ slice, call = .hook (.slice slice) →
      P.nextSlice v s.state = some (s', some slice)) :
    WatchedInv w P Inv v (s.push v call s') pl' :=
  ⟨inv, List.forall_mem_cons.mpr ⟨⟨⟨pl, ok, here.inv⟩, ⟨pl', inv⟩, answer⟩, here.seen⟩⟩

/-- An optional hook that reports a process off its core, watched. -/
theorem WatchedInv.optCall {call : Nat → Int → HookCall}
    {f : Option (SchedView D → P.State → Nat → Int → Option P.State)} {ran : Int}
    (here : WatchedInv w P Inv v s pl) (ok : ViewOk w v pl)
      (kind : ∀ slice, call p ran ≠ .slice slice)
    (run : ∃ s', optCall f v s.state p ran = some s' ∧ Inv v s' pl') :
    ∃ s', CpuSched.optCall (f.map (watchHook call)) v s p ran = some s' ∧
      WatchedInv w P Inv v s' pl' := by
  obtain ⟨s', run, inv⟩ := run
  cases f with
  | none =>
      obtain rfl : s.state = s' := Option.some.inj run
      exact ⟨s, rfl, inv, here.seen⟩
  | some f =>
      refine ⟨s.push v (.hook (call p ran)) s', ?_, here.push ok _ inv fun slice eq => ?_⟩
      · simp only [CpuSched.optCall] at run
        simp only [Option.map_some, CpuSched.optCall, watchHook, run]
      · exact absurd (SeenCall.hook.inj eq) (kind slice)

/-- A watched policy keeps the contract, and whatever was seen was sound. -/
theorem Contract.watched (contract : Contract w P Inv) :
    Contract w P.watched (WatchedInv w P Inv) where
  interruptible hook := contract.interruptible (by simpa [Policy.watched] using hook)
  view here ok ok' step := ⟨contract.view here.inv ok ok' step, here.seen⟩
  arrival {v s pl p} here ok hp new pos := by
    obtain ⟨s', run, inv⟩ := contract.arrival here.inv ok hp new pos
    exact ⟨s.push v (.hook (.arrival p))
      s', by simp [Policy.watched, run], here.push ok _ inv fun _ eq => by cases eq⟩
  wake {v s pl p} here ok blocked pos := by
    obtain ⟨s', run, inv⟩ := contract.wake here.inv ok blocked pos
    cases ready : P.onReady with
    | none =>
        rw [Policy.wakeHook, ready, Option.getD_none] at run
        exact ⟨s.push v (.hook (.arrival p))
          s', by simp [Policy.wakeHook, Policy.watched, ready, run],
          here.push ok _ inv fun _ eq => by cases eq⟩
    | some f =>
        rw [Policy.wakeHook, ready, Option.getD_some] at run
        exact ⟨s.push v (.hook (.ready p))
          s', by simp [Policy.wakeHook, Policy.watched, ready, run],
          here.push ok _ inv fun _ eq => by cases eq⟩
  next {v s pl} here ok early := by
    obtain ⟨s', r, run, next⟩ := contract.next here.inv ok early
    refine ⟨(s.pushSlice v (s', r)).1, r, ?_, ?_⟩
    · simp only [Policy.watched, run, Option.map_some]
      cases r <;> rfl
    · cases r with
      | none => exact ⟨here.push ok .refused next.1 fun _ eq => (by cases eq), next.2⟩
      | some slice =>
          obtain ⟨ready, length_pos, later, le, whole, inv⟩ := next
          refine ⟨ready, length_pos, later, le, fun h => whole (by simpa [Policy.watched] using h),
            here.push ok _ inv fun slice' eq => ?_⟩
          cases eq
          exact run
  preempt {v s pl p slice ran f} here ok out one le pos hook := by
    cases source : P.onPreempt with
    | none => simp [Policy.watched, source] at hook
    | some g =>
        obtain ⟨s', run, inv⟩ := contract.preempt here.inv ok out one le pos source
        simp only [Policy.watched, source, Option.map_some] at hook
        obtain rfl := Option.some.inj hook
        exact ⟨s.push v (.hook (.preempt p ran)) s', by
            simp only [watchHook, run, Option.map_some]
            rfl,
          here.push ok _ inv fun _ eq => by cases eq⟩
  block here ok out one le more :=
    WatchedInv.optCall here ok (fun _ eq => by cases eq)
      (contract.block here.inv ok out one le more)
  complete here ok out one le :=
    WatchedInv.optCall here ok (fun _ eq => by cases eq) (contract.complete here.inv ok out one le)

end Contract

end CpuSched
