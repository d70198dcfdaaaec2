import CpuSched.Policy.Log

/-!
# Policies that let slices run

A calm policy is not re-decided when the ready set grows, gives its slices no deadline,
and refuses only when nothing is ready, leaving its state as it is.  Its hooks do not read
the remaining time of a process on a core: the engine brings it up to date at the end of a
slice, the tick loop after every tick.
-/

namespace CpuSched

variable {D : Type}

/-- Two views that differ only in the remaining times of processes on the cores. -/
structure Shadow (pl : Places) (v v' : SchedView D) : Prop where
  view_eq : v' = { v with remaining := v'.remaining }
  remaining_eq : ∀ p, (∀ s, pl p ≠ .out s) → v'.remaining p = v.remaining p

/-- The engine ends no slice of the policy early, and the policy refuses for want of work
alone. -/
structure Uninterrupted (w : Workload) (P : Policy D)
    (Inv : SchedView D → P.State → Places → Prop) : Prop where
  notReady : P.preemptOnReady = false
  undated : ∀ {v s pl s' slice}, Inv v s pl → ViewOk w v pl → v.now < int64Max →
    P.nextSlice v s = some (s', some slice) → slice.deadline = schedNoDeadline
  refuses : ∀ {v s pl s'}, Inv v s pl → ViewOk w v pl → v.now < int64Max →
    P.nextSlice v s = some (s', none) → s' = s ∧ ∀ p, pl p ≠ .ready

/-- The hooks do not see the remaining times of the processes on the cores either. -/
structure Calm (w : Workload) (P : Policy D) (Inv : SchedView D → P.State → Places → Prop) : Prop
    extends Uninterrupted w P Inv where
  arrival : ∀ {v v' s pl p}, Inv v s pl → ViewOk w v pl → Shadow pl v v' → pl p = .new →
    P.onArrival v' s p = P.onArrival v s p
  wake : ∀ {v v' s pl p}, Inv v s pl → ViewOk w v pl → Shadow pl v v' → pl p = .blocked →
    P.wakeHook v' s p = P.wakeHook v s p
  next : ∀ {v v' s pl}, Inv v s pl → ViewOk w v pl → v.now < int64Max → Shadow pl v v' →
    P.nextSlice v' s = P.nextSlice v s
  preempt : ∀ {v v' s pl p slice f ran}, Inv v s pl → ViewOk w v pl → Shadow pl v v' →
    pl p = .out slice → v'.remaining p = v.remaining p → P.onPreempt = some f →
    f v' s p ran = f v s p ran
  block : ∀ {v v' s pl p slice ran}, Inv v s pl → ViewOk w v pl → Shadow pl v v' →
    pl p = .out slice → v'.remaining p = v.remaining p →
    optCall P.onBlock v' s p ran = optCall P.onBlock v s p ran
  complete : ∀ {v v' s pl p slice ran}, Inv v s pl → ViewOk w v pl → Shadow pl v v' →
    pl p = .out slice → v'.remaining p = v.remaining p →
    optCall P.onComplete v' s p ran = optCall P.onComplete v s p ran

theorem Shadow.now_eq {pl : Places} {v v' : SchedView D} (shadow : Shadow pl v v') :
    v'.now = v.now := by
  rw [shadow.view_eq]

theorem Logged.push_congr {σ : Type} (s : Logged σ) {v v' : SchedView D} (now_eq : v'.now = v.now)
    (call : HookCall) : s.push v' call = s.push v call := by
  funext state
  rw [Logged.push, Logged.push, now_eq]

/-- A logged optional hook that does not see the difference. -/
theorem optCall_logged_eq {σ : Type} {call : Nat → Int → HookCall}
    {f : Option (SchedView D → σ → Nat → Int → Option σ)} {v v' : SchedView D} {s : Logged σ}
    {p : Nat} {ran : Int} (now_eq : v'.now = v.now)
    (same : optCall f v' s.state p ran = optCall f v s.state p ran) :
    optCall (f.map (logHook call)) v' s p ran = optCall (f.map (logHook call)) v s p ran := by
  cases f with
  | none => rfl
  | some f =>
      simp only [optCall] at same
      simp only [Option.map_some, optCall, logHook, same, s.push_congr now_eq]

/-- Logging keeps a policy calm. -/
theorem Calm.logged {w : Workload} {P : Policy D} {Inv : SchedView D → P.State → Places → Prop}
    (calm : Calm w P Inv) : Calm w P.logged (LoggedInv Inv) where
  notReady := calm.notReady
  undated {v s pl s' slice} inv ok early run := by
    simp only [Policy.logged, Option.map_eq_some_iff] at run
    obtain ⟨⟨state, pick⟩, run, pushed⟩ := run
    cases pick with
    | none => cases congrArg Prod.snd pushed
    | some slice' =>
        obtain rfl : slice' = slice := Option.some.inj (congrArg Prod.snd pushed)
        exact calm.undated inv.inv ok early run
  refuses {v s pl s'} inv ok early run := by
    simp only [Policy.logged, Option.map_eq_some_iff] at run
    obtain ⟨⟨state, pick⟩, run, pushed⟩ := run
    cases pick with
    | none =>
        obtain ⟨rfl, idle⟩ := calm.refuses inv.inv ok early run
        exact ⟨(congrArg Prod.fst pushed).symm, idle⟩
    | some slice' => cases congrArg Prod.snd pushed
  arrival {v v' s pl p} inv ok shadow new := by
    simp only [Policy.logged, calm.arrival inv.inv ok shadow new, s.push_congr shadow.now_eq]
  wake {v v' s pl p} inv ok shadow blocked := by
    have same := calm.wake inv.inv ok shadow blocked
    unfold Policy.wakeHook at same
    unfold Policy.wakeHook Policy.logged
    cases hook : P.onReady with
    | none =>
        rw [hook, Option.getD_none] at same
        simp only [Option.map_none, Option.getD_none, same, s.push_congr shadow.now_eq]
    | some f =>
        rw [hook, Option.getD_some] at same
        simp only [Option.map_some, Option.getD_some, same, s.push_congr shadow.now_eq]
  next {v v' s pl} inv ok early shadow := by
    simp only [Policy.logged, calm.next inv.inv ok early shadow]
    cases P.nextSlice v s.state with
    | none => rfl
    | some r =>
        rcases r with ⟨state, _ | slice⟩
        · rfl
        · simp only [Option.map_some, Logged.pushSlice, s.push_congr shadow.now_eq]
  preempt {v v' s pl p slice f ran} inv ok shadow out same hook := by
    cases source : P.onPreempt with
    | none => simp [Policy.logged, source] at hook
    | some g =>
        simp only [Policy.logged, source, Option.map_some] at hook
        obtain rfl := Option.some.inj hook
        simp only [logHook, calm.preempt inv.inv ok shadow out same source,
          s.push_congr shadow.now_eq]
        rfl
  block inv ok shadow out same :=
    optCall_logged_eq shadow.now_eq (calm.block inv.inv ok shadow out same)
  complete inv ok shadow out same :=
    optCall_logged_eq shadow.now_eq (calm.complete inv.inv ok shadow out same)

/-! ## The flag of work conservation -/

/-- The policy with `work_conserving` set, which no code of the engine reads. -/
abbrev Policy.conserving (P : Policy D) : Policy D := { P with workConserving := true }

theorem Policy.conserving_projects [Double D] (P : Policy D) : P.conserving.Projects P id where
  name_eq := rfl
  preemptOnReady_eq := rfl
  usesQuantum_eq := rfl
  create v params := by cases P.create v params <;> rfl
  onArrival _ _ _ := Option.map_id'.symm
  wakeHook _ _ _ := Option.map_id'.symm
  nextSlice _ _ := Option.map_id'.symm
  preempt_none := Iff.rfl
  onPreempt _ _ _ _ g h hg hh := by
    obtain rfl : g = h := Option.some.inj (hg.symm.trans hh)
    exact Option.map_id'.symm
  onBlock _ _ _ _ := Option.map_id'.symm
  onComplete _ _ _ _ := Option.map_id'.symm

section Conserving

variable {w : Workload} {P : Policy D} {Inv : SchedView D → P.State → Places → Prop}

/-- A policy that refuses for want of work alone may set the flag. -/
theorem Contract.conserving (contract : Contract w P Inv) (un : Uninterrupted w P Inv) :
    Contract w P.conserving Inv where
  interruptible := contract.interruptible
  view := contract.view
  arrival := contract.arrival
  wake := contract.wake
  next {v s pl} inv ok early := by
    obtain ⟨s', pick, run, next⟩ := contract.next inv ok early
    refine ⟨s', pick, run, ?_⟩
    cases pick with
    | none => exact ⟨next.1, .inl (un.refuses inv ok early run).2⟩
    | some slice => exact next
  preempt := contract.preempt
  block := contract.block
  complete := contract.complete

theorem Calm.conserving (calm : Calm w P Inv) : Calm w P.conserving Inv where
  notReady := calm.notReady
  undated := calm.undated
  refuses := calm.refuses
  arrival := calm.arrival
  wake := calm.wake
  next := calm.next
  preempt := calm.preempt
  block := calm.block
  complete := calm.complete

end Conserving

/-! ## Policies that read the remaining time of their pick alone -/

/-- A policy as a table of hooks that read the remaining time of the process they are
about, and of no other. -/
structure Unwatching (P : Policy D) : Prop where
  notReady : P.preemptOnReady = false
  conserving : P.workConserving = true
  undated : P.onPreempt ≠ none → ∀ {v s s' slice}, P.nextSlice v s = some (s', some slice) →
    slice.deadline = schedNoDeadline
  idle : ∀ {v s s'}, P.nextSlice v s = some (s', none) → s' = s
  arrival : ∀ (v : SchedView D) s p remaining,
    P.onArrival { v with remaining } s p = P.onArrival v s p
  wake : ∀ (v : SchedView D) s p remaining, P.wakeHook { v with remaining } s p = P.wakeHook v s p
  next : ∀ {v : SchedView D} {s s' pick remaining}, P.nextSlice v s = some (s', pick) →
    (∀ slice ∈ pick, remaining slice.proc = v.remaining slice.proc) →
    P.nextSlice { v with remaining } s = some (s', pick)
  preempt : ∀ {f}, P.onPreempt = some f → ∀ (v : SchedView D) s p ran remaining,
    remaining p = v.remaining p → f { v with remaining } s p ran = f v s p ran
  block : ∀ (v : SchedView D) s p ran remaining, remaining p = v.remaining p →
    optCall P.onBlock { v with remaining } s p ran = optCall P.onBlock v s p ran
  complete : ∀ (v : SchedView D) s p ran remaining, remaining p = v.remaining p →
    optCall P.onComplete { v with remaining } s p ran = optCall P.onComplete v s p ran

/-- Such a policy is calm whatever contract it keeps. -/
theorem Unwatching.calm {w : Workload} {P : Policy D} {Inv : SchedView D → P.State → Places → Prop}
    (un : Unwatching P) (contract : Contract w P Inv) : Calm w P Inv where
  notReady := un.notReady
  undated {v s pl s' slice} inv ok early run := by
    by_cases whole : P.onPreempt = none
    · obtain ⟨s'', pick, run', next⟩ := contract.next inv ok early
      obtain ⟨rfl, rfl⟩ : s' = s'' ∧ some slice = pick := by simpa using run.symm.trans run'
      exact (next.2.2.2.2.1 whole).2
    · exact un.undated whole run
  refuses {v s pl s'} inv ok early run := by
    obtain ⟨s'', pick, run', next⟩ := contract.next inv ok early
    obtain ⟨rfl, rfl⟩ : s' = s'' ∧ none = pick := by simpa using run.symm.trans run'
    refine ⟨un.idle run, next.2.resolve_right ?_⟩
    rintro ⟨idles, -⟩
    cases un.conserving.symm.trans idles
  arrival {v v' s pl p} _ _ shadow _ := by
    rw [shadow.view_eq]
    exact un.arrival v s p v'.remaining
  wake {v v' s pl p} _ _ shadow _ := by
    rw [shadow.view_eq]
    exact un.wake v s p v'.remaining
  next {v v' s pl} inv ok early shadow := by
    obtain ⟨s', pick, run, next⟩ := contract.next inv ok early
    rw [run, shadow.view_eq]
    refine un.next run fun slice mem => ?_
    obtain rfl : pick = some slice := mem
    exact shadow.remaining_eq slice.proc fun s out => by cases next.1.symm.trans out
  preempt {v v' s pl p slice f ran} _ _ shadow _ same hook := by
    rw [shadow.view_eq]
    exact un.preempt hook v s p ran v'.remaining same
  block {v v' s pl p slice ran} _ _ shadow _ same := by
    rw [shadow.view_eq]
    exact un.block v s p ran v'.remaining same
  complete {v v' s pl p slice ran} _ _ shadow _ same := by
    rw [shadow.view_eq]
    exact un.complete v s p ran v'.remaining same

end CpuSched
