import CpuSched.Policy.Kept

/-!
# The latest pick of a process

While a process is out, the log tells when it was last returned by `next_slice`, with
which slice, and whether another process has been handed over since.  What a policy
guarantees about its running processes holds as long as none was and the deadline of
the slice has not come.
-/

namespace CpuSched

variable {D : Type}

/-- A pick of a process. -/
structure Pick where
  time : Int
  slice : Slice
  /-- No process has been handed over since. -/
  alone : Bool

/-- The latest pick of `p`. -/
def latestPick (p : Nat) : List TimedCall → Option Pick
  | [] => none
  | call :: before =>
      match call.call with
      | .slice s => if s.proc = p then some ⟨call.now, s, true⟩ else latestPick p before
      | .block _ _ => latestPick p before
      | .complete _ _ => latestPick p before
      | _ => (latestPick p before).map fun k => { k with alone := false }

/-- The calls that pick no process. -/
def HookCall.NoPick : HookCall → Prop
  | .slice _ => False
  | _ => True

/-- The calls that report a process as blocked or complete. -/
def HookCall.Leaves : HookCall → Prop
  | .block _ _ => True
  | .complete _ _ => True
  | _ => False

/-- The log grew by calls of one kind. -/
def Grown (kind : HookCall → Prop) (log log' : List TimedCall) : Prop :=
  ∃ calls, log' = calls ++ log ∧ ∀ call ∈ calls, kind call.call

namespace Grown

variable {kind kind' : HookCall → Prop} {log log' log'' : List TimedCall} {p : Nat}

theorem refl (log : List TimedCall) : Grown kind log log := ⟨[], rfl, by simp⟩

theorem trans (first : Grown kind log log') (then_ : Grown kind log' log'') :
    Grown kind log log'' := by
  obtain ⟨calls, rfl, h⟩ := first
  obtain ⟨calls', rfl, h'⟩ := then_
  refine ⟨calls' ++ calls, (List.append_assoc ..).symm, fun call mem => ?_⟩
  rcases List.mem_append.mp mem with mem | mem
  · exact h' call mem
  · exact h call mem

theorem mono (grown : Grown kind log log') (le : ∀ call, kind call → kind' call) :
    Grown kind' log log' := by
  obtain ⟨calls, eq, h⟩ := grown
  exact ⟨calls, eq, fun call mem => le _ (h call mem)⟩

theorem single {now : Int} {call : HookCall} (h : kind call) :
    Grown kind log (⟨now, call⟩ :: log) :=
  ⟨[⟨now, call⟩], rfl, by simpa using h⟩

theorem left {now : Int} (left : Left now p log log') : Grown HookCall.Leaves log log' := by
  cases left with
  | silent => exact .refl _
  | block => exact .single trivial
  | complete => exact .single trivial

/-- Without a pick the latest pick stays the same, but for the flag. -/
theorem latestPick_kept (grown : Grown HookCall.NoPick log log') {k : Pick}
    (here : latestPick p log = some k) : ∃ k', latestPick p log' = some k' ∧ k'.time = k.time ∧
      k'.slice = k.slice := by
  obtain ⟨calls, rfl, h⟩ := grown
  induction calls with
  | nil => exact ⟨k, here, rfl, rfl⟩
  | cons call calls ih =>
      obtain ⟨k', there, time, slice⟩ := ih fun c mem => h c (List.mem_cons_of_mem _ mem)
      have kind := h call List.mem_cons_self
      rw [List.cons_append, latestPick]
      cases eq : call.call with
      | slice s => simp [eq, HookCall.NoPick] at kind
      | block => exact ⟨k', there, time, slice⟩
      | complete => exact ⟨k', there, time, slice⟩
      | _ => exact ⟨{ k' with alone := false }, by simp [there], time, slice⟩

/-- A process that leaves changes no latest pick. -/
theorem latestPick_eq (grown : Grown HookCall.Leaves log log') :
    latestPick p log' = latestPick p log := by
  obtain ⟨calls, rfl, h⟩ := grown
  induction calls with
  | nil => rfl
  | cons call calls ih =>
      have there := ih fun c mem => h c (List.mem_cons_of_mem _ mem)
      have kind := h call List.mem_cons_self
      rw [List.cons_append, latestPick]
      cases eq : call.call <;> simp [eq, HookCall.Leaves] at kind <;> exact there

end Grown

theorem latestPick_slice {now : Int} {s : Slice} {log : List TimedCall} :
    latestPick s.proc (⟨now, .slice s⟩ :: log) = some ⟨now, s, true⟩ := by
  simp [latestPick]

theorem latestPick_slice_of_ne {now : Int} {s : Slice} {log : List TimedCall} {p : Nat}
    (ne : s.proc ≠ p) : latestPick p (⟨now, .slice s⟩ :: log) = latestPick p log := by
  simp [latestPick, ne]

/-- After some picks, the latest one is new and alone, or it is the one before. -/
theorem latestPick_picks {now : Int} {picks : List Slice} {log : List TimedCall}
    {p : Nat} {k : Pick}
    (here : latestPick p ((picks.map fun s => ⟨now, .slice s⟩).reverse ++ log) = some k) :
    k.alone = true ∨ (latestPick p log = some k ∧ ∀ s ∈ picks, s.proc ≠ p) := by
  induction picks generalizing log with
  | nil => exact .inr ⟨here, by simp⟩
  | cons s picks ih =>
      rw [List.map_cons, List.reverse_cons, List.append_assoc, List.cons_append,
        List.nil_append] at here
      rcases ih here with alone | ⟨here, others⟩
      · exact .inl alone
      · by_cases same : s.proc = p
        · subst same
          rw [latestPick_slice] at here
          exact .inl (Option.some.inj here ▸ rfl)
        · rw [latestPick_slice_of_ne same] at here
          exact .inr ⟨here, List.forall_mem_cons.mpr ⟨same, others⟩⟩

/-- A handed-over process is in the log of every latest pick. -/
theorem latestPick_handOver {now : Int} {call : HookCall} {log : List TimedCall} {p q : Nat}
    (kind : call = .arrival q ∨ call = .ready q ∨ ∃ ran, call = .preempt q ran) {k : Pick}
    (here : latestPick p (⟨now, call⟩ :: log) = some k) : k.alone = false := by
  rcases kind with rfl | rfl | ⟨ran, rfl⟩
  all_goals
    simp only [latestPick, Option.map_eq_some_iff] at here
    obtain ⟨k', -, rfl⟩ := here
    rfl

/-! ## What a policy guarantees of its running processes -/

/-- While `p` is out with `slice`, no process has been handed over since its pick and
the deadline has not come, `Ahead` holds of `p` and every ready process. -/
def Unbeaten {σ : Type} (Ahead : SchedView D → Logged σ → Nat → Slice → Nat → Prop)
    (v : SchedView D) (s : Logged σ) (pl : Places) : Prop :=
  ∀ p slice time, pl p = .out slice → latestPick p s.log = some ⟨time, slice, true⟩ →
    v.now < slice.deadline → ∀ q, pl q = .ready → Ahead v s p slice q

/-- What a policy shows for this: a pick is ahead of the others, and the calls that
hand nothing over keep it so. -/
structure Steady (w : Workload) (P : Policy D) (Inv : SchedView D → Logged P.State → Places → Prop)
    (Ahead : SchedView D → Logged P.State → Nat → Slice → Nat → Prop) : Prop where
  view : ∀ {v v' s pl p slice q}, Inv v s pl → ViewOk w v pl → ViewStep pl v v' →
    pl p = .out slice → v'.now < slice.deadline → pl q = .ready → Ahead v s p slice q →
    Ahead v' s p slice q
  self : ∀ {v s s' pl slice q}, Inv v s pl → ViewOk w v pl → v.now < int64Max →
    P.nextSlice v s.state = some (s', some slice) → pl q = .ready → q ≠ slice.proc →
    Ahead v (s.push v (.slice slice) s') slice.proc slice q
  pick : ∀ {v s s' pl slice p slice' q}, Inv v s pl → ViewOk w v pl →
    P.nextSlice v s.state = some (s', some slice) → p ≠ slice.proc → pl p = .out slice' →
    v.now < slice'.deadline → pl q = .ready → q ≠ slice.proc → Ahead v s p slice' q →
    Ahead v (s.push v (.slice slice) s') p slice' q
  leave : ∀ {v s s' log pl p slice ran p' slice' q}, Inv v s pl → ViewOk w v pl →
    pl p = .out slice → Left v.now p s.log log →
    (optCall P.onBlock v s.state p ran = some s' ∨ optCall P.onComplete v s.state p ran = some s') →
    p' ≠ p → pl p' = .out slice' → v.now < slice'.deadline → pl q = .ready → q ≠ p →
    Ahead v s p' slice' q → Ahead v ⟨s', log⟩ p' slice' q

/-- A steady policy is never beaten. -/
theorem Steady.keptLog {w : Workload} {P : Policy D}
    {Inv : SchedView D → Logged P.State → Places → Prop}
    {Ahead : SchedView D → Logged P.State → Nat → Slice → Nat → Prop}
    (contract : Contract w P.logged Inv) (online : P.workConserving = true)
    (steady : Steady w P Inv Ahead) :
    KeptLog w P Inv (Unbeaten Ahead) where
  view inv here ok step p slice time out pick early q ready :=
    steady.view inv ok step out early ready
      (here p slice time out pick (step.now_le.trans_lt early) q ready)
  arrival _ _ _ _ _ p' slice time _ pick := by
    have := latestPick_handOver (.inl rfl) pick
    simp at this
  wake _ _ _ _ _ kind p' slice time _ pick := by
    have := latestPick_handOver (kind.imp_right .inl) pick
    simp at this
  preempt _ _ _ _ _ _ _ _ p' slice time _ pick := by
    have := latestPick_handOver (.inr (.inr ⟨_, rfl⟩)) pick
    simp at this
  refuse {v s s' pl} inv _ ok early run p slice time _ _ _ q ready := by
    obtain ⟨s₁, r, run', next⟩ := contract.next inv ok early
    have run : P.logged.nextSlice v s = some (⟨s', s.log⟩, none) := by
      simp [Policy.logged, run, Logged.pushSlice]
    cases run.symm.trans run'
    rcases next.2 with empty | ⟨offline, -⟩
    · exact absurd ready (empty q)
    · cases online.symm.trans offline
  pick {v s s' pl slice} inv here ok now_lt run p slice' time out pick early q ready := by
    have fresh : q ≠ slice.proc := by
      rintro rfl
      simp at ready
    rw [pl.move_of_ne _ fresh] at ready
    by_cases same : p = slice.proc
    · subst same
      obtain rfl : slice = slice' := by simpa using out
      exact steady.self inv ok now_lt run ready fresh
    · rw [pl.move_of_ne _ same] at out
      simp only [Logged.push] at pick
      rw [latestPick_slice_of_ne (Ne.symm same)] at pick
      exact steady.pick inv ok run same out early ready fresh
        (here p slice' time out pick early q ready)
  leave {v s s' log pl p slice ran place} inv here ok out left run p' slice' time out' pick early q
      ready := by
    have off : ∀ r z, pl.move p place r = z → (z = .ready ∨ ∃ s, z = .out s) →
      r ≠ p ∧ pl r = z := by
      intro r z at_ kind
      by_cases same : r = p
      · subst same
        rw [Places.move_self] at at_
        rcases run with ⟨rfl, -⟩ | ⟨rfl, -⟩ <;> rcases kind with rfl | ⟨s, rfl⟩ <;> cases at_
      · exact ⟨same, by rwa [pl.move_of_ne _ same] at at_⟩
    obtain ⟨ne, out'⟩ := off p' _ out' (.inr ⟨slice', rfl⟩)
    obtain ⟨ne', ready⟩ := off q _ ready (.inl rfl)
    rw [(Grown.left left).latestPick_eq] at pick
    exact steady.leave inv ok out left (run.imp And.right And.right) ne out' early ready ne'
      (here p' slice' time out' pick early q ready)

end CpuSched
