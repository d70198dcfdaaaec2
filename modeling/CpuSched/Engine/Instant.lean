import CpuSched.Engine.Soundness

/-!
# One instant

`process_instant` and `dispatch` succeed on a sound engine and are sequences of
moves.  What each of their loops establishes about the clock, a pending arrival
after `now`, a wake time after `now`, a core busy past `now`, is kept by every
move, so the loops can be treated one after another.
-/

namespace CpuSched

namespace Sim

variable {D : Type} {S : Sim D}
variable {PInv : SchedView D → S.policy.State → Places → Prop} {budget : Int}

/-! ## What is settled about an instant -/

/-- Every arrival that is due has been admitted. -/
def ArrivalsDone (a : S.Config) : Prop :=
  ∀ p < S.w.len, a.spots p = .new → a.eng.now < (S.w.proc p).arrival

/-- Every process that is due has been woken. -/
def WakesDone (a : S.Config) : Prop := ∀ p, a.spots p = .blocked → a.eng.now < a.eng.wake p

/-- `P` holds of core `c` if a process is on it. -/
def OnCore (P : Core → Prop) (c : Nat) (a : S.Config) : Prop :=
  ∀ p s, a.spots p = .core c s → P (a.eng.cores c)

/-- The core does not run a slice that used up its length. -/
def LengthDone (now : Int) (core : Core) : Prop := core.inCs = false → core.runEnd ≠ now

/-- The core is not at the end of a switch-in. -/
def SwitchDone (now : Int) (core : Core) : Prop := core.inCs = true → now < core.busyUntil

/-- The core does not run a slice that is over. -/
def CutDone (now : Int) (core : Core) : Prop := core.inCs = false → now < core.busyUntil

/-- No slice waits to be placed. -/
def NoneHeld (a : S.Config) : Prop := ∀ p s, a.spots p ≠ .held s

/-- The state at the end of `process_instant`. -/
structure Settled (a : S.Config) : Prop where
  arrivals : ArrivalsDone a
  wakes : WakesDone a
  switches : ∀ c, OnCore (SwitchDone a.eng.now) c a
  cuts : ∀ c, OnCore (CutDone a.eng.now) c a
  noneHeld : NoneHeld a

/-- The state after `dispatch`: a core is free only when the policy had nothing
to offer. -/
structure Dispatched (a : S.Config) : Prop extends Settled a where
  offered : (∃ c < S.opt.cores, (a.eng.cores c).proc = none) → (∀ p, a.spots p ≠ .ready) ∨
    (S.policy.workConserving = false ∧ ∃ p < S.w.len, a.spots p = .new)

section Kept

variable [Double D] {a b : S.Config}

theorem Move.new (move : S.Move a b) (p : Nat) (new : b.spots p = .new) : a.spots p = .new := by
  cases move with
  | mark => exact new
  | start => exact new
  | refuse => exact new
  | _ =>
      simp only [Function.update_apply] at new
      split_ifs at new
      exact new

theorem Move.arrivalsDone (move : S.Move a b) (done : ArrivalsDone a) : ArrivalsDone b := by
  intro p hp new
  rw [move.now_eq]
  exact done p hp (move.new p new)

variable (valid : S.w.Valid) (hcs : 0 ≤ S.opt.csCost)
include valid hcs

theorem Move.wakesDone (move : S.Move a b) (sound : S.Sound PInv budget a) (done : WakesDone a) :
    WakesDone b := by
  intro q blocked
  rw [move.now_eq]
  obtain ⟨p, same, wakes⟩ := move.sameBut valid hcs sound
  by_cases hq : q = p
  · subst hq
    exact wakes blocked
  · rw [same.wake q hq]
    exact done q (same.spots q hq ▸ blocked)

theorem Move.lengthDone (move : S.Move a b) (sound : S.Sound PInv budget a) {c : Nat}
    (done : OnCore (LengthDone a.eng.now) c a) : OnCore (LengthDone b.eng.now) c b := by
  rw [move.now_eq]
  refine move.onCore valid hcs sound (fun core h => h) (fun core rem hlen hrem _ _ => ?_)
    (fun core _ _ h => by simp at h) done
  simp only [startedCore]
  omega

theorem Move.switchDone (move : S.Move a b) (sound : S.Sound PInv budget a) {c : Nat}
    (done : OnCore (SwitchDone a.eng.now) c a) : OnCore (SwitchDone b.eng.now) c b := by
  rw [move.now_eq]
  refine move.onCore valid hcs sound (fun core h => h)
    (fun core rem _ _ _ h => by simp [startedCore] at h) (fun core pos _ _ => ?_) done
  simp only
  omega

theorem Move.cutDone (move : S.Move a b) (sound : S.Sound PInv budget a) {c : Nat}
    (done : OnCore (CutDone a.eng.now) c a) : OnCore (CutDone b.eng.now) c b := by
  rw [move.now_eq]
  refine move.onCore valid hcs sound (fun core h => h) (fun core rem hlen hrem hdl _ => ?_)
    (fun core _ _ h => by simp at h) done
  simp only [startedCore]
  omega

end Kept

/-! ## The events of `process_instant` -/

/-- A move that leaves no slice to place. -/
def Event [Double D] (a b : S.Config) : Prop := S.Move a b ∧ (NoneHeld a → NoneHeld b)

/-- A sequence of events. -/
abbrev Events [Double D] (S : Sim D) : S.Config → S.Config → Prop :=
  Relation.ReflTransGen (Event (S := S))

theorem noneHeld_update {e e' : S.Eng} {sp : Nat → Spot} {p : Nat} {z : Spot}
    (enters : z.OffCore) : NoneHeld ⟨e, sp⟩ → NoneHeld ⟨e', Function.update sp p z⟩ := by
  intro none q s hq
  exact none q s (enters.stays (.inl ⟨s, rfl⟩) hq)

section Events

variable [Double D] {a b : S.Config}

theorem Events.moves (events : S.Events a b) : S.Moves a b :=
  Relation.ReflTransGen.mono (fun _ _ event => event.1) _ _ events

theorem Events.noneHeld (events : S.Events a b) (none : NoneHeld a) : NoneHeld b := by
  induction events with
  | refl => exact none
  | tail _ event ih => exact event.2 ih

/-- What every move keeps holds after a sequence of moves. -/
theorem Moves.keep (valid : S.w.Valid) (hcs : 0 ≤ S.opt.csCost)
    (contract : Contract S.w S.policy PInv) {I : S.Config → Prop}
    (step : ∀ {a b}, S.Move a b → S.Sound PInv budget a → I a → I b) (moves : S.Moves a b)
    (sound : S.Sound PInv budget a) (start : I a) : I b := by
  induction moves with
  | refl => exact start
  | tail before move ih => exact step move (Moves.sound valid hcs contract before sound) ih

end Events

theorem optHook_eq (e : S.Eng)
    (f : Option (SchedView D → S.policy.State → Nat → Int → Option S.policy.State)) (p : Nat)
    (ran : Int) : S.optHook e f p ran =
      (optCall f (S.view e) e.state p ran).map fun state => { e with state } := by
  cases f <;> rfl

/-- The process on a core is alone there. -/
theorem Sound.alone {e : S.Eng} {sp : Nat → Spot} {c p q : Nat} {s s' : Slice}
    (sound : S.Sound PInv budget ⟨e, sp⟩) (hp : sp p = .core c s) (hq : sp q = .core c s') :
    q = p := by
  obtain ⟨_, hs, ok⟩ := sound.cores.seat p c s hp
  obtain ⟨_, hs', ok'⟩ := sound.cores.seat q c s' hq
  have := ok.proc_eq.symm.trans ok'.proc_eq
  simp only [Option.some.injEq] at this
  exact hs'.symm.trans (this.symm.trans hs)

/-- A core whose switch-in does not end now keeps its state. -/
theorem finishSwitch_of_going {e : S.Eng} {c : Nat} (going : ¬ ((e.cores c).proc ≠ none ∧
    (e.cores c).inCs = true ∧ (e.cores c).busyUntil = e.now)) : S.finishSwitch e c = e := by
  cases on_core : (e.cores c).proc with
  | none => simp only [finishSwitch, on_core]
  | some p =>
      have : (e.cores c).inCs = false ∨ (e.cores c).busyUntil ≠ e.now := by
        by_contra h
        rw [not_or, not_not, Bool.not_eq_false] at h
        exact going ⟨by simp [on_core], h⟩
      simp only [finishSwitch, on_core, if_pos this]

/-- A slice that ran its length ran for a tick, and a policy whose slices can end before
the burst does is told of it. -/
theorem Sound.elapsed {e : S.Eng} {sp : Nat → Spot} {c p : Nat} {s : Slice}
    (sound : S.Sound PInv budget ⟨e, sp⟩) (seat : sp p = .core c s)
    (runs : (e.cores c).inCs = false) (ends : (e.cores c).runEnd = e.now) :
    (e.cores c).runStart < e.now ∧
      ((S.chargeRun e c p).remaining p ≠ 0 → S.policy.onPreempt ≠ none) := by
  have ok : SeatOk _ e.now (e.remaining p) (e.cores c) s := (sound.cores.seat p c s seat).2.2
  obtain ⟨-, -, hrun, hend, -⟩ := ok.running runs
  have hlength := ok.length_pos
  have positive : 0 < e.remaining p :=
    (sound.progress (p := p) (by simp [seat]) (by simp [seat])).remaining_pos
  refine ⟨by omega, fun left whole => ?_⟩
  have := (ok.whole whole).1
  simp only [chargeRun_remaining, Function.update_self] at left
  omega

/-- Nothing is on a core that its process left. -/
theorem Sound.vacated {e e' : S.Eng} {sp : Nat → Spot} {c p : Nat} {s : Slice} {z : Spot}
    {P : Core → Prop} (sound : S.Sound PInv budget ⟨e, sp⟩) (seat : sp p = .core c s)
    (enters : z.OffCore) : OnCore P c ⟨e', Function.update sp p z⟩ := by
  intro q s' hq
  have stays := enters.stays (.inr ⟨c, s', rfl⟩) hq
  exact absurd (sound.alone seat stays) (enters.other (.inr ⟨c, s', rfl⟩) hq)

section Loops

variable [Double D] (valid : S.w.Valid) (hcs : 0 ≤ S.opt.csCost)
  (contract : Contract S.w S.policy PInv)
include valid hcs contract

/-- `admit_arrivals` admits every process that is due. -/
theorem admitArrivals_spec (pending : List ArrivalKey) {e : S.Eng} {sp : Nat → Spot}
    (sound : S.Sound PInv budget ⟨e, sp⟩) (pending_eq : e.pending = pending) :
    ∃ e' sp' any, S.admitArrivals pending e = some (e', any) ∧ S.Events ⟨e, sp⟩ ⟨e', sp'⟩ ∧
      ArrivalsDone ⟨e', sp'⟩ := by
  induction pending generalizing e sp with
  | nil =>
      refine ⟨e, sp, false, rfl, .refl, fun p hp new => ?_⟩
      have := (sound.pending.mem_iff p).mpr ⟨hp, new⟩
      simp [pending_eq] at this
  | cons key rest ih =>
      by_cases due : key.arrival ≤ e.now
      · obtain ⟨hp, new⟩ : key.index < S.w.len ∧ sp key.index = .new :=
          (sound.pending.mem_iff key.index).mp (by simp [pending_eq])
        have hrem := (sound.data.progress key.index hp (by simp [new])).remaining_pos
        obtain ⟨state, hook, -⟩ := contract.arrival sound.policy
          (sound.viewOk rfl fun _ _ => rfl) hp (places_eq_new.mpr new) hrem
        have move : S.Move ⟨e, sp⟩ ⟨{ e with state, pending := rest },
            Function.update sp key.index .ready⟩ := .arrive pending_eq due hook
        obtain ⟨e', sp', any, run, events, done⟩ := ih (move.sound valid hcs contract sound) rfl
        refine ⟨e', sp', true, ?_, .head ⟨move, noneHeld_update (by simp [Spot.OffCore])⟩ events,
          done⟩
        have hook : S.policy.onArrival (S.view e) e.state key.index = some state := hook
        simp [admitArrivals, due, Sim.hook, hook, run]
      · refine ⟨e, sp, false, by simp [admitArrivals, due], .refl, fun p hp new => ?_⟩
        -- the pending processes are sorted by arrival
        have mem := (sound.pending.mem_iff p).mpr ⟨hp, new⟩
        obtain ⟨k, hk, rfl⟩ := List.mem_map.mp mem
        rw [← (sound.pending.keys k hk).1]
        simp only [pending_eq] at hk
        rcases List.mem_cons.mp hk with rfl | hk
        · simp only
          omega
        · have hsorted := sound.pending.sorted
          simp only [pending_eq] at hsorted
          have := (List.pairwise_cons.mp hsorted).1 k hk
          simp only
          omega

/-- `wake_blocked` wakes every process that is due. -/
theorem wakeBlocked_spec (fuel : Nat) {e : S.Eng} {sp : Nat → Spot}
    (sound : S.Sound PInv budget ⟨e, sp⟩) (enough : e.blocked.len ≤ fuel) :
    ∃ e' sp' any, S.wakeBlocked fuel e = some (e', any) ∧ S.Events ⟨e, sp⟩ ⟨e', sp'⟩ ∧
      WakesDone ⟨e', sp'⟩ := by
  induction fuel generalizing e sp with
  | zero =>
      refine ⟨e, sp, false, rfl, .refl, fun p blocked => ?_⟩
      obtain ⟨i, hi, -⟩ := Heap.mem_toList.mp ((sound.blocked.mem_iff p).mpr blocked)
      simp only at hi
      omega
  | succ fuel ih =>
      by_cases due : e.blocked.isEmpty = false ∧ e.wake (e.blocked.items 0) ≤ e.now
      · obtain ⟨heap, popped, -, -, len_eq⟩ := heapPop_spec (S.blockedLess e.wake)
          (Heap.isEmpty_eq_false_iff.mp due.1)
        obtain ⟨blocked, -, -⟩ : sp (e.blocked.items 0) = .blocked ∧ _ ∧ _ :=
          sound.blocked.pop (blockedLess_total valid e.wake)
            (fun _ hq => sound.inside fun new => by cases hq.symm.trans new) popped
            (z := .ready) (by simp)
        have progress := sound.progress (p := e.blocked.items 0) (by simp [blocked])
          (by simp [blocked])
        obtain ⟨state, hook, -⟩ := contract.wake sound.policy (sound.viewOk rfl fun _ _ => rfl)
          (places_eq_blocked.mpr blocked) progress.remaining_pos
        have move : S.Move ⟨e, sp⟩ ⟨{ e with state, blocked := heap },
            Function.update sp (e.blocked.items 0) .ready⟩ := .wake popped due.2 hook
        obtain ⟨e', sp', any, run, events, done⟩ := ih (move.sound valid hcs contract sound)
          (by simp only; omega)
        refine ⟨e', sp', true, ?_, .head ⟨move, noneHeld_update (by simp [Spot.OffCore])⟩ events,
          done⟩
        have hook : S.policy.wakeHook (S.view e) e.state (e.blocked.items 0) = some state := hook
        have hook' : S.hook { e with blocked := heap } (fun v state =>
            S.policy.wakeHook v state (e.blocked.items 0)) =
            some { e with state, blocked := heap } := by
          have same : S.view { e with blocked := heap } = S.view e := rfl
          simp [Sim.hook, same, hook]
        simp [wakeBlocked, due, popped, hook', run]
      · refine ⟨e, sp, false, by simp only [wakeBlocked, if_neg due], .refl, fun p blocked => ?_⟩
        -- the root of the heap wakes first
        have mem := (sound.blocked.mem_iff p).mpr blocked
        have nonempty : e.blocked.isEmpty = false := by
          obtain ⟨i, hi, -⟩ := Heap.mem_toList.mp mem
          exact Heap.isEmpty_eq_false_iff.mpr (by simp only at hi; omega)
        have later : e.now < e.wake (e.blocked.items 0) := by
          by_contra h
          exact due ⟨nonempty, by omega⟩
        by_cases root : p = e.blocked.items 0
        · subst root
          exact later
        · have first := Heap.root_least (blockedLess_total valid e.wake) sound.blocked.ordered
            (fun q hq => sound.inside fun new => by
              cases ((sound.blocked.mem_iff q).mp hq).symm.trans new) p mem root
          simp only [blockedLess] at first
          split_ifs at first with heq
          · simp only [decide_eq_true_eq] at first
            simp only
            omega
          · simp only
            omega

omit hcs in
/-- `end_run` on a core that runs; handing the process back needs
`on_preempt`. -/
theorem endRun_spec {e : S.Eng} {sp : Nat → Spot} {c p : Nat} {s : Slice}
    (sound : S.Sound PInv budget ⟨e, sp⟩) (seat : sp p = .core c s)
    (runs : (e.cores c).inCs = false) (ran : (e.cores c).runStart < e.now)
    (handed : (S.chargeRun e c p).remaining p ≠ 0 → S.policy.onPreempt ≠ none) :
    ∃ e' z requeued, S.endRun e c = some (e', requeued) ∧ z.OffCore ∧
      Event ⟨e, sp⟩ ⟨e', Function.update sp p z⟩ := by
  have hp : p < S.w.len := sound.inside (by simp [seat])
  obtain ⟨hran, hlen, hrem⟩ := sound.ran_bounds seat runs ran
  have on_core : (e.cores c).proc = some p := by
    obtain ⟨_, hsp, ok⟩ := sound.cores.seat p c s seat
    exact hsp ▸ ok.proc_eq
  by_cases left : (S.chargeRun e c p).remaining p = 0
  · have phases : 1 < (S.w.proc p).phaseCount ∨ e.phase p + 1 = (S.w.proc p).phaseCount := by
      have := (valid.proc hp).phaseCount_pos
      have : e.phase p < (S.w.proc p).phaseCount :=
        (sound.progress (p := p) (by simp [seat]) (by simp [seat])).phase_lt
      omega
    by_cases last : e.phase p + 1 = (S.w.proc p).phaseCount
    · obtain ⟨lent, viewOk⟩ := sound.lendBurstOver contract seat
      obtain ⟨state, hook, -⟩ := contract.complete lent viewOk (places_of_core seat) hran hlen
      refine ⟨_, .done, false, ?_, by simp [Spot.OffCore],
        .complete seat runs ran left last hook, noneHeld_update (by simp [Spot.OffCore])⟩
      have state_eq : (S.finishProcess (S.burstOver e c p) p).state = e.state := by
        simp [finishProcess, burstOver]
      have done : S.burstDone (S.chargeRun e c p) p (e.now - (e.cores c).runStart) =
          some { S.finishProcess (S.burstOver e c p) p with state } := by
        have last' : (S.chargeRun e c p).phase p + 1 = (S.w.proc p).phaseCount := by
          simpa using last
        simp only [burstDone, last', if_true]
        refine (S.optHook_eq (S.finishProcess (S.burstOver e c p) p) _ _ _).trans ?_
        change (optCall _ (S.view (S.burstOver e c p))
          (S.finishProcess (S.burstOver e c p) p).state p _).map _ = _
        rw [state_eq, hook]
        rfl
      simp [endRun, on_core, left, done]
    · obtain ⟨hlt, eq⟩ := sound.startIo_eq valid seat runs left last
      obtain ⟨lent, viewOk⟩ := sound.lendStartIo valid contract seat runs left last
      have hio := (valid.proc hp).phase_pos (k := e.phase p + 1) (by omega)
      obtain ⟨heap, pushed, -⟩ := sound.pushBlocked valid seat hio.le
      obtain ⟨state, hook, -⟩ := contract.block lent viewOk (places_of_core seat) hran hlen
        (by omega)
      have pushed' : heapPush (S.blockedLess (S.startIo (S.burstOver e c p) p).wake)
          (S.startIo (S.burstOver e c p) p).blocked p = some heap := by
        rw [eq]
        simpa [burstOver] using pushed
      refine ⟨_, .blocked, false, ?_, by simp [Spot.OffCore],
        .block seat runs ran left last pushed' hook, noneHeld_update (by simp [Spot.OffCore])⟩
      have state_eq : (S.startIo (S.burstOver e c p) p).state = e.state := by
        rw [eq]
        simp [burstOver]
      have done : S.burstDone (S.chargeRun e c p) p (e.now - (e.cores c).runStart) =
          some { S.startIo (S.burstOver e c p) p with blocked := heap, state } := by
        have last' : (S.chargeRun e c p).phase p + 1 ≠ (S.w.proc p).phaseCount := by
          simpa using last
        have hdone : S.optHook { S.startIo (S.burstOver e c p) p with blocked := heap }
            S.policy.onBlock p (e.now - (e.cores c).runStart) =
            some { S.startIo (S.burstOver e c p) p with blocked := heap, state } := by
          rw [S.optHook_eq]
          change (optCall _ (S.view (S.startIo (S.burstOver e c p) p))
            (S.startIo (S.burstOver e c p) p).state p _).map _ = _
          rw [state_eq, hook]
          rfl
        simp only [burstDone, last', if_false]
        exact (Option.bind_eq_some_iff.mpr ⟨heap, pushed', hdone⟩)
      simp [endRun, on_core, left, done]
  · obtain ⟨lent, viewOk⟩ := sound.lendCharge contract seat
    obtain ⟨f, hook_eq⟩ := Option.ne_none_iff_exists'.mp (handed left)
    have positive : 0 < (S.view (S.chargeRun e c p)).remaining p := by
      simp only [chargeRun_remaining, Function.update_self] at left
      simp only [view, chargeRun_remaining, Function.update_self]
      omega
    obtain ⟨state, hook, -⟩ := contract.preempt lent viewOk (places_of_core seat) hran hlen
      positive hook_eq
    refine ⟨_, .ready, true, ?_, by simp [Spot.OffCore],
      .preempt seat runs ran left hook_eq hook, noneHeld_update (by simp [Spot.OffCore])⟩
    simp only [endRun, on_core, left, if_false, hook_eq, Sim.hook, chargeRun_state, hook,
      Option.map_some]

/-- A slice that used up its length ends. -/
theorem endFinished_spec (cs : List Nat) (inside : ∀ c ∈ cs, c < S.opt.cores) {e : S.Eng}
    {sp : Nat → Spot} (sound : S.Sound PInv budget ⟨e, sp⟩) :
    ∃ e' sp' requeued, S.endFinished cs e = some (e', requeued) ∧ S.Events ⟨e, sp⟩ ⟨e', sp'⟩ ∧
      ∀ c ∈ cs, OnCore (LengthDone e'.now) c ⟨e', sp'⟩ := by
  induction cs generalizing e sp with
  | nil => exact ⟨e, sp, false, rfl, .refl, by simp⟩
  | cons c rest ih =>
      simp only [List.mem_cons, forall_eq_or_imp] at inside
      by_cases elapsed : (e.cores c).proc ≠ none ∧ (e.cores c).inCs = false ∧
          (e.cores c).runEnd = e.now
      · obtain ⟨p, on_core⟩ := Option.ne_none_iff_exists'.mp elapsed.1
        obtain ⟨s, seat⟩ : ∃ s, sp p = .core c s := sound.cores.owner c inside.1 p on_core
        obtain ⟨ran, handed⟩ := sound.elapsed seat elapsed.2.1 elapsed.2.2
        obtain ⟨e₁, z, requeued, ended, enters, event⟩ := endRun_spec valid contract sound seat
          elapsed.2.1 ran handed
        have sound₁ := event.1.sound valid hcs contract sound
        obtain ⟨e', sp', more, run, events, done⟩ := ih inside.2 sound₁
        refine ⟨e', sp', requeued || more, by simp [endFinished, elapsed, ended, run],
          .head event events, ?_⟩
        simp only [List.mem_cons, forall_eq_or_imp]
        refine ⟨?_, done⟩
        exact Moves.keep valid hcs contract (I := fun a => OnCore (LengthDone a.eng.now) c a)
          (fun move sound => move.lengthDone valid hcs sound) events.moves sound₁
          (sound.vacated seat enters)
      · obtain ⟨e', sp', more, run, events, done⟩ := ih inside.2 sound
        refine ⟨e', sp', more, by simp only [endFinished, if_neg elapsed, run], events, ?_⟩
        simp only [List.mem_cons, forall_eq_or_imp]
        refine ⟨?_, done⟩
        have here : OnCore (LengthDone e.now) c ⟨e, sp⟩ := by
          intro p s seat runs ended
          have ok : SeatOk _ e.now (e.remaining p) (e.cores c) s :=
            (sound.cores.seat p c s seat).2.2
          exact elapsed ⟨by simp [ok.proc_eq], runs, ended⟩
        exact Moves.keep valid hcs contract (I := fun a => OnCore (LengthDone a.eng.now) c a)
          (fun move sound => move.lengthDone valid hcs sound) events.moves sound here

/-- Marking touches only the flags of switching cores. -/
theorem markRecheck_spec (redecide : Bool)
    (redecides : redecide = true → S.policy.preemptOnReady = true)
    (cs : List Nat) (inside : ∀ c ∈ cs, c < S.opt.cores) {e : S.Eng} {sp : Nat → Spot}
    (sound : S.Sound PInv budget ⟨e, sp⟩) :
    S.Events ⟨e, sp⟩ ⟨cs.foldl (S.markRecheck redecide) e, sp⟩ := by
  induction cs generalizing e with
  | nil => exact .refl
  | cons c rest ih =>
      simp only [List.mem_cons, forall_eq_or_imp] at inside
      rw [List.foldl_cons]
      by_cases switching : redecide = true ∧ (e.cores c).proc ≠ none ∧ (e.cores c).inCs = true
      · obtain ⟨p, on_core⟩ := Option.ne_none_iff_exists'.mp switching.2.1
        obtain ⟨s, seat⟩ : ∃ s, sp p = .core c s := sound.cores.owner c inside.1 p on_core
        have move : S.Move ⟨e, sp⟩ ⟨S.setCore e c { e.cores c with recheck := true }, sp⟩ :=
          .mark seat switching.2.2 (redecides switching.1)
        have eq : S.markRecheck redecide e c = S.setCore e c
          { e.cores c with recheck := true } := by
          simp only [markRecheck, if_pos switching]
        rw [eq]
        exact .head ⟨move, fun none => none⟩ (ih inside.2 (move.sound valid hcs contract sound))
      · have eq : S.markRecheck redecide e c = e := by
          simp only [markRecheck, if_neg switching]
        rw [eq]
        exact ih inside.2 sound

/-- A switch-in that is over turns into a run. -/
theorem finishSwitch_spec (cs : List Nat) (inside : ∀ c ∈ cs, c < S.opt.cores) {e : S.Eng}
    {sp : Nat → Spot} (sound : S.Sound PInv budget ⟨e, sp⟩) :
    S.Events ⟨e, sp⟩ ⟨cs.foldl S.finishSwitch e, sp⟩ ∧
      ∀ c ∈ cs, OnCore (SwitchDone e.now) c ⟨cs.foldl S.finishSwitch e, sp⟩ := by
  induction cs generalizing e with
  | nil => exact ⟨.refl, by simp⟩
  | cons c rest ih =>
      simp only [List.mem_cons, forall_eq_or_imp] at inside ⊢
      rw [List.foldl_cons]
      have later : ∀ {e' : S.Eng}, S.Sound PInv budget ⟨e', sp⟩ → e'.now = e.now →
          OnCore (SwitchDone e'.now) c ⟨e', sp⟩ →
          OnCore (SwitchDone e.now) c ⟨rest.foldl S.finishSwitch e', sp⟩ := by
        intro e' sound' now_eq here
        have events := (ih inside.2 sound').1
        have := Moves.keep valid hcs contract (I := fun a => OnCore (SwitchDone a.eng.now) c a)
          (fun move sound => move.switchDone valid hcs sound) events.moves sound' here
        rwa [events.moves.now_eq, now_eq] at this
      by_cases elapsed : (e.cores c).proc ≠ none ∧ (e.cores c).inCs = true ∧
          (e.cores c).busyUntil = e.now
      · obtain ⟨on_core, switching, elapsed⟩ := elapsed
        obtain ⟨p, on_core⟩ := Option.ne_none_iff_exists'.mp on_core
        obtain ⟨s, seat⟩ : ∃ s, sp p = .core c s := sound.cores.owner c inside.1 p on_core
        obtain ⟨deadline, eq, choice⟩ : ∃ deadline,
            S.finishSwitch e c = S.startRun e c p deadline ∧
            ((deadline = (e.cores c).deadline ∧ e.now < deadline ∧ (e.cores c).recheck = false) ∨
              (deadline = e.now + 1 ∧
                ((e.cores c).recheck = true ∨ (e.cores c).deadline ≤ e.now))) := by
          by_cases again : (e.cores c).recheck = true ∨ (e.cores c).deadline ≤ e.now
          · -- the tick that the process runs in any case fits
            have := sound.switching_fits valid seat switching
            have : 0 ≤ e.now := sound.now_nonneg
            refine ⟨e.now + 1, ?_, .inr ⟨rfl, again⟩⟩
            simp only [finishSwitch, on_core, switching, elapsed, again, startRun]
            rw [S.addTime_of_le e (by omega) (by omega)]
            simp
          · refine ⟨(e.cores c).deadline, ?_,
              .inl ⟨rfl, by omega, by simpa using fun h => again (.inl h)⟩⟩
            have same : S.startRun e c p (e.cores c).deadline = S.beginRun e c p := by
              rw [startRun, setCore_self]
            rw [same]
            simp only [finishSwitch, on_core, switching, elapsed, again]
            simp
        have move : S.Move ⟨e, sp⟩ ⟨S.startRun e c p deadline, sp⟩ :=
          .start seat switching elapsed choice
        have sound' := move.sound valid hcs contract sound
        rw [eq]
        obtain ⟨events, done⟩ := ih inside.2 sound'
        have now_eq : (S.startRun e c p deadline).now = e.now := move.now_eq
        refine ⟨.head ⟨move, fun none => none⟩ events,
          later sound' now_eq ?_, by rwa [now_eq] at done⟩
        intro q s' _ switching'
        rw [sound.startRun_eq valid seat switching] at switching'
        simp [startedCore] at switching'
      · rw [finishSwitch_of_going elapsed]
        obtain ⟨events, done⟩ := ih inside.2 sound
        refine ⟨events, later sound rfl ?_, done⟩
        intro p s seat switching
        have ok : SeatOk _ e.now (e.remaining p) (e.cores c) s := (sound.cores.seat p c s seat).2.2
        have hsp := (sound.cores.seat p c s seat).2.1
        have := ok.switching switching
        have hne : (e.cores c).busyUntil ≠ e.now :=
          fun h => elapsed ⟨by simp [ok.proc_eq], switching, h⟩
        simp only
        omega

/-- Slices cut by their deadline end, and all of them when re-deciding. -/
theorem interrupt_spec (redecide : Bool)
    (redecides : redecide = true → S.policy.preemptOnReady = true) (cs : List Nat)
    (inside : ∀ c ∈ cs, c < S.opt.cores) {e : S.Eng} {sp : Nat → Spot}
    (sound : S.Sound PInv budget ⟨e, sp⟩)
    (lengths : ∀ c, c < S.opt.cores → OnCore (LengthDone e.now) c ⟨e, sp⟩) :
    ∃ e' sp', S.interrupt redecide cs e = some e' ∧ S.Events ⟨e, sp⟩ ⟨e', sp'⟩ ∧
      ∀ c ∈ cs, OnCore (CutDone e'.now) c ⟨e', sp'⟩ := by
  induction cs generalizing e sp with
  | nil => exact ⟨e, sp, rfl, .refl, by simp⟩
  | cons c rest ih =>
      simp only [List.mem_cons, forall_eq_or_imp] at inside
      by_cases cut : (e.cores c).proc ≠ none ∧ (e.cores c).inCs = false ∧
          (e.cores c).runStart ≠ e.now ∧ (redecide = true ∨ (e.cores c).busyUntil = e.now)
      · obtain ⟨p, on_core⟩ := Option.ne_none_iff_exists'.mp cut.1
        obtain ⟨s, seat⟩ : ∃ s, sp p = .core c s := sound.cores.owner c inside.1 p on_core
        have ok : SeatOk _ e.now (e.remaining p) (e.cores c) s := (sound.cores.seat p c s seat).2.2
        obtain ⟨hstart, hnow, -, hend, hbusy⟩ := ok.running cut.2.1
        have hended : (e.cores c).runEnd ≠ e.now := lengths c inside.1 p s seat cut.2.1
        have ran : (e.cores c).runStart < e.now := by
          have := cut.2.2.1
          omega
        have handed : (S.chargeRun e c p).remaining p ≠ 0 → S.policy.onPreempt ≠ none := by
          intro _ whole
          rcases cut.2.2.2 with h | h
          · rw [contract.interruptible whole] at redecides
            simpa using redecides h
          · -- a slice that only its deadline ends has a deadline
            have := (ok.whole whole).2.1
            have hmax : schedNoDeadline = int64Max := rfl
            have fits : e.now + S.spotWork e p (sp p) ≤ int64Max :=
              sound.fits valid (sound.inside (by simp [seat]))
            have tail := (valid.proc (i := p) (sound.inside (by simp [seat]))).tail_nonneg
              (e.phase p)
            simp only [seat, spotWork, cut.2.1] at fits
            simp only [Bool.false_eq_true, if_false] at fits
            omega
        obtain ⟨e₁, z, requeued, ended, enters, event⟩ := endRun_spec valid contract sound seat
          cut.2.1 ran handed
        have sound₁ := event.1.sound valid hcs contract sound
        obtain ⟨e', sp', run, events, done⟩ := ih inside.2 sound₁
          fun c' hc' => event.1.lengthDone valid hcs sound (lengths c' hc')
        refine ⟨e', sp', by simp only [interrupt, if_pos cut, ended, run, Option.bind_eq_bind,
          Option.bind_some], .head event events, ?_⟩
        simp only [List.mem_cons, forall_eq_or_imp]
        refine ⟨?_, done⟩
        exact Moves.keep valid hcs contract (I := fun a => OnCore (CutDone a.eng.now) c a)
          (fun move sound => move.cutDone valid hcs sound) events.moves sound₁
          (sound.vacated seat enters)
      · obtain ⟨e', sp', run, events, done⟩ := ih inside.2 sound lengths
        refine ⟨e', sp', by simp only [interrupt, if_neg cut, run], events, ?_⟩
        simp only [List.mem_cons, forall_eq_or_imp]
        refine ⟨?_, done⟩
        have here : OnCore (CutDone e.now) c ⟨e, sp⟩ := by
          intro p s seat runs
          have ok : SeatOk _ e.now (e.remaining p) (e.cores c) s :=
            (sound.cores.seat p c s seat).2.2
          obtain ⟨_, _, _, _, _⟩ := ok.running runs
          have stays : (e.cores c).runStart = e.now ∨ (e.cores c).busyUntil ≠ e.now := by
            by_contra h
            rw [not_or, not_not] at h
            exact cut ⟨by simp [ok.proc_eq], runs, h.1, .inr h.2⟩
          simp only
          omega
        exact Moves.keep valid hcs contract (I := fun a => OnCore (CutDone a.eng.now) c a)
          (fun move sound => move.cutDone valid hcs sound) events.moves sound here

/-- `process_instant` succeeds and settles the instant. -/
theorem processInstant_spec {e : S.Eng} {sp : Nat → Spot} (sound : S.Sound PInv budget ⟨e, sp⟩)
    (none : NoneHeld ⟨e, sp⟩) :
    ∃ e' sp', S.processInstant e = some e' ∧ S.Events ⟨e, sp⟩ ⟨e', sp'⟩ ∧ Settled ⟨e', sp'⟩ := by
  have inside : ∀ c ∈ List.range S.opt.cores, c < S.opt.cores := fun c hc => List.mem_range.mp hc
  obtain ⟨e₁, sp₁, arrived, run₁, events₁, arrivals⟩ :=
    admitArrivals_spec valid hcs contract e.pending sound rfl
  have sound₁ := events₁.moves.sound valid hcs contract sound
  obtain ⟨e₂, sp₂, woken, run₂, events₂, wakes⟩ :=
    wakeBlocked_spec valid hcs contract e₁.blocked.len sound₁ le_rfl
  have sound₂ := events₂.moves.sound valid hcs contract sound₁
  obtain ⟨e₃, sp₃, requeued, run₃, events₃, lengths⟩ :=
    endFinished_spec valid hcs contract (List.range S.opt.cores) inside sound₂
  have sound₃ := events₃.moves.sound valid hcs contract sound₂
  obtain ⟨redecide, hredecide⟩ : ∃ redecide, redecide =
    (S.policy.preemptOnReady && ((arrived || woken) || requeued || S.cutDue e)) := ⟨_, rfl⟩
  have redecides : redecide = true → S.policy.preemptOnReady = true := by
    intro h
    rw [h] at hredecide
    simp only [Bool.true_eq, Bool.and_eq_true] at hredecide
    exact hredecide.1
  have events₄ := markRecheck_spec valid hcs contract redecide redecides (List.range S.opt.cores)
    inside sound₃
  have sound₄ := events₄.moves.sound valid hcs contract sound₃
  obtain ⟨events₅, switches⟩ :=
    finishSwitch_spec valid hcs contract (List.range S.opt.cores) inside sound₄
  have sound₅ := events₅.moves.sound valid hcs contract sound₄
  have lengths₅ : ∀ c, c < S.opt.cores → OnCore (LengthDone _) c ⟨_, sp₃⟩ := fun c hc =>
    Moves.keep valid hcs contract (I := fun a => OnCore (LengthDone a.eng.now) c a)
      (fun move sound => move.lengthDone valid hcs sound)
      (events₄.moves.trans events₅.moves) sound₃ (lengths c (List.mem_range.mpr hc))
  obtain ⟨e₆, sp₆, run₆, events₆, cuts⟩ :=
    interrupt_spec valid hcs contract redecide redecides (List.range S.opt.cores) inside sound₅
      lengths₅
  have sound₆ := events₆.moves.sound valid hcs contract sound₅
  have late : S.Events ⟨e₂, sp₂⟩ ⟨e₆, sp₆⟩ :=
    events₃.trans (events₄.trans (events₅.trans events₆))
  have events : S.Events ⟨e, sp⟩ ⟨e₆, sp₆⟩ := events₁.trans (events₂.trans late)
  refine ⟨e₆, sp₆, ?_, events, ?_, ?_, ?_, ?_, events.noneHeld none⟩
  · simp only [processInstant, run₁, run₂, run₃, Option.bind_eq_bind, Option.bind_some, ← hredecide,
      run₆]
  · exact Moves.keep valid hcs contract (I := ArrivalsDone) (fun move _ => move.arrivalsDone)
      (events₂.moves.trans late.moves) sound₁ arrivals
  · exact Moves.keep valid hcs contract (I := WakesDone)
      (fun move sound => move.wakesDone valid hcs sound) late.moves sound₂ wakes
  · intro c p s seat
    have hc : c < S.opt.cores := (sound₆.cores.seat p c s seat).1
    have here := switches c (List.mem_range.mpr hc)
    rw [← events₅.moves.now_eq] at here
    exact Moves.keep valid hcs contract (I := fun a => OnCore (SwitchDone a.eng.now) c a)
      (fun move sound => move.switchDone valid hcs sound) events₆.moves sound₅ here p s seat
  · intro c p s seat
    exact cuts c (List.mem_range.mpr (sound₆.cores.seat p c s seat).1) p s seat

end Loops

end Sim

end CpuSched
