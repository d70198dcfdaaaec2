import CpuSched.Engine.Redecide
import CpuSched.Engine.Schedule
import CpuSched.Policies.Slices
import CpuSched.Reference.LoopProjection
import CpuSched.Reference.Lockstep

/-!
# The engine agrees with the tick loop

Between two events of the engine the rounds of the tick loop change nothing but its
counters: no process arrives, wakes or ends, and a free core is offered to a policy that
refuses.  So the loop, driving a policy that lets its slices run, comes to every state of
the engine, and to the same result.
-/

namespace CpuSched

namespace Sim

variable {D : Type} [Double D] {S : Sim D}

/-! ## Rounds of the loop -/

/-- The loop comes from `r` to `r'`. -/
def Leads (S : Sim D) (r r' : S.Ref) : Prop :=
  ∃ k, ∀ fuel, S.refLoop (k + fuel) r = S.refLoop fuel r'

theorem Leads.refl (r : S.Ref) : Leads S r r := ⟨0, fun fuel => by rw [Nat.zero_add]⟩

theorem Leads.trans {r r' r'' : S.Ref} (first : Leads S r r') (then_ : Leads S r' r'') :
    Leads S r r'' := by
  obtain ⟨k, first⟩ := first
  obtain ⟨m, then_⟩ := then_
  exact ⟨k + m, fun fuel => by rw [Nat.add_assoc, first, then_]⟩

/-- One round in which not everything completes. -/
theorem Leads.round {r r₁ r₂ : S.Ref} (running : r.done < S.w.len)
    (events : S.refEvents r = some r₁)
    (unfinished : r₁.done ≠ S.w.len) (dispatched : S.refDispatch r₁ = some r₂) :
    Leads S r (S.refPass r₂) :=
  ⟨1, fun fuel => by
    rw [Nat.add_comm]
    simp only [refLoop, if_pos running, events, Option.bind_eq_bind, Option.bind_some,
      if_neg unfinished, dispatched]⟩

omit [Double D] in
/-- A loop that changes nothing. -/
theorem foldlM_fixed {α β : Type} {f : α → β → Option α} {a : α} (l : List β)
    (fixed : ∀ b ∈ l, f a b = some a) : l.foldlM f a = some a := by
  induction l with
  | nil => rfl
  | cons b rest ih =>
      simp only [List.mem_cons, forall_eq_or_imp] at fixed
      rw [List.foldlM_cons, fixed.1]
      exact ih fixed.2

/-! ## Between two events -/

section Between

variable {PInv : SchedView D → S.policy.State → Places → Prop} {budget : Int} {e : S.Eng}
  {sp : Nat → Spot} {r : S.Ref}

omit [Double D] in
/-- The mirror does not see the clock of the engine. -/
theorem Mirrors.later {τ : Nat → Int} (mirrors : Mirrors S e τ r) (t : Int) :
    Mirrors S { e with now := t } τ r :=
  ⟨mirrors.state, mirrors.phase, mirrors.burstLen, mirrors.predicted, mirrors.wake, mirrors.done,
    mirrors.completion, mirrors.switches, mirrors.csTime, mirrors.clocks, mirrors.lanes⟩

omit [Double D] in
/-- What the policy knows holds at a later time. -/
theorem Sound.policy_later (contract : Contract S.w S.policy PInv)
    (sound : S.Sound PInv budget ⟨e, sp⟩) {t : Int} (le : e.now ≤ t) :
    PInv (S.view { e with now := t }) e.state (places sp) ∧
      ViewOk S.w (S.view { e with now := t }) (places sp) := by
  have viewOk := sound.viewOk (e := e) rfl fun _ _ => rfl
  have viewOk' : ViewOk S.w (S.view { e with now := t }) (places sp) :=
    ⟨rfl, rfl, viewOk.now_nonneg.trans le, viewOk.ready_pos, viewOk.outside⟩
  exact ⟨contract.view sound.policy viewOk viewOk'
    ⟨rfl, rfl, rfl, rfl, le, Iff.rfl, fun _ _ => rfl, fun _ _ => rfl, fun _ _ => rfl⟩, viewOk'⟩

variable (contract : Contract S.w S.policy PInv) (calm : Calm S.w S.policy PInv)
  (sound : S.Sound PInv budget ⟨e, sp⟩)

/-- No event lies between now and `t`. -/
structure Quiet (S : Sim D) (e : S.Eng) (sp : Nat → Spot) (t : Int) : Prop where
  now_le : e.now ≤ t
  event : ∀ {t'}, EventAt ⟨e, sp⟩ t' → t < t'

include sound

omit [Double D] in
/-- The cores go on through the tick from `t`. -/
theorem Quiet.steadily {t : Int} (quiet : Quiet S e sp t) {c : Nat} (hc : c < S.opt.cores) :
    Steadily (e.cores c) t where
  since free := (sound.cores.free c hc free).2.trans quiet.now_le
  switching on _ := by
    obtain ⟨p, hp⟩ := Option.ne_none_iff_exists'.mp on
    obtain ⟨s, seat⟩ := sound.cores.owner c hc p hp
    exact quiet.event (.slice p c s seat rfl)
  running on runs := by
    obtain ⟨p, hp⟩ := Option.ne_none_iff_exists'.mp on
    obtain ⟨s, seat⟩ := sound.cores.owner c hc p hp
    exact (((sound.cores.seat p c s seat).2.2).running runs).1.trans quiet.now_le

include calm

/-- Steps 1 to 5 find nothing to do. -/
theorem Quiet.refEvents (quiet : Quiet S e sp r.t) (mirrors : Mirrors S e (fun _ => r.t) r)
    (pending_eq : e.pending = waiting S r.t) : S.refEvents r = some r := by
  have arrivals : S.refArrivals r = some r := by
    rw [refArrivals, sortedPids_nil fun p hp => ?_]
    · rfl
    · rw [decide_eq_false_iff_not]
      intro here
      have mem : (⟨(S.w.proc p).arrival, (S.w.proc p).pid, p⟩ : ArrivalKey) ∈ e.pending := by
        rw [pending_eq, waiting, List.mem_filter]
        exact ⟨S.mem_order.mpr ⟨hp, rfl, rfl⟩, by simp [here]⟩
      obtain ⟨-, new⟩ := (sound.pending.mem_iff p).mp (List.mem_map_of_mem mem)
      exact lt_irrefl _ (quiet.event (.arrival p hp new here))
  have wakes : S.refWakes r = some r := by
    rw [refWakes, sortedPids_nil fun p _ => ?_]
    · rfl
    · rw [decide_eq_false_iff_not, mirrors.wake]
      split_ifs with mem
      · have later := quiet.event (.wake p ((sound.blocked.mem_iff p).mp mem) rfl)
        simp only [Option.some.injEq] at later ⊢
        omega
      · simp
  have busy : ∀ c < S.opt.cores, (e.cores c).proc ≠ none → r.t < (e.cores c).busyUntil := by
    intro c hc on
    obtain ⟨p, hp⟩ := Option.ne_none_iff_exists'.mp on
    obtain ⟨s, seat⟩ := sound.cores.owner c hc p hp
    exact quiet.event (.slice p c s seat rfl)
  have finishes : (List.range S.opt.cores).foldlM S.refFinish r = some r := by
    refine foldlM_fixed _ fun c mem => ?_
    have hc := List.mem_range.mp mem
    have lane := mirrors.lanes c hc
    rw [refFinish, if_neg]
    rintro ⟨on, runs, used⟩
    rw [lane.proc_eq] at on
    rw [(lane.on on).1] at runs
    rw [(lane.running on runs).1] at used
    obtain ⟨p, hp⟩ := Option.ne_none_iff_exists'.mp on
    obtain ⟨s, seat⟩ := sound.cores.owner c hc p hp
    obtain ⟨-, -, -, -, busy_eq⟩ := (sound.cores.seat p c s seat).2.2.running runs
    have := busy c hc on
    simp only at busy_eq
    omega
  have switches : (List.range S.opt.cores).foldlM S.refFinishSwitch r = some r := by
    refine foldlM_fixed _ fun c mem => ?_
    have hc := List.mem_range.mp mem
    have lane := mirrors.lanes c hc
    rw [refFinishSwitch, if_neg]
    rintro ⟨on, switching, used⟩
    rw [lane.proc_eq] at on
    rw [(lane.on on).1] at switching
    rw [lane.switching on switching] at used
    have := busy c hc on
    omega
  simp only [Sim.refEvents, arrivals, wakes, finishes, switches, calm.notReady, Option.bind_eq_bind,
    Option.bind_some, Bool.false_eq_true, if_false]

include contract

omit [Double D] in
/-- Step 6 finds nothing to do. -/
theorem Quiet.refDispatch (quiet : Quiet S e sp r.t) (mirrors : Mirrors S e (fun _ => r.t) r)
    (early : r.t < int64Max)
    (offered : (∃ c < S.opt.cores, (e.cores c).proc = none) → ∀ p, sp p ≠ .ready) :
    S.refDispatch r = some r := by
  have picks : S.refPicks (refFreeCores S r).length r = some (r, []) := by
    cases free : refFreeCores S r with
    | nil => rfl
    | cons c rest =>
        have mem : c ∈ refFreeCores S r := by simp [free]
        rw [refFreeCores, List.mem_filter, List.mem_range, decide_eq_true_eq] at mem
        have idle := offered ⟨c, mem.1, (mirrors.lanes c mem.1).proc_eq ▸ mem.2⟩
        obtain ⟨inv, viewOk⟩ := sound.policy_later contract quiet.now_le
        obtain ⟨state, pick, hook, next⟩ := contract.next inv viewOk early
        cases pick with
        | some slice => exact absurd (places_eq_ready.mp next.1) (idle _)
        | none =>
            obtain ⟨rfl, -⟩ := calm.refuses inv viewOk early hook
            have shadow : Shadow (places sp) (S.view { e with now := r.t }) (S.refView r) :=
              (mirrors.later r.t).shadow rfl fun c q runs => by
                obtain ⟨s, seat⟩ := sound.cores.owner c runs.lt q runs.proc_eq
                exact ⟨s, places_of_core seat⟩
            have hook' := (calm.next inv viewOk early shadow).trans hook
            rw [← mirrors.state] at hook'
            simp only [List.length_cons, refPicks, hook', Option.bind_eq_bind, Option.bind_some]
  simp only [refFreeCores] at picks
  simp only [Sim.refDispatch, picks, Option.bind_eq_bind, Option.bind_some, refHomes, refRest,
    List.append_nil, List.foldlM_nil]
  rfl

omit [Double D] contract calm in
/-- A process that waits has not arrived. -/
theorem Quiet.waiting_eq {t : Int} (quiet : Quiet S e sp t) (pending_eq : e.pending = waiting S t) :
    e.pending = waiting S (t + 1) := by
  rw [pending_eq, waiting, waiting]
  refine List.filter_congr fun key mem => ?_
  rw [decide_eq_decide]
  constructor
  · intro le
    have here : key ∈ e.pending := by
      rw [pending_eq, waiting, List.mem_filter]
      exact ⟨mem, by simpa using le⟩
    obtain ⟨hp, new⟩ := (sound.pending.mem_iff key.index).mp (List.mem_map_of_mem here)
    have := quiet.event (.arrival key.index hp new (sound.pending.keys key here).1.symm)
    omega
  · omega

/-- The loop waits for the next event. -/
theorem Leads.wait {t : Int} (next : ∀ {t'}, EventAt ⟨e, sp⟩ t' → t ≤ t') (le_max : t ≤ int64Max)
    (running : e.completed < S.w.len)
    (offered : (∃ c < S.opt.cores, (e.cores c).proc = none) → ∀ p, sp p ≠ .ready) (n : Nat)
    {r : S.Ref} (ahead : t = r.t + n) (mirrors : Mirrors S e (fun _ => r.t) r)
    (now_le : e.now ≤ r.t)
    (pending_eq : e.pending = waiting S r.t) :
    ∃ r', Leads S r r' ∧ Mirrors S e (fun _ => r'.t) r' ∧ r'.t = t ∧ e.pending = waiting S t := by
  induction n generalizing r with
  | zero =>
      obtain rfl : t = r.t := by simpa using ahead
      exact ⟨r, .refl r, mirrors, rfl, pending_eq⟩
  | succ n ih =>
      push_cast at ahead
      have quiet : Quiet S e sp r.t := ⟨now_le, fun event => by
        have := next event
        omega⟩
      have events := quiet.refEvents calm sound mirrors pending_eq
      have dispatched := quiet.refDispatch contract calm sound mirrors (by omega) offered
      have unfinished : r.done < S.w.len := mirrors.done ▸ running
      have passed := Leads.round unfinished events unfinished.ne dispatched
      obtain ⟨mirrors', t_eq⟩ := mirrors.pass sound (sound.now_nonneg.trans now_le) fun c hc =>
        quiet.steadily sound hc
      obtain ⟨r', leads, rest⟩ :=
        ih (by omega) mirrors' (by omega) (t_eq ▸ quiet.waiting_eq sound pending_eq)
      exact ⟨r', passed.trans leads, rest⟩

end Between

/-! ## Along a run -/

/-- What the loop that started in `r₀` comes to when the engine comes to `e`. -/
def Reaches (S : Sim D) (r₀ : S.Ref) (e : S.Eng) : LoopPoint → Prop
  | .settled => ∃ r r', Leads S r₀ r ∧ r.done < S.w.len ∧ S.refEvents r = some r' ∧ Synced S e r' ∧
      e.pending = waiting S (r'.t + 1)
  | .dispatched => ∃ r, Leads S r₀ r ∧ Mirrors S e (fun _ => r.t) r ∧ r.t = e.now + 1 ∧
      e.pending = waiting S r.t

omit [Double D] in
theorem refFirstArrival_eq (valid : S.w.Valid) : S.refFirstArrival = S.firstArrival := by
  obtain ⟨p, hp, first⟩ := S.exists_firstArrival valid
  have least : ((List.range S.w.len).map fun i => (S.w.proc i).arrival).min? =
    some S.firstArrival := by
    rw [List.min?_eq_some_iff]
    refine ⟨List.mem_map.mpr ⟨p, List.mem_range.mpr hp, first⟩, fun t mem => ?_⟩
    obtain ⟨q, hq, rfl⟩ := List.mem_map.mp mem
    exact S.firstArrival_le valid (List.mem_range.mp hq)
  rw [refFirstArrival, least, Option.getD_some]

omit [Double D] in
/-- The loop and the engine start in step. -/
theorem Synced.init (valid : S.w.Valid) (state : S.policy.State) :
    Synced S (S.initEngine state) (S.refInit state) := by
  have first : S.refFirstArrival = S.firstArrival := refFirstArrival_eq valid
  refine ⟨⟨rfl, rfl, rfl, ?_, fun p => ?_, rfl, fun p => rfl, rfl, rfl,
    ⟨fun runs => ?_, fun _ => ⟨rfl, rfl⟩, fun h => ?_⟩, fun c hc =>
      ⟨rfl, rfl, fun h => absurd rfl h,
      fun h => absurd rfl h, fun h => absurd rfl h, by simp [initEngine, Forward], ?_⟩⟩, first⟩
  · cases mode : S.opt.predict with
    | oracle => simp [refView, initEngine, initPredicted, mode]
    | ewma => simp [refView, refInit, initEngine, initPredicted, mode]
  · simp [refInit, initEngine, heapInit, Heap.toList]
  · simpa [initEngine] using runs.proc_eq
  · simp [refInit] at h
  · simp [TicksOk, initEngine, refInit, first, tickSequence]

omit [Double D] in
theorem waiting_firstArrival (valid : S.w.Valid) : waiting S S.firstArrival = S.order := by
  refine List.filter_eq_self.mpr fun key mem => ?_
  obtain ⟨hp, arrival_eq, -⟩ := S.mem_order.mp mem
  simpa [arrival_eq] using S.firstArrival_le valid hp

section Run

variable {PInv : SchedView D → S.policy.State → Places → Prop} {state : S.policy.State}

/-- The loop comes to every state of the engine. -/
theorem Reached.reaches (launched : Launched S PInv state) (calm : Calm S.w S.policy PInv)
    (conserving : S.policy.workConserving = true) {point : LoopPoint} {e : S.Eng}
    (reached : Reached S state point e) (ok : e.fail = .ok) :
    Reaches S (S.refInit state) e point := by
  have valid := launched.valid
  have hcs := launched.options.cs_nonneg
  have contract := launched.contract
  induction reached with
  | @first e run =>
      obtain ⟨r', events, synced, t_eq, pending⟩ :=
        (Synced.init valid state).processInstant valid hcs
        contract calm (Sound.init valid launched.start)
        (by rw [show (S.refInit state).t = S.firstArrival from refFirstArrival_eq valid,
          waiting_firstArrival valid]; rfl) run ok
      refine ⟨S.refInit state, r', .refl _, valid.nonempty, events, synced, ?_⟩
      rw [pending, t_eq]
  | @dispatch e e' before running run ih =>
      obtain ⟨unfinished, ok'⟩ := running_iff.mp running
      obtain ⟨r, r₁, leads, left, events, synced, pending⟩ := ih ok'
      obtain ⟨sp, course, -⟩ := before.course launched RunInv.true
      obtain ⟨budget, sound⟩ := course.sound
      obtain ⟨rounds, bound, -⟩ := course.bound
      have work := course.settled.work_pos valid sound unfinished
      obtain ⟨fits, -⟩ := bound.fits launched.options course.paid ok' valid work.le
      obtain ⟨r₂, dispatched, synced₂, t_eq, pending₂⟩ :=
        synced.dispatch valid hcs contract calm sound
        course.settled.noneHeld (launched.early course running) fits run ok
      obtain ⟨e₁, sp', run', moves, course', -⟩ := launched.dispatch
        (I := fun _ => True) course running
      obtain rfl := Option.some.inj (run.symm.trans run')
      obtain ⟨budget', sound'⟩ := course'.sound
      have quiet : Quiet S e' sp' r₂.t := ⟨synced₂.t_eq.ge, fun event => by
        have := course'.settled.event_gt event
        rw [synced₂.t_eq]
        exact this⟩
      obtain ⟨mirrors, passed⟩ :=
        synced₂.mirrors.pass sound' (synced₂.t_eq ▸ sound'.now_nonneg) fun c hc =>
        quiet.steadily sound' hc
      have unfinished₁ : r₁.done ≠ S.w.len := synced.mirrors.done ▸ unfinished.ne
      refine ⟨S.refPass r₂, leads.trans (.round left events unfinished₁ dispatched),
        mirrors, ?_, ?_⟩
      · rw [passed, synced₂.t_eq]
      · rw [pending₂, pending, passed, t_eq]
  | @instant e e' before event run ih =>
      obtain ⟨sp, course, -⟩ := before.course launched RunInv.true
      obtain ⟨budget, sound⟩ := course.sound
      obtain ⟨rounds, bound, hlimit⟩ := course.bound
      obtain ⟨dispatched, unfinished⟩ := course.dispatched rfl
      obtain ⟨gt, next, e₁, sp', run', events', course', -⟩ := launched.advance
        (I := fun _ => True) course
      obtain rfl := Option.some.inj (run.symm.trans run')
      obtain ⟨budget', sound', -⟩ := dispatched.advance valid contract launched.options
        sound unfinished
        bound (hlimit rfl)
      have ok' : e.fail = .ok := Moves.ok valid hcs contract events'.moves sound' ok
      obtain ⟨r, leads, mirrors, t_eq, pending⟩ := ih ok'
      have offered : (∃ c < S.opt.cores, (e.cores c).proc = none) →
        ∀ p, sp p ≠ .ready := fun free =>
        (dispatched.offered free).resolve_right fun ⟨h, _⟩ => by cases h.symm.trans conserving
      have le_max := sound.event_le valid bound (hlimit rfl) next
      have ahead : e.now + 1 ≤ S.nextEvent e := gt
      obtain ⟨r₁, leads₁, mirrors₁, t₁, pending₁⟩ := Leads.wait contract calm sound
        (t := S.nextEvent e) (fun event => sound.nextEvent_le valid event) le_max unfinished offered
        (S.nextEvent e - r.t).toNat (r := r) (by omega) mirrors (by omega) pending
      have synced₁ : Synced S { e with now := S.nextEvent e } r₁ := ⟨mirrors₁.later _, t₁⟩
      have sound₁ : S.Sound PInv budget' ⟨{ e with now := S.nextEvent e }, sp⟩ := sound'
      obtain ⟨r₂, events, synced₂, t₂, pending₂⟩ :=
        synced₁.processInstant valid hcs contract calm sound₁ (t₁ ▸ pending₁) run ok
      exact ⟨r₁, r₂, leads.trans leads₁, mirrors₁.done ▸ unfinished, events, synced₂,
        by rw [pending₂, t₂]⟩

end Run

/-! ## The results -/

/-- The loop ended in `ref` with the schedule `r`. -/
structure Agrees (S : Sim D) (ref : S.Ref) (r : SimResult) : Prop where
  ticks : ∀ c < S.opt.cores, (ref.ticks c).reverse = tickSequence (r.timelines c)
  start : ∀ p < S.w.len, ref.start p = some (r.outcomes p).start
  completion : ∀ p < S.w.len, ref.completion p = some (r.outcomes p).completion
  switches : ref.switches = r.switches
  csTime : ref.csTime = r.csTime

omit [Double D] in
/-- A completed process has a start time. -/
theorem Final.start_nonneg {e : S.Eng} {sp : Nat → Spot} {r : SimResult} (final : Final S e sp r)
    {p : Nat} (hp : p < S.w.len) : 0 ≤ (e.outcomes p).start := by
  obtain ⟨ends, lived, bursts, edge⟩ := final.lived hp
  obtain ⟨completion, -⟩ := lived.finished (final.done p hp)
  obtain ⟨c, seg, here, run, -⟩ :=
    lived.life.closed (j := (Config.track ⟨e, sp⟩ p).phase / 2) (by omega)
  by_contra first
  exact (lived.start.unstarted (not_le.mp first)).1 here run

omit [Double D] in
/-- An entry that is not the value before the event. -/
theorem eq_some_of_getD {x : Option Int} {t : Int} (eq : t = x.getD (-1)) (nonneg : 0 ≤ t) :
    x = some t := by
  cases x with
  | none =>
      rw [Option.getD_none] at eq
      omega
  | some y => rw [eq, Option.getD_some]

omit [Double D] in
/-- What the loop has counted when the engine has ended. -/
theorem Synced.agrees {e : S.Eng} {sp : Nat → Spot} {ref : S.Ref} {r : SimResult}
    (synced : Synced S e ref) (final : Final S e sp r) : Agrees S ref r where
  ticks c hc := by
    have lane := synced.mirrors.lanes c hc
    have ticks := lane.ticks
    simp only [TicksOk, final.free c hc, synced.t_eq] at ticks
    rw [final.timelines c hc, tickSequence_reverse, idleRecord,
      tickSequence_record lane.forward, ticks]
    rfl
  start p hp := by
    have idle : ∀ c, ¬ Runs S.opt.cores e.cores c p := fun c runs => by
      cases (final.free c runs.lt).symm.trans runs.proc_eq
    rw [final.outcomes]
    exact eq_some_of_getD (synced.mirrors.clocks.off idle).2 (final.start_nonneg hp)
  completion p hp := by
    have bounds := (final.completion_bounds hp).1
    have := (final.valid.proc hp).arrival_nonneg
    rw [final.outcomes] at bounds ⊢
    exact eq_some_of_getD (synced.mirrors.completion p) (by omega)
  switches := synced.mirrors.switches.trans final.switches.symm
  csTime := synced.mirrors.csTime.trans final.csTime.symm

section Result

variable {PInv : SchedView D → S.policy.State → Places → Prop} {state : S.policy.State}

/-- The loop ends, with the result of the engine and its policy in the same state. -/
theorem Launched.agrees (launched : Launched S PInv state) (started : Started S state)
    (calm : Calm S.w S.policy PInv) (conserving : S.policy.workConserving = true) {r : SimResult}
    (success : S.simRun = .ok r) : ∃ fuel ref e, S.refSimulate fuel state = some ref ∧
      Agrees S ref r ∧ Closed S PInv state e r ∧ ref.state = e.state := by
  obtain ⟨e, closed⟩ := launched.closed started success
  obtain ⟨q, q', ⟨k, leads⟩, left, events, synced, -⟩ :=
    closed.reached.reaches launched calm conserving closed.ok
  obtain ⟨sp, final, -⟩ := closed.keeps launched RunInv.true
  refine ⟨k + 1, q', e, ?_, synced.agrees final, closed, synced.mirrors.state⟩
  have done : q'.done = S.w.len := synced.mirrors.done.trans closed.completed
  rw [refSimulate, leads]
  simp only [refLoop, if_pos left, events, Option.bind_eq_bind, Option.bind_some, if_pos done]

/-- The loop ends like the engine, whatever `work_conserving` says. -/
theorem Launched.tickLoop (launched : Launched S PInv state) (started : Started S state)
    (calm : Calm S.w S.policy PInv) {r : SimResult} (success : S.simRun = .ok r) :
    ∃ fuel ref e, S.refSimulate fuel state = some ref ∧ Agrees S ref r ∧
      Reached S state .settled e ∧ e.completed = S.w.len ∧ ref.state = e.state := by
  have proj := S.policy.conserving_projects
  obtain ⟨state', rfl, started'⟩ := started.lift proj
  have launched' : Launched (S.withPolicy S.policy.conserving) PInv state' :=
    ⟨launched.valid, checkOptions_ok launched.valid started'.options,
      launched.contract.conserving calm.toUninterrupted, launched.start⟩
  obtain ⟨fuel, ref, e, loop, agrees, closed, state_eq⟩ :=
    launched'.agrees started' calm.conserving rfl ((simRun_eq proj).symm.trans success)
  refine ⟨fuel, ref.map id, e.map id, ?_, ⟨agrees.ticks, agrees.start, agrees.completion,
    agrees.switches, agrees.csTime⟩, closed.reached.project proj, closed.completed, state_eq⟩
  rw [refSimulate_map proj, loop, Option.map_some]

/-- The engine and the tick loop, driven by the same policy: `e` is the engine after its
last instant, `ref` the loop after its last round. -/
structure SameRun (S : Sim D) (state : S.policy.State) (r : SimResult) (e : S.logged.Eng)
    (ref : S.logged.Ref) : Prop where
  reached : Reached S.logged ⟨state, []⟩ .settled e
  completed : e.completed = S.w.len
  loop : ∃ fuel, S.logged.refSimulate fuel ⟨state, []⟩ = some ref ∧
    S.refSimulate fuel state = some (ref.map Logged.state)
  /-- The same calls at the same times with the same arguments. -/
  log : ref.state.log = e.state.log
  agrees : Agrees S (ref.map Logged.state) r

theorem Launched.sameRun (launched : Launched S PInv state) (started : Started S state)
    (calm : Calm S.w S.policy PInv) {r : SimResult} (success : S.simRun = .ok r) :
    ∃ e ref, SameRun S state r e ref := by
  have proj := S.policy.logged_projects
  have launched' : Launched S.logged (LoggedInv PInv) ⟨state, []⟩ :=
    ⟨launched.valid, ⟨launched.options.cores_pos, launched.options.segments_pos,
      launched.options.cs_nonneg, launched.options.cs_le⟩, launched.contract.logged, launched.start,
      [], rfl, Holds.nil⟩
  have started' : Started S.logged ⟨state, []⟩ := by
    refine ⟨started.validated, (checkOptions_eq proj).symm.trans started.options, ?_⟩
    exact congrArg (Except.map fun state => (⟨state, []⟩ : Logged S.policy.State)) started.created
  obtain ⟨fuel, ref, e, loop, agrees, reached, completed, state_eq⟩ :=
    launched'.tickLoop started' calm.logged ((simRun_eq proj).symm.trans success)
  refine ⟨e, ref, reached, completed, ⟨fuel, loop, ?_⟩, congrArg Logged.log state_eq,
    ⟨agrees.ticks, agrees.start, agrees.completion, agrees.switches, agrees.csTime⟩⟩
  exact (refSimulate_map proj fuel ⟨state, []⟩).trans (congrArg _ loop)

end Result

/-- `sim_run` and the tick loop, driven by the same policy with `preempt_on_ready` false,
slices without a deadline, no refusal but for want of work, and no eye on the remaining
times of the processes on the cores, make the same calls and produce the same schedule.
Eight of the built-in policies are such policies. -/
theorem simRun_tickLoop :
    (∀ (S : Sim D) {PInv : SchedView D → S.policy.State → Places → Prop} {r : SimResult},
      Contract S.w S.policy PInv → Calm S.w S.policy PInv →
      (∀ state, S.policy.create S.initView S.params = .ok state →
        PInv S.initView state fun _ => .new) →
      S.simRun = .ok r → ∃ state e ref, Started S state ∧ SameRun S state r e ref) ∧
    ∀ (S : Sim D) {r : SimResult}, S.policy ∈ slicePolicies → S.params.Admitted →
      S.simRun = .ok r → ∃ state e ref, Started S state ∧ SameRun S state r e ref := by
  refine ⟨fun S PInv r contract calm start success => ?_, fun S r member admitted success => ?_⟩
  · obtain ⟨state, started⟩ := started_of_ok success
    have valid := workloadValidate_ok started.validated
    have launched : Launched S PInv state :=
      ⟨valid, checkOptions_ok valid started.options, contract, start state started.created⟩
    obtain ⟨e, ref, same⟩ := launched.sameRun started calm success
    exact ⟨state, e, ref, started, same⟩
  · obtain ⟨state, started⟩ := started_of_ok success
    have registered : S.policy ∈ registry fun _ => true := by
      simp only [slicePolicies, registry, List.mem_cons] at member ⊢
      tauto
    obtain ⟨PInv, launched⟩ := started.launched ⟨⟨_, registered⟩, admitted⟩
    obtain ⟨e, ref, same⟩ := launched.sameRun started
      ((slicePolicies_unwatching member).calm launched.contract) success
    exact ⟨state, e, ref, started, same⟩

/-- It holds for three processes under round robin, taken as a policy with a contract and as a
built-in policy. -/
theorem trioSim_tickLoop : ∃ r, trioSim.simRun = .ok r ∧ TrioSchedule r ∧
    (∃ state e ref, Started trioSim state ∧ SameRun trioSim state r e ref) ∧
    ∃ state e ref, Started trioSim state ∧ SameRun trioSim state r e ref := by
  obtain ⟨r, success, seen⟩ := trioSim_succeeds
  have contract : Contract trioSim.w trioSim.policy (RrInv trioSim.w) :=
    rr_contract _
  refine ⟨r, success, seen, ?_, ?_⟩
  · refine simRun_tickLoop.1 trioSim contract (rr_unwatching.calm contract)
      (fun state created => ?_) success
    cases created
    exact ⟨QueueReady.init 3, by decide⟩
  · exact simRun_tickLoop.2 trioSim (by simp [slicePolicies, trioSim])
      PolicyParams.admitted_default success

/-! ## A policy that watches a core -/

/-- A loop that ends does not need more rounds. -/
theorem refLoop_more {fuel : Nat} (more : Nat) {r ref : S.Ref} (run : S.refLoop fuel r = some ref) :
    S.refLoop (fuel + more) r = some ref := by
  induction fuel generalizing r with
  | zero => cases run
  | succ fuel ih =>
      rw [Nat.add_right_comm]
      simp only [refLoop, Option.bind_eq_bind] at run ⊢
      split_ifs at run ⊢ with running
      · obtain ⟨r₁, events, run⟩ := Option.bind_eq_some_iff.mp run
        refine Option.bind_eq_some_iff.mpr ⟨r₁, events, ?_⟩
        split_ifs at run ⊢ with done
        · exact run
        · obtain ⟨r₂, dispatched, run⟩ := Option.bind_eq_some_iff.mp run
          exact Option.bind_eq_some_iff.mpr ⟨r₂, dispatched, ih run⟩
      · exact run

/-- A queue with slices of one tick once process 0 has at most two ticks left, whether it
is on a core or not. -/
def policyPeek : Policy Float where
  State := List Nat
  name := "peek"
  preemptive := true
  preemptOnReady := false
  usesQuantum := false
  usesEstimates := false
  workConserving := true
  offline := false
  create _ _ := .ok []
  onArrival _ ready p := some (ready ++ [p])
  onReady := none
  nextSlice v ready :=
    match ready with
    | [] => some ([], none)
    | p :: rest => some (rest, some ⟨p, if v.remaining 0 ≤ 2 then 1 else 10, schedNoDeadline⟩)
  onPreempt := some fun _ ready p _ => some (ready ++ [p])
  onBlock := none
  onComplete := none

/-- The queue of `policyPeek` holds the ready processes. -/
def PeekInv (_ : SchedView Float) (ready : List Nat) (pl : Places) : Prop := Holds pl ready

theorem PeekInv.push {v : SchedView Float} {ready : List Nat} {pl : Places} {p : Nat}
    (inv : PeekInv v ready pl) (notReady : pl p ≠ .ready) :
    ∃ ready', some (ready ++ [p]) = some ready' ∧ PeekInv v ready' (pl.move p .ready) :=
  ⟨_, rfl, (Holds.push inv notReady).perm (List.perm_append_singleton p ready)⟩

theorem peek_contract (w : Workload) : Contract w policyPeek PeekInv where
  interruptible hook := by simp [policyPeek] at hook
  view inv _ _ _ := inv
  arrival inv _ _ new _ := inv.push (by simp [new])
  wake inv _ blocked _ := inv.push (by simp [blocked])
  next {v s pl} inv ok early := by
    cases s with
    | nil => exact ⟨[], none, rfl, inv, .inl (Holds.none_ready inv)⟩
    | cons p rest =>
        obtain ⟨ready, inv'⟩ := Holds.pop inv
          (z := .out ⟨p, if v.remaining 0 ≤ 2 then 1 else 10, schedNoDeadline⟩) (by simp)
        refine ⟨rest, some _, rfl, ready, ?_, early, le_rfl, fun hook => ?_, inv'⟩
        · simp only
          split_ifs <;> decide
        · simp [policyPeek] at hook
  preempt inv _ out _ _ _ hook := by
    obtain rfl := Option.some.inj hook
    exact inv.push (by simp [out])
  block {v s pl p slice ran} inv _ out _ _ _ := ⟨s, rfl, Holds.other inv (by simp [out]) (by simp)⟩
  complete {v s pl p slice ran} inv _ out _ _ := ⟨s, rfl, Holds.other inv (by simp [out]) (by simp)⟩

theorem peek_uninterrupted (w : Workload) : Uninterrupted w policyPeek PeekInv where
  notReady := rfl
  undated {v s pl s' slice} _ _ _ run := by
    cases s with
    | nil => cases congrArg Prod.snd (Option.some.inj run)
    | cons p rest => rw [← Option.some.inj (congrArg Prod.snd (Option.some.inj run))]
  refuses {v s pl s'} inv _ _ run := by
    cases s with
    | nil => exact ⟨(congrArg Prod.fst (Option.some.inj run)).symm, Holds.none_ready inv⟩
    | cons p rest => cases congrArg Prod.snd (Option.some.inj run)

/-- Process 0 runs from 0 to 4, and two processes arrive at 2. -/
def peekSim : Sim Float where
  build := .release
  w := ⟨[processMake 1 0 4, processMake 2 2 3, processMake 3 2 1]⟩
  policy := policyPeek
  params := {}
  opt := { cores := 2, csCost := 0, predict := .oracle, alpha := 0.5, tau0 := 1, maxSegments := 10 }

theorem peekSim_started : Started peekSim ([] : List Nat) where
  validated := by
    have sorted : (peekSim.w.items.map Process.pid).mergeSort (· ≤ ·) = [1, 2, 3] :=
      List.mergeSort_of_pairwise (by decide)
    have items : validateItems peekSim.w.items 0 0 = .ok (2, 8) := rfl
    have sum : ckAddI64 2 8 = some 10 := rfl
    rw [workloadValidate, if_neg (by decide), items]
    simp only [sum, sorted]
    rfl
  options := rfl
  created := rfl

theorem peekSim_order : peekSim.order = [⟨0, 1, 0⟩, ⟨2, 2, 1⟩, ⟨2, 3, 2⟩] := by
  rw [order]
  exact List.mergeSort_of_pairwise (by decide)

/-- A policy may refuse for want of work alone, keep its state then and set no deadline:
if it reads the remaining time of a process on a core, the two may part.  At 2 the engine
has 4 ticks left for process 0, the loop 2, and the last process completes at 5 and at 4. -/
theorem peekSim_parts : Contract peekSim.w policyPeek PeekInv ∧
    Uninterrupted peekSim.w policyPeek PeekInv ∧ PeekInv peekSim.initView [] (fun _ => .new) ∧
    Started peekSim ([] : List Nat) ∧ ∃ r, peekSim.simRun = .ok r ∧ (r.outcomes 2).completion = 5 ∧
      ∀ fuel ref, peekSim.refSimulate fuel ([] : List Nat) = some ref →
        ref.completion 2 = some 4 := by
  refine ⟨peek_contract _, peek_uninterrupted _, Holds.nil, peekSim_started, ?_⟩
  have ran : ∃ r, peekSim.simRun = .ok r ∧ (r.outcomes 2).completion = 5 := by
    have init : peekSim.initEngine ([] : List Nat) =
        { peekSim.initEngine ([] : List Nat) with
          pending := [⟨0, 1, 0⟩, ⟨2, 2, 1⟩, ⟨2, 3, 2⟩]
          now := 0
          cores := fun _ =>
            { proc := none, inCs := false, recheck := false, busyUntil := 0, runStart := 0,
              runEnd := 0, length := 0, deadline := 0, context := none, freeSince := 0 } } := by
      simp [initEngine, firstArrival, peekSim_order]
    rw [peekSim_started.simRun_eq, init]
    exact ⟨_, rfl, rfl⟩
  obtain ⟨r, success, completion⟩ := ran
  refine ⟨r, success, completion, fun fuel ref run => ?_⟩
  have check : (peekSim.refSimulate 10 ([] : List Nat)).any
      (fun ref => decide (ref.completion 2 = some 4)) = true := by decide +kernel
  cases ended : peekSim.refSimulate 10 ([] : List Nat) with
  | none => simp [ended] at check
  | some ref' =>
      have same : some ref = some ref' := by
        rw [← refLoop_more 10 run, ← refLoop_more fuel ended, Nat.add_comm]
      obtain rfl := Option.some.inj same
      simpa [ended] using check

end Sim

end CpuSched
