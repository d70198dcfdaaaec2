import CpuSched.Policies.OptNpSearch
import CpuSched.Policies.SrtfOptimal

/-!
# The offline optimum is optimal

A run under opt-np starts every job of the order found as early as possible, so its
completions are those of the order.  The search made sure that no order costs less, and
any schedule without preemption costs at least as much as some order.
-/

namespace CpuSched

/-- When the first `k` jobs of the order are over, each run as early as possible. -/
def overAt (w : Workload) (order : Nat → Nat) (k : Nat) : Int :=
  orderEnd (fun p => (w.proc p).arrival) (fun p => (w.proc p).burst) 0 ((List.range k).map order)

section Orders

variable (w : Workload) (order : Nat → Nat)

theorem overAt_zero : overAt w order 0 = 0 := rfl

theorem overAt_succ (k : Nat) : overAt w order (k + 1) =
    max (overAt w order k) (w.proc (order k)).arrival + (w.proc (order k)).burst := by
  rw [overAt, List.range_succ, List.map_append, orderEnd_append]
  rfl

/-- The cost of an order, job by job. -/
theorem orderCost_range (k : Nat) :
    orderCost (fun p => (w.proc p).arrival) (fun p => (w.proc p).burst) 0
      ((List.range k).map order) =
      ∑ i ∈ Finset.range k, (overAt w order (i + 1) - (w.proc (order i)).arrival) := by
  induction k with
  | zero => rfl
  | succ k ih =>
      rw [List.range_succ, List.map_append, orderCost_append, ih,
        Finset.sum_range_succ, overAt_succ]
      simp only [List.map_cons, List.map_nil, orderCost_cons, orderCost_nil, add_zero]
      rfl

end Orders

namespace Sim

variable {D : Type} {S : Sim D} {realloc : Nat → Bool}

/-- `dispatch` on one core asks the policy once, if the core is free. -/
theorem dispatch_single (one : S.opt.cores = 1) {e e' : S.Eng} (run : S.dispatch e = some e') :
    ((e.cores 0).proc ≠ none → e' = e) ∧ ((e.cores 0).proc = none → ∃ state pick,
      S.policy.nextSlice (S.view e) e.state = some (state, pick) ∧
      (pick = none → e' = { e with state }) ∧
      ∀ s, pick = some s → S.dispatchOne { e with state } 0 s = some e') := by
  have range : List.range S.opt.cores = [0] := by
    rw [one]
    rfl
  have notMany : ¬1 < S.opt.cores := by omega
  simp only [Sim.dispatch, range, List.countP_cons, List.countP_nil, if_neg notMany,
    Option.bind_eq_bind, Option.bind_some] at run
  refine ⟨fun busy => ?_, fun free => ?_⟩
  · simp only [busy, decide_false] at run
    simpa [collectPicks, placeRest] using run.symm
  · simp only [free, decide_true] at run
    simp only [collectPicks, if_true, zero_add, Option.bind_eq_bind, Option.bind_eq_some_iff] at run
    obtain ⟨⟨e₁, picks⟩, ⟨⟨state, pick⟩, hook, asked⟩, run⟩ := run
    refine ⟨state, pick, hook, ?_, ?_⟩
    · rintro rfl
      cases asked
      simpa [placeRest] using run.symm
    · rintro s rfl
      cases asked
      simp only [placeRest, range, List.find?_cons, isFree, free] at run
      simpa using run

/-- The simulation under opt-np. -/
abbrev optNp (S : Sim D) (realloc : Nat → Bool) : Sim D := S.withPolicy (policyOptNp realloc)

/-- The state of opt-np in an engine. -/
abbrev plan (e : (S.optNp realloc).Eng) : OptNp := e.state

/-- The run follows the order, and is not late. -/
structure OnTime (order : Nat → Nat) (e : (S.optNp realloc).Eng) : Prop where
  order_eq : (plan e).order = order
  due : ∀ p < S.w.len, (plan e).arrived p = true → (S.w.proc p).arrival ≤ e.now
  waiting : ∀ i, (plan e).pos ≤ i → i < S.w.len →
    e.remaining (order i) = (S.w.proc (order i)).burst
  past : ∀ i < (plan e).pos, (e.cores 0).proc ≠ some (order i) →
    (e.outcomes (order i)).completion = overAt S.w order (i + 1)
  running : ∀ p, (e.cores 0).proc = some p → (e.cores 0).inCs = false ∧
    (∃ i, (plan e).pos = i + 1 ∧ order i = p) ∧
    (e.cores 0).runStart + e.remaining p = overAt S.w order (plan e).pos ∧
    e.now ≤ overAt S.w order (plan e).pos
  free : (e.cores 0).proc = none → overAt S.w order (plan e).pos ≤ e.now ∧
    ((plan e).pos < S.w.len →
      e.now ≤ max (overAt S.w order (plan e).pos) (S.w.proc (order (plan e).pos)).arrival)

section Runs

variable [Double D] {order : Nat → Nat} {budget : Int} {a b : (S.optNp realloc).Config}

/-- An event keeps the run on time. -/
theorem OnTime.event (valid : S.w.Valid) (one : S.opt.cores = 1)
    (event : Event a b) (sound : (S.optNp realloc).Sound (OptNpInv S.w) budget a)
    (none : NoneHeld a) (onTime : OnTime order a.eng) : OnTime order b.eng := by
  obtain ⟨move, keeps⟩ := event
  have inv := sound.policy
  obtain ⟨order_eq, due, waiting, past, running, free⟩ := onTime
  cases move with
  | @arrive e sp key rest state pending due' hook =>
      obtain rfl := Option.some.inj hook
      have mem : key ∈ e.pending := by
        rw [pending]
        exact List.mem_cons_self
      refine ⟨order_eq, fun p hp arrived => ?_, waiting, past, running, free⟩
      by_cases same : p = key.index
      · rw [same, ← (sound.pending.keys key mem).1]
        exact due'
      · refine due p hp ?_
        have arrived : Function.update (plan e).arrived key.index true p = true := arrived
        rwa [Function.update_of_ne same] at arrived
  | @wake e sp p heap state popped due' hook =>
      have blocked : sp p = .blocked := (sound.blocked.pop (blockedLess_total valid _)
        (fun q hq => sound.inside fun h => by cases hq.symm.trans h) popped (z := .ready)
        (by simp)).1
      exact absurd (places_eq_blocked.mpr blocked)
        (inv.not_blocked (sound.inside (by simp [blocked])))
  | @preempt e sp c p s f state seat runs ran left hook_eq hook => cases hook_eq
  | @block e sp c p s heap state seat runs ran used more pushed hook =>
      have hp : p < S.w.len := sound.inside (by simp [seat])
      have := (sound.data.progress p hp (by simp [seat])).phase_lt
      have single := inv.single p hp
      simp only at this more
      omega
  | @complete e sp c p s state seat runs ran used last hook =>
      obtain rfl := Option.some.inj hook
      obtain ⟨hc, same, here⟩ := sound.cores.seat p c s seat
      have hc : c < S.opt.cores := hc
      obtain rfl : c = 0 := by omega
      have on : (e.cores 0).proc = some p := here.proc_eq.trans (congrArg some same)
      obtain ⟨-, ⟨i, pos_eq, rfl⟩, finish, -⟩ := running p on
      simp only [chargeRun_remaining, Function.update_self] at used
      have pos_eq : (plan e).pos = i + 1 := pos_eq
      have over_eq : e.now = overAt S.w order (plan e).pos := by simp only at finish; omega
      have isOrder : IsOrder S.w.len order := order_eq ▸ inv.isOrder
      have pos_le : (plan e).pos ≤ S.w.len := inv.pos_le
      refine ⟨order_eq, ?_, ?_, ?_, ?_, ?_⟩
      · simpa [finishProcess, burstOver] using due
      · intro k hk hn
        have hk : (plan e).pos ≤ k := hk
        have ne : order k ≠ order i := fun same => by
          have := isOrder.inj k hn i (by omega) same
          omega
        simpa [finishProcess, burstOver, ne] using waiting k hk hn
      · intro k hk _
        have hk : k < (plan e).pos := hk
        by_cases same : order k = order i
        · obtain rfl := isOrder.inj k (by omega) i (by omega) same
          simpa [finishProcess, burstOver, ← pos_eq] using over_eq
        · have before := past k hk (by rw [on]; exact fun h => same (Option.some.inj h).symm)
          simpa [finishProcess, burstOver, same] using before
      · intro q on
        simp [finishProcess, burstOver] at on
      · intro _
        have now_eq : e.now = overAt S.w order (plan e).pos := over_eq
        refine ⟨?_, fun _ => ?_⟩
        · simpa [finishProcess, burstOver] using now_eq.ge
        · simpa [finishProcess, burstOver] using Or.inl now_eq.le
  | @mark e sp c p s seat switching redecides => cases redecides
  | @start e sp c p s deadline seat switching elapsed deadline_eq =>
      obtain ⟨hc, -, here⟩ := sound.cores.seat p c s seat
      have hc : c < S.opt.cores := hc
      obtain rfl : c = 0 := by omega
      cases switching.symm.trans (running _ here.proc_eq).1
  | @pick e sp s state hook early => exact absurd (Function.update_self ..) (keeps none s.proc s)
  | @refuse e sp state hook early =>
      have hook : optNpNextSlice ((S.optNp realloc).view e) (plan e) =
        some (state, Option.none) := hook
      unfold optNpNextSlice at hook
      split_ifs at hook
      · obtain rfl := (Prod.mk.inj (Option.some.inj hook)).1
        exact ⟨order_eq, due, waiting, past, running, free⟩
      · cases (Prod.mk.inj (Option.some.inj hook)).2
  | place held => exact absurd held (none _ _)

/-- The instants of a run keep it on time. -/
theorem OnTime.events (valid : S.w.Valid) (one : S.opt.cores = 1) (hcs : 0 ≤ S.opt.csCost)
    (events : (S.optNp realloc).Events a b)
    (sound : (S.optNp realloc).Sound (OptNpInv S.w) budget a) (none : NoneHeld a)
    (onTime : OnTime order a.eng) : OnTime order b.eng := by
  induction events with
  | refl => exact onTime
  | tail before event ih =>
      exact ih.event valid one event
        ((Events.moves before).sound valid hcs (optNp_contract realloc) sound)
        (Events.noneHeld before none)

/-- After a dispatch a free core means that the next job has not arrived. -/
def Waits (e : (S.optNp realloc).Eng) : Prop :=
  (e.cores 0).proc = none → (plan e).pos < S.w.len →
    (plan e).arrived ((plan e).order (plan e).pos) = false

omit [Double D] in
/-- The clock moves to the next event. -/
theorem OnTime.advance (valid : S.w.Valid) {e : (S.optNp realloc).Eng} {sp : Nat → Spot}
    (one : S.opt.cores = 1)
    (sound : (S.optNp realloc).Sound (OptNpInv S.w) budget ⟨e, sp⟩) (onTime : OnTime order e)
    (refused : Waits e) (gt : e.now < (S.optNp realloc).nextEvent e) :
    OnTime order { e with now := (S.optNp realloc).nextEvent e } := by
  have inv := sound.policy
  refine ⟨onTime.order_eq, fun p hp arrived => (onTime.due p hp arrived).trans
    gt.le, onTime.waiting,
    onTime.past, fun p on => ?_, fun free => ⟨(onTime.free free).1.trans gt.le, fun more => ?_⟩⟩
  · obtain ⟨runs, placed, finish, -⟩ := onTime.running p on
    refine ⟨runs, placed, finish, ?_⟩
    obtain ⟨s, seat⟩ := sound.cores.owner 0 (by rw [one]; exact Nat.one_pos) p on
    obtain ⟨-, -, here⟩ := sound.cores.seat p 0 s seat
    obtain ⟨-, -, -, runEnd, busy⟩ := here.running runs
    have event := Sound.nextEvent_le (S := S.optNp realloc) valid sound (.slice p 0 s seat rfl)
    change (S.optNp realloc).nextEvent e ≤ overAt S.w order (plan e).pos
    simp only at runEnd busy event
    omega
  · have early := refused free more
    have isOrder : IsOrder S.w.len (plan e).order := inv.isOrder
    have hp := isOrder.lt _ more
    have new : sp ((plan e).order (plan e).pos) = .new := by
      by_contra known
      have arrived := (inv.arrived _ hp).mpr fun h => known (places_eq_new.mp h)
      cases early.symm.trans arrived
    have event := Sound.nextEvent_le (S := S.optNp realloc) valid sound (.arrival _ hp new rfl)
    rw [onTime.order_eq] at event
    exact event.trans (le_max_right ..)

/-- A dispatch starts the next job of the order if it has arrived. -/
theorem OnTime.dispatch (valid : S.w.Valid) {e e' : (S.optNp realloc).Eng} {sp : Nat → Spot}
    (one : S.opt.cores = 1) (gratis : S.opt.csCost = 0)
    (sound : (S.optNp realloc).Sound (OptNpInv S.w) budget ⟨e, sp⟩) (early : e.now < int64Max)
    (onTime : OnTime order e) (run : (S.optNp realloc).dispatch e = some e') :
    OnTime order e' ∧ Waits e' := by
  have inv := sound.policy
  have hcs : 0 ≤ S.opt.csCost := gratis.ge
  obtain ⟨whenBusy, whenFree⟩ := dispatch_single (S := S.optNp realloc) one run
  by_cases busy : (e.cores 0).proc = none
  · obtain ⟨state, pick, hook, refuse, start⟩ := whenFree busy
    have ask : optNpNextSlice ((S.optNp realloc).view e) (plan e) = some (state, pick) := hook
    unfold optNpNextSlice at ask
    split_ifs at ask with waits
    · obtain ⟨rfl, rfl⟩ := Prod.mk.inj (Option.some.inj ask)
      rw [refuse rfl]
      refine ⟨onTime, fun _ more => waits.resolve_left fun last => ?_⟩
      have n_eq : (plan e).n = S.w.len := inv.n_eq
      have more : (plan e).pos < S.w.len := more
      omega
    · rw [not_or, Bool.not_eq_false] at waits
      obtain ⟨last, arrived⟩ := waits
      obtain ⟨rfl, rfl⟩ := Prod.mk.inj (Option.some.inj ask)
      have run := start _ rfl
      have pos_lt : (plan e).pos < S.w.len := by
        have n_eq : (plan e).n = S.w.len := inv.n_eq
        have pos_le : (plan e).pos ≤ S.w.len := inv.pos_le
        omega
      obtain ⟨order_eq, due, waiting, past, running, free⟩ := onTime
      rw [order_eq] at hook arrived run
      have isOrder : IsOrder S.w.len order := order_eq ▸ inv.isOrder
      have hp := isOrder.lt _ pos_lt
      obtain ⟨over_le, notLate⟩ := free busy
      have burst := waiting _ le_rfl pos_lt
      have burst_pos := (valid.proc hp).burst_pos
      have released := due _ hp arrived
      have notLate := notLate pos_lt
      have sound₁ := Move.sound (S := S.optNp realloc) valid hcs (optNp_contract realloc)
        (.pick hook early) sound
      have fits : e.now + S.opt.csCost ≤ int64Max := by omega
      have core : 0 ∈ freeCores e := mem_freeCores.mpr
        ⟨by rw [show (S.optNp realloc).opt.cores = 1 from one]; exact Nat.one_pos, busy⟩
      obtain ⟨run₁, -, -⟩ := dispatchOne_spec (S := S.optNp realloc) valid hcs sound₁
        (Function.update_self ..) core fits
      obtain rfl := Option.some.inj (run.symm.trans run₁)
      rw [Sound.placed_eq (S := S.optNp realloc) (c := 0) valid hcs sound₁
        (Function.update_self ..) fits]
      have gratis' : ¬ 0 < (S.optNp realloc).opt.csCost := by
        rw [show (S.optNp realloc).opt.csCost = 0 from gratis]
        exact lt_irrefl 0
      have start : e.now + (S.w.proc (order (plan e).pos)).burst = overAt S.w order
        ((plan e).pos + 1) := by
        rw [overAt_succ]
        omega
      refine ⟨⟨rfl, due, fun i hi hn => ?_, fun i hi ne => ?_, fun p on => ?_, fun free => ?_⟩,
        fun free => ?_⟩
      · have hi : (plan e).pos + 1 ≤ i := hi
        exact waiting i (by omega) hn
      · have hi : i < (plan e).pos + 1 := hi
        simp only [placedCore, gratis', and_false, if_false, Function.update_self] at ne
        have other : order i ≠ order (plan e).pos := fun same => ne (congrArg some same.symm)
        have earlier : i ≠ (plan e).pos := fun same => other (congrArg order same)
        simp only [placedOutcomes, gratis', and_false, if_false, Function.update_of_ne other]
        exact past i (by omega) (by simp [busy])
      · simp only [placedCore, gratis', and_false, if_false, Function.update_self] at on ⊢
        obtain rfl := Option.some.inj on
        refine ⟨rfl, ⟨(plan e).pos, rfl, rfl⟩, ?_, ?_⟩
        · exact (congrArg (e.now + ·) burst).trans start
        · exact le_of_lt (lt_of_lt_of_eq (lt_add_of_pos_right e.now burst_pos) start)
      · simp [placedCore, gratis', startedCore, seatedCore] at free
      · simp [placedCore, gratis', startedCore, seatedCore] at free
  · rw [whenBusy busy]
    exact ⟨onTime, fun free => absurd free busy⟩

/-- The run begins on time. -/
theorem OnTime.init {state : OptNp} (launched : Launched (S.optNp realloc) (OptNpInv S.w) state)
    (gratis : S.opt.csCost = 0) (order_eq : state.order = order) (pos_eq : state.pos = 0) :
    OnTime order ((S.optNp realloc).initEngine state) := by
  have valid : S.w.Valid := launched.valid
  have inv := launched.start
  have sound := Sound.init launched.valid launched.start
  have plain : Plain S := ⟨inv.single, gratis⟩
  have isOrder : IsOrder S.w.len order := order_eq ▸ inv.isOrder
  have arrival_ge : ∀ p < S.w.len, S.firstArrival ≤ (S.w.proc p).arrival := by
    intro p hp
    obtain ⟨key, mem, rfl⟩ := List.mem_map.mp ((sound.pending.mem_iff p).mpr ⟨hp, rfl⟩)
    have first := sound.pending.arrival_ge key mem
    rwa [(sound.pending.keys key mem).1] at first
  refine ⟨order_eq, fun p hp arrived => ?_, fun i _ hn => ?_, fun i hi => ?_, fun p on => ?_,
    fun _ => ⟨?_, fun more => ?_⟩⟩
  · exact absurd rfl ((inv.arrived p hp).mp arrived)
  · exact plain.burst_eq valid (isOrder.lt i hn)
  · have hi : i < state.pos := hi
    omega
  · cases on
  · change overAt S.w order state.pos ≤ S.firstArrival
    rw [pos_eq, overAt_zero]
    exact sound.now_nonneg
  · have more : state.pos < S.w.len := more
    exact (arrival_ge _ (isOrder.lt _ more)).trans (le_max_right ..)

/-- Every state of the main loop is on time. -/
theorem Reached.onTime {state : OptNp} (launched : Launched (S.optNp realloc) (OptNpInv S.w) state)
    (one : S.opt.cores = 1) (gratis : S.opt.csCost = 0) (order_eq : state.order = order)
    (pos_eq : state.pos = 0) {point : LoopPoint} {e : (S.optNp realloc).Eng}
    (reached : Reached (S.optNp realloc) state point e) :
    OnTime order e ∧ (point = .dispatched → Waits e) := by
  have valid : S.w.Valid := launched.valid
  have hcs : 0 ≤ S.opt.csCost := gratis.ge
  induction reached with
  | first run =>
      obtain ⟨e', sp, run', events, -⟩ := launched.first (I := fun _ => True)
      obtain rfl := Option.some.inj (run.symm.trans run')
      have sound := Sound.init launched.valid launched.start
      refine ⟨OnTime.events valid one hcs events sound (fun p s h => by cases h) ?_, nofun⟩
      exact OnTime.init launched gratis order_eq pos_eq
  | dispatch before running run ih =>
      obtain ⟨sp, course, -⟩ := before.course launched RunInv.true
      obtain ⟨budget, sound⟩ := course.sound
      obtain ⟨onTime, waits⟩ :=
        OnTime.dispatch valid one gratis sound (launched.early course running)
        ih.1 run
      exact ⟨onTime, fun _ => waits⟩
  | instant before event run ih =>
      obtain ⟨sp, course, -⟩ := before.course launched RunInv.true
      obtain ⟨budget, sound⟩ := course.sound
      obtain ⟨gt, -, e', sp', run', events, -⟩ := launched.advance (I := fun _ => True) course
      obtain rfl := Option.some.inj (run.symm.trans run')
      obtain ⟨rounds, bound, limit⟩ := course.bound
      obtain ⟨dispatched, unfinished⟩ := course.dispatched rfl
      obtain ⟨budget', sound', -⟩ := dispatched.advance launched.valid launched.contract
        launched.options sound unfinished bound (limit rfl)
      exact ⟨OnTime.events valid one hcs events sound' course.settled.noneHeld
        (OnTime.advance valid one sound ih.1 (ih.2 rfl) gt), nofun⟩

/-- The completions of a successful run are those of the order. -/
theorem simRun_overAt {state : OptNp} (launched : Launched (S.optNp realloc) (OptNpInv S.w) state)
    (started : Started (S.optNp realloc) state) (one : S.opt.cores = 1) (gratis : S.opt.csCost = 0)
    (pos_eq : state.pos = 0) {r : SimResult} (success : (S.optNp realloc).simRun = .ok r) :
    ∀ i < S.w.len, (r.outcomes (state.order i)).completion = overAt S.w state.order (i + 1) := by
  obtain ⟨e, closed⟩ := launched.closed started success
  obtain ⟨onTime, -⟩ := closed.reached.onTime launched one gratis rfl pos_eq
  obtain ⟨sp, course, -⟩ := closed.reached.course launched RunInv.true
  obtain ⟨budget, sound⟩ := course.sound
  have inv := sound.policy
  have free : (e.cores 0).proc = none :=
    closed.free 0 (by rw [show (S.optNp realloc).opt.cores = 1 from one]; exact Nat.one_pos)
  intro i hi
  rw [closed.outcomes]
  refine onTime.past i ?_ (by simp [free])
  -- the process is done, so its turn has come
  by_contra ahead
  have isOrder : IsOrder S.w.len (plan e).order := inv.isOrder
  have done : sp ((plan e).order i) = .done := sound.all_done closed.completed _ (isOrder.lt i hi)
  rcases inv.future i (not_lt.mp ahead) hi with new | ready
  · have new := places_eq_new.mp new
    cases new.symm.trans done
  · have ready := places_eq_ready.mp ready
    cases ready.symm.trans done

end Runs

/-! ## The sum of the turnaround times -/

/-- The sum of the turnaround times under opt-np is the least cost of an order of the
processes, each run as early as possible, and no schedule without preemption has a
smaller one. -/
theorem simRun_optNp_exact [Double D] (realloc : Nat → Bool) {r : SimResult}
    (success : (S.withPolicy (policyOptNp realloc)).simRun = .ok r) :
    IsLeast {c | ∃ js : List Nat, js.Perm (List.range S.w.len) ∧
        c = orderCost (fun p => (S.w.proc p).arrival) (fun p => (S.w.proc p).burst) 0 js}
      (∑ p ∈ Finset.range S.w.len, ((r.outcomes p).completion - (S.w.proc p).arrival)) ∧
    ∀ C, NonPreemptive (fun p => (S.w.proc p).arrival) (fun p => (S.w.proc p).burst)
        (Finset.range S.w.len) C →
      ∑ p ∈ Finset.range S.w.len, ((r.outcomes p).completion - (S.w.proc p).arrival) ≤
        ∑ p ∈ Finset.range S.w.len, (C p - (S.w.proc p).arrival) := by
  obtain ⟨state, started⟩ := started_of_ok success
  have valid : S.w.Valid := workloadValidate_ok started.validated
  have options := checkOptions_ok (S := S.optNp realloc) valid started.options
  have created : optNpCreate realloc (S.optNp realloc).initView S.params =
    .ok state := started.created
  obtain ⟨-, one, gratis, -, state_eq⟩ := optNpCreate_ok created
  have one : S.opt.cores = 1 := one
  have gratis : S.opt.csCost = 0 := gratis
  have start : OptNpInv S.w (S.optNp realloc).initView state fun _ => .new :=
    .init valid rfl rfl created
  have launched : Launched (S.optNp realloc) (OptNpInv S.w) state :=
    ⟨valid, options, optNp_contract realloc, start⟩
  have completions := simRun_overAt launched started one gratis (by rw [state_eq]) success
  have isOrder : IsOrder S.w.len state.order := start.isOrder
  -- the turnaround times are those of the order
  have turnaround : ∑ p ∈ Finset.range S.w.len, ((r.outcomes p).completion - (S.w.proc p).arrival) =
      orderCost (fun p => (S.w.proc p).arrival) (fun p => (S.w.proc p).burst) 0
        ((List.range S.w.len).map state.order) := by
    rw [orderCost_range]
    refine (Finset.sum_nbij state.order (fun i hi => ?_) (fun i hi k hk same => ?_)
      (fun p hp => ?_) fun i hi => ?_).symm
    · exact Finset.mem_range.mpr (isOrder.lt i (Finset.mem_range.mp hi))
    · exact isOrder.inj i (by simpa using hi) k (by simpa using hk) same
    · obtain ⟨i, hi, rfl⟩ := isOrder.surj (by simpa using hp)
      exact ⟨i, by simpa using hi, rfl⟩
    · rw [completions i (Finset.mem_range.mp hi)]
  have least : ∀ js : List Nat, js.Perm (List.range S.w.len) →
      ∑ p ∈ Finset.range S.w.len, ((r.outcomes p).completion - (S.w.proc p).arrival) ≤
        orderCost (fun p => (S.w.proc p).arrival) (fun p => (S.w.proc p).burst) 0 js := by
    intro js perm
    obtain ⟨n_eq, r_eq, p_eq, heads, pool⟩ :=
      startSearch_fields (initSearch (S.optNp realloc).initView)
    have order : js.Perm (List.range (startSearch (initSearch (S.optNp realloc).initView)).n) := by
      rw [n_eq]
      exact perm
    have searched := search_least realloc (startSearch_jobs valid rfl rfl)
      (startSearch_attained _) heads
      pool order
    rw [turnaround, state_eq]
    rw [r_eq, p_eq, n_eq] at searched
    exact searched
  refine ⟨⟨⟨_, isOrder.perm, turnaround⟩, fun c ⟨js, perm, eq⟩ => eq ▸ least js perm⟩,
    fun C schedule => ?_⟩
  obtain ⟨js, perm, cost⟩ := schedule.exists_order (t := 0)
    (fun p hp => (valid.proc (Finset.mem_range.mp hp)).burst_pos)
    (fun p hp => (valid.proc (Finset.mem_range.mp hp)).arrival_nonneg)
  have all : (Finset.range S.w.len).toList.Perm (List.range S.w.len) :=
    (List.perm_ext_iff_of_nodup (Finset.nodup_toList _) List.nodup_range).mpr fun p => by simp
  exact (least js (perm.trans all)).trans cost

/-! ## Two processes at once -/

theorem pairSim_optNp_succeeds :
    ∃ r, (pairSim.withPolicy (policyOptNp fun _ => true)).simRun = .ok r := by
  have started : Started (pairSim.withPolicy (policyOptNp fun _ => true))
      { n := 2, pos := 0, arrived := fun _ => false,
        order := (search (fun _ => true) 3 (startSearch (initSearch pairSim.initView))
          0 0 0 0).bestOrder } :=
    ⟨pairSim_started.validated, rfl, rfl⟩
  exact pairSim_succeeds_of started (by decide +kernel)

/-- The sum of their turnaround times is at most that of the order of the pids. -/
theorem pairSim_optNp_exact : ∃ r, (pairSim.withPolicy (policyOptNp fun _ => true)).simRun = .ok r ∧
    ∑ p ∈ Finset.range 2, ((r.outcomes p).completion - (twoThenOne.proc p).arrival) ≤ 5 := by
  obtain ⟨r, success⟩ := pairSim_optNp_succeeds
  obtain ⟨⟨-, least⟩, -⟩ := simRun_optNp_exact (S := pairSim) (fun _ => true) success
  exact ⟨r, success, least ⟨[0, 1], List.Perm.refl _, by decide⟩⟩

end Sim

end CpuSched
