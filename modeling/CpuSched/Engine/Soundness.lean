import CpuSched.Engine.Moves
import Mathlib.Logic.Relation

/-!
# Moves keep the invariant

One lemma for each kind of move.  Each calls the policy's contract for the hook
that the move makes, on a view that differs from the last one only in the
process that moves.
-/

namespace CpuSched

namespace Sim

variable {D : Type} {S : Sim D}
variable {PInv : SchedView D → S.policy.State → Places → Prop} {budget : Int}

/-! ## The view -/

section View

variable {a : S.Config} (sound : S.Sound PInv budget a)
include sound

theorem Sound.inside {p : Nat} (h : a.spots p ≠ .new) : p < S.w.len := by
  by_contra hp
  exact h (sound.outside p (by omega))

theorem Sound.progress {p : Nat} (new : a.spots p ≠ .new) (live : a.spots p ≠ .done) :
    ProgressOk (S.w.proc p) (a.eng.phase p) (a.eng.burstLen p) (a.eng.remaining p) :=
  sound.data.progress p (sound.inside new) live

/-- A view that agrees on the ready processes may be lent. -/
theorem Sound.viewOk {e : S.Eng} (now_eq : e.now = a.eng.now)
    (same : ∀ q, a.spots q = .ready → e.remaining q = a.eng.remaining q) :
    ViewOk S.w (S.view e) (places a.spots) where
  procs_eq := rfl
  n_eq := rfl
  now_nonneg := by
    have := sound.now_nonneg
    simp only [view]
    omega
  ready_pos p hp := by
    have ready := places_eq_ready.mp hp
    have := (sound.progress (p := p) (by simp [ready]) (by simp [ready])).remaining_pos
    simp only [view, same p ready]
    exact this
  outside p hp := sound.inside fun h => hp (places_eq_new.mpr h)

/-- The policy's invariant holds for such a view. -/
theorem Sound.lend (contract : Contract S.w S.policy PInv) {e : S.Eng}
    (now_eq : e.now = a.eng.now) (oracle : e.predicted = none ↔ a.eng.predicted = none)
    (same : ∀ q, a.spots q = .ready → e.remaining q = a.eng.remaining q ∧
      e.burstLen q = a.eng.burstLen q ∧
      e.predicted.map (fun f => f q) = a.eng.predicted.map fun f => f q) :
    PInv (S.view e) a.eng.state (places a.spots) := by
  refine contract.view sound.policy (sound.viewOk rfl fun _ _ => rfl)
    (sound.viewOk now_eq fun q hq => (same q hq).1) ⟨rfl, rfl, rfl, rfl, ?_, oracle, ?_, ?_, ?_⟩
  · simp [view, now_eq]
  · exact fun q hq => (same q (places_eq_ready.mp hq)).1
  · exact fun q hq => (same q (places_eq_ready.mp hq)).2.1
  · exact fun q hq => (same q (places_eq_ready.mp hq)).2.2

/-! ## The unserved work -/

theorem Sound.spotWork_nonneg (valid : S.w.Valid) {p : Nat} (hp : p < S.w.len) :
    0 ≤ S.spotWork a.eng p (a.spots p) := by
  have tail := (valid.proc hp).tail_nonneg (a.eng.phase p)
  cases h : a.spots p with
  | new =>
      have := (sound.data.progress p hp (by simp [h])).remaining_pos
      simp only [spotWork]
      omega
  | ready =>
      have := (sound.data.progress p hp (by simp [h])).remaining_pos
      simp only [spotWork]
      omega
  | held s =>
      have := (sound.data.progress p hp (by simp [h])).remaining_pos
      simp only [spotWork]
      omega
  | core c s =>
      have := (sound.data.progress p hp (by simp [h])).remaining_pos
      obtain ⟨_, _, seat⟩ := sound.cores.seat p c s h
      simp only [spotWork]
      split_ifs with hcs
      · omega
      · obtain ⟨_, hnow, _, hend, hbusy⟩ := seat.running (by simpa using hcs)
        omega
  | blocked =>
      have := (sound.data.progress p hp (by simp [h])).remaining_pos
      have := sound.blocked.wake_ge p h
      simp only [spotWork]
      omega
  | done => simp [spotWork]

theorem Sound.work_nonneg (valid : S.w.Valid) : 0 ≤ S.work a :=
  Finset.sum_nonneg fun _ hp => sound.spotWork_nonneg valid (Finset.mem_range.mp hp)

/-- The work of one process is part of the whole. -/
theorem Sound.spotWork_le (valid : S.w.Valid) {p : Nat} (hp : p < S.w.len) :
    S.spotWork a.eng p (a.spots p) ≤ S.work a :=
  Finset.single_le_sum (fun _ hq => sound.spotWork_nonneg valid (Finset.mem_range.mp hq))
    (Finset.mem_range.mpr hp)

/-- What one process still asks for fits before `INT64_MAX`. -/
theorem Sound.fits (valid : S.w.Valid) {p : Nat} (hp : p < S.w.len) :
    a.eng.now + S.spotWork a.eng p (a.spots p) ≤ int64Max := by
  have := sound.spotWork_le valid hp
  have := sound.budget_eq
  have := sound.budget_le
  omega

end View

theorem work_congr {a b : S.Config}
    (same : ∀ p < S.w.len, S.spotWork b.eng p (b.spots p) = S.spotWork a.eng p (a.spots p)) :
    S.work b = S.work a :=
  Finset.sum_congr rfl fun p hp => same p (Finset.mem_range.mp hp)

theorem outside_move {n p : Nat} {sp : Nat → Spot} {z : Spot}
    (outside : ∀ q, n ≤ q → sp q = .new) (hp : p < n) :
    ∀ q, n ≤ q → Function.update sp p z q = .new := by
  intro q hq
  rw [Function.update_of_ne (by omega)]
  exact outside q hq

/-! ## Admission and wake-up -/

theorem Sound.arrive (contract : Contract S.w S.policy PInv) {e : S.Eng}
    {sp : Nat → Spot} (sound : S.Sound PInv budget ⟨e, sp⟩) {key : ArrivalKey} {rest :
      List ArrivalKey}
    {state : S.policy.State} (pending : e.pending = key :: rest)
    (hook : S.policy.onArrival (S.view e) e.state key.index = some state) :
    S.Sound PInv budget ⟨{ e with state, pending := rest },
      Function.update sp key.index .ready⟩ := by
  have hmem : key.index ∈ e.pending.map ArrivalKey.index := by simp [pending]
  obtain ⟨hp, new⟩ : key.index < S.w.len ∧ sp key.index = .new :=
    (sound.pending.mem_iff key.index).mp hmem
  have hrem := (sound.data.progress key.index hp (by simp [new])).remaining_pos
  obtain ⟨state', hook', policy⟩ := contract.arrival sound.policy
    (sound.viewOk rfl fun _ _ => rfl) hp (places_eq_new.mpr new) hrem
  obtain rfl : state' = state := Option.some.inj (hook'.symm.trans hook)
  have work : S.work ⟨{ e with state := state', pending := rest },
      Function.update sp key.index .ready⟩ = S.work ⟨e, sp⟩ := by
    apply work_congr
    intro q _
    by_cases hq : q = key.index
    · subst hq
      simp [new, spotWork]
    · simp only [Function.update_of_ne hq]
      rfl
  refine ⟨?_, outside_move sound.outside hp, ?_, ?_, ?_, ?_, ?_, sound.now_nonneg, ?_,
    sound.budget_le, sound.no_overflow⟩
  · rw [places_update]
    exact policy
  · have h := sound.pending
    rw [pending] at h
    exact h.arrive (by simp)
  · exact sound.blocked.move (by simp [new]) (by simp)
  · exact sound.cores.move (by simp [new, Spot.OffCore]) (by simp [Spot.OffCore])
  · refine sound.data.move (fun q _ _ => ⟨rfl, rfl, rfl⟩) (fun _ _ => ?_) (by simp)
    exact sound.data.progress key.index hp (by simp [new])
  · rw [doneSet_move (by simp [new]) (by simp)]
    exact sound.completed_eq
  · rw [work]
    exact sound.budget_eq

/-- `blocked_less` orders the processes. -/
theorem blockedLess_total (valid : S.w.Valid) (wake : Nat → Int) :
    StrictTotalOn (S.blockedLess wake) (· < S.w.len) where
  irrefl a _ := by simp [blockedLess]
  trans a b c _ _ _ hab hbc := by
    simp only [blockedLess] at hab hbc ⊢
    split_ifs at hab hbc ⊢ with h1 h2 h3 h4 <;> simp only [decide_eq_true_eq] at hab hbc ⊢ <;> omega
  total a b ha hb hne := by
    have hpid : (S.w.proc a).pid ≠ (S.w.proc b).pid :=
      fun same => hne (valid.pid_injective ha hb same)
    simp only [blockedLess]
    split_ifs <;> simp only [decide_eq_true_eq] <;> omega

theorem Sound.wake (valid : S.w.Valid) (contract : Contract S.w S.policy PInv) {e : S.Eng}
    {sp : Nat → Spot} (sound : S.Sound PInv budget ⟨e, sp⟩) {p : Nat} {heap : Heap}
    {state : S.policy.State}
    (popped : heapPop (S.blockedLess e.wake) e.blocked = some (p, heap)) (due : e.wake p ≤ e.now)
    (hook : S.policy.wakeHook (S.view e) e.state p = some state) :
    S.Sound PInv budget ⟨{ e with state, blocked := heap }, Function.update sp p .ready⟩ := by
  obtain ⟨blocked, -, heapOk⟩ : sp p = .blocked ∧ _ ∧ _ :=
    sound.blocked.pop (blockedLess_total valid e.wake)
      (fun _ hq => sound.inside fun new => by cases hq.symm.trans new) popped
        (z := .ready) (by simp)
  have hp : p < S.w.len := sound.inside (by simp [blocked])
  have progress := sound.progress (p := p) (by simp [blocked]) (by simp [blocked])
  obtain ⟨state', hook', policy⟩ := contract.wake sound.policy (sound.viewOk rfl fun _ _ => rfl)
    (places_eq_blocked.mpr blocked) progress.remaining_pos
  obtain rfl : state' = state := Option.some.inj (hook'.symm.trans hook)
  have work : S.work ⟨{ e with state := state', blocked := heap }, Function.update sp p .ready⟩ =
      S.work ⟨e, sp⟩ := by
    apply work_congr
    intro q _
    by_cases hq : q = p
    · subst hq
      -- the wake time is exactly now
      have hwake : e.now ≤ e.wake q := sound.blocked.wake_ge q blocked
      simp only [Function.update_self, blocked, spotWork]
      omega
    · simp only [Function.update_of_ne hq]
      rfl
  refine ⟨?_, outside_move sound.outside hp, ?_, heapOk, ?_, ?_, ?_, sound.now_nonneg, ?_,
    sound.budget_le, sound.no_overflow⟩
  · rw [places_update]
    exact policy
  · exact sound.pending.move (by simp [blocked]) (by simp)
  · exact sound.cores.move (by simp [blocked, Spot.OffCore]) (by simp [Spot.OffCore])
  · exact sound.data.move (fun q _ _ => ⟨rfl, rfl, rfl⟩) (fun _ _ => progress) (by simp)
  · rw [doneSet_move (by simp [blocked]) (by simp)]
    exact sound.completed_eq
  · rw [work]
    exact sound.budget_eq

/-! ## The end of a slice -/

section EndOfSlice

variable {e : S.Eng} {sp : Nat → Spot} {c p : Nat} {s : Slice}

/-- A slice that ends after it started ran at least one tick, and no more than
its length or the burst allow. -/
theorem Sound.ran_bounds (sound : S.Sound PInv budget ⟨e, sp⟩) (seat : sp p = .core c s)
    (runs : (e.cores c).inCs = false) (ran : (e.cores c).runStart < e.now) :
    1 ≤ e.now - (e.cores c).runStart ∧ e.now - (e.cores c).runStart ≤ s.length ∧
      e.now - (e.cores c).runStart ≤ e.remaining p := by
  obtain ⟨_, _, seat⟩ : _ ∧ _ ∧ SeatOk _ e.now (e.remaining p) (e.cores c) s :=
    sound.cores.seat p c s seat
  have hlen := seat.length_eq
  obtain ⟨_, hnow, _, hend, hbusy⟩ := seat.running runs
  refine ⟨by omega, by omega, by omega⟩

/-- The work of a running process. -/
theorem spotWork_running (seat : sp p = .core c s) (runs : (e.cores c).inCs = false) :
    S.spotWork e p (sp p) = e.remaining p + (S.w.proc p).tail (e.phase p) -
      (e.now - (e.cores c).runStart) := by
  simp [seat, spotWork, runs]

/-- Whatever becomes of the process that leaves core `c`, the others stay. -/
theorem Sound.leave_congr (sound : S.Sound PInv budget ⟨e, sp⟩) (seat : sp p = .core c s)
    {e' : S.Eng} {z : Spot} (now_eq : e'.now = e.now)
    (others : ∀ q, q ≠ p → e'.wake q = e.wake q ∧ e'.remaining q = e.remaining q ∧
      e'.phase q = e.phase q)
    (cores : ∀ c', c' ≠ c → e'.cores c' = e.cores c')
    (self : S.spotWork e' p z = S.spotWork e p (sp p)) :
    S.work ⟨e', Function.update sp p z⟩ = S.work ⟨e, sp⟩ := by
  obtain ⟨_, hsp, ok_seat⟩ : _ ∧ _ ∧ SeatOk _ e.now (e.remaining p) (e.cores c) s :=
    sound.cores.seat p c s seat
  apply work_congr
  intro q _
  by_cases hq : q = p
  · subst hq
    simpa using self
  · obtain ⟨hwake, hrem, hphase⟩ := others q hq
    simp only [Function.update_of_ne hq]
    cases h : sp q with
    | core c' s' =>
        have hne : c' ≠ c := by
          rintro rfl
          obtain ⟨_, hs', seat'⟩ : _ ∧ _ ∧ SeatOk _ e.now (e.remaining q) (e.cores c') s' :=
            sound.cores.seat q c' s' h
          have := ok_seat.proc_eq.symm.trans seat'.proc_eq
          simp only [Option.some.injEq] at this
          exact hq (hs'.symm.trans (this.symm.trans hsp))
        simp only [spotWork, hrem, hphase, cores c' hne, now_eq]
    | new => simp only [spotWork, hrem, hphase]
    | ready => simp only [spotWork, hrem, hphase]
    | held _ => simp only [spotWork, hrem, hphase]
    | blocked => simp only [spotWork, hwake, hrem, hphase, now_eq]
    | done => rfl

theorem chargeRun_no_overflow (h : e.fail ≠ .overflow) :
    (S.chargeRun e c p).fail ≠ .overflow := by
  rw [chargeRun_fail]
  rcases S.append_fail e c (e.cores c).runStart e.now (some p) .run with heq | heq
  · rw [heq]
    exact h
  · rw [heq]
    simp

/-- A process on a core is not in the ready set. -/
theorem ne_of_ready (seat : sp p = .core c s) : ∀ q, sp q = .ready → q ≠ p := by
  rintro q hq rfl
  simp [seat] at hq

/-- The view that `on_preempt` gets may be lent. -/
theorem Sound.lendCharge (contract : Contract S.w S.policy PInv)
    (sound : S.Sound PInv budget ⟨e, sp⟩) (seat : sp p = .core c s) :
    PInv (S.view (S.chargeRun e c p)) e.state (places sp) ∧
      ViewOk S.w (S.view (S.chargeRun e c p)) (places sp) :=
  ⟨sound.lend contract (by simp) (by simp) fun q hq => by simp [ne_of_ready seat q hq],
    sound.viewOk (by simp) fun q hq => by simp [ne_of_ready seat q hq]⟩

theorem Sound.preempt (contract : Contract S.w S.policy PInv) (sound : S.Sound PInv budget ⟨e, sp⟩)
    {f : SchedView D → S.policy.State → Nat → Int → Option S.policy.State}
    {state : S.policy.State} (seat : sp p = .core c s) (runs : (e.cores c).inCs = false)
    (ran : (e.cores c).runStart < e.now) (left : (S.chargeRun e c p).remaining p ≠ 0)
    (hook_eq : S.policy.onPreempt = some f)
    (hook : f (S.view (S.chargeRun e c p)) e.state p (e.now - (e.cores c).runStart) = some state) :
    S.Sound PInv budget ⟨{ S.chargeRun e c p with state }, Function.update sp p .ready⟩ := by
  have hp : p < S.w.len := sound.inside (by simp [seat])
  have progress := sound.progress (p := p) (by simp [seat]) (by simp [seat])
  obtain ⟨hran, hlen, hrem⟩ := sound.ran_bounds seat runs ran
  simp only [chargeRun_remaining, Function.update_self] at left
  obtain ⟨lent, viewOk⟩ := sound.lendCharge contract seat
  have positive : 0 < (S.view (S.chargeRun e c p)).remaining p := by
    simp only [view, chargeRun_remaining, Function.update_self]
    omega
  obtain ⟨state', hook', policy⟩ := contract.preempt lent viewOk (places_of_core seat) hran hlen
    positive hook_eq
  obtain rfl : state' = state := Option.some.inj (hook'.symm.trans hook)
  have work : S.work ⟨{ S.chargeRun e c p with state := state' }, Function.update sp p .ready⟩ =
      S.work ⟨e, sp⟩ := by
    refine sound.leave_congr seat (by simp) (fun q hq => by simp [hq])
      (fun c' hc' => by simp [hc']) ?_
    rw [spotWork_running seat runs]
    simp only [spotWork, chargeRun_remaining, Function.update_self, chargeRun_phase]
    omega
  refine ⟨?_, outside_move sound.outside hp, ?_, ?_, ?_, ?_, ?_, ?_, ?_,
    sound.budget_le, chargeRun_no_overflow sound.no_overflow⟩
  · rw [places_update]
    exact policy
  · simpa using sound.pending.move (p := p) (by simp [seat]) (by simp)
  · simpa using sound.blocked.move (p := p) (by simp [seat]) (by simp)
  · simpa using sound.cores.leave seat runs (by simp [Spot.OffCore])
      (fun q hq => by simp [hq])
  · refine sound.data.move (fun q _ hq => by simp [hq]) (fun _ _ => ?_) (by simp)
    refine ⟨by simpa using progress.even, by simpa using progress.phase_lt,
      by simpa using progress.burstLen_eq, positive, ?_⟩
    have : e.remaining p ≤ e.burstLen p := progress.remaining_le
    simp only [chargeRun_remaining, Function.update_self, chargeRun_burstLen]
    omega
  · rw [doneSet_move (by simp [seat]) (by simp)]
    simpa using sound.completed_eq
  · simpa using sound.now_nonneg
  · rw [work]
    simpa using sound.budget_eq

/-- There is room in the blocked heap. -/
theorem Sound.pushBlocked (valid : S.w.Valid) (sound : S.Sound PInv budget ⟨e, sp⟩)
    (seat : sp p = .core c s) {io : Int} (hio : 0 ≤ io) :
    ∃ heap, heapPush (S.blockedLess (Function.update e.wake p (e.now + io))) e.blocked p =
        some heap ∧
      BlockedOk S.w.len (S.blockedLess (Function.update e.wake p (e.now + io))) e.now
        (Function.update e.wake p (e.now + io)) heap (Function.update sp p .blocked) :=
  sound.blocked.push (blockedLess_total valid)
    (fun wake wake' a b ha hb => by simp only [blockedLess, ha, hb])
    (fun _ hq => sound.inside fun new => by cases hq.symm.trans new)
    (sound.inside (by simp [seat])) (by simp [seat]) (by simp only; omega)

variable [Double D]

/-- The I/O phase after a burst that is not the last one: it exists, and its end
fits. -/
theorem Sound.startIo_eq (valid : S.w.Valid) (sound : S.Sound PInv budget ⟨e, sp⟩)
    (seat : sp p = .core c s) (runs : (e.cores c).inCs = false)
    (used : (S.chargeRun e c p).remaining p = 0)
    (more : e.phase p + 1 ≠ (S.w.proc p).phaseCount) :
    e.phase p + 2 < (S.w.proc p).phaseCount ∧
      S.startIo (S.burstOver e c p) p = { S.burstOver e c p with
        wake := Function.update e.wake p (e.now + (S.w.proc p).phase (e.phase p + 1))
        phase := Function.update e.phase p (e.phase p + 2)
        burstLen := Function.update e.burstLen p ((S.w.proc p).phase (e.phase p + 2))
        remaining := Function.update e.remaining p ((S.w.proc p).phase (e.phase p + 2)) } := by
  have hp : p < S.w.len := sound.inside (by simp [seat])
  have validp := valid.proc hp
  have even : e.phase p % 2 = 0 := (sound.progress (p := p) (by simp [seat]) (by simp [seat])).even
  have phase_lt : e.phase p < (S.w.proc p).phaseCount :=
    (sound.progress (p := p) (by simp [seat]) (by simp [seat])).phase_lt
  have odd := validp.phases_odd
  have hlt : e.phase p + 2 < (S.w.proc p).phaseCount := by omega
  refine ⟨hlt, ?_⟩
  have hio := validp.phase_pos (k := e.phase p + 1) (by omega)
  have hcpu := validp.phase_pos (k := e.phase p + 2) hlt
  have htail := validp.tail_nonneg (e.phase p + 2)
  have fits : e.now + S.spotWork e p (sp p) ≤ int64Max := sound.fits valid hp
  rw [spotWork_running seat runs, Process.tail_eq hlt] at fits
  simp only [chargeRun_remaining, Function.update_self] at used
  rw [Sim.startIo_eq]
  · simp [burstOver]
  · simpa [burstOver] using hio.le
  · simp only [burstOver, chargeRun_now, chargeRun_phase]
    omega

theorem burstOver_predicted_iff : (S.burstOver e c p).predicted = none ↔ e.predicted = none := by
  simp [burstOver, ewma]

theorem burstOver_predicted_of_ne {q : Nat} (hq : q ≠ p) :
    (S.burstOver e c p).predicted.map (fun f => f q) = e.predicted.map fun f => f q := by
  simp only [burstOver, ewma, chargeRun_predicted]
  cases e.predicted <;> simp [hq]

/-- The view that `on_block` gets may be lent. -/
theorem Sound.lendStartIo (valid : S.w.Valid) (contract : Contract S.w S.policy PInv)
    (sound : S.Sound PInv budget ⟨e, sp⟩) (seat : sp p = .core c s)
    (runs : (e.cores c).inCs = false) (used : (S.chargeRun e c p).remaining p = 0)
    (more : e.phase p + 1 ≠ (S.w.proc p).phaseCount) :
    PInv (S.view (S.startIo (S.burstOver e c p) p)) e.state (places sp) ∧
      ViewOk S.w (S.view (S.startIo (S.burstOver e c p) p)) (places sp) := by
  rw [(sound.startIo_eq valid seat runs used more).2]
  constructor
  · refine sound.lend contract (by simp [burstOver]) burstOver_predicted_iff fun q hq => ?_
    have hne := ne_of_ready seat q hq
    exact ⟨by simp [hne], by simp [hne], burstOver_predicted_of_ne hne⟩
  · exact sound.viewOk (by simp [burstOver]) fun q hq => by simp [ne_of_ready seat q hq]

theorem Sound.block (valid : S.w.Valid) (contract : Contract S.w S.policy PInv)
    (sound : S.Sound PInv budget ⟨e, sp⟩) {heap : Heap} {state : S.policy.State}
    (seat : sp p = .core c s) (runs : (e.cores c).inCs = false)
    (ran : (e.cores c).runStart < e.now) (used : (S.chargeRun e c p).remaining p = 0)
    (more : e.phase p + 1 ≠ (S.w.proc p).phaseCount)
    (pushed : heapPush (S.blockedLess (S.startIo (S.burstOver e c p) p).wake)
      (S.startIo (S.burstOver e c p) p).blocked p = some heap)
    (hook : optCall S.policy.onBlock (S.view (S.startIo (S.burstOver e c p) p)) e.state p
      (e.now - (e.cores c).runStart) = some state) :
    S.Sound PInv budget ⟨{ S.startIo (S.burstOver e c p) p with blocked := heap, state },
      Function.update sp p .blocked⟩ := by
  have hp : p < S.w.len := sound.inside (by simp [seat])
  have validp := valid.proc hp
  obtain ⟨hran, hlen, hrem⟩ := sound.ran_bounds seat runs ran
  obtain ⟨hlt, eq⟩ := sound.startIo_eq valid seat runs used more
  have hio := validp.phase_pos (k := e.phase p + 1) (by omega)
  have hcpu := validp.phase_pos (k := e.phase p + 2) hlt
  have progress : ProgressOk _ (e.phase p) _ _ :=
    sound.progress (p := p) (by simp [seat]) (by simp [seat])
  obtain ⟨lent, viewOk⟩ := sound.lendStartIo valid contract seat runs used more
  simp only [chargeRun_remaining, Function.update_self] at used
  obtain ⟨state', hook', policy⟩ := contract.block lent viewOk (places_of_core seat) hran hlen
    (by omega)
  obtain rfl : state' = state := Option.some.inj (hook'.symm.trans hook)
  rw [eq] at pushed policy ⊢
  simp only [burstOver, chargeRun_blocked] at pushed
  obtain ⟨heap', pushed', heapOk⟩ := sound.pushBlocked valid seat hio.le
  obtain rfl : heap' = heap := Option.some.inj (pushed'.symm.trans pushed)
  refine ⟨?_, outside_move sound.outside hp, ?_, ?_, ?_, ?_, ?_, ?_, ?_,
    sound.budget_le, chargeRun_no_overflow sound.no_overflow⟩
  · rw [places_update]
    exact policy
  · simpa [burstOver] using sound.pending.move (p := p) (by simp [seat]) (by simp)
  · simpa [burstOver] using heapOk
  · simpa [burstOver] using sound.cores.leave seat runs (by simp [Spot.OffCore])

      (fun q hq => by simp [hq])
  · refine sound.data.move (fun q _ hq => by simp [hq]) (fun _ _ => ?_) (by simp)
    have heven := progress.even
    simp only [Function.update_self]
    exact ⟨by omega, hlt, rfl, hcpu, le_rfl⟩
  · rw [doneSet_move (by simp [seat]) (by simp)]
    simpa [burstOver] using sound.completed_eq
  · simpa [burstOver] using sound.now_nonneg
  · rw [sound.leave_congr seat]
    · simpa [burstOver] using sound.budget_eq
    · simp [burstOver]
    · intro q hq
      simp [hq]
    · intro c' hc'
      simp [burstOver, hc']
    · rw [spotWork_running seat runs, Process.tail_eq hlt]
      simp only [spotWork, Function.update_self, burstOver, chargeRun_now]
      omega

/-- The view that `on_complete` gets may be lent. -/
theorem Sound.lendBurstOver (contract : Contract S.w S.policy PInv)
    (sound : S.Sound PInv budget ⟨e, sp⟩) (seat : sp p = .core c s) :
    PInv (S.view (S.burstOver e c p)) e.state (places sp) ∧
      ViewOk S.w (S.view (S.burstOver e c p)) (places sp) := by
  constructor
  · refine sound.lend contract (by simp [burstOver]) burstOver_predicted_iff fun q hq => ?_
    have hne := ne_of_ready seat q hq
    exact ⟨by simp [burstOver, hne], by simp [burstOver], burstOver_predicted_of_ne hne⟩
  · exact sound.viewOk (by simp [burstOver]) fun q hq => by simp [burstOver, ne_of_ready seat q hq]

theorem Sound.complete (contract : Contract S.w S.policy PInv)
    (sound : S.Sound PInv budget ⟨e, sp⟩) {state : S.policy.State} (seat : sp p = .core c s)
    (runs : (e.cores c).inCs = false) (ran : (e.cores c).runStart < e.now)
    (used : (S.chargeRun e c p).remaining p = 0)
    (last : e.phase p + 1 = (S.w.proc p).phaseCount)
    (hook : optCall S.policy.onComplete (S.view (S.burstOver e c p)) e.state p
      (e.now - (e.cores c).runStart) = some state) :
    S.Sound PInv budget ⟨{ S.finishProcess (S.burstOver e c p) p with state },
      Function.update sp p .done⟩ := by
  have hp : p < S.w.len := sound.inside (by simp [seat])
  obtain ⟨hran, hlen, hrem⟩ := sound.ran_bounds seat runs ran
  simp only [chargeRun_remaining, Function.update_self] at used
  obtain ⟨lent, viewOk⟩ := sound.lendBurstOver contract seat
  obtain ⟨state', hook', policy⟩ := contract.complete lent viewOk (places_of_core seat) hran hlen
  obtain rfl : state' = state := Option.some.inj (hook'.symm.trans hook)
  refine ⟨?_, outside_move sound.outside hp, ?_, ?_, ?_, ?_, ?_, ?_, ?_,
    sound.budget_le, chargeRun_no_overflow sound.no_overflow⟩
  · rw [places_update]
    exact policy
  · simpa [burstOver, finishProcess] using
      sound.pending.move (p := p) (by simp [seat]) (by simp)
  · simpa [burstOver, finishProcess] using
      sound.blocked.move (p := p) (by simp [seat]) (by simp)
  · simpa [burstOver, finishProcess] using
      sound.cores.leave seat runs (by simp [Spot.OffCore])
        (fun q hq => by simp [hq])
  · exact sound.data.move (fun q _ hq => by simp [burstOver, finishProcess, hq])
      (fun _ h => absurd rfl h) (by simp)
  · have := sound.completed_eq
    rw [card_doneSet_complete hp (by simp [seat])]
    simpa [burstOver, finishProcess] using this
  · simpa [burstOver, finishProcess] using sound.now_nonneg
  · rw [sound.leave_congr seat]
    · simpa [burstOver, finishProcess] using sound.budget_eq
    · simp [burstOver, finishProcess]
    · intro q hq
      simp [burstOver, finishProcess, hq]
    · intro c' hc'
      simp [burstOver, finishProcess, hc']
    · rw [spotWork_running seat runs]
      have htail : (S.w.proc p).tail (e.phase p) = 0 := by
        unfold Process.tail
        rw [List.drop_eq_nil_of_le (by unfold Process.phaseCount at last; omega), List.sum_nil]
      simp only [spotWork, htail]
      omega

end EndOfSlice

/-! ## The start of a slice -/

section StartOfSlice

variable {e : S.Eng} {sp : Nat → Spot} {c p : Nat} {s : Slice}

theorem Sound.mark (contract : Contract S.w S.policy PInv) (sound : S.Sound PInv budget ⟨e, sp⟩)
    (seat : sp p = .core c s) (switching : (e.cores c).inCs = true)
    (redecides : S.policy.preemptOnReady = true) :
    S.Sound PInv budget ⟨S.setCore e c { e.cores c with recheck := true }, sp⟩ := by
  obtain ⟨_, _, ok⟩ : _ ∧ _ ∧ SeatOk _ e.now (e.remaining p) (e.cores c) s :=
    sound.cores.seat p c s seat
  have notWhole : ¬ S.Whole := by
    intro whole
    rw [contract.interruptible whole] at redecides
    contradiction
  refine ⟨sound.policy, sound.outside, sound.pending, sound.blocked, ?_, sound.data,
    sound.completed_eq, sound.now_nonneg, ?_,
    sound.budget_le, sound.no_overflow⟩
  · refine sound.cores.reseat seat ⟨ok.proc_eq, ok.context_eq, ok.length_eq, ok.length_pos,
      ok.deadline_le, fun whole => absurd whole notWhole, ok.switching, fun runs => ?_⟩
    exact absurd switching (by simpa using runs)
  · rw [work_congr (a := ⟨e, sp⟩)]
    · exact sound.budget_eq
    · intro q _
      cases h : sp q with
      | core c' s' =>
          by_cases hc : c' = c
          · subst hc
            simp [h, spotWork, setCore]
          · simp [h, spotWork, setCore, hc]
      | _ => simp [h, spotWork, setCore]

/-- A process whose switch-in is going on has a tick of its burst left, and what is left
fits. -/
theorem Sound.switching_fits (valid : S.w.Valid) (sound : S.Sound PInv budget ⟨e, sp⟩)
    (seat : sp p = .core c s) (switching : (e.cores c).inCs = true) :
    0 < e.remaining p ∧ e.now + e.remaining p ≤ int64Max := by
  have hp : p < S.w.len := sound.inside (by simp [seat])
  have positive : 0 < e.remaining p :=
    (sound.progress (p := p) (by simp [seat]) (by simp [seat])).remaining_pos
  have tail := (valid.proc hp).tail_nonneg (e.phase p)
  have fits : e.now + S.spotWork e p (sp p) ≤ int64Max := sound.fits valid hp
  simp only [seat, spotWork, switching, if_true] at fits
  exact ⟨positive, by omega⟩

/-- A wake-up lies before the end of time: a burst follows it. -/
theorem Sound.wake_lt (valid : S.w.Valid) {a : S.Config} (sound : S.Sound PInv budget a)
    (blocked : a.spots p = .blocked) : a.eng.wake p < int64Max := by
  have hp := sound.inside (p := p) (by simp [blocked])
  have fits := sound.fits valid hp
  have positive := (sound.progress (p := p) (by simp [blocked]) (by simp [blocked])).remaining_pos
  have tail := (valid.proc hp).tail_nonneg (a.eng.phase p)
  simp only [blocked, spotWork] at fits
  omega

/-- The start of a run fits. -/
theorem Sound.startRun_eq (valid : S.w.Valid) (sound : S.Sound PInv budget ⟨e, sp⟩)
    {deadline : Int} (seat : sp p = .core c s) (switching : (e.cores c).inCs = true) :
    S.startRun e c p deadline = { e with
      outcomes := Function.update e.outcomes p (startedOutcome (e.outcomes p) e.now)
      cores := Function.update e.cores c
        (startedCore { e.cores c with deadline } e.now (e.remaining p)) } := by
  obtain ⟨_, _, ok⟩ : _ ∧ _ ∧ SeatOk _ e.now (e.remaining p) (e.cores c) s :=
    sound.cores.seat p c s seat
  obtain ⟨positive, fits⟩ := sound.switching_fits valid seat switching
  have hlen := ok.length_pos
  unfold startRun
  rw [beginRun_eq]
  · simp [setCore]
  · simpa [setCore] using hlen.le
  · exact positive.le
  · simp only [setCore]
    omega

theorem Sound.start (valid : S.w.Valid) (sound : S.Sound PInv budget ⟨e, sp⟩) {deadline : Int}
    (seat : sp p = .core c s) (switching : (e.cores c).inCs = true)
    (deadline_eq : (deadline = (e.cores c).deadline ∧ e.now < deadline ∧
        (e.cores c).recheck = false) ∨
      (deadline = e.now + 1 ∧ ((e.cores c).recheck = true ∨ (e.cores c).deadline ≤ e.now))) :
    S.Sound PInv budget ⟨S.startRun e c p deadline, sp⟩ := by
  obtain ⟨_, hsp, ok⟩ : _ ∧ _ ∧ SeatOk _ e.now (e.remaining p) (e.cores c) s :=
    sound.cores.seat p c s seat
  obtain ⟨positive, fits⟩ := sound.switching_fits valid seat switching
  have hlen := ok.length_pos
  rw [sound.startRun_eq valid seat switching]
  have later : e.now < deadline := by omega
  have bounded : deadline ≤ int64Max := by
    have := ok.deadline_le
    omega
  refine ⟨sound.policy, sound.outside, sound.pending, sound.blocked, ?_, sound.data,
    sound.completed_eq, sound.now_nonneg, ?_,
    sound.budget_le, sound.no_overflow⟩
  · refine sound.cores.reseat seat ⟨ok.proc_eq, ok.context_eq, ok.length_eq, hlen, bounded,
      fun whole => ?_, fun h => by simp [startedCore] at h, fun _ => ?_⟩
    · obtain ⟨hwhole, hdeadline, hrecheck⟩ := ok.whole whole
      refine ⟨hwhole, ?_, hrecheck⟩
      rcases deadline_eq with ⟨h, -, -⟩ | ⟨-, h | h⟩
      · exact h.trans hdeadline
      · rw [hrecheck] at h
        contradiction
      · rw [hdeadline] at h
        have : schedNoDeadline = int64Max := rfl
        omega
    · simp only [startedCore]
      refine ⟨le_rfl, ?_, ?_, trivial, trivial⟩ <;> omega
  · rw [work_congr (a := ⟨e, sp⟩)]
    · exact sound.budget_eq
    · intro q _
      cases h : sp q with
      | core c' s' =>
          by_cases hc : c' = c
          · subst hc
            simp [h, spotWork, startedCore, switching]
          · simp [h, spotWork, hc]
      | _ => simp [h, spotWork]

/-- `next_slice` returned a slice. -/
theorem Sound.pick (contract : Contract S.w S.policy PInv) (sound : S.Sound PInv budget ⟨e, sp⟩)
    {state : S.policy.State}
    (hook : S.policy.nextSlice (S.view e) e.state = some (state, some s))
    (early : e.now < int64Max) :
    sp s.proc = .ready ∧ S.Sound PInv budget
      ⟨{ e with state }, Function.update sp s.proc (.held s)⟩ := by
  obtain ⟨state', r, hook', ok⟩ := contract.next sound.policy (sound.viewOk rfl fun _ _ => rfl)
    early
  obtain ⟨rfl, rfl⟩ : state' = state ∧ r = some s := by
    have := hook'.symm.trans hook
    simpa using this
  obtain ⟨ready, length_pos, deadline_gt, deadline_le, whole, policy⟩ := ok
  have ready : sp s.proc = .ready := places_eq_ready.mp ready
  refine ⟨ready, ?_, outside_move sound.outside (sound.inside (by simp [ready])), ?_, ?_, ?_, ?_,
    ?_, sound.now_nonneg, ?_,
    sound.budget_le, sound.no_overflow⟩
  · rw [places_update]
    exact policy
  · exact sound.pending.move (by simp [ready]) (by simp)
  · exact sound.blocked.move (by simp [ready]) (by simp)
  · exact sound.cores.hold (by simp [ready, Spot.OffCore])
      ⟨length_pos, deadline_gt, deadline_le, whole⟩
  · exact sound.data.move (fun q _ _ => ⟨rfl, rfl, rfl⟩)
      (fun hp _ => sound.data.progress s.proc hp (by simp [ready])) (by simp)
  · rw [doneSet_move (by simp [ready]) (by simp)]
    exact sound.completed_eq
  · rw [work_congr (a := ⟨e, sp⟩)]
    · exact sound.budget_eq
    · intro q _
      by_cases hq : q = s.proc
      · subst hq
        simp [spotWork, ready]
      · simp only [Function.update_of_ne hq]
        rfl

/-- `next_slice` returned nothing. -/
theorem Sound.refuse (contract : Contract S.w S.policy PInv) (sound : S.Sound PInv budget ⟨e, sp⟩)
    {state : S.policy.State}
    (hook : S.policy.nextSlice (S.view e) e.state = some (state, none))
    (early : e.now < int64Max) :
    S.Sound PInv budget ⟨{ e with state }, sp⟩ ∧ ((∀ p, sp p ≠ .ready) ∨
      (S.policy.workConserving = false ∧ ∃ p < S.w.len, sp p = .new)) := by
  obtain ⟨state', r, hook', ok⟩ := contract.next sound.policy (sound.viewOk rfl fun _ _ => rfl)
    early
  obtain ⟨rfl, rfl⟩ : state' = state ∧ r = none := by
    have := hook'.symm.trans hook
    simpa using this
  refine ⟨⟨ok.1, sound.outside, sound.pending, sound.blocked, sound.cores, sound.data,
    sound.completed_eq, sound.now_nonneg, sound.budget_eq, sound.budget_le, sound.no_overflow⟩, ?_⟩
  rcases ok.2 with h | ⟨h, p, hp, new⟩
  · exact .inl fun p hp => h p (places_eq_ready.mpr hp)
  · exact .inr ⟨h, p, hp, places_eq_new.mp new⟩

/-- Core `c` after `dispatch_one`. -/
def placedCore (S : Sim D) (e : S.Eng) (c : Nat) (s : Slice) : Core :=
  if S.switching e c s.proc ∧ 0 < S.opt.csCost then
    { seatedCore (e.cores c) s with inCs := true, busyUntil := e.now + S.opt.csCost }
  else startedCore (seatedCore (e.cores c) s) e.now (e.remaining s.proc)

/-- What `dispatch_one` records: the idle time, and the switch-in if there is
one. -/
def placedRecord (S : Sim D) (e : S.Eng) (c : Nat) (s : Slice) : S.Eng :=
  let e₁ := S.append e c (e.cores c).freeSince e.now none .idle
  if S.switching e c s.proc ∧ 0 < S.opt.csCost then
    S.append e₁ c e.now (e.now + S.opt.csCost) (some s.proc) .cs
  else e₁

/-- The outcomes after `dispatch_one`: a process that runs at once has
started. -/
def placedOutcomes (S : Sim D) (e : S.Eng) (c : Nat) (s : Slice) : Nat → ProcOutcome :=
  if S.switching e c s.proc ∧ 0 < S.opt.csCost then e.outcomes
  else Function.update e.outcomes s.proc (startedOutcome (e.outcomes s.proc) e.now)

/-- `dispatch_one` when its end fits. -/
theorem placed_eq (hcs : 0 ≤ S.opt.csCost) (csFits : e.now + S.opt.csCost ≤ int64Max)
    (hlen : 0 ≤ s.length) (hrem : 0 ≤ e.remaining s.proc)
    (fits : e.now + e.remaining s.proc ≤ int64Max) :
    S.placed e c s = { e with
      cores := Function.update e.cores c (S.placedCore e c s)
      outcomes := S.placedOutcomes e c s
      switches := if S.switching e c s.proc then e.switches + 1 else e.switches
      csTime := if S.switching e c s.proc ∧ 0 < S.opt.csCost then e.csTime + S.opt.csCost
        else e.csTime
      timelines := (S.placedRecord e c s).timelines
      segments := (S.placedRecord e c s).segments
      fail := (S.placedRecord e c s).fail } := by
  unfold placed placedCore placedOutcomes placedRecord
  by_cases h : S.switching e c s.proc = true ∧ 0 < S.opt.csCost
  · simp only [if_pos h]
    rw [switchIn_eq _ _ _ _ hcs (by simpa [seat_eq] using csFits)]
    obtain ⟨htl, hseg, hfail⟩ := S.append_congr c e.now (e.now + S.opt.csCost) (some s.proc) .cs
      (e := S.append e c (e.cores c).freeSince e.now none .idle) (f := S.seat e c s)
      (by rw [seat_eq]) (by rw [seat_eq]) (by rw [seat_eq])
    have now_eq : (S.seat e c s).now = e.now := by rw [seat_eq]
    rw [now_eq, htl, hseg, hfail, seat_eq]
    simp
  · simp only [if_neg h]
    rw [beginRun_eq]
    · rw [seat_eq]
      simp
    · simpa [seat_eq, seatedCore] using hlen
    · simpa [seat_eq] using hrem
    · simpa [seat_eq] using fits

theorem placedRecord_no_overflow (h : e.fail ≠ .overflow) :
    (S.placedRecord e c s).fail ≠ .overflow := by
  have idle : (S.append e c (e.cores c).freeSince e.now none .idle).fail ≠ .overflow := by
    rcases S.append_fail e c (e.cores c).freeSince e.now none .idle with heq | heq
    · rwa [heq]
    · simp [heq]
  unfold placedRecord
  split
  · rcases S.append_fail (S.append e c (e.cores c).freeSince e.now none .idle) c e.now
      (e.now + S.opt.csCost) (some s.proc) .cs with heq | heq
    · rwa [heq]
    · simp [heq]
  · exact idle

/-- Dispatching a held slice fits. -/
theorem Sound.placed_eq (valid : S.w.Valid) (hcs : 0 ≤ S.opt.csCost)
    (sound : S.Sound PInv budget ⟨e, sp⟩) (held : sp s.proc = .held s)
    (csFits : e.now + S.opt.csCost ≤ int64Max) :
    S.placed e c s = { e with
      cores := Function.update e.cores c (S.placedCore e c s)
      outcomes := S.placedOutcomes e c s
      switches := if S.switching e c s.proc then e.switches + 1 else e.switches
      csTime := if S.switching e c s.proc ∧ 0 < S.opt.csCost then e.csTime + S.opt.csCost
        else e.csTime
      timelines := (S.placedRecord e c s).timelines
      segments := (S.placedRecord e c s).segments
      fail := (S.placedRecord e c s).fail } := by
  have hp : s.proc < S.w.len := sound.inside (by simp [held])
  have positive : 0 < e.remaining s.proc :=
    (sound.progress (p := s.proc) (by simp [held]) (by simp [held])).remaining_pos
  have tail := (valid.proc hp).tail_nonneg (e.phase s.proc)
  have fits : e.now + S.spotWork e s.proc (sp s.proc) ≤ int64Max := sound.fits valid hp
  simp only [held, spotWork] at fits
  obtain ⟨-, slice⟩ : _ ∧ SliceOk _ e.now (e.remaining s.proc) s := sound.cores.held _ _ held
  have hlen := slice.length_pos
  exact Sim.placed_eq hcs csFits hlen.le positive.le (by omega)

theorem Sound.place (valid : S.w.Valid) (hcs : 0 ≤ S.opt.csCost)
    (sound : S.Sound PInv budget ⟨e, sp⟩)
    (held : sp s.proc = .held s) (core_lt : c < S.opt.cores) (free : (e.cores c).proc = none)
    (csFits : e.now + S.opt.csCost ≤ int64Max) :
    S.Sound PInv budget ⟨S.placed e c s, Function.update sp s.proc (.core c s)⟩ := by
  have hp : s.proc < S.w.len := sound.inside (by simp [held])
  have positive : 0 < e.remaining s.proc :=
    (sound.progress (p := s.proc) (by simp [held]) (by simp [held])).remaining_pos
  obtain ⟨-, slice⟩ : _ ∧ SliceOk _ e.now (e.remaining s.proc) s := sound.cores.held _ _ held
  have hlen := slice.length_pos
  have hdeadline := slice.deadline_gt
  rw [sound.placed_eq (c := c) valid hcs held csFits]
  refine ⟨?_, outside_move sound.outside hp, ?_, ?_, ?_, ?_, ?_, sound.now_nonneg, ?_,
    sound.budget_le, placedRecord_no_overflow sound.no_overflow⟩
  · have same : places (Function.update sp s.proc (.core c s)) = places sp := by
      funext q
      by_cases hq : q = s.proc
      · subst hq
        simp [places, held, Spot.place]
      · simp [places, hq]
    rw [same]
    exact sound.policy
  · exact sound.pending.move (by simp [held]) (by simp)
  · exact sound.blocked.move (by simp [held]) (by simp)
  · refine sound.cores.enter held core_lt free ?_
    unfold placedCore
    split
    · exact ⟨rfl, rfl, rfl, hlen, slice.deadline_le, fun whole =>
        ⟨(slice.whole whole).1, (slice.whole whole).2, rfl⟩, fun _ => by simp only; omega,
        fun h => by simp at h⟩
    · refine ⟨rfl, rfl, rfl, hlen, slice.deadline_le, fun whole =>
        ⟨(slice.whole whole).1, (slice.whole whole).2, rfl⟩,
        fun h => by simp [startedCore] at h, fun _ => ?_⟩
      simp only [startedCore, seatedCore]
      refine ⟨le_rfl, ?_, ?_, trivial, trivial⟩ <;> omega
  · exact sound.data.move (fun q _ _ => ⟨rfl, rfl, rfl⟩)
      (fun hp _ => sound.data.progress s.proc hp (by simp [held])) (by simp)
  · rw [doneSet_move (by simp [held]) (by simp)]
    exact sound.completed_eq
  · rw [work_congr (a := ⟨e, sp⟩)]
    · exact sound.budget_eq
    · intro q _
      by_cases hq : q = s.proc
      · subst hq
        simp only [Function.update_self, held, spotWork, placedCore]
        split <;> simp [startedCore]
      · simp only [Function.update_of_ne hq]
        cases h : sp q with
        | core c' s' =>
            have hne : c' ≠ c := by
              rintro rfl
              have := (sound.cores.seat q c' s' h).2.2.proc_eq
              rw [free] at this
              cases this
            simp [spotWork, hne]
        | _ => rfl

end StartOfSlice

/-! ## Sequences of moves -/

variable [Double D] {a b : S.Config}

theorem Move.now_eq (move : S.Move a b) : b.eng.now = a.eng.now := by
  cases move with
  | arrive => rfl
  | wake => rfl
  | preempt => simp
  | block => simp [burstOver]
  | complete => simp [finishProcess, burstOver]
  | mark => rfl
  | start => simp [startRun, setCore]
  | pick => rfl
  | refuse => rfl
  | place =>
      unfold placed
      split <;> simp [seat_eq]

theorem Move.sound (valid : S.w.Valid) (hcs : 0 ≤ S.opt.csCost)
    (contract : Contract S.w S.policy PInv) (move : S.Move a b) (sound : S.Sound PInv budget a) :
    S.Sound PInv budget b := by
  cases move with
  | arrive pending _ hook => exact sound.arrive contract pending hook
  | wake popped due hook => exact sound.wake valid contract popped due hook
  | preempt seat runs ran left hook_eq hook =>
      exact sound.preempt contract seat runs ran left hook_eq hook
  | block seat runs ran used more pushed hook =>
      exact sound.block valid contract seat runs ran used more pushed hook
  | complete seat runs ran used last hook =>
      exact sound.complete contract seat runs ran used last hook
  | mark seat switching redecides => exact sound.mark contract seat switching redecides
  | start seat switching _ deadline_eq => exact sound.start valid seat switching deadline_eq
  | pick hook early => exact (sound.pick contract hook early).2
  | refuse hook early => exact (sound.refuse contract hook early).1
  | place held core_lt free fits => exact sound.place valid hcs held core_lt free fits

/-- Two configurations differ at most in process `p`. -/
structure SameBut (p : Nat) (a b : S.Config) : Prop where
  spots : ∀ q, q ≠ p → b.spots q = a.spots q
  wake : ∀ q, q ≠ p → b.eng.wake q = a.eng.wake q
  phase : ∀ q, q ≠ p → b.eng.phase q = a.eng.phase q
  burstLen : ∀ q, q ≠ p → b.eng.burstLen q = a.eng.burstLen q
  remaining : ∀ q, q ≠ p → b.eng.remaining q = a.eng.remaining q

/-- A move is about one process; if that one blocks, it wakes later. -/
theorem Move.sameBut (valid : S.w.Valid) (hcs : 0 ≤ S.opt.csCost) (move : S.Move a b)
    (sound : S.Sound PInv budget a) :
    ∃ p, SameBut p a b ∧ (b.spots p = .blocked → a.eng.now < b.eng.wake p) := by
  cases move with
  | @arrive e sp key rest state pending due hook =>
      exact ⟨key.index, ⟨fun q hq => by simp [hq], fun _ _ => rfl, fun _ _ => rfl, fun _ _ => rfl,
        fun _ _ => rfl⟩, by simp⟩
  | @wake e sp p heap state popped due hook =>
      exact ⟨p, ⟨fun q hq => by simp [hq], fun _ _ => rfl, fun _ _ => rfl, fun _ _ => rfl,
        fun _ _ => rfl⟩, by simp⟩
  | @preempt e sp c p s f state seat runs ran left hook_eq hook =>
      exact ⟨p, ⟨fun q hq => by simp [hq], fun _ _ => by simp, fun _ _ => by simp,
        fun _ _ => by simp, fun q hq => by simp [hq]⟩, by simp⟩
  | @block e sp c p s heap state seat runs ran used more pushed hook =>
      obtain ⟨hlt, eq⟩ := sound.startIo_eq valid seat runs used more
      have hp : p < S.w.len := sound.inside (p := p) (by simp [seat])
      have hio := (valid.proc hp).phase_pos (k := e.phase p + 1) (by omega)
      rw [eq]
      refine ⟨p, ⟨fun q hq => by simp [hq], fun q hq => by simp [hq], fun q hq => by simp [hq],
        fun q hq => by simp [hq], fun q hq => by simp [hq]⟩, fun _ => ?_⟩
      simp only [Function.update_self]
      omega
  | @complete e sp c p s state seat runs ran used last hook =>
      exact ⟨p, ⟨fun q hq => by simp [hq], fun _ _ => by simp [finishProcess, burstOver],
        fun _ _ => by simp [finishProcess, burstOver],
        fun _ _ => by simp [finishProcess, burstOver],
        fun q hq => by simp [finishProcess, burstOver, hq]⟩, by simp⟩
  | @mark e sp c p s seat switching redecides =>
      exact ⟨p, ⟨fun _ _ => rfl, fun _ _ => rfl, fun _ _ => rfl, fun _ _ => rfl, fun _ _ => rfl⟩,
        by simp [seat]⟩
  | @start e sp c p s deadline seat switching elapsed deadline_eq =>
      rw [sound.startRun_eq valid seat switching]
      exact ⟨p, ⟨fun _ _ => rfl, fun _ _ => rfl, fun _ _ => rfl, fun _ _ => rfl, fun _ _ => rfl⟩,
        by simp [seat]⟩
  | @pick e sp s state hook early =>
      exact ⟨s.proc, ⟨fun q hq => by simp [hq], fun _ _ => rfl, fun _ _ => rfl, fun _ _ => rfl,
        fun _ _ => rfl⟩, by simp⟩
  | refuse hook early =>
      exact ⟨S.w.len, ⟨fun _ _ => rfl, fun _ _ => rfl, fun _ _ => rfl, fun _ _ => rfl,
        fun _ _ => rfl⟩, fun h => by cases (sound.outside S.w.len le_rfl).symm.trans h⟩
  | @place e sp c s held core_lt free fits =>
      rw [sound.placed_eq (c := c) valid hcs held fits]
      exact ⟨s.proc, ⟨fun q hq => by simp [hq], fun _ _ => rfl, fun _ _ => rfl, fun _ _ => rfl,
        fun _ _ => rfl⟩, by simp⟩

/-- What a move leaves on a core: the core as it was, marked, started or just
dispatched on. -/
theorem Move.onCore (valid : S.w.Valid) (hcs : 0 ≤ S.opt.csCost) (move : S.Move a b)
    (sound : S.Sound PInv budget a) {P : Core → Prop} {c : Nat}
    (marked : ∀ core : Core, P core → P { core with recheck := true })
    (started : ∀ (core : Core) (remaining : Int), 0 < core.length → 0 < remaining →
      a.eng.now < core.deadline → P (startedCore core a.eng.now remaining))
    (switched : ∀ core : Core, 0 < S.opt.csCost → b.eng.switches = a.eng.switches + 1 →
      P { core with inCs := true, busyUntil := a.eng.now + S.opt.csCost })
    (before : ∀ p s, a.spots p = .core c s → P (a.eng.cores c)) :
    ∀ p s, b.spots p = .core c s → P (b.eng.cores c) := by
  -- a process that leaves core `c'` was alone there
  have left : ∀ {q c' s' z}, a.spots q = .core c' s' → z.OffCore →
      ∀ {cores : Nat → Core}, (∀ c, c ≠ c' → cores c = a.eng.cores c) →
      ∀ p s, Function.update a.spots q z p = .core c s → P (cores c) := by
    intro q c' s' z seat enters cores others p s hp
    have other := enters.other (.inr ⟨c, s, rfl⟩) hp
    have stays := enters.stays (.inr ⟨c, s, rfl⟩) hp
    rw [others c]
    · exact before p s stays
    · rintro rfl
      obtain ⟨_, h1, seat1⟩ := sound.cores.seat q c s' seat
      obtain ⟨_, h2, seat2⟩ := sound.cores.seat p c s stays
      have := seat1.proc_eq.symm.trans seat2.proc_eq
      simp only [Option.some.injEq] at this
      exact other (h2.symm.trans (this.symm.trans h1))
  -- moves off the cores leave them alone
  have stays : ∀ {q z}, z.OffCore ∨ (∃ s, z = .held s) →
      ∀ p s, Function.update a.spots q z p = .core c s → P (a.eng.cores c) := by
    intro q z enters p s hp
    by_cases hq : p = q
    · subst hq
      rw [Function.update_self] at hp
      rcases enters with enters | ⟨s', rfl⟩
      · exact absurd hp (enters.ne_core c s)
      · cases hp
    · rw [Function.update_of_ne hq] at hp
      exact before p s hp
  cases move with
  | arrive => exact stays (.inl (by simp [Spot.OffCore]))
  | wake => exact stays (.inl (by simp [Spot.OffCore]))
  | preempt seat =>
      exact left seat (by simp [Spot.OffCore]) (fun c' hc' => by simp [hc'])
  | block seat runs ran used more =>
      obtain ⟨hlt, eq⟩ := sound.startIo_eq valid seat runs used more
      rw [eq]
      exact left seat (by simp [Spot.OffCore]) (fun c' hc' => by simp [burstOver, hc'])
  | complete seat =>
      exact left seat (by simp [Spot.OffCore])
        (fun c' hc' => by simp [finishProcess, burstOver, hc'])
  | @mark e sp c' q s' seat switching redecides =>
      intro p s hp
      by_cases hc : c = c'
      · subst hc
        simpa [setCore] using marked _ (before p s hp)
      · simpa [setCore, hc] using before p s hp
  | @start e sp c' q s' deadline seat switching elapsed deadline_eq =>
      rw [sound.startRun_eq valid seat switching]
      intro p s hp
      by_cases hc : c = c'
      · subst hc
        have ok : SeatOk _ e.now (e.remaining q) (e.cores c) s' :=
          (sound.cores.seat q c s' seat).2.2
        have progress := sound.progress (p := q) (by simp [seat]) (by simp [seat])
        simp only [Function.update_self]
        exact started _ _ ok.length_pos progress.remaining_pos (by simp only; omega)
      · simpa [hc] using before p s hp
  | pick => exact stays (.inr ⟨_, rfl⟩)
  | refuse => exact before
  | @place e sp c' s' held core_lt free fits =>
      intro p s hp
      by_cases hc : c = c'
      · subst hc
        have slice : SliceOk _ e.now (e.remaining s'.proc) s' := (sound.cores.held _ _ held).2
        have progress := sound.progress (p := s'.proc) (by simp [held]) (by simp [held])
        rw [sound.placed_eq (c := c) valid hcs held fits]
        simp only [Function.update_self, placedCore]
        split_ifs with hswitch
        · exact switched _ hswitch.2 (by
            rw [sound.placed_eq (c := c) valid hcs held fits]
            simp [hswitch.1])
        · exact started _ _ slice.length_pos progress.remaining_pos slice.deadline_gt
      · have hne : p ≠ s'.proc := by
          rintro rfl
          simp only [Function.update_self, Spot.core.injEq] at hp
          exact hc hp.1.symm
        rw [sound.placed_eq (c := c') valid hcs held fits]
        simp only [Function.update_of_ne hne, Function.update_of_ne hc] at hp ⊢
        exact before p s hp

/-- What happens in one instant. -/
abbrev Moves (S : Sim D) : S.Config → S.Config → Prop := Relation.ReflTransGen S.Move

theorem Moves.now_eq (moves : S.Moves a b) : b.eng.now = a.eng.now := by
  induction moves with
  | refl => rfl
  | tail _ move ih => exact move.now_eq.trans ih

theorem Moves.sound (valid : S.w.Valid) (hcs : 0 ≤ S.opt.csCost)
    (contract : Contract S.w S.policy PInv) (moves : S.Moves a b)
    (sound : S.Sound PInv budget a) : S.Sound PInv budget b := by
  induction moves with
  | refl => exact sound
  | tail _ move ih => exact move.sound valid hcs contract ih

end Sim

end CpuSched
