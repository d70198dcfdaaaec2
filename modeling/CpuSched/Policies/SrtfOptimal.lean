import CpuSched.Engine.Flow
import CpuSched.Lib.ShortestRemaining
import CpuSched.Policies.NoInversion
import Mathlib.Data.Set.Card
import Mathlib.Order.ConditionallyCompleteLattice.Finset
import Mathlib.Data.Int.ConditionallyCompleteOrder

/-!
# SRTF is optimal

On one core, without I/O and without a switch cost, no preemptive schedule has a smaller
sum of turnaround times than SRTF with exact bursts.  The schedules are assignments of
ticks to processes.  The run is ahead of each of them at every tick, in the sense of the
shortest remaining time first, so it never has more unfinished processes.
-/

namespace CpuSched

variable {w : Workload} {σ : Int → Option Nat} {p : Nat}

/-! ## Schedules of one CPU -/

/-- A preemptive schedule of one CPU: what runs in each tick, if anything.  A process
runs at or after its arrival, and for its burst. -/
structure Feasible (w : Workload) (σ : Int → Option Nat) : Prop where
  released : ∀ t p, σ t = some p → p < w.len ∧ (w.proc p).arrival ≤ t
  served : ∀ p < w.len, ({t | σ t = some p}.ncard : Int) = (w.proc p).burst

/-- The end of the last tick of `p`. -/
noncomputable def completionOf (σ : Int → Option Nat) (p : Nat) : Int := sSup {t | σ t = some p} + 1

/-- The ticks of `p` before `t`. -/
noncomputable def ticksBefore (σ : Int → Option Nat) (p : Nat) (t : Int) : Int :=
  ({u | u < t ∧ σ u = some p}.ncard : Int)

section Ticks

variable (finite : {t | σ t = some p}.Finite)
include finite

theorem ticksBefore_le_ncard (t : Int) : ticksBefore σ p t ≤ {t | σ t = some p}.ncard := by
  rw [ticksBefore]
  have sub : {u | u < t ∧ σ u = some p} ⊆ {t | σ t = some p} := fun u hu => hu.2
  exact_mod_cast Set.ncard_le_ncard sub finite

/-- One tick later a process has run for the tick or not. -/
theorem ticksBefore_add_one (t : Int) :
    ticksBefore σ p (t + 1) = ticksBefore σ p t + if σ t = some p then 1 else 0 := by
  have finite : {u | u < t ∧ σ u = some p}.Finite := finite.subset fun u hu => hu.2
  unfold ticksBefore
  split_ifs with runs
  · have grown : {u | u < t + 1 ∧ σ u = some p} = insert t {u | u < t ∧ σ u = some p} := by
      ext u
      simp only [Set.mem_ofPred_eq, Set.mem_insert_iff, Int.lt_add_one_iff, le_iff_eq_or_lt]
      constructor
      · rintro ⟨rfl | lt, hu⟩
        · exact .inl rfl
        · exact .inr ⟨lt, hu⟩
      · rintro (rfl | ⟨lt, hu⟩)
        · exact ⟨.inl rfl, runs⟩
        · exact ⟨.inr lt, hu⟩
    rw [grown, Set.ncard_insert_of_notMem (by simp) finite]
    push_cast
    rfl
  · have same : {u | u < t + 1 ∧ σ u = some p} = {u | u < t ∧ σ u = some p} := by
      ext u
      simp only [Set.mem_ofPred_eq, Int.lt_add_one_iff, le_iff_eq_or_lt]
      constructor
      · rintro ⟨rfl | lt, hu⟩
        · exact absurd hu runs
        · exact ⟨lt, hu⟩
      · rintro ⟨lt, hu⟩
        exact ⟨.inr lt, hu⟩
    rw [same, add_zero]

omit finite in
/-- Before its first tick a process has not run. -/
theorem ticksBefore_eq_zero {t : Int} (later : ∀ u, σ u = some p → t ≤ u) :
    ticksBefore σ p t = 0 := by
  have none : {u | u < t ∧ σ u = some p} = ∅ := by
    ext u
    simp only [Set.mem_ofPred_eq, Set.mem_empty_iff_false, iff_false, not_and]
    intro lt hu
    have := later u hu
    omega
  rw [ticksBefore, none, Set.ncard_empty]
  rfl

omit finite in
/-- After its last tick a process has run for all of them. -/
theorem ticksBefore_eq_ncard {t : Int} (earlier : ∀ u, σ u = some p → u < t) :
    ticksBefore σ p t = {t | σ t = some p}.ncard := by
  rw [ticksBefore]
  congr 2
  ext u
  simp only [Set.mem_ofPred_eq, and_iff_right_iff_imp]
  exact earlier u

end Ticks

section Schedules

variable (valid : w.Valid) (feasible : Feasible w σ) (hp : p < w.len)
include valid feasible hp

theorem Feasible.finite : {t | σ t = some p}.Finite := by
  refine Set.finite_of_ncard_pos ?_
  have := feasible.served p hp
  have := (valid.proc hp).burst_pos
  omega

theorem Feasible.last : IsGreatest {t | σ t = some p} (completionOf σ p - 1) := by
  have nonempty : {t | σ t = some p}.Nonempty := by
    refine Set.nonempty_of_ncard_ne_zero ?_
    have := feasible.served p hp
    have := (valid.proc hp).burst_pos
    omega
  have bounded := (feasible.finite valid hp).bddAbove
  rw [completionOf, add_sub_cancel_right]
  exact ⟨Int.csSup_mem nonempty bounded, fun t ht => le_csSup bounded ht⟩

/-- A process is not complete when it arrives. -/
theorem Feasible.arrival_lt : (w.proc p).arrival < completionOf σ p := by
  have := (feasible.released _ p (feasible.last valid hp).1).2
  omega

theorem Feasible.ticksBefore_le (t : Int) : ticksBefore σ p t ≤ (w.proc p).burst :=
  (ticksBefore_le_ncard (feasible.finite valid hp) t).trans_eq (feasible.served p hp)

/-- A process has run its burst when its last tick ends. -/
theorem Feasible.ticksBefore_done {t : Int} (le : completionOf σ p ≤ t) :
    ticksBefore σ p t = (w.proc p).burst := by
  refine (ticksBefore_eq_ncard fun u hu => ?_).trans (feasible.served p hp)
  have := (feasible.last valid hp).2 hu
  omega

/-- One tick later a process has run for the tick or not. -/
theorem Feasible.ticksBefore_succ (t : Int) :
    ticksBefore σ p (t + 1) = ticksBefore σ p t + if σ t = some p then 1 else 0 :=
  ticksBefore_add_one (feasible.finite valid hp) t

omit valid hp in
/-- Before its arrival a process has not run. -/
theorem Feasible.ticksBefore_arrival {t : Int} (le : t ≤ (w.proc p).arrival) :
    ticksBefore σ p t = 0 :=
  ticksBefore_eq_zero fun u hu => le.trans (feasible.released u p hu).2

end Schedules

namespace Sim

variable {D : Type} {S : Sim D}

/-! ## The run and a schedule -/

/-- What a schedule still has to run of the processes that the run has admitted. -/
noncomputable def otherLeft (σ : Int → Option Nat) (a : S.Config) (p : Nat) : Int :=
  if a.spots p = .new then 0 else (S.w.proc p).burst - ticksBefore σ p a.eng.now

/-- The time since the arrival of a process, up to its completion in a schedule. -/
noncomputable def otherFlow (σ : Int → Option Nat) (a : S.Config) (p : Nat) : Int :=
  if a.spots p = .new then 0 else min (completionOf σ p) a.eng.now - (S.w.proc p).arrival

/-- The run is ahead of a schedule, and has not cost more. -/
structure Beats (σ : Int → Option Nat) (a : S.Config) : Prop where
  direct : Direct a
  ahead : Ahead (Finset.range S.w.len) a.left (otherLeft σ a)
  flow_le : ∑ p ∈ Finset.range S.w.len, a.flow p ≤ ∑ p ∈ Finset.range S.w.len, otherFlow σ a p

section Runs

variable {σ : Int → Option Nat} {PInv : SchedView D → S.policy.State → Places → Prop} {budget : Int}
  {a b : S.Config}

theorem SameProc.other {p : Nat} (same : SameProc a b p) (now_eq : b.eng.now = a.eng.now) :
    otherLeft σ b p = otherLeft σ a p ∧ otherFlow σ b p = otherFlow σ a p := by
  unfold otherLeft otherFlow
  rw [now_eq]
  exact ⟨if_congr same.new_iff rfl rfl, if_congr same.new_iff rfl rfl⟩

/-- A sum over the processes changes with one of them. -/
theorem sum_range_other {f g : Nat → Int} {n p : Nat} (here : g p = f p)
    (others : ∀ q, q ≠ p → g q = f q) : ∑ q ∈ Finset.range n, g q = ∑ q ∈ Finset.range n, f q := by
  refine Finset.sum_congr rfl fun q _ => ?_
  by_cases same : q = p
  · exact same ▸ here
  · exact others q same

/-- A move leaves the comparison as it is. -/
theorem Beats.move [Double D] (plain : Plain S) (valid : S.w.Valid)
    (contract : Contract S.w S.policy PInv) (feasible : Feasible S.w σ) (move : S.Move a b)
    (sound : S.Sound PInv budget a) (beats : Beats σ a) : Beats σ b := by
  obtain ⟨direct, same | ⟨p, admits⟩⟩ := move.flow plain valid contract sound beats.direct
  · refine ⟨direct, beats.ahead.congr (fun q _ => (same q).left)
      fun q _ => ((same q).other move.now_eq).1, ?_⟩
    rw [Finset.sum_congr rfl fun q _ => (same q).flow,
      Finset.sum_congr rfl fun q _ => ((same q).other (σ := σ) move.now_eq).2]
    exact beats.flow_le
  · obtain ⟨hp, new, arrival_eq, left, flow, known, others⟩ := admits
    have mem := Finset.mem_range.mpr hp
    have burst_pos := (valid.proc hp).burst_pos
    have left₀ : a.left p = 0 := by simp [Config.left, new]
    have other₀ : otherLeft σ a p = 0 := if_pos new
    have other : otherLeft σ b p = (S.w.proc p).burst := by
      rw [otherLeft, if_neg known, move.now_eq, feasible.ticksBefore_arrival
        arrival_eq.ge, sub_zero]
    refine ⟨direct, ?_, ?_⟩
    · refine (beats.ahead.release mem burst_pos.le left₀ other₀).congr (fun q _ => ?_) fun q _ => ?_
      · by_cases same : q = p
        · subst same
          rw [Function.update_self, left]
        · rw [Function.update_of_ne same, (others q same).left]
      · by_cases same : q = p
        · subst same
          rw [Function.update_self, other]
        · rw [Function.update_of_ne same, ((others q same).other move.now_eq).1]
    · have flow₀ : a.flow p = 0 := by simp [Config.flow, new]
      have otherFlow₀ : otherFlow σ a p = 0 := if_pos new
      have otherFlow₁ : otherFlow σ b p = 0 := by
        have := feasible.arrival_lt valid hp
        rw [otherFlow, if_neg known, move.now_eq, ← arrival_eq, min_eq_right this.le, sub_self]
      rw [sum_range_other (flow.trans flow₀.symm) fun q ne => (others q ne).flow,
        sum_range_other (otherFlow₁.trans otherFlow₀.symm) fun q ne =>
          ((others q ne).other move.now_eq).2]
      exact beats.flow_le

/-- In the tick from `t` on, the CPU works on a process with the least work left, or
nothing is left. -/
inductive Shortest (a : S.Config) (t : Int) : Prop
  | run (p : Nat) (inside : p < S.w.len) (pos : 0 < (later a t).left p)
      (step : ∀ q < S.w.len, (later a (t + 1)).left q =
        Function.update (later a t).left p ((later a t).left p - 1) q)
      (least : ∀ q < S.w.len, 0 < (later a t).left q → (later a t).left p ≤ (later a t).left q)
  | idle (done : ∀ q < S.w.len, (later a t).left q ≤ 0 ∧ (later a (t + 1)).left q ≤ 0)

/-- A tick of any schedule takes at most one unit of work off. -/
theorem otherLeft_tick (valid : S.w.Valid) (feasible : Feasible S.w σ) {t : Int}
    (quiet : ∀ p < S.w.len, a.spots p = .new → t < (S.w.proc p).arrival) :
    Tick (Finset.range S.w.len) (otherLeft σ (later a t)) (otherLeft σ (later a (t + 1))) := by
  have step : ∀ p < S.w.len, otherLeft σ (later a (t + 1)) p =
      otherLeft σ (later a t) p - if σ t = some p then 1 else 0 := by
    intro p hp
    unfold otherLeft
    by_cases new : a.spots p = .new
    · have later_arrival := quiet p hp new
      have idle : σ t ≠ some p := fun runs => by
        have := (feasible.released t p runs).2
        omega
      simp [later, new, idle]
    · simp only [later, new, if_false, feasible.ticksBefore_succ valid hp]
      omega
  refine ⟨fun p hp => ?_, ⟨(σ t).getD 0, fun p hp => ?_⟩, fun p hp => ?_⟩
  · have := feasible.ticksBefore_le valid (Finset.mem_range.mp hp) (t + 1)
    unfold otherLeft
    split_ifs
    · exact le_rfl
    · exact Int.sub_nonneg.mpr this
  · split_ifs with same
    · rfl
    · rw [step p (Finset.mem_range.mp hp), if_neg, sub_zero]
      intro runs
      rw [runs] at same
      exact same rfl
  · rw [step p (Finset.mem_range.mp hp)]
    split_ifs <;> omega

/-- A tick of the run keeps it ahead. -/
theorem Beats.tick (valid : S.w.Valid) (feasible : Feasible S.w σ) {t : Int}
    (quiet : ∀ p < S.w.len, a.spots p = .new → t < (S.w.proc p).arrival)
    (waiting : ∀ p < S.w.len, 0 ≤ (later a t).left p ∧
      (a.spots p ≠ .new → a.spots p ≠ .done → 0 < (later a t).left p))
    (shortest : Shortest a t) (beats : Beats σ (later a t)) : Beats σ (later a (t + 1)) := by
  have tick := otherLeft_tick (a := a) valid feasible quiet
  have right : ∀ p ∈ Finset.range S.w.len, 0 ≤ otherLeft σ (later a t) p := by
    intro p hp
    have := feasible.ticksBefore_le valid (Finset.mem_range.mp hp) t
    unfold otherLeft
    split_ifs
    · exact le_rfl
    · exact Int.sub_nonneg.mpr this
  refine ⟨⟨beats.direct.runs, beats.direct.unblocked⟩, ?_, ?_⟩
  · cases shortest with
    | run p inside pos step least =>
        exact (beats.ahead.tick (Finset.mem_range.mpr inside) pos
          (fun q hq => least q (Finset.mem_range.mp hq)) tick).congr
          (fun q hq => step q (Finset.mem_range.mp hq)) fun _ _ => rfl
    | idle done => exact .idle (fun q hq => (done q (Finset.mem_range.mp hq)).2) tick.nonneg
  · -- every unfinished process costs the tick
    have unfinished := beats.ahead.unfinished_le
      (fun p hp => (waiting p (Finset.mem_range.mp hp)).1) right
    have mine : ∑ p ∈ Finset.range S.w.len, (later a (t + 1)).flow p ≤
        ∑ p ∈ Finset.range S.w.len,
          ((later a t).flow p + if 0 < (later a t).left p then 1 else 0) := by
      refine Finset.sum_le_sum fun p hp => ?_
      have pos := (waiting p (Finset.mem_range.mp hp)).2
      unfold Config.flow
      cases here : a.spots p with
      | new => simp [later, here]; split_ifs <;> omega
      | done => simp [later, here]; split_ifs <;> omega
      | _ =>
          rw [if_pos (pos (by simp [here]) (by simp [here]))]
          simp only [later, here]
          omega
    have other : ∑ p ∈ Finset.range S.w.len,
          (otherFlow σ (later a t) p + if 0 < otherLeft σ (later a t) p then 1 else 0) ≤
        ∑ p ∈ Finset.range S.w.len, otherFlow σ (later a (t + 1)) p := by
      refine Finset.sum_le_sum fun p hp => ?_
      unfold otherFlow otherLeft
      by_cases new : a.spots p = .new
      · simp [later, new]
      · have done := feasible.ticksBefore_done valid (Finset.mem_range.mp hp) (t := t)
        simp only [later, new, if_false]
        split_ifs with left
        · have : t < completionOf σ p := by
            by_contra! le
            have := done le
            omega
          omega
        · omega
    rw [Finset.sum_add_distrib, Finset.sum_boole] at mine other
    have := beats.flow_le
    omega

/-! ## Between two events -/

section Between

variable {e : S.Eng} {sp : Nat → Spot} (sound : S.Sound PInv budget ⟨e, sp⟩)
  (dispatched : Dispatched ⟨e, sp⟩) (direct : Direct ⟨e, sp⟩) (valid : S.w.Valid)
include sound dispatched direct valid

/-- Until the next event an unfinished process has work left. -/
theorem left_pos {t : Int} (before : t < S.nextEvent e) {p : Nat} (known : sp p ≠ .new)
    (unfinished : sp p ≠ .done) : 0 < (later ⟨e, sp⟩ t).left p := by
  have remaining : 0 < e.remaining p := (sound.progress known unfinished).remaining_pos
  cases here : sp p with
  | new => exact absurd here known
  | done => exact absurd here unfinished
  | blocked => exact absurd here (direct.unblocked p)
  | held s => exact absurd here (dispatched.noneHeld p s)
  | ready => simpa [Config.left, later, here] using remaining
  | core c s =>
      obtain ⟨-, -, seat⟩ := sound.cores.seat p c s here
      obtain ⟨-, -, -, runEnd, busy⟩ := seat.running (direct.runs p c s here)
      have event := sound.nextEvent_le valid (.slice p c s here rfl)
      simp only [Config.left, later, here]
      simp only at runEnd busy event
      omega

/-- On one core that runs a process with the least work left, each tick up to the next
event goes to such a process. -/
theorem shortest_of_least (one : S.opt.cores = 1) (conserving : S.policy.workConserving = true)
    (least : ∀ p q, (e.cores 0).proc = some p → sp q = .ready →
      e.remaining p - (e.now - (e.cores 0).runStart) ≤ e.remaining q)
    {t : Int} (le : e.now ≤ t) (before : t < S.nextEvent e) : Shortest ⟨e, sp⟩ t := by
  have first : ∀ q c s, sp q = .core c s → c = 0 := by
    intro q c s here
    have := (sound.cores.seat q c s here).1
    omega
  cases on : (e.cores 0).proc with
  | none =>
      have noReady : ∀ p, sp p ≠ .ready := by
        rcases dispatched.offered ⟨0, by omega, on⟩ with empty | ⟨offline, -⟩
        · exact empty
        · cases conserving.symm.trans offline
      refine .idle fun q hq => ?_
      unfold Config.left
      cases here : sp q with
      | ready => exact absurd here (noReady q)
      | held s => exact absurd here (dispatched.noneHeld q s)
      | core c s =>
          have seat := (sound.cores.seat q c s here).2.2.proc_eq
          rw [first q c s here] at seat
          cases on.symm.trans seat
      | _ => simp [later, here]
  | some p =>
      obtain ⟨s, seat⟩ := sound.cores.owner 0 (by omega) p on
      have seat : sp p = .core 0 s := seat
      have hp : p < S.w.len := sound.inside (by simp [seat])
      have pos := left_pos sound dispatched direct valid before (p := p) (by simp [seat])
        (by simp [seat])
      have mine : ∀ t', (later ⟨e, sp⟩ t').left p = e.remaining p -
        (t' - (e.cores 0).runStart) := by
        intro t'
        simp [Config.left, later, seat]
      refine .run p hp pos (fun q hq => ?_) fun q hq left => ?_
      · by_cases same : q = p
        · subst same
          rw [Function.update_self, mine, mine]
          omega
        · rw [Function.update_of_ne same]
          unfold Config.left
          cases here : sp q with
          | core c s' =>
              obtain rfl := first q c s' here
              exact absurd (sound.alone seat here) same
          | _ => simp [later, here]
      · rw [mine]
        unfold Config.left at left ⊢
        cases here : sp q with
        | ready =>
            have := least p q on here
            simp only [later, here]
            omega
        | held s => exact absurd here (dispatched.noneHeld q s)
        | core c s' =>
            obtain rfl := first q c s' here
            obtain rfl := sound.alone seat here
            simp [later, here]
        | _ => simp [later, here] at left

/-- The run stays ahead up to the next event. -/
theorem Beats.advance (feasible : Feasible S.w σ) (one : S.opt.cores = 1)
    (conserving : S.policy.workConserving = true)
    (least : ∀ p q, (e.cores 0).proc = some p → sp q = .ready →
      e.remaining p - (e.now - (e.cores 0).runStart) ≤ e.remaining q)
    (beats : Beats σ ⟨e, sp⟩) (k : Nat) (le : e.now + k ≤ S.nextEvent e) :
    Beats σ (later ⟨e, sp⟩ (e.now + k)) := by
  induction k with
  | zero => simpa [later] using beats
  | succ k ih =>
      have before : e.now + k < S.nextEvent e := by push_cast at le; omega
      have next := Beats.tick valid feasible (t := e.now + k) (fun p hp new => ?_) (fun p hp => ?_)
        (shortest_of_least sound dispatched direct valid one conserving least (by omega) before)
        (ih before.le)
      · rwa [add_assoc] at next
      · exact before.trans_le (sound.nextEvent_le valid (.arrival p hp new rfl))
      · refine ⟨?_, left_pos sound dispatched direct valid before⟩
        by_cases new : sp p = .new
        · simp [Config.left, later, new]
        · by_cases done : sp p = .done
          · simp [Config.left, later, done]
          · exact (left_pos sound dispatched direct valid before new done).le

/-- The run stays ahead when the clock moves to the next event. -/
theorem Beats.toNextEvent (feasible : Feasible S.w σ) (one : S.opt.cores = 1)
    (conserving : S.policy.workConserving = true)
    (least : ∀ p q, (e.cores 0).proc = some p → sp q = .ready →
      e.remaining p - (e.now - (e.cores 0).runStart) ≤ e.remaining q)
    (gt : e.now < S.nextEvent e) (beats : Beats σ ⟨e, sp⟩) :
    Beats σ (later ⟨e, sp⟩ (S.nextEvent e)) := by
  have ahead := beats.advance sound dispatched direct valid feasible one conserving least
    (S.nextEvent e - e.now).toNat (by omega)
  rwa [show e.now + ((S.nextEvent e - e.now).toNat : Int) = S.nextEvent e by omega] at ahead

end Between

/-- Nothing has arrived yet. -/
theorem Beats.init [Double D] (σ : Int → Option Nat) (state : S.policy.State) :
    Beats σ (S.initConfig state) :=
  ⟨⟨nofun, nofun⟩, (Ahead.refl _ fun _ => 0).congr (fun _ _ => rfl) fun _ _ => rfl, le_rfl⟩

/-- A run that is over and ahead has the smaller sum of turnaround times. -/
theorem Beats.turnaround_le [Double D] {e : S.Eng} {sp : Nat → Spot} (beats : Beats σ ⟨e, sp⟩)
    (sound : S.Sound PInv budget ⟨e, sp⟩) (completed : e.completed = S.w.len) :
    ∑ p ∈ Finset.range S.w.len, ((e.outcomes p).completion - (S.w.proc p).arrival) ≤
      ∑ p ∈ Finset.range S.w.len, (completionOf σ p - (S.w.proc p).arrival) := by
  have done := sound.all_done completed
  have mine : ∑ p ∈ Finset.range S.w.len, ((e.outcomes p).completion - (S.w.proc p).arrival) =
      ∑ p ∈ Finset.range S.w.len, Config.flow ⟨e, sp⟩ p := by
    refine Finset.sum_congr rfl fun p hp => ?_
    have done : sp p = .done := done p (Finset.mem_range.mp hp)
    simp only [Config.flow, done]
  rw [mine]
  refine beats.flow_le.trans (Finset.sum_le_sum fun p hp => ?_)
  have done : sp p = .done := done p (Finset.mem_range.mp hp)
  simp only [otherFlow, done]
  rw [if_neg (by simp)]
  exact Int.sub_le_sub_right (min_le_left ..) _

end Runs

/-! ## The sum of the turnaround times -/

/-- SRTF starts with its contract. -/
theorem srtf_launched [Double D] {state : Heap}
    (started : Started (S.withPolicy policySrtf) state) :
    Launched (S.withPolicy policySrtf) (ShortestInv srtfLess S.w) state := by
  have valid : S.w.Valid := workloadValidate_ok started.validated
  have options := checkOptions_ok (S := S.withPolicy policySrtf) valid started.options
  have contract : Contract (D := D) S.w policySrtf (ShortestInv srtfLess S.w) := srtf_contract valid
  have start : ShortestInv srtfLess S.w (S.withPolicy policySrtf).initView state fun _ => .new := by
    have created := started.created
    cases created
    exact HeapReady.init _ _ _
  exact ⟨valid, options, contract, start⟩

/-- The completion times of SRTF add up to no more than those of any preemptive schedule. -/
theorem srtf_completions_le [Double D] (oneBurst : ∀ p < S.w.len, (S.w.proc p).phaseCount = 1)
    (one : S.opt.cores = 1) (free : S.opt.csCost = 0) (oracle : S.opt.predict = .oracle)
    {r : SimResult} (success : (S.withPolicy policySrtf).simRun = .ok r) {σ : Int → Option Nat}
    (feasible : Feasible S.w σ) :
    ∑ p ∈ Finset.range S.w.len, (r.outcomes p).completion ≤
      ∑ p ∈ Finset.range S.w.len, completionOf σ p := by
  obtain ⟨state, started⟩ := started_of_ok success
  have launched := srtf_launched started
  have valid : S.w.Valid := launched.valid
  have options := launched.options
  have launched' : Launched (S.withPolicy policySrtf).logged (LoggedInv (ShortestInv srtfLess S.w))
      ⟨state, []⟩ :=
    ⟨valid, ⟨options.cores_pos, options.segments_pos, options.cs_nonneg, options.cs_le⟩,
      launched.contract.logged, launched.start, [], rfl, Holds.nil⟩
  have plain : Plain (S.withPolicy policySrtf).logged := ⟨oneBurst, free⟩
  have noInversion := (srtf_noInversion S oracle state started).2
  obtain ⟨e, closed⟩ := launched.closed started success
  obtain ⟨e', rfl, reached⟩ := Reached.lift (S.withPolicy policySrtf).policy.logged_projects
    (show Reached (S.withPolicy policySrtf) (Logged.state (⟨state, []⟩ :
      Logged (S.withPolicy policySrtf).policy.State)) .settled e from closed.reached)
  obtain ⟨sp, course, beats⟩ := reached.course_of (I := Beats σ) launched' (.init σ _)
    (fun move sound _ _ beats => beats.move plain valid launched'.contract feasible move sound)
    fun {e sp} reached course gt beats => by
      obtain ⟨budget, sound⟩ := course.sound
      obtain ⟨dispatched, -⟩ := course.dispatched rfl
      -- the running process has the least work left
      have least : ∀ p q, (e.cores 0).proc = some p → sp q = .ready →
          e.remaining p - (e.now - (e.cores 0).runStart) ≤ e.remaining q := by
        intro p q on ready
        have runsOn := reached.runsOn launched' free (c := 0) (p := p) one.ge on
        obtain ⟨queue, replay, best⟩ := noInversion e reached
        obtain ⟨queue', replay', holds⟩ := sound.policy.log
        obtain rfl := Option.some.inj (replay.symm.trans replay')
        have worse : ¬S.w.Before (remainingNow e 0 p) q p :=
          best 0 p q runsOn ((holds.mem_iff q).mpr (places_eq_ready.mpr ready))
        have ne : q ≠ p := by
          rintro rfl
          obtain ⟨s, seat⟩ := sound.cores.owner 0 one.ge q on
          cases ready.symm.trans seat
        unfold Workload.Before remainingNow at worse
        rw [Function.update_self, Function.update_of_ne ne] at worse
        omega
      exact beats.toNextEvent sound dispatched beats.direct valid feasible one rfl least gt
  obtain ⟨budget, sound⟩ := course.sound
  have turnaround := beats.turnaround_le sound closed.completed
  rw [Finset.sum_sub_distrib, Finset.sum_sub_distrib] at turnaround
  rw [closed.outcomes]
  exact (sub_le_sub_iff_right _).mp turnaround

/-- On one core, without I/O and without a switch cost, SRTF with exact bursts has the
smallest sum of turnaround times of all preemptive schedules. -/
theorem simRun_srtf_optimal [Double D] (oneBurst : ∀ p < S.w.len, (S.w.proc p).phaseCount = 1)
    (one : S.opt.cores = 1) (free : S.opt.csCost = 0) (oracle : S.opt.predict = .oracle)
    {r : SimResult} (success : (S.withPolicy policySrtf).simRun = .ok r) {σ : Int → Option Nat}
    (feasible : Feasible S.w σ) :
    ∑ p ∈ Finset.range S.w.len, ((r.outcomes p).completion - (S.w.proc p).arrival) ≤
      ∑ p ∈ Finset.range S.w.len, (completionOf σ p - (S.w.proc p).arrival) := by
  rw [Finset.sum_sub_distrib, Finset.sum_sub_distrib]
  exact sub_le_sub_right (srtf_completions_le oneBurst one free oracle success feasible) _

/-! ## Two processes at once -/

/-- A main loop that ends does not need more rounds. -/
theorem mainLoop_more [Double D] {fuel : Nat} (more : Nat) {e e' : S.Eng}
    (run : S.mainLoop fuel e = .done e') : S.mainLoop (fuel + more) e = .done e' := by
  induction fuel generalizing e with
  | zero =>
      rw [mainLoop] at run
      split_ifs at run with running
      obtain rfl := LoopResult.done.inj run
      cases more with
      | zero => rw [Nat.add_zero, mainLoop, if_neg running]
      | succ more => rw [Nat.zero_add, mainLoop, if_neg running]
  | succ fuel ih =>
      rw [Nat.add_right_comm]
      rw [mainLoop] at run ⊢
      split_ifs at run ⊢ with running
      · cases step : S.iterate e with
        | none => simp [step] at run
        | some e₁ =>
            simp only [step] at run ⊢
            exact ih run
      · exact run

/-- The two processes at once, before the first instant. -/
def pairEngine (P : Policy Float) (state : P.State) : (pairSim.withPolicy P).Eng :=
  { (pairSim.withPolicy P).initEngine state with
    pending := [⟨0, 1, 0⟩, ⟨0, 2, 1⟩]
    now := 0
    cores := fun _ =>
      { proc := none, inCs := false, recheck := false, busyUntil := 0, runStart := 0, runEnd := 0,
        length := 0, deadline := 0, context := none, freeSince := 0 } }

/-- The run of the two processes succeeds if it does so after two rounds. -/
theorem pairSim_succeeds_of {P : Policy Float} {state : P.State}
    (started : Started (pairSim.withPolicy P) state)
    (check : (match (pairSim.withPolicy P).processInstant (pairEngine P state) with
      | none => false
      | some e =>
          match (pairSim.withPolicy P).mainLoop 2 e with
          | .done e => decide (e.now ≤ (e.cores 0).freeSince) && decide (e.fail = .ok)
          | _ => false) = true) : ∃ r, (pairSim.withPolicy P).simRun = .ok r := by
  have init : (pairSim.withPolicy P).initEngine state = pairEngine P state := by
    have sorted : (pairSim.withPolicy P).order = [⟨0, 1, 0⟩, ⟨0, 2, 1⟩] := pairSim_order
    simp only [pairEngine, initEngine, firstArrival, sorted]
  rw [← init] at check
  cases first : (pairSim.withPolicy P).processInstant ((pairSim.withPolicy P).initEngine state) with
  | none => simp [first] at check
  | some e =>
      simp only [first] at check
      cases run : (pairSim.withPolicy P).mainLoop 2 e with
      | done e' =>
          simp only [run, Bool.and_eq_true, decide_eq_true_eq] at check
          have fuel : loopFuel = 2 + (2 ^ 63 - 2) := by decide
          have trailing : (List.range (pairSim.withPolicy P).opt.cores).foldl
              (pairSim.withPolicy P).appendTrailing e' = e' := by
            rw [show List.range (pairSim.withPolicy P).opt.cores = [0] from rfl]
            simp [appendTrailing, append, check.1]
          rw [started.simRun_eq, first, fuel]
          simp only [mainLoop_more _ run, finish, trailing, check.2, if_true]
          exact ⟨_, rfl⟩
      | _ => simp [run] at check

theorem pairSim_succeeds : ∃ r, (pairSim.withPolicy policySrtf).simRun = .ok r :=
  pairSim_succeeds_of pairSim_started (by decide +kernel)

/-- First come, first served. -/
def pairInOrder (t : Int) : Option Nat :=
  if t = 0 ∨ t = 1 then some 0 else if t = 2 then some 1 else none

theorem pairInOrder_feasible : Feasible twoThenOne pairInOrder where
  released t p runs := by
    unfold pairInOrder at runs
    split_ifs at runs with first second
    · obtain rfl := Option.some.inj runs
      refine ⟨by decide, ?_⟩
      rw [show (twoThenOne.proc 0).arrival = 0 from rfl]
      omega
    · obtain rfl := Option.some.inj runs
      refine ⟨by decide, ?_⟩
      rw [show (twoThenOne.proc 1).arrival = 0 from rfl]
      omega
  served p hp := by
    have hp : p < 2 := hp
    obtain rfl | rfl : p = 0 ∨ p = 1 := by omega
    · have ticks : {t | pairInOrder t = some 0} = {0, 1} := by
        ext t
        simp only [pairInOrder, Set.mem_ofPred_eq, Set.mem_insert_iff, Set.mem_singleton_iff]
        split_ifs <;> simp_all
      rw [ticks, Set.ncard_pair (by decide)]
      rfl
    · have ticks : {t | pairInOrder t = some 1} = {2} := by
        ext t
        simp only [pairInOrder, Set.mem_ofPred_eq, Set.mem_singleton_iff]
        split_ifs with h <;> simp_all
        omega
      rw [ticks, Set.ncard_singleton]
      rfl

/-- SRTF does not take longer on them than the order of the pids. -/
theorem pairSim_srtf_optimal : ∃ r, (pairSim.withPolicy policySrtf).simRun = .ok r ∧
    ∑ p ∈ Finset.range 2, ((r.outcomes p).completion - (twoThenOne.proc p).arrival) ≤
      ∑ p ∈ Finset.range 2, (completionOf pairInOrder p - (twoThenOne.proc p).arrival) := by
  obtain ⟨r, success⟩ := pairSim_succeeds
  refine ⟨r, success, simRun_srtf_optimal (S := pairSim) (fun p hp => ?_) rfl rfl rfl success
    pairInOrder_feasible⟩
  have hp : p < 2 := hp
  obtain rfl | rfl : p = 0 ∨ p = 1 := by omega
  · rfl
  · rfl

end Sim

end CpuSched
