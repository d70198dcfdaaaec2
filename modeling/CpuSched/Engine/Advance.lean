import CpuSched.Engine.Bounds

/-!
# The next event

`next_event` finds the first of the pending arrivals, wake times, slice ends and
deadlines.  In a dispatched state with a process unfinished there is one, after
now, and moving the clock to it keeps the invariant and the bound.
-/

namespace CpuSched

namespace Sim

variable {D : Type} {S : Sim D}
variable {PInv : SchedView D → S.policy.State → Places → Prop} {budget : Int}

/-! ## `next_event` -/

theorem coreEvent_le (e : S.Eng) (t : Int) (c : Nat) : S.coreEvent e t c ≤ t := by
  unfold coreEvent
  dsimp only
  split_ifs <;> omega

/-- What the scan of the cores finds. -/
theorem foldl_coreEvent (e : S.Eng) (cs : List Nat) (t : Int) :
    cs.foldl (S.coreEvent e) t ≤ t ∧
      (∀ c ∈ cs, (e.cores c).proc ≠ none → cs.foldl (S.coreEvent e) t ≤ (e.cores c).busyUntil ∧
        (e.now < (e.cores c).deadline → cs.foldl (S.coreEvent e) t ≤ (e.cores c).deadline)) ∧
      (cs.foldl (S.coreEvent e) t = t ∨ ∃ c ∈ cs, (e.cores c).proc ≠ none ∧
        (cs.foldl (S.coreEvent e) t = (e.cores c).busyUntil ∨
          (e.now < (e.cores c).deadline ∧
            cs.foldl (S.coreEvent e) t = (e.cores c).deadline))) := by
  induction cs generalizing t with
  | nil => simp
  | cons c rest ih =>
      obtain ⟨hle, hcores, hhit⟩ := ih (S.coreEvent e t c)
      rw [List.foldl_cons]
      generalize rest.foldl (S.coreEvent e) (S.coreEvent e t c) = r at *
      have here : (e.cores c).proc ≠ none → S.coreEvent e t c ≤ (e.cores c).busyUntil ∧
          (e.now < (e.cores c).deadline → S.coreEvent e t c ≤ (e.cores c).deadline) := by
        intro busy
        unfold coreEvent
        dsimp only
        rw [if_neg busy]
        split_ifs <;> omega
      have hit : S.coreEvent e t c = t ∨ ((e.cores c).proc ≠ none ∧
          (S.coreEvent e t c = (e.cores c).busyUntil ∨
            (e.now < (e.cores c).deadline ∧ S.coreEvent e t c = (e.cores c).deadline))) := by
        unfold coreEvent
        dsimp only
        split_ifs <;> simp_all
      refine ⟨hle.trans (coreEvent_le e t c), ?_, ?_⟩
      · simp only [List.mem_cons, forall_eq_or_imp]
        refine ⟨fun busy => ?_, hcores⟩
        obtain ⟨h1, h2⟩ := here busy
        exact ⟨hle.trans h1, fun later => hle.trans (h2 later)⟩
      · rcases hhit with heq | ⟨c', hc', hhit⟩
        · rw [heq]
          rcases hit with h | h
          · exact .inl h
          · exact .inr ⟨c, List.mem_cons_self, h⟩
        · exact .inr ⟨c', List.mem_cons_of_mem _ hc', hhit⟩

/-- `next_event` before the cores are looked at. -/
def waitEvent (e : S.Eng) : Int :=
  let t := match e.pending with
    | [] => int64Max
    | key :: _ => key.arrival
  if e.blocked.isEmpty = false ∧ e.wake (e.blocked.items 0) < t then
    e.wake (e.blocked.items 0) else t

theorem nextEvent_eq (e : S.Eng) :
    S.nextEvent e = (List.range S.opt.cores).foldl (S.coreEvent e) (waitEvent e) := rfl

/-- An event of the configuration at `t`. -/
inductive EventAt (a : S.Config) (t : Int) : Prop
  | arrival (p : Nat) (inside : p < S.w.len) (new : a.spots p = .new)
      (at_ : (S.w.proc p).arrival = t)
  | wake (p : Nat) (blocked : a.spots p = .blocked) (at_ : a.eng.wake p = t)
  | slice (p c : Nat) (s : Slice) (seat : a.spots p = .core c s)
      (at_ : (a.eng.cores c).busyUntil = t)
  | deadline (p c : Nat) (s : Slice) (seat : a.spots p = .core c s)
      (later : a.eng.now < (a.eng.cores c).deadline) (at_ : (a.eng.cores c).deadline = t)

theorem Sound.wake_first (valid : S.w.Valid) {a : S.Config}
    (sound : S.Sound PInv budget a) {p : Nat}
    (blocked : a.spots p = .blocked) :
    a.eng.blocked.isEmpty = false ∧ a.eng.wake (a.eng.blocked.items 0) ≤ a.eng.wake p := by
  have mem := (sound.blocked.mem_iff p).mpr blocked
  have nonempty : a.eng.blocked.isEmpty = false := by
    obtain ⟨i, hi, -⟩ := Heap.mem_toList.mp mem
    exact Heap.isEmpty_eq_false_iff.mpr (by omega)
  refine ⟨nonempty, ?_⟩
  by_cases root : p = a.eng.blocked.items 0
  · rw [root]
  · have first := Heap.root_least (blockedLess_total valid a.eng.wake) sound.blocked.ordered
      (fun q hq => sound.inside fun new => by
        cases ((sound.blocked.mem_iff q).mp hq).symm.trans new) p mem root
    simp only [blockedLess] at first
    split_ifs at first with heq
    · simp only [decide_eq_true_eq] at first
      omega
    · omega

/-- No event comes before `next_event`. -/
theorem Sound.nextEvent_le (valid : S.w.Valid) {a : S.Config} (sound : S.Sound PInv budget a)
    {t : Int} (event : EventAt a t) : S.nextEvent a.eng ≤ t := by
  obtain ⟨hle, hcores, -⟩ := foldl_coreEvent a.eng (List.range S.opt.cores) (waitEvent a.eng)
  rw [nextEvent_eq]
  generalize (List.range S.opt.cores).foldl (S.coreEvent a.eng) (waitEvent a.eng) = r at *
  have onCore : ∀ p c s, a.spots p = .core c s → c ∈ List.range S.opt.cores ∧
      (a.eng.cores c).proc ≠ none := by
    intro p c s seat
    obtain ⟨hc, _, ok⟩ := sound.cores.seat p c s seat
    exact ⟨List.mem_range.mpr hc, by simp [ok.proc_eq]⟩
  cases event with
  | arrival p inside new at_ =>
      obtain ⟨key, hkey, rfl⟩ := List.mem_map.mp ((sound.pending.mem_iff p).mpr ⟨inside, new⟩)
      rw [← (sound.pending.keys key hkey).1] at at_
      refine hle.trans ?_
      have sorted := sound.pending.sorted
      unfold waitEvent
      cases hpending : a.eng.pending with
      | nil => simp [hpending] at hkey
      | cons first rest =>
          rw [hpending] at hkey sorted
          have hfirst : first.arrival ≤ t := by
            rcases List.mem_cons.mp hkey with rfl | hkey
            · omega
            · have := (List.pairwise_cons.mp sorted).1 key hkey
              omega
          dsimp only
          split_ifs <;> omega
  | wake p blocked at_ =>
      obtain ⟨nonempty, hfirst⟩ := sound.wake_first valid blocked
      refine hle.trans ?_
      unfold waitEvent
      dsimp only
      rw [at_] at hfirst
      split_ifs with h
      · exact hfirst
      · by_contra hlt
        exact h ⟨nonempty, by omega⟩
  | slice p c s seat at_ =>
      obtain ⟨hc, busy⟩ := onCore p c s seat
      exact at_ ▸ (hcores c hc busy).1
  | deadline p c s seat later at_ =>
      obtain ⟨hc, busy⟩ := onCore p c s seat
      exact at_ ▸ (hcores c hc busy).2 later

/-- `next_event` is an event, or there is none. -/
theorem Sound.nextEvent_cases {a : S.Config} (sound : S.Sound PInv budget a) :
    EventAt a (S.nextEvent a.eng) ∨ S.nextEvent a.eng = int64Max := by
  obtain ⟨-, -, hhit⟩ := foldl_coreEvent a.eng (List.range S.opt.cores) (waitEvent a.eng)
  rw [nextEvent_eq]
  generalize (List.range S.opt.cores).foldl (S.coreEvent a.eng) (waitEvent a.eng) = r at *
  rcases hhit with rfl | ⟨c, hc, busy, hhit⟩
  · unfold waitEvent
    dsimp only
    split_ifs with hwake
    · left
      have mem : a.eng.blocked.items 0 ∈ a.eng.blocked.toList :=
        Heap.mem_toList.mpr ⟨0, Heap.isEmpty_eq_false_iff.mp hwake.1, rfl⟩
      exact .wake _ ((sound.blocked.mem_iff _).mp mem) rfl
    · cases hpending : a.eng.pending with
      | nil => exact .inr rfl
      | cons key rest =>
          left
          have hkey : key ∈ a.eng.pending := by simp [hpending]
          obtain ⟨inside, new⟩ := (sound.pending.mem_iff key.index).mp (List.mem_map_of_mem hkey)
          exact .arrival key.index inside new (sound.pending.keys key hkey).1.symm
  · left
    obtain ⟨p, hp⟩ := Option.ne_none_iff_exists'.mp busy
    obtain ⟨s, seat⟩ := sound.cores.owner c (List.mem_range.mp hc) p hp
    rcases hhit with h | ⟨later, h⟩
    · exact .slice p c s seat h.symm
    · exact .deadline p c s seat later h.symm

/-! ## Events of a settled state -/

/-- An event of a settled state lies ahead. -/
theorem Settled.event_gt {a : S.Config} (settled : Settled a) {t : Int} (event : EventAt a t) :
    a.eng.now < t := by
  cases event with
  | arrival p inside new at_ => exact at_ ▸ settled.arrivals p inside new
  | wake p blocked at_ => exact at_ ▸ settled.wakes p blocked
  | slice p c s seat at_ =>
      subst at_
      cases h : (a.eng.cores c).inCs with
      | true => exact settled.switches c p s seat h
      | false => exact settled.cuts c p s seat h
  | deadline p c s seat later at_ => exact at_ ▸ later

/-- Where a process is while it is unfinished and the policy has no say. -/
theorem Dispatched.unfinished {a : S.Config} (ok : OptionsOk S) (sound : S.Sound PInv budget a)
    (dispatched : Dispatched a) (running : a.eng.completed < S.w.len) :
    (∃ p < S.w.len, a.spots p = .new) ∨ (∃ p, a.spots p = .blocked) ∨
      ∃ p c s, a.spots p = .core c s := by
  obtain ⟨p, hp, unfinished⟩ : ∃ p < S.w.len, a.spots p ≠ .done := by
    by_contra hall
    push Not at hall
    have : doneSet S.w.len a.spots = Finset.range S.w.len :=
      Finset.filter_true_of_mem fun p hp => hall p (Finset.mem_range.mp hp)
    have := sound.completed_eq
    simp_all
  cases h : a.spots p with
  | new => exact .inl ⟨p, hp, h⟩
  | blocked => exact .inr (.inl ⟨p, h⟩)
  | core c s => exact .inr (.inr ⟨p, c, s, h⟩)
  | done => exact absurd h unfinished
  | held s => exact absurd h (dispatched.noneHeld p s)
  | ready =>
      -- then core 0 is not free, or a job is still to come
      by_cases free : (a.eng.cores 0).proc = none
      · rcases dispatched.offered ⟨0, ok.cores_pos, free⟩ with idle | ⟨-, q, hq, new⟩
        · exact absurd h (idle p)
        · exact .inl ⟨q, hq, new⟩
      · obtain ⟨q, hq⟩ := Option.ne_none_iff_exists'.mp free
        obtain ⟨s, seat⟩ := sound.cores.owner 0 ok.cores_pos q hq
        exact .inr (.inr ⟨q, 0, s, seat⟩)

theorem Sound.event_le (valid : S.w.Valid) {a : S.Config} (sound : S.Sound PInv budget a)
    {rounds : Nat} (bound : Bound rounds a) (hlimit : S.limit rounds ≤ int64Max) {t : Int}
    (event : EventAt a t) : t ≤ int64Max := by
  cases event with
  | arrival p inside new at_ =>
      have := valid.horizon_le
      rw [workloadHorizon_eq] at this
      have := Workload.arrival_le_maxArrival (Workload.proc_mem inside)
      have : 0 ≤ S.w.totalWork := by
        exact (sound.work_nonneg valid).trans bound.work_le
      omega
  | wake p blocked at_ =>
      have := sound.wake_lt valid blocked
      omega
  | slice p c s seat at_ =>
      have hp := sound.inside (p := p) (by simp [seat])
      have fits := sound.fits valid hp
      have tail := (valid.proc hp).tail_nonneg (a.eng.phase p)
      have ok := (sound.cores.seat p c s seat).2.2
      cases h : (a.eng.cores c).inCs with
      | true =>
          have := bound.switching c p s seat h
          have := sound.work_nonneg valid
          omega
      | false =>
          obtain ⟨_, _, _, _, _⟩ := ok.running h
          simp only [seat, spotWork, h, Bool.false_eq_true, if_false] at fits
          omega
  | deadline p c s seat later at_ =>
      have := (sound.cores.seat p c s seat).2.2.deadline_le
      omega

/-- An unfinished run has a next event, and it lies ahead. -/
theorem Dispatched.nextEvent_spec (valid : S.w.Valid) {a : S.Config} (ok : OptionsOk S)
    (sound : S.Sound PInv budget a) (dispatched : Dispatched a)
    (running : a.eng.completed < S.w.len) {rounds : Nat} (bound : Bound rounds a)
    (hlimit : S.limit rounds ≤ int64Max) :
    EventAt a (S.nextEvent a.eng) ∧ a.eng.now < S.nextEvent a.eng := by
  have event : EventAt a (S.nextEvent a.eng) := by
    rcases sound.nextEvent_cases with event | none
    · exact event
    · -- some event exists, and none is later than the last value of the clock
      obtain ⟨t, event⟩ : ∃ t, EventAt a t := by
        rcases dispatched.unfinished ok sound running
          with ⟨p, hp, new⟩ | ⟨p, blocked⟩ | ⟨p, c, s, seat⟩
        · exact ⟨_, .arrival p hp new rfl⟩
        · exact ⟨_, .wake p blocked rfl⟩
        · exact ⟨_, .slice p c s seat rfl⟩
      have h1 := sound.nextEvent_le valid event
      have h2 := sound.event_le valid bound hlimit event
      have : S.nextEvent a.eng = t := by omega
      exact this ▸ event
  exact ⟨event, dispatched.toSettled.event_gt event⟩

/-! ## Moving the clock -/

/-- The configuration with the clock moved to `t`. -/
def later (a : S.Config) (t : Int) : S.Config := ⟨{ a.eng with now := t }, a.spots⟩

/-- No work grows while the clock moves, and running and blocked processes make
progress. -/
theorem spotWork_later (e : S.Eng) {t : Int} (ht : e.now ≤ t) (p : Nat) (spot : Spot) :
    S.spotWork { e with now := t } p spot ≤ S.spotWork e p spot ∧
      ((spot = .blocked ∨ ∃ c s, spot = .core c s ∧ (e.cores c).inCs = false) →
        S.spotWork { e with now := t } p spot = S.spotWork e p spot - (t - e.now)) := by
  cases spot with
  | blocked =>
      simp only [spotWork]
      omega
  | core c s =>
      simp only [spotWork]
      split_ifs with h
      · simp [h]
      · simp only [Spot.core.injEq, false_or]
        omega
  | _ => simp [spotWork]

theorem work_later_le {a : S.Config} {t : Int} (ht : a.eng.now ≤ t) :
    S.work (later a t) ≤ S.work a :=
  Finset.sum_le_sum fun p _ => (spotWork_later a.eng ht p (a.spots p)).1

/-- If some process runs or does I/O, moving the clock uses up work. -/
theorem work_later_progress {a : S.Config} {t : Int} (ht : a.eng.now ≤ t) {p : Nat}
    (hp : p < S.w.len) (progress : a.spots p = .blocked ∨
      ∃ c s, a.spots p = .core c s ∧ (a.eng.cores c).inCs = false) :
    t + S.work (later a t) ≤ a.eng.now + S.work a := by
  have split : ∀ b : S.Config, S.work b = S.spotWork b.eng p (b.spots p) +
      ∑ q ∈ (Finset.range S.w.len).erase p, S.spotWork b.eng q (b.spots q) :=
    fun b => (Finset.add_sum_erase _ _ (Finset.mem_range.mpr hp)).symm
  have here := (spotWork_later a.eng ht p (a.spots p)).2 progress
  have rest : ∑ q ∈ (Finset.range S.w.len).erase p, S.spotWork (later a t).eng q
    ((later a t).spots q) ≤
      ∑ q ∈ (Finset.range S.w.len).erase p, S.spotWork a.eng q (a.spots q) :=
    Finset.sum_le_sum fun q _ => (spotWork_later a.eng ht q (a.spots q)).1
  rw [split (later a t), split a]
  simp only [later] at *
  omega

/-- Moving the clock to the next event keeps the invariant and the bound. -/
theorem Dispatched.advance (valid : S.w.Valid) (contract : Contract S.w S.policy PInv)
    {a : S.Config} (ok : OptionsOk S) (sound : S.Sound PInv budget a) (dispatched : Dispatched a)
    (running : a.eng.completed < S.w.len) {rounds : Nat} (bound : Bound rounds a)
    (hlimit : S.limit rounds ≤ int64Max) :
    ∃ budget', S.Sound PInv budget' (later a (S.nextEvent a.eng)) ∧
      Bound rounds (later a (S.nextEvent a.eng)) := by
  obtain ⟨-, gt⟩ := dispatched.nextEvent_spec valid ok sound running bound hlimit
  have le : ∀ {t}, EventAt a t → S.nextEvent a.eng ≤ t := sound.nextEvent_le valid
  generalize S.nextEvent a.eng = t at gt le ⊢
  have work_le : S.work (later a t) ≤ S.work a := work_later_le gt.le
  have clock : t + S.work (later a t) ≤ S.limit rounds := by
    by_cases arrives : ∃ p < S.w.len, a.spots p = .new
    · -- before the last arrival, the horizon alone is enough
      obtain ⟨p, hp, new⟩ := arrives
      have h1 := le (.arrival p hp new rfl)
      have h2 := Workload.arrival_le_maxArrival (Workload.proc_mem hp)
      have h3 := bound.work_le
      have h4 : (0 : Int) ≤ rounds * S.opt.csCost := mul_nonneg (by positivity) ok.cs_nonneg
      have h5 := workloadHorizon_eq S.w
      simp only [limit]
      omega
    · by_cases switches : ∃ p c s, a.spots p = .core c s ∧ (a.eng.cores c).inCs = true
      · obtain ⟨p, c, s, seat, switching⟩ := switches
        have h1 := le (.slice p c s seat rfl)
        have h2 := bound.switching c p s seat switching
        omega
      · -- otherwise some process runs or does I/O
        obtain ⟨p, hp, progress⟩ : ∃ p < S.w.len, a.spots p = .blocked ∨
            ∃ c s, a.spots p = .core c s ∧ (a.eng.cores c).inCs = false := by
          rcases dispatched.unfinished ok sound running with h | ⟨p, h⟩ | ⟨p, c, s, h⟩
          · exact absurd h arrives
          · exact ⟨p, sound.inside (by simp [h]), .inl h⟩
          · refine ⟨p, sound.inside (by simp [h]), .inr ⟨c, s, h, ?_⟩⟩
            by_contra hcs
            exact switches ⟨p, c, s, h, by simpa using hcs⟩
        exact (work_later_progress gt.le hp progress).trans bound.clock
  refine ⟨t + S.work (later a t), ⟨?_, sound.outside, ?_, ?_, ?_, sound.data, sound.completed_eq,
    sound.now_nonneg.trans gt.le, rfl, clock.trans hlimit, sound.no_overflow⟩, clock, ?_,
    work_le.trans bound.work_le, bound.rounds_le⟩
  · refine contract.view sound.policy (sound.viewOk rfl fun _ _ => rfl) ?_
      ⟨rfl, rfl, rfl, rfl, gt.le, Iff.rfl, fun _ _ => rfl, fun _ _ => rfl, fun _ _ => rfl⟩
    have viewOk := sound.viewOk (e := a.eng) rfl fun _ _ => rfl
    exact ⟨rfl, rfl, viewOk.now_nonneg.trans gt.le, viewOk.ready_pos, viewOk.outside⟩
  · refine ⟨sound.pending.sorted, sound.pending.keys, fun key hkey => ?_, sound.pending.nodup,
      sound.pending.mem_iff⟩
    obtain ⟨hp, new⟩ := (sound.pending.mem_iff key.index).mp (List.mem_map_of_mem hkey)
    exact le (.arrival key.index hp new (sound.pending.keys key hkey).1.symm)
  · exact ⟨sound.blocked.cap_eq, sound.blocked.nodup, sound.blocked.mem_iff, sound.blocked.ordered,
      fun p blocked => le (.wake p blocked rfl)⟩
  · refine ⟨fun p c s seat => ?_, sound.cores.owner, fun c hc hfree => ?_, fun p s h => ?_⟩
    · obtain ⟨hc, hs, seatOk⟩ := sound.cores.seat p c s seat
      have busy := le (.slice p c s seat rfl)
      refine ⟨hc, hs, seatOk.proc_eq, seatOk.context_eq, seatOk.length_eq, seatOk.length_pos,
        seatOk.deadline_le, seatOk.whole, fun _ => busy, fun runs => ?_⟩
      obtain ⟨h1, h2, h3, h4, h5⟩ := seatOk.running runs
      exact ⟨h1.trans gt.le, busy, h3, h4, h5⟩
    · obtain ⟨h1, h2⟩ := sound.cores.free c hc hfree
      exact ⟨h1, h2.trans gt.le⟩
    · exact absurd h (dispatched.noneHeld p s)
  · intro c p s seat switching
    have := bound.switching c p s seat switching
    simp only [later] at *
    omega

end Sim

end CpuSched
