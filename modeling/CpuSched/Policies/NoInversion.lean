import CpuSched.Engine.Redecide
import CpuSched.Policies.MlfqContract
import CpuSched.Policies.PriorityAging

/-!
# No inversion between running and ready processes

Under SRTF, MLFQ and preemptive priority scheduling a ready process is never better
than a running one that has executed a tick of its slice, or that was put to run at
this very instant.  For each policy a pick is ahead of all that stays in the ready set,
and stays ahead until the deadline of its slice as long as no process is handed over;
the engine sees to it that none is.
-/

namespace CpuSched

variable {D : Type} {w : Workload}

/-! ## SRTF -/

section Srtf

/-- No ready process has less left than the slice of `p`. -/
def SrtfAhead {σ : Type} (w : Workload) (v : SchedView D) (_ : Logged σ) (p : Nat) (slice : Slice)
    (q : Nat) : Prop :=
  ¬w.Before (Function.update v.remaining p slice.length) q p

/-- The invariant of SRTF under the oracle, with its log. -/
def SrtfInv [Double D] (w : Workload) (v : SchedView D) (s : Logged Heap) (pl : Places) : Prop :=
  LoggedInv (ShortestInv srtfLess w) v s pl ∧ v.predicted = none

variable [Double D]

theorem srtf_oracle (valid : w.Valid) :
    Contract (D := D) w policySrtf.logged (SrtfInv w) :=
  (srtf_contract valid).logged.oracle

/-- The slices of SRTF are whole bursts. -/
theorem srtf_whole {v : SchedView D} {s s' : Logged Heap} {slice : Slice}
    (run : (policySrtf : Policy D).logged.nextSlice v s = some (s', some slice)) :
    slice.length = v.remaining slice.proc := by
  obtain ⟨⟨state, r⟩, run, eq⟩ := Option.map_eq_some_iff.mp run
  have run : popWholeBurst (srtfLess v) v s.state = some (state, r) := run
  rw [popWholeBurst] at run
  split_ifs at run with empty
  · cases run
    cases eq
  · obtain ⟨popped, -, run⟩ := Option.map_eq_some_iff.mp run
    cases run
    cases eq
    rfl

theorem srtf_steady (valid : w.Valid) :
    Steady (D := D) w policySrtf (SrtfInv w) (SrtfAhead w) where
  view {v v' s pl p slice q} inv ok step out early ready ahead := by
    have ne : q ≠ p := by
      rintro rfl
      cases ready.symm.trans out
    unfold SrtfAhead Workload.Before at *
    simp only [Function.update_self, Function.update_of_ne ne, step.remaining_eq q ready] at *
    exact ahead
  self {v s s' pl slice q} inv ok early run ready ne := by
    obtain ⟨⟨inv, -⟩, oracle⟩ := inv
    have run : popWholeBurst (srtfLess v) v s.state = some (s', some slice) := run
    rcases inv.next (srtf_ranking valid) ok with ⟨stuck, -⟩ | ⟨p, s₁, popped, -, -, least⟩
    · cases run.symm.trans stuck
    · obtain ⟨rfl, ⟨⟩⟩ := Prod.mk.inj (Option.some.inj (run.symm.trans popped))
      have less := least oracle q ready ne
      rw [srtfLess_oracle oracle, lessByArrival_iff, ok.procs_eq] at less
      simp only [SrtfAhead, Function.update_eq_self]
      exact Workload.Before.asymm less
  pick _ _ _ _ _ _ _ _ ahead := ahead
  leave _ _ _ _ _ _ _ _ _ _ ahead := ahead

end Srtf

/-! ## MLFQ -/

section Mlfq

/-- The level of a job, with the boosts that `sync` has yet to apply to it. -/
def jobLevel (s : Mlfq) (p : Nat) : Nat := if s.seenEpoch p = s.epoch then s.level p else 0

/-- The two states agree on the boosts and on every job but `p`. -/
structure OthersKept (p : Nat) (s s' : Mlfq) : Prop where
  boost : s'.boost = s.boost
  epoch : s'.epoch = s.epoch
  level : ∀ q, q ≠ p → s'.level q = s.level q
  seen : ∀ q, q ≠ p → s'.seenEpoch q = s.seenEpoch q

namespace OthersKept

variable {p : Nat} {s s' s'' : Mlfq}

theorem trans (first : OthersKept p s s') (then_ : OthersKept p s' s'') : OthersKept p s s'' where
  boost := then_.boost.trans first.boost
  epoch := then_.epoch.trans first.epoch
  level q ne := (then_.level q ne).trans (first.level q ne)
  seen q ne := (then_.seen q ne).trans (first.seen q ne)

theorem jobLevel_eq (kept : OthersKept p s s') {q : Nat} (ne : q ≠ p) :
    jobLevel s' q = jobLevel s q := by
  simp only [jobLevel, kept.epoch, kept.level q ne, kept.seen q ne]

theorem setLeft (kept : OthersKept p s s') (left : Nat → Int) :
    OthersKept p s { s' with sliceLeft := left } :=
  ⟨kept.boost, kept.epoch, kept.level, kept.seen⟩

end OthersKept

theorem SameJobs.othersKept {s s' : Mlfq} (same : SameJobs s s') (p : Nat) : OthersKept p s s' :=
  ⟨same.boost, same.epoch, fun _ _ => by rw [same.level], fun _ _ => by rw [same.seenEpoch]⟩

theorem othersKept_sync (s : Mlfq) (p : Nat) : OthersKept p s (mlfqSync s p).1 := by
  unfold mlfqSync
  split_ifs with seen
  · exact (SameJobs.refl s).othersKept p
  · exact ⟨rfl, rfl, fun q ne => Function.update_of_ne ne .., fun q ne =>
      Function.update_of_ne ne ..⟩

theorem othersKept_charge (s : Mlfq) (p : Nat) (ran : Int) :
    OthersKept p s (mlfqCharge s p ran).1 := by
  unfold mlfqCharge
  dsimp only
  split_ifs with demoted
  · exact ⟨rfl, rfl, fun q ne => Function.update_of_ne ne .., fun _ _ => rfl⟩
  · exact ⟨rfl, rfl, fun _ _ => rfl, fun _ _ => rfl⟩

theorem othersKept_slice (s : Mlfq) (l p : Nat) : OthersKept p s (mlfqSlice s l p).1 := by
  have popped := (sameJobs_popFront s l p).othersKept p
  exact (popped.trans (othersKept_sync _ p)).setLeft _

/-- A block touches only the job itself when no boost is due. -/
theorem othersKept_block {v : SchedView D} {s s' : Mlfq} {p : Nat} {ran : Int}
    (idle : maybeBoost v s = s) (run : mlfqBlock v s p ran = some s') : OthersKept p s s' := by
  have synced := othersKept_sync s p
  simp only [mlfqBlock, idle, Option.some.injEq] at run
  subst run
  refine OthersKept.setLeft ?_ _
  split_ifs with boosted
  · exact synced
  · exact synced.trans (othersKept_charge _ p ran)

/-- So does a pick. -/
theorem othersKept_nextSlice {v : SchedView D} {s s' : Mlfq} {slice : Slice}
    (idle : maybeBoost v s = s) (run : mlfqNextSlice v s = some (s', some slice)) :
    OthersKept slice.proc s s' := by
  simp only [mlfqNextSlice, idle] at run
  cases first : (List.range s.levels).find? fun l => (s.head l).isSome with
  | none => simp [first] at run
  | some l =>
      cases head : s.head l with
      | none => simp [first, head] at run
      | some p =>
          simp only [first, head, Option.some.injEq, Prod.mk.injEq] at run
          obtain ⟨rfl, rfl⟩ := run
          exact othersKept_slice s l p

/-- No boost is due before the deadline. -/
def BoostsUntil (s : Mlfq) (now deadline : Int) : Prop :=
  ∀ t, now ≤ t → t < deadline → s.boost ≤ 0 ∨ t / s.boost = s.epoch

/-- Until the next boost no ready process gets to a level above that of `p`. -/
def MlfqAhead (v : SchedView D) (s : Logged Mlfq) (p : Nat) (slice : Slice) (q : Nat) : Prop :=
  BoostsUntil s.state v.now slice.deadline ∧ jobLevel s.state p ≤ jobLevel s.state q

theorem MlfqAhead.kept {v : SchedView D} {s s' : Logged Mlfq} {p q r : Nat} {slice : Slice}
    (ahead : MlfqAhead v s p slice q) (kept : OthersKept r s.state s'.state) (hp : p ≠ r)
      (hq : q ≠ r) :
    MlfqAhead v s' p slice q := by
  refine ⟨fun t le lt => ?_, ?_⟩
  · rw [kept.boost, kept.epoch]
    exact ahead.1 t le lt
  · rw [kept.jobLevel_eq hp, kept.jobLevel_eq hq]
    exact ahead.2

/-- The deadline of a slice is the next boost. -/
theorem boostDeadline_until {a : RefMlfq} {now : Int}
    (epoch_eq : 0 < a.boost → a.epoch = now / a.boost) {t : Int} (le : now ≤ t)
    (lt : t < boostDeadline a) : a.boost ≤ 0 ∨ t / a.boost = a.epoch := by
  rcases lt_or_ge 0 a.boost with pos | none
  · have below : a.epoch ≤ t / a.boost := by
      rw [epoch_eq pos]
      exact Int.ediv_le_ediv pos le
    have above : t / a.boost ≤ a.epoch := by
      unfold boostDeadline at lt
      split_ifs at lt with fits
      · exact Int.lt_add_one_iff.mp (Int.ediv_lt_of_lt_mul pos lt)
      · have : t / a.boost ≤ int64Max / a.boost := Int.ediv_le_ediv pos lt.le
        have : ¬a.epoch < int64Max / a.boost := fun h => fits ⟨pos, h⟩
        omega
    exact .inr (le_antisymm above below)
  · exact .inl none

/-- The reference picks from the first queue that is not empty. -/
theorem RefMlfq.pick_level {v : SchedView D} {a a' : RefMlfq} {pl : Places} {slice : Slice}
    (ok : RefMlfqOk (a.doBoost v) v.now pl) (run : a.pick v = some (a', some slice)) {q : Nat}
    (ready : pl q = .ready) : a'.epoch = (a.doBoost v).epoch ∧ a'.boost = (a.doBoost v).boost ∧
      a'.level slice.proc ≤ a'.level q := by
  unfold RefMlfq.pick at run
  generalize a.doBoost v = b at *
  cases first : (List.range b.levels).find? fun l => !(b.queues l).isEmpty with
  | none => simp [first] at run
  | some l =>
      cases queue : b.queues l with
      | nil => simp [first, queue] at run
      | cons p rest =>
          simp only [first, queue, Option.some.injEq, Prod.mk.injEq] at run
          obtain ⟨rfl, rfl⟩ := run
          refine ⟨rfl, rfl, ?_⟩
          obtain ⟨l', mem⟩ := (ok.mem_iff q).mpr ready
          have level_p : b.level p = l := ok.at_level (by rw [queue]; exact List.mem_cons_self)
          have level_q : b.level q = l' := ok.at_level mem
          simp only [RefMlfq.slice, level_p, level_q]
          by_contra! lt
          obtain ⟨-, -, none⟩ := List.find?_range_eq_some.mp first
          have empty := none l' lt
          simp only [Bool.not_not] at empty
          rw [List.isEmpty_iff.mp empty] at mem
          cases mem

theorem Rep.jobLevel_eq {s : Mlfq} {a : RefMlfq} {out : Nat → Prop} (rep : Rep s a out) (p : Nat) :
    jobLevel s p = a.level p := (rep.level_eq p).symm

theorem level_synced (s : Mlfq) (p : Nat) : (mlfqSync s p).1.level p = jobLevel s p := by
  unfold mlfqSync jobLevel
  split_ifs
  · rfl
  · exact Function.update_self ..

theorem mlfq_steady :
    Steady (D := D) w policyMlfq (LoggedInv MlfqInv) MlfqAhead where
  view _ _ step _ _ _ ahead := ⟨fun t le lt => ahead.1 t (step.now_le.trans le) lt, ahead.2⟩
  self {v s s' pl slice q} inv ok early run ready ne := by
    obtain ⟨⟨a, rep, inv⟩, -⟩ := inv
    have run : mlfqNextSlice v s.state = some (s', some slice) := run
    rcases mlfqNextSlice_spec rep inv early with ⟨-, -, refused⟩ |
      ⟨s₁, a', slice₁, picked, run', -, -, -, -, deadline, rep', -⟩
    · cases run.symm.trans refused
    · obtain ⟨rfl, ⟨⟩⟩ := Prod.mk.inj (Option.some.inj (run.symm.trans run'))
      obtain ⟨-, epoch_eq, boost_eq⟩ := inv.boost (v := v) rfl
      rw [← boost_eq] at epoch_eq
      obtain ⟨-, boosted⟩ := rep.boosted inv
      obtain ⟨epoch', boost', level⟩ := RefMlfq.pick_level boosted picked ready
      refine ⟨fun t le lt => ?_, ?_⟩
      · rw [deadline] at lt
        simp only [Logged.push]
        rw [rep'.boost_eq, rep'.epoch_eq, epoch', boost']
        exact boostDeadline_until epoch_eq le lt
      · change jobLevel s' slice.proc ≤ jobLevel s' q
        rw [rep'.jobLevel_eq, rep'.jobLevel_eq]
        exact level
  pick {v s s' pl slice p slice' q} _ _ run ne out early _ ne' ahead :=
    ahead.kept (othersKept_nextSlice (maybeBoost_idle (ahead.1 v.now le_rfl early)) run) ne ne'
  leave {v s s' log pl p slice ran p' slice' q} inv ok out left run ne out' early
    ready ne' ahead := by
    have idle := maybeBoost_idle (ahead.1 v.now le_rfl early)
    refine ahead.kept ?_ ne ne'
    rcases run with run | run
    · exact othersKept_block idle run
    · cases run
      exact (SameJobs.refl _).othersKept p

end Mlfq

/-! ## Preemptive priorities -/

section Priority

/-- Exact subtraction, in place of the one that saturates. -/
abbrev exactSub (a b : Int) : Int := a - b

/-- Until the deadline no ready process gets a better effective priority than `p`. -/
def PrioAhead {σ : Type} (w : Workload) (aging : Int) (v : SchedView D) (s : Logged σ) (p : Nat)
    (slice : Slice) (q : Nat) : Prop :=
  ∀ t, v.now ≤ t → t < slice.deadline → ¬w.Before (effectivePriority w aging s.log t) q p

/-- The invariant of `prio-p` with exact keys, with its log. -/
def PrioPInv (w : Workload) (aging : Int) (v : SchedView D) (s : Logged Prio)
    (pl : Places) : Prop :=
  LoggedInv (PrioInvBoth exactSub true w) v s pl ∧ WaitsOk aging v s pl

theorem effectivePriority_congr {aging t t' : Int} {log log' : List TimedCall} {p : Nat}
    (same : readyTime log t p = readyTime log' t' p) :
    effectivePriority w aging log t p = effectivePriority w aging log' t' p := by
  rw [effectivePriority, effectivePriority, same]

/-- The calls that are not about a process leave its stays. -/
theorem PrioAhead.congr {aging : Int} {v : SchedView D} {s s' : Logged Prio}
    {p q : Nat} {slice : Slice}
    (ahead : PrioAhead w aging v s p slice q) (same_p : staysOf p s'.log = staysOf p s.log)
    (same_q : staysOf q s'.log = staysOf q s.log) : PrioAhead w aging v s' p slice q := by
  intro t le lt before
  have here := ahead t le lt
  have key_p : effectivePriority w aging s'.log t p = effectivePriority w aging s.log t p :=
    effectivePriority_congr (by simp only [readyTime, same_p])
  have key_q : effectivePriority w aging s'.log t q = effectivePriority w aging s.log t q :=
    effectivePriority_congr (by simp only [readyTime, same_q])
  unfold Workload.Before at here before
  rw [key_p, key_q] at before
  exact here before

/-- Before a queued process gains its next level the quotient stays. -/
theorem ediv_before_level {c now t k step : Int} (hk : 0 < k) (le : now ≤ t)
    (step_le : step ≤ k - (c + now) % k) (lt : t < now + step) : (c + t) / k = (c + now) / k := by
  have whole := Int.mul_ediv_add_emod (c + now) k
  have := Int.emod_nonneg (c + now) hk.ne'
  refine ((Int.ediv_emod_unique hk).mpr
    ⟨?_, (by omega : 0 ≤ (c + now) % k + (t - now)), by omega⟩).1
  omega

/-- How long a queued process waits for its next level. -/
theorem nextLevel_eq {s : Prio} {now c : Int} {y : Nat} (aged : 0 < s.aging) (now_nonneg : 0 ≤ now)
    (r_eq : s.r y = c % s.aging) :
    nextLevel s (prioLimit s now) y = s.aging - (c + now) % s.aging := by
  have split := ediv_add_split c now aged
  have whole := Int.mul_ediv_add_emod (c + now) s.aging
  have whole_c := Int.mul_ediv_add_emod c s.aging
  have whole_now := Int.mul_ediv_add_emod now s.aging
  rw [nextLevel, prioLimit, if_pos aged, Int.tmod_eq_emod_of_nonneg now_nonneg, r_eq]
  split_ifs with low
  · rw [if_neg (not_le.mpr low)] at split
    rw [split, mul_add, mul_add, mul_zero] at whole
    omega
  · rw [if_pos (not_lt.mp low)] at split
    rw [split, mul_add, mul_add, mul_one] at whole
    omega

/-- A time before a checked sum is before the exact one. -/
theorem before_ckAddI64 {now step t : Int} (step_nonneg : 0 ≤ step)
    (lt : t < (ckAddI64 now step).getD schedNoDeadline) : t < now + step := by
  cases added : ckAddI64 now step with
  | none =>
      simp only [added, Option.getD_none, schedNoDeadline] at lt
      by_contra! past
      cases added.symm.trans (ckAddI64_of_le step_nonneg (past.trans lt.le))
  | some r =>
      simp only [added, Option.getD_some] at lt
      have := ckAddI64_eq_some added
      omega

theorem prioP_steady (valid : w.Valid) {aging : Int} :
    Steady (D := D) w (policyPrioPWith exactSub) (PrioPInv w aging) (PrioAhead w aging) where
  view _ _ step _ _ _ ahead t le lt := ahead t (step.now_le.trans le) lt
  self {v s s' pl slice q} inv ok early run ready ne := by
    obtain ⟨⟨both, -⟩, waits⟩ := inv
    obtain ⟨tree, links, tree', source, rfl, chosen, perm, -, due⟩ :=
      prioNextSlice_inv valid both.inv ok run
    have mem : ∀ y, pl y = .ready → y ∈ tree.nodes := fun y hy => (source.holds.mem_iff y).mpr hy
    have taken := (source.holds.mem_iff _).mp chosen.mem
    have least := chosen.least ok.procs_eq (scored_exact source ok waits) (fun x hx y hy =>
      valid.pid_injective (source.sorted.valid x hx) (source.sorted.valid y hy)) q (mem q ready) ne
    intro t le lt before
    -- the key of the pick is frozen, the key of `q` stays until its next level
    have frozen : effectivePriority w aging (s.push v (.slice slice)
        (prioTaken s.state v.now links tree'.root slice.proc)).log t slice.proc =
        effectivePriority w aging s.log v.now slice.proc := by
      apply effectivePriority_congr
      simp [readyTime, Logged.push, staysOf, Stays.upTo]
    have stays : effectivePriority w aging (s.push v (.slice slice)
        (prioTaken s.state v.now links tree'.root slice.proc)).log t q =
        effectivePriority w aging s.log v.now q := by
      have same : readyTime (s.push v (.slice slice)
          (prioTaken s.state v.now links tree'.root slice.proc)).log t q =
          s.state.waited q - s.state.readySince q + t := by
        simp only [readyTime, Logged.push]
        rw [staysOf_of_ne (.inr (.inr (.inr ⟨slice, rfl, rfl⟩))) ne, (waits.ready q ready).1]
        simp only [Stays.upTo]
        omega
      rw [effectivePriority, effectivePriority, same, waits.readyTime_eq ready]
      split_ifs with aged
      · have aging_eq := waits.aging_eq
        rw [← aging_eq] at aged
        have left : q ∈ tree'.nodes := by
          rcases List.mem_cons.mp (perm.mem_iff.mp (mem q ready)) with same | left
          · exact absurd same ne
          · exact left
        rcases due with ⟨-, empty | still | none⟩ | ⟨step, deadline, -, -,
          ⟨x, left', attained⟩, least⟩
        · simp [empty] at left
        · cases both.preemptive_eq.symm.trans still
        · exact absurd aged none
        · have level : ∀ y ∈ tree'.nodes, nextLevel s.state (prioLimit s.state v.now) y =
              s.state.aging - (s.state.waited y - s.state.readySince y + v.now) %
                s.state.aging := by
            intro y hy
            have ready := (source.holds.mem_iff y).mp (perm.mem_iff.mpr (List.mem_cons_of_mem _ hy))
            have r_eq := (source.keyed y ready).remainder
            rw [if_pos aged] at r_eq
            exact nextLevel_eq aged ok.now_nonneg r_eq
          have bound := least q left
          have attained := (level x left').symm.trans attained
          have := Int.emod_lt_of_pos (s.state.waited x - s.state.readySince x + v.now) aged
          rw [level q left] at bound
          rw [deadline] at lt
          rw [← aging_eq, ediv_before_level aged le bound (before_ckAddI64 (by omega) lt)]
      · rfl
    unfold Workload.Before at before least
    rw [frozen, stays] at before
    omega
  pick {v s s' pl slice p slice' q} inv ok run ne' out early ready ne ahead := by
    obtain ⟨⟨both, -⟩, -⟩ := inv
    obtain ⟨tree, links, tree', source, rfl, chosen, -⟩ := prioNextSlice_inv valid both.inv ok run
    have kind : HookCall.slice slice = .arrival slice.proc ∨
      HookCall.slice slice = .ready slice.proc ∨
        (∃ ran, HookCall.slice slice = .preempt slice.proc ran) ∨
        ∃ s, HookCall.slice slice = .slice s ∧ s.proc = slice.proc :=
      .inr (.inr (.inr ⟨slice, rfl, rfl⟩))
    exact ahead.congr (staysOf_of_ne kind ne') (staysOf_of_ne kind ne)
  leave _ _ _ left _ _ _ _ _ _ ahead := ahead.congr (staysOf_left left) (staysOf_left left)

end Priority

/-! ## The running processes of a run -/

namespace Sim

variable [Double D]

/-- Every run can be logged, and after every dispatch of it no ready process is better
than a running one. -/
def NoInversion (S : Sim D) (Better : S.logged.Eng → Nat → Nat → Nat → Prop) : Prop :=
  ∀ state, Started S state →
    (∀ e, Reached S state .dispatched e →
      ∃ e', Reached S.logged ⟨state, []⟩ .dispatched e' ∧ e'.map Logged.state = e) ∧
    ∀ e, Reached S.logged ⟨state, []⟩ .dispatched e →
      ∃ queue, queued e.state.log = some queue ∧
        ∀ c p q, RunsOn S e c p → q ∈ queue → ¬Better e c p q

/-- A steady policy that re-decides beats no running process. -/
theorem NoInversion.of_steady {S : Sim D}
    (Inv : SchedView D → Logged S.policy.State → Places → Prop)
    (Ahead : SchedView D → Logged S.policy.State → Nat → Slice → Nat → Prop)
    (I : S.logged.Config → Prop) {Better : S.logged.Eng → Nat → Nat → Nat → Prop}
    (online : S.policy.preemptOnReady = true) (conserving : S.policy.workConserving = true)
    (sources : S.w.Valid → 0 ≤ S.opt.csCost → Contract S.w S.policy.logged Inv ∧
      Steady S.w S.policy Inv Ahead ∧
      RunInv S.logged (fun v s pl => Inv v s pl ∧ Unbeaten Ahead v s pl) I)
    (log : ∀ {v s pl}, Inv v s pl → LogOk s.log pl)
    (start : ∀ state, S.policy.create S.initView S.params = .ok state →
      Inv S.initView ⟨state, []⟩ fun _ => .new)
    (better : ∀ {e : S.logged.Eng} {sp c p q s}, I ⟨e, sp⟩ → sp p = .core c s → sp q = .ready →
      (e.cores c).runStart ≤ e.now → e.now < s.deadline → Ahead (S.logged.view e) e.state p s q →
        ¬Better e c p q) :
    NoInversion S Better := by
  intro state started
  have valid := workloadValidate_ok started.validated
  have options := checkOptions_ok valid started.options
  obtain ⟨contract, steady, keeps⟩ := sources valid options.cs_nonneg
  have launched : Launched S.logged (fun v s pl => Inv v s pl ∧ Unbeaten Ahead v s pl)
    ⟨state, []⟩ :=
    ⟨valid, ⟨options.cores_pos, options.segments_pos, options.cs_nonneg, options.cs_le⟩,
      contract.and (steady.keptLog contract conserving).kept,
      start state started.created, fun p slice time out => by cases out⟩
  refine ⟨fun e reached => ?_, fun e reached => ?_⟩
  · obtain ⟨e', eq, reached'⟩ := Reached.lift S.policy.logged_projects
      (show Reached S (Logged.state (⟨state, []⟩ : Logged S.policy.State)) .dispatched e
        from reached)
    exact ⟨e', reached', eq⟩
  obtain ⟨sp, course, kept, alone⟩ := reached.alone launched online keeps
  obtain ⟨budget, sound⟩ := course.sound
  obtain ⟨inv, unbeaten⟩ := sound.policy
  obtain ⟨queue, replay, holds⟩ := log inv
  refine ⟨queue, replay, fun c p q runsOn mem => ?_⟩
  obtain ⟨s, time, seat, pick, early⟩ := alone c p runsOn
  have ready := (holds.mem_iff q).mp mem
  have started := ((sound.cores.seat p c s seat).2.2.running runsOn.runs).1
  exact better kept seat (places_eq_ready.mp ready) started early
    (unbeaten p s time (places_of_core seat) pick early q ready)

/-- The remaining times, that of `p` updated to now. -/
def remainingNow {S : Sim D} (e : S.Eng) (c p : Nat) : Nat → Int :=
  Function.update e.remaining p (e.remaining p - (e.now - (e.cores c).runStart))

/-- The level of a job after every boost due. -/
def levelNow {S : Sim D} (e : S.Eng) (s : Mlfq) (p : Nat) : Nat :=
  (mlfqSync (maybeBoost (S.view e) s) p).1.level p

/-- SRTF with exact bursts runs the processes with the least time left. -/
theorem srtf_noInversion (S : Sim D) (oracle : S.opt.predict = .oracle) :
    NoInversion (S.withPolicy policySrtf) fun e c p q => S.w.Before (remainingNow e c p) q p := by
  refine .of_steady (SrtfInv S.w) (SrtfAhead S.w) WholeSlices rfl rfl
    (fun valid cs_nonneg => ?_) (fun inv => inv.1.log) (fun state created => ?_)
    fun {e sp c p q s} whole seat ready started early ahead => ?_
  · exact ⟨srtf_oracle valid, srtf_steady valid,
      WholeSlices.runInv (S := (S.withPolicy policySrtf).logged) valid cs_nonneg srtf_whole⟩
  · cases created
    refine ⟨⟨HeapReady.init _ _ _, [], rfl, Holds.nil⟩, ?_⟩
    change S.initPredicted = none
    rw [initPredicted, oracle]
  · have ne : q ≠ p := by
      rintro rfl
      cases ready.symm.trans seat
    have whole := whole p s (.inr ⟨c, seat⟩)
    unfold SrtfAhead Workload.Before at ahead
    unfold Workload.Before remainingNow
    simp only [Function.update_self, Function.update_of_ne ne, whole, view] at ahead started ⊢
    omega

/-- MLFQ runs the processes of the top levels. -/
theorem mlfq_noInversion (S : Sim D) (admitted : S.params.Admitted) :
    NoInversion (S.withPolicy policyMlfq) fun e _ p q =>
      levelNow e e.state.state q < levelNow e e.state.state p := by
  refine .of_steady (LoggedInv MlfqInv) MlfqAhead (fun _ => True) rfl rfl
    (fun valid _ => ⟨(mlfq_contract S.w).logged, mlfq_steady, .true⟩) (fun inv => inv.log)
    (fun state created => ?_) fun _ _ _ _ early ahead => ?_
  · obtain ⟨s, a, run, -, rep, ok⟩ := mlfqCreate_spec (D := D)
      (S.withPolicy policyMlfq).initView admitted
    cases run.symm.trans created
    exact ⟨⟨a, rep, ok⟩, [], rfl, Holds.nil⟩
  · have idle := maybeBoost_idle (ahead.1 _ le_rfl early)
    unfold levelNow
    rw [idle, level_synced, level_synced, not_lt]
    exact ahead.2

/-- `prio-p` runs the processes with the best effective priorities. -/
theorem prioP_noInversion (S : Sim D) :
    NoInversion (S.withPolicy (policyPrioPWith exactSub)) fun e _ p q =>
      S.w.Before (effectivePriority S.w S.params.aging e.state.log e.now) q p := by
  refine .of_steady (PrioPInv S.w S.params.aging) (PrioAhead S.w S.params.aging)
    (fun _ => True) rfl rfl
    (fun valid _ => ⟨(prioP_contract valid).logged.and (prioP_waits valid).kept,
      prioP_steady valid, .true⟩)
    (fun inv => inv.1.log) (fun state created => ?_) fun _ _ _ _ early ahead => ?_
  · have start : PrioInvBoth exactSub true S.w S.initView state fun _ => .new :=
      prioCreate_inv created
    cases created
    exact ⟨⟨start, [], rfl, Holds.nil⟩, rfl, by simp, by simp⟩
  · exact ahead _ le_rfl early

/-- Under SRTF, MLFQ and `prio-p` no ready process is better than one that runs, however
many cores there are and whatever a switch costs: by remaining time, arrival and pid, by
level after every boost due, or by effective priority, arrival and pid. -/
theorem reached_noInversion (S : Sim D) :
    (S.opt.predict = .oracle → NoInversion (S.withPolicy policySrtf) fun e c p q =>
      S.w.Before (remainingNow e c p) q p) ∧
    (S.params.Admitted → NoInversion (S.withPolicy policyMlfq) fun e _ p q =>
      levelNow e e.state.state q < levelNow e e.state.state p) ∧
    NoInversion (S.withPolicy (policyPrioPWith exactSub)) fun e _ p q =>
      S.w.Before (effectivePriority S.w S.params.aging e.state.log e.now) q p :=
  ⟨srtf_noInversion S, mlfq_noInversion S, prioP_noInversion S⟩

/-! ## Two processes at once -/

/-- Two processes that arrive together, with two ticks and with one. -/
def twoThenOne : Workload := ⟨[processMake 1 0 2, processMake 2 0 1]⟩

/-- Their run under SRTF on one core. -/
def pairSim : Sim Float where
  build := .release
  w := twoThenOne
  policy := policySrtf
  params := {}
  opt := { cores := 1, csCost := 0, predict := .oracle, alpha := 0.5, tau0 := 1, maxSegments := 10 }

theorem pairSim_started : Started (pairSim.withPolicy policySrtf) (heapInit 2) where
  validated := by
    have sorted : (twoThenOne.items.map Process.pid).mergeSort (· ≤ ·) = [1, 2] :=
      List.mergeSort_of_pairwise (by decide)
    have items : validateItems twoThenOne.items 0 0 = .ok (0, 3) := rfl
    have sum : ckAddI64 0 3 = some 3 := rfl
    rw [show (pairSim.withPolicy policySrtf).w = twoThenOne from rfl, workloadValidate,
      if_neg (by decide), items]
    simp only [sum, sorted]
    rfl
  options := rfl
  created := rfl

theorem pairSim_order : pairSim.order = [⟨0, 1, 0⟩, ⟨0, 2, 1⟩] := by
  rw [order]
  exact List.mergeSort_of_pairwise (by decide)

/-- At the clock 0 the shorter one runs and the longer one is ready. -/
theorem pairSim_runs : ∃ e, Reached (pairSim.withPolicy policySrtf).logged
    ⟨heapInit 2, []⟩ .dispatched e ∧
    RunsOn (pairSim.withPolicy policySrtf) e 0 1 ∧ queued e.state.log = some [0] := by
  have init : (pairSim.withPolicy policySrtf).logged.initEngine ⟨heapInit 2, []⟩ =
      { (pairSim.withPolicy policySrtf).logged.initEngine ⟨heapInit 2, []⟩ with
        pending := [⟨0, 1, 0⟩, ⟨0, 2, 1⟩]
        now := 0
        cores := fun _ =>
          { proc := none, inCs := false, recheck := false, busyUntil := 0, runStart := 0,
            runEnd := 0, length := 0, deadline := 0, context := none, freeSince := 0 } } := by
    have sorted : (pairSim.withPolicy policySrtf).logged.order = [⟨0, 1, 0⟩, ⟨0, 2, 1⟩] :=
      pairSim_order
    simp only [initEngine, firstArrival, sorted]
  obtain ⟨e₀, first, running, e₁, dispatch, runsOn, ready⟩ : ∃ e₀,
      (pairSim.withPolicy policySrtf).logged.processInstant
        ((pairSim.withPolicy policySrtf).logged.initEngine ⟨heapInit 2, []⟩) = some e₀ ∧
      (pairSim.withPolicy policySrtf).logged.running e₀ = true ∧ ∃ e₁,
      (pairSim.withPolicy policySrtf).logged.dispatch e₀ = some e₁ ∧
      RunsOn (pairSim.withPolicy policySrtf) e₁ 0 1 ∧ queued e₁.state.log = some [0] := by
    rw [init]
    exact ⟨_, rfl, rfl, _, rfl, ⟨by decide, rfl, rfl, .inr ⟨_, rfl, rfl⟩⟩, rfl⟩
  exact ⟨e₁, .dispatch (.first first) running dispatch, runsOn, ready⟩

/-- The ready process is not better, and there is no inversion under the other policies. -/
theorem pairSim_noInversion :
    (∃ e queue, Reached (pairSim.withPolicy policySrtf).logged ⟨heapInit 2, []⟩ .dispatched e ∧
      RunsOn (pairSim.withPolicy policySrtf) e 0 1 ∧ queued e.state.log = some queue ∧ 0 ∈ queue ∧
      ¬twoThenOne.Before (remainingNow e 0 1) 0 1) ∧
    (NoInversion (pairSim.withPolicy policyMlfq) fun e _ p q =>
      levelNow e e.state.state q < levelNow e e.state.state p) ∧
    NoInversion (pairSim.withPolicy (policyPrioPWith exactSub)) fun e _ p q =>
      twoThenOne.Before (effectivePriority twoThenOne 0 e.state.log e.now) q p := by
  obtain ⟨srtf, mlfq, prioP⟩ := reached_noInversion pairSim
  refine ⟨?_, mlfq PolicyParams.admitted_default, prioP⟩
  obtain ⟨e, reached, runsOn, ready⟩ := pairSim_runs
  obtain ⟨queue, replay, free⟩ := (srtf rfl _ pairSim_started).2 e reached
  obtain rfl := Option.some.inj (ready.symm.trans replay)
  exact ⟨e, [0], reached, runsOn, ready, List.mem_singleton.mpr rfl,
    free 0 1 0 runsOn (List.mem_singleton.mpr rfl)⟩

end Sim

end CpuSched
