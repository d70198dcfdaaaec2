import CpuSched.Engine.OnePiece
import CpuSched.Policies.OneCpu
import CpuSched.Policies.OptNpOptimal

/-!
# Policies without preemption

The policies that the table calls non-preemptive are those without `on_preempt`, so each
of their bursts runs in one piece.  On one CPU their schedules are among those that
opt-np minimises over, and the schedule of opt-np is among those that SRTF does.
-/

namespace CpuSched

variable {D : Type} [Double D]

/-- The policies of the table that call themselves non-preemptive have no `on_preempt`. -/
theorem onPreempt_eq_none {realloc : Nat → Bool} {P : Policy D} (registered : P ∈ registry realloc)
    (nonPreemptive : P.preemptive = false) : P.onPreempt = none := by
  simp only [registry, List.mem_cons, List.not_mem_nil, or_false] at registered
  rcases registered with rfl | rfl | rfl | rfl | rfl | rfl | rfl | rfl | rfl | rfl | rfl | rfl
  · rfl
  · rfl
  · cases nonPreemptive
  · cases nonPreemptive
  · rfl
  · cases nonPreemptive
  · rfl
  · cases nonPreemptive
  · cases nonPreemptive
  · cases nonPreemptive
  · cases nonPreemptive
  · rfl

namespace Sim

variable {S : Sim D}

/-- In a successful run of a registered policy that is not preemptive every CPU burst runs
as one segment. -/
theorem simRun_inOnePiece (builtIn : BuiltIn S) (nonPreemptive : S.policy.preemptive = false)
    {r : SimResult} (success : S.simRun = .ok r) :
    ∀ p < S.w.len, ∃ pieces, InOnePiece (S.w.proc p) (r.outcomes p)
      (busyOf S.opt.cores r.timelines p) (runsOf S.opt.cores r.timelines p) pieces := by
  obtain ⟨state, started⟩ := started_of_ok success
  obtain ⟨PInv, launched⟩ := started.launched builtIn
  obtain ⟨realloc, registered⟩ := builtIn.registered
  exact (launched.inOnePiece started (onPreempt_eq_none registered nonPreemptive) success).2

/-- Two processes run in one piece each under FCFS. -/
theorem pairSim_inOnePiece : ∃ r, (pairSim.withPolicy policyFcfs).simRun = .ok r ∧
    ∃ pieces, InOnePiece (twoThenOne.proc 1) (r.outcomes 1) (busyOf 1 r.timelines 1)
      (runsOf 1 r.timelines 1) pieces := by
  have started : Started (pairSim.withPolicy policyFcfs) (queueInit 2) :=
    ⟨pairSim_started.validated, rfl, rfl⟩
  obtain ⟨r, success⟩ := pairSim_succeeds_of started (by decide +kernel)
  exact ⟨r, success, simRun_inOnePiece (S := pairSim.withPolicy policyFcfs)
    ⟨⟨fun _ => true, List.mem_cons_self⟩, PolicyParams.admitted_default⟩ rfl success 1 one_lt_two⟩

/-! ## One CPU -/

/-- What every successful run on one CPU is a schedule of. -/
theorem simRun_feasible (builtIn : BuiltIn S) (one : S.opt.cores = 1)
    (oneBurst : ∀ p < S.w.len, (S.w.proc p).phaseCount = 1) {r : SimResult}
    (success : S.simRun = .ok r) : Feasible S.w (runningAt (r.timelines 0)) ∧
      ∀ p < S.w.len, completionOf (runningAt (r.timelines 0)) p = (r.outcomes p).completion := by
  obtain ⟨e, sp, final⟩ := simRun_final builtIn success
  exact final.feasible one oneBurst

/-- A run without preemption on one CPU is a schedule of one machine without preemption. -/
theorem simRun_nonPreemptive (builtIn : BuiltIn S) (nonPreemptive : S.policy.preemptive = false)
    (one : S.opt.cores = 1) (oneBurst : ∀ p < S.w.len, (S.w.proc p).phaseCount = 1)
    {r : SimResult} (success : S.simRun = .ok r) :
    NonPreemptive (fun p => (S.w.proc p).arrival) (fun p => (S.w.proc p).burst)
      (Finset.range S.w.len) fun p => (r.outcomes p).completion := by
  obtain ⟨state, started⟩ := started_of_ok success
  obtain ⟨PInv, launched⟩ := started.launched builtIn
  obtain ⟨realloc, registered⟩ := builtIn.registered
  obtain ⟨⟨e, sp, final⟩, pieces⟩ :=
    launched.inOnePiece started (onPreempt_eq_none registered nonPreemptive) success
  -- the one run of a process
  have run : ∀ p < S.w.len, ∃ seg ∈ r.timelines 0, seg.proc = some p ∧
      (S.w.proc p).arrival ≤ seg.start ∧ seg.start = (r.outcomes p).completion -
        (S.w.proc p).burst ∧ seg.stop = (r.outcomes p).completion := by
    intro p hp
    obtain ⟨pieces, whole⟩ := pieces p hp
    have valid := final.valid.proc hp
    have burst : (S.w.proc p).phase 0 = (S.w.proc p).burst := by
      rw [valid.burst_eq]
      obtain ⟨x, phases⟩ := List.length_eq_one_iff.mp (oneBurst p hp)
      simp [Process.phase, phases]
    have lengths := whole.bursts
    rw [Process.cpuBursts, oneBurst p hp] at lengths
    obtain ⟨seg, rfl⟩ : ∃ seg, pieces = [seg] := by
      refine List.length_eq_one_iff.mp ?_
      simpa using congrArg List.length lengths
    have length : seg.stop - seg.start = (S.w.proc p).burst := by
      rw [← burst]
      simpa [Segment.length] using lengths
    obtain ⟨last, last_eq, stop_eq⟩ := whole.completion_eq
    obtain rfl : seg = last := by simpa using last_eq
    obtain ⟨⟨c, hc, mem, own⟩, -⟩ :=
      mem_runsOf.mp (whole.split.mem_iff.mp (List.mem_singleton_self seg))
    obtain rfl : c = 0 := by omega
    exact ⟨seg, mem, own, whole.arrived seg (List.mem_singleton_self seg), by omega, stop_eq⟩
  constructor
  · intro p hp
    obtain ⟨seg, -, -, arrived, start_eq, -⟩ := run p (Finset.mem_range.mp hp)
    exact start_eq ▸ arrived
  · intro p hp q hq ne
    obtain ⟨a, mem, own, -, start_eq, stop_eq⟩ := run p (Finset.mem_range.mp hp)
    obtain ⟨b, mem', own', -, start_eq', stop_eq'⟩ := run q (Finset.mem_range.mp hq)
    have distinct : a ≠ b := by
      rintro rfl
      exact ne (Option.some.inj (own.symm.trans own'))
    have ordered := final.ordered (c := 0) (by omega)
    have apart : (r.timelines 0).Pairwise (Apart Segment.start Segment.stop) :=
      ordered.imp .inl
    have apart := apart.forall mem mem' distinct
    unfold Apart at apart
    omega

/-- What opt-np accepts. -/
theorem optNp_accepts {realloc : Nat → Bool} {state : OptNp}
    (started : Started (S.optNp realloc) state) : S.opt.cores = 1 ∧ S.opt.csCost = 0 ∧
      ∀ p < S.w.len, (S.w.proc p).phaseCount = 1 := by
  have created : optNpCreate realloc (S.optNp realloc).initView S.params = .ok state :=
    started.created
  obtain ⟨-, one, gratis, single, -⟩ := optNpCreate_ok created
  exact ⟨one, gratis, single⟩

/-- The schedule of opt-np costs no more than any schedule without preemption. -/
theorem optNp_le_schedule (realloc : Nat → Bool) {o : SimResult}
    (success : (S.optNp realloc).simRun = .ok o) {C : Nat → Int}
    (schedule : NonPreemptive (fun p => (S.w.proc p).arrival) (fun p => (S.w.proc p).burst)
      (Finset.range S.w.len) C) :
    ∑ p ∈ Finset.range S.w.len, ((o.outcomes p).completion - (S.w.proc p).arrival) ≤
      ∑ p ∈ Finset.range S.w.len, (C p - (S.w.proc p).arrival) := by
  obtain ⟨state, started⟩ := started_of_ok success
  have valid : S.w.Valid := workloadValidate_ok started.validated
  have created : optNpCreate realloc (S.optNp realloc).initView S.params = .ok state :=
    started.created
  obtain ⟨-, one, gratis, -, state_eq⟩ := optNpCreate_ok created
  have start : OptNpInv S.w (S.optNp realloc).initView state fun _ => .new :=
    .init valid rfl rfl created
  have launched : Launched (S.optNp realloc) (OptNpInv S.w) state :=
    ⟨valid, checkOptions_ok (S := S.optNp realloc) valid started.options,
      optNp_contract realloc, start⟩
  have completions := simRun_overAt launched started one gratis (by rw [state_eq]) success
  have isOrder : IsOrder S.w.len state.order := start.isOrder
  -- the search found no order that costs less
  obtain ⟨js, perm, cost⟩ := schedule.exists_order (t := 0)
    (fun p hp => (valid.proc (Finset.mem_range.mp hp)).burst_pos)
    (fun p hp => (valid.proc (Finset.mem_range.mp hp)).arrival_nonneg)
  have all : (Finset.range S.w.len).toList.Perm (List.range S.w.len) :=
    (List.perm_ext_iff_of_nodup (Finset.nodup_toList _) List.nodup_range).mpr fun p => by simp
  obtain ⟨n_eq, r_eq, p_eq, heads, pool⟩ :=
    startSearch_fields (initSearch (S.optNp realloc).initView)
  have searched := search_least realloc (startSearch_jobs valid rfl rfl)
    (startSearch_attained _) heads pool
    (show js.Perm (List.range (startSearch (initSearch (S.optNp realloc).initView)).n) by
      rw [n_eq]
      exact perm.trans all)
  rw [r_eq, p_eq, n_eq] at searched
  calc ∑ p ∈ Finset.range S.w.len, ((o.outcomes p).completion - (S.w.proc p).arrival)
      = orderCost (fun p => (S.w.proc p).arrival) (fun p => (S.w.proc p).burst) 0
          ((List.range S.w.len).map state.order) := by
        rw [orderCost_range]
        refine (Finset.sum_nbij state.order (fun i hi => ?_) (fun i hi k hk same => ?_)
          (fun p hp => ?_) fun i hi => ?_).symm
        · exact Finset.mem_range.mpr (isOrder.lt i (Finset.mem_range.mp hi))
        · exact isOrder.inj i (by simpa using hi) k (by simpa using hk) same
        · obtain ⟨i, hi, rfl⟩ := isOrder.surj (by simpa using hp)
          exact ⟨i, by simpa using hi, rfl⟩
        · rw [completions i (Finset.mem_range.mp hi)]
    _ ≤ orderCost (fun p => (S.w.proc p).arrival) (fun p => (S.w.proc p).burst) 0 js := by
        rw [state_eq]
        exact searched
    _ ≤ ∑ p ∈ Finset.range S.w.len, (C p - (S.w.proc p).arrival) := cost

/-- The schedule of opt-np lies between that of SRTF and those of the policies without
preemption. -/
theorem optNp_between {realloc : Nat → Bool} (admitted : S.params.Admitted) {o : SimResult}
    (optimum : (S.optNp realloc).simRun = .ok o) :
    (∀ s, S.opt.predict = .oracle → (S.withPolicy policySrtf).simRun = .ok s →
      ∑ p ∈ Finset.range S.w.len, ((s.outcomes p).completion - (S.w.proc p).arrival) ≤
        ∑ p ∈ Finset.range S.w.len, ((o.outcomes p).completion - (S.w.proc p).arrival)) ∧
    ∀ r, BuiltIn S → S.policy.preemptive = false → S.simRun = .ok r →
      ∑ p ∈ Finset.range S.w.len, ((o.outcomes p).completion - (S.w.proc p).arrival) ≤
        ∑ p ∈ Finset.range S.w.len, ((r.outcomes p).completion - (S.w.proc p).arrival) := by
  obtain ⟨state, started⟩ := started_of_ok optimum
  obtain ⟨one, gratis, single⟩ := optNp_accepts started
  constructor
  · intro s oracle success
    have registered : policyOptNp (D := D) realloc ∈ registry realloc := by simp [registry]
    obtain ⟨feasible, completions⟩ := simRun_feasible (S := S.optNp realloc)
      ⟨⟨realloc, registered⟩, admitted⟩ one single optimum
    rw [Finset.sum_sub_distrib, Finset.sum_sub_distrib]
    refine sub_le_sub_right ?_ _
    exact (srtf_completions_le single one gratis oracle success feasible).trans_eq
      (Finset.sum_congr rfl fun p hp => completions p (Finset.mem_range.mp hp))
  · intro r builtIn nonPreemptive success
    exact optNp_le_schedule realloc optimum
      (simRun_nonPreemptive builtIn nonPreemptive one single success)

end Sim

end CpuSched
