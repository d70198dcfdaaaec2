import CpuSched.Engine.Advance
import CpuSched.Policies.ShortestJobContract
import Mathlib.Algebra.BigOperators.Fin

/-!
# The start of a run

`check_options` bounds the times, the arrival order is sorted without
repetition, and the engine before the first instant is sound: every process is
new and the unserved work is the work of the workload.
-/

namespace CpuSched

/-! ## The arrival order -/

theorem cmpArrivalKey_le_zero {a b : ArrivalKey} : cmpArrivalKey a b ≤ 0 ↔
    a.arrival < b.arrival ∨ (a.arrival = b.arrival ∧ a.pid ≤ b.pid) := by
  unfold cmpArrivalKey cmpInt
  split_ifs <;> omega

namespace Sim

variable {D : Type} (S : Sim D)

/-- The keys before they are sorted. -/
def arrivalKeys : List ArrivalKey :=
  (List.range S.w.len).map fun i =>
    { arrival := (S.w.proc i).arrival, pid := (S.w.proc i).pid, index := i }

theorem order_perm : S.order.Perm S.arrivalKeys := List.mergeSort_perm ..

theorem mem_order {key : ArrivalKey} : key ∈ S.order ↔ key.index < S.w.len ∧
    key.arrival = (S.w.proc key.index).arrival ∧ key.pid = (S.w.proc key.index).pid := by
  rw [S.order_perm.mem_iff, arrivalKeys, List.mem_map]
  constructor
  · rintro ⟨i, hi, rfl⟩
    exact ⟨List.mem_range.mp hi, rfl, rfl⟩
  · rintro ⟨hi, harrival, hpid⟩
    exact ⟨key.index, List.mem_range.mpr hi, by rw [← harrival, ← hpid]⟩

theorem order_indices : (S.order.map ArrivalKey.index).Perm (List.range S.w.len) := by
  refine (S.order_perm.map _).trans ?_
  rw [arrivalKeys, List.map_map]
  exact .of_eq (List.map_id _)

theorem order_nodup : (S.order.map ArrivalKey.index).Nodup :=
  S.order_indices.nodup_iff.mpr List.nodup_range

theorem order_sorted (valid : S.w.Valid) : S.order.Pairwise fun a b =>
    a.arrival < b.arrival ∨ (a.arrival = b.arrival ∧ a.pid < b.pid) := by
  have weak : S.order.Pairwise fun a b => decide (cmpArrivalKey a b ≤ 0) = true := by
    refine List.pairwise_mergeSort (fun a b c => ?_) (fun a b => ?_) _
    · simp only [decide_eq_true_eq, cmpArrivalKey_le_zero]
      omega
    · simp only [Bool.or_eq_true, decide_eq_true_eq, cmpArrivalKey_le_zero]
      omega
  have distinct : S.order.Pairwise fun a b => a.index ≠ b.index :=
    List.pairwise_map.mp S.order_nodup
  refine (weak.and distinct).imp_of_mem fun {a b} ha hb => ?_
  rintro ⟨le, ne⟩
  obtain ⟨hia, -, hpa⟩ := S.mem_order.mp ha
  obtain ⟨hib, -, hpb⟩ := S.mem_order.mp hb
  have pid_ne : a.pid ≠ b.pid := fun same =>
    ne (valid.pid_injective hia hib (by rw [← hpa, ← hpb, same]))
  have := cmpArrivalKey_le_zero.mp (of_decide_eq_true le)
  omega

theorem firstArrival_le (valid : S.w.Valid) {p : Nat} (hp : p < S.w.len) :
    S.firstArrival ≤ (S.w.proc p).arrival := by
  have mem : (⟨(S.w.proc p).arrival, (S.w.proc p).pid, p⟩ : ArrivalKey) ∈ S.order :=
    S.mem_order.mpr ⟨hp, rfl, rfl⟩
  have sorted := S.order_sorted valid
  unfold firstArrival
  cases order_eq : S.order with
  | nil => simp [order_eq] at mem
  | cons key rest =>
      rw [order_eq] at mem sorted
      rcases List.mem_cons.mp mem with heq | mem
      · simp [← heq]
      · have := (List.pairwise_cons.mp sorted).1 _ mem
        simp only at this ⊢
        omega

/-- The first arrival is the arrival of some process. -/
theorem exists_firstArrival (valid : S.w.Valid) :
    ∃ p < S.w.len, (S.w.proc p).arrival = S.firstArrival := by
  unfold firstArrival
  cases order_eq : S.order with
  | nil =>
      have length_eq := S.order_indices.length_eq
      have := valid.nonempty
      rw [order_eq, List.length_range] at length_eq
      simp only [List.map_nil, List.length_nil] at length_eq
      omega
  | cons key rest =>
      have mem : key ∈ S.order := by simp [order_eq]
      obtain ⟨hi, harrival, -⟩ := S.mem_order.mp mem
      exact ⟨key.index, hi, harrival.symm⟩

end Sim

/-! ## The unserved work at the start -/

theorem Workload.sum_range (w : Workload) (f : Process → Int) :
    ∑ p ∈ Finset.range w.len, f (w.proc p) = (w.items.map f).sum := by
  unfold Workload.len Workload.proc
  induction w.items with
  | nil => rfl
  | cons p rest ih =>
      rw [List.length_cons, Finset.sum_range_succ', List.map_cons, List.sum_cons, ← ih]
      simp only [List.getD_cons_succ, List.getD_cons_zero]
      exact add_comm _ _

theorem Process.Valid.phase_add_tail {p : Process} (valid : p.Valid) :
    p.phase 0 + p.tail 0 = p.burst + p.io := by
  have := valid.phaseCount_pos
  rw [valid.burst_eq, valid.io_eq, evenSum_add_oddSum]
  unfold Process.phase Process.tail
  cases phases : p.phases with
  | nil => simp [Process.phaseCount, phases] at this
  | cons x rest => simp

namespace Sim

variable {D : Type} {S : Sim D}
variable {PInv : SchedView D → S.policy.State → Places → Prop}

/-- The configuration before the first instant. -/
def initConfig (S : Sim D) [Double D] (state : S.policy.State) : S.Config :=
  ⟨S.initEngine state, fun _ => .new⟩

variable [Double D]

theorem work_initConfig (valid : S.w.Valid) (state : S.policy.State) :
    S.work (S.initConfig state) = S.w.totalWork := by
  unfold work Workload.totalWork
  rw [← Workload.sum_range]
  refine Finset.sum_congr rfl fun p hp => ?_
  exact (valid.proc (Finset.mem_range.mp hp)).phase_add_tail

omit [Double D] in
theorem firstArrival_le_maxArrival (valid : S.w.Valid) : S.firstArrival ≤ S.w.maxArrival := by
  have := S.firstArrival_le valid valid.nonempty
  have := Workload.arrival_le_maxArrival (Workload.proc_mem valid.nonempty)
  omega

theorem Sound.init (valid : S.w.Valid) {state : S.policy.State}
    (start : PInv S.initView state fun _ => .new) :
    S.Sound PInv (S.firstArrival + S.w.totalWork) (S.initConfig state) where
  policy := start
  outside _ _ := rfl
  pending := by
    refine ⟨S.order_sorted valid, fun key hkey => (S.mem_order.mp hkey).2, fun key hkey => ?_,
      S.order_nodup, fun p => ?_⟩
    · obtain ⟨hi, harrival, -⟩ := S.mem_order.mp hkey
      exact harrival ▸ S.firstArrival_le valid hi
    · rw [show (S.initConfig state).eng.pending = S.order from rfl, S.order_indices.mem_iff]
      simp [initConfig]
  blocked := by
    refine ⟨rfl, List.nodup_nil, fun p => ?_, ?_, fun p hp => by cases hp⟩
    · simp [initConfig, initEngine, heapInit, Heap.toList]
    · intro c _ clen
      simp [initConfig, initEngine, heapInit] at clen
  cores := by
    refine ⟨fun p c s h => (by cases h), fun c _ p h => (by simp [initConfig, initEngine] at h),
      fun c _ _ => ⟨rfl, le_rfl⟩, fun p s h => (by cases h)⟩
  data := by
    refine ⟨fun p hp _ => ?_, fun p hp _ => rfl⟩
    have valid := valid.proc hp
    exact ⟨rfl, valid.phaseCount_pos, rfl, valid.phase_pos valid.phaseCount_pos, le_rfl⟩
  completed_eq := by simp [initConfig, initEngine, doneSet]
  now_nonneg := by
    obtain ⟨p, hp, heq⟩ := S.exists_firstArrival valid
    have := (valid.proc hp).arrival_nonneg
    simp only [initConfig, initEngine]
    omega
  budget_eq := by
    rw [work_initConfig valid]
    rfl
  budget_le := by
    have := firstArrival_le_maxArrival valid
    have := valid.horizon_le
    rw [workloadHorizon_eq] at this
    omega
  no_overflow := by simp [initConfig, initEngine]

omit [Double D] in
theorem Paid.init (state : S.policy.State) : Paid (S.initEngine state) := by
  refine ⟨Nat.zero_le _, fun _ c h => absurd rfl h, fun _ c _ _ h => absurd rfl h,
    fun _ _ => .inl rfl⟩

theorem Bound.init (valid : S.w.Valid) (state : S.policy.State) :
    Bound 0 (S.initConfig state) := by
  refine ⟨?_, fun c p s h => (by cases h), (work_initConfig valid state).le, le_rfl⟩
  rw [work_initConfig valid]
  have := firstArrival_le_maxArrival valid
  have := workloadHorizon_eq S.w
  simp only [limit, initConfig, initEngine]
  push_cast
  omega

/-! ## The options -/

theorem checkOptions_ok (valid : S.w.Valid) (h : S.checkOptions = .ok ()) : OptionsOk S := by
  simp only [checkOptions] at h
  split_ifs at h with _ hcores hsegments _ hcs
  rw [not_or] at hcores hcs
  have horizon := valid.horizon_le
  have segments_pos : 0 < (S.opt.maxSegments : Int) := by omega
  refine ⟨by omega, by omega, by omega, ?_⟩
  by_cases hzero : S.opt.csCost = 0
  · rw [hzero]
    omega
  · have le : S.opt.csCost ≤ (int64Max - workloadHorizon S.w) / S.opt.maxSegments := by
      by_contra hlt
      exact hcs.2 ⟨by omega, by omega⟩
    have := Int.mul_le_of_le_ediv segments_pos le
    linarith

end Sim

end CpuSched
