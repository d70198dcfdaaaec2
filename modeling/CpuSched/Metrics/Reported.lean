import CpuSched.Metrics.Summary

/-!
# What the summary of a run reports

The distributions of response, waiting and turnaround time are ordered as the times of each
process are, no slowdown is below 1, and the cores are busy for at most their capacity.
Sums of times are exact while they stay within the integers that the arithmetic keeps.
-/

namespace CpuSched

section Arithmetic

variable {limit : Int} {R : Rounding limit} [NumberBits]

/-! ## Order of distributions -/

/-- Every figure of one distribution is at most that of the other. -/
structure DistributionLe (a b : Distribution (Rounded R)) : Prop where
  mean : a.mean.val ≤ b.mean.val
  median : a.median.val ≤ b.median.val
  p95 : a.p95 ≤ b.p95
  p99 : a.p99 ≤ b.p99
  max : a.max ≤ b.max

theorem distribution_le {xs ys : List Int} (ne : ys ≠ []) (nonneg : ∀ x ∈ xs, 0 ≤ x)
    (le : List.Forall₂ (· ≤ ·) xs ys) (fits : ys.sum ≤ limit) (count : ys.length ≤ limit) :
    DistributionLe (distribution (D := Rounded R) xs) (distribution (D := Rounded R) ys) := by
  have pos := List.length_pos_iff.mpr ne
  have length := le.length_eq
  have ne' : xs ≠ [] := List.length_pos_iff.mp (length ▸ pos)
  have nonneg' : ∀ y ∈ ys, 0 ≤ y := by
    intro y mem
    obtain ⟨i, lt, rfl⟩ := List.getElem_of_mem mem
    exact (nonneg _ (List.getElem_mem (length ▸ lt))).trans (le.get (length ▸ lt) lt)
  have sums : xs.sum ≤ ys.sum := le.sum_le_sum
  have entries {k : Nat} (lt : k < ys.length) : kth 0 xs k ≤ kth 0 ys k := kth_le_kth le lt
  have ok := distribution_ok (R := R) ne nonneg' fits count
  have ok' := distribution_ok (R := R) ne' nonneg (sums.trans fits) (length ▸ count)
  have ranks {pct : Nat} (pos : 0 < pct) (most : pct ≤ 100) :
      percentile (ascending xs) xs.length pct ≤ percentile (ascending ys) ys.length pct := by
    have few : pct * ys.length ≤ 100 * ys.length := Nat.mul_le_mul_right _ most
    rw [percentile_eq ne pos, percentile_eq ne' pos, length]
    exact entries (by omega)
  constructor
  case mean =>
    rw [ok.mean_eq, ok'.mean_eq, length]
    exact R.mono (div_le_div_of_nonneg_right (by exact_mod_cast sums) (by positivity))
  case median =>
    have middle {k : Nat} (lt : k < ys.length) :
        R.round ((kth 0 xs k : Int) : ℚ) ≤ R.round ((kth 0 ys k : Int) : ℚ) :=
      R.mono (Int.cast_le.mpr (entries lt))
    simp only [distribution, length]
    by_cases odd : ys.length % 2 ≠ 0
    · rw [if_pos odd, if_pos odd]
      exact middle (k := ys.length / 2) (by omega)
    · rw [if_neg odd, if_neg odd]
      refine R.mono (div_le_div_of_nonneg_right (R.mono (add_le_add ?_ ?_)) ?_)
      · exact middle (k := ys.length / 2 - 1) (by omega)
      · exact middle (k := ys.length / 2) (by omega)
      · exact R.round_nonneg (by omega) (by norm_num)
  case p95 => exact ranks (by decide) (by decide)
  case p99 => exact ranks (by decide) (by decide)
  case max =>
    have top := entries (show ys.length - 1 < ys.length by omega)
    simp only [distribution, length]
    exact top

/-! ## The averages -/

omit [NumberBits] in
/-- The averages are the means of the distributions, in every arithmetic. -/
theorem metricsAverages_eq {D : Type} [Double D] (w : Workload) (r : SimResult) :
    metricsAverages (D := D) w r =
      { response := (metricsSummary w r).response.mean
        waiting := (metricsSummary w r).waiting.mean
        turnaround := (metricsSummary w r).turnaround.mean } := by
  have sums : ∀ (ps : List Nat) (s : AvgMetrics D),
      ps.foldl (fun s i =>
        let m := metricsFor (D := D) w r i
        { response := Double.add s.response (Double.ofInt m.response)
          waiting := Double.add s.waiting (Double.ofInt m.waiting)
          turnaround := Double.add s.turnaround (Double.ofInt m.turnaround) }) s =
      let total (f : ProcMetrics D → Int) (x : D) :=
        (ps.map fun i => f (metricsFor w r i)).foldl
          (fun sum v => Double.add sum (Double.ofInt v)) x
      { response := total ProcMetrics.response s.response
        waiting := total ProcMetrics.waiting s.waiting
        turnaround := total ProcMetrics.turnaround s.turnaround } := by
    intro ps
    induction ps with
    | nil => exact fun _ => rfl
    | cons p ps ih => exact fun s => ih _
  simp only [metricsAverages, averageSums, sums, metricsSummary, distribution, metricValues,
    List.length_map, List.length_range]

namespace Sim

variable {D : Type} [Double D] {S : Sim D} {r : SimResult}

/-! ## The times of the processes -/

section Final

variable {e : S.Eng} {sp : Nat → Spot} (final : Final S e sp r)
include final

omit [Double D] [NumberBits] in
/-- After its first run a process still has its bursts and its I/O to do. -/
theorem Final.times_le {p : Nat} (hp : p < S.w.len) :
    (S.w.proc p).arrival ≤ (r.outcomes p).start ∧ (r.outcomes p).start ≤
      (r.outcomes p).completion - (S.w.proc p).burst - (S.w.proc p).io := by
  obtain ⟨ends, m, life, all, start, completion, bound⟩ := final.life hp
  have count := life.ncard_waitingTicks (final.valid.proc hp) all completion bound
    fun c hc => final.ordered hc
  have ran : 0 ≤ (r.outcomes p).start := by
    by_contra first
    obtain ⟨c, seg, here, run, -⟩ := life.closed (Nat.succ_pos m)
    exact (start.unstarted (not_le.mp first)).1 here run
  obtain ⟨arrived, -, earliest, -⟩ := start.started ran
  -- the ticks before the first run are among those it waits
  have finite : (waitingTicks (S.w.proc p) (r.outcomes p) S.opt.cores r.timelines p).Finite :=
    (Set.finite_Ico (S.w.proc p).arrival (r.outcomes p).completion).subset
      fun t ht => ⟨ht.1, ht.2.1⟩
  have sub := Set.ncard_le_ncard (life.wait_first all completion bound earliest) finite
  rw [← Finset.coe_Ico, Set.ncard_coe_finset, Int.card_Ico] at sub
  exact ⟨arrived, by omega⟩

omit [Double D] [NumberBits] in
/-- What its start and its completion leave of the times of a process. -/
theorem Final.times {p : Nat} (hp : p < S.w.len) :
    0 ≤ (r.outcomes p).start - (S.w.proc p).arrival ∧
      (r.outcomes p).start - (S.w.proc p).arrival ≤
        (r.outcomes p).completion - (S.w.proc p).arrival - (S.w.proc p).burst - (S.w.proc p).io ∧
      0 < (S.w.proc p).burst ∧ 0 ≤ (S.w.proc p).io ∧ (S.w.proc p).burst + (S.w.proc p).io ≤
        (r.outcomes p).completion - (S.w.proc p).arrival := by
  have := final.times_le hp
  have proc := final.valid.proc hp
  have := proc.burst_pos
  have := proc.io_eq ▸ oddSum_nonneg proc.phases_pos
  omega

omit [Double D] [NumberBits] in
/-- Every process adds at least one tick to the sum of the turnaround times. -/
theorem Final.turnaround_le {p : Nat} (hp : p < S.w.len) :
    (r.outcomes p).completion - (S.w.proc p).arrival ≤
      ∑ p ∈ Finset.range S.w.len, ((r.outcomes p).completion - (S.w.proc p).arrival) :=
  Finset.single_le_sum (f := fun p => (r.outcomes p).completion - (S.w.proc p).arrival)
    (fun q hq => by have := final.times (Finset.mem_range.mp hq); omega) (Finset.mem_range.mpr hp)

omit [Double D] [NumberBits] in
theorem Final.len_le : (S.w.len : Int) ≤
    ∑ p ∈ Finset.range S.w.len, ((r.outcomes p).completion - (S.w.proc p).arrival) := by
  have ones := Finset.card_nsmul_le_sum (Finset.range S.w.len)
    (fun p => (r.outcomes p).completion - (S.w.proc p).arrival) 1 fun p hp => by
      have := final.times (Finset.mem_range.mp hp)
      omega
  simpa using ones

omit [Double D] in
/-- A slowdown is the rounded quotient, and at least 1. -/
theorem Final.slowdown_ge
    (fits : ∑ p ∈ Finset.range S.w.len, ((r.outcomes p).completion - (S.w.proc p).arrival) ≤ limit)
    {p : Nat} (hp : p < S.w.len) :
    1 ≤ (metricsFor (D := Rounded R) S.w r p).slowdown.val := by
  have here := final.times hp
  have single := (final.turnaround_le hp).trans fits
  have slow : (metricsFor (D := Rounded R) S.w r p).slowdown.val =
      R.round (((r.outcomes p).completion - (S.w.proc p).arrival : Int) /
        ((S.w.proc p).burst : Int)) := by
    simp only [metricsFor, Rounded.div_val, Rounded.ofInt_val]
    rw [R.int _ (by omega) single, R.int (S.w.proc p).burst (by omega) (by omega)]
  rw [slow]
  have burst : (0 : ℚ) < (S.w.proc p).burst := by exact_mod_cast here.2.2.1
  have le : ((1 : Int) : ℚ) ≤ ((r.outcomes p).completion - (S.w.proc p).arrival : Int) /
      ((S.w.proc p).burst : Int) := by
    rw [le_div_iff₀ burst]
    exact_mod_cast (by omega)
  exact_mod_cast R.int_le_round (by omega) (by omega) le

omit [Double D] [NumberBits] in
/-- The cores run the bursts and switch within their capacity. -/
theorem Final.capacity : ∑ p ∈ Finset.range S.w.len, (S.w.proc p).burst + r.csTime ≤
    S.opt.cores * (metricsMakespan S.w r - r.firstArrival) ∧ 0 ≤ r.csTime := by
  obtain ⟨ledger, -⟩ := final.lives
  have kept : ∀ {k : SegmentKind}, k ≠ .idle → ∀ c ∈ Finset.range S.opt.cores,
      kindTime k (r.timelines c).reverse = kindTime k (e.timelines c) := by
    intro k notIdle c hc
    rw [final.timelines c (Finset.mem_range.mp hc), List.reverse_reverse,
      kindTime_idleRecord notIdle (final.since c (Finset.mem_range.mp hc))]
  have runs := ledger.allRuns.trans (Finset.sum_congr rfl fun p hp =>
    (final.spent p (Finset.mem_range.mp hp)).2)
  have switching := ledger.csShown
  rw [← final.csTime, ← Finset.sum_congr rfl (kept (by simp))] at switching
  rw [← Finset.sum_congr rfl (kept (by simp))] at runs
  have nonneg (k : SegmentKind) {c : Nat} (hc : c ∈ Finset.range S.opt.cores) :
      0 ≤ kindTime k (r.timelines c).reverse :=
    segTime_nonneg _ (final.tiled (Finset.mem_range.mp hc)).lt
  have total : ∑ c ∈ Finset.range S.opt.cores, (kindTime .run (r.timelines c).reverse +
      kindTime .cs (r.timelines c).reverse) ≤
        ∑ _c ∈ Finset.range S.opt.cores, (e.now - S.firstArrival) := by
    refine Finset.sum_le_sum fun c hc => ?_
    have := (final.tiled (Finset.mem_range.mp hc)).total
    have := nonneg .idle hc
    omega
  rw [Finset.sum_add_distrib, runs, switching, Finset.sum_const, Finset.card_range,
    nsmul_eq_mul] at total
  refine ⟨?_, switching ▸ Finset.sum_nonneg fun c hc => nonneg .cs hc⟩
  rw [final.firstArrival, final.makespan_eq]
  exact total

omit [Double D] [NumberBits] in
theorem Final.span_pos : 0 < metricsMakespan S.w r - r.firstArrival := by
  have := final.firstArrival_lt
  rw [final.makespan_eq, final.firstArrival]
  omega

omit [Double D] [NumberBits] in
/-- The bursts of the first processes add up to less than the whole. -/
theorem Final.bursts_le {k : Nat} (le : k ≤ S.w.len) :
    0 ≤ ∑ p ∈ Finset.range k, (S.w.proc p).burst ∧
      ∑ p ∈ Finset.range k, (S.w.proc p).burst ≤ int64Max := by
  have valid := final.valid
  have nonneg : ∀ p ∈ Finset.range S.w.len, 0 ≤ (S.w.proc p).burst := fun p hp =>
    (valid.proc (Finset.mem_range.mp hp)).burst_pos.le
  have sub : Finset.range k ⊆ Finset.range S.w.len := Finset.range_subset_range.mpr le
  refine ⟨Finset.sum_nonneg fun p hp => nonneg p (sub hp), ?_⟩
  calc ∑ p ∈ Finset.range k, (S.w.proc p).burst
      ≤ ∑ p ∈ Finset.range S.w.len, (S.w.proc p).burst :=
        Finset.sum_le_sum_of_subset_of_nonneg sub fun p hp _ => nonneg p hp
    _ ≤ ∑ p ∈ Finset.range S.w.len, ((S.w.proc p).burst + (S.w.proc p).io) := by
        refine Finset.sum_le_sum fun p hp => ?_
        have valid := valid.proc (Finset.mem_range.mp hp)
        have := valid.io_eq ▸ oddSum_nonneg valid.phases_pos
        omega
    _ ≤ int64Max := by
        have total := Workload.sum_range S.w fun p => p.burst + p.io
        have horizon := valid.horizon_le
        have := S.w.maxArrival_nonneg
        rw [workloadHorizon_eq, Workload.totalWork] at horizon
        omega

end Final

/-! ## The sums over all processes -/

/-- The loop of the summary keeps the sums and the maximum of what it has seen. -/
theorem summarySums_eq (w : Workload) (r : SimResult) (ps : List Nat)
    (s : SummarySums (Rounded R)) :
    let slowdown (p : Nat) : Rounded R := (metricsFor w r p).slowdown
    let t := ps.foldl (fun sums i => sums.join (metricsFor w r i)) s
    t.sdSum.val = R.sum (ps.map fun p => (slowdown p).val) s.sdSum.val ∧
      t.cpu = s.cpu + (ps.map fun p => (w.proc p).burst).sum ∧
      s.sdMax.val ≤ t.sdMax.val ∧ (∀ p ∈ ps, (slowdown p).val ≤ t.sdMax.val) ∧
      (t.sdMax = s.sdMax ∨ ∃ p ∈ ps, t.sdMax = slowdown p) := by
  induction ps generalizing s with
  | nil => simp [Rounding.sum]
  | cons p ps ih =>
      dsimp only at ih ⊢
      obtain ⟨sum, cpu, grows, bound, attained⟩ := ih (s.join (metricsFor w r p))
      have larger : s.sdMax.val ≤ (s.join (metricsFor w r p)).sdMax.val ∧
          (metricsFor (D := Rounded R) w r p).slowdown.val ≤
            (s.join (metricsFor w r p)).sdMax.val := by
        simp only [SummarySums.join, Rounded.lt_iff]
        split_ifs with lt
        · exact ⟨lt.le, le_rfl⟩
        · exact ⟨le_rfl, not_lt.mp lt⟩
      rw [List.foldl_cons]
      refine ⟨sum, ?_, larger.1.trans grows, ?_, ?_⟩
      · rw [cpu, List.map_cons, List.sum_cons, ← add_assoc]
        rfl
      · rw [List.forall_mem_cons]
        exact ⟨larger.2.trans grows, bound⟩
      · rcases attained with same | ⟨q, mem, eq⟩
        · rw [same]
          simp only [SummarySums.join]
          split_ifs
          · exact .inr ⟨p, List.mem_cons_self, rfl⟩
          · exact .inl rfl
        · exact .inr ⟨q, List.mem_cons_of_mem _ mem, eq⟩

/-! ## The summary of a run -/

/-- What the summary of a run says about its processes and cores. -/
structure SummaryOk (S : Sim D) (r : SimResult) (s : Summary (Rounded R)) : Prop where
  turnaround :
    DistributionOk (metricValues (D := Rounded R) ProcMetrics.turnaround S.w r) s.turnaround
  waiting : DistributionOk (metricValues (D := Rounded R) ProcMetrics.waiting S.w r) s.waiting
  response : DistributionOk (metricValues (D := Rounded R) ProcMetrics.response S.w r) s.response
  response_le : DistributionLe s.response s.waiting
  waiting_le : DistributionLe s.waiting s.turnaround
  slowdownMean : 1 ≤ s.slowdownMean.val
  slowdownMax : IsGreatest
    {x | ∃ p < S.w.len, x = (metricsFor (D := Rounded R) S.w r p).slowdown.val} s.slowdownMax.val
  span_pos : 0 < s.span
  /-- No sum of bursts overflows. -/
  cpu : ∀ k ≤ S.w.len, InI64 (∑ p ∈ Finset.range k, (S.w.proc p).burst)
  throughput_eq : s.throughput.val = R.round (S.w.len / s.span)
  utilization_eq : s.utilization.val =
    R.round ((∑ p ∈ Finset.range S.w.len, (S.w.proc p).burst : Int) / (S.opt.cores * s.span))
  csFraction_eq : s.csFraction.val = R.round (r.csTime / (S.opt.cores * s.span))
  utilization : 0 ≤ s.utilization.val ∧ s.utilization.val ≤ 1
  csFraction : 0 ≤ s.csFraction.val ∧ s.csFraction.val ≤ 1

/-- The distributions of times that are at most the turnaround times. -/
theorem metricValues_ok {w : Workload} (nonempty : 0 < w.len) {f : ProcMetrics (Rounded R) → Int}
    (nonneg : ∀ p < w.len, 0 ≤ f (metricsFor w r p))
    (fits : ∑ p ∈ Finset.range w.len, f (metricsFor w r p) ≤ limit) (count : w.len ≤ limit) :
    metricValues f w r ≠ [] ∧ (∀ v ∈ metricValues f w r, 0 ≤ v) ∧ (metricValues f w r).sum ≤ limit ∧
      (metricValues f w r).length ≤ limit := by
  refine ⟨?_, ?_, fits, ?_⟩
  · rw [← List.length_pos_iff, metricValues, List.length_map, List.length_range]
    exact nonempty
  · intro v mem
    obtain ⟨p, hp, rfl⟩ := List.mem_map.mp mem
    exact nonneg p (List.mem_range.mp hp)
  · rwa [metricValues, List.length_map, List.length_range]

omit [Double D] in
/-- A share of the capacity of the cores, rounded. -/
theorem Final.share_ok {e : S.Eng} {sp : Nat → Spot} (final : Final S e sp r)
    (capacity : S.opt.cores * (metricsMakespan S.w r - r.firstArrival) ≤ limit) {used : Int}
    (nonneg : 0 ≤ used) (le : used ≤ S.opt.cores * (metricsMakespan S.w r - r.firstArrival)) :
    let share : Rounded R := Double.div (Double.ofInt used) (Double.mul (Double.ofInt r.cores)
      (Double.ofInt (metricsMakespan S.w r - r.firstArrival)))
    share.val = R.round (used / (S.opt.cores * (metricsMakespan S.w r - r.firstArrival : Int))) ∧
      0 ≤ share.val ∧ share.val ≤ 1 := by
  have span_pos := final.span_pos
  have cores := final.options.cores_pos
  rw [final.cores]
  generalize metricsMakespan S.w r - r.firstArrival = span at *
  have cores_le : (S.opt.cores : Int) ≤ limit :=
    (le_mul_of_one_le_right (by omega) span_pos).trans capacity
  have span_le : span ≤ limit := (le_mul_of_one_le_left (by omega) (by omega)).trans capacity
  have total : (0 : ℚ) < S.opt.cores * (span : Int) := by
    exact_mod_cast Int.mul_pos (by omega) span_pos
  have product : R.round ((S.opt.cores : ℚ) * span) = S.opt.cores * span := by
    have := R.int (S.opt.cores * span) (by omega) capacity
    exact_mod_cast this
  have share_eq : (Double.div (Double.ofInt used) (Double.mul (Double.ofInt S.opt.cores)
      (Double.ofInt span)) : Rounded R).val = R.round (used / (S.opt.cores * (span : Int))) := by
    have cores_kept := R.int S.opt.cores (by omega) cores_le
    rw [Int.cast_natCast] at cores_kept
    simp only [Rounded.div_val, Rounded.mul_val, Rounded.ofInt_val, Int.cast_natCast]
    rw [R.int used (by omega) (le.trans capacity), cores_kept, R.int span (by omega) span_le,
      product]
  dsimp only
  rw [share_eq]
  refine ⟨rfl, R.round_nonneg (by omega) (by positivity), ?_⟩
  have most : (used : ℚ) / (S.opt.cores * (span : Int)) ≤ ((1 : Int) : ℚ) := by
    rw [div_le_iff₀ total]
    push_cast
    rw [one_mul]
    exact_mod_cast le
  exact_mod_cast R.round_le_int (by omega) (by omega) most

/-- In every successful run of a built-in policy whose times the arithmetic can add up, the
summary reports the exact means, rounded, the nearest-rank percentiles and a median of the
times of its processes, in the order of these times; no slowdown is below 1; and the cores
are used for at most their capacity.  The averages are those of the summary. -/
theorem simRun_summary (builtIn : BuiltIn S) (success : S.simRun = .ok r)
    (fits : ∑ p ∈ Finset.range S.w.len, ((r.outcomes p).completion - (S.w.proc p).arrival) ≤ limit)
    (capacity : S.opt.cores * (metricsMakespan S.w r - r.firstArrival) ≤ limit) :
    SummaryOk S r (metricsSummary (D := Rounded R) S.w r) ∧
      metricsAverages (D := Rounded R) S.w r =
        { response := (metricsSummary S.w r).response.mean
          waiting := (metricsSummary S.w r).waiting.mean
          turnaround := (metricsSummary S.w r).turnaround.mean } := by
  refine ⟨?_, metricsAverages_eq S.w r⟩
  obtain ⟨e, sp, final⟩ := simRun_final builtIn success
  have nonempty := final.valid.nonempty
  have count := final.len_le.trans fits
  -- the three distributions
  have waits : ∑ p ∈ Finset.range S.w.len, (metricsFor (D := Rounded R) S.w r p).waiting ≤
      limit := by
    refine le_trans (Finset.sum_le_sum fun p hp => ?_) fits
    have := final.times (Finset.mem_range.mp hp)
    simp only [metricsFor]
    omega
  have responses : ∑ p ∈ Finset.range S.w.len, (metricsFor (D := Rounded R) S.w r p).response ≤
      limit := by
    refine le_trans (Finset.sum_le_sum fun p hp => ?_) waits
    have := final.times (Finset.mem_range.mp hp)
    simp only [metricsFor]
    omega
  have turnaroundOk := metricValues_ok (R := R) (r := r) (f := ProcMetrics.turnaround) nonempty
    (fun p hp => by have := final.times hp; simp only [metricsFor]; omega) fits count
  have waitingOk := metricValues_ok (R := R) (r := r) (f := ProcMetrics.waiting) nonempty
    (fun p hp => by have := final.times hp; simp only [metricsFor]; omega) waits count
  have responseOk := metricValues_ok (R := R) (r := r) (f := ProcMetrics.response) nonempty
    (fun p hp => by have := final.times hp; simp only [metricsFor]; omega) responses count
  have pointwise {f g : ProcMetrics (Rounded R) → Int}
      (le : ∀ p < S.w.len, f (metricsFor S.w r p) ≤ g (metricsFor S.w r p)) :
      List.Forall₂ (· ≤ ·) (metricValues f S.w r) (metricValues g S.w r) := by
    rw [metricValues, metricValues, List.forall₂_map_left_iff, List.forall₂_map_right_iff,
      List.forall₂_same]
    exact fun p mem => le p (List.mem_range.mp mem)
  -- the slowdowns
  have slowdown {p : Nat} (hp : p < S.w.len) := final.slowdown_ge (R := R) fits hp
  obtain ⟨sdSum, cpu, -, sdMax, attained⟩ := summarySums_eq (R := R) S.w r (List.range S.w.len)
    ⟨Double.ofInt 0, Double.ofInt 0, Double.ofInt 0, 0⟩
  -- the shares of the cores
  obtain ⟨total, switchTime⟩ := final.capacity
  have bursts := (final.bursts_le le_rfl).1
  have busy := final.share_ok (R := R) capacity bursts (by omega)
  have switching := final.share_ok (R := R) capacity switchTime (by omega)
  have cpu : (summarySums (D := Rounded R) S.w r).cpu =
      ∑ p ∈ Finset.range S.w.len, (S.w.proc p).burst := cpu.trans (zero_add _)
  rw [← cpu] at busy
  have zero : R.round ((0 : Int) : ℚ) = ((0 : Int) : ℚ) := R.int 0 (by omega) (by omega)
  constructor
  case turnaround => exact distribution_ok turnaroundOk.1 turnaroundOk.2.1 fits turnaroundOk.2.2.2
  case waiting => exact distribution_ok waitingOk.1 waitingOk.2.1 waits waitingOk.2.2.2
  case response => exact distribution_ok responseOk.1 responseOk.2.1 responses responseOk.2.2.2
  case response_le =>
    refine distribution_le waitingOk.1 responseOk.2.1 (pointwise fun p hp => ?_) waits
      waitingOk.2.2.2
    have := final.times hp
    simp only [metricsFor]
    omega
  case waiting_le =>
    refine distribution_le turnaroundOk.1 waitingOk.2.1 (pointwise fun p hp => ?_) fits
      turnaroundOk.2.2.2
    have := final.times hp
    simp only [metricsFor]
    omega
  case slowdownMean =>
    have large : ∀ x ∈ (List.range S.w.len).map fun p =>
        (metricsFor (D := Rounded R) S.w r p).slowdown.val, 1 ≤ x := by
      intro x mem
      obtain ⟨p, hp, rfl⟩ := List.mem_map.mp mem
      exact slowdown (List.mem_range.mp hp)
    have many := R.length_le_sum large le_rfl (s := 0) (by simp) (by simpa using count)
    rw [List.length_map, List.length_range, zero_add] at many
    have sum : (summarySums (D := Rounded R) S.w r).sdSum.val = R.sum ((List.range S.w.len).map
        fun p => (metricsFor (D := Rounded R) S.w r p).slowdown.val) 0 := by
      rw [← Int.cast_zero, ← zero]
      exact sdSum
    have le : ((1 : Int) : ℚ) ≤ (summarySums (D := Rounded R) S.w r).sdSum.val /
        R.round (S.w.len : Int) := by
      rw [R.int _ (by omega) count, le_div_iff₀ (by exact_mod_cast nonempty), sum, Int.cast_one,
        one_mul]
      exact many
    exact_mod_cast R.int_le_round (by omega) (by omega) le
  case slowdownMax =>
    refine ⟨?_, fun x mem => ?_⟩
    · rcases attained with same | ⟨p, mem, eq⟩
      · -- the maximum is not the 0 it starts with
        have first := (slowdown nonempty).trans (sdMax 0 (List.mem_range.mpr nonempty))
        rw [same, Rounded.ofInt_val, zero] at first
        norm_num at first
      · exact ⟨p, List.mem_range.mp mem, congrArg Rounded.val eq⟩
    · obtain ⟨p, hp, rfl⟩ := mem
      exact sdMax p (List.mem_range.mpr hp)
  case span_pos => exact final.span_pos
  case cpu =>
    intro k le
    obtain ⟨nonneg, most⟩ := final.bursts_le le
    exact ⟨le_trans (by decide) nonneg, most⟩
  case throughput_eq =>
    have span_le : metricsMakespan S.w r - r.firstArrival ≤ limit :=
      (le_mul_of_one_le_left final.span_pos.le
        (by exact_mod_cast final.options.cores_pos)).trans capacity
    simp only [metricsSummary, Rounded.div_val, Rounded.ofInt_val]
    rw [R.int _ (by omega) count, R.int _ (by have := final.span_pos; omega) span_le,
      Int.cast_natCast]
  case utilization_eq =>
    rw [← cpu]
    exact busy.1
  case csFraction_eq => exact switching.1
  case utilization => exact busy.2
  case csFraction => exact switching.2

end Sim

end Arithmetic

namespace Sim

/-- The summary of the run of the three processes, rounded as doubles are. -/
theorem trioSim_summary : ∃ r, trioSim.simRun = .ok r ∧ TrioSchedule r ∧
    SummaryOk trioSim r
      (metricsSummary (D := Rounded (.binaryFrom 53 (-1074) (by decide) (by decide)))
        trioWorkload r) := by
  obtain ⟨r, success, seen⟩ := trioSim_succeeds
  have total : ∑ p ∈ Finset.range trioSim.w.len,
      ((r.outcomes p).completion - (trioSim.w.proc p).arrival) = 17 := by
    rw [show trioSim.w.len = 3 from rfl]
    simp only [Finset.sum_range_succ, Finset.sum_range_zero, seen.outcomes]
    rfl
  have makespan : metricsMakespan trioSim.w r = 8 := by
    rw [metricsMakespan, show trioSim.w.len = 3 from rfl]
    simp [List.range_succ, seen.outcomes]
  refine ⟨r, success, seen, (simRun_summary trioSim_builtIn success ?_ ?_).1⟩
  · rw [total]
    decide
  · rw [makespan, seen.firstArrival]
    decide

end Sim

end CpuSched
