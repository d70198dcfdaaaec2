import CpuSched.Lib.Binary64
import CpuSched.Lib.OrderStatistics
import CpuSched.Metrics.Machines

/-!
# The summary of a run

`metrics_averages` and `metrics_summary` of `src/metrics/metrics.c`: averages, percentiles,
slowdowns and utilization.  What they report is proved for every arithmetic that rounds, so
also for doubles as long as no result is infinite.  The memory for sorting is there.
-/

namespace CpuSched

variable {D : Type} [Double D]

/-! ## The metrics -/

/-- `AvgMetrics`. -/
structure AvgMetrics (D : Type) where
  response : D
  waiting : D
  turnaround : D

/-- The loop of `metrics_averages`, which sums in input order. -/
def averageSums (w : Workload) (r : SimResult) : AvgMetrics D :=
  (List.range w.len).foldl (fun s i =>
    let m := metricsFor (D := D) w r i
    { response := Double.add s.response (Double.ofInt m.response)
      waiting := Double.add s.waiting (Double.ofInt m.waiting)
      turnaround := Double.add s.turnaround (Double.ofInt m.turnaround) })
    ⟨Double.ofInt 0, Double.ofInt 0, Double.ofInt 0⟩

/-- `metrics_averages`. -/
def metricsAverages (w : Workload) (r : SimResult) : AvgMetrics D :=
  let s := averageSums (D := D) w r
  let n := Double.ofInt w.len
  { response := Double.div s.response n
    waiting := Double.div s.waiting n
    turnaround := Double.div s.turnaround n }

/-- `percentile`. -/
def percentile (sorted : List Int) (n pct : Nat) : Int :=
  let rank := (pct * n + 99) / 100
  sorted.getD (if rank ≠ 0 then rank - 1 else 0) 0

/-- `Distribution`. -/
structure Distribution (D : Type) where
  mean : D
  median : D
  p95 : Int
  p99 : Int
  max : Int

/-- `distribution`: the sum is taken before the values are sorted. -/
def distribution (values : List Int) : Distribution D :=
  let n := values.length
  let sum := values.foldl (fun sum v => Double.add sum (Double.ofInt v)) (Double.ofInt (D := D) 0)
  let values := ascending values
  let median :=
    if n % 2 ≠ 0 then Double.ofInt (values.getD (n / 2) 0)
    else
      Double.div
        (Double.add (Double.ofInt (values.getD (n / 2 - 1) 0))
          (Double.ofInt (values.getD (n / 2) 0)))
        (Double.ofInt 2)
  { mean := Double.div sum (Double.ofInt n)
    median
    p95 := percentile values n 95
    p99 := percentile values n 99
    max := values.getD (n - 1) 0 }

/-- `Summary`. -/
structure Summary (D : Type) where
  turnaround : Distribution D
  waiting : Distribution D
  response : Distribution D
  slowdownMean : D
  slowdownMax : D
  jainSlowdown : D
  span : Int
  throughput : D
  utilization : D
  switches : Int
  csTime : Int
  csFraction : D

/-- The running sums of `metrics_summary`. -/
structure SummarySums (D : Type) where
  sdSum : D
  sdSq : D
  sdMax : D
  cpu : Int

/-- The metrics of one process join the sums. -/
def SummarySums.join (sums : SummarySums D) (m : ProcMetrics D) : SummarySums D where
  sdSum := Double.add sums.sdSum m.slowdown
  sdSq := Double.add sums.sdSq (Double.mul m.slowdown m.slowdown)
  sdMax := if Double.lt sums.sdMax m.slowdown then m.slowdown else sums.sdMax
  cpu := sums.cpu + m.burst

/-- The loop of `metrics_summary`. -/
def summarySums (w : Workload) (r : SimResult) : SummarySums D :=
  (List.range w.len).foldl (fun sums i => sums.join (metricsFor w r i))
    ⟨Double.ofInt 0, Double.ofInt 0, Double.ofInt 0, 0⟩

/-- A metric of all processes, in input order. -/
def metricValues (f : ProcMetrics D → Int) (w : Workload) (r : SimResult) : List Int :=
  (List.range w.len).map fun i => f (metricsFor w r i)

/-- `metrics_summary`. -/
def metricsSummary (w : Workload) (r : SimResult) : Summary D :=
  let n := Double.ofInt (D := D) w.len
  let sums := summarySums (D := D) w r
  let span := metricsMakespan w r - r.firstArrival
  let capacity := Double.mul (Double.ofInt (D := D) r.cores) (Double.ofInt span)
  { turnaround := distribution (metricValues (D := D) ProcMetrics.turnaround w r)
    waiting := distribution (metricValues (D := D) ProcMetrics.waiting w r)
    response := distribution (metricValues (D := D) ProcMetrics.response w r)
    slowdownMean := Double.div sums.sdSum n
    slowdownMax := sums.sdMax
    jainSlowdown := Double.div (Double.mul sums.sdSum sums.sdSum) (Double.mul n sums.sdSq)
    span
    throughput := Double.div n (Double.ofInt span)
    utilization := Double.div (Double.ofInt sums.cpu) capacity
    switches := r.switches
    csTime := r.csTime
    csFraction := Double.div (Double.ofInt r.csTime) capacity }

/-! ## Rounded arithmetic -/

variable {limit : Int}

/-- The numbers that a rounding keeps. -/
@[ext] structure Rounded (R : Rounding limit) where
  val : ℚ
  kept : R.round val = val

/-- A number is rounded. -/
def Rounded.of (R : Rounding limit) (x : ℚ) : Rounded R := ⟨R.round x, R.idem x⟩

/-- The bit patterns that `memcpy` reads.  Nothing is asked of them, so they may tell any
numbers apart. -/
class NumberBits where
  ofNumber : ℚ → BitVec 64

/-- The pattern of the nearest double. -/
instance : NumberBits := ⟨fun x => (Binary64.round false x).bits⟩

/-- Doubles as the program has them. -/
instance : Double Binary64 where
  ofInt := Binary64.ofInt
  add := Binary64.add
  sub := Binary64.sub
  mul := Binary64.mul
  div := Binary64.div
  lt := Binary64.lt
  le := Binary64.le
  isFinite := Binary64.isFinite
  bits := Binary64.bits

variable [NumberBits]

/-- Every operation rounds its exact result.  The exponents have no upper end, so that every
result is finite. -/
instance (R : Rounding limit) : Double (Rounded R) where
  ofInt x := .of R x
  add a b := .of R (a.val + b.val)
  sub a b := .of R (a.val - b.val)
  mul a b := .of R (a.val * b.val)
  div a b := .of R (a.val / b.val)
  lt a b := decide (a.val < b.val)
  le a b := decide (a.val ≤ b.val)
  isFinite _ := true
  bits x := NumberBits.ofNumber x.val

namespace Rounded

variable {R : Rounding limit}

@[simp] theorem ofInt_val (x : Int) : (Double.ofInt x : Rounded R).val = R.round x := rfl

@[simp] theorem add_val (a b : Rounded R) : (Double.add a b).val = R.round (a.val + b.val) := rfl

@[simp] theorem sub_val (a b : Rounded R) : (Double.sub a b).val = R.round (a.val - b.val) := rfl

@[simp] theorem mul_val (a b : Rounded R) : (Double.mul a b).val = R.round (a.val * b.val) := rfl

@[simp] theorem div_val (a b : Rounded R) : (Double.div a b).val = R.round (a.val / b.val) := rfl

@[simp] theorem lt_iff (a b : Rounded R) : Double.lt a b = true ↔ a.val < b.val :=
  decide_eq_true_iff

theorem sum_val (values : List Int) (s : Rounded R) :
    (values.foldl (fun sum v => Double.add sum (Double.ofInt v)) s).val =
      R.sum (values.map fun v : Int => R.round v) s.val := by
  induction values generalizing s with
  | nil => rfl
  | cons v values ih =>
      rw [List.foldl_cons, ih]
      rfl

/-- Sums of times are exact up to the limit. -/
theorem sum_times {values : List Int} (nonneg : ∀ v ∈ values, 0 ≤ v) (fits : values.sum ≤ limit) :
    (values.foldl (fun sum v => Double.add sum (Double.ofInt v))
      (Double.ofInt (D := Rounded R) 0)).val = values.sum := by
  have total := List.sum_nonneg nonneg
  have terms : (values.map fun v : Int => R.round v) = values.map fun v : Int => (v : ℚ) := by
    refine List.map_congr_left fun v mem => R.int v ?_ ?_
    · have := nonneg v mem
      omega
    · exact (List.single_le_sum nonneg v mem).trans fits
  have start : (Double.ofInt 0 : Rounded R).val = ((0 : Int) : ℚ) := R.int 0 (by omega) (by omega)
  rw [sum_val, terms, start, R.sum_ints nonneg le_rfl (by omega), zero_add]

end Rounded

/-! ## Distributions -/

section Distribution

variable {R : Rounding limit}

/-- What a distribution says about its values.  The mean is the exact mean, rounded. -/
structure DistributionOk (values : List Int) (d : Distribution (Rounded R)) : Prop where
  mean_eq : d.mean.val = R.round (values.sum / values.length)
  median : IsMedian (fun v : Int => (v : ℚ)) values d.median.val
  p95 : NearestRank values 95 d.p95
  p99 : NearestRank values 99 d.p99
  max : IsGreatest {v | v ∈ values} d.max
  p95_le : d.p95 ≤ d.p99
  p99_le : d.p99 ≤ d.max
  mean_nonneg : 0 ≤ d.mean.val
  mean_le : d.mean.val ≤ d.max

omit [NumberBits] in
theorem percentile_eq {values : List Int} (ne : values ≠ []) {pct : Nat} (pos : 0 < pct) :
    percentile (ascending values) values.length pct =
      kth 0 values ((pct * values.length + 99) / 100 - 1) := by
  have many : 0 < pct * values.length := Nat.mul_pos pos (List.length_pos_iff.mpr ne)
  rw [percentile, kth]
  simp only [if_pos (show (pct * values.length + 99) / 100 ≠ 0 by omega)]

omit [NumberBits] in
theorem percentile_nearestRank {values : List Int} (ne : values ≠ []) {pct : Nat} (pos : 0 < pct)
    (le : pct ≤ 100) :
    NearestRank values pct (percentile (ascending values) values.length pct) := by
  have many : 0 < pct * values.length := Nat.mul_pos pos (List.length_pos_iff.mpr ne)
  have few : pct * values.length ≤ 100 * values.length := Nat.mul_le_mul_right _ le
  rw [percentile_eq ne pos]
  exact kth_nearestRank (by omega) (by omega) (by omega) (by omega)

omit [NumberBits] in
/-- Two neighbours in the order add up to at most the sum. -/
theorem kth_add_kth_le {values : List Int} (nonneg : ∀ v ∈ values, 0 ≤ v) {k : Nat}
    (lt : k + 1 < values.length) : kth 0 values k + kth 0 values (k + 1) ≤ values.sum := by
  have nonneg : ∀ v ∈ ascending values, 0 ≤ v := fun v mem =>
    nonneg v ((ascending_perm values).mem_iff.mp mem)
  have here : k + 1 < (ascending values).length := by rwa [length_ascending]
  have drop := List.drop_eq_getElem_cons (l := ascending values) (i := k) (by omega)
  rw [List.drop_eq_getElem_cons (i := k + 1) here] at drop
  have rest : 0 ≤ ((ascending values).drop (k + 1 + 1)).sum :=
    List.sum_nonneg fun v mem => nonneg v (List.mem_of_mem_drop mem)
  have le := (List.drop_sublist k (ascending values)).sum_le_sum nonneg
  rw [drop, List.sum_cons, List.sum_cons, (ascending_perm values).sum_eq] at le
  simp only [kth, List.getD_eq_getElem?_getD, List.getElem?_eq_getElem here,
    List.getElem?_eq_getElem (show k < (ascending values).length by omega), Option.getD_some]
  omega

/-- The rounded mean of the two middle values lies between them. -/
theorem distribution_median {values : List Int} (ne : values ≠ []) (nonneg : ∀ v ∈ values, 0 ≤ v)
    (fits : values.sum ≤ limit) (count : values.length ≤ limit) :
    ((kth 0 values ((values.length - 1) / 2) : Int) : ℚ) ≤
        (distribution (D := Rounded R) values).median.val ∧
      (distribution (D := Rounded R) values).median.val ≤
        (kth 0 values (values.length / 2) : Int) := by
  have pos := List.length_pos_iff.mpr ne
  have entry {k : Nat} (lt : k < values.length) : 0 ≤ kth 0 values k ∧ kth 0 values k ≤ limit :=
    ⟨nonneg _ (kth_mem lt), (List.single_le_sum nonneg _ (kth_mem lt)).trans fits⟩
  obtain ⟨bNonneg, bLe⟩ := entry (show values.length / 2 < values.length by omega)
  by_cases odd : values.length % 2 ≠ 0
  · have middle : (values.length - 1) / 2 = values.length / 2 := by omega
    have median : (distribution (D := Rounded R) values).median.val =
        (kth 0 values (values.length / 2) : Int) := by
      simp only [distribution, if_pos odd, Rounded.ofInt_val]
      exact R.int (kth 0 values (values.length / 2)) (by omega) bLe
    rw [middle, median]
    exact ⟨le_rfl, le_rfl⟩
  · obtain ⟨k, middle⟩ : ∃ k, values.length / 2 = k + 1 := ⟨values.length / 2 - 1, by omega⟩
    rw [middle] at bNonneg bLe
    obtain ⟨aNonneg, aLe⟩ := entry (show k < values.length by omega)
    have both := (kth_add_kth_le nonneg (show k + 1 < values.length by omega)).trans fits
    have two : R.round 2 = 2 := by simpa using R.int 2 (by omega) (by omega)
    have sum : R.round ((kth 0 values k : Int) + (kth 0 values (k + 1) : Int)) =
        ((kth 0 values k + kth 0 values (k + 1) : Int) : ℚ) := by
      rw [← Int.cast_add]
      exact R.int _ (by omega) both
    have median : (distribution (D := Rounded R) values).median.val =
        R.round (((kth 0 values k + kth 0 values (k + 1) : Int) : ℚ) / 2) := by
      have a := R.int (kth 0 values k) (by omega) aLe
      have b := R.int (kth 0 values (k + 1)) (by omega) bLe
      simp only [distribution, if_neg odd, middle, Nat.add_sub_cancel, Rounded.div_val,
        Rounded.add_val, Rounded.ofInt_val, Int.cast_ofNat, two]
      rw [← sum, ← kth, ← kth, a, b]
    have ordered : kth 0 values k ≤ kth 0 values (k + 1) :=
      kth_mono (Nat.le_succ k) (by omega)
    rw [median, show (values.length - 1) / 2 = k by omega, middle]
    constructor
    · refine R.int_le_round (by omega) aLe ?_
      rw [le_div_iff₀ two_pos]
      exact_mod_cast (by omega : kth 0 values k * 2 ≤ kth 0 values k + kth 0 values (k + 1))
    · refine R.round_le_int (by omega) bLe ?_
      rw [div_le_iff₀ two_pos]
      exact_mod_cast
        (by omega : kth 0 values k + kth 0 values (k + 1) ≤ kth 0 values (k + 1) * 2)

theorem distribution_ok {values : List Int} (ne : values ≠ []) (nonneg : ∀ v ∈ values, 0 ≤ v)
    (fits : values.sum ≤ limit) (count : values.length ≤ limit) :
    DistributionOk values (distribution (D := Rounded R) values) := by
  have pos := List.length_pos_iff.mpr ne
  have greatest := kth_isGreatest (d := 0) ne
  have max_eq : (distribution (D := Rounded R) values).max = kth 0 values (values.length - 1) := rfl
  have length : (Double.ofInt (values.length : Int) : Rounded R).val = values.length :=
    R.int _ (by omega) count
  have mean : (distribution (D := Rounded R) values).mean.val =
      R.round (values.sum / values.length) := by
    simp only [distribution, Rounded.div_val, length, Rounded.sum_times nonneg fits]
  have ranks {j k : Nat} (le : j ≤ k) (lt : k < values.length) : kth 0 values j ≤ kth 0 values k :=
    kth_mono le lt
  have top_le : kth 0 values (values.length - 1) ≤ limit :=
    (List.single_le_sum nonneg _ greatest.1).trans fits
  have top_nonneg := nonneg _ greatest.1
  have total := List.sum_nonneg nonneg
  constructor
  case mean_eq => exact mean
  case median =>
    obtain ⟨low, high⟩ := distribution_median (R := R) ne nonneg fits count
    exact isMedian_of_between (fun _ _ le => Int.cast_le.mpr le) ne low high
  case p95 => exact percentile_nearestRank ne (by decide) (by decide)
  case p99 => exact percentile_nearestRank ne (by decide) (by decide)
  case max => exact greatest
  case p95_le =>
    simp only [distribution, percentile_eq ne (show 0 < 95 by decide),
      percentile_eq ne (show 0 < 99 by decide)]
    exact ranks (by omega) (by omega)
  case p99_le =>
    simp only [distribution, percentile_eq ne (show 0 < 99 by decide)]
    exact ranks (by omega) (by omega)
  case mean_nonneg =>
    rw [mean]
    exact R.round_nonneg (by omega) (by positivity)
  case mean_le =>
    rw [mean, max_eq]
    refine R.round_le_int (by omega) top_le ?_
    rw [div_le_iff₀ (by exact_mod_cast pos)]
    have := List.sum_le_card_nsmul values _ fun v mem => greatest.2 mem
    rw [nsmul_eq_mul, mul_comm] at this
    exact_mod_cast this

end Distribution

end CpuSched
