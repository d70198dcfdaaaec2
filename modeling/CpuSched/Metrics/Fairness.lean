import CpuSched.Lib.JainIndex
import CpuSched.Metrics.Predictions
import CpuSched.Metrics.Reported

/-!
# Fairness of slowdowns

The slowdown figures of the summary in exact arithmetic: Jain's index over the slowdowns of
a run lies above 0 and is at most 1, as `metrics.h` says.
-/

namespace CpuSched

namespace Sim

section Exact

variable {D : Type} [Double D] {S : Sim D} {r : SimResult} [NumberBits]

/-- Exact rational arithmetic, which rounds nothing. -/
instance : Double ℚ where
  ofInt x := x
  add := (· + ·)
  sub := (· - ·)
  mul := (· * ·)
  div := (· / ·)
  lt a b := decide (a < b)
  le a b := decide (a ≤ b)
  isFinite _ := true
  bits := NumberBits.ofNumber

/-- The slowdown of a process. -/
def slowdownOf (w : Workload) (r : SimResult) (p : Nat) : ℚ :=
  ((r.outcomes p).completion - (w.proc p).arrival : Int) / ((w.proc p).burst : Int)

/-- The loop of the summary adds up the slowdowns and their squares. -/
theorem summarySums_exact (w : Workload) (r : SimResult) (ps : List Nat) (s : SummarySums ℚ) :
    let t := ps.foldl (fun sums i => sums.join (metricsFor w r i)) s
    t.sdSum = s.sdSum + (ps.map fun p => slowdownOf w r p).sum ∧
      t.sdSq = s.sdSq + (ps.map fun p => slowdownOf w r p * slowdownOf w r p).sum ∧
      t.cpu = s.cpu + (ps.map fun p => (w.proc p).burst).sum ∧
      s.sdMax ≤ t.sdMax ∧ ∀ p ∈ ps, slowdownOf w r p ≤ t.sdMax := by
  induction ps generalizing s with
  | nil => simp
  | cons p ps ih =>
      dsimp only at ih ⊢
      obtain ⟨sum, squares, cpu, grows, bound⟩ := ih (s.join (metricsFor w r p))
      have larger : s.sdMax ≤ (s.join (metricsFor w r p)).sdMax ∧
          slowdownOf w r p ≤ (s.join (metricsFor w r p)).sdMax := by
        have step : (s.join (metricsFor w r p)).sdMax =
            if decide (s.sdMax < slowdownOf w r p) = true then slowdownOf w r p else s.sdMax := rfl
        rw [step]
        by_cases lt : s.sdMax < slowdownOf w r p
        · rw [if_pos (decide_eq_true lt)]
          exact ⟨lt.le, le_rfl⟩
        · rw [if_neg (by simpa using lt)]
          exact ⟨le_rfl, not_lt.mp lt⟩
      rw [List.foldl_cons]
      simp only [List.map_cons, List.sum_cons, ← add_assoc, List.forall_mem_cons]
      exact ⟨sum, squares, cpu, larger.1.trans grows, larger.2.trans grows, bound⟩

theorem summarySums_figures (w : Workload) (r : SimResult) :
    let t := summarySums (D := ℚ) w r
    t.sdSum = ∑ p ∈ Finset.range w.len, slowdownOf w r p ∧
      t.sdSq = ∑ p ∈ Finset.range w.len, slowdownOf w r p * slowdownOf w r p ∧
      t.cpu = ∑ p ∈ Finset.range w.len, (w.proc p).burst ∧
      ∀ p < w.len, slowdownOf w r p ≤ t.sdMax := by
  obtain ⟨sum, squares, cpu, -, largest⟩ := summarySums_exact w r (List.range w.len)
    ⟨Double.ofInt 0, Double.ofInt 0, Double.ofInt 0, 0⟩
  exact ⟨sum.trans (zero_add _), squares.trans (zero_add _), cpu.trans (zero_add _),
    fun p hp => largest p (List.mem_range.mpr hp)⟩

/-- In exact arithmetic Jain's index of the slowdowns is a fairness index, the mean slowdown is
at most the largest, and what the cores run and switch is within their capacity. -/
structure ExactOk (S : Sim D) (r : SimResult) (s : Summary ℚ) : Prop where
  jain_eq : s.jainSlowdown = jainIndex (Finset.range S.w.len) (slowdownOf S.w r)
  jain_pos : 0 < s.jainSlowdown
  jain_le : s.jainSlowdown ≤ 1
  jain_one : s.jainSlowdown = 1 ↔
    ∀ p < S.w.len, ∀ q < S.w.len, slowdownOf S.w r p = slowdownOf S.w r q
  jain_least : 1 / S.w.len ≤ s.jainSlowdown
  slowdownMean : 1 ≤ s.slowdownMean ∧ s.slowdownMean ≤ s.slowdownMax
  shares : 0 < s.utilization ∧ 0 ≤ s.csFraction ∧ s.utilization + s.csFraction ≤ 1

/-- The exact figures of every successful run of a built-in policy. -/
theorem simRun_exact (builtIn : BuiltIn S) (success : S.simRun = .ok r) :
    ExactOk S r (metricsSummary (D := ℚ) S.w r) := by
  obtain ⟨e, sp, final⟩ := simRun_final builtIn success
  have nonempty := final.valid.nonempty
  have slow : ∀ p ∈ Finset.range S.w.len, 1 ≤ slowdownOf S.w r p := by
    intro p hp
    have := final.times (Finset.mem_range.mp hp)
    have burst : (0 : ℚ) < ((S.w.proc p).burst : Int) := by exact_mod_cast this.2.2.1
    rw [slowdownOf, le_div_iff₀ burst, one_mul]
    exact_mod_cast (by omega)
  have pos : ∀ p ∈ Finset.range S.w.len, 0 < slowdownOf S.w r p := fun p hp =>
    one_pos.trans_le (slow p hp)
  have some : (Finset.range S.w.len).Nonempty := ⟨0, Finset.mem_range.mpr nonempty⟩
  have card : ((Finset.range S.w.len).card : ℚ) = S.w.len := by rw [Finset.card_range]
  obtain ⟨sum, squares, cpu, largest⟩ := summarySums_figures S.w r
  have index : (metricsSummary (D := ℚ) S.w r).jainSlowdown =
      jainIndex (Finset.range S.w.len) (slowdownOf S.w r) := by
    rw [jainIndex, card, ← sum, ← squares, ← Int.cast_natCast S.w.len]
    rfl
  have mean : (metricsSummary (D := ℚ) S.w r).slowdownMean =
      (∑ p ∈ Finset.range S.w.len, slowdownOf S.w r p) / S.w.len := by
    rw [← sum, ← Int.cast_natCast S.w.len]
    rfl
  have count : (0 : ℚ) < S.w.len := by exact_mod_cast nonempty
  constructor
  case jain_eq => exact index
  case jain_pos => exact index ▸ jainIndex_pos some pos
  case jain_le => exact index ▸ jainIndex_le_one some pos
  case jain_one =>
    rw [index, jainIndex_eq_one_iff some pos]
    simp only [Finset.mem_range]
  case jain_least => exact index ▸ card ▸ inv_card_le_jainIndex some pos
  case slowdownMean =>
    rw [mean, le_div_iff₀ count, div_le_iff₀ count, one_mul, mul_comm]
    constructor
    · simpa using Finset.card_nsmul_le_sum _ _ 1 slow
    · have most := Finset.sum_le_card_nsmul (Finset.range S.w.len) (slowdownOf S.w r) _ fun p hp =>
        largest p (Finset.mem_range.mp hp)
      rw [Finset.card_range, nsmul_eq_mul] at most
      exact most
  case shares =>
    obtain ⟨total, switchTime⟩ := final.capacity
    have bursts : 0 < ∑ p ∈ Finset.range S.w.len, (S.w.proc p).burst :=
      Finset.sum_pos (fun p hp => (final.valid.proc (Finset.mem_range.mp hp)).burst_pos) some
    have positive : 0 < (S.opt.cores : Int) * (metricsMakespan S.w r - r.firstArrival) :=
      Int.mul_pos (by exact_mod_cast final.options.cores_pos) final.span_pos
    -- both shares have the capacity below the line
    have share (used : Int) : (Double.div (Double.ofInt used) (Double.mul (Double.ofInt r.cores)
        (Double.ofInt (metricsMakespan S.w r - r.firstArrival))) : ℚ) = used /
          ((S.opt.cores * (metricsMakespan S.w r - r.firstArrival) : Int) : ℚ) := by
      rw [final.cores, Int.cast_mul]
      rfl
    have busy : (metricsSummary (D := ℚ) S.w r).utilization = _ := share _
    have switching : (metricsSummary (D := ℚ) S.w r).csFraction = _ := share _
    generalize (S.opt.cores : Int) * (metricsMakespan S.w r - r.firstArrival) = capacity at *
    have below : (0 : ℚ) < capacity := by exact_mod_cast positive
    rw [busy, switching, cpu]
    refine ⟨div_pos (by exact_mod_cast bursts) below, div_nonneg (by exact_mod_cast switchTime)
      below.le, ?_⟩
    rw [← add_div, div_le_one below]
    exact_mod_cast total

end Exact

/-- The exact figures of the run of the three processes, whose slowdowns differ. -/
theorem trioSim_exact : ∃ r, trioSim.simRun = .ok r ∧ TrioSchedule r ∧
    ExactOk trioSim r (metricsSummary (D := ℚ) trioWorkload r) := by
  obtain ⟨r, success, seen⟩ := trioSim_succeeds
  exact ⟨r, success, seen, simRun_exact trioSim_builtIn success⟩

end Sim

end CpuSched
