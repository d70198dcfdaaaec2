import CpuSched.Cli.Accepted
import CpuSched.Cli.Run
import CpuSched.Metrics.Reported
import CpuSched.Policies.NonPreemptive
import CpuSched.Policies.Protocol
import Mathlib.Tactic.FinCases

/-!
# What the command reports

A report has one item for each selected policy, in the order of the table, and each item
holds a successful run of its policy.  The gaps have the sign that the optimum gives them:
no policy without preemption is below it, and SRTF with the exact bursts is not above it.
-/

namespace CpuSched

/-! ## The table -/

section Table

variable {D : Type} [Double D]

theorem policyAt_registered (i : Fin policyCount) :
    policyAt (D := D) i ∈ registry fun _ => true := List.get_mem _ _

/-- The names of the table, in its order. -/
def policyNames : List String :=
  ["fcfs", "sjf", "srtf", "rr", "prio", "prio-p", "hrrn", "mlfq", "lottery", "stride", "cfs",
    "opt-np"]

theorem policyAt_name (i : Fin policyCount) :
    (policyAt (D := D) i).name = policyNames.getD i "" := by
  fin_cases i <;> rfl

theorem policyAt_optNp {i : Fin policyCount} (named : (policyAt (D := D) i).name = "opt-np") :
    policyAt (D := D) i = policyOptNp fun _ => true := by
  have last : ∀ i : Fin policyCount, policyNames.getD i "" = "opt-np" → i = 11 := by decide
  rw [last i ((policyAt_name i).symm.trans named)]
  rfl

theorem policyAt_srtf {i : Fin policyCount} (named : (policyAt (D := D) i).name = "srtf") :
    policyAt (D := D) i = policySrtf := by
  have third : ∀ i : Fin policyCount, policyNames.getD i "" = "srtf" → i = 2 := by decide
  rw [third i ((policyAt_name i).symm.trans named)]
  rfl

theorem Sim.RunResult.outcome_ok_iff {x : Sim.RunResult} {r : SimResult} :
    x.outcome = .ok r ↔ x = .ok r := by
  cases x <;> simp [outcome]

end Table

/-! ## Percentages -/

section Percentages

open Binary64 (Stands)

/-- The sum that `mean_turnaround` divides. -/
def totalTurnaround (w : Workload) (r : SimResult) : Int :=
  ∑ p ∈ Finset.range w.len, ((r.outcomes p).completion - (w.proc p).arrival)

/-- Every process takes time, and a double can hold the sum. -/
structure Timed (w : Workload) (r : SimResult) : Prop where
  nonempty : 0 < w.len
  nonneg : ∀ p < w.len, 0 ≤ (r.outcomes p).completion - (w.proc p).arrival
  len_le : (w.len : Int) ≤ totalTurnaround w r
  fits : totalTurnaround w r ≤ 2 ^ 53

/-- The mean of the exact sum, rounded. -/
def meanValue (w : Workload) (r : SimResult) : ℚ :=
  doubleRound (totalTurnaround w r / (w.len : Int))

/-- The percentage of two means, rounded three times. -/
def pctValue (x base : ℚ) : ℚ :=
  doubleRound (doubleRound ((100 : Int) * doubleRound (x - base)) / base)

variable {w : Workload} {r r' base : SimResult}

/-- A double adds up the turnaround times exactly. -/
theorem Timed.meanTurnaround_eq (timed : Timed w r) : (meanTurnaround w r : Binary64) =
    Binary64.div (.ofInt (totalTurnaround w r)) (.ofInt w.len) := by
  have times : ∀ v ∈ metricValues (D := Binary64) ProcMetrics.turnaround w r, 0 ≤ v := by
    intro v mem
    obtain ⟨p, hp, rfl⟩ := List.mem_map.mp mem
    exact timed.nonneg p (List.mem_range.mp hp)
  have total : (metricValues (D := Binary64) ProcMetrics.turnaround w r).sum =
      totalTurnaround w r := rfl
  have sum := Binary64.sum_ofInt times le_rfl (by rw [zero_add, total]; exact timed.fits)
  rw [zero_add, total] at sum
  have mean := congrArg (fun a => a.turnaround) (metricsAverages_eq (D := Binary64) w r)
  dsimp only at mean
  rw [meanTurnaround, mean, ← sum]
  simp only [metricsSummary, distribution, metricValues, List.length_map, List.length_range]
  rfl

theorem Timed.mean_bounds (timed : Timed w r) :
    (1 : ℚ) ≤ totalTurnaround w r / (w.len : Int) ∧
      (totalTurnaround w r : ℚ) / (w.len : Int) ≤ (2 : ℚ) ^ (53 : Int) := by
  have one_le : (1 : ℚ) ≤ (w.len : Int) := by exact_mod_cast timed.nonempty
  have pos : (0 : ℚ) < (w.len : Int) := one_pos.trans_le one_le
  constructor
  · rw [le_div_iff₀ pos, one_mul]
    exact_mod_cast timed.len_le
  · have fits : (totalTurnaround w r : ℚ) ≤ (2 : ℚ) ^ (53 : Nat) := by exact_mod_cast timed.fits
    rw [← zpow_natCast] at fits
    refine (div_le_of_le_mul₀ pos.le (by positivity) ?_)
    exact fits.trans (le_mul_of_one_le_right (by positivity) one_le)

theorem Timed.meanValue_bounds (timed : Timed w r) :
    1 ≤ meanValue w r ∧ meanValue w r ≤ (2 : ℚ) ^ (53 : Int) := by
  obtain ⟨low, high⟩ := timed.mean_bounds
  have one : doubleRound 1 = 1 := by
    have := doubleRound_int (n := 1) (by decide)
    rwa [Int.cast_one] at this
  constructor
  · rw [← one]
    exact doubleRound_mono low
  · rw [← doubleRound_two_zpow (k := 53) (by decide)]
    exact doubleRound_mono high

/-- The mean is finite. -/
theorem Timed.stands (timed : Timed w r) :
    Stands (meanTurnaround w r : Binary64) (meanValue w r) := by
  obtain ⟨low, high⟩ := timed.mean_bounds
  have count : (w.len : Int) ≤ 2 ^ 53 := timed.len_le.trans timed.fits
  have total : 0 ≤ totalTurnaround w r := (Int.natCast_nonneg _).trans timed.len_le
  rw [timed.meanTurnaround_eq]
  refine (Binary64.stands_ofInt ?_).div (Binary64.stands_ofInt ?_) ?_ ?_
  · rw [abs_of_nonneg total]
    exact timed.fits
  · rw [abs_of_nonneg (Int.natCast_nonneg _)]
    exact count
  · exact_mod_cast timed.nonempty.ne'
  · rw [abs_of_nonneg (zero_le_one.trans low)]
    exact high.trans (zpow_le_zpow_right₀ one_le_two (by decide))

/-- The percentage of two means is finite. -/
theorem Timed.stands_pctOver (timed : Timed w r) (timed' : Timed w base) :
    Stands (pctOver (meanTurnaround w r : Binary64) (meanTurnaround w base))
      (pctValue (meanValue w r) (meanValue w base)) := by
  obtain ⟨low, high⟩ := timed.meanValue_bounds
  obtain ⟨low', high'⟩ := timed'.meanValue_bounds
  have larger {m n : Int} (le : m ≤ n) : (2 : ℚ) ^ m ≤ (2 : ℚ) ^ n :=
    zpow_le_zpow_right₀ one_le_two le
  have difference : |meanValue w r - meanValue w base| ≤ (2 : ℚ) ^ (53 : Int) :=
    abs_le.mpr ⟨by linarith, by linarith⟩
  have sub := timed.stands.sub timed'.stands (difference.trans (larger (by decide)))
  have rounded := abs_doubleRound_le (by decide) difference
  have product : |((100 : Int) : ℚ) * doubleRound (meanValue w r - meanValue w base)| ≤
      (2 : ℚ) ^ (60 : Int) := by
    have factor : |((100 : Int) : ℚ)| ≤ (2 : ℚ) ^ (7 : Int) := by norm_num
    rw [abs_mul, show (60 : Int) = 7 + 53 by rfl, zpow_add₀ two_ne_zero]
    exact mul_le_mul factor rounded (abs_nonneg _) (by positivity)
  have mul := (Binary64.stands_ofInt (n := 100) (by decide)).mul sub
    (product.trans (larger (by decide)))
  refine mul.div timed'.stands (by linarith) ?_
  have bound := abs_doubleRound_le (by decide) product
  rw [abs_div, abs_of_pos (show 0 < meanValue w base by linarith)]
  refine (div_le_of_le_mul₀ (by linarith) (by positivity) ?_)
  exact (bound.trans (larger (by decide))).trans (le_mul_of_one_le_right (by positivity) low')

theorem pctValue_mono {x y b : ℚ} (nonneg : 0 ≤ b) (le : x ≤ y) : pctValue x b ≤ pctValue y b := by
  refine doubleRound_mono (div_le_div_of_nonneg_right (doubleRound_mono ?_) nonneg)
  exact mul_le_mul_of_nonneg_left (doubleRound_mono (sub_le_sub_right le _)) (by norm_num)

/-- A longer total is at least as much above a base. -/
theorem Timed.pctOver_le (timed : Timed w r) (timed' : Timed w r') (timed₀ : Timed w base)
    (le : totalTurnaround w r ≤ totalTurnaround w r') :
    Double.le (pctOver (meanTurnaround w r : Binary64) (meanTurnaround w base))
      (pctOver (meanTurnaround w r') (meanTurnaround w base)) = true := by
  refine ((timed.stands_pctOver timed₀).le_iff (timed'.stands_pctOver timed₀)).mpr ?_
  refine pctValue_mono (zero_le_one.trans timed₀.meanValue_bounds.1) (doubleRound_mono ?_)
  exact div_le_div_of_nonneg_right (by exact_mod_cast le) (by positivity)

/-- The base is not above itself. -/
theorem Timed.pctOver_self (timed : Timed w base) :
    pctOver (meanTurnaround w base : Binary64) (meanTurnaround w base) = Double.ofInt 0 := by
  have pos := one_pos.trans_le timed.meanValue_bounds.1
  show Binary64.div (Binary64.mul (Binary64.ofInt 100) (Binary64.sub _ _)) _ = _
  rw [timed.stands.sub_self]
  exact Binary64.zero_scaled (by decide) (by decide) timed.stands pos

/-- At least as much as the base is not below it. -/
theorem Timed.pctOver_nonneg (timed : Timed w r) (timed₀ : Timed w base)
    (le : totalTurnaround w base ≤ totalTurnaround w r) :
    Double.le (Double.ofInt 0)
      (pctOver (meanTurnaround w r : Binary64) (meanTurnaround w base)) = true := by
  rw [← timed₀.pctOver_self]
  exact timed₀.pctOver_le timed timed₀ le

/-- At most as much as the base is not above it. -/
theorem Timed.pctOver_nonpos (timed : Timed w r) (timed₀ : Timed w base)
    (le : totalTurnaround w r ≤ totalTurnaround w base) :
    Double.le (pctOver (meanTurnaround w r : Binary64) (meanTurnaround w base))
      (Double.ofInt 0) = true := by
  rw [← timed₀.pctOver_self]
  exact timed.pctOver_le timed₀ timed₀ le

end Percentages

/-! ## What the loops return -/

section Loops

variable {D : Type} [Double D] {build : Build} {opt : Options D} {w : Workload}

/-- The loop over the table returns one successful run for each selected policy. -/
theorem runSelected_ok {policies : List (Fin policyCount)}
    {results : List (Fin policyCount × SimResult)}
    (ran : runSelected build opt w policies = .ok results) :
    results.map Prod.fst = policies.filter (fun i : Fin policyCount => opt.selected i) ∧
      ∀ x ∈ results, (simOf build opt w x.1 opt.sim).simRun = .ok x.2 := by
  induction policies generalizing results with
  | nil =>
      cases ran
      exact ⟨rfl, fun x mem => by cases mem⟩
  | cons i rest ih =>
      rw [runSelected] at ran
      by_cases chosen : opt.selected i = true
      · rw [if_pos chosen] at ran
        obtain ⟨r, run, ran⟩ := exceptBind_ok_iff.mp ran
        obtain ⟨results', ran', ran⟩ := exceptBind_ok_iff.mp ran
        obtain rfl := Except.ok.inj ran
        obtain ⟨policies, runs⟩ := ih ran'
        rw [List.filter_cons, if_pos chosen, List.map_cons, policies]
        exact ⟨rfl, List.forall_mem_cons.mpr ⟨Sim.RunResult.outcome_ok_iff.mp run, runs⟩⟩
      · rw [if_neg chosen] at ran
        rw [List.filter_cons, if_neg chosen]
        exact ih ran

/-- A regret compares the run of a policy that uses estimates to one with the exact bursts. -/
theorem regretOf_ok {i : Fin policyCount} {r : SimResult} {regretPct : Option D}
    (measured : regretOf build opt w i r = .ok regretPct) :
    (regretPct.isSome = true ↔
      opt.sim.predict = .ewma ∧ (policyAt (D := D) i).usesEstimates = true) ∧
    ∀ x ∈ regretPct, ∃ base,
      (simOf build opt w i { opt.sim with predict := .oracle }).simRun = .ok base ∧
        x = pctOver (meanTurnaround w r) (meanTurnaround w base) := by
  rw [regretOf] at measured
  by_cases wanted : opt.sim.predict = .ewma ∧ (policyAt (D := D) i).usesEstimates = true
  · rw [if_pos wanted] at measured
    cases found : regret build opt w i r with
    | error stop => simp [found, Except.map] at measured
    | ok x =>
        simp only [found, Except.map, Except.ok.injEq] at measured
        subst measured
        refine ⟨by simp [wanted], fun x' mem => ?_⟩
        obtain rfl := Option.some.inj mem
        obtain ⟨base, run, ends⟩ := exceptBind_ok_iff.mp found
        exact ⟨base, Sim.RunResult.outcome_ok_iff.mp run, (Except.ok.inj ends).symm⟩
  · rw [if_neg wanted] at measured
    obtain rfl := Except.ok.inj measured
    exact ⟨by simpa using wanted, fun x mem => by cases mem⟩

/-- The optimum is that of a run of opt-np. -/
theorem optimum_ok {best : Option D} (measured : optimum build opt w = .ok best) :
    best.isSome = opt.gap ∧ ∀ x ∈ best, ∃ i o, policyAt (D := D) i = policyOptNp (fun _ => true) ∧
      (simOf build opt w i opt.sim).simRun = .ok o ∧ x = meanTurnaround w o := by
  rw [optimum] at measured
  by_cases gap : opt.gap = true
  · rw [if_pos gap] at measured
    cases found : policyFind D "opt-np" with
    | none => simp [found] at measured
    | some i =>
        simp only [found] at measured
        obtain ⟨o, run, ends⟩ := exceptBind_ok_iff.mp measured
        obtain rfl := Except.ok.inj ends
        have named := List.find?_some found
        refine ⟨by rw [gap]; rfl, fun x mem => ?_⟩
        obtain rfl := Option.some.inj mem
        exact ⟨i, o, policyAt_optNp (by simpa using named),
          Sim.RunResult.outcome_ok_iff.mp run, rfl⟩
  · rw [if_neg gap] at measured
    obtain rfl := Except.ok.inj measured
    exact ⟨by simpa using gap, fun x mem => by cases mem⟩

/-- What is filled in for the run of one policy. -/
structure Filled (build : Build) (opt : Options D) (w : Workload) (best : Option D)
    (result : Fin policyCount × SimResult) (item : ReportItem D) : Prop where
  policy : item.policy = result.1
  sim : item.sim = result.2
  summary : item.summary = metricsSummary w item.sim
  gapPct : item.gapPct = best.map (pctOver (meanTurnaround w item.sim))
  regretPct : regretOf build opt w item.policy item.sim = .ok item.regretPct

theorem fillItems_ok {best : Option D} {results : List (Fin policyCount × SimResult)}
    {items : List (ReportItem D)} (filled : fillItems build opt w best results = .ok items) :
    List.Forall₂ (Filled build opt w best) results items := by
  induction results generalizing items with
  | nil =>
      cases filled
      exact .nil
  | cons result rest ih =>
      obtain ⟨i, r⟩ := result
      rw [fillItems] at filled
      obtain ⟨regretPct, measured, filled⟩ := exceptBind_ok_iff.mp filled
      obtain ⟨items', filled', filled⟩ := exceptBind_ok_iff.mp filled
      obtain rfl := Except.ok.inj filled
      exact .cons ⟨rfl, rfl, rfl, rfl, measured⟩ (ih filled')

theorem filled_items {best : Option D} {results : List (Fin policyCount × SimResult)}
    {items : List (ReportItem D)} (filled : List.Forall₂ (Filled build opt w best) results items) :
    items.map ReportItem.policy = results.map Prod.fst ∧
      ∀ item ∈ items, ∃ result ∈ results, Filled build opt w best result item := by
  induction filled with
  | nil => exact ⟨rfl, fun item mem => by cases mem⟩
  | @cons result item results items here _ ih =>
      refine ⟨by rw [List.map_cons, List.map_cons, here.policy, ih.1], ?_⟩
      rw [List.forall_mem_cons]
      refine ⟨⟨result, List.mem_cons_self, here⟩, fun item' mem => ?_⟩
      obtain ⟨result', mem', filled'⟩ := ih.2 item' mem
      exact ⟨result', List.mem_cons_of_mem _ mem', filled'⟩

end Loops

/-! ## Gaps and regrets -/

section Gaps

variable {build : Build} {w : Workload}

/-- Without switch cost the turnaround times of a run add up to at most the horizon for each
process. -/
theorem simRun_timed {D : Type} [Double D] {S : Sim D} (builtIn : Sim.BuiltIn S)
    (free : S.opt.csCost = 0) (fits : S.w.len * workloadHorizon S.w ≤ 2 ^ 53) {r : SimResult}
    (success : S.simRun = .ok r) : Timed S.w r := by
  obtain ⟨e, sp, final, within⟩ := Sim.simRun_keeps builtIn success
    fun valid options _ => Sim.Within.runInv valid options.cs_nonneg
  have now_le : e.now ≤ S.reach e := within.now_le
  rw [Sim.reach, free, mul_zero, add_zero] at now_le
  have each : ∀ p < S.w.len, 0 ≤ (r.outcomes p).completion - (S.w.proc p).arrival ∧
      (r.outcomes p).completion - (S.w.proc p).arrival ≤ workloadHorizon S.w := by
    intro p hp
    have := final.completion_bounds hp
    have := (final.valid.proc hp).arrival_nonneg
    omega
  have sum := Finset.sum_le_card_nsmul (Finset.range S.w.len) _ _ fun p hp =>
    (each p (Finset.mem_range.mp hp)).2
  rw [Finset.card_range, nsmul_eq_mul] at sum
  exact ⟨final.valid.nonempty, fun p hp => (each p hp).1, final.len_le, sum.trans fits⟩

/-- The runs of the table that the options admit are runs of built-in policies. -/
theorem simOf_builtIn {D : Type} [Double D] {opt : Options D} (admitted : opt.params.Admitted)
    (i : Fin policyCount) (sim : SimOptions D) : Sim.BuiltIn (simOf build opt w i sim) :=
  ⟨⟨fun _ => true, policyAt_registered i⟩, admitted⟩

/-- What a report says about the runs of its policies. -/
structure ReportOk {D : Type} [Double D] (build : Build) (opt : Options D) (w : Workload)
    (report : Report D) : Prop where
  /-- One item for each selected policy, in the order of the table. -/
  policies : report.items.map ReportItem.policy =
    (List.finRange policyCount).filter fun i : Fin policyCount => opt.selected i
  ran : ∀ item ∈ report.items, (simOf build opt w item.policy opt.sim).simRun = .ok item.sim
  summary : ∀ item ∈ report.items, item.summary = metricsSummary w item.sim
  hasGap : ∀ item ∈ report.items, item.gapPct.isSome = opt.gap
  /-- No policy without preemption is below the optimum. -/
  gap_nonneg : ∀ item ∈ report.items, ∀ x ∈ item.gapPct,
    (policyAt (D := D) item.policy).preemptive = false → Double.le (Double.ofInt 0) x = true
  gap_optNp : ∀ item ∈ report.items, ∀ x ∈ item.gapPct,
    (policyAt (D := D) item.policy).name = "opt-np" → x = Double.ofInt 0
  /-- SRTF with the exact bursts is above neither the optimum nor any other policy. -/
  gap_srtf : opt.sim.predict = .oracle → ∀ item ∈ report.items, ∀ x ∈ item.gapPct,
    (policyAt (D := D) item.policy).name = "srtf" → Double.le x (Double.ofInt 0) = true ∧
      ∀ item' ∈ report.items, ∀ x' ∈ item'.gapPct, Double.le x x' = true
  hasRegret : ∀ item ∈ report.items, item.regretPct.isSome = true ↔
    opt.sim.predict = .ewma ∧ (policyAt (D := D) item.policy).usesEstimates = true
  /-- On one core, without switch cost and I/O, prediction does not shorten the mean
  turnaround time of SRTF. -/
  regret_srtf : ∀ item ∈ report.items, ∀ x ∈ item.regretPct,
    (policyAt (D := D) item.policy).name = "srtf" → opt.sim.cores = 1 →
      opt.sim.csCost = 0 → (∀ p < w.len, (w.proc p).phaseCount = 1) →
        Double.le (Double.ofInt 0) x = true

/-- The simulation of a policy of the table is that of any other with this policy. -/
theorem simOf_withPolicy {D : Type} [Double D] {opt : Options D} {i : Fin policyCount}
    {P : Policy D} (eq : policyAt i = P) (j : Fin policyCount) (sim : SimOptions D) :
    simOf build opt w i sim = (simOf build opt w j sim).withPolicy P := by
  subst eq
  rfl

/-- SRTF with the exact bursts is never behind another policy on one core. -/
theorem srtf_totalTurnaround_le {D : Type} [Double D] {opt : Options D}
    (admitted : opt.params.Admitted) {i j : Fin policyCount}
    (srtf : policyAt (D := D) i = policySrtf)
    {sim : SimOptions D} (one : sim.cores = 1) (free : sim.csCost = 0)
    (single : ∀ p < w.len, (w.proc p).phaseCount = 1) {r r' : SimResult}
    (run : (simOf build opt w i { sim with predict := .oracle }).simRun = .ok r)
    (run' : (simOf build opt w j sim).simRun = .ok r') :
    totalTurnaround w r ≤ totalTurnaround w r' := by
  obtain ⟨feasible, completions⟩ :=
    Sim.simRun_feasible (simOf_builtIn admitted j sim) one single run'
  rw [simOf_withPolicy srtf i] at run
  have least := Sim.srtf_completions_le
    (S := simOf build opt w i { sim with predict := .oracle }) single one free rfl run feasible
  rw [totalTurnaround, totalTurnaround, Finset.sum_sub_distrib, Finset.sum_sub_distrib]
  exact sub_le_sub_right (least.trans_eq
    (Finset.sum_congr rfl fun p hp => completions p (Finset.mem_range.mp hp))) _

/-- Every report that `run` makes is of this kind, as long as the arithmetic can add up the
turnaround times. -/
theorem runReport_ok {opt : Options Binary64} (admitted : opt.params.Admitted)
    (fits : w.len * workloadHorizon w ≤ 2 ^ 53) {report : Report Binary64}
    (ran : runReport build opt w = .ok report) : ReportOk build opt w report := by
  obtain ⟨results, selected, ran⟩ := exceptBind_ok_iff.mp ran
  obtain ⟨best, measured, ran⟩ := exceptBind_ok_iff.mp ran
  obtain ⟨items, filled, ran⟩ := exceptBind_ok_iff.mp ran
  obtain rfl := Except.ok.inj ran
  obtain ⟨policies, runs⟩ := runSelected_ok selected
  obtain ⟨hasGap, optimum⟩ := optimum_ok measured
  obtain ⟨same, filled⟩ := filled_items (fillItems_ok filled)
  have ran : ∀ item ∈ items, (simOf build opt w item.policy opt.sim).simRun = .ok item.sim := by
    intro item mem
    obtain ⟨result, mem', here⟩ := filled item mem
    rw [here.policy, here.sim]
    exact runs result mem'
  -- what the gap of an item compares
  have gap : ∀ item ∈ items, ∀ x ∈ item.gapPct, ∃ i o,
      policyAt (D := Binary64) i = policyOptNp (fun _ => true) ∧
        (simOf build opt w i opt.sim).simRun = .ok o ∧ opt.sim.cores = 1 ∧ opt.sim.csCost = 0 ∧
        (∀ p < w.len, (w.proc p).phaseCount = 1) ∧
        x = pctOver (meanTurnaround w item.sim) (meanTurnaround w o) := by
    intro item mem x gap
    obtain ⟨result, -, here⟩ := filled item mem
    rw [here.gapPct] at gap
    obtain ⟨y, best_eq, rfl⟩ := Option.map_eq_some_iff.mp gap
    obtain ⟨i, o, optNp, run, rfl⟩ := optimum y best_eq
    have run' := run
    rw [simOf_withPolicy optNp i] at run'
    obtain ⟨state, started⟩ := Sim.started_of_ok run'
    obtain ⟨one, free, single⟩ := Sim.optNp_accepts (S := simOf build opt w i opt.sim) started
    exact ⟨i, o, optNp, run, one, free, single, rfl⟩
  have timed {i : Fin policyCount} {r : SimResult} {sim : SimOptions Binary64}
      (free : sim.csCost = 0) (run : (simOf build opt w i sim).simRun = .ok r) : Timed w r :=
    simRun_timed (simOf_builtIn admitted i sim) free fits run
  constructor
  case policies => exact same.trans policies
  case ran => exact ran
  case summary =>
    intro item mem
    obtain ⟨result, -, here⟩ := filled item mem
    exact here.summary
  case hasGap =>
    intro item mem
    obtain ⟨result, -, here⟩ := filled item mem
    rw [here.gapPct, Option.isSome_map, hasGap]
  case gap_nonneg =>
    intro item mem x isGap nonPreemptive
    obtain ⟨i, o, optNp, run, one, free, single, rfl⟩ := gap item mem x isGap
    have best := run
    rw [simOf_withPolicy optNp item.policy] at best
    have le := (Sim.optNp_between (S := simOf build opt w item.policy opt.sim) admitted best).2
      item.sim (simOf_builtIn admitted _ _) nonPreemptive (ran item mem)
    exact (timed free (ran item mem)).pctOver_nonneg (timed free run) le
  case gap_optNp =>
    intro item mem x isGap named
    obtain ⟨i, o, optNp, run, -, free, -, rfl⟩ := gap item mem x isGap
    have here := ran item mem
    rw [simOf_withPolicy (policyAt_optNp named) i] at here
    rw [simOf_withPolicy optNp i] at run
    obtain rfl := Sim.RunResult.ok.inj (here.symm.trans run)
    exact (timed free (ran item mem)).pctOver_self
  case gap_srtf =>
    intro oracle item mem x isGap named
    obtain ⟨i, o, optNp, run, one, free, single, rfl⟩ := gap item mem x isGap
    have exact_ : { opt.sim with predict := .oracle } = opt.sim := by rw [← oracle]
    have here := ran item mem
    have shortest {j : Fin policyCount} {r : SimResult}
        (run' : (simOf build opt w j opt.sim).simRun = .ok r) :=
      srtf_totalTurnaround_le admitted (policyAt_srtf named) one free single (exact_ ▸ here) run'
    have best := timed free run
    refine ⟨(timed free here).pctOver_nonpos best (shortest run), fun item' mem' x' isGap' => ?_⟩
    obtain ⟨i', o', optNp', run', -, -, -, rfl⟩ := gap item' mem' x' isGap'
    rw [simOf_withPolicy optNp' i] at run'
    rw [simOf_withPolicy optNp i] at run
    obtain rfl := Sim.RunResult.ok.inj (run.symm.trans run')
    have there := ran item' mem'
    exact (timed free here).pctOver_le (timed free there) best (shortest there)
  case hasRegret =>
    intro item mem
    obtain ⟨result, -, here⟩ := filled item mem
    exact (regretOf_ok here.regretPct).1
  case regret_srtf =>
    intro item mem x isRegret named one free single
    obtain ⟨result, -, here⟩ := filled item mem
    obtain ⟨base, run, rfl⟩ := (regretOf_ok here.regretPct).2 x isRegret
    have le := srtf_totalTurnaround_le admitted (policyAt_srtf named) one free single run
      (ran item mem)
    have oracle : ({ opt.sim with predict := .oracle } : SimOptions Binary64).csCost = 0 := free
    exact (timed free (ran item mem)).pctOver_nonneg (timed oracle run) le

end Gaps

/-! ## The whole command -/

section Command

variable {D : Type} [Double D]

/-- Accepted options are admitted. -/
theorem parseOptions_admitted {strtod : CString → Strtod D} {args : List CString} {opt : Options D}
    (accepted : parseOptions strtod args = .ok opt) : opt.params.Admitted := by
  obtain ⟨read, parsed, finished⟩ := exceptBind_ok_iff.mp accepted
  obtain ⟨mid, ok, -, ⟨-, -, rfl⟩ | ⟨-, rfl⟩⟩ := finishMlfq_ok (.parseArgs .default parsed) finished
  · exact { ok with
      quanta_pos := fun l _ => ok.quanta_pos l
      allotment_pos := fun l _ => ok.allotment_pos l }
  · exact { ok with
      quanta_pos := fun l _ => ok.quanta_pos l
      allotment_pos := fun l _ => ok.quanta_pos l }

/-- A run of a built-in policy ends, and a release build does not stop at an assertion. -/
theorem Sim.simRun_ends {S : Sim D} (builtIn : Sim.BuiltIn S) : S.simRun ≠ .diverged ∧
    (S.build = .release → S.simRun ≠ .aborted) := by
  have started {state : S.policy.State} (started : Sim.Started S state) :
      S.simRun ≠ .diverged ∧ (S.build = .release → S.simRun ≠ .aborted) := by
    obtain ⟨PInv, launched⟩ := started.launched builtIn
    rcases launched.simRun_cases started with ⟨e, -, -, run⟩ | ⟨run, debug, -⟩
    · rw [run, Sim.finish]
      split_ifs <;> simp
    · rw [run, debug]
      simp
  cases validated : workloadValidate S.w with
  | error err => simp [Sim.simRun, validated]
  | ok _ =>
      cases options : S.checkOptions with
      | error err => simp [Sim.simRun, validated, options]
      | ok _ =>
          cases created : S.policy.create S.initView S.params with
          | error err => simp [Sim.simRun, validated, options, created]
          | ok state => exact started ⟨validated, options, created⟩

/-- It ends, and a release build does not stop at an assertion. -/
def Ends {α : Type} (build : Build) (x : Except RunStop α) : Prop :=
  x ≠ .error .diverged ∧ (build = .release → x ≠ .error .aborted)

theorem Ends.ok {α : Type} {build : Build} (a : α) : Ends build (.ok a) :=
  ⟨fun h => (by cases h), fun _ h => (by cases h)⟩

theorem Ends.bind {α β : Type} {build : Build} {x : Except RunStop α} {f : α → Except RunStop β}
    (first : Ends build x) (rest : ∀ a, x = .ok a → Ends build (f a)) : Ends build (x >>= f) := by
  cases x with
  | ok a => exact rest a rfl
  | error stop =>
      refine ⟨fun h => first.1 ?_, fun release h => first.2 release ?_⟩
      · rw [Except.error.inj h]
      · rw [Except.error.inj h]

theorem ends_stopOf {α : Type} {build : Build} (x : Except SchedError α) :
    Ends build (stopOf x) := by
  cases x with
  | ok a => exact .ok a
  | error err =>
      refine ⟨fun h => ?_, fun _ h => ?_⟩
      · cases h
      · cases h

variable {build : Build} {opt : Options D} {w : Workload}

theorem ends_outcome (admitted : opt.params.Admitted) (i : Fin policyCount) (sim : SimOptions D) :
    Ends build (simOf build opt w i sim).simRun.outcome := by
  have builtIn : Sim.BuiltIn (simOf build opt w i sim) := simOf_builtIn admitted i sim
  have ends := Sim.simRun_ends builtIn
  cases run : (simOf build opt w i sim).simRun with
  | ok r => exact .ok r
  | error err =>
      refine ⟨fun h => ?_, fun _ h => ?_⟩
      · cases h
      · cases h
  | aborted => exact ⟨fun h => (by cases h), fun release => absurd run (ends.2 release)⟩
  | diverged => exact absurd run ends.1

theorem ends_runSelected (admitted : opt.params.Admitted) (policies : List (Fin policyCount)) :
    Ends build (runSelected build opt w policies) := by
  induction policies with
  | nil => exact .ok []
  | cons i rest ih =>
      rw [runSelected]
      split_ifs
      · exact (ends_outcome admitted i opt.sim).bind fun r _ => ih.bind fun results _ => .ok _
      · exact ih

theorem ends_optimum (admitted : opt.params.Admitted) : Ends build (optimum build opt w) := by
  rw [optimum]
  split_ifs
  · cases found : policyFind D "opt-np" with
    | none =>
        -- the table has this name
        have absent := List.find?_eq_none.mp found 11 (List.mem_finRange _)
        simp [policyAt_name, policyNames] at absent
    | some i => exact (ends_outcome admitted i opt.sim).bind fun best _ => .ok _
  · exact .ok none

theorem ends_regretOf (admitted : opt.params.Admitted) (i : Fin policyCount) (r : SimResult) :
    Ends build (regretOf build opt w i r) := by
  rw [regretOf]
  split_ifs
  · have measured : Ends build (regret build opt w i r) :=
      (ends_outcome admitted i _).bind fun base _ => .ok _
    exact measured.bind fun x _ => .ok (some x)
  · exact .ok none

theorem ends_fillItems (admitted : opt.params.Admitted) (best : Option D)
    (results : List (Fin policyCount × SimResult)) :
    Ends build (fillItems build opt w best results) := by
  induction results with
  | nil => exact .ok []
  | cons result rest ih =>
      obtain ⟨i, r⟩ := result
      rw [fillItems]
      exact (ends_regretOf admitted i r).bind fun regretPct _ => ih.bind fun items _ => .ok _

/-- The command ends on every command line and every input, and a release build does not stop
at an assertion. -/
theorem sched_main_ends (build : Build) (strtod : CString → Strtod D) (args : List CString)
    (file : CString → Option (List UInt8)) (stdin : List UInt8) :
    schedMain build strtod args file stdin ≠ .error .diverged ∧
      (build = .release → schedMain build strtod args file stdin ≠ .error .aborted) := by
  refine Ends.bind (ends_stopOf _) fun opt accepted => ?_
  have admitted : opt.params.Admitted := by
    cases parsed : parseOptions strtod args with
    | error err => simp [parsed, stopOf] at accepted
    | ok opt' =>
        obtain rfl : opt' = opt := by simpa [parsed, stopOf] using accepted
        exact parseOptions_admitted parsed
  split_ifs
  · exact .ok none
  · refine Ends.bind (ends_stopOf _) fun w _ => Ends.bind ?_ fun report _ => .ok _
    exact (ends_runSelected admitted _).bind fun results _ =>
      (ends_optimum admitted).bind fun best _ =>
        (ends_fillItems admitted best results).bind fun items _ => .ok _

theorem stopOf_ok_iff {α : Type} {x : Except SchedError α} {a : α} :
    stopOf x = .ok a ↔ x = .ok a := by
  cases x <;> simp [stopOf]

omit [Double D] in
/-- What is loaded has been checked. -/
theorem loadWorkload_valid {file : CString → Option (List UInt8)} {stdin : List UInt8}
    (loaded : loadWorkload opt file stdin = .ok w) : w.Valid := by
  obtain ⟨w', read, checked⟩ := exceptBind_ok_iff.mp loaded
  obtain ⟨⟨⟩, validated, ends⟩ := exceptBind_ok_iff.mp checked
  obtain rfl := Except.ok.inj ends
  exact workloadValidate_ok validated

/-- Whatever the command line and the input, a report comes from options and a workload that
passed their checks, and says the truth about the runs of the selected policies, as long as
the arithmetic can add up the turnaround times. -/
theorem sched_main_reports (build : Build) (strtod : CString → Strtod Binary64)
    (args : List CString) (file : CString → Option (List UInt8)) (stdin : List UInt8)
    {opt : Options Binary64} {report : Report Binary64}
    (ran : schedMain build strtod args file stdin = .ok (some (opt, report)))
    (fits : report.workload.len * workloadHorizon report.workload ≤ 2 ^ 53) :
    parseOptions strtod args = .ok opt ∧ opt.params.Admitted ∧
      loadWorkload opt file stdin = .ok report.workload ∧ report.workload.Valid ∧
      ReportOk build opt report.workload report := by
  obtain ⟨opt', accepted, ran⟩ := exceptBind_ok_iff.mp ran
  have accepted := stopOf_ok_iff.mp accepted
  have admitted := parseOptions_admitted accepted
  by_cases help : opt'.help = true
  · rw [if_pos help] at ran
    cases ran
  rw [if_neg help] at ran
  obtain ⟨w, loaded, ran⟩ := exceptBind_ok_iff.mp ran
  have loaded := stopOf_ok_iff.mp loaded
  obtain ⟨report', made, ran⟩ := exceptBind_ok_iff.mp ran
  cases ran
  have same : report.workload = w := by
    obtain ⟨results, -, made⟩ := exceptBind_ok_iff.mp made
    obtain ⟨best, -, made⟩ := exceptBind_ok_iff.mp made
    obtain ⟨items, -, made⟩ := exceptBind_ok_iff.mp made
    rw [← Except.ok.inj made]
  subst same
  exact ⟨accepted, admitted, loaded, loadWorkload_valid loaded, runReport_ok admitted fits made⟩

end Command

/-! ## Two commands -/

section Convoy

/-- What a run returns that ends after so many rounds. -/
def Sim.resultAfter {D : Type} [Double D] (S : Sim D) (pending : List ArrivalKey) (rounds : Nat) :
    Option SimResult :=
  (S.policy.create S.initView S.params).toOption.bind fun state =>
    (S.settledAfter state pending rounds).bind fun e =>
      let last := (List.range S.opt.cores).foldl S.appendTrailing e
      if S.running e = false ∧ last.fail = .ok then
        some { S.result last with firstArrival := (pending.head?.map ArrivalKey.arrival).getD 0 }
      else none

theorem Sim.simRun_resultAfter {D : Type} [Double D] {S : Sim D} {pending : List ArrivalKey}
    {rounds : Nat} {r : SimResult} (validated : workloadValidate S.w = .ok ())
    (options : S.checkOptions = .ok ()) (order : S.order = pending) (few : rounds < 2 ^ 63)
    (run : S.resultAfter pending rounds = some r) : S.simRun = .ok r := by
  obtain ⟨state, created, run⟩ := Option.bind_eq_some_iff.mp run
  obtain ⟨e, settled, run⟩ := Option.bind_eq_some_iff.mp run
  dsimp only at run
  split_ifs at run with ended
  have started : Sim.Started S state := ⟨validated, options, eq_ok_of_toOption created⟩
  rw [started.simRun_settledAfter order few settled ended.1 ended.2, ← Option.some.inj run]
  subst order
  have first : S.firstArrival = (S.order.head?.map ArrivalKey.arrival).getD 0 := by
    rw [Sim.firstArrival]
    cases S.order <;> rfl
  rw [← first]
  rfl

/-- An option with a number that is accepted. -/
theorem doubleFlag_accepts {D : Type} [Double D] {strtod : CString → Strtod D}
    {name expected : String} {accepts : D → Bool} {put : D → Options D → Options D} {v : CString}
    {opt : Options D}
    (read : (v.isEmpty = false ∧ (strtod v).failed = false) ∧
      (strtod v).rest.isEmpty = true ∧ Double.isFinite (strtod v).value = true)
    (accepted : accepts (strtod v).value = true) :
    (doubleFlag strtod name expected accepts put).set v opt = .ok (put (strtod v).value opt) := by
  obtain ⟨⟨nonempty, works⟩, whole, finite⟩ := read
  have value : parseDouble strtod v = some (strtod v).value := by
    rw [parseDouble, if_neg (by simpa using nonempty)]
    exact if_pos ⟨works, by simpa using whole, finite⟩
  simp only [doubleFlag, value, Option.filter_some, accepted, if_true]

section Selected

variable {D : Type} [Double D] {build : Build} {opt : Options D} {w : Workload}
  {i : Fin policyCount} {rest : List (Fin policyCount)}
  {results : List (Fin policyCount × SimResult)}

theorem runSelected_cons {r : SimResult} (chosen : opt.selected i = true)
    (run : (simOf build opt w i opt.sim).simRun = .ok r)
    (others : runSelected build opt w rest = .ok results) :
    runSelected build opt w (i :: rest) = .ok ((i, r) :: results) := by
  rw [runSelected, if_pos chosen, run, others]
  rfl

theorem runSelected_skip (off : opt.selected i = false)
    (others : runSelected build opt w rest = .ok results) :
    runSelected build opt w (i :: rest) = .ok results := by
  rw [runSelected, if_neg (by rw [off]; decide), others]

theorem runSelected_none (off : ∀ j ∈ rest, opt.selected j = false) :
    runSelected build opt w rest = .ok [] := by
  induction rest with
  | nil => rfl
  | cons j rest ih =>
      rw [List.forall_mem_cons] at off
      exact runSelected_skip off.1 (ih off.2)

end Selected

/-- The digits at the start of a text. -/
def leadingDigits (s : CString) : CString := s.takeWhile fun b => 48 ≤ b ∧ b ≤ 57

/-- `strtod` on digits with an optional point between them. -/
def pointStrtod (s : CString) : Strtod Binary64 :=
  let whole := leadingDigits s
  let rest := s.drop whole.length
  let part := if rest.head? = some 46 then leadingDigits (rest.drop 1) else []
  let rest := if rest.head? = some 46 then rest.drop (part.length + 1) else rest
  let value : Nat := (whole ++ part).foldl (fun n b => 10 * n + (b.toNat - 48)) 0
  ⟨Binary64.ofDecimal false (value / (10 : ℚ) ^ part.length), false, rest⟩

/-- A long process before two short ones, on standard input. -/
def convoyInput : List UInt8 := cstr "3\n1 0 5\n2 1 1\n3 2 2\n"

/-- What is read. -/
def convoyWorkload : Workload := ⟨[processMake 1 0 5, processMake 2 1 1, processMake 3 2 2]⟩

theorem convoyInput_read : readWorkloadInteractive convoyInput ⟨[]⟩ = .ok convoyWorkload := rfl

theorem convoyWorkload_valid : convoyWorkload.Valid where
  nonempty := by decide
  procs p mem := by
    simp only [convoyWorkload, List.mem_cons, List.not_mem_nil, or_false] at mem
    rcases mem with rfl | rfl | rfl
    · constructor <;> decide
    · constructor <;> decide
    · constructor <;> decide
  pids_nodup := by decide
  horizon_le := by decide

/-- The arrivals. -/
def convoyOrder : List ArrivalKey := [⟨0, 1, 0⟩, ⟨1, 2, 1⟩, ⟨2, 3, 2⟩]

/-- FCFS and SRTF with their gaps. -/
def convoyArgs : List CString := [cstr "--algo=fcfs,srtf", cstr "--gap"]

/-- What the arguments leave in the options. -/
def convoyOptions : Options Binary64 :=
  { defaultOptions with
    selected := Function.update (Function.update (fun _ => false) 0 true) 2 true
    gap := true }

theorem convoyArgs_parsed : parseOptions pointStrtod convoyArgs = .ok convoyOptions := rfl

/-- The same with prediction, as JSON. -/
def guessedArgs : List CString :=
  [cstr "--algo=fcfs,srtf", cstr "--gap", cstr "--predict=ewma", cstr "--alpha=0.25",
    cstr "--format=json"]

/-- What these arguments leave in the options. -/
def guessedOptions : Options Binary64 :=
  { convoyOptions with
    sim := { convoyOptions.sim with
      predict := .ewma
      alpha := (pointStrtod (cstr "0.25")).value }
    format := .json }

theorem quarter_read :
    ((cstr "0.25").isEmpty = false ∧ (pointStrtod (cstr "0.25")).failed = false) ∧
      (pointStrtod (cstr "0.25")).rest.isEmpty = true ∧
      Double.isFinite (pointStrtod (cstr "0.25")).value = true := by
  decide +kernel

theorem quarter_accepted : (!Double.lt (pointStrtod (cstr "0.25")).value (Double.ofInt 0) &&
    !Double.lt (Double.ofInt 1) (pointStrtod (cstr "0.25")).value) = true := by
  decide +kernel

theorem alpha_parsed (opt : Options Binary64) :
    parseOption pointStrtod opt (cstr "--alpha=0.25") =
      .ok { opt with sim.alpha := (pointStrtod (cstr "0.25")).value } :=
  doubleFlag_accepts quarter_read quarter_accepted

theorem guessedArgs_parsed : parseOptions pointStrtod guessedArgs = .ok guessedOptions :=
  exceptBind_ok_iff.mpr ⟨guessedOptions, exceptBind_ok_iff.mpr ⟨_, rfl,
    exceptBind_ok_iff.mpr ⟨_, rfl, exceptBind_ok_iff.mpr ⟨_, rfl,
    exceptBind_ok_iff.mpr ⟨_, alpha_parsed _, exceptBind_ok_iff.mpr ⟨_, rfl, rfl⟩⟩⟩⟩⟩, rfl⟩

/-- The run of a policy of the table on the three processes. -/
abbrev convoyRun (opt : Options Binary64) (i : Fin policyCount) : Sim Binary64 :=
  simOf .release opt convoyWorkload i opt.sim

theorem convoyRun_order (opt : Options Binary64) (i : Fin policyCount) :
    (convoyRun opt i).order = convoyOrder := by
  have sorted : (convoyRun convoyOptions 0).order = convoyOrder :=
    List.mergeSort_of_pairwise (by decide)
  exact (show (convoyRun opt i).order = (convoyRun convoyOptions 0).order from rfl).trans sorted

/-- How a run of theirs succeeds. -/
theorem convoyRun_succeeds {opt : Options Binary64} {i : Fin policyCount} {rounds : Nat}
    {r : SimResult} (options : (convoyRun opt i).checkOptions = .ok ()) (few : rounds < 2 ^ 63)
    (run : (convoyRun opt i).resultAfter convoyOrder rounds = some r) :
    (convoyRun opt i).simRun = .ok r :=
  Sim.simRun_resultAfter convoyWorkload_valid.validates options (convoyRun_order opt i) few run

/-- The report on runs of FCFS, SRTF and opt-np and a regret of SRTF. -/
def convoyReport (opt : Options Binary64) (fcfs srtf best : SimResult)
    (regretPct : Option Binary64) : Report Binary64 where
  workload := convoyWorkload
  optimumMeanTurnaround := some (meanTurnaround convoyWorkload best)
  prediction :=
    if opt.sim.predict = .ewma then
      some (metricsPredictionError convoyWorkload opt.sim.alpha opt.sim.tau0)
    else none
  items :=
    [{ policy := 0
       sim := fcfs
       gapPct := some (pctOver (meanTurnaround convoyWorkload fcfs)
         (meanTurnaround convoyWorkload best))
       regretPct := none
       summary := metricsSummary convoyWorkload fcfs },
     { policy := 2
       sim := srtf
       gapPct := some (pctOver (meanTurnaround convoyWorkload srtf)
         (meanTurnaround convoyWorkload best))
       regretPct
       summary := metricsSummary convoyWorkload srtf }]

/-- How the command gets there. -/
theorem convoyReport_made {args : List CString} {opt : Options Binary64}
    (parsed : parseOptions pointStrtod args = .ok opt)
    (chosen : opt.selected = convoyOptions.selected) (gap : opt.gap = true)
    (plain : opt.inputPath = none ∧ opt.help = false)
    {fcfs srtf best : SimResult} {regretPct : Option Binary64}
    (fcfsRun : (convoyRun opt 0).simRun = .ok fcfs) (srtfRun : (convoyRun opt 2).simRun = .ok srtf)
    (bestRun : (convoyRun opt 11).simRun = .ok best)
    (measured : regretOf .release opt convoyWorkload 2 srtf = .ok regretPct) :
    schedMain .release pointStrtod args (fun _ => none) convoyInput =
      .ok (some (opt, convoyReport opt fcfs srtf best regretPct)) := by
  have loaded : loadWorkload opt (fun _ => none) convoyInput = .ok convoyWorkload := by
    rw [loadWorkload, readInput, plain.1]
    exact exceptBind_ok_iff.mpr ⟨_, convoyInput_read,
      exceptBind_ok_iff.mpr ⟨(), convoyWorkload_valid.validates, rfl⟩⟩
  have selected : runSelected .release opt convoyWorkload (List.finRange policyCount) =
      .ok [(0, fcfs), (2, srtf)] := by
    have all : List.finRange policyCount = [0, 1, 2, 3, 4, 5, 6, 7, 8, 9, 10, 11] := by decide
    rw [all]
    refine runSelected_cons (by rw [chosen]; rfl) fcfsRun ?_
    refine runSelected_skip (by rw [chosen]; rfl) ?_
    refine runSelected_cons (by rw [chosen]; rfl) srtfRun (runSelected_none ?_)
    rw [chosen]
    decide
  have optimum_ : optimum .release opt convoyWorkload =
      .ok (some (meanTurnaround convoyWorkload best)) := by
    have found : policyFind Binary64 "opt-np" = some 11 := rfl
    rw [optimum, if_pos gap, found]
    simp only [bestRun]
    rfl
  have regretless : regretOf .release opt convoyWorkload 0 fcfs = .ok none :=
    if_neg fun uses => absurd uses.2 (by decide)
  have filled : fillItems .release opt convoyWorkload (some (meanTurnaround convoyWorkload best))
      [(0, fcfs), (2, srtf)] = .ok (convoyReport opt fcfs srtf best regretPct).items :=
    exceptBind_ok_iff.mpr ⟨none, regretless, exceptBind_ok_iff.mpr ⟨_,
      exceptBind_ok_iff.mpr ⟨regretPct, measured, rfl⟩, rfl⟩⟩
  have made : runReport .release opt convoyWorkload =
      .ok (convoyReport opt fcfs srtf best regretPct) :=
    exceptBind_ok_iff.mpr ⟨_, selected, exceptBind_ok_iff.mpr ⟨_, optimum_,
      exceptBind_ok_iff.mpr ⟨_, filled, rfl⟩⟩⟩
  refine exceptBind_ok_iff.mpr ⟨opt, stopOf_ok_iff.mpr parsed, ?_⟩
  rw [if_neg (by rw [plain.2]; decide)]
  exact exceptBind_ok_iff.mpr ⟨_, stopOf_ok_iff.mpr loaded, exceptBind_ok_iff.mpr ⟨_, made, rfl⟩⟩

theorem convoyGaps_seen : (((convoyRun convoyOptions 0).resultAfter convoyOrder 5).bind fun fcfs =>
    ((convoyRun convoyOptions 2).resultAfter convoyOrder 4).bind fun srtf =>
    ((convoyRun convoyOptions 11).resultAfter convoyOrder 4).map fun best =>
      (Double.lt (Double.ofInt (D := Binary64) 0) (pctOver (meanTurnaround convoyWorkload fcfs)
          (meanTurnaround convoyWorkload best)),
        Double.lt (pctOver (meanTurnaround convoyWorkload srtf)
          (meanTurnaround convoyWorkload best)) (Double.ofInt (D := Binary64) 0))) =
      some (true, true) := by
  decide +kernel

/-- The command without prediction. -/
theorem convoyMain_succeeds : ∃ fcfs srtf best,
    schedMain .release pointStrtod convoyArgs (fun _ => none) convoyInput =
      .ok (some (convoyOptions, convoyReport convoyOptions fcfs srtf best none)) ∧
    Double.lt (Double.ofInt (D := Binary64) 0) (pctOver (meanTurnaround convoyWorkload fcfs)
      (meanTurnaround convoyWorkload best)) = true ∧
    Double.lt (pctOver (meanTurnaround convoyWorkload srtf) (meanTurnaround convoyWorkload best))
      (Double.ofInt (D := Binary64) 0) = true := by
  obtain ⟨fcfs, fcfsRun, seen⟩ := Option.bind_eq_some_iff.mp convoyGaps_seen
  obtain ⟨srtf, srtfRun, seen⟩ := Option.bind_eq_some_iff.mp seen
  obtain ⟨best, bestRun, seen⟩ := Option.map_eq_some_iff.mp seen
  obtain ⟨above, below⟩ := Prod.mk.inj seen
  exact ⟨fcfs, srtf, best, convoyReport_made convoyArgs_parsed rfl rfl ⟨rfl, rfl⟩
    (convoyRun_succeeds rfl (by decide) fcfsRun) (convoyRun_succeeds rfl (by decide) srtfRun)
    (convoyRun_succeeds rfl (by decide) bestRun) rfl, above, below⟩

/-- The same options with the exact bursts. -/
abbrev exactOptions : Options Binary64 :=
  { guessedOptions with sim := { guessedOptions.sim with predict := .oracle } }

/-- What is computed of the runs of the command with prediction: FCFS, SRTF, opt-np and SRTF
with the exact bursts. -/
def guessedSeen (see : SimResult → SimResult → SimResult → SimResult → Bool) : Option Bool :=
  ((convoyRun guessedOptions 0).resultAfter convoyOrder 5).bind fun fcfs =>
    ((convoyRun guessedOptions 2).resultAfter convoyOrder 5).bind fun srtf =>
      ((convoyRun guessedOptions 11).resultAfter convoyOrder 4).bind fun best =>
        ((convoyRun exactOptions 2).resultAfter convoyOrder 4).map (see fcfs srtf best)

/-- The report of this command. -/
def guessedReport (fcfs srtf best base : SimResult) : Report Binary64 :=
  convoyReport guessedOptions fcfs srtf best
    (some (pctOver (meanTurnaround convoyWorkload srtf) (meanTurnaround convoyWorkload base)))

theorem guessedOptions_checked :
    ∀ i : Fin policyCount, (convoyRun guessedOptions i).checkOptions.toOption = some () := by
  decide +kernel

theorem guessedMain_succeeds {see : SimResult → SimResult → SimResult → SimResult → Bool}
    (seen : guessedSeen see = some true) : ∃ fcfs srtf best base,
      schedMain .release pointStrtod guessedArgs (fun _ => none) convoyInput =
        .ok (some (guessedOptions, guessedReport fcfs srtf best base)) ∧
      see fcfs srtf best base = true := by
  obtain ⟨fcfs, fcfsRun, seen⟩ := Option.bind_eq_some_iff.mp seen
  obtain ⟨srtf, srtfRun, seen⟩ := Option.bind_eq_some_iff.mp seen
  obtain ⟨best, bestRun, seen⟩ := Option.bind_eq_some_iff.mp seen
  obtain ⟨base, baseRun, seen⟩ := Option.map_eq_some_iff.mp seen
  have exact_ : (convoyRun exactOptions 2).simRun = .ok base :=
    convoyRun_succeeds rfl (by decide) baseRun
  have measured : regretOf .release guessedOptions convoyWorkload 2 srtf =
      .ok (some (pctOver (meanTurnaround convoyWorkload srtf)
        (meanTurnaround convoyWorkload base))) := by
    have found : regret .release guessedOptions convoyWorkload 2 srtf = .ok _ :=
      exceptBind_ok_iff.mpr ⟨base, Sim.RunResult.outcome_ok_iff.mpr exact_, rfl⟩
    rw [regretOf, if_pos ⟨rfl, rfl⟩, found]
    rfl
  have checked (i : Fin policyCount) := eq_ok_of_toOption (guessedOptions_checked i)
  exact ⟨fcfs, srtf, best, base, convoyReport_made guessedArgs_parsed rfl rfl ⟨rfl, rfl⟩
    (convoyRun_succeeds (checked 0) (by decide) fcfsRun)
    (convoyRun_succeeds (checked 2) (by decide) srtfRun)
    (convoyRun_succeeds (checked 11) (by decide) bestRun) measured, seen⟩

theorem convoyWorkload_small :
    (convoyWorkload.len : Int) * workloadHorizon convoyWorkload ≤ 2 ^ 53 := by decide

theorem guessedRegret_seen : guessedSeen (fun _ srtf _ base =>
    Double.lt (Double.ofInt (D := Binary64) 0) (pctOver (meanTurnaround convoyWorkload srtf)
      (meanTurnaround convoyWorkload base))) = some true := by
  decide +kernel

/-- FCFS is above the optimum and SRTF below it; with estimates SRTF is longer than with the
exact bursts. -/
theorem sched_main_reports_convoy :
    (∃ report fcfs srtf, schedMain .release pointStrtod convoyArgs (fun _ => none) convoyInput =
        .ok (some (convoyOptions, report)) ∧
      ReportOk .release convoyOptions convoyWorkload report ∧
      report.items.map ReportItem.gapPct = [some fcfs, some srtf] ∧
      Double.lt (Double.ofInt 0) fcfs = true ∧ Double.lt srtf (Double.ofInt 0) = true) ∧
    ∃ report regret, schedMain .release pointStrtod guessedArgs (fun _ => none) convoyInput =
        .ok (some (guessedOptions, report)) ∧
      ReportOk .release guessedOptions convoyWorkload report ∧
      report.items.map ReportItem.regretPct = [none, some regret] ∧
      Double.lt (Double.ofInt 0) regret = true := by
  constructor
  · obtain ⟨fcfs, srtf, best, ran, above, below⟩ := convoyMain_succeeds
    have reported := sched_main_reports .release pointStrtod convoyArgs (fun _ => none) convoyInput
      ran convoyWorkload_small
    exact ⟨_, _, _, ran, reported.2.2.2.2, rfl, above, below⟩
  · obtain ⟨fcfs, srtf, best, base, ran, above⟩ := guessedMain_succeeds guessedRegret_seen
    have reported := sched_main_reports .release pointStrtod guessedArgs (fun _ => none) convoyInput
      ran convoyWorkload_small
    exact ⟨_, _, ran, reported.2.2.2.2, rfl, above⟩

end Convoy

end CpuSched
