import CpuSched.Engine.Core

/-!
# Metrics of one process

`metrics_for` and `metrics_makespan` of `src/metrics/metrics.c`, which read the
result of a run.
-/

namespace CpuSched

/-- `ProcMetrics`. -/
structure ProcMetrics (D : Type) where
  pid : Int
  arrival : Int
  burst : Int
  io : Int
  start : Int
  completion : Int
  response : Int
  turnaround : Int
  waiting : Int
  slowdown : D

/-- `metrics_for`. -/
def metricsFor {D : Type} [Double D] (w : Workload) (r : SimResult) (proc : Nat) : ProcMetrics D :=
  let p := w.proc proc
  let o := r.outcomes proc
  let turnaround := o.completion - p.arrival
  { pid := p.pid
    arrival := p.arrival
    burst := p.burst
    io := p.io
    start := o.start
    completion := o.completion
    response := o.start - p.arrival
    turnaround
    waiting := turnaround - p.burst - p.io
    slowdown := Double.div (Double.ofInt turnaround) (Double.ofInt p.burst) }

/-- `metrics_makespan`. -/
def metricsMakespan (w : Workload) (r : SimResult) : Int :=
  (List.range w.len).foldl (fun makespan i =>
    if makespan < (r.outcomes i).completion then (r.outcomes i).completion else makespan) 0

/-- The makespan is the latest completion. -/
theorem metricsMakespan_eq {w : Workload} {r : SimResult} {t : Int} (nonneg : 0 ≤ t)
    (reached : ∃ p < w.len, (r.outcomes p).completion = t)
    (bound : ∀ p < w.len, (r.outcomes p).completion ≤ t) : metricsMakespan w r = t := by
  have fold : ∀ (ps : List Nat) (m : Int), m ≤ t → (∀ p ∈ ps, (r.outcomes p).completion ≤ t) →
      (m = t ∨ ∃ p ∈ ps, (r.outcomes p).completion = t) →
      ps.foldl (fun makespan i => if makespan < (r.outcomes i).completion then
        (r.outcomes i).completion else makespan) m = t := by
    intro ps
    induction ps with
    | nil => exact fun m _ _ has => has.resolve_right (by simp)
    | cons p rest ih =>
        intro m le bound has
        have here := bound p List.mem_cons_self
        rw [List.foldl_cons]
        apply ih
        · split_ifs <;> omega
        · exact fun q hq => bound q (List.mem_cons_of_mem _ hq)
        · rcases has with rfl | ⟨q, hq, eq⟩
          · left
            split_ifs <;> omega
          · rcases List.mem_cons.mp hq with rfl | hq
            · left
              split_ifs <;> omega
            · exact .inr ⟨q, hq, eq⟩
  obtain ⟨p, hp, eq⟩ := reached
  exact fold _ 0 nonneg (fun q hq => bound q (List.mem_range.mp hq))
    (.inr ⟨p, List.mem_range.mpr hp, eq⟩)

/-! ## Prediction errors -/

/-- `alpha * actual + (1.0 - alpha) * tau`. -/
def ewmaUpdate {D : Type} [Double D] (alpha actual tau : D) : D :=
  Double.add (Double.mul alpha actual) (Double.mul (Double.sub (Double.ofInt 1) alpha) tau)

/-- `PredictionError`. -/
structure PredictionError (D : Type) where
  mae : D
  mape : D
  bursts : Nat

/-- The running sums of `metrics_prediction_error`. -/
structure ErrorSums (D : Type) where
  absSum : D
  pctSum : D
  bursts : Nat

/-- The error of one prediction joins the sums. -/
def ErrorSums.join {D : Type} [Double D] (sums : ErrorSums D) (actual tau : D) : ErrorSums D :=
  let err := if Double.lt actual tau then Double.sub tau actual else Double.sub actual tau
  { absSum := Double.add sums.absSum err
    pctSum := Double.add sums.pctSum (Double.div err actual)
    bursts := sums.bursts + 1 }

/-- The inner loop of `metrics_prediction_error` over the CPU phases of one process. -/
def burstErrors {D : Type} [Double D] (alpha : D) : List Int → D → ErrorSums D → ErrorSums D
  | [], _, sums => sums
  | [ph], tau, sums => sums.join (Double.ofInt ph) tau
  | ph :: _ :: rest, tau, sums =>
      burstErrors alpha rest (ewmaUpdate alpha (Double.ofInt ph) tau)
        (sums.join (Double.ofInt ph) tau)

/-- `metrics_prediction_error`. -/
def metricsPredictionError {D : Type} [Double D] (w : Workload) (alpha tau0 : D) :
    PredictionError D :=
  let sums := w.items.foldl (fun sums p => burstErrors alpha p.phases tau0 sums)
    ⟨Double.ofInt 0, Double.ofInt 0, 0⟩
  { mae := Double.div sums.absSum (Double.ofInt sums.bursts)
    mape := Double.div (Double.mul (Double.ofInt 100) sums.pctSum) (Double.ofInt sums.bursts)
    bursts := sums.bursts }

end CpuSched
