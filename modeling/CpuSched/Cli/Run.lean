import CpuSched.Cli.Options
import CpuSched.Io.Interactive
import CpuSched.Metrics.Summary

/-!
# Runs of the command

`load_workload`, `run` and `main` of `src/cli/main.c` up to the report that they write:
the workload is read and checked, every selected policy runs on it, and the gaps to the
optimum and the regrets of prediction are measured.  What the report looks like on the
output, the prompts and the timing are not modelled.
-/

namespace CpuSched

variable {D : Type} [Double D]

/-! ## The table of policies -/

/-- `policy_count`. -/
abbrev policyCount : Nat := 12

theorem length_policies : (policies (D := D)).length = policyCount := rfl

/-- `policy_at`, for the positions of the table. -/
def policyAt (i : Fin policyCount) : Policy D := policies.get (i.cast length_policies.symm)

/-- `policy_find`. -/
def policyFind (D : Type) [Double D] (name : String) : Option (Fin policyCount) :=
  (List.finRange policyCount).find? fun i => (policyAt (D := D) i).name = name

/-! ## The report -/

/-- How the command ends without a report. -/
inductive RunStop
  | failed (err : SchedError)
  | aborted
  | diverged

/-- `ReportItem`, with the position of the policy in the table for `sim->policy`. -/
structure ReportItem (D : Type) where
  policy : Fin policyCount
  sim : SimResult
  /-- `gap_pct`, if `has_gap`. -/
  gapPct : Option D
  /-- `regret_pct`, if `has_regret`. -/
  regretPct : Option D
  summary : Summary D

/-- `ReportRun` with the items that are written after it. -/
structure Report (D : Type) where
  workload : Workload
  /-- `optimum_mean_turnaround`, if `has_optimum`. -/
  optimumMeanTurnaround : Option D
  /-- `prediction`, if `has_prediction`. -/
  prediction : Option (PredictionError D)
  items : List (ReportItem D)

/-- An error of the library ends the command. -/
def stopOf {α : Type} : Except SchedError α → Except RunStop α
  | .ok a => .ok a
  | .error err => .error (.failed err)

/-- What `sim_run` returns. -/
def Sim.RunResult.outcome : Sim.RunResult → Except RunStop SimResult
  | .ok r => .ok r
  | .error err => .error (.failed err)
  | .aborted => .error .aborted
  | .diverged => .error .diverged

/-! ## `run` -/

section Run

variable (build : Build) (opt : Options D) (w : Workload)

/-- The simulation of a policy of the table. -/
def simOf (i : Fin policyCount) (sim : SimOptions D) : Sim D :=
  { build, w, policy := policyAt i, params := opt.params, opt := sim }

/-- `mean_turnaround`. -/
def meanTurnaround (r : SimResult) : D := (metricsAverages w r).turnaround

/-- `100.0 * (x - base) / base`. -/
def pctOver (x base : D) : D :=
  Double.div (Double.mul (Double.ofInt 100) (Double.sub x base)) base

/-- The loop of `run` over the table, from the policies that are left. -/
def runSelected : List (Fin policyCount) → Except RunStop (List (Fin policyCount × SimResult))
  | [] => .ok []
  | i :: rest =>
      if opt.selected i = true then do
        let r ← (simOf build opt w i opt.sim).simRun.outcome
        let results ← runSelected rest
        .ok ((i, r) :: results)
      else runSelected rest

/-- `regret`: the same policy with the oracle. -/
def regret (i : Fin policyCount) (r : SimResult) : Except RunStop D := do
  let base ← (simOf build opt w i { opt.sim with predict := .oracle }).simRun.outcome
  .ok (pctOver (meanTurnaround w r) (meanTurnaround w base))

/-- The regret of an item, which is measured under prediction for the policies that use it. -/
def regretOf (i : Fin policyCount) (r : SimResult) : Except RunStop (Option D) :=
  if opt.sim.predict = .ewma ∧ (policyAt (D := D) i).usesEstimates = true then
    (regret build opt w i r).map some
  else .ok none

/-- The mean turnaround time of opt-np, which the gaps are measured from. -/
def optimum : Except RunStop (Option D) :=
  if opt.gap = true then
    match policyFind D "opt-np" with
    | none => .error .aborted
    | some i => do
        let best ← (simOf build opt w i opt.sim).simRun.outcome
        .ok (some (meanTurnaround w best))
  else .ok none

/-- The loop of `run` that fills the items. -/
def fillItems (best : Option D) :
    List (Fin policyCount × SimResult) → Except RunStop (List (ReportItem D))
  | [] => .ok []
  | (i, r) :: rest => do
      let regretPct ← regretOf build opt w i r
      let items ← fillItems best rest
      .ok ({ policy := i
             sim := r
             gapPct := best.map (pctOver (meanTurnaround w r))
             regretPct
             summary := metricsSummary w r } :: items)

/-- `run` after the workload is loaded. -/
def runReport : Except RunStop (Report D) := do
  let results ← runSelected build opt w (List.finRange policyCount)
  let best ← optimum build opt w
  let items ← fillItems build opt w best results
  .ok { workload := w
        optimumMeanTurnaround := best
        prediction :=
          if opt.sim.predict = .ewma then
            some (metricsPredictionError w opt.sim.alpha opt.sim.tau0)
          else none
        items }

end Run

/-! ## `main` -/

/-- `load_workload` before it checks; `file` holds the bytes of a path that can be opened. -/
def readInput (opt : Options D) (file : CString → Option (List UInt8)) (stdin : List UInt8) :
    Except SchedError Workload :=
  match opt.inputPath with
  | some path =>
      match file path with
      | none => .error ⟨.io, s!"cannot open input file '{showBytes path}'"⟩
      | some stream => readWorkloadCsv stream ⟨[]⟩
  | none => readWorkloadInteractive stdin ⟨[]⟩

/-- `load_workload`. -/
def loadWorkload (opt : Options D) (file : CString → Option (List UInt8)) (stdin : List UInt8) :
    Except SchedError Workload := do
  let w ← readInput opt file stdin
  workloadValidate w
  .ok w

/-- `main`, whose report is `none` for `--help`. -/
def schedMain (build : Build) (strtod : CString → Strtod D) (args : List CString)
    (file : CString → Option (List UInt8)) (stdin : List UInt8) :
    Except RunStop (Option (Options D × Report D)) := do
  let opt ← stopOf (parseOptions strtod args)
  if opt.help = true then .ok none
  else do
    let w ← stopOf (loadWorkload opt file stdin)
    let report ← runReport build opt w
    .ok (some (opt, report))

end CpuSched
