import CpuSched.Cli.Run
import CpuSched.Lib.Decimal
import CpuSched.Lib.Json

/-!
# The JSON report

`write_json` of `src/io/output.c`.  The formats of the source are cut at the members of the
objects, and what is written one after the other is one list of bytes.  A number that is not
an integer gets 15 digits, or 17 where `strtod`, which rounds what the text says, does not
get it back from 15.
-/

namespace CpuSched

open Json (quoted)

/-! ## Names -/

/-- `label` of the policies, in the order of the table. -/
def policyLabels : List String :=
  ["FCFS", "SJF", "SRTF", "RoundRobin", "Priority", "PriorityP", "HRRN", "MLFQ", "Lottery",
    "Stride", "CFS", "OPT-NP"]

/-- `policy->label`. -/
def policyLabel (i : Fin policyCount) : String := policyLabels.get (i.cast rfl)

/-- `result_label`, into a buffer of 64 bytes. -/
def resultLabel {D : Type} [Double D] (i : Fin policyCount) (quantum : Int) : CString :=
  if (policyAt (D := D) i).usesQuantum = true then
    (cstr (policyLabel i) ++ cstr "(q=" ++ intText quantum ++ cstr ")").take 63
  else (cstr (policyLabel i)).take 63

/-- `kind_name`. -/
def kindName : SegmentKind → CString
  | .idle => cstr "idle"
  | .cs => cstr "cs"
  | .run => cstr "run"

/-- `pid_of`, for what a segment names. -/
def pidOf (w : Workload) (seg : Segment) : Int := (w.proc (seg.proc.getD 0)).pid

/-! ## Members -/

/-- A name with its colon. -/
def jsonKey (key : String) : CString := quoted (cstr key) ++ cstr ": "

/-- A member that is an integer. -/
def jsonInt (key : String) (v : Int) : CString := jsonKey key ++ intText v

/-- A member that is a string. -/
def jsonString (key : String) (s : CString) : CString := jsonKey key ++ quoted s

/-- Members one after the other on a line. -/
def commaSep (ts : List CString) : CString := (cstr ", ").intercalate ts

/-- Members on a line of their own that is not the last one. -/
def jsonLine (indent : String) (t : CString) : CString := cstr indent ++ (t ++ cstr ",\n")

/-- An object. -/
def jsonObject (t : CString) : CString := cstr "\x7b" ++ (t ++ cstr "\x7d")

/-- A line that may be missing. -/
def jsonOptional (indent : String) : Option CString → CString
  | some t => jsonLine indent t
  | none => []

/-- An array on lines of its own. -/
def jsonArray (indent : String) (t : CString) : CString :=
  cstr "[" ++ (cstr "\n" ++ (t ++ cstr indent) ++ cstr "]")

/-- The lines of an array: a comma where another one comes. -/
def jsonRows : List CString → CString
  | [] => []
  | [t] => t ++ cstr "\n"
  | t :: u :: rest => t ++ (cstr ",\n" ++ jsonRows (u :: rest))

section Writer

/-- `json_double`.  A number that is not finite is no number of JSON.  The sign that the C
library may put before `nan` is not modelled. -/
def jsonDouble : Binary64 → CString
  | .nan => cstr "nan"
  | .infinity negative => if negative then cstr "-inf" else cstr "inf"
  | .finite negative m =>
      (if negative then cstr "-" else []) ++
        if doubleRound (decimalOf 15 m.val) = m.val then formatG 15 m.val else formatG 17 m.val

/-- `json_key_double`; `after` is left to the caller. -/
def jsonKeyDouble (key : String) (v : Binary64) : CString := jsonKey key ++ jsonDouble v

/-- `json_distribution` without the indentation and the end of the line. -/
def jsonDistribution (key : String) (d : Distribution Binary64) : CString :=
  jsonKey key ++ jsonObject (commaSep
    [jsonKeyDouble "mean" d.mean, jsonKeyDouble "median" d.median, jsonInt "p95" d.p95,
      jsonInt "p99" d.p99, jsonInt "max" d.max])

/-! ## `json_result` -/

/-- The line of a process. -/
def jsonProcess (m : ProcMetrics Binary64) : CString :=
  cstr "        " ++ jsonObject (commaSep
    [jsonInt "pid" m.pid, jsonInt "arrival" m.arrival, jsonInt "burst" m.burst, jsonInt "io" m.io,
      jsonInt "start" m.start, jsonInt "completion" m.completion, jsonInt "response" m.response,
      jsonInt "waiting" m.waiting, jsonInt "turnaround" m.turnaround,
      jsonKeyDouble "slowdown" m.slowdown])

/-- The means. -/
def jsonAverages (avg : AvgMetrics Binary64) : CString :=
  jsonKey "averages" ++ jsonObject (commaSep
    [jsonKeyDouble "response" avg.response, jsonKeyDouble "waiting" avg.waiting,
      jsonKeyDouble "turnaround" avg.turnaround])

/-- The summary. -/
def jsonSummary (s : Summary Binary64) : CString :=
  jsonKey "summary" ++ jsonObject (List.flatten
    [cstr "\n",
     jsonLine "        " (jsonDistribution "turnaround" s.turnaround),
     jsonLine "        " (jsonDistribution "waiting" s.waiting),
     jsonLine "        " (jsonDistribution "response" s.response),
     jsonLine "        " (commaSep
       [jsonKeyDouble "slowdown_mean" s.slowdownMean, jsonKeyDouble "slowdown_max" s.slowdownMax,
         jsonKeyDouble "jain_fairness_slowdown" s.jainSlowdown]),
     jsonLine "        " (commaSep
       [jsonInt "span" s.span, jsonKeyDouble "throughput" s.throughput,
         jsonKeyDouble "cpu_utilization" s.utilization]),
     cstr "        ",
     commaSep
       [jsonInt "context_switches" s.switches, jsonInt "switch_time" s.csTime,
         jsonKeyDouble "switch_fraction" s.csFraction],
     cstr "\n      "])

/-- A segment of core `c`. -/
def jsonSegment (w : Workload) (c : Nat) (seg : Segment) : CString :=
  cstr "        " ++ jsonObject (commaSep
    [jsonInt "start" seg.start, jsonInt "end" seg.stop,
      jsonKey "pid" ++ (if seg.kind = .idle then cstr "null" else intText (pidOf w seg)),
      jsonString "type" (kindName seg.kind), jsonInt "core" c])

/-- The lines of all segments.  Only the last segment of the last core has no comma. -/
def jsonGantt (w : Workload) (r : SimResult) : CString :=
  (List.range r.cores).flatMap fun c => (r.timelines c).zipIdx.flatMap fun si =>
    let last : Bool := c + 1 = r.cores ∧ si.2 + 1 = (r.timelines c).length
    jsonSegment w c si.1 ++ cstr (if last then "\n" else ",\n")

variable (opt : Options Binary64) (w : Workload)

/-- `json_result`. -/
def jsonResult (item : ReportItem Binary64) : CString :=
  let r := item.sim
  let policy := policyAt (D := Binary64) item.policy
  let label := resultLabel (D := Binary64) item.policy opt.params.quantum
  cstr "    " ++ jsonObject (List.flatten
    [cstr "\n",
     jsonLine "      " (jsonString "algorithm" (cstr policy.name)),
     jsonLine "      " (jsonString "label" label),
     jsonLine "      "
       (jsonKey "preemptive" ++ cstr (if policy.preemptive = true then "true" else "false")),
     jsonLine "      " (jsonKey "quantum" ++
       if policy.usesQuantum = true then intText opt.params.quantum else cstr "null"),
     jsonLine "      " (jsonKey "processes" ++ jsonArray "      "
       (jsonRows ((List.range w.len).map fun i =>
         jsonProcess (metricsFor (D := Binary64) w r i)))),
     jsonLine "      " (jsonAverages (metricsAverages (D := Binary64) w r)),
     jsonLine "      " (jsonSummary item.summary),
     jsonOptional "      " (item.gapPct.map (jsonKeyDouble "optimality_gap_pct")),
     jsonOptional "      " (item.regretPct.map (jsonKeyDouble "prediction_regret_pct")),
     jsonLine "      " (jsonInt "makespan" (metricsMakespan w r)),
     jsonLine "      " (jsonInt "cores" r.cores),
     cstr "      ",
     jsonKey "gantt" ++ jsonArray "      " (jsonGantt w r),
     cstr "\n    "])

/-! ## `write_json` -/

/-- A line of `json_workload`. -/
def jsonInput (p : Process) : CString :=
  cstr "    " ++ jsonObject (commaSep
    [jsonInt "pid" p.pid, jsonInt "arrival" p.arrival, jsonInt "burst" p.burst,
      jsonInt "priority" p.priority, jsonInt "tickets" p.tickets, jsonInt "nice" p.nice,
      jsonKey "bursts" ++ (cstr "[" ++ (commaSep (p.phases.map intText) ++ cstr "]"))])

/-- `json_workload`. -/
def jsonWorkload : CString :=
  jsonKey "workload" ++ jsonArray "  " (jsonRows (w.items.map jsonInput))

/-- The options of the machine. -/
def jsonOptions : CString :=
  jsonKey "options" ++ jsonObject (commaSep
    ([jsonInt "cores" opt.sim.cores, jsonInt "cs_cost" opt.sim.csCost] ++
      match opt.sim.predict with
      | .ewma => [jsonString "predict" (cstr "ewma"), jsonKeyDouble "alpha" opt.sim.alpha,
          jsonKeyDouble "tau0" opt.sim.tau0]
      | .oracle => [jsonString "predict" (cstr "oracle")]))

/-- The errors of the prediction. -/
def jsonPrediction (p : PredictionError Binary64) : CString :=
  jsonKey "prediction" ++ jsonObject (commaSep
    [jsonInt "bursts" p.bursts, jsonKeyDouble "mae" p.mae, jsonKeyDouble "mape_pct" p.mape])

/-- `write_json`. -/
def writeJson (report : Report Binary64) : CString :=
  jsonObject (List.flatten
    [cstr "\n",
     jsonLine "  " (jsonInt "schema_version" 1),
     jsonLine "  " (jsonWorkload report.workload),
     if report.items.isEmpty then [] else jsonLine "  " (jsonOptions opt),
     jsonOptional "  " (report.prediction.map jsonPrediction),
     jsonOptional "  " (report.optimumMeanTurnaround.map (jsonKeyDouble "optimum_mean_turnaround")),
     cstr "  ",
     jsonKey "results" ++
       jsonArray "  " (jsonRows (report.items.map (jsonResult opt report.workload))),
     cstr "\n"]) ++ cstr "\n"

end Writer

end CpuSched
