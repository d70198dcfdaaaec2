import CpuSched.Cli.Reports
import CpuSched.Io.Json

/-!
# What the JSON report says

The bytes of `write_json` are a JSON text, whose names are distinct in every object and whose
commas stand exactly between members and elements.  For the list of segments this rests on
the run: the comma after the last segment of a core is right because the last core has
segments of its own.  Every integer is written as it is, and every finite double so that
reading it gives it back.  A double that is not finite is written as a word, which is no
number of JSON.
-/

namespace CpuSched

open Json

/-! ## The document -/

section Document

/-- The numbers of the report. -/
inductive ReportNumber
  | int (n : Int)
  | double (x : Binary64)

/-- It is an integer or a finite double. -/
def ReportNumber.isFinite : ReportNumber → Bool
  | int _ => true
  | double x => x.isFinite

/-- An integer is written exactly; what is written for a double is rounded to it. -/
inductive NumberSays : List UInt8 → ReportNumber → Prop
  | int {t : List UInt8} {n : Int} (text : NumberText t n) : NumberSays t (.int n)
  | double {t : List UInt8} {negative : Bool} {q : ℚ} {x : Binary64} (text : UnsignedText t q)
      (back : Binary64.ofDecimal negative q = x) :
      NumberSays ((if negative then cstr "-" else []) ++ t) (.double x)

/-- What is not finite is written as a word. -/
inductive NumberWritten : List UInt8 → ReportNumber → Prop
  | finite {t : List UInt8} {n : ReportNumber} (number : NumberSays t n) : NumberWritten t n
  | infinity (negative : Bool) :
      NumberWritten (if negative then cstr "-inf" else cstr "inf") (.double (.infinity negative))
  | nan : NumberWritten (cstr "nan") (.double .nan)

/-- The values of the report. -/
abbrev ReportJson : Type := Json ReportNumber

/-- A member of an object. -/
def member (key : String) (v : ReportJson) : CString × ReportJson := (cstr key, v)

/-- An integer. -/
def intJson (n : Int) : ReportJson := .num (.int n)

/-- Another number. -/
def doubleJson (x : Binary64) : ReportJson := .num (.double x)

/-- A string. -/
def strJson (s : CString) : ReportJson := .str s

/-- A member that may be missing. -/
def optionalMember (key : String) (v : Option ReportJson) : List (CString × ReportJson) :=
  (v.map (member key)).toList

/-- A distribution. -/
def distributionJson (d : Distribution Binary64) : ReportJson := .obj
  [member "mean" (doubleJson d.mean), member "median" (doubleJson d.median),
    member "p95" (intJson d.p95), member "p99" (intJson d.p99), member "max" (intJson d.max)]

/-- A process of a result. -/
def processJson (m : ProcMetrics Binary64) : ReportJson := .obj
  [member "pid" (intJson m.pid), member "arrival" (intJson m.arrival),
    member "burst" (intJson m.burst), member "io" (intJson m.io), member "start" (intJson m.start),
    member "completion" (intJson m.completion), member "response" (intJson m.response),
    member "waiting" (intJson m.waiting), member "turnaround" (intJson m.turnaround),
    member "slowdown" (doubleJson m.slowdown)]

/-- The averages of a result. -/
def averagesJson (avg : AvgMetrics Binary64) : ReportJson := .obj
  [member "response" (doubleJson avg.response), member "waiting" (doubleJson avg.waiting),
    member "turnaround" (doubleJson avg.turnaround)]

/-- The summary of a result. -/
def summaryJson (s : Summary Binary64) : ReportJson := .obj
  [member "turnaround" (distributionJson s.turnaround),
    member "waiting" (distributionJson s.waiting),
    member "response" (distributionJson s.response),
    member "slowdown_mean" (doubleJson s.slowdownMean),
    member "slowdown_max" (doubleJson s.slowdownMax),
    member "jain_fairness_slowdown" (doubleJson s.jainSlowdown),
    member "span" (intJson s.span), member "throughput" (doubleJson s.throughput),
    member "cpu_utilization" (doubleJson s.utilization),
    member "context_switches" (intJson s.switches), member "switch_time" (intJson s.csTime),
    member "switch_fraction" (doubleJson s.csFraction)]

/-- A segment of core `c`. -/
def segmentJson (w : Workload) (c : Nat) (seg : Segment) : ReportJson := .obj
  [member "start" (intJson seg.start), member "end" (intJson seg.stop),
    member "pid" (if seg.kind = .idle then .null else intJson (pidOf w seg)),
    member "type" (strJson (kindName seg.kind)), member "core" (intJson c)]

/-- The segments of all cores, core 0 first. -/
def ganttJson (w : Workload) (r : SimResult) : ReportJson :=
  .arr ((List.range r.cores).flatMap fun c => (r.timelines c).map (segmentJson w c))

/-- The result of one policy. -/
def resultJson (opt : Options Binary64) (w : Workload) (item : ReportItem Binary64) :
    ReportJson :=
  let policy := policyAt (D := Binary64) item.policy
  .obj (
    [member "algorithm" (strJson (cstr policy.name)),
      member "label" (strJson (resultLabel (D := Binary64) item.policy opt.params.quantum)),
      member "preemptive" (.bool policy.preemptive),
      member "quantum" (if policy.usesQuantum = true then intJson opt.params.quantum else .null),
      member "processes" (.arr ((List.range w.len).map fun i =>
        processJson (metricsFor w item.sim i))),
      member "averages" (averagesJson (metricsAverages w item.sim)),
      member "summary" (summaryJson item.summary)] ++
    (optionalMember "optimality_gap_pct" (item.gapPct.map doubleJson) ++
    (optionalMember "prediction_regret_pct" (item.regretPct.map doubleJson) ++
    [member "makespan" (intJson (metricsMakespan w item.sim)),
      member "cores" (intJson item.sim.cores), member "gantt" (ganttJson w item.sim)])))

/-- A process of the input. -/
def inputJson (p : Process) : ReportJson := .obj
  [member "pid" (intJson p.pid), member "arrival" (intJson p.arrival),
    member "burst" (intJson p.burst), member "priority" (intJson p.priority),
    member "tickets" (intJson p.tickets), member "nice" (intJson p.nice),
    member "bursts" (.arr (p.phases.map intJson))]

/-- The options of the machine. -/
def optionsJson (sim : SimOptions Binary64) : ReportJson := .obj (
  [member "cores" (intJson sim.cores), member "cs_cost" (intJson sim.csCost)] ++
    match sim.predict with
    | .ewma => [member "predict" (strJson (cstr "ewma")), member "alpha" (doubleJson sim.alpha),
        member "tau0" (doubleJson sim.tau0)]
    | .oracle => [member "predict" (strJson (cstr "oracle"))])

/-- The errors of the prediction. -/
def predictionJson (p : PredictionError Binary64) : ReportJson := .obj
  [member "bursts" (intJson p.bursts), member "mae" (doubleJson p.mae),
    member "mape_pct" (doubleJson p.mape)]

/-- The report. -/
def reportJson (opt : Options Binary64) (report : Report Binary64) : ReportJson := .obj (
  [member "schema_version" (intJson 1),
    member "workload" (.arr (report.workload.items.map inputJson))] ++
  ((if report.items.isEmpty then [] else [member "options" (optionsJson opt.sim)]) ++
  (optionalMember "prediction" (report.prediction.map predictionJson) ++
  (optionalMember "optimum_mean_turnaround" (report.optimumMeanTurnaround.map doubleJson) ++
  [member "results" (.arr (report.items.map (resultJson opt report.workload)))]))))

end Document

/-! ## Texts of the pieces -/

theorem blank_of_all {s : CString} (all : s.all (fun b => b = 32 ∨ b = 10) = true) : Blank s := by
  intro b mem
  have := List.all_eq_true.mp all b mem
  rw [decide_eq_true_iff] at this
  exact this.imp id fun newline => .inr (.inl newline)

theorem plain_of_all {s : CString} (all : s.all plainByte = true) : Plain s :=
  List.all_eq_true.mp all

section Pieces

variable {ν : Type} {N : CString → ν → Prop}

theorem key_member (key : String) (plain : (cstr key).all plainByte = true)
    {t : CString} {v : Json ν} (value : ValueText N t v) :
    MembersText N (jsonKey key ++ t) [(cstr key, v)] := by
  have text := MembersText.one (plain_of_all plain) .nil
    (blank_of_all (s := [32]) (by decide)) value
  rw [jsonKey, List.append_assoc]
  exact text

theorem commaSep_members {ts : List CString} {ms : List (CString × Json ν)} (nonempty : ts ≠ [])
    (each : List.Forall₂ (fun t m => MembersText N t [m]) ts ms) :
    MembersText N (commaSep ts) ms :=
  .intercalate (blank_of_all (s := [32]) (by decide)) nonempty each

theorem commaSep_elements {ts : List CString} {vs : List (Json ν)} (nonempty : ts ≠ [])
    (each : List.Forall₂ (fun t v => ElementsText N t [v]) ts vs) :
    ElementsText N (commaSep ts) vs :=
  .intercalate (blank_of_all (s := [32]) (by decide)) nonempty each

/-- A line of members goes before the lines that follow. -/
theorem jsonLine_members (indent : String)
    (blank : (cstr indent).all (fun b => b = 32 ∨ b = 10) = true) {t rest : CString}
    {ms ms' : List (CString × Json ν)} (members : MembersText N t ms)
    (others : MembersText N rest ms') :
    MembersText N (jsonLine indent t ++ rest) (ms ++ ms') := by
  have text := (members.more (others.before (blank_of_all (s := [10]) (by decide)))).before
    (blank_of_all blank)
  rw [jsonLine, List.append_assoc, List.append_assoc]
  exact text

theorem jsonUnless_members (indent : String)
    (blank : (cstr indent).all (fun b => b = 32 ∨ b = 10) = true) (missing : Bool)
    {t rest : CString} {ms ms' : List (CString × Json ν)} (members : MembersText N t ms)
    (others : MembersText N rest ms') :
    MembersText N ((if missing then [] else jsonLine indent t) ++ rest)
      ((if missing then [] else ms) ++ ms') := by
  cases missing with
  | true => exact others
  | false => exact jsonLine_members indent blank members others

/-- An object with distinct names. -/
theorem jsonObject_value {t : CString} {ms : List (CString × Json ν)} (keys : List String)
    (distinct : decide (keys.map cstr).Nodup = true) (members : MembersText N t ms)
    (names : ms.map Prod.fst = keys.map cstr) : ValueText N (jsonObject t) (.obj ms) :=
  .obj members (names ▸ of_decide_eq_true distinct)

/-- An array on lines of its own. -/
theorem jsonArray_value (indent : String)
    (blank : (cstr indent).all (fun b => b = 32 ∨ b = 10) = true) {t : CString}
    {vs : List (Json ν)} (rows : t = [] ∧ vs = [] ∨ ElementsText N t vs) :
    ValueText N (jsonArray indent t) (.arr vs) :=
  .arr_of (blank_of_all (s := cstr "\n") (by decide)) (blank_of_all blank) rows

theorem jsonRows_cons {t : CString} {rest : List CString} (nonempty : rest ≠ []) :
    jsonRows (t :: rest) = t ++ (cstr ",\n" ++ jsonRows rest) := by
  cases rest with
  | nil => exact absurd rfl nonempty
  | cons u rest => rfl

/-- The rows of an array have commas between them. -/
theorem jsonRows_elements {ts : List CString} {vs : List (Json ν)}
    (each : List.Forall₂ (fun t v => ElementsText N t [v]) ts vs) :
    jsonRows ts = [] ∧ vs = [] ∨ ElementsText N (jsonRows ts) vs := by
  induction each with
  | nil => exact .inl ⟨rfl, rfl⟩
  | @cons t v ts vs first rest ih =>
      refine .inr ?_
      have newline : Blank (cstr "\n") := blank_of_all rfl
      cases rest with
      | nil => exact first.after newline
      | cons second others =>
          rw [jsonRows_cons (List.cons_ne_nil _ _)]
          rcases ih with ⟨-, none⟩ | elements
          · cases none
          · exact first.more (elements.before newline)

theorem map_elements {α : Type} {text : α → CString} {value : α → Json ν} (xs : List α)
    (each : ∀ x ∈ xs, ElementsText N (text x) [value x]) :
    List.Forall₂ (fun t v => ElementsText N t [v]) (xs.map text) (xs.map value) := by
  rw [List.forall₂_map_left_iff, List.forall₂_map_right_iff, List.forall₂_same]
  exact each

/-- A value after the spaces of its line. -/
theorem indented (indent : String) (blank : (cstr indent).all (fun b => b = 32 ∨ b = 10) = true)
    {t : CString} {v : Json ν} (value : ValueText N t v) :
    ElementsText N (cstr indent ++ t) [v] :=
  (ElementsText.one value).before (blank_of_all blank)

end Pieces

/-! ## Texts of the report -/

section Texts

theorem intText_value (n : Int) : ValueText NumberWritten (intText n) (intJson n) :=
  .num (.finite (.int (numberText_int n)))

theorem int_member (key : String) (plain : (cstr key).all plainByte = true) (n : Int) :
    MembersText NumberWritten (jsonInt key n) [member key (intJson n)] :=
  key_member key plain (intText_value n)

/-- A line that may be missing goes before the lines that follow. -/
theorem jsonOptional_members {α : Type} (indent : String)
    (blank : (cstr indent).all (fun b => b = 32 ∨ b = 10) = true) (key : String) {o : Option α}
    {text : α → CString} {value : α → ReportJson} {rest : CString}
    {ms : List (CString × ReportJson)}
    (each : ∀ a, MembersText NumberWritten (text a) [member key (value a)])
    (others : MembersText NumberWritten rest ms) :
    MembersText NumberWritten (jsonOptional indent (o.map text) ++ rest)
      (optionalMember key (o.map value) ++ ms) := by
  cases o with
  | none => exact others
  | some a => exact jsonLine_members indent blank (each a) others

theorem string_member (key : String) (plain : (cstr key).all plainByte = true) {s : CString}
    (plainValue : Plain s) :
    MembersText NumberWritten (jsonString key s) [member key (strJson s)] :=
  key_member key plain (.str plainValue)

/-! ### The segments -/

theorem jsonRows_append {ts us : List CString} (nonempty : us ≠ []) :
    jsonRows (ts ++ us) = ts.flatMap (· ++ cstr ",\n") ++ jsonRows us := by
  induction ts with
  | nil => rfl
  | cons t ts ih =>
      rw [List.cons_append, jsonRows_cons (by simp [nonempty]), ih, List.flatMap_cons]
      simp only [List.append_assoc]

/-- The segments of a core, of which the last one has no comma on the last core. -/
theorem jsonGantt_core (w : Workload) (c : Nat) (lastCore : Prop) [Decidable lastCore]
    (l : List Segment) (k : Nat) :
    (l.zipIdx k).flatMap (fun si => jsonSegment w c si.1 ++
      cstr (if decide (lastCore ∧ si.2 + 1 = k + l.length) = true then "\n" else ",\n")) =
    if lastCore then jsonRows (l.map (jsonSegment w c))
    else (l.map (jsonSegment w c)).flatMap (· ++ cstr ",\n") := by
  induction l generalizing k with
  | nil => split_ifs <;> rfl
  | cons seg l ih =>
      have tail := ih (k + 1)
      rw [show k + 1 + l.length = k + (seg :: l).length by rw [List.length_cons]; omega] at tail
      rw [List.zipIdx_cons, List.flatMap_cons, tail]
      by_cases on : lastCore
      · simp only [on, true_and, if_true, List.length_cons, decide_eq_true_eq]
        cases l with
        | nil => simp [jsonRows]
        | cons second others =>
            rw [if_neg (by simp), List.map_cons (a := seg), jsonRows_cons (by simp),
              List.append_assoc]
      · simp only [on, false_and, decide_false, Bool.false_eq_true, if_false, List.map_cons,
          List.flatMap_cons]

/-- The commas between the segments of all cores are right if the last core has a segment. -/
theorem jsonGantt_eq (w : Workload) {r : SimResult} {n : Nat} (cores : r.cores = n + 1)
    (nonempty : r.timelines n ≠ []) :
    jsonGantt w r = jsonRows ((List.range r.cores).flatMap fun c =>
      (r.timelines c).map (jsonSegment w c)) := by
  have core (c : Nat) := jsonGantt_core w c (c + 1 = r.cores) (r.timelines c) 0
  simp only [Nat.zero_add] at core
  rw [jsonGantt]
  simp only [core]
  rw [cores, List.range_succ, List.flatMap_append, List.flatMap_append, List.flatMap_singleton,
    List.flatMap_singleton, jsonRows_append (by simpa using nonempty), if_pos rfl,
    List.flatMap_assoc]
  congr 1
  refine List.flatMap_congr fun c mem => ?_
  have := List.mem_range.mp mem
  rw [if_neg (by omega)]

theorem plain_kindName (kind : SegmentKind) : Plain (kindName kind) := by
  cases kind <;> exact plain_of_all rfl

theorem segment_element (w : Workload) (c : Nat) (seg : Segment) :
    ElementsText NumberWritten (jsonSegment w c seg) [segmentJson w c seg] := by
  have pid : ValueText NumberWritten
      (if seg.kind = .idle then cstr "null" else intText (pidOf w seg))
      (if seg.kind = .idle then .null else intJson (pidOf w seg)) := by
    split_ifs
    · exact .null
    · exact intText_value _
  refine indented _ rfl (jsonObject_value ["start", "end", "pid", "type", "core"] rfl
    (commaSep_members (List.cons_ne_nil _ _) ?_) rfl)
  exact .cons (int_member "start" rfl _) <| .cons (int_member "end" rfl _) <|
    .cons (key_member "pid" rfl pid) <| .cons (string_member "type" rfl (plain_kindName _)) <|
    .cons (int_member "core" rfl _) .nil

theorem gantt_member (w : Workload) {r : SimResult} {n : Nat} (cores : r.cores = n + 1)
    (nonempty : r.timelines n ≠ []) :
    MembersText NumberWritten (jsonKey "gantt" ++ jsonArray "      " (jsonGantt w r))
      [member "gantt" (ganttJson w r)] := by
  rw [jsonGantt_eq w cores nonempty]
  refine key_member _ rfl (jsonArray_value _ rfl (jsonRows_elements ?_))
  refine List.rel_flatMap (R := (· = ·)) (List.forall₂_refl _) ?_
  rintro c _ rfl
  exact map_elements _ fun seg _ => segment_element w c seg

theorem plain_intText (n : Int) : Plain (intText n) := by
  have digit : ∀ d < 10, plainByte (48 + d : Nat).toUInt8 = true := by decide
  have digits : Plain (natText n.natAbs) := fun b mem => by
    obtain ⟨d, inside, rfl⟩ := List.mem_map.mp mem
    exact digit d (decimalDigits_lt inside)
  rw [intText]
  intro b mem
  rcases List.mem_append.mp mem with sign | mem
  · split_ifs at sign
    · rw [List.mem_singleton.mp sign]
      decide
    · cases sign
  · exact digits b mem

theorem plain_policyName (i : Fin policyCount) :
    Plain (cstr (policyAt (D := Binary64) i).name) := by
  have all : ∀ i : Fin policyCount, (cstr (policyNames.getD i "")).all plainByte = true := by
    decide
  rw [policyAt_name]
  exact plain_of_all (all i)

theorem plain_resultLabel (i : Fin policyCount) (quantum : Int) :
    Plain (resultLabel (D := Binary64) i quantum) := by
  have label : ∀ i, (cstr (policyLabel i)).all plainByte = true := by decide
  rw [resultLabel]
  split_ifs
  · intro b mem
    have mem := List.mem_of_mem_take mem
    simp only [List.mem_append] at mem
    obtain ((mem | mem) | mem) | mem := mem
    · exact plain_of_all (label i) b mem
    · exact plain_of_all (s := cstr "(q=") (by decide) b mem
    · exact plain_intText quantum b mem
    · exact plain_of_all (s := cstr ")") (by decide) b mem
  · exact fun b mem => plain_of_all (label i) b (List.mem_of_mem_take mem)

/-! ### The objects -/

theorem input_element (p : Process) :
    ElementsText NumberWritten (jsonInput p) [inputJson p] := by
  have phases : ValueText NumberWritten (cstr "[" ++ (commaSep (p.phases.map intText) ++ cstr "]"))
      (.arr (p.phases.map intJson)) := by
    by_cases none : p.phases = []
    · rw [none]
      exact .emptyArr .nil
    · refine .arr (commaSep_elements (by simpa using none) (map_elements _ fun n _ => ?_))
      exact .one (intText_value n)
  refine indented _ rfl (jsonObject_value ["pid", "arrival", "burst", "priority", "tickets", "nice",
    "bursts"] rfl (commaSep_members (List.cons_ne_nil _ _) ?_) rfl)
  exact .cons (int_member "pid" rfl _) <| .cons (int_member "arrival" rfl _) <|
    .cons (int_member "burst" rfl _) <| .cons (int_member "priority" rfl _) <|
    .cons (int_member "tickets" rfl _) <| .cons (int_member "nice" rfl _) <|
    .cons (key_member "bursts" rfl phases) .nil

/-- A finite number is written so that it can be read back. -/
theorem jsonDouble_value (x : Binary64) :
    ValueText NumberWritten (jsonDouble x) (doubleJson x) := by
  cases x with
  | nan => exact .num .nan
  | infinity negative => exact .num (.infinity negative)
  | finite negative m =>
      rw [jsonDouble]
      by_cases back : doubleRound (decimalOf 15 m.val) = m.val
      · rw [if_pos back]
        exact .num (.finite (.double (formatG_unsigned (by decide) m.nonneg)
          (Binary64.ofDecimal_eq (decimalOf_nonneg m.nonneg) back)))
      · rw [if_neg back]
        exact .num (.finite (.double (formatG_unsigned (by decide) m.nonneg)
          (Binary64.ofDecimal_eq (decimalOf_nonneg m.nonneg) (nearestFrom_decimalOf m.kept))))

theorem double_member (key : String) (plain : (cstr key).all plainByte = true)
    (x : Binary64) :
    MembersText NumberWritten (jsonKeyDouble key x) [member key (doubleJson x)] :=
  key_member key plain (jsonDouble_value x)

theorem distribution_member (key : String) (plain : (cstr key).all plainByte = true)
    (d : Distribution Binary64) :
    MembersText NumberWritten (jsonDistribution key d) [member key (distributionJson d)] := by
  refine key_member _ plain (jsonObject_value ["mean", "median", "p95", "p99", "max"] rfl
    (commaSep_members (List.cons_ne_nil _ _) ?_) rfl)
  exact .cons (double_member "mean" rfl _) <| .cons (double_member "median" rfl _) <|
    .cons (int_member "p95" rfl _) <| .cons (int_member "p99" rfl _) <|
    .cons (int_member "max" rfl _) .nil

theorem process_element (m : ProcMetrics Binary64) :
    ElementsText NumberWritten (jsonProcess m) [processJson m] := by
  refine indented _ rfl (jsonObject_value ["pid", "arrival", "burst", "io", "start", "completion",
    "response", "waiting", "turnaround", "slowdown"] rfl
    (commaSep_members (List.cons_ne_nil _ _) ?_) rfl)
  exact .cons (int_member "pid" rfl _) <| .cons (int_member "arrival" rfl _) <|
    .cons (int_member "burst" rfl _) <| .cons (int_member "io" rfl _) <|
    .cons (int_member "start" rfl _) <|
    .cons (int_member "completion" rfl _) <| .cons (int_member "response" rfl _) <|
    .cons (int_member "waiting" rfl _) <| .cons (int_member "turnaround" rfl _) <|
    .cons (double_member "slowdown" rfl _) .nil

theorem averages_member (avg : AvgMetrics Binary64) :
    MembersText NumberWritten (jsonAverages avg) [member "averages" (averagesJson avg)] := by
  refine key_member _ rfl (jsonObject_value ["response", "waiting", "turnaround"] rfl
    (commaSep_members (List.cons_ne_nil _ _) ?_) rfl)
  exact .cons (double_member "response" rfl _) <|
    .cons (double_member "waiting" rfl _) <|
    .cons (double_member "turnaround" rfl _) .nil

theorem summary_member (s : Summary Binary64) :
    MembersText NumberWritten (jsonSummary s) [member "summary" (summaryJson s)] := by
  have slowdowns : MembersText NumberWritten _ _ := commaSep_members (List.cons_ne_nil _ _) <|
    .cons (double_member "slowdown_mean" rfl s.slowdownMean) <|
    .cons (double_member "slowdown_max" rfl s.slowdownMax) <|
    .cons (double_member "jain_fairness_slowdown" rfl s.jainSlowdown) .nil
  have rates : MembersText NumberWritten _ _ := commaSep_members (List.cons_ne_nil _ _) <|
    .cons (int_member "span" rfl s.span) <|
    .cons (double_member "throughput" rfl s.throughput) <|
    .cons (double_member "cpu_utilization" rfl s.utilization) .nil
  have switches : MembersText NumberWritten _ _ := commaSep_members (List.cons_ne_nil _ _) <|
    .cons (int_member "context_switches" rfl s.switches) <|
    .cons (int_member "switch_time" rfl s.csTime) <|
    .cons (double_member "switch_fraction" rfl s.csFraction) .nil
  have last := (switches.after (b := cstr "\n      ") (blank_of_all rfl)).before
    (a := cstr "        ") (blank_of_all rfl)
  have all :=
    jsonLine_members "        " rfl (distribution_member "turnaround" rfl s.turnaround) <|
    jsonLine_members "        " rfl (distribution_member "waiting" rfl s.waiting) <|
    jsonLine_members "        " rfl (distribution_member "response" rfl s.response) <|
    jsonLine_members "        " rfl slowdowns <| jsonLine_members "        " rfl rates last
  have inner := all.before (a := cstr "\n") (blank_of_all rfl)
  refine key_member _ rfl (jsonObject_value ["turnaround", "waiting", "response", "slowdown_mean",
    "slowdown_max", "jain_fairness_slowdown", "span", "throughput", "cpu_utilization",
    "context_switches", "switch_time", "switch_fraction"] rfl ?_ rfl)
  simp only [List.flatten_cons, List.flatten_nil, List.append_nil]
  exact inner

theorem options_member (opt : Options Binary64) :
    MembersText NumberWritten (jsonOptions opt) [member "options" (optionsJson opt.sim)] := by
  have machine : List.Forall₂ (fun t m => MembersText NumberWritten t [m])
      [jsonInt "cores" opt.sim.cores, jsonInt "cs_cost" opt.sim.csCost]
      [member "cores" (intJson opt.sim.cores), member "cs_cost" (intJson opt.sim.csCost)] :=
    .cons (int_member "cores" rfl _) <| .cons (int_member "cs_cost" rfl _) .nil
  rw [jsonOptions, optionsJson]
  cases opt.sim.predict with
  | oracle =>
      refine key_member _ rfl (jsonObject_value ["cores", "cs_cost", "predict"] rfl
        (commaSep_members (List.cons_ne_nil _ _) (List.rel_append machine ?_)) rfl)
      exact .cons (string_member "predict" rfl (plain_of_all rfl)) .nil
  | ewma =>
      refine key_member _ rfl (jsonObject_value ["cores", "cs_cost", "predict", "alpha", "tau0"] rfl
        (commaSep_members (List.cons_ne_nil _ _) (List.rel_append machine ?_)) rfl)
      exact .cons (string_member "predict" rfl (plain_of_all rfl)) <|
        .cons (double_member "alpha" rfl _) <| .cons (double_member "tau0" rfl _) .nil

theorem prediction_member (p : PredictionError Binary64) :
    MembersText NumberWritten (jsonPrediction p) [member "prediction" (predictionJson p)] := by
  refine key_member _ rfl (jsonObject_value ["bursts", "mae", "mape_pct"] rfl
    (commaSep_members (List.cons_ne_nil _ _) ?_) rfl)
  exact .cons (int_member "bursts" rfl _) <| .cons (double_member "mae" rfl _) <|
    .cons (double_member "mape_pct" rfl _) .nil

/-- The names of a result, with or without its gap and its regret. -/
def resultKeys (gap regret : Bool) : List String :=
  ["algorithm", "label", "preemptive", "quantum", "processes", "averages", "summary"] ++
    ((if gap then ["optimality_gap_pct"] else []) ++
    ((if regret then ["prediction_regret_pct"] else []) ++ ["makespan", "cores", "gantt"]))

/-- A result, if the last core of its run has a segment. -/
theorem result_element (opt : Options Binary64) (w : Workload) {item : ReportItem Binary64}
    {n : Nat} (cores : item.sim.cores = n + 1) (nonempty : item.sim.timelines n ≠ []) :
    ElementsText NumberWritten (jsonResult opt w item) [resultJson opt w item] := by
  have preemptive : ValueText NumberWritten
      (cstr (if (policyAt (D := Binary64) item.policy).preemptive = true then "true" else "false"))
      (.bool (policyAt (D := Binary64) item.policy).preemptive) := by
    cases (policyAt (D := Binary64) item.policy).preemptive with
    | true => exact .bool true
    | false => exact .bool false
  have quantum : ValueText NumberWritten
      (if (policyAt (D := Binary64) item.policy).usesQuantum = true then
        intText opt.params.quantum else cstr "null")
      (if (policyAt (D := Binary64) item.policy).usesQuantum = true then
        intJson opt.params.quantum else .null) := by
    split_ifs
    · exact intText_value _
    · exact .null
  have processes := jsonArray_value "      " rfl (jsonRows_elements
    (map_elements (List.range w.len) fun i _ =>
      process_element (metricsFor w item.sim i)))
  have last := ((gantt_member w cores nonempty).after (b := cstr "\n    ")
    (blank_of_all rfl)).before (a := cstr "      ") (blank_of_all rfl)
  have all := (jsonLine_members "      " rfl
      (string_member "algorithm" rfl (plain_policyName item.policy)) <|
    jsonLine_members "      " rfl
      (string_member "label" rfl (plain_resultLabel item.policy opt.params.quantum)) <|
    jsonLine_members "      " rfl (key_member "preemptive" rfl preemptive) <|
    jsonLine_members "      " rfl (key_member "quantum" rfl quantum) <|
    jsonLine_members "      " rfl (key_member "processes" rfl processes) <|
    jsonLine_members "      " rfl (averages_member (metricsAverages w item.sim)) <|
    jsonLine_members "      " rfl (summary_member item.summary) <|
    jsonOptional_members "      " rfl "optimality_gap_pct" (o := item.gapPct)
      (double_member "optimality_gap_pct" rfl) <|
    jsonOptional_members "      " rfl "prediction_regret_pct" (o := item.regretPct)
      (double_member "prediction_regret_pct" rfl) <|
    jsonLine_members "      " rfl (int_member "makespan" rfl (metricsMakespan w item.sim)) <|
    jsonLine_members "      " rfl (int_member "cores" rfl item.sim.cores) last).before
      (a := cstr "\n") (blank_of_all rfl)
  refine indented _ rfl (.obj ?_ ?_)
  · simp only [List.flatten_cons, List.flatten_nil, List.append_nil]
    exact all
  · have distinct : ∀ gap regret, ((resultKeys gap regret).map cstr).Nodup := by decide
    have names := distinct item.gapPct.isSome item.regretPct.isSome
    revert names
    cases item.gapPct <;> cases item.regretPct <;> exact id

/-- The names of a report, with or without what may be missing. -/
def reportKeys (options prediction optimum : Bool) : List String :=
  ["schema_version", "workload"] ++
    ((if options then ["options"] else []) ++ ((if prediction then ["prediction"] else []) ++
    ((if optimum then ["optimum_mean_turnaround"] else []) ++ ["results"])))

/-- The report, if the last core of every run has a segment. -/
theorem writeJson_document (opt : Options Binary64) (report : Report Binary64)
    (runs : ∀ item ∈ report.items, ∃ n, item.sim.cores = n + 1 ∧ item.sim.timelines n ≠ []) :
    DocumentText NumberWritten (writeJson opt report) (reportJson opt report) := by
  have results := jsonArray_value "  " rfl (jsonRows_elements (map_elements report.items
    fun item mem => by
      obtain ⟨n, cores, nonempty⟩ := runs item mem
      exact result_element opt report.workload cores nonempty))
  have workload := jsonArray_value (N := NumberWritten) "  " rfl (jsonRows_elements
    (map_elements report.workload.items fun p _ => input_element p))
  have last := ((key_member "results" rfl results).after (b := cstr "\n")
    (blank_of_all rfl)).before (a := cstr "  ") (blank_of_all rfl)
  have measured := jsonOptional_members "  " rfl "prediction" (o := report.prediction)
      prediction_member <|
    jsonOptional_members "  " rfl "optimum_mean_turnaround" (o := report.optimumMeanTurnaround)
      (double_member "optimum_mean_turnaround" rfl) last
  have machine :=
    jsonUnless_members "  " rfl report.items.isEmpty (options_member opt) measured
  have all := (jsonLine_members "  " rfl (int_member "schema_version" rfl 1) <|
    jsonLine_members "  " rfl (key_member "workload" rfl workload) machine).before (a := cstr "\n")
      (blank_of_all rfl)
  refine ⟨[], _, cstr "\n", .nil, blank_of_all rfl, rfl, .obj ?_ ?_⟩
  · simp only [List.flatten_cons, List.flatten_nil, List.append_nil]
    exact all
  · have distinct : ∀ options prediction optimum,
        ((reportKeys options prediction optimum).map cstr).Nodup := by decide
    have names := distinct (!report.items.isEmpty) report.prediction.isSome
      report.optimumMeanTurnaround.isSome
    revert names
    cases report.items.isEmpty <;> cases report.prediction <;>
      cases report.optimumMeanTurnaround <;> exact id

end Texts

/-! ## The command -/

/-- Every core has a segment when a run ends. -/
theorem Sim.Final.timeline_ne_nil {D : Type} [Double D] {S : Sim D} {e : S.Eng}
    {sp : Nat → Spot} {r : SimResult} (final : Sim.Final S e sp r) {c : Nat}
    (hc : c < S.opt.cores) : r.timelines c ≠ [] := by
  intro empty
  have tiled := final.tiled hc
  rw [empty] at tiled
  have := Tiled.nil_eq tiled
  have := final.firstArrival_lt
  omega

/-- The items of a report come from runs that ended. -/
theorem runReport_timelines {D : Type} [Double D] {build : Build} {opt : Options D} {w : Workload}
    {report : Report D} (admitted : opt.params.Admitted)
    (made : runReport build opt w = .ok report) :
    ∀ item ∈ report.items, ∃ n, item.sim.cores = n + 1 ∧ item.sim.timelines n ≠ [] := by
  obtain ⟨results, selected, made⟩ := exceptBind_ok_iff.mp made
  obtain ⟨best, -, made⟩ := exceptBind_ok_iff.mp made
  obtain ⟨items, filled, made⟩ := exceptBind_ok_iff.mp made
  obtain rfl := Except.ok.inj made
  intro item mem
  obtain ⟨result, mem, here⟩ := (filled_items (fillItems_ok filled)).2 item mem
  have run := (runSelected_ok selected).2 result mem
  obtain ⟨e, sp, final⟩ := Sim.simRun_final (simOf_builtIn admitted _ _) run
  have cores := final.options.cores_pos
  obtain ⟨n, n_eq⟩ : ∃ n, result.2.cores = n + 1 := ⟨result.2.cores - 1, by
    rw [final.cores]
    omega⟩
  rw [here.sim]
  exact ⟨n, n_eq, final.timeline_ne_nil (by rw [← final.cores]; omega)⟩

/-- A word stands for a number that is not finite. -/
theorem NumberWritten.says_of_finite {t : List UInt8} {n : ReportNumber}
    (written : NumberWritten t n) (finite : n.isFinite = true) : NumberSays t n := by
  cases written with
  | finite number => exact number
  | infinity negative => cases finite
  | nan => cases finite

/-- What `--format=json` writes is a JSON text that says what the report says, but for the
words that it writes for numbers that are not finite. -/
theorem schedMain_writes {build : Build} {strtod : CString → Strtod Binary64}
    {args : List CString} {file : CString → Option (List UInt8)} {stdin : List UInt8}
    {opt : Options Binary64} {report : Report Binary64}
    (ran : schedMain build strtod args file stdin = .ok (some (opt, report))) :
    DocumentText NumberWritten (writeJson opt report) (reportJson opt report) := by
  obtain ⟨opt', accepted, ran⟩ := exceptBind_ok_iff.mp ran
  have admitted := parseOptions_admitted (stopOf_ok_iff.mp accepted)
  by_cases help : opt'.help = true
  · rw [if_pos help] at ran
    cases ran
  rw [if_neg help] at ran
  obtain ⟨w, -, ran⟩ := exceptBind_ok_iff.mp ran
  obtain ⟨report', made, ran⟩ := exceptBind_ok_iff.mp ran
  cases ran
  exact writeJson_document opt report (runReport_timelines admitted made)

/-- What `--format=json` writes is a JSON text that says what the report says, if all its
doubles are finite. -/
theorem sched_main_json (build : Build) (strtod : CString → Strtod Binary64)
    (args : List CString) (file : CString → Option (List UInt8)) (stdin : List UInt8)
    {opt : Options Binary64} {report : Report Binary64}
    (ran : schedMain build strtod args file stdin = .ok (some (opt, report)))
    (finite : ∀ n ∈ (reportJson opt report).numbers, n.isFinite = true) :
    DocumentText NumberSays (writeJson opt report) (reportJson opt report) :=
  (schedMain_writes ran).mono (fun _ _ written finite => written.says_of_finite finite) finite

theorem guessedNumbers_seen : guessedSeen (fun fcfs srtf best base =>
    (reportJson guessedOptions (guessedReport fcfs srtf best base)).numbers.all fun n =>
      n.isFinite) = some true := by
  decide +kernel

/-- A report with gaps, estimates and a regret. -/
theorem sched_main_json_convoy : ∃ report,
    schedMain .release pointStrtod guessedArgs (fun _ => none) convoyInput =
      .ok (some (guessedOptions, report)) ∧ guessedOptions.format = .json ∧
    DocumentText NumberSays (writeJson guessedOptions report)
      (reportJson guessedOptions report) := by
  obtain ⟨fcfs, srtf, best, base, ran, finite⟩ := guessedMain_succeeds guessedNumbers_seen
  exact ⟨_, ran, rfl, sched_main_json .release pointStrtod guessedArgs (fun _ => none) convoyInput
    ran (List.all_eq_true.mp finite)⟩

end CpuSched
