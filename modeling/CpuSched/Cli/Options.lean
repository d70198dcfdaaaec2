import CpuSched.Engine.Core
import CpuSched.Io.CString
import CpuSched.Policies.Registry

/-!
# The command line

`parse_options` of `src/cli/main.c` and what it calls.  Arguments are C strings.  An option
with a value is the first flag of the table that the argument starts with, in the
order of the source.  `strtod` belongs to the C library and is a parameter.  The messages
are those before the buffer of `SchedError` cuts them.
-/

namespace CpuSched

/-- `Format`. -/
inductive Format
  | text
  | csv
  | json
  | none
  deriving DecidableEq, Repr

/-- `CsvFileMode`. -/
inductive CsvFileMode
  | default
  | explicit
  | off
  deriving DecidableEq, Repr

/-- `Options`. -/
structure Options (D : Type) where
  selected : Nat → Bool
  params : PolicyParams
  sim : SimOptions D
  quantaGiven : Bool := false
  levelsGiven : Bool := false
  allotGiven : Bool := false
  nQuanta : Nat := 0
  nAllot : Nat := 0
  /-- `none`: interactive format on stdin. -/
  inputPath : Option CString := none
  format : Format := .text
  csvMode : CsvFileMode := .default
  csvPath : CString := cstr "schedule_metrics.csv"
  summaryCsvPath : Option CString := none
  gantt : Bool := true
  perTick : Bool := false
  fullMetrics : Bool := false
  gap : Bool := false
  timing : Bool := false
  help : Bool := false

/-- `SCHED_MLFQ_MAX_LEVELS`. -/
def schedMlfqMaxLevels : Nat := 16

/-- `SCHED_MAX_CORES`. -/
def schedMaxCores : Nat := 1024

/-- `flag_value`. -/
def flagValue (arg flag : CString) : Option CString :=
  if flag.isPrefixOf arg then some (arg.drop flag.length) else none

/-- `USAGE_ERROR`. -/
def usageError {α : Type} (msg : String) : Except SchedError α := .error ⟨.usage, msg⟩

/-! ## Numbers and lists -/

/-- `parse_positive`. -/
def parsePositive (v : CString) : Option Int := (parseI64 v).filter fun x => decide (0 < x)

/-- `parse_nonneg`. -/
def parseNonneg (v : CString) : Option Int := (parseI64 v).filter fun x => decide (0 ≤ x)

/-- What `strtod` returns, whether it sets `errno`, and where it stops. -/
structure Strtod (D : Type) where
  value : D
  failed : Bool
  rest : CString

/-- `parse_double`. -/
def parseDouble {D : Type} [Double D] (strtod : CString → Strtod D) (v : CString) : Option D :=
  if v = [] then none
  else
    let r := strtod v
    if r.failed = false ∧ r.rest = [] ∧ Double.isFinite r.value = true then some r.value else none

/-- The loop of `parse_list` over the entries between commas; an entry has to fit in 31
bytes. -/
def parseEntries (max : Nat) : Nat → List CString → Option (List Int)
  | _, [] => some []
  | count, entry :: rest =>
      if count = max ∨ entry.length = 0 ∨ 32 ≤ entry.length then none
      else do
        let x ← parsePositive entry
        let xs ← parseEntries max (count + 1) rest
        some (x :: xs)

/-- `parse_list`: the values, or `none` where it returns 0. -/
def parseList (v : CString) (max : Nat) : Option (List Int) := parseEntries max 0 (v.splitOn 44)

/-- `out[0..count)` is overwritten. -/
def overwrite (out : Nat → Int) (xs : List Int) : Nat → Int := fun l => xs.getD l (out l)

/-! ## Options with a value -/

variable {D : Type}

/-- An option of the form `--flag=value`. -/
structure ValueFlag (D : Type) where
  flag : CString
  set : CString → Options D → Except SchedError (Options D)

/-- An option whose value is an integer > 0. -/
def positiveFlag (name : String) (put : Int → Options D → Options D) : ValueFlag D where
  flag := cstr name ++ [61]
  set v opt :=
    match parsePositive v with
    | some x => .ok (put x opt)
    | none => usageError s!"{name} must be an integer > 0 (got '{showBytes v}')"

/-- An option whose value is an integer >= 0. -/
def nonnegFlag (name : String) (put : Int → Options D → Options D) : ValueFlag D where
  flag := cstr name ++ [61]
  set v opt :=
    match parseNonneg v with
    | some x => .ok (put x opt)
    | none => usageError s!"{name} must be an integer >= 0 (got '{showBytes v}')"

/-- An option whose value is an integer from 1 to `max`. -/
def rangeFlag (name : String) (max : Nat) (put : Nat → Options D → Options D) : ValueFlag D where
  flag := cstr name ++ [61]
  set v opt :=
    match (parsePositive v).filter fun x => decide (x ≤ (max : Int)) with
    | some x => .ok (put x.toNat opt)
    | none => usageError s!"{name} must be in 1..{max} (got '{showBytes v}')"

/-- An option whose value is a list of integers > 0, one for each MLFQ level. -/
def listFlag (name : String) (put : List Int → Options D → Options D) : ValueFlag D where
  flag := cstr name ++ [61]
  set v opt :=
    match parseList v schedMlfqMaxLevels with
    | some xs => .ok (put xs opt)
    | none =>
        usageError (s!"{name} must be 1..{schedMlfqMaxLevels} comma-separated integers > 0 " ++
          s!"(got '{showBytes v}')")

/-- An option whose value is one of a few words. -/
def wordFlag (name expected : String) (words : List (String × (Options D → Options D))) :
    ValueFlag D where
  flag := cstr name ++ [61]
  set v opt :=
    match words.find? fun word => cstr word.1 = v with
    | some word => .ok (word.2 opt)
    | none => usageError s!"{name} must be {expected} (got '{showBytes v}')"

/-- An option whose value is a floating-point number that `accepts` admits. -/
def doubleFlag [Double D] (strtod : CString → Strtod D) (name expected : String)
    (accepts : D → Bool) (put : D → Options D → Options D) : ValueFlag D where
  flag := cstr name ++ [61]
  set v opt :=
    match (parseDouble strtod v).filter accepts with
    | some x => .ok (put x opt)
    | none => usageError s!"{name} must be a number {expected} (got '{showBytes v}')"

/-- An option whose value is a file name. -/
def fileFlag (name : String) (put : CString → Options D → Options D) : ValueFlag D where
  flag := cstr name ++ [61]
  set v opt := if v = [] then usageError s!"{name} needs a file name" else .ok (put v opt)

section Table

variable [Double D]

/-- The policies that `policy_at` counts through. -/
def policies : List (Policy D) := registry fun _ => true

/-- `select_named`. -/
def selectNamed (D : Type) [Double D] (name : String) (selected : Nat → Bool) : Nat → Bool :=
  fun i => selected i || ((policies (D := D))[i]?).any fun P => P.name = name

/-- `CLASSIC`. -/
def classic : List String := ["fcfs", "sjf", "srtf", "rr"]

/-- Selects the policies of `CLASSIC`. -/
def selectClassic (D : Type) [Double D] (selected : Nat → Bool) : Nat → Bool :=
  classic.foldl (fun selected name => selectNamed D name selected) selected

/-- One name of the list of `parse_algos`. -/
def parseAlgo (D : Type) [Double D] (name : CString) (selected : Nat → Bool) :
    Option (Nat → Bool) :=
  if name = cstr "all" then
    some fun i => selected i || ((policies (D := D))[i]?).any fun P => !P.offline
  else if name = cstr "classic" then some (selectClassic D selected)
  else ((policies (D := D)).findIdx? fun P => cstr P.name = name).map fun i =>
    Function.update selected i true

/-- The loop of `parse_algos`. -/
def parseAlgoNames (D : Type) [Double D] :
    List CString → (Nat → Bool) → Except SchedError (Nat → Bool)
  | [], selected => .ok selected
  | name :: rest, selected =>
      match parseAlgo D name selected with
      | some selected => parseAlgoNames D rest selected
      | none => usageError s!"unknown algorithm '{showBytes name}' in --algo (see --help)"

/-- `--algo=`, handled by `parse_algos`. -/
def algoFlag : ValueFlag D where
  flag := cstr "--algo="
  set v opt := (parseAlgoNames D (v.splitOn 44) fun _ => false).map fun selected =>
    { opt with selected }

variable (strtod : CString → Strtod D)

/-- The options with a value, in the order in which `parse_option` tries them. -/
def valueFlags : List (ValueFlag D) :=
  [algoFlag,
   positiveFlag "--quantum" fun x opt => { opt with params.quantum := x },
   nonnegFlag "--aging" fun x opt => { opt with params.aging := x },
   rangeFlag "--mlfq-levels" schedMlfqMaxLevels fun l opt =>
    { opt with params.mlfqLevels := l, levelsGiven := true },
   listFlag "--mlfq-quanta" fun xs opt =>
    { opt with
      params.mlfqQuanta := overwrite opt.params.mlfqQuanta xs
      nQuanta := xs.length
      quantaGiven := true },
   listFlag "--mlfq-allot" fun xs opt =>
    { opt with
      params.mlfqAllotment := overwrite opt.params.mlfqAllotment xs
      nAllot := xs.length
      allotGiven := true },
   nonnegFlag "--mlfq-boost" fun x opt => { opt with params.mlfqBoost := x },
   nonnegFlag "--seed" fun x opt => { opt with params.seed := BitVec.ofInt 64 x },
   positiveFlag "--cfs-latency" fun x opt => { opt with params.cfsLatency := x },
   positiveFlag "--cfs-min-gran" fun x opt => { opt with params.cfsMinGran := x },
   rangeFlag "--cores" schedMaxCores fun c opt => { opt with sim.cores := c },
   nonnegFlag "--cs-cost" fun x opt => { opt with sim.csCost := x },
   wordFlag "--predict" "oracle or ewma"
    [("oracle", fun opt => { opt with sim.predict := .oracle }),
     ("ewma", fun opt => { opt with sim.predict := .ewma })],
   doubleFlag strtod "--alpha" "in [0, 1]"
    (fun x => !Double.lt x (Double.ofInt 0) && !Double.lt (Double.ofInt 1) x)
    fun x opt => { opt with sim.alpha := x },
   doubleFlag strtod "--tau0" "> 0" (fun x => !Double.le x (Double.ofInt 0))
    fun x opt => { opt with sim.tau0 := x },
   fileFlag "--input" fun v opt => { opt with inputPath := some v },
   wordFlag "--format" "text, csv, json or none"
    [("text", fun opt => { opt with format := .text }),
     ("csv", fun opt => { opt with format := .csv }),
     ("json", fun opt => { opt with format := .json }),
     ("none", fun opt => { opt with format := .none })],
   wordFlag "--metrics" "basic or full"
    [("basic", fun opt => { opt with fullMetrics := false }),
     ("full", fun opt => { opt with fullMetrics := true })],
   fileFlag "--csv" fun v opt => { opt with csvMode := .explicit, csvPath := v },
   fileFlag "--summary-csv" fun v opt => { opt with summaryCsvPath := some v }]

/-- The options without a value. -/
def plainFlags : List (CString × (Options D → Options D)) :=
  [(cstr "--timing", fun opt => { opt with timing := true }),
   (cstr "--gap", fun opt => { opt with gap := true }),
   (cstr "--no-csv", fun opt => { opt with csvMode := .off }),
   (cstr "--no-gantt", fun opt => { opt with gantt := false }),
   (cstr "--per-tick", fun opt => { opt with perTick := true }),
   (cstr "--help", fun opt => { opt with help := true }),
   (cstr "-h", fun opt => { opt with help := true })]

/-- `parse_option`. -/
def parseOption (opt : Options D) (arg : CString) : Except SchedError (Options D) :=
  match (valueFlags strtod).find? fun f => (flagValue arg f.flag).isSome with
  | some f => f.set (arg.drop f.flag.length) opt
  | none =>
      match (plainFlags (D := D)).find? fun f => f.1 = arg with
      | some f => .ok (f.2 opt)
      | none => usageError s!"unknown option '{showBytes arg}' (see --help)"

/-! ## The whole command line -/

omit [Double D] in
/-- `finish_mlfq`, first half: the number of levels. -/
def finishLevels (opt : Options D) : Except SchedError (Options D) :=
  if opt.quantaGiven = true then
    if opt.levelsGiven = true ∧ opt.nQuanta ≠ opt.params.mlfqLevels then
      usageError (s!"--mlfq-quanta lists {opt.nQuanta} values but --mlfq-levels is " ++
        s!"{opt.params.mlfqLevels}")
    else .ok { opt with params.mlfqLevels := opt.nQuanta }
  else .ok opt

omit [Double D] in
/-- `finish_mlfq`. -/
def finishMlfq (opt : Options D) : Except SchedError (Options D) := do
  let opt ← finishLevels opt
  if opt.allotGiven = true then
    if opt.nAllot ≠ opt.params.mlfqLevels then
      usageError (s!"--mlfq-allot lists {opt.nAllot} values but MLFQ has " ++
        s!"{opt.params.mlfqLevels} levels")
    else .ok opt
  else .ok { opt with params.mlfqAllotment := opt.params.mlfqQuanta }

/-- `sim_options_default`. -/
def simOptionsDefault : SimOptions D where
  cores := 1
  csCost := 0
  predict := .oracle
  alpha := Double.div (Double.ofInt 1) (Double.ofInt 2)
  tau0 := Double.ofInt 5
  maxSegments := 16777216

/-- The options before the first argument. -/
def defaultOptions : Options D where
  selected := selectClassic D fun _ => false
  params := {}
  sim := simOptionsDefault

/-- The loop of `parse_options` over the arguments. -/
def parseArgs : List CString → Options D → Except SchedError (Options D)
  | [], opt => .ok opt
  | arg :: rest, opt => do
      let opt ← parseOption strtod opt arg
      parseArgs rest opt

/-- `parse_options`; `args` are `argv[1]` to `argv[argc - 1]`. -/
def parseOptions (args : List CString) : Except SchedError (Options D) := do
  let opt ← parseArgs strtod args defaultOptions
  finishMlfq opt

end Table

end CpuSched
