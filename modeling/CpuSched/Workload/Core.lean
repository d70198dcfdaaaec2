import Mathlib.Data.List.Sort

/-!
# Processes, workloads and their validation

The data types of `include/sched/core.h` and the checks of
`src/engine/workload.c`.  Every tick count is an `Int`; the places where the
code guards against leaving the range of `int64_t` are modelled by the same
explicit comparisons, so a later bound on these integers is a statement about
the machine arithmetic.
-/

namespace CpuSched

/-- `INT64_MAX`. -/
def int64Max : Int := 9223372036854775807

/-- `INT64_MIN`. -/
def int64Min : Int := -9223372036854775808

/-- The integer is one of the 64-bit range. -/
def InI64 (x : Int) : Prop := int64Min ≤ x ∧ x ≤ int64Max

instance (x : Int) : Decidable (InI64 x) := inferInstanceAs (Decidable (_ ∧ _))

/-- `ck_add_i64`: the exact sum, or `none` when it leaves the 64-bit range. -/
def ckAddI64 (a b : Int) : Option Int :=
  if (0 < b ∧ int64Max - b < a) ∨ (b < 0 ∧ a < int64Min - b) then none else some (a + b)

/-- `ck_sub_i64`: the exact difference, or `none` when it leaves the 64-bit
range. -/
def ckSubI64 (a b : Int) : Option Int :=
  if (b < 0 ∧ int64Max + b < a) ∨ (0 < b ∧ a < int64Min + b) then none else some (a - b)

/-- Status codes, which double as process exit codes. -/
inductive SchedStatus
  | input
  | usage
  | io
  | nomem
  deriving DecidableEq, Repr

/-- A failure: its status and the text left in `SchedError.msg`. -/
structure SchedError where
  status : SchedStatus
  msg : String
  deriving DecidableEq, Repr

/-- A process and its own range `phases` of the workload's phase pool. -/
structure Process where
  pid : Int
  arrival : Int
  burst : Int
  io : Int := 0
  priority : Int := 0
  tickets : Int := 100
  nice : Int := 0
  phases : List Int
  deriving DecidableEq, Repr, Inhabited

/-- `phase_count`. -/
def Process.phaseCount (p : Process) : Nat := p.phases.length

/-- Entry `k` of the process's phases. -/
def Process.phase (p : Process) (k : Nat) : Int := p.phases.getD k 0

/-- A plain `pid,arrival,burst` process with every optional field at its
default. -/
def processMake (pid arrival burst : Int) : Process :=
  { pid, arrival, burst, phases := [burst] }

/-- `Workload`: the processes in input order. -/
structure Workload where
  items : List Process
  deriving DecidableEq, Repr

/-- `w->len`. -/
def Workload.len (w : Workload) : Nat := w.items.length

/-- `w->items[i]`. -/
def Workload.proc (w : Workload) (i : Nat) : Process := w.items.getD i default

/-! ## Validation -/

/-- `SCHED_MAX_TICKETS`. -/
def schedMaxTickets : Int := 1048576

/-- The `line %zu: ` prefix of a message; line 0 omits it. -/
def linePrefix (line : Nat) : String :=
  if line = 0 then "" else s!"line {line}: "

/-- `process_validate`: the range checks of one process's scalar fields. -/
def processValidate (p : Process) (line : Nat) : Except SchedError Unit :=
  let at_ := linePrefix line
  if p.pid < 0 then
    .error ⟨.input, s!"{at_}PID must be >= 0 (got {p.pid})"⟩
  else if p.arrival < 0 then
    .error ⟨.input, s!"{at_}arrival of P{p.pid} must be >= 0 (got {p.arrival})"⟩
  else if p.burst ≤ 0 then
    .error ⟨.input, s!"{at_}burst of P{p.pid} must be > 0 (got {p.burst})"⟩
  else if p.tickets < 1 ∨ schedMaxTickets < p.tickets then
    .error ⟨.input,
      s!"{at_}tickets of P{p.pid} must be in 1..{schedMaxTickets} (got {p.tickets})"⟩
  else if p.nice < -20 ∨ 19 < p.nice then
    .error ⟨.input, s!"{at_}nice of P{p.pid} must be in -20..19 (got {p.nice})"⟩
  else .ok ()

/-- The running sums of the phase loop: CPU phases, I/O phases, and every
phase of the workload so far. -/
structure PhaseSums where
  cpu : Int
  io : Int
  total : Int
  deriving DecidableEq, Repr

/-- The inner loop of `workload_validate` over one process's phases from index
`k` on; `none` is the overflow error. -/
def sumPhases : Nat → List Int → PhaseSums → Option PhaseSums
  | _, [], sums => some sums
  | k, ph :: rest, sums =>
      if ph ≤ 0 then none
      else do
        let side ← ckAddI64 (if k % 2 = 1 then sums.io else sums.cpu) ph
        let total ← ckAddI64 sums.total ph
        sumPhases (k + 1) rest
          (if k % 2 = 1 then ⟨sums.cpu, side, total⟩ else ⟨side, sums.io, total⟩)

/-- The outer loop of `workload_validate`: the latest arrival and the sum of
every phase, or the first error. -/
def validateItems : List Process → Int → Int → Except SchedError (Int × Int)
  | [], maxArrival, total => .ok (maxArrival, total)
  | p :: rest, maxArrival, total => do
      processValidate p 0
      let maxArrival := if maxArrival < p.arrival then p.arrival else maxArrival
      match sumPhases 0 p.phases ⟨0, 0, total⟩ with
      | none => .error ⟨.input, "sum of burst times overflows a 64-bit tick counter"⟩
      | some sums =>
          if p.phaseCount % 2 = 0 ∨ sums.cpu ≠ p.burst ∨ sums.io ≠ p.io then
            .error ⟨.input, s!"P{p.pid}: inconsistent burst phases"⟩
          else validateItems rest maxArrival sums.total

/-- The scan of the sorted PIDs for two equal neighbours. -/
def adjacentDuplicate : List Int → Option Int
  | a :: b :: rest => if b = a then some b else adjacentDuplicate (b :: rest)
  | _ => none

/-- `workload_validate`. -/
def workloadValidate (w : Workload) : Except SchedError Unit :=
  if w.len = 0 then
    .error ⟨.input, "workload is empty: at least one process is required"⟩
  else
    match validateItems w.items 0 0 with
    | .error err => .error err
    | .ok (maxArrival, total) =>
        match ckAddI64 maxArrival total with
        | none =>
            .error ⟨.input, "latest arrival + total burst time overflows a 64-bit tick counter"⟩
        | some _ =>
            match adjacentDuplicate ((w.items.map Process.pid).mergeSort (· ≤ ·)) with
            | some pid =>
                .error ⟨.input, s!"duplicate PID {pid}: every process needs a unique PID"⟩
            | none => .ok ()

/-- The loop of `workload_horizon`. -/
def horizonSums : List Process → Int → Int → Int × Int
  | [], maxArrival, total => (maxArrival, total)
  | p :: rest, maxArrival, total =>
      horizonSums rest (if maxArrival < p.arrival then p.arrival else maxArrival)
        (total + (p.burst + p.io))

/-- `workload_horizon`: the latest arrival plus every phase of every process. -/
def workloadHorizon (w : Workload) : Int :=
  let sums := horizonSums w.items 0 0
  sums.1 + sums.2

end CpuSched
