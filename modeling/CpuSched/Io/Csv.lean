import CpuSched.Io.CString

/-!
# The CSV reader

`read_workload_csv` of `src/io/input.c` with `workload_push` of `src/engine/workload.c`.
A stream is the list of its bytes.  The rest of a buffer after a NUL is what `strlen`,
`trim` and `strchr` do not see.  Allocation succeeds, and reading does not fail.  The
messages are those before the buffer of `SchedError` cuts them.
-/

namespace CpuSched

/-! ## Lines -/

/-- `LINE_MAX_LEN`. -/
def lineMaxLen : Nat := 4096

/-- `MAX_COLUMNS`. -/
def maxColumns : Nat := 16

/-- `MAX_PHASES`. -/
def maxPhases : Nat := lineMaxLen / 2

/-- What one call of `fgets` leaves in the buffer, and `feof` after it. -/
structure Chunk where
  bytes : List UInt8
  feof : Bool
  deriving DecidableEq, Repr

/-- The loop of `fgets` with room for `room` more bytes: the buffer and what is left of
the stream. -/
def fgetsBytes : Nat → List UInt8 → Chunk × List UInt8
  | 0, stream => (⟨[], false⟩, stream)
  | _ + 1, [] => (⟨[], true⟩, [])
  | room + 1, b :: stream =>
      if b = 10 then (⟨[b], false⟩, stream)
      else
        let (chunk, rest) := fgetsBytes room stream
        (⟨b :: chunk.bytes, chunk.feof⟩, rest)

/-- `fgets(buf, sizeof buf, in)`; `none` is `NULL`. -/
def fgets (stream : List UInt8) : Option (Chunk × List UInt8) :=
  if stream = [] then none else some (fgetsBytes (lineMaxLen - 1) stream)

/-- What `fgets` reads, call after call, until it returns `NULL`. -/
def fgetsAll : Nat → List UInt8 → List Chunk
  | 0, _ => []
  | fuel + 1, stream =>
      match fgets stream with
      | none => []
      | some (chunk, rest) => chunk :: fgetsAll fuel rest

/-- The C string in a buffer. -/
def cstringOf (bytes : List UInt8) : CString := bytes.takeWhile (· ≠ 0)

/-- `trim`. -/
def trim (s : CString) : CString := (s.dropWhile isSpace).rdropWhile isSpace

/-- `split_fields`; `none` is -1. -/
def splitFields (line : CString) (max : Nat) : Option (List CString) :=
  let fields := (line.splitOn 44).map trim
  if max < fields.length then none else some fields

/-! ## Columns -/

/-- `ColumnKind`. -/
inductive ColumnKind
  | int
  | phases
  deriving DecidableEq, Repr

/-- The rows of `COLUMNS`. -/
inductive Column
  | pid
  | arrival
  | burst
  | bursts
  | priority
  | tickets
  | nice
  deriving DecidableEq, Repr

/-- `COLUMNS`, in its order. -/
def columns : List Column := [.pid, .arrival, .burst, .bursts, .priority, .tickets, .nice]

namespace Column

/-- `name`. -/
def name : Column → String
  | pid => "pid"
  | arrival => "arrival"
  | burst => "burst"
  | bursts => "bursts"
  | priority => "priority"
  | tickets => "tickets"
  | nice => "nice"

/-- `kind`. -/
def kind : Column → ColumnKind
  | bursts => .phases
  | _ => .int

/-- `required`. -/
def required : Column → Bool
  | pid => true
  | arrival => true
  | _ => false

/-- The store at `offset`. -/
def put (v : Int) (p : Process) : Column → Process
  | pid => { p with pid := v }
  | arrival => { p with arrival := v }
  | burst => { p with burst := v }
  | bursts => p
  | priority => { p with priority := v }
  | tickets => { p with tickets := v }
  | nice => { p with nice := v }

end Column

/-- `tolower`. -/
def toLower (b : UInt8) : UInt8 := if 65 ≤ b ∧ b ≤ 90 then b + 32 else b

/-- The comparison of `column_index`: `name` in any letter case is `a`. -/
def sameName : CString → CString → Bool
  | [], name => name = []
  | _ :: _, [] => false
  | a :: as, b :: name => if toLower b = a then sameName as name else false

/-- `column_index`; `none` is -1. -/
def columnIndex (name : CString) : Option Column :=
  columns.find? fun c => sameName (cstr c.name) name

/-- `SCHED_E_INPUT`. -/
def inputError {α : Type} (msg : String) : Except SchedError α := .error ⟨.input, msg⟩

/-- The first loop of `parse_header`. -/
def headerColumns (line : Nat) : List CString → List Column → Except SchedError (List Column)
  | [], _ => .ok []
  | field :: rest, seen =>
      match columnIndex field with
      | none =>
          inputError (s!"line {line}: unknown column '{showBytes field}' (the first line must " ++
            "be a header such as pid,arrival,burst)")
      | some c =>
          if c ∈ seen then inputError s!"line {line}: column '{c.name}' appears twice"
          else (headerColumns line rest (c :: seen)).map (c :: ·)

/-- `parse_header`: `col_of_field`. -/
def parseHeader (fields : List CString) (line : Nat) : Except SchedError (List Column) := do
  let cols ← headerColumns line fields []
  match columns.find? fun c => c.required && decide (c ∉ cols) with
  | some c => inputError s!"line {line}: header is missing required column '{c.name}'"
  | none =>
      if Column.burst ∉ cols ∧ Column.bursts ∉ cols then
        inputError s!"line {line}: header is missing required column 'burst' (or 'bursts')"
      else .ok cols

/-! ## Rows -/

/-- The loop of `parse_phases` over the texts between colons. -/
def parsePhaseTexts : Nat → List CString → Option (List Int)
  | _, [] => some []
  | count, text :: rest =>
      if count = maxPhases then none
      else do
        let x ← parseI64 (trim text)
        let xs ← parsePhaseTexts (count + 1) rest
        some (x :: xs)

/-- `parse_phases`; `none` is -1. -/
def parsePhases (text : CString) : Option (List Int) := parsePhaseTexts 0 (text.splitOn 58)

/-- The variables of `parse_row`; `nphases` is the length of `phases`. -/
structure RowState where
  p : Process
  phases : List Int := []
  haveBurst : Bool := false
  deriving DecidableEq, Repr

/-- One round of the loop of `parse_row`. -/
def parseField (line : Nat) (s : RowState) (col : Column) (field : CString) :
    Except SchedError RowState :=
  if field = [] ∧ col.required = false then .ok s
  else if col.kind = .phases then
    match parsePhases field with
    | none =>
        inputError (s!"line {line}: column 'bursts' must be integers separated by ':' " ++
          s!"(got '{showBytes (field.take 95)}')")
    | some phases => .ok { s with phases }
  else
    match parseI64 field with
    | none =>
        inputError (s!"line {line}: column '{col.name}' must be a 64-bit integer " ++
          s!"(got '{showBytes field}')")
    | some v =>
        .ok { s with p := col.put v s.p, haveBurst := s.haveBurst || decide (col = .burst) }

/-- The loop of `parse_row`. -/
def parseRowFields (line : Nat) :
    List Column → List CString → RowState → Except SchedError RowState
  | col :: cols, field :: fields, s => do
      let s ← parseField line s col field
      parseRowFields line cols fields s
  | _, _, s => .ok s

/-- The loop of `workload_push_phases`: the CPU and the I/O sum. -/
def pushSums (pid : Int) : Nat → List Int → Int → Int → Except SchedError (Int × Int)
  | _, [], cpu, io => .ok (cpu, io)
  | k, ph :: rest, cpu, io =>
      if ph ≤ 0 then
        inputError s!"P{pid}: every burst must be > 0 (phase {k + 1} is {ph})"
      else
        match ckAddI64 (if k % 2 = 0 then cpu else io) ph with
        | none => inputError s!"P{pid}: total burst time overflows a 64-bit tick counter"
        | some sum =>
            if k % 2 = 0 then pushSums pid (k + 1) rest sum io
            else pushSums pid (k + 1) rest cpu sum

/-- `workload_push_phases`. -/
def workloadPushPhases (w : Workload) (p : Process) (phases : List Int) :
    Except SchedError Workload :=
  if phases.length = 0 ∨ phases.length % 2 = 0 then
    inputError s!"P{p.pid}: needs an odd number of phases (cpu:io:...:cpu)"
  else do
    let sums ← pushSums p.pid 0 phases 0 0
    .ok ⟨w.items ++ [{ p with burst := sums.1, io := sums.2, phases }]⟩

/-- `workload_push`. -/
def workloadPush (w : Workload) (p : Process) : Except SchedError Workload :=
  workloadPushPhases w p [p.burst]

/-- `parse_row` after its loop. -/
def finishRow (line : Nat) (s : RowState) (w : Workload) : Except SchedError Workload :=
  if 0 < s.phases.length then
    if s.phases.length % 2 = 0 then
      inputError (s!"line {line}: bursts of P{s.p.pid} must alternate cpu:io:...:cpu " ++
        "(an odd number of values)")
    else
      match s.phases.find? fun ph => decide (ph ≤ 0) with
      | some ph =>
          inputError s!"line {line}: bursts of P{s.p.pid} must all be > 0 (got {ph})"
      | none => do
          -- A placeholder for `process_validate`, recomputed on push.
          let p := { s.p with burst := s.phases.getD 0 0 }
          processValidate p line
          workloadPushPhases w p s.phases
  else if s.haveBurst = false then
    inputError s!"line {line}: P{s.p.pid} has neither a burst nor bursts value"
  else do
    processValidate s.p line
    workloadPush w s.p

/-- `parse_row`. -/
def parseRow (fields : List CString) (cols : List Column) (line : Nat) (w : Workload) :
    Except SchedError Workload :=
  if fields.length ≠ cols.length then
    inputError s!"line {line}: expected {cols.length} fields, found {fields.length}"
  else do
    let s ← parseRowFields line cols fields { p := processMake 0 0 0 }
    finishRow line s w

/-! ## The loop over the lines -/

/-- The UTF-8 byte-order mark. -/
def bom : CString := [0xEF, 0xBB, 0xBF]

/-- The text without a byte-order mark at its start. -/
def dropBom (text : CString) : CString := if bom.isPrefixOf text then text.drop 3 else text

/-- The variables of `read_workload_csv`; `header_count` is the length of `header`. -/
structure CsvState where
  line : Nat
  header : List Column
  w : Workload
  deriving DecidableEq, Repr

/-- The buffer is full and the line goes on. -/
def Chunk.tooLong (chunk : Chunk) : Bool :=
  let buf := cstringOf chunk.bytes
  decide (buf.length = lineMaxLen - 1 ∧ buf.getLast? ≠ some 10 ∧ chunk.feof = false)

/-- The text that is split into fields; `first` on line 1. -/
def csvText (first : Bool) (bytes : List UInt8) : CString :=
  let buf := cstringOf bytes
  trim (if first then dropBom buf else buf)

/-- The body of the loop of `read_workload_csv`. -/
def readCsvLine (s : CsvState) (chunk : Chunk) : Except SchedError CsvState :=
  let line := s.line + 1
  if chunk.tooLong = true then
    inputError s!"line {line}: longer than {lineMaxLen - 2} characters"
  else
    let text := csvText (decide (line = 1)) chunk.bytes
    if text = [] ∨ text.head? = some 35 then .ok { s with line }
    else
      match splitFields text maxColumns with
      | none => inputError s!"line {line}: more than {maxColumns} fields"
      | some fields =>
          if s.header = [] then
            (parseHeader fields line).map fun header => ⟨line, header, s.w⟩
          else (parseRow fields s.header line s.w).map fun w => ⟨line, s.header, w⟩

/-- The loop of `read_workload_csv`. -/
def readCsvLines : List Chunk → CsvState → Except SchedError CsvState
  | [], s => .ok s
  | chunk :: rest, s => do
      let s ← readCsvLine s chunk
      readCsvLines rest s

/-- `read_workload_csv`. -/
def readWorkloadCsv (stream : List UInt8) (w : Workload) : Except SchedError Workload := do
  let s ← readCsvLines (fgetsAll stream.length stream) ⟨0, [], w⟩
  if s.header = [] then
    inputError "input is empty: expected a header line such as pid,arrival,burst"
  else if s.w.len = 0 then inputError "no processes listed after the header"
  else .ok s.w

end CpuSched
