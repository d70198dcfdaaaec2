import CpuSched.Cli.Reports
import CpuSched.Io.CsvComplete
import CpuSched.Lib.Decimal

/-!
# Generated workloads

`generate` and `to_csv` of `tools/gen.py`, which write the input files of the simulator.
What the random generator returns is a parameter, within the ranges that it is asked for.
The simulator reads every generated file back as the workload it was written from, if the
horizon of that fits a 64-bit tick counter, and rejects it otherwise.
-/

namespace CpuSched

/-! ## `generate` -/

/-- The draws for the phases of a process. -/
inductive DrawnPhases
  /-- A burst. -/
  | cpuBound (burst : ℚ)
  /-- A burst, whose quarter is the base, the factor of the first burst, and for each further
  one the I/O time before it and its factor. -/
  | ioBound (burst factor : ℚ) (rest : List (ℚ × ℚ))

/-- The draws for a process. -/
structure Draw where
  /-- The time since the last arrival. -/
  gap : ℚ
  phases : DrawnPhases
  priority : Int
  tickets : Int
  nice : Int

/-- From three to seven bursts. -/
def DrawnPhases.Possible : DrawnPhases → Prop
  | .cpuBound _ => True
  | .ioBound _ _ rest => 2 ≤ rest.length ∧ rest.length ≤ 6

/-- The ranges that the generator is asked for. -/
structure Draw.Possible (d : Draw) : Prop where
  gap : 0 ≤ d.gap
  phases : d.phases.Possible
  tickets : d.tickets ∈ [50, 100, 200, 400]
  nice : -20 ≤ d.nice ∧ d.nice ≤ 19
  priority : 0 ≤ d.priority ∧ d.priority ≤ 9

/-- A row of the file. -/
structure GenRow where
  pid : Int
  arrival : Int
  bursts : List Int
  priority : Int
  tickets : Int
  nice : Int

/-- `max(1, int(round(x)))`. -/
def drawnTicks (x : ℚ) : Int := max 1 (halfEven x)

/-- The phases of a process, in numbers of 53 binary digits. -/
def drawnPhases : DrawnPhases → List Int
  | .cpuBound burst => [drawnTicks burst]
  | .ioBound burst factor rest =>
      let base := max 1 (nearest 53 (drawnTicks burst / 4))
      drawnTicks (nearest 53 (base * factor)) ::
        rest.flatMap fun x => [drawnTicks x.1, drawnTicks (nearest 53 (base * x.2))]

/-- The loop of `generate` from process `pid` on. -/
def generateFrom (pid : Int) (clock : ℚ) : List Draw → List GenRow
  | [] => []
  | d :: rest =>
      let clock := if 1 < pid then nearest 53 (clock + d.gap) else clock
      { pid
        arrival := ⌊clock⌋
        bursts := drawnPhases d.phases
        priority := d.priority
        tickets := d.tickets
        nice := d.nice } :: generateFrom (pid + 1) clock rest

/-- `generate`. -/
def generate (draws : List Draw) : List GenRow := generateFrom 1 0 draws

/-! ## `to_csv` -/

/-- The fields of a row. -/
def GenRow.fields (row : GenRow) : List CString :=
  [intText row.pid, intText row.arrival, [58].intercalate (row.bursts.map intText),
    intText row.priority, intText row.tickets, intText row.nice]

/-- A row as a line. -/
def GenRow.line (row : GenRow) : CString := [44].intercalate row.fields

/-- The first line. -/
def csvHeader : CString := cstr "pid,arrival,bursts,priority,tickets,nice"

/-- `to_csv`. -/
def toCsv (rows : List GenRow) : List UInt8 :=
  [10].intercalate (csvHeader :: rows.map GenRow.line) ++ [10]

/-- The process that a row stands for. -/
def GenRow.process (row : GenRow) : Process where
  pid := row.pid
  arrival := row.arrival
  burst := evenSum row.bursts
  io := oddSum row.bursts
  priority := row.priority
  tickets := row.tickets
  nice := row.nice
  phases := row.bursts

/-! ## Texts of numbers -/

theorem digitBytes_isDigit {ds : List Nat} (digit : ∀ d ∈ ds, d < 10) :
    ∀ b ∈ digitBytes ds, isDigit b = true := by
  have all : ∀ d < 10, isDigit (48 + d : Nat).toUInt8 = true := by decide
  intro b mem
  obtain ⟨d, inside, rfl⟩ := List.mem_map.mp mem
  exact all d (digit d inside)

theorem digitsValue_digitBytes {ds : List Nat} (digit : ∀ d ∈ ds, d < 10) :
    digitsValue (digitBytes ds) = ofDecimal ds := by
  have value : ∀ d < 10, ((48 + d : Nat).toUInt8).toNat - 48 = d := by decide
  induction ds using List.reverseRecOn with
  | nil => rfl
  | append_singleton ds d ih =>
      have last := value d (digit d (by simp))
      have init := ih fun d mem => digit d (List.mem_append_left _ mem)
      rw [digitsValue] at init
      rw [ofDecimal_append, digitsValue, digitBytes, List.map_append, List.foldl_append,
        List.map_cons, List.map_nil, List.foldl_cons, List.foldl_nil, last]
      rw [digitBytes] at init
      rw [init]
      simp [ofDecimal]
      ring

/-- What `%d` writes is a numeral. -/
theorem numeral_intText (z : Int) : Numeral (intText z) z := by
  have digit : ∀ d ∈ decimalDigits z.natAbs, d < 10 := fun d mem => decimalDigits_lt mem
  have value := digitsValue_digitBytes digit
  rw [ofDecimal_decimalDigits] at value
  have nonempty : natText z.natAbs ≠ [] := by
    simpa [natText, digitBytes] using (wholeDigits z.natAbs).nonempty
  rw [intText]
  split_ifs with neg
  · have text := Numeral.minus nonempty (digitBytes_isDigit digit)
    rw [natText, value, show -(z.natAbs : Int) = z by omega] at text
    exact text
  · have text := Numeral.unsigned nonempty (digitBytes_isDigit digit)
    rw [natText, value, show (z.natAbs : Int) = z by omega] at text
    exact text

/-- A numeral has one value. -/
theorem Numeral.unique {s : CString} {v v' : Int} (text : Numeral s v) (text' : Numeral s v') :
    v = v' := by
  have plus : isDigit 43 = false := by decide
  have minus : isDigit 45 = false := by decide
  cases text with
  | unsigned nonempty all =>
      cases text' with
      | unsigned => rfl
      | plus => exact absurd (all 43 List.mem_cons_self) (by simp [plus])
      | minus => exact absurd (all 45 List.mem_cons_self) (by simp [minus])
  | plus nonempty all =>
      cases text' with
      | unsigned _ all' => exact absurd (all' 43 List.mem_cons_self) (by simp [plus])
      | plus => rfl
  | minus nonempty all =>
      cases text' with
      | unsigned _ all' => exact absurd (all' 45 List.mem_cons_self) (by simp [minus])
      | minus => rfl

theorem i64Text_intText {z v : Int} : I64Text (intText z) v ↔ v = z ∧ InI64 z := by
  constructor
  · rintro ⟨numeral, fits⟩
    obtain rfl := numeral.unique (numeral_intText z)
    exact ⟨rfl, fits⟩
  · rintro ⟨rfl, fits⟩
    exact ⟨numeral_intText v, fits⟩

theorem intText_ne_nil (z : Int) : intText z ≠ [] := by
  obtain ⟨b, rest, same, -⟩ := (numeral_intText z).head
  rw [same]
  exact List.cons_ne_nil b rest

theorem optionalText_intText {z default v : Int} :
    OptionalText (intText z) default v ↔ v = z ∧ InI64 z := by
  rw [OptionalText, i64Text_intText]
  exact or_iff_right fun none => intText_ne_nil z none.1

theorem forall₂_intText {zs vs : List Int} :
    List.Forall₂ I64Text (zs.map intText) vs ↔ vs = zs ∧ ∀ z ∈ zs, InI64 z := by
  rw [List.forall₂_map_left_iff]
  induction zs generalizing vs with
  | nil => simp
  | cons z zs ih =>
      cases vs with
      | nil => simp
      | cons v vs =>
          rw [List.forall₂_cons, i64Text_intText, ih, List.forall_mem_cons, List.cons_eq_cons]
          tauto

/-! ## Lines -/

/-- The bytes of a row. -/
def rowByte (b : UInt8) : Bool := isDigit b ∨ b = 45 ∨ b = 58 ∨ b = 44

theorem mem_intercalate {sep b : UInt8} {ts : List CString} (mem : b ∈ [sep].intercalate ts) :
    b = sep ∨ ∃ t ∈ ts, b ∈ t := by
  induction ts with
  | nil => cases mem
  | cons t ts ih =>
      cases ts with
      | nil => exact .inr ⟨t, List.mem_cons_self, by simpa [List.intercalate] using mem⟩
      | cons u ts =>
          rw [List.intercalate_cons_cons, List.append_assoc, List.mem_append, List.mem_append,
            List.mem_singleton] at mem
          obtain inside | same | mem := mem
          · exact .inr ⟨t, List.mem_cons_self, inside⟩
          · exact .inl same
          · obtain same | ⟨v, here, inside⟩ := ih mem
            · exact .inl same
            · exact .inr ⟨v, List.mem_cons_of_mem t here, inside⟩

theorem intText_bytes {z : Int} {b : UInt8} (mem : b ∈ intText z) : isDigit b = true ∨ b = 45 := by
  rw [intText] at mem
  rcases List.mem_append.mp mem with sign | mem
  · split_ifs at sign
    · exact .inr (List.mem_singleton.mp sign)
    · cases sign
  · exact .inl (digitBytes_isDigit (fun d mem => decimalDigits_lt mem) b mem)

theorem GenRow.field_bytes {row : GenRow} {t : CString} (field : t ∈ row.fields) {b : UInt8}
    (mem : b ∈ t) : isDigit b = true ∨ b = 45 ∨ b = 58 := by
  have int {z : Int} (mem : b ∈ intText z) : isDigit b = true ∨ b = 45 ∨ b = 58 :=
    (intText_bytes mem).imp id .inl
  simp only [fields, List.mem_cons, List.not_mem_nil, or_false] at field
  obtain rfl | rfl | rfl | rfl | rfl | rfl := field
  · exact int mem
  · exact int mem
  · obtain rfl | ⟨t, here, inside⟩ := mem_intercalate mem
    · exact .inr (.inr rfl)
    · obtain ⟨z, -, rfl⟩ := List.mem_map.mp here
      exact int inside
  · exact int mem
  · exact int mem
  · exact int mem

theorem GenRow.line_bytes {row : GenRow} {b : UInt8} (mem : b ∈ row.line) :
    rowByte b = true := by
  rw [rowByte, decide_eq_true_iff]
  obtain rfl | ⟨t, field, inside⟩ := mem_intercalate mem
  · exact .inr (.inr (.inr rfl))
  · obtain digit | rfl | rfl := field_bytes field inside
    · exact .inl digit
    · exact .inr (.inl rfl)
    · exact .inr (.inr (.inl rfl))

theorem rowByte_solid {b : UInt8} (row : rowByte b = true) : isSpace b = false := by
  rw [rowByte, decide_eq_true_iff] at row
  obtain digit | rfl | rfl | rfl := row
  · exact isSpace_of_isDigit digit
  · decide
  · decide
  · decide

theorem GenRow.not_mem_line (row : GenRow) {b : UInt8} (other : rowByte b = false) :
    b ∉ row.line := fun mem => by
  rw [row.line_bytes mem] at other
  cases other

/-- The fields of a line are read as they were written. -/
theorem GenRow.parts_line (row : GenRow) : parts 44 row.line = row.fields := by
  have bytes {t : CString} (field : t ∈ row.fields) {b : UInt8} (mem : b ∈ t) : b ≠ 44 := by
    rintro rfl
    have := field_bytes field mem
    revert this
    decide
  have solid : row.fields.map trim = row.fields.map id := by
    refine List.map_congr_left fun t field => trim_of_solid fun b mem => ?_
    obtain digit | rfl | rfl := field_bytes field mem
    · exact isSpace_of_isDigit digit
    · decide
    · decide
  have nonempty : row.fields ≠ [] := List.cons_ne_nil _ _
  rw [line, parts_intercalate nonempty fun t field mem => bytes field mem rfl, solid, List.map_id]

/-! ## Reading a row -/

/-- The columns of the file. -/
def genColumns : List Column := [.pid, .arrival, .bursts, .priority, .tickets, .nice]

/-- The text of a row in a column. -/
def GenRow.body (row : GenRow) : Column → CString
  | .pid => intText row.pid
  | .arrival => intText row.arrival
  | .burst => []
  | .bursts => [58].intercalate (row.bursts.map intText)
  | .priority => intText row.priority
  | .tickets => intText row.tickets
  | .nice => intText row.nice

/-- A row that the simulator reads. -/
structure GenRow.Fits (row : GenRow) : Prop where
  pid : InI64 row.pid
  arrival : InI64 row.arrival
  bursts : ∀ b ∈ row.bursts, InI64 b
  priority : InI64 row.priority
  tickets : InI64 row.tickets
  nice : InI64 row.nice
  readable : row.process.Readable

theorem GenRow.phasesText_iff {row : GenRow} {phases : List Int} :
    PhasesText (row.body .bursts) phases ↔
      row.bursts ≠ [] ∧ phases = row.bursts ∧ ∀ b ∈ row.bursts, InI64 b := by
  by_cases none : row.bursts = []
  · refine iff_of_false (fun text => text.ne_nil.1 ?_) fun some_ => some_.1 none
    rw [body, none]
    rfl
  have free : ∀ t ∈ row.bursts.map intText, (58 : UInt8) ∉ t := by
    intro t mem inside
    obtain ⟨z, -, rfl⟩ := List.mem_map.mp mem
    have := intText_bytes inside
    revert this
    decide
  have solid : (row.bursts.map intText).map trim = row.bursts.map intText := by
    rw [List.map_map]
    exact List.map_congr_left fun z _ => (numeral_intText z).trim_eq
  rw [PhasesText, body, parts_intercalate (by simpa using none) free, solid, forall₂_intText]
  exact (and_iff_right none).symm

theorem GenRow.rowText_iff {row : GenRow} {p : Process} :
    RowText genColumns row.line p ↔ row.Fits ∧ p = row.process := by
  constructor
  · rintro ⟨body, absent, fields, values, readable⟩
    rw [parts_line] at fields
    have same : ∀ c ∈ genColumns, body c = row.body c := by
      have fields : genColumns.map row.body = genColumns.map body := fields
      exact fun c mem => (List.map_inj_left.mp fields c mem).symm
    have pid := i64Text_intText.mp (same .pid (by decide) ▸ values.pid)
    have arrival := i64Text_intText.mp (same .arrival (by decide) ▸ values.arrival)
    have priority := optionalText_intText.mp (same .priority (by decide) ▸ values.priority)
    have tickets := optionalText_intText.mp (same .tickets (by decide) ▸ values.tickets)
    have nice := optionalText_intText.mp (same .nice (by decide) ▸ values.nice)
    have phases : p.phases = row.bursts ∧ ∀ b ∈ row.bursts, InI64 b := by
      obtain ⟨text, -⟩ | ⟨-, burst, text, -⟩ := values.phases
      · rw [same .bursts (by decide)] at text
        exact (phasesText_iff.mp text).2
      · exact absurd (absent .burst (by decide)) text.ne_nil
    have whole : p = row.process := by
      have burst := readable.burst_eq
      have io := readable.io_eq
      rw [phases.1] at burst io
      cases p
      simp only at pid arrival priority tickets nice phases burst io
      rw [GenRow.process, pid.1, arrival.1, priority.1, tickets.1, nice.1, phases.1, burst, io]
    exact ⟨⟨pid.2, arrival.2, phases.2, priority.2, tickets.2, nice.2, whole ▸ readable⟩, whole⟩
  · rintro ⟨fits, rfl⟩
    have some_ : row.bursts ≠ [] := fits.readable.phases_ne_nil
    refine ⟨row.body, fun c mem => ?_, row.parts_line, ⟨?_, ?_, ?_, ?_, ?_, ?_⟩, fits.readable⟩
    · cases c
      case burst => rfl
      all_goals exact absurd (by decide) mem
    · exact i64Text_intText.mpr ⟨rfl, fits.pid⟩
    · exact i64Text_intText.mpr ⟨rfl, fits.arrival⟩
    · exact .inl ⟨phasesText_iff.mpr ⟨some_, rfl, fits.bursts⟩, .inl rfl⟩
    · exact optionalText_intText.mpr ⟨rfl, fits.priority⟩
    · exact optionalText_intText.mpr ⟨rfl, fits.tickets⟩
    · exact optionalText_intText.mpr ⟨rfl, fits.nice⟩

/-! ## Reading the file -/

theorem headerText_csvHeader {cols : List Column} :
    HeaderText csvHeader cols ↔ cols = genColumns := by
  have parsed : parseHeader (parts 44 csvHeader) 0 = .ok genColumns := rfl
  have named := parseHeader_ok_iff.symm.trans (parsed ▸ Except.ok.injEq genColumns cols).to_iff
  exact named.trans eq_comm

/-- The lines of a file that was written. -/
theorem splitOn_toCsv (rows : List GenRow) :
    (toCsv rows).splitOn 10 = csvHeader :: (rows.map GenRow.line ++ [[]]) := by
  have whole : toCsv rows = [10].intercalate (csvHeader :: (rows.map GenRow.line ++ [[]])) := by
    have append (ts : List CString) (t : CString) :
        [10].intercalate (t :: ts) ++ [10] = [10].intercalate (t :: (ts ++ [[]])) := by
      induction ts generalizing t with
      | nil => simp [List.intercalate]
      | cons u ts ih =>
          rw [List.cons_append, List.intercalate_cons_cons, List.intercalate_cons_cons,
            List.append_assoc, ih]
    exact append _ _
  rw [whole, List.splitOn_intercalate 10 ?_ (List.cons_ne_nil _ _)]
  intro line mem
  simp only [List.mem_cons, List.mem_append, List.mem_map, List.not_mem_nil, or_false] at mem
  obtain rfl | ⟨row, -, rfl⟩ | rfl := mem
  · decide
  · exact row.not_mem_line (by decide)
  · exact List.not_mem_nil

/-- The reader takes the header and the rows. -/
theorem lineContents_toCsv {rows : List GenRow} (short : ∀ row ∈ rows, row.line.length ≤ 4094) :
    lineContents true (csvHeader :: (rows.map GenRow.line ++ [[]])) =
      csvHeader :: rows.map GenRow.line := by
  have header : content true csvHeader = [csvHeader] := by decide
  have lines : lineContents false (rows.map GenRow.line ++ [[]]) = rows.map GenRow.line := by
    induction rows with
    | nil =>
        rw [List.map_nil, List.nil_append, lineContents_cons (by decide), content_nil]
        rfl
    | cons row rows ih =>
        rw [List.forall_mem_cons] at short
        have several : 2 ≤ (parts 44 row.line).length := by
          rw [row.parts_line]
          simp [GenRow.fields]
        have free : ∀ b, Foreign b → b ≠ 44 → b ∉ row.line := by
          rintro b (rfl | rfl | rfl | rfl) notComma
          · exact row.not_mem_line (by decide)
          · exact row.not_mem_line (by decide)
          · exact absurd rfl notComma
          · exact row.not_mem_line (by decide)
        have one : content false ([] ++ row.line) = [trim row.line] :=
          content_of_text (.inl rfl) (.inl rfl) several free
        rw [List.nil_append, trim_of_solid fun b mem => rowByte_solid (row.line_bytes mem)] at one
        rw [List.map_cons, List.cons_append, lineContents_cons short.1, one, ih short.2]
        rfl
  rw [lineContents_cons (by decide), header, lines]
  rfl

/-- What `to_csv` writes is read exactly where the lines and the numbers are short enough, and
then as the processes that the rows stand for. -/
theorem read_toCsv_iff {rows : List GenRow} {ps : List Process} :
    readWorkloadCsv (toCsv rows) ⟨[]⟩ = .ok ⟨ps⟩ ↔
      (∀ row ∈ rows, row.line.length ≤ 4094 ∧ row.Fits) ∧ rows ≠ [] ∧
        ps = rows.map GenRow.process := by
  have each : List.Forall₂ (RowText genColumns) (rows.map GenRow.line) ps ↔
      (∀ row ∈ rows, row.Fits) ∧ ps = rows.map GenRow.process := by
    rw [List.forall₂_map_left_iff]
    induction rows generalizing ps with
    | nil => simp
    | cons row rows ih =>
        cases ps with
        | nil => simp
        | cons p ps =>
            rw [List.forall₂_cons, GenRow.rowText_iff, ih, List.forall_mem_cons, List.map_cons,
              List.cons_eq_cons]
            tauto
  rw [readWorkloadCsv_ok_iff, splitOn_toCsv]
  constructor
  · rintro ⟨fits, nonempty, header, texts, cols, contents, named, rowsText⟩
    have short : ∀ row ∈ rows, row.line.length ≤ 4094 := by
      intro row mem
      have fit := fits row.line (List.mem_cons_of_mem _ (List.mem_append_left _
        (List.mem_map_of_mem mem)))
      have := (pieces_of_free (row.not_mem_line (by decide)) fit).1
      simp only [lineMaxLen] at this
      omega
    rw [lineContents_toCsv short] at contents
    obtain ⟨rfl, rfl⟩ := List.cons_eq_cons.mp contents
    obtain rfl := headerText_csvHeader.mp named
    obtain ⟨fitting, rfl⟩ := each.mp rowsText
    exact ⟨fun row mem => ⟨short row mem, fitting row mem⟩, by simpa using nonempty, rfl⟩
  · rintro ⟨all, nonempty, rfl⟩
    refine ⟨fun line mem => lineFits_of_short ?_, by simpa using nonempty, csvHeader,
      rows.map GenRow.line, genColumns, lineContents_toCsv fun row mem => (all row mem).1,
      headerText_csvHeader.mpr rfl, each.mpr ⟨fun row mem => (all row mem).2, rfl⟩⟩
    simp only [List.mem_cons, List.mem_append, List.mem_map, List.not_mem_nil, or_false] at mem
    obtain rfl | ⟨row, mem, rfl⟩ | rfl := mem
    · decide
    · have := (all row mem).1
      simp only [lineMaxLen]
      omega
    · decide

/-! ## What is generated -/

/-- What holds of every row that is generated. -/
structure GenRow.Generated (row : GenRow) : Prop where
  arrival : 0 ≤ row.arrival
  odd : row.bursts.length % 2 = 1
  few : row.bursts.length ≤ 13
  pos : ∀ b ∈ row.bursts, 0 < b
  priority : 0 ≤ row.priority ∧ row.priority ≤ 9
  tickets : 1 ≤ row.tickets ∧ row.tickets ≤ 400
  nice : -20 ≤ row.nice ∧ row.nice ≤ 19

theorem drawnTicks_pos (x : ℚ) : 0 < drawnTicks x := by
  have := le_max_left 1 (halfEven x)
  rw [drawnTicks]
  omega

theorem drawnPhases_ok {phases : DrawnPhases} (possible : phases.Possible) :
    (drawnPhases phases).length % 2 = 1 ∧ (drawnPhases phases).length ≤ 13 ∧
      ∀ b ∈ drawnPhases phases, 0 < b := by
  cases phases with
  | cpuBound burst => exact ⟨rfl, by simp [drawnPhases], by simp [drawnPhases, drawnTicks_pos]⟩
  | ioBound burst factor rest =>
      have length : (drawnPhases (.ioBound burst factor rest)).length = 2 * rest.length + 1 := by
        simp [drawnPhases, List.length_flatMap, Nat.mul_comm]
      have few := possible.2
      refine ⟨by omega, by omega, fun b mem => ?_⟩
      rw [drawnPhases, List.mem_cons, List.mem_flatMap] at mem
      obtain rfl | ⟨x, -, mem⟩ := mem
      · exact drawnTicks_pos _
      · rw [List.mem_cons, List.mem_singleton] at mem
        obtain rfl | rfl := mem <;> exact drawnTicks_pos _

/-- The pids count the rows, and each row is in the ranges. -/
theorem generateFrom_ok {draws : List Draw} (possible : ∀ d ∈ draws, d.Possible) (pid : Int)
    {clock : ℚ} (nonneg : 0 ≤ clock) :
    ((generateFrom pid clock draws).map GenRow.pid).Nodup ∧
      ∀ row ∈ generateFrom pid clock draws,
        pid ≤ row.pid ∧ row.pid < pid + draws.length ∧ row.Generated := by
  induction draws generalizing pid clock with
  | nil => exact ⟨.nil, fun row mem => by cases mem⟩
  | cons d draws ih =>
      rw [List.forall_mem_cons] at possible
      obtain ⟨here, later⟩ := possible
      obtain ⟨clock', clock_eq⟩ : ∃ clock', clock' =
          if 1 < pid then nearest 53 (clock + d.gap) else clock := ⟨_, rfl⟩
      have nonneg' : 0 ≤ clock' := by
        rw [clock_eq]
        split_ifs
        · exact nearest_nonneg (add_nonneg nonneg here.gap)
        · exact nonneg
      obtain ⟨distinct, rows⟩ := ih later (pid + 1) nonneg'
      obtain ⟨odd, few, pos⟩ := drawnPhases_ok here.phases
      have tickets : 1 ≤ d.tickets ∧ d.tickets ≤ 400 := by
        have := here.tickets
        simp only [List.mem_cons, List.not_mem_nil, or_false] at this
        omega
      rw [generateFrom, ← clock_eq]
      simp only [List.map_cons, List.nodup_cons, List.forall_mem_cons, List.length_cons]
      refine ⟨⟨fun mem => ?_, distinct⟩, ⟨le_rfl, by omega, Int.floor_nonneg.mpr nonneg', odd, few,
        pos, here.priority, tickets, here.nice⟩, fun row mem => ?_⟩
      · obtain ⟨row, mem, same⟩ := List.mem_map.mp mem
        have := (rows row mem).1
        omega
      · obtain ⟨low, high, ok⟩ := rows row mem
        exact ⟨by omega, by omega, ok⟩

/-- The workload that is generated. -/
def generatedWorkload (draws : List Draw) : Workload := ⟨(generate draws).map GenRow.process⟩

theorem GenRow.Generated.valid {row : GenRow} (ok : row.Generated) (pid : 0 ≤ row.pid) :
    row.process.Valid where
  pid_nonneg := pid
  arrival_nonneg := ok.arrival
  burst_pos := evenSum_pos (by
    rintro none
    have := ok.odd
    rw [none] at this
    cases this) ok.pos
  tickets_pos := ok.tickets.1
  tickets_le := ok.tickets.2.trans (by decide)
  nice_ge := ok.nice.1
  nice_le := ok.nice.2
  phases_odd := ok.odd
  phases_pos := ok.pos
  burst_eq := rfl
  io_eq := rfl

theorem intText_length_le {z : Int} (fits : InI64 z) : (intText z).length ≤ 20 := by
  have size : z.natAbs < 10 ^ 19 := by
    obtain ⟨low, high⟩ := fits
    simp only [int64Min, int64Max] at low high
    omega
  have digits : (decimalDigits z.natAbs).length ≤ 19 := by
    rw [decimalDigits]
    split_ifs
    · decide
    · rw [List.length_reverse]
      exact (Nat.digits_length_le_iff (by decide) _).mpr size
  rw [intText, List.length_append, natText, digitBytes, List.length_map]
  split_ifs
  · rw [List.length_singleton]
    omega
  · rw [List.length_nil]
    omega

theorem length_intercalate_le (sep : UInt8) {ts : List CString} {k : Nat}
    (each : ∀ t ∈ ts, t.length ≤ k) : ([sep].intercalate ts).length ≤ ts.length * (k + 1) := by
  induction ts with
  | nil => exact Nat.zero_le _
  | cons t ts ih =>
      rw [List.forall_mem_cons] at each
      have rest := ih each.2
      cases ts with
      | nil =>
          simp only [List.intercalate, List.intersperse, List.flatten_cons, List.flatten_nil,
            List.append_nil, List.length_singleton]
          omega
      | cons u ts =>
          rw [List.intercalate_cons_cons, List.length_append, List.length_append,
            List.length_singleton, List.length_cons (a := t), Nat.add_mul]
          omega

theorem GenRow.line_length_le {row : GenRow} (few : row.bursts.length ≤ 13) (fits : row.Fits) :
    row.line.length ≤ 4094 := by
  have phases : ([58].intercalate (row.bursts.map intText)).length ≤ 273 := by
    have short : ∀ t ∈ row.bursts.map intText, t.length ≤ 20 := by
      intro t mem
      obtain ⟨z, inside, rfl⟩ := List.mem_map.mp mem
      exact intText_length_le (fits.bursts z inside)
    have length := length_intercalate_le 58 short
    rw [List.length_map] at length
    omega
  have fields : ∀ t ∈ row.fields, t.length ≤ 273 := by
    simp only [GenRow.fields, List.forall_mem_cons]
    have := intText_length_le fits.pid
    have := intText_length_le fits.arrival
    have := intText_length_le fits.priority
    have := intText_length_le fits.tickets
    have := intText_length_le fits.nice
    refine ⟨by omega, by omega, phases, by omega, by omega, by omega, ?_⟩
    exact List.forall_mem_nil _
  have length := length_intercalate_le 44 fields
  rw [show row.fields.length = 6 from rfl] at length
  exact length.trans (by decide)

theorem length_generateFrom (draws : List Draw) (pid : Int) (clock : ℚ) :
    (generateFrom pid clock draws).length = draws.length := by
  induction draws generalizing pid clock with
  | nil => rfl
  | cons d draws ih => rw [generateFrom, List.length_cons, List.length_cons, ih]

/-- The work of a workload covers its processes, and each takes a tick at least. -/
theorem work_le_totalWork {w : Workload} (valid : ∀ p ∈ w.items, p.Valid) :
    (∀ p ∈ w.items, p.burst + p.io ≤ w.totalWork) ∧ (w.items.length : Int) ≤ w.totalWork := by
  have least : ∀ x ∈ w.items.map fun p => p.burst + p.io, 1 ≤ x := by
    intro x mem
    obtain ⟨p, inside, rfl⟩ := List.mem_map.mp mem
    have burst := (valid p inside).burst_pos
    have io := oddSum_nonneg (valid p inside).phases_pos
    rw [← (valid p inside).io_eq] at io
    omega
  constructor
  · intro p mem
    have inside := List.mem_map_of_mem (f := fun p : Process => p.burst + p.io) mem
    exact List.single_le_sum (fun x mem => by have := least x mem; omega) _ inside
  · have count := List.card_nsmul_le_sum _ 1 least
    rwa [List.length_map, nsmul_eq_mul, mul_one] at count

/-- Where the sum of the phases fits, a row fits. -/
theorem GenRow.Generated.fits {row : GenRow} (ok : row.Generated) (pid : 0 ≤ row.pid)
    (pid_le : row.pid ≤ int64Max) (arrival_le : row.arrival ≤ int64Max)
    (work_le : row.process.burst + row.process.io ≤ int64Max) : row.Fits := by
  have valid := ok.valid pid
  have first := valid.burst_pos
  have io := oddSum_nonneg valid.phases_pos
  have io_eq : row.process.io = oddSum row.process.phases := rfl
  have burst_le (b : Int) (mem : b ∈ row.bursts) : b ≤ int64Max := by
    have part := List.single_le_sum (fun x mem => (ok.pos x mem).le) b mem
    have sum := evenSum_add_oddSum row.bursts
    have work : row.process.burst + row.process.io = evenSum row.bursts + oddSum row.bursts := rfl
    omega
  have least : int64Min ≤ -20 := by decide
  have most : 400 ≤ int64Max := by decide
  have arrival := ok.arrival
  have priority := ok.priority
  have tickets := ok.tickets
  have nice := ok.nice
  refine ⟨⟨by omega, pid_le⟩, ⟨by omega, arrival_le⟩, fun b mem => ⟨?_, burst_le b mem⟩,
    ⟨by omega, by omega⟩, ⟨by omega, by omega⟩, ⟨by omega, by omega⟩,
    ⟨processValidate_of_valid valid 0, ok.odd, ok.pos, rfl, rfl, by omega, by omega⟩⟩
  have := ok.pos b mem
  omega

/-- Where the horizon fits, everything in the rows does. -/
theorem generated_fits {draws : List Draw} (possible : ∀ d ∈ draws, d.Possible)
    (horizon : workloadHorizon (generatedWorkload draws) ≤ int64Max) {row : GenRow}
    (mem : row ∈ generate draws) : row.Fits := by
  obtain ⟨-, rows⟩ := generateFrom_ok possible 1 (le_refl (0 : ℚ))
  have valid : ∀ p ∈ (generatedWorkload draws).items, p.Valid := by
    intro p mem
    obtain ⟨row, generated, rfl⟩ := List.mem_map.mp mem
    obtain ⟨first, -, ok⟩ := rows row generated
    exact ok.valid (by omega)
  obtain ⟨first, last, ok⟩ := rows row mem
  obtain ⟨covers, count⟩ := work_le_totalWork valid
  have inside : row.process ∈ (generatedWorkload draws).items := List.mem_map_of_mem mem
  have work := covers row.process inside
  have arrival : row.arrival ≤ _ := Workload.arrival_le_maxArrival inside
  have nonneg := (generatedWorkload draws).maxArrival_nonneg
  have burst := (valid row.process inside).burst_pos
  have io : 0 ≤ row.process.io := oddSum_nonneg (valid row.process inside).phases_pos
  have rows_length : (generatedWorkload draws).items.length = draws.length := by
    rw [generatedWorkload, List.length_map, generate, length_generateFrom]
  rw [workloadHorizon_eq] at horizon
  exact ok.fits (by omega) (by omega) (by omega) (by omega)

/-! ## Loading what was generated -/

/-- A process of one burst, where 5/2 is drawn and rounded to even, and one of three bursts. -/
def sampleDraws : List Draw :=
  [⟨0, .cpuBound (5 / 2), 3, 50, 0⟩, ⟨7 / 2, .ioBound 8 1 [(3 / 2, 1), (20, 1 / 2)], 9, 400, -20⟩]

example : toCsv (generate sampleDraws) = csvHeader ++ cstr "\n1,0,2,3,50,0\n" ++
    cstr "2,3,2:2:2:20:1,9,400,-20\n" := by
  decide +kernel

theorem sampleDraws_possible : ∀ d ∈ sampleDraws, d.Possible := by
  intro d mem
  rw [sampleDraws, List.mem_cons, List.mem_singleton] at mem
  obtain rfl | rfl := mem
  · exact ⟨le_rfl, trivial, by decide, by decide, by decide⟩
  · exact ⟨by norm_num, ⟨by decide, by decide⟩, by decide, by decide, by decide⟩

theorem sampleDraws_horizon : workloadHorizon (generatedWorkload sampleDraws) ≤ int64Max := by
  decide +kernel

/-- The options of a run on the generated file. -/
def generatedOptions : Options Binary64 := { defaultOptions with inputPath := some (cstr "w.csv") }

/-- The files beside it do not matter. -/
def generatedFile (_path : CString) : Option (List UInt8) := some (toCsv (generate sampleDraws))

end CpuSched
