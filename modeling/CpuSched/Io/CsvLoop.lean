import CpuSched.Io.CsvRows

/-!
# The loop of the CSV reader

What `read_workload_csv` makes of the texts that `fgets` delivers: it skips blank texts
and comments, the first other text is the header, and each text after it is a row.
-/

namespace CpuSched

/-- The text of a buffer, unless it is blank or a comment; `first` on line 1. -/
def content (first : Bool) (bytes : List UInt8) : List CString :=
  if csvText first bytes = [] ∨ (csvText first bytes).head? = some 35 then []
  else [csvText first bytes]

/-- The texts that are not skipped. -/
def contents : Bool → List Chunk → List CString
  | _, [] => []
  | first, chunk :: rest => content first chunk.bytes ++ contents false rest

/-- Texts that are read after the header `header` (empty before it is known): the header
afterwards and the processes. -/
inductive Reads : List Column → List CString → List Column → List Process → Prop
  | nil (header : List Column) : Reads header [] header []
  | header {text : CString} {rest : List CString} {cols cols' : List Column} {ps : List Process}
      (named : HeaderText text cols) (rows : Reads cols rest cols' ps) :
      Reads [] (text :: rest) cols' ps
  | row {text : CString} {rest : List CString} {cols cols' : List Column} {p : Process}
      {ps : List Process} (known : cols ≠ []) (row : RowText cols text p)
      (rows : Reads cols rest cols' ps) : Reads cols (text :: rest) cols' (p :: ps)

theorem Reads.append {cols cols' cols'' : List Column} {texts texts' : List CString}
    {ps ps' : List Process} (first : Reads cols texts cols' ps)
    (second : Reads cols' texts' cols'' ps') : Reads cols (texts ++ texts') cols'' (ps ++ ps') := by
  induction first with
  | nil header => exact second
  | header named _ ih => exact .header named (ih second)
  | row known row _ ih => exact .row known row (ih second)

theorem Reads.split {cols cols'' : List Column} {texts texts' : List CString}
    {ps : List Process} (whole : Reads cols (texts ++ texts') cols'' ps) :
    ∃ cols' ps₁ ps₂, ps = ps₁ ++ ps₂ ∧ Reads cols texts cols' ps₁ ∧
      Reads cols' texts' cols'' ps₂ := by
  induction texts generalizing cols ps with
  | nil => exact ⟨cols, [], ps, rfl, .nil cols, whole⟩
  | cons text texts ih =>
      cases whole with
      | header named rows =>
          obtain ⟨cols', ps₁, ps₂, rfl, first, second⟩ := ih rows
          exact ⟨cols', ps₁, ps₂, rfl, .header named first, second⟩
      | @row _ _ _ _ p _ known row rows =>
          obtain ⟨cols', ps₁, ps₂, rfl, first, second⟩ := ih rows
          exact ⟨cols', p :: ps₁, ps₂, rfl, .row known row first, second⟩

theorem HeaderText.ne_nil {text : CString} {cols : List Column} (named : HeaderText text cols) :
    cols ≠ [] := List.ne_nil_of_mem named.pid

/-- After a header that is known only rows are read. -/
theorem reads_rows_iff {cols cols' : List Column} {texts : List CString} {ps : List Process}
    (known : cols ≠ []) :
    Reads cols texts cols' ps ↔ cols' = cols ∧ List.Forall₂ (RowText cols) texts ps := by
  constructor
  · intro reads
    induction reads with
    | nil header => exact ⟨rfl, .nil⟩
    | header => exact absurd rfl known
    | row _ row _ ih =>
        obtain ⟨rfl, rows⟩ := ih known
        exact ⟨rfl, .cons row rows⟩
  · rintro ⟨rfl, rows⟩
    induction rows with
    | nil => exact .nil _
    | cons row _ ih => exact .row known row ih

theorem reads_start_iff {cols : List Column} {texts : List CString} {ps : List Process} :
    Reads [] texts cols ps ↔
      (texts = [] ∧ cols = [] ∧ ps = []) ∨
        ∃ header rows, texts = header :: rows ∧ HeaderText header cols ∧
          List.Forall₂ (RowText cols) rows ps := by
  constructor
  · intro reads
    cases reads with
    | nil => exact .inl ⟨rfl, rfl, rfl⟩
    | @header text rest _ _ _ named rows =>
        obtain ⟨rfl, rows⟩ := (reads_rows_iff named.ne_nil).mp rows
        exact .inr ⟨text, rest, rfl, named, rows⟩
    | row known => exact absurd rfl known
  · rintro (⟨rfl, rfl, rfl⟩ | ⟨header, rows, rfl, named, each⟩)
    · exact .nil []
    · exact .header named ((reads_rows_iff named.ne_nil).mpr ⟨rfl, each⟩)

theorem reads_nil_iff {cols cols' : List Column} {ps : List Process} :
    Reads cols [] cols' ps ↔ cols' = cols ∧ ps = [] := by
  constructor
  · rintro ⟨⟩
    exact ⟨rfl, rfl⟩
  · rintro ⟨rfl, rfl⟩
    exact .nil _

theorem reads_single_iff {cols cols' : List Column} {text : CString} {ps : List Process} :
    Reads cols [text] cols' ps ↔
      (cols = [] ∧ HeaderText text cols' ∧ ps = []) ∨
        (cols ≠ [] ∧ cols' = cols ∧ ∃ p, RowText cols text p ∧ ps = [p]) := by
  constructor
  · intro reads
    cases reads with
    | header named rows =>
        obtain ⟨rfl, rfl⟩ := reads_nil_iff.mp rows
        exact .inl ⟨rfl, named, rfl⟩
    | row known row rows =>
        obtain ⟨rfl, rfl⟩ := reads_nil_iff.mp rows
        exact .inr ⟨known, rfl, _, row, rfl⟩
  · rintro (⟨rfl, named, rfl⟩ | ⟨known, rfl, p, row, rfl⟩)
    · exact .header named (.nil _)
    · exact .row known row (.nil _)

/-- The header of a state is unknown or the columns of some header line. -/
def CsvState.HeaderOk (s : CsvState) : Prop := s.header = [] ∨ ∃ text, HeaderText text s.header

theorem Reads.headerOk {cols cols' : List Column} {texts : List CString} {ps : List Process}
    (reads : Reads cols texts cols' ps) (ok : cols = [] ∨ ∃ text, HeaderText text cols) :
    cols' = [] ∨ ∃ text, HeaderText text cols' := by
  induction reads with
  | nil => exact ok
  | header named _ ih => exact ih (.inr ⟨_, named⟩)
  | row _ _ _ ih => exact ih ok

theorem length_columns_le {cols : List Column} (distinct : cols.Nodup) : cols.length ≤ 7 := by
  have all : cols ⊆ columns := fun c _ => by cases c <;> decide
  exact (List.subperm_of_subset distinct all).length_le

/-- The fields of a line that is a header or a row are not too many. -/
theorem splitFields_eq_some {text : CString} (few : (parts 44 text).length ≤ 7) :
    splitFields text maxColumns = some (parts 44 text) := by
  have room : ¬maxColumns < (parts 44 text).length := by
    rw [maxColumns]
    omega
  exact if_neg room

theorem splitFields_eq {text : CString} {fields : List CString}
    (split : splitFields text maxColumns = some fields) : fields = parts 44 text := by
  simp only [splitFields] at split
  split_ifs at split
  exact (Option.some.inj split).symm

theorem cstringOf_start (bytes : List UInt8) : cstringOf bytes <+: bytes :=
  List.takeWhile_prefix _

theorem csvText_length_le (first : Bool) (bytes : List UInt8) :
    (csvText first bytes).length ≤ bytes.length := by
  have buffer : (cstringOf bytes).length ≤ bytes.length := (cstringOf_start bytes).length_le
  refine (trim_length_le _).trans ?_
  rw [dropBom]
  split_ifs
  · rw [List.length_drop]
    omega
  · exact buffer
  · exact buffer

theorem decide_line_eq (n : Nat) : decide (n + 1 = 1) = decide (n = 0) := by simp

/-- One round of the loop reads the text of the buffer. -/
theorem readCsvLine_ok_iff {s s' : CsvState} {chunk : Chunk} (ok : s.HeaderOk)
    (short : chunk.bytes.length < lineMaxLen) :
    readCsvLine s chunk = .ok s' ↔
      chunk.tooLong = false ∧ ∃ cols ps,
        Reads s.header (content (decide (s.line = 0)) chunk.bytes) cols ps ∧
          s' = ⟨s.line + 1, cols, ⟨s.w.items ++ ps⟩⟩ := by
  obtain ⟨text, text_eq⟩ : ∃ text, text = csvText (decide (s.line = 0)) chunk.bytes := ⟨_, rfl⟩
  have textShort : text.length < lineMaxLen := text_eq ▸ (csvText_length_le _ _).trans_lt short
  simp only [readCsvLine, decide_line_eq, content, ← text_eq]
  cases long : chunk.tooLong with
  | true => simp [inputError]
  | false =>
      simp only [Bool.false_eq_true, if_false, true_and]
      by_cases skip : text = [] ∨ text.head? = some 35
      · rw [if_pos skip, if_pos skip]
        constructor
        · rintro ⟨⟩
          exact ⟨s.header, [], .nil _, by rw [List.append_nil]⟩
        · rintro ⟨cols, ps, reads, rfl⟩
          obtain ⟨rfl, rfl⟩ := reads_nil_iff.mp reads
          rw [List.append_nil]
      rw [if_neg skip, if_neg skip]
      constructor
      · intro accepted
        cases split : splitFields text maxColumns with
        | none =>
            rw [split] at accepted
            cases accepted
        | some fields =>
            obtain rfl := splitFields_eq split
            rw [split] at accepted
            simp only at accepted
            by_cases unknown : s.header = []
            · rw [if_pos unknown] at accepted
              obtain ⟨cols, parsed, same⟩ := exceptBind_ok_iff.mp accepted
              obtain rfl := Except.ok.inj same
              exact ⟨cols, [], reads_single_iff.mpr
                (.inl ⟨unknown, parseHeader_ok_iff.mp parsed, rfl⟩), by rw [List.append_nil]⟩
            · obtain ⟨header, named⟩ := ok.resolve_left unknown
              rw [if_neg unknown] at accepted
              obtain ⟨w, parsed, same⟩ := exceptBind_ok_iff.mp accepted
              obtain rfl := Except.ok.inj same
              obtain ⟨p, row, rfl⟩ := (parseRow_ok_iff named textShort).mp parsed
              exact ⟨s.header, [p], reads_single_iff.mpr (.inr ⟨unknown, rfl, p, row, rfl⟩), rfl⟩
      · rintro ⟨cols, ps, reads, rfl⟩
        obtain ⟨unknown, named, rfl⟩ | ⟨known, rfl, p, row, rfl⟩ := reads_single_iff.mp reads
        · have few : (parts 44 text).length ≤ 7 :=
            named.named.length_eq.trans_le (length_columns_le named.distinct)
          rw [splitFields_eq_some few]
          simp only
          rw [if_pos unknown, parseHeader_ok_iff.mpr named, List.append_nil]
          rfl
        · obtain ⟨header, named⟩ := ok.resolve_left known
          have few : (parts 44 text).length ≤ 7 := by
            obtain ⟨body, -, fields, -, -⟩ := row
            rw [fields, List.length_map]
            exact length_columns_le named.distinct
          rw [splitFields_eq_some few]
          simp only
          rw [if_neg known, (parseRow_ok_iff named textShort).mpr ⟨p, row, rfl⟩]
          rfl

/-- The loop reads the texts that are not skipped. -/
theorem readCsvLines_ok_iff {chunks : List Chunk} {s s' : CsvState} (ok : s.HeaderOk)
    (short : ∀ chunk ∈ chunks, chunk.bytes.length < lineMaxLen) :
    readCsvLines chunks s = .ok s' ↔
      (∀ chunk ∈ chunks, chunk.tooLong = false) ∧ ∃ cols ps,
        Reads s.header (contents (decide (s.line = 0)) chunks) cols ps ∧
          s' = ⟨s.line + chunks.length, cols, ⟨s.w.items ++ ps⟩⟩ := by
  induction chunks generalizing s with
  | nil =>
      rw [readCsvLines, contents]
      constructor
      · rintro ⟨⟩
        exact ⟨by simp, _, [], .nil _, by simp⟩
      · rintro ⟨-, cols, ps, reads, rfl⟩
        obtain ⟨rfl, rfl⟩ := reads_nil_iff.mp reads
        simp
  | cons chunk rest ih =>
      rw [List.forall_mem_cons] at short
      rw [readCsvLines, exceptBind_ok_iff, contents, List.forall_mem_cons]
      have later (line : Nat) : decide (line + 1 = 0) = false := by simp
      constructor
      · rintro ⟨mid, first, others⟩
        obtain ⟨fits, cols, ps, reads, rfl⟩ := (readCsvLine_ok_iff ok short.1).mp first
        have next : CsvState.HeaderOk ⟨s.line + 1, cols, ⟨s.w.items ++ ps⟩⟩ := reads.headerOk ok
        obtain ⟨restFits, cols', ps', reads', rfl⟩ := (ih next short.2).mp others
        rw [later] at reads'
        refine ⟨⟨fits, restFits⟩, cols', ps ++ ps', reads.append reads', ?_⟩
        simp only [List.append_assoc, List.length_cons]
        congr 1
        omega
      · rintro ⟨⟨fits, restFits⟩, cols', ps, whole, rfl⟩
        obtain ⟨cols, ps₁, ps₂, rfl, reads, reads'⟩ := whole.split
        have next : CsvState.HeaderOk ⟨s.line + 1, cols, ⟨s.w.items ++ ps₁⟩⟩ := reads.headerOk ok
        refine ⟨_, (readCsvLine_ok_iff ok short.1).mpr ⟨fits, cols, ps₁, reads, rfl⟩,
          (ih next short.2).mpr ⟨restFits, cols', ps₂, ?_, ?_⟩⟩
        · rw [later]
          exact reads'
        · simp only [List.append_assoc, List.length_cons]
          congr 1
          omega

end CpuSched
