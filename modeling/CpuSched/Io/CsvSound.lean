import CpuSched.Io.CsvLines

/-!
# Soundness of the CSV reader

What an accepted stream says: its lines that are neither blank nor comments are a header
and one row for each process, with nothing left out.  The reader drops the rest of a
buffer after a NUL, so this holds exactly where every NUL is in a comment that
hides nothing else.
-/

namespace CpuSched

/-! ## Accepted streams -/

/-- `read_workload_csv` on an empty workload. -/
theorem readWorkloadCsv_ok_iff {stream : List UInt8} {ps : List Process} :
    readWorkloadCsv stream ⟨[]⟩ = .ok ⟨ps⟩ ↔
      (∀ line ∈ stream.splitOn 10, LineFits line) ∧ ps ≠ [] ∧ ∃ header rows cols,
        lineContents true (stream.splitOn 10) = header :: rows ∧ HeaderText header cols ∧
          List.Forall₂ (RowText cols) rows ps := by
  obtain ⟨texts, ends⟩ := contents_stream stream
  have loop {s' : CsvState} : readCsvLines (chunksOf stream) ⟨0, [], ⟨[]⟩⟩ = .ok s' ↔ _ :=
    readCsvLines_ok_iff (.inl rfl) fun chunk mem => chunksOf_short mem
  simp only [decide_true, texts, List.nil_append, Nat.zero_add] at loop
  rw [readWorkloadCsv, exceptBind_ok_iff, ← ends]
  constructor
  · rintro ⟨s, lines, accepted⟩
    obtain ⟨fits, cols, ps', reads, rfl⟩ := loop.mp lines
    split_ifs at accepted with unknown empty
    · cases accepted
    · cases accepted
    · obtain rfl : ps' = ps := by simpa using accepted
      obtain ⟨-, rfl, -⟩ | ⟨header, rows, same, named, each⟩ := reads_start_iff.mp reads
      · exact absurd rfl unknown
      · exact ⟨fits, fun none => empty (by simp [none, Workload.len]), header, rows, cols, same,
          named, each⟩
  · rintro ⟨fits, nonempty, header, rows, cols, same, named, each⟩
    refine ⟨_, loop.mpr ⟨fits, cols, ps, ?_, rfl⟩, ?_⟩
    · rw [same]
      exact reads_start_iff.mpr (.inr ⟨header, rows, rfl, named, each⟩)
    · exact (if_neg named.ne_nil).trans
        (if_neg fun none => nonempty (List.length_eq_zero_iff.mp none))

/-! ## Lines -/

/-- Blank or a `#` comment: the first byte that is not white space, if any, is `#`. -/
def skipped (text : CString) : Bool := (text.dropWhile isSpace).head?.all (· = 35)

/-- The text of a line: without the byte-order mark on the first line. -/
def lineText (first : Bool) (line : CString) : CString := if first then dropBom line else line

/-- A line of a stream and its text. -/
structure CsvLine where
  bytes : CString
  text : CString
  deriving DecidableEq, Repr

/-- The lines with their texts; `first` where the first of them is line 1. -/
def csvLinesFrom : Bool → List CString → List CsvLine
  | _, [] => []
  | first, line :: rest => ⟨line, lineText first line⟩ :: csvLinesFrom false rest

/-- The stream split at its newlines. -/
def csvLines (stream : List UInt8) : List CsvLine := csvLinesFrom true (stream.splitOn 10)

/-- The lines that are neither blank nor comments. -/
def contentLines (lines : List CsvLine) : List CsvLine :=
  lines.filter fun line => !skipped line.text

/-- The stream says that the processes are `ps`: a header, then one row for each process. -/
structure CsvSound (stream : List UInt8) (ps : List Process) : Prop where
  short : ∀ line ∈ contentLines (csvLines stream), line.bytes.length ≤ 4094
  decoded : ∃ header rows cols, contentLines (csvLines stream) = header :: rows ∧
    HeaderText header.text cols ∧ List.Forall₂ (fun line p => RowText cols line.text p) rows ps
  validated : ∀ p ∈ ps, processValidate p 0 = .ok ()

/-- A line with a NUL is a comment, and, where it is longer than a buffer, each further
piece of it up to its first NUL is blank or a comment again. -/
def CsvLine.NulInComment (line : CsvLine) : Prop :=
  (0 : UInt8) ∈ line.bytes →
    skipped line.text = true ∧ ∀ piece ∈ (pieces line.bytes).tail, skipped (cstringOf piece) = true

/-- Every NUL is in a comment that hides nothing else. -/
def NulsInComments (stream : List UInt8) : Prop := ∀ line ∈ csvLines stream, line.NulInComment

theorem trim_head? (s : CString) : (trim s).head? = (s.dropWhile isSpace).head? := by
  rw [trim]
  generalize rest : s.dropWhile isSpace = t
  cases t with
  | nil => rfl
  | cons b t =>
      have solid : ¬isSpace b = true := by
        have := List.head_dropWhile_not isSpace (l := s) (by simp [rest])
        simpa [rest] using this
      obtain ⟨dropped, whole⟩ := List.rdropWhile_prefix isSpace (b :: t)
      cases kept : (b :: t).rdropWhile isSpace with
      | nil => exact absurd (List.rdropWhile_eq_nil_iff.mp kept b List.mem_cons_self) solid
      | cons b' t' =>
          rw [kept, List.cons_append, List.cons_eq_cons] at whole
          rw [List.head?_cons, List.head?_cons, whole.1]

theorem skipped_iff {s : CString} :
    (trim s = [] ∨ (trim s).head? = some 35) ↔ skipped s = true := by
  rw [skipped, ← trim_head?]
  cases trim s <;> simp

theorem skipped_of_start {s t : CString} (start : s <+: t) (skip : skipped t = true) :
    skipped s = true := by
  obtain ⟨rest, rfl⟩ := start
  rw [skipped, List.dropWhile_append] at skip
  rw [skipped]
  cases here : s.dropWhile isSpace with
  | nil => rfl
  | cons b s' =>
      rw [here] at skip
      exact skip

theorem content_eq_nil_iff {first : Bool} {bytes : List UInt8} :
    content first bytes = [] ↔
      skipped (if first then dropBom (cstringOf bytes) else cstringOf bytes) = true := by
  obtain ⟨text, text_eq⟩ : ∃ text,
      text = if first then dropBom (cstringOf bytes) else cstringOf bytes := ⟨_, rfl⟩
  have same : csvText first bytes = trim text := text_eq ▸ rfl
  rw [content, same, ← text_eq, ← skipped_iff]
  by_cases skip : trim text = [] ∨ (trim text).head? = some 35
  · rw [if_pos skip]
    exact iff_of_true rfl skip
  · rw [if_neg skip]
    exact iff_of_false (List.cons_ne_nil _ _) skip

/-- A line without a NUL that fits is one buffer. -/
theorem pieces_of_free {line : CString} (free : (0 : UInt8) ∉ line) (fits : LineFits line) :
    line.length < lineMaxLen - 1 ∧ pieces line = [line] := by
  by_cases short : line.length < lineMaxLen - 1
  · exact ⟨short, by rw [pieces, if_pos short]⟩
  · exact absurd (List.mem_of_mem_take ((lineFits_cons short).mp fits).1) free

theorem pieceContents_of_free {line : CString} (free : (0 : UInt8) ∉ line) (fits : LineFits line)
    (first : Bool) :
    pieceContents first (pieces line) =
      if skipped (lineText first line) = true then [] else [trim (lineText first line)] := by
  have same : csvText first line = trim (lineText first line) := by
    rw [csvText, cstringOf_of_free free]
    rfl
  rw [(pieces_of_free free fits).2, pieceContents, pieceContents, List.append_nil, content, same]
  exact if_congr skipped_iff rfl rfl

theorem mem_dropBom {line : CString} (nul : (0 : UInt8) ∈ line) : (0 : UInt8) ∈ dropBom line := by
  rw [dropBom]
  split_ifs with mark
  · obtain ⟨rest, rfl⟩ := startsWith_iff.mp mark
    rcases List.mem_append.mp nul with inside | inside
    · exact absurd inside (by decide)
    · exact inside
  · exact nul

theorem mem_lineText {first : Bool} {line : CString} (nul : (0 : UInt8) ∈ line) :
    (0 : UInt8) ∈ lineText first line := by
  cases first with
  | true => exact mem_dropBom nul
  | false => exact nul

theorem pieces_head {line piece : CString} {rest : List CString}
    (cut : pieces line = piece :: rest) :
    piece <+: line ∧ (bom <+: line → bom <+: piece) := by
  rw [pieces] at cut
  split_ifs at cut with short
  · obtain ⟨rfl, -⟩ := List.cons_eq_cons.mp cut
    exact ⟨List.prefix_rfl, id⟩
  · obtain ⟨rfl, -⟩ := List.cons_eq_cons.mp cut
    have start : line.take (lineMaxLen - 1) <+: line := List.take_prefix _ _
    exact ⟨start, fun mark => List.prefix_take_iff.mpr ⟨mark, by decide⟩⟩

theorem dropBom_start {line piece : CString} (start : cstringOf piece <+: line)
    (mark : bom <+: line → bom <+: piece) : dropBom (cstringOf piece) <+: dropBom line := by
  by_cases marked : bom <+: line
  · obtain ⟨rest, rfl⟩ := mark marked
    obtain ⟨rest', rfl⟩ := marked
    -- The mark has no NUL, so it is in the buffer's string.
    have text : cstringOf (bom ++ rest) = bom ++ cstringOf rest := rfl
    rw [text] at start ⊢
    exact (List.prefix_append_right_inj bom).mp start
  · have unmarked (s : CString) (sub : s <+: line) : dropBom s = s :=
      if_neg fun here => marked ((startsWith_iff.mp here).trans sub)
    rw [unmarked _ start, unmarked line List.prefix_rfl]
    exact start

/-- The first piece of a comment is a comment. -/
theorem content_head_eq_nil {first : Bool} {line piece : CString} {rest : List CString}
    (cut : pieces line = piece :: rest) (skip : skipped (lineText first line) = true) :
    content first piece = [] := by
  obtain ⟨start, mark⟩ := pieces_head cut
  have stringStart : cstringOf piece <+: line := (cstringOf_start _).trans start
  rw [content_eq_nil_iff]
  cases first with
  | false => exact skipped_of_start stringStart skip
  | true => exact skipped_of_start (dropBom_start stringStart mark) skip

theorem pieces_ne_nil (line : CString) : pieces line ≠ [] := by
  rw [pieces]
  split_ifs <;> exact List.cons_ne_nil _ _

theorem pieceContents_eq_nil_iff {ps : List CString} :
    pieceContents false ps = [] ↔ ∀ piece ∈ ps, skipped (cstringOf piece) = true := by
  induction ps with
  | nil => simp [pieceContents]
  | cons piece rest ih =>
      rw [pieceContents, List.append_eq_nil_iff, content_eq_nil_iff, ih, List.forall_mem_cons]
      rfl

/-- The reader takes nothing from a comment exactly where its further pieces are blank or
comments. -/
theorem pieceContents_of_skipped {first : Bool} {line : CString}
    (skip : skipped (lineText first line) = true) :
    pieceContents first (pieces line) = [] ↔
      ∀ piece ∈ (pieces line).tail, skipped (cstringOf piece) = true := by
  cases cut : pieces line with
  | nil => exact absurd cut (pieces_ne_nil line)
  | cons piece rest =>
      rw [pieceContents, content_head_eq_nil cut skip, List.nil_append, List.tail_cons]
      exact pieceContents_eq_nil_iff

/-! ## Bytes of header lines and rows -/

/-- A byte that no field contains: a NUL, `#`, a comma or the first byte of a mark. -/
def Foreign (b : UInt8) : Prop := b = 0 ∨ b = 35 ∨ b = 44 ∨ b = 0xEF

theorem Foreign.solid {b : UInt8} (foreign : Foreign b) :
    isSpace b = false ∧ b ≠ 58 ∧ b ≠ 43 ∧ b ≠ 45 ∧ isDigit b = false ∧ toLower b = b := by
  obtain rfl | rfl | rfl | rfl := foreign <;> decide

theorem not_mem_of_parts {sep b : UInt8} {s : CString} (solid : isSpace b = false)
    (other : b ≠ sep) (each : ∀ t ∈ parts sep s, b ∉ t) : b ∉ s := by
  intro mem
  obtain same | space | ⟨t, part, inside⟩ := mem_parts sep mem
  · exact other same
  · rw [solid] at space
    cases space
  · exact each t part inside

theorem NameText.not_mem {s : CString} {c : Column} (name : NameText s c) {b : UInt8}
    (foreign : Foreign b) : b ∉ s := by
  obtain ⟨-, -, -, -, -, lower⟩ := foreign.solid
  intro mem
  have letter : b ∈ s.map toLower := List.mem_map.mpr ⟨b, mem, lower⟩
  rw [name] at letter
  obtain rfl | rfl | rfl | rfl := foreign <;> cases c <;> exact absurd letter (by decide)

theorem HeaderText.not_mem {line : CString} {cols : List Column} (named : HeaderText line cols)
    {b : UInt8} (foreign : Foreign b) (notComma : b ≠ 44) : b ∉ line := by
  refine not_mem_of_parts foreign.solid.1 notComma fun t part => ?_
  obtain ⟨c, -, name⟩ := exists_of_forall₂ named.named part
  exact name.not_mem foreign

theorem I64Text.not_mem {s : CString} {v : Int} (text : I64Text s v) {b : UInt8}
    (foreign : Foreign b) : b ∉ s := by
  obtain ⟨-, -, plus, minus, digit, -⟩ := foreign.solid
  intro mem
  obtain isDig | rfl | rfl := text.1.byte b mem
  · rw [digit] at isDig
    cases isDig
  · exact plus rfl
  · exact minus rfl

theorem PhasesText.not_mem {s : CString} {phases : List Int} (text : PhasesText s phases)
    {b : UInt8} (foreign : Foreign b) : b ∉ s := by
  obtain ⟨solid, colon, -⟩ := foreign.solid
  refine not_mem_of_parts solid colon fun t part inside => ?_
  obtain ⟨v, -, number⟩ := exists_of_forall₂ text part
  exact number.not_mem foreign inside

theorem OptionalText.not_mem {s : CString} {default v : Int} (text : OptionalText s default v)
    {b : UInt8} (foreign : Foreign b) : b ∉ s := by
  obtain ⟨rfl, -⟩ | number := text
  · exact List.not_mem_nil
  · exact number.not_mem foreign

theorem RowValues.not_mem {body : Column → CString} {p : Process} (values : RowValues body p)
    {b : UInt8} (foreign : Foreign b) (c : Column) : b ∉ body c := by
  cases c with
  | pid => exact values.pid.not_mem foreign
  | arrival => exact values.arrival.not_mem foreign
  | burst =>
      obtain ⟨-, none | ⟨burst, number⟩⟩ | ⟨-, burst, number, -⟩ := values.phases
      · rw [none]
        exact List.not_mem_nil
      · exact number.not_mem foreign
      · exact number.not_mem foreign
  | bursts =>
      obtain ⟨list, -⟩ | ⟨none, -⟩ := values.phases
      · exact list.not_mem foreign
      · rw [none]
        exact List.not_mem_nil
  | priority => exact values.priority.not_mem foreign
  | tickets => exact values.tickets.not_mem foreign
  | nice => exact values.nice.not_mem foreign

theorem RowText.not_mem {cols : List Column} {line : CString} {p : Process}
    (row : RowText cols line p) {b : UInt8} (foreign : Foreign b) (notComma : b ≠ 44) :
    b ∉ line := by
  obtain ⟨body, -, fields, values, -⟩ := row
  refine not_mem_of_parts foreign.solid.1 notComma fun t part => ?_
  rw [fields] at part
  obtain ⟨c, -, rfl⟩ := List.mem_map.mp part
  exact values.not_mem foreign c

/-! ## Exactly when the reader is sound -/

theorem contentLines_cons (line : CsvLine) (lines : List CsvLine) :
    contentLines (line :: lines) =
      if skipped line.text = true then contentLines lines else line :: contentLines lines := by
  rw [contentLines, List.filter_cons]
  cases skipped line.text <;> rfl

/-- Where every NUL is in a comment, the reader takes the texts of the lines that are
neither blank nor comments. -/
theorem lineContents_eq {lines : List CString} {first : Bool}
    (fits : ∀ line ∈ lines, LineFits line)
    (nuls : ∀ line ∈ csvLinesFrom first lines, line.NulInComment) :
    lineContents first lines =
      (contentLines (csvLinesFrom first lines)).map fun line => trim line.text := by
  induction lines generalizing first with
  | nil => rfl
  | cons line rest ih =>
      rw [List.forall_mem_cons] at fits
      rw [csvLinesFrom, List.forall_mem_cons] at nuls
      rw [lineContents, ih fits.2 nuls.2, csvLinesFrom, contentLines_cons]
      by_cases nul : (0 : UInt8) ∈ line
      · obtain ⟨skip, further⟩ := nuls.1 nul
        rw [(pieceContents_of_skipped skip).mpr further, if_pos skip, List.nil_append]
      · rw [pieceContents_of_free nul fits.1]
        by_cases skip : skipped (lineText first line) = true
        · rw [if_pos skip, if_pos skip, List.nil_append]
        · rw [if_neg skip, if_neg skip, List.map_cons, List.singleton_append]

/-- The reader takes at least one text from every line that is neither blank nor a
comment; where it takes no more, every NUL is in a comment. -/
theorem length_contentLines_le {lines : List CString} {first : Bool}
    (fits : ∀ line ∈ lines, LineFits line)
    (free : ∀ line ∈ contentLines (csvLinesFrom first lines), (0 : UInt8) ∉ line.bytes) :
    (contentLines (csvLinesFrom first lines)).length ≤ (lineContents first lines).length ∧
      ((lineContents first lines).length = (contentLines (csvLinesFrom first lines)).length →
        ∀ line ∈ csvLinesFrom first lines, line.NulInComment) := by
  induction lines generalizing first with
  | nil => exact ⟨le_rfl, fun _ => List.forall_mem_nil _⟩
  | cons line rest ih =>
      rw [List.forall_mem_cons] at fits
      rw [csvLinesFrom, contentLines_cons] at free
      rw [csvLinesFrom, contentLines_cons, lineContents, List.length_append,
        List.forall_mem_cons]
      by_cases skip : skipped (lineText first line) = true
      · rw [if_pos skip] at free ⊢
        obtain ⟨atLeast, exactly⟩ := ih fits.2 free
        refine ⟨by omega, fun same => ⟨fun _ => ⟨skip, ?_⟩, exactly (by omega)⟩⟩
        exact (pieceContents_of_skipped skip).mp (List.length_eq_zero_iff.mp (by omega))
      · rw [if_neg skip] at free ⊢
        rw [List.forall_mem_cons] at free
        obtain ⟨atLeast, exactly⟩ := ih fits.2 free.2
        have one := congrArg List.length (pieceContents_of_free free.1 fits.1 first)
        rw [if_neg skip, List.length_singleton] at one
        rw [List.length_cons, one]
        refine ⟨by omega, fun same => ⟨fun nul => absurd nul free.1, exactly (by omega)⟩⟩

theorem rowText_trim {cols : List Column} {line : CString} {p : Process} :
    RowText cols (trim line) p ↔ RowText cols line p := by
  rw [RowText, RowText, parts_trim (by decide)]

theorem headerText_trim {line : CString} {cols : List Column} :
    HeaderText (trim line) cols ↔ HeaderText line cols := by
  have same : parts 44 (trim line) = parts 44 line := parts_trim (by decide) line
  constructor
  · intro named
    exact { named with named := same ▸ named.named }
  · intro named
    exact { named with named := same.symm ▸ named.named }

theorem csvLinesFrom_mem {lines : List CString} {first : Bool} {line : CsvLine}
    (mem : line ∈ csvLinesFrom first lines) :
    line.bytes ∈ lines ∧ ((0 : UInt8) ∈ line.bytes → (0 : UInt8) ∈ line.text) := by
  induction lines generalizing first with
  | nil => cases mem
  | cons bytes rest ih =>
      rcases List.mem_cons.mp mem with rfl | mem
      · exact ⟨List.mem_cons_self, mem_lineText⟩
      · obtain ⟨here, nul⟩ := ih mem
        exact ⟨List.mem_cons_of_mem _ here, nul⟩

/-- No line that is neither blank nor a comment contains a NUL. -/
theorem CsvSound.free {stream : List UInt8} {ps : List Process} (sound : CsvSound stream ps) :
    ∀ line ∈ contentLines (csvLines stream), (0 : UInt8) ∉ line.bytes := by
  obtain ⟨header, rows, cols, same, named, each⟩ := sound.decoded
  intro line mem nul
  have inText := (csvLinesFrom_mem (List.mem_of_mem_filter mem)).2 nul
  rw [same] at mem
  rcases List.mem_cons.mp mem with rfl | mem
  · exact named.not_mem (.inl rfl) (by decide) inText
  · obtain ⟨p, -, row⟩ := exists_of_forall₂ each mem
    exact row.not_mem (.inl rfl) (by decide) inText

/-- `read_workload_csv`: an accepted stream is a header and one row for each process, with
every byte accounted for, exactly where its NULs are in comments. -/
theorem read_workload_csv_sound_iff (stream : List UInt8) (ps : List Process)
    (accepted : readWorkloadCsv stream ⟨[]⟩ = .ok ⟨ps⟩) :
    CsvSound stream ps ↔ NulsInComments stream := by
  obtain ⟨fits, -, header, rows, cols, texts, named, each⟩ := readWorkloadCsv_ok_iff.mp accepted
  constructor
  · intro sound
    obtain ⟨header', rows', cols', same, -, each'⟩ := sound.decoded
    refine (length_contentLines_le fits sound.free).2 ?_
    change _ = (contentLines (csvLines stream)).length
    rw [texts, same, List.length_cons, List.length_cons, each.length_eq, each'.length_eq]
  · intro nuls
    have lines := lineContents_eq fits nuls
    rw [texts] at lines
    have content : ∀ line ∈ contentLines (csvLines stream), (0 : UInt8) ∉ line.bytes := by
      intro line mem nul
      obtain ⟨here, notSkipped⟩ := List.mem_filter.mp mem
      rw [(nuls line here nul).1] at notSkipped
      cases notSkipped
    refine ⟨?_, ?_, ?_⟩
    · intro line mem
      have here := (csvLinesFrom_mem (List.mem_of_mem_filter mem)).1
      have short := (pieces_of_free (content line mem) (fits _ here)).1
      simp only [lineMaxLen] at short
      omega
    · cases split : contentLines (csvLines stream) with
      | nil =>
          rw [csvLines] at split
          rw [split] at lines
          cases lines
      | cons line others =>
          rw [csvLines] at split
          rw [split, List.map_cons, List.cons_eq_cons] at lines
          obtain ⟨rfl, rfl⟩ := lines
          refine ⟨line, others, cols, rfl, headerText_trim.mp named, ?_⟩
          exact (List.forall₂_map_left_iff.mp each).imp fun _ _ => rowText_trim.mp
    · intro p mem
      obtain ⟨row, -, text⟩ := exists_of_forall₂ each.flip mem
      obtain ⟨body, -, -, -, readable⟩ := text
      exact readable.validated

/-- A comment with a NUL, a header and two rows, the second in `bursts`. -/
def nulCommentCsv : List UInt8 :=
  cstr "#" ++ 0 :: cstr " note\npid,arrival,burst,bursts\n1,0,5,\n2,3,,4:1:2\n"

theorem read_workload_csv_sound_iff_comment :
    CsvSound nulCommentCsv
      [processMake 1 0 5,
        { pid := 2, arrival := 3, burst := 6, io := 1, phases := [4, 1, 2] }] := by
  refine (read_workload_csv_sound_iff nulCommentCsv _ (by decide)).mpr ?_
  have lines : csvLines nulCommentCsv =
      ⟨cstr "#" ++ 0 :: cstr " note", cstr "#" ++ 0 :: cstr " note"⟩ ::
        [cstr "pid,arrival,burst,bursts", cstr "1,0,5,", cstr "2,3,,4:1:2", []].map
          fun line => ⟨line, line⟩ := by decide
  rw [NulsInComments, lines, List.forall_mem_cons]
  refine ⟨fun _ => ⟨by decide, ?_⟩, ?_⟩
  · rw [pieces, if_pos (by decide)]
    exact List.forall_mem_nil _
  · intro line mem nul
    obtain ⟨bytes, here, rfl⟩ := List.mem_map.mp mem
    exact absurd nul ((by decide : ∀ bytes ∈ [cstr "pid,arrival,burst,bursts", cstr "1,0,5,",
      cstr "2,3,,4:1:2", []], (0 : UInt8) ∉ bytes) bytes here)

/-- A row that goes on after a NUL. -/
def nulRowCsv : List UInt8 := cstr "pid,arrival,burst\n1,0,5" ++ 0 :: cstr "junk\n"

/-- It is accepted, and the rest of its row is lost. -/
theorem read_workload_csv_drops_bytes :
    readWorkloadCsv nulRowCsv ⟨[]⟩ = .ok ⟨[processMake 1 0 5]⟩ ∧
      ¬CsvSound nulRowCsv [processMake 1 0 5] := by
  refine ⟨by decide, fun sound => ?_⟩
  have row : (⟨cstr "1,0,5" ++ 0 :: cstr "junk", cstr "1,0,5" ++ 0 :: cstr "junk"⟩ : CsvLine) ∈
      contentLines (csvLines nulRowCsv) := by decide
  exact sound.free _ row (by decide)

end CpuSched
