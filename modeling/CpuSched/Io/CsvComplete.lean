import CpuSched.Io.CsvSound

/-!
# Completeness of the CSV reader

The ways of writing a list of processes as CSV, and that the reader gets back the list
from each of them.
-/

namespace CpuSched

/-! ## Writing a field -/

/-- Spaces and tabs. -/
def Padding (s : CString) : Prop := ∀ b ∈ s, b = 32 ∨ b = 9

instance (s : CString) : Decidable (Padding s) :=
  decidable_of_iff (s.all (fun b => b = 32 ∨ b = 9) = true) (by simp [Padding])

/-- The body with padding around it. -/
def Padded (body text : CString) : Prop :=
  ∃ before after, Padding before ∧ Padding after ∧ text = before ++ body ++ after

/-- The phases in base 10, joined by colons, each padded. -/
def PhasesBody (phases : List Int) (text : CString) : Prop :=
  ∃ texts, List.Forall₂ (fun phase t => ∃ number, I64Text number phase ∧ Padded number t)
      phases texts ∧ text = [58].intercalate texts

/-- The texts of the columns of a process, without the padding; a column that is left out
has the empty text.  `bursts` carries the phases, and then `burst` may hold any number;
otherwise `burst` carries the only phase. -/
structure RowBodies (p : Process) (body : Column → CString) : Prop where
  pid : I64Text (body .pid) p.pid
  arrival : I64Text (body .arrival) p.arrival
  phases : PhasesBody p.phases (body .bursts) ∧
      (body .burst = [] ∨ ∃ burst, I64Text (body .burst) burst) ∨
    body .bursts = [] ∧ ∃ burst, I64Text (body .burst) burst ∧ p.phases = [burst]
  priority : OptionalText (body .priority) 0 p.priority
  tickets : OptionalText (body .tickets) 100 p.tickets
  nice : OptionalText (body .nice) 0 p.nice

/-! ## Writing a line -/

/-- A blank line or a comment. -/
def FillerLine (line : CString) : Prop :=
  Padding line ∨ ∃ before comment, Padding before ∧ line = before ++ 35 :: comment

/-- The header: the columns in any order and letter case. -/
structure HeaderLine (cols : List Column) (line : CString) : Prop where
  fields : ∃ texts, List.Forall₂ (fun c t => ∃ name, NameText name c ∧ Padded name t) cols texts ∧
    line = [44].intercalate texts
  distinct : cols.Nodup
  pid : Column.pid ∈ cols
  arrival : Column.arrival ∈ cols
  burst : Column.burst ∈ cols ∨ Column.bursts ∈ cols

/-- The row of a process. -/
def RowLine (cols : List Column) (p : Process) (line : CString) : Prop :=
  ∃ body texts, (∀ c, c ∉ cols → body c = []) ∧ RowBodies p body ∧
    List.Forall₂ (fun c t => Padded (body c) t) cols texts ∧ line = [44].intercalate texts

/-- A line in front of its newline: CRLF leaves a carriage return. -/
def Ended (line bytes : CString) : Prop := bytes = line ∨ bytes = line ++ [13]

/-- The rows of the processes in order, with blank lines and comments between them. -/
inductive CsvRows (cols : List Column) : List CString → List Process → Prop
  | nil : CsvRows cols [] []
  | filler {line bytes : CString} {lines : List CString} {ps : List Process}
      (filler : FillerLine line) (ended : Ended line bytes) (rest : CsvRows cols lines ps) :
      CsvRows cols (bytes :: lines) ps
  | row {line bytes : CString} {lines : List CString} {p : Process} {ps : List Process}
      (row : RowLine cols p line) (ended : Ended line bytes) (rest : CsvRows cols lines ps) :
      CsvRows cols (bytes :: lines) (p :: ps)

/-- A header and the rows, with blank lines and comments between them. -/
inductive CsvDocument : List CString → List Process → Prop
  | filler {line bytes : CString} {lines : List CString} {ps : List Process}
      (filler : FillerLine line) (ended : Ended line bytes) (rest : CsvDocument lines ps) :
      CsvDocument (bytes :: lines) ps
  | header {line bytes : CString} {lines : List CString} {cols : List Column}
      {ps : List Process} (header : HeaderLine cols line) (ended : Ended line bytes)
      (rows : CsvRows cols lines ps) : CsvDocument (bytes :: lines) ps

/-- A CSV rendering of the processes: lines of at most 4094 bytes with newlines between
them, after an optional byte-order mark.  A stream that ends in a newline has a last line
that is blank. -/
def CsvRendering (stream : List UInt8) (ps : List Process) : Prop :=
  (∀ line ∈ stream.splitOn 10, line.length ≤ 4094) ∧
    ∃ mark lines, (mark = [] ∨ mark = bom) ∧ CsvDocument lines ps ∧
      (∀ line ∈ lines, (10 : UInt8) ∉ line) ∧ stream = mark ++ [10].intercalate lines

/-! ## Trimming what was padded -/

theorem Padding.spaces {s : CString} (padding : Padding s) : Spaces s := by
  intro b mem
  obtain rfl | rfl := padding b mem <;> decide

theorem Padded.trim_eq {body text : CString} (padded : Padded body text) :
    trim text = trim body := by
  obtain ⟨before, after, left, right, rfl⟩ := padded
  rw [trim_append_right right.spaces, trim_append_left left.spaces]

theorem not_mem_of_trim {b : UInt8} {s : CString} (solid : isSpace b = false)
    (inner : b ∉ trim s) : b ∉ s := by
  intro mem
  obtain ⟨l, r, left, right, whole⟩ := trim_spec s
  rw [whole, List.mem_append, List.mem_append] at mem
  obtain (inside | inside) | inside := mem
  · exact left.not_mem solid inside
  · exact inner inside
  · exact right.not_mem solid inside

theorem Padded.not_mem {body text : CString} (padded : Padded body text) {b : UInt8}
    (solid : isSpace b = false) (inner : b ∉ trim body) : b ∉ text :=
  not_mem_of_trim solid (padded.trim_eq ▸ inner)

theorem I64Text.colon_not_mem {s : CString} {v : Int} (text : I64Text s v) : (58 : UInt8) ∉ s := by
  intro mem
  have := text.1.byte 58 mem
  revert this
  decide

theorem forall₂_imp_map {α β γ : Type} {R : α → β → Prop} {S : γ → α → Prop} {f : β → γ}
    {xs : List α} {ys : List β} (each : List.Forall₂ R xs ys)
    (imp : ∀ x y, R x y → S (f y) x) : List.Forall₂ S (ys.map f) xs := by
  induction each with
  | nil => exact .nil
  | cons first _ ih => exact .cons (imp _ _ first) ih

theorem PhasesBody.text {phases : List Int} {text : CString} (body : PhasesBody phases text)
    (nonempty : phases ≠ []) : PhasesText (trim text) phases := by
  obtain ⟨texts, each, rfl⟩ := body
  have some_ : texts ≠ [] := by
    rintro rfl
    exact nonempty (List.forall₂_nil_right_iff.mp each)
  have free : ∀ t ∈ texts, (58 : UInt8) ∉ t := by
    intro t mem
    obtain ⟨phase, -, number, num, padded⟩ := exists_of_forall₂ each.flip mem
    refine padded.not_mem (by decide) ?_
    rw [num.1.trim_eq]
    exact num.colon_not_mem
  rw [PhasesText, parts_trim (by decide), parts_intercalate some_ free]
  refine forall₂_imp_map each ?_
  rintro phase t ⟨number, num, padded⟩
  rw [padded.trim_eq, num.1.trim_eq]
  exact num

theorem OptionalText.trim {s : CString} {default v : Int} (text : OptionalText s default v) :
    OptionalText (trim s) default v := by
  obtain ⟨rfl, same⟩ | number := text
  · exact .inl ⟨rfl, same⟩
  · exact .inr (number.1.trim_eq.symm ▸ number)

theorem I64Text.trim {s : CString} {v : Int} (text : I64Text s v) : I64Text (trim s) v :=
  text.1.trim_eq.symm ▸ text

theorem RowBodies.values {p : Process} {body : Column → CString} (bodies : RowBodies p body)
    (nonempty : p.phases ≠ []) : RowValues (fun c => trim (body c)) p where
  pid := bodies.pid.trim
  arrival := bodies.arrival.trim
  priority := bodies.priority.trim
  tickets := bodies.tickets.trim
  nice := bodies.nice.trim
  phases := by
    obtain ⟨list, none | ⟨burst, number⟩⟩ | ⟨none, burst, number, same⟩ := bodies.phases
    · exact .inl ⟨list.text nonempty, .inl (by rw [none]; rfl)⟩
    · exact .inl ⟨list.text nonempty, .inr ⟨burst, number.trim⟩⟩
    · exact .inr ⟨by rw [none]; rfl, burst, number.trim, same⟩

theorem NameText.trim_eq {s : CString} {c : Column} (name : NameText s c) : trim s = s := by
  refine trim_of_solid fun b mem => ?_
  have letter : toLower b ∈ s.map toLower := List.mem_map_of_mem mem
  rw [name] at letter
  have letters : (cstr c.name).all (fun x => 97 ≤ x ∧ x ≤ 122) = true := by cases c <;> decide
  have range : 97 ≤ toLower b ∧ toLower b ≤ 122 := by
    simpa using List.all_eq_true.mp letters _ letter
  rw [Bool.eq_false_iff]
  intro space
  have below := isSpace_iff.mp space
  have same : toLower b = b := by
    rw [toLower, if_neg]
    rintro ⟨low, -⟩
    have : 65 ≤ b.toNat := UInt8.le_iff_toNat_le.mp low
    omega
  rw [same] at range
  have : 97 ≤ b.toNat := UInt8.le_iff_toNat_le.mp range.1
  omega

theorem HeaderLine.text {cols : List Column} {line : CString} (header : HeaderLine cols line) :
    HeaderText line cols := by
  obtain ⟨texts, each, rfl⟩ := header.fields
  have nonempty : texts ≠ [] := by
    rintro rfl
    obtain rfl := List.forall₂_nil_right_iff.mp each
    exact absurd header.pid List.not_mem_nil
  have free : ∀ t ∈ texts, (44 : UInt8) ∉ t := by
    intro t mem
    obtain ⟨c, -, name, text, padded⟩ := exists_of_forall₂ each.flip mem
    refine padded.not_mem (by decide) ?_
    rw [text.trim_eq]
    exact text.not_mem (.inr (.inr (.inl rfl)))
  refine ⟨?_, header.distinct, header.pid, header.arrival, header.burst⟩
  rw [parts_intercalate nonempty free]
  refine forall₂_imp_map each ?_
  rintro c t ⟨name, text, padded⟩
  rw [padded.trim_eq, text.trim_eq]
  exact text

theorem map_trim_eq {cols : List Column} {texts : List CString} {body : Column → CString}
    (each : List.Forall₂ (fun c t => Padded (body c) t) cols texts) :
    texts.map trim = cols.map fun c => trim (body c) := by
  induction each with
  | nil => rfl
  | cons first _ ih => rw [List.map_cons, List.map_cons, first.trim_eq, ih]

theorem Process.Readable.phases_ne_nil {p : Process} (readable : p.Readable) : p.phases ≠ [] := by
  intro none
  have odd := readable.phases_odd
  rw [Process.phaseCount, none] at odd
  cases odd

theorem RowLine.text {cols : List Column} {p : Process} {line : CString}
    (row : RowLine cols p line) (known : cols ≠ []) (readable : p.Readable) :
    RowText cols line p := by
  obtain ⟨body, texts, absent, bodies, each, rfl⟩ := row
  have values := bodies.values readable.phases_ne_nil
  have nonempty : texts ≠ [] := by
    rintro rfl
    exact known (List.forall₂_nil_right_iff.mp each)
  have free : ∀ t ∈ texts, (44 : UInt8) ∉ t := by
    intro t mem
    obtain ⟨c, -, padded⟩ : ∃ c ∈ cols, Padded (body c) t := exists_of_forall₂ each.flip mem
    exact padded.not_mem (by decide) (values.not_mem (.inr (.inr (.inl rfl))) c)
  refine ⟨fun c => trim (body c), fun c outside => ?_, ?_, values, readable⟩
  · change trim (body c) = []
    rw [absent c outside]
    rfl
  · rw [parts_intercalate nonempty free, map_trim_eq each]

/-! ## What the reader takes from a written line -/

theorem space_or_mem_of_skipped {s : CString} (skip : skipped s = true) :
    Spaces s ∨ (35 : UInt8) ∈ s := by
  rw [skipped] at skip
  cases rest : s.dropWhile isSpace with
  | nil => exact .inl (List.dropWhile_eq_nil_iff.mp rest)
  | cons b t =>
      rw [rest] at skip
      obtain rfl : b = 35 := by simpa using skip
      have mem : (35 : UInt8) ∈ s.dropWhile isSpace := rest ▸ List.mem_cons_self
      exact .inr ((List.dropWhile_suffix isSpace).mem mem)

theorem two_le_length {cols : List Column} (pid : Column.pid ∈ cols)
    (arrival : Column.arrival ∈ cols) : 2 ≤ cols.length := by
  match cols with
  | [c] =>
      have same := List.mem_singleton.mp pid
      rw [← same] at arrival
      exact absurd arrival (by decide)
  | _ :: _ :: _ => simp

/-- A line with two fields or more and none of the foreign bytes is not skipped. -/
theorem not_skipped {line : CString} (several : 2 ≤ (parts 44 line).length)
    (noHash : (35 : UInt8) ∉ line) : skipped line = false := by
  rw [Bool.eq_false_iff]
  intro skip
  obtain spaces | hash := space_or_mem_of_skipped skip
  · exact spaces.not_mem (by decide) (sep_mem_of_parts several)
  · exact noHash hash

theorem not_bom_start {s : CString} (head : s.head? ≠ some 0xEF) : ¬bom <+: s := by
  rintro ⟨rest, rfl⟩
  exact head rfl

/-- A mark stands in front of the first line only. -/
def Marked (first : Bool) (mark : CString) : Prop := mark = [] ∨ first = true ∧ mark = bom

theorem content_eq {first : Bool} {mark bytes : CString} (marked : Marked first mark)
    (unmarked : ¬bom <+: bytes) :
    content first (mark ++ bytes) =
      if skipped (cstringOf bytes) = true then [] else [trim (cstringOf bytes)] := by
  have text : csvText first (mark ++ bytes) = trim (cstringOf bytes) := by
    obtain rfl | ⟨rfl, rfl⟩ := marked
    · cases first with
      | false => rfl
      | true =>
          have same : dropBom (cstringOf bytes) = cstringOf bytes :=
            if_neg fun start => unmarked
              ((startsWith_iff.mp start).trans (cstringOf_start _))
          rw [List.nil_append, csvText]
          simp only [if_true, same]
    · rfl
  rw [content, text]
  exact if_congr skipped_iff rfl rfl

theorem Ended.start {line bytes : CString} (ended : Ended line bytes) : line <+: bytes := by
  obtain rfl | rfl := ended
  · exact List.prefix_rfl
  · exact List.prefix_append line [13]

theorem Ended.unmarked {line bytes : CString} (ended : Ended line bytes)
    (head : line.head? ≠ some 0xEF) : ¬bom <+: bytes := by
  refine not_bom_start ?_
  obtain rfl | rfl := ended
  · exact head
  · cases line with
    | nil => decide
    | cons b rest => exact head

theorem FillerLine.head {line : CString} (filler : FillerLine line) :
    line.head? ≠ some 0xEF := by
  have padded (s rest : CString) (padding : Padding s) (start : rest.head? ≠ some 0xEF) :
      (s ++ rest).head? ≠ some 0xEF := by
    cases s with
    | nil => exact start
    | cons b s =>
        obtain rfl | rfl := padding b List.mem_cons_self
        · simp
        · simp
  obtain padding | ⟨before, comment, padding, rfl⟩ := filler
  · have := padded line [] padding (by simp)
    rwa [List.append_nil] at this
  · exact padded before _ padding (by simp)

theorem skipped_comment {before : CString} (spaces : Spaces before) (rest : CString) :
    skipped (before ++ 35 :: rest) = true := by
  rw [skipped, List.dropWhile_append, dropWhile_all spaces]
  rfl

theorem FillerLine.skipped {line bytes : CString} (filler : FillerLine line)
    (ended : Ended line bytes) : skipped bytes = true := by
  have start : bytes <+: line ++ [13] := by
    obtain rfl | rfl := ended
    · exact List.prefix_append bytes [13]
    · exact List.prefix_rfl
  refine skipped_of_start start ?_
  obtain padding | ⟨before, comment, padding, rfl⟩ := filler
  · have spaces : Spaces (line ++ [13]) := by
      intro b mem
      rcases List.mem_append.mp mem with inside | inside
      · exact padding.spaces b inside
      · rw [List.mem_singleton.mp inside]
        decide
    rw [CpuSched.skipped, dropWhile_all spaces]
    rfl
  · rw [List.append_assoc]
    exact skipped_comment padding.spaces _

theorem FillerLine.content {first : Bool} {mark line bytes : CString} (filler : FillerLine line)
    (ended : Ended line bytes) (marked : Marked first mark) :
    content first (mark ++ bytes) = [] := by
  rw [content_eq marked (ended.unmarked filler.head), if_pos]
  exact skipped_of_start (cstringOf_start _) (filler.skipped ended)

theorem content_of_text {first : Bool} {mark line bytes : CString} (ended : Ended line bytes)
    (marked : Marked first mark) (several : 2 ≤ (parts 44 line).length)
    (foreign : ∀ b, Foreign b → b ≠ 44 → b ∉ line) :
    content first (mark ++ bytes) = [trim line] := by
  have noNul := foreign 0 (.inl rfl) (by decide)
  have noHash := foreign 35 (.inr (.inl rfl)) (by decide)
  have noMark := foreign 0xEF (.inr (.inr (.inr rfl))) (by decide)
  have head : line.head? ≠ some 0xEF := fun start => noMark (List.mem_of_head? start)
  have free : (0 : UInt8) ∉ bytes := by
    obtain rfl | rfl := ended
    · exact noNul
    · simpa using noNul
  have notSkipped : ¬CpuSched.skipped bytes = true := by
    intro skip
    have := not_skipped several noHash
    rw [skipped_of_start ended.start skip] at this
    cases this
  have trimmed : trim bytes = trim line := by
    obtain rfl | rfl := ended
    · rfl
    · refine trim_append_right (fun b mem => ?_) line
      rw [List.mem_singleton.mp mem]
      decide
  rw [content_eq marked (ended.unmarked head), cstringOf_of_free free, if_neg notSkipped, trimmed]

theorem lineContents_cons {line : CString} (short : line.length ≤ 4094) (first : Bool)
    (rest : List CString) :
    lineContents first (line :: rest) = content first line ++ lineContents false rest := by
  have fits : line.length < lineMaxLen - 1 := by
    simp only [lineMaxLen]
    omega
  rw [lineContents, pieces, if_pos fits, pieceContents, pieceContents, List.append_nil]

/-- The reader takes the rows. -/
theorem CsvRows.contents {header : CString} {cols : List Column} {lines : List CString}
    {ps : List Process} (rows : CsvRows cols lines ps) (named : HeaderText header cols)
    (readable : ∀ p ∈ ps, p.Readable) (short : ∀ line ∈ lines, line.length ≤ 4094) :
    List.Forall₂ (RowText cols) (lineContents false lines) ps := by
  induction rows with
  | nil => exact .nil
  | @filler line bytes lines ps filler ended _ ih =>
      rw [List.forall_mem_cons] at short
      have none : content false bytes = [] := filler.content ended (.inl rfl)
      rw [lineContents_cons short.1, none, List.nil_append]
      exact ih readable short.2
  | @row line bytes lines p ps row ended _ ih =>
      rw [List.forall_mem_cons] at short readable
      have text := row.text named.ne_nil readable.1
      have several : 2 ≤ (parts 44 line).length := by
        obtain ⟨body, -, fields, -⟩ := text
        rw [fields, List.length_map]
        exact two_le_length named.pid named.arrival
      have one : content false bytes = [trim line] :=
        content_of_text ended (.inl rfl) several fun b => text.not_mem
      rw [lineContents_cons short.1, one, List.singleton_append]
      exact .cons (rowText_trim.mpr text) (ih readable.2 short.2)

/-- The reader takes the header and the rows. -/
theorem CsvDocument.contents {lines : List CString} {ps : List Process}
    (document : CsvDocument lines ps) (readable : ∀ p ∈ ps, p.Readable) {first : Bool}
    {mark : CString} (marked : Marked first mark)
    (short : ∀ line ∈ lines.modifyHead (mark ++ ·), line.length ≤ 4094) :
    ∃ header rows cols, lineContents first (lines.modifyHead (mark ++ ·)) = header :: rows ∧
      HeaderText header cols ∧ List.Forall₂ (RowText cols) rows ps := by
  induction document generalizing first mark with
  | @filler line bytes lines ps filler ended _ ih =>
      rw [List.modifyHead_cons, List.forall_mem_cons] at short
      have same : lines.modifyHead (([] : CString) ++ ·) = lines := by cases lines <;> rfl
      obtain ⟨header, rows, cols, texts, named, each⟩ :=
        ih readable (.inl rfl : Marked false []) (same.symm ▸ short.2)
      rw [same] at texts
      refine ⟨header, rows, cols, ?_, named, each⟩
      rw [List.modifyHead_cons, lineContents_cons short.1, filler.content ended marked, texts,
        List.nil_append]
  | @header line bytes lines cols ps header ended rows =>
      rw [List.modifyHead_cons, List.forall_mem_cons] at short
      have text := header.text
      have several : 2 ≤ (parts 44 line).length := by
        rw [text.named.length_eq]
        exact two_le_length text.pid text.arrival
      refine ⟨trim line, lineContents false lines, cols, ?_, headerText_trim.mpr text,
        rows.contents text readable short.2⟩
      rw [List.modifyHead_cons, lineContents_cons short.1,
        content_of_text ended marked several fun b => text.not_mem, List.singleton_append]

/-- `read_workload_csv` reads every CSV rendering of a list of processes as that list. -/
theorem read_workload_csv_complete (ps : List Process) (nonempty : ps ≠ [])
    (readable : ∀ p ∈ ps, p.Readable) (stream : List UInt8) (rendering : CsvRendering stream ps) :
    readWorkloadCsv stream ⟨[]⟩ = .ok ⟨ps⟩ := by
  obtain ⟨short, mark, lines, marked, document, free, rfl⟩ := rendering
  have some_ : lines ≠ [] := by
    rintro rfl
    cases document
  have noNewline : (10 : UInt8) ∉ mark := by
    obtain rfl | rfl := marked <;> decide
  have split : (mark ++ [10].intercalate lines).splitOn 10 = lines.modifyHead (mark ++ ·) := by
    rw [splitOn_append_left noNewline, List.splitOn_intercalate 10 free some_]
  have marked : Marked true mark := marked.imp id fun same => ⟨rfl, same⟩
  rw [split] at short
  refine readWorkloadCsv_ok_iff.mpr ⟨fun line mem => ?_, nonempty, ?_⟩
  · rw [split] at mem
    refine lineFits_of_short ?_
    have := short line mem
    simp only [lineMaxLen]
    omega
  · rw [split]
    exact document.contents readable marked short

/-- Two processes under a mark, with a carriage return, a comment and a blank line. -/
def markedCsv : List UInt8 :=
  bom ++ cstr "Pid , arrival,BURSTS\x0d\n# note\n\n7,+3,4 :1:2\n8,09,5"

/-- The processes it stands for. -/
def markedProcesses : List Process :=
  [{ pid := 7, arrival := 3, burst := 6, io := 1, phases := [4, 1, 2] }, processMake 8 9 5]

/-- The texts of the columns `pid`, `arrival` and `bursts`. -/
def threeColumns (pid arrival bursts : CString) : Column → CString
  | .pid => pid
  | .arrival => arrival
  | .bursts => bursts
  | _ => []

theorem Padded.refl (body : CString) : Padded body body :=
  ⟨[], [], by decide, by decide, by simp⟩

theorem read_workload_csv_complete_marked :
    readWorkloadCsv markedCsv ⟨[]⟩ = .ok ⟨markedProcesses⟩ := by
  refine read_workload_csv_complete markedProcesses (by decide) ?_ markedCsv
    ⟨by decide, bom, [cstr "Pid , arrival,BURSTS\x0d", cstr "# note", [], cstr "7,+3,4 :1:2",
      cstr "8,09,5"], .inr rfl, ?_, by decide, by decide⟩
  · intro p mem
    rcases List.mem_cons.mp mem with rfl | mem
    · exact ⟨by decide, by decide, by decide, by decide, by decide, by decide, by decide⟩
    · obtain rfl := List.mem_singleton.mp mem
      exact ⟨by decide, by decide, by decide, by decide, by decide, by decide, by decide⟩
  have number {s : CString} {v : Int} (parsed : parseI64 s = some v) : I64Text s v :=
    parseI64_eq_some_iff.mp parsed
  have header : HeaderLine [.pid, .arrival, .bursts] (cstr "Pid , arrival,BURSTS") := by
    refine ⟨⟨[cstr "Pid ", cstr " arrival", cstr "BURSTS"], ?_, by decide⟩, by decide, by decide,
      by decide, .inr (by decide)⟩
    exact .cons ⟨cstr "Pid", by decide, [], [32], by decide, by decide, by decide⟩
      (.cons ⟨cstr "arrival", by decide, [32], [], by decide, by decide, by decide⟩
        (.cons ⟨cstr "BURSTS", by decide, .refl _⟩ .nil))
  have row {p : Process} {pid arrival bursts line : CString}
      (bodies : RowBodies p (threeColumns pid arrival bursts))
      (same : line = [44].intercalate [pid, arrival, bursts]) :
      RowLine [.pid, .arrival, .bursts] p line := by
    refine ⟨threeColumns pid arrival bursts, [pid, arrival, bursts], ?_, bodies, ?_, same⟩
    · intro c outside
      cases c <;> first | rfl | exact absurd (by decide) outside
    · exact .cons (.refl _) (.cons (.refl _) (.cons (.refl _) .nil))
  have first : RowBodies { pid := 7, arrival := 3, burst := 6, io := 1, phases := [4, 1, 2] }
      (threeColumns (cstr "7") (cstr "+3") (cstr "4 :1:2")) := by
    refine ⟨number (by decide), number (by decide), .inl ⟨⟨[cstr "4 ", cstr "1", cstr "2"], ?_,
      by decide⟩, .inl rfl⟩, .inl ⟨rfl, rfl⟩, .inl ⟨rfl, rfl⟩, .inl ⟨rfl, rfl⟩⟩
    exact .cons ⟨cstr "4", number (by decide), [], [32], by decide, by decide, by decide⟩
      (.cons ⟨cstr "1", number (by decide), .refl _⟩
        (.cons ⟨cstr "2", number (by decide), .refl _⟩ .nil))
  have second : RowBodies (processMake 8 9 5)
      (threeColumns (cstr "8") (cstr "09") (cstr "5")) := by
    refine ⟨number (by decide), number (by decide), .inl ⟨⟨[cstr "5"], ?_, by decide⟩, .inl rfl⟩,
      .inl ⟨rfl, rfl⟩, .inl ⟨rfl, rfl⟩, .inl ⟨rfl, rfl⟩⟩
    exact .cons ⟨cstr "5", number (by decide), .refl _⟩ .nil
  exact .header header (.inr rfl) (.filler (.inr ⟨[], cstr " note", by decide, rfl⟩) (.inl rfl)
    (.filler (.inl (by decide)) (.inl rfl) (.row (row first (by decide)) (.inl rfl)
      (.row (row second (by decide)) (.inl rfl) .nil))))

end CpuSched
