import CpuSched.Io.CsvLoop

/-!
# Buffers and lines

How the buffers that `fgets` fills follow from the lines of the stream.  A line that fits is
one buffer; a longer one is cut every 4095 bytes, which the reader notices unless there is
a NUL in the buffer.
-/

namespace CpuSched

/-! ## `fgets` -/

theorem fgetsBytes_line {line : CString} (free : (10 : UInt8) ∉ line) {room : Nat}
    (fits : line.length < room) (rest : List UInt8) :
    fgetsBytes room (line ++ 10 :: rest) = (⟨line ++ [10], false⟩, rest) := by
  induction line generalizing room with
  | nil =>
      obtain ⟨room, rfl⟩ : ∃ r, room = r + 1 := ⟨room - 1, by simp at fits; omega⟩
      rfl
  | cons b line ih =>
      rw [List.mem_cons, not_or] at free
      rw [List.length_cons] at fits
      obtain ⟨room, rfl⟩ : ∃ r, room = r + 1 := ⟨room - 1, by omega⟩
      rw [List.cons_append, fgetsBytes, if_neg (Ne.symm free.1), ih free.2 (by omega)]
      rfl

theorem fgetsBytes_full {line : CString} (free : (10 : UInt8) ∉ line) {room : Nat}
    (long : room ≤ line.length) (rest : List UInt8) :
    fgetsBytes room (line ++ rest) = (⟨line.take room, false⟩, line.drop room ++ rest) := by
  induction line generalizing room with
  | nil =>
      obtain rfl : room = 0 := by simpa using long
      rfl
  | cons b line ih =>
      rw [List.mem_cons, not_or] at free
      cases room with
      | zero => rfl
      | succ room =>
          rw [List.length_cons] at long
          rw [List.cons_append, fgetsBytes, if_neg (Ne.symm free.1), ih free.2 (by omega)]
          rfl

theorem fgetsBytes_end {line : CString} (free : (10 : UInt8) ∉ line) {room : Nat}
    (fits : line.length < room) : fgetsBytes room line = (⟨line, true⟩, []) := by
  induction line generalizing room with
  | nil =>
      obtain ⟨room, rfl⟩ : ∃ r, room = r + 1 := ⟨room - 1, by simp at fits; omega⟩
      rfl
  | cons b line ih =>
      rw [List.mem_cons, not_or] at free
      rw [List.length_cons] at fits
      obtain ⟨room, rfl⟩ : ∃ r, room = r + 1 := ⟨room - 1, by omega⟩
      rw [fgetsBytes, if_neg (Ne.symm free.1), ih free.2 (by omega)]

theorem fgetsBytes_length (room : Nat) (stream : List UInt8) :
    (fgetsBytes room stream).1.bytes.length ≤ room ∧
      (fgetsBytes room stream).1.bytes.length + (fgetsBytes room stream).2.length =
        stream.length := by
  induction stream generalizing room with
  | nil => cases room <;> simp [fgetsBytes]
  | cons b stream ih =>
      cases room with
      | zero => simp [fgetsBytes]
      | succ room =>
          have := ih room
          rw [fgetsBytes]
          split_ifs
          · simp [Nat.add_comm]
          · simp only [List.length_cons]
            omega

/-- Every call of `fgets` before the end of the stream reads something. -/
theorem fgetsBytes_rest_lt {stream : List UInt8} (nonempty : stream ≠ []) :
    (fgetsBytes (lineMaxLen - 1) stream).2.length < stream.length := by
  have total := (fgetsBytes_length (lineMaxLen - 1) stream).2
  obtain ⟨b, rest, rfl⟩ := List.exists_cons_of_ne_nil nonempty
  have some_ : 0 < (fgetsBytes (lineMaxLen - 1) (b :: rest)).1.bytes.length := by
    rw [show lineMaxLen - 1 = 4094 + 1 from rfl, fgetsBytes]
    split_ifs <;> simp
  omega

/-- What is read from the stream, buffer by buffer. -/
def chunksOf (stream : List UInt8) : List Chunk := fgetsAll stream.length stream

theorem fgetsAll_fuel {stream : List UInt8} {fuel : Nat} (enough : stream.length ≤ fuel) :
    fgetsAll fuel stream = chunksOf stream := by
  induction fuel using Nat.strong_induction_on generalizing stream with
  | _ fuel ih =>
      by_cases empty : stream = []
      · subst empty
        cases fuel <;> rfl
      · have shorter := fgetsBytes_rest_lt empty
        obtain ⟨fuel, rfl⟩ : ∃ n, fuel = n + 1 := ⟨fuel - 1, by omega⟩
        obtain ⟨n, length⟩ : ∃ n, stream.length = n + 1 := ⟨stream.length - 1, by omega⟩
        rw [chunksOf, length, fgetsAll, fgetsAll, fgets, if_neg empty]
        simp only
        rw [ih fuel (by omega) (by omega), ih n (by omega) (by omega)]

theorem chunksOf_nil : chunksOf [] = [] := rfl

theorem chunksOf_eq {stream : List UInt8} (nonempty : stream ≠ []) :
    chunksOf stream = (fgetsBytes (lineMaxLen - 1) stream).1 ::
      chunksOf (fgetsBytes (lineMaxLen - 1) stream).2 := by
  have shorter := fgetsBytes_rest_lt nonempty
  obtain ⟨n, length⟩ : ∃ n, stream.length = n + 1 := ⟨stream.length - 1, by omega⟩
  rw [chunksOf, length, fgetsAll, fgets, if_neg nonempty]
  simp only
  rw [fgetsAll_fuel (by omega)]

/-- The first buffer of a line that fits in it. -/
theorem chunksOf_line {line : CString} (free : (10 : UInt8) ∉ line)
    (fits : line.length < lineMaxLen - 1) (rest : List UInt8) :
    chunksOf (line ++ 10 :: rest) = ⟨line ++ [10], false⟩ :: chunksOf rest := by
  rw [chunksOf_eq (by simp), fgetsBytes_line free fits]

/-- The first buffer of a longer line. -/
theorem chunksOf_full {line : CString} (free : (10 : UInt8) ∉ line)
    (long : ¬line.length < lineMaxLen - 1) (rest : List UInt8) :
    chunksOf (line ++ rest) =
      ⟨line.take (lineMaxLen - 1), false⟩ :: chunksOf (line.drop (lineMaxLen - 1) ++ rest) := by
  have nonempty : line ++ rest ≠ [] := by
    intro empty
    rw [(List.append_eq_nil_iff.mp empty).1] at long
    exact long (by decide)
  rw [chunksOf_eq nonempty, fgetsBytes_full free (not_lt.mp long)]

/-- The buffer of a last line without a newline. -/
theorem chunksOf_last {line : CString} (free : (10 : UInt8) ∉ line)
    (fits : line.length < lineMaxLen - 1) (nonempty : line ≠ []) :
    chunksOf line = [⟨line, true⟩] := by
  rw [chunksOf_eq nonempty, fgetsBytes_end free fits, chunksOf_nil]

theorem chunksOf_short {stream : List UInt8} {chunk : Chunk} (mem : chunk ∈ chunksOf stream) :
    chunk.bytes.length < lineMaxLen := by
  have all (fuel : Nat) : ∀ stream, chunk ∈ fgetsAll fuel stream →
      chunk.bytes.length < lineMaxLen := by
    induction fuel with
    | zero =>
        intro stream mem
        cases mem
    | succ fuel ih =>
        intro stream mem
        rw [fgetsAll, fgets] at mem
        by_cases empty : stream = []
        · rw [if_pos empty] at mem
          cases mem
        · rw [if_neg empty] at mem
          rcases List.mem_cons.mp mem with rfl | mem
          · have bound := (fgetsBytes_length (lineMaxLen - 1) stream).1
            have pos : 0 < lineMaxLen := by decide
            omega
          · exact ih _ mem
  exact all _ stream mem

/-! ## The text of a buffer -/

theorem cstringOf_of_free {bytes : List UInt8} (free : (0 : UInt8) ∉ bytes) :
    cstringOf bytes = bytes :=
  takeWhile_all fun _ mem => decide_eq_true fun zero => free (zero ▸ mem)

theorem cstringOf_length_lt {bytes : List UInt8} (nul : (0 : UInt8) ∈ bytes) :
    (cstringOf bytes).length < bytes.length := by
  have before := cstringOf_start bytes
  refine before.length_le.lt_of_ne fun same => ?_
  have whole := List.takeWhile_eq_self_iff.mp (before.eq_of_length same) 0 nul
  simp at whole

theorem cstringOf_append_of_mem {bytes : List UInt8} (nul : (0 : UInt8) ∈ bytes)
    (rest : List UInt8) : cstringOf (bytes ++ rest) = cstringOf bytes := by
  have shorter := cstringOf_length_lt nul
  rw [cstringOf] at shorter
  rw [cstringOf, List.takeWhile_append, if_neg shorter.ne]
  rfl

theorem csvText_newline (first : Bool) (bytes : List UInt8) :
    csvText first (bytes ++ [10]) = csvText first bytes := by
  have newline : Spaces [10] := by
    intro b mem
    rw [List.mem_singleton.mp mem]
    decide
  by_cases nul : (0 : UInt8) ∈ bytes
  · rw [csvText, csvText, cstringOf_append_of_mem nul]
  have free : (0 : UInt8) ∉ bytes ++ [10] := by simpa using nul
  rw [csvText, csvText, cstringOf_of_free nul, cstringOf_of_free free]
  cases first with
  | false => exact trim_append_right newline bytes
  | true =>
      have marked : bom.isPrefixOf (bytes ++ [10]) = bom.isPrefixOf bytes := by
        rw [Bool.eq_iff_iff, startsWith_iff, startsWith_iff,
          List.prefix_concat_iff]
        refine or_iff_right fun same => ?_
        have : (10 : UInt8) ∈ bom := same ▸ List.mem_append_right bytes List.mem_cons_self
        exact absurd this (by decide)
      simp only [if_true, dropBom, marked]
      by_cases mark : bom.isPrefixOf bytes = true
      · have long : 3 ≤ bytes.length := (startsWith_iff.mp mark).length_le
        rw [if_pos mark, if_pos mark, List.drop_append_of_le_length long,
          trim_append_right newline]
      · rw [if_neg mark, if_neg mark, trim_append_right newline]

theorem content_newline (first : Bool) (bytes : List UInt8) :
    content first (bytes ++ [10]) = content first bytes := by
  rw [content, content, csvText_newline]

theorem content_nil (first : Bool) : content first [] = [] := by
  cases first <;> decide

/-! ## The pieces of a line -/

/-- A line cut every 4095 bytes; only the last piece is shorter. -/
def pieces (line : CString) : List CString :=
  if line.length < lineMaxLen - 1 then [line]
  else line.take (lineMaxLen - 1) :: pieces (line.drop (lineMaxLen - 1))
termination_by line.length
decreasing_by
  simp only [lineMaxLen, List.length_drop] at *
  omega

/-- What the reader takes from the pieces of a line. -/
def pieceContents : Bool → List CString → List CString
  | _, [] => []
  | first, piece :: rest => content first piece ++ pieceContents false rest

/-- The reader sees no buffer without an end. -/
def LineFits (line : CString) : Prop :=
  ∀ piece ∈ pieces line, piece.length < lineMaxLen - 1 ∨ (0 : UInt8) ∈ piece

theorem tooLong_full {piece : CString} (free : (10 : UInt8) ∉ piece)
    (full : piece.length = lineMaxLen - 1) :
    Chunk.tooLong ⟨piece, false⟩ = false ↔ (0 : UInt8) ∈ piece := by
  rw [Chunk.tooLong, decide_eq_false_iff_not]
  constructor
  · intro ends
    by_contra nul
    rw [cstringOf_of_free nul] at ends
    exact ends ⟨full, fun last => free (List.mem_of_getLast? last), rfl⟩
  · rintro nul ⟨same, -⟩
    exact (cstringOf_length_lt nul).ne (same.trans full.symm)

theorem tooLong_line {line : CString} (fits : line.length < lineMaxLen - 1) :
    Chunk.tooLong ⟨line ++ [10], false⟩ = false := by
  rw [Chunk.tooLong, decide_eq_false_iff_not]
  rintro ⟨full, last, -⟩
  by_cases nul : (0 : UInt8) ∈ line
  · rw [cstringOf_append_of_mem nul] at full
    have := cstringOf_length_lt nul
    omega
  · have free : (0 : UInt8) ∉ line ++ [10] := by simpa using nul
    rw [cstringOf_of_free free] at last
    simp at last

theorem tooLong_feof (bytes : List UInt8) : Chunk.tooLong ⟨bytes, true⟩ = false := by
  simp [Chunk.tooLong]

/-- A line that ends in a newline is read piece by piece. -/
theorem contents_line {line : CString} (free : (10 : UInt8) ∉ line) (rest : List UInt8)
    (first : Bool) :
    contents first (chunksOf (line ++ 10 :: rest)) =
      pieceContents first (pieces line) ++ contents false (chunksOf rest) := by
  induction line using pieces.induct generalizing first with
  | case1 line fits =>
      rw [chunksOf_line free fits, pieces, if_pos fits, contents, content_newline,
        pieceContents, pieceContents, List.append_nil]
  | case2 line long ih =>
      have after : (10 : UInt8) ∉ line.drop (lineMaxLen - 1) :=
        fun mem => free (List.mem_of_mem_drop mem)
      rw [chunksOf_full free long, pieces, if_neg long, contents, pieceContents, ih after,
        List.append_assoc]

/-- So is the last line, which has none. -/
theorem contents_last {line : CString} (free : (10 : UInt8) ∉ line) (first : Bool) :
    contents first (chunksOf line) = pieceContents first (pieces line) := by
  induction line using pieces.induct generalizing first with
  | case1 line fits =>
      rw [pieces, if_pos fits, pieceContents, pieceContents, List.append_nil]
      by_cases empty : line = []
      · rw [empty, chunksOf_nil, content_nil]
        rfl
      · rw [chunksOf_last free fits empty, contents, contents, List.append_nil]
  | case2 line long ih =>
      have after : (10 : UInt8) ∉ line.drop (lineMaxLen - 1) :=
        fun mem => free (List.mem_of_mem_drop mem)
      have full := chunksOf_full free long []
      rw [List.append_nil, List.append_nil] at full
      rw [full, pieces, if_neg long, contents, pieceContents, ih after]

theorem lineFits_cons {line : CString} (long : ¬line.length < lineMaxLen - 1) :
    LineFits line ↔
      (0 : UInt8) ∈ line.take (lineMaxLen - 1) ∧ LineFits (line.drop (lineMaxLen - 1)) := by
  have full : ¬(line.take (lineMaxLen - 1)).length < lineMaxLen - 1 := by
    rw [List.length_take]
    omega
  rw [LineFits, pieces, if_neg long, List.forall_mem_cons, or_iff_right full]
  rfl

theorem lineFits_of_short {line : CString} (fits : line.length < lineMaxLen - 1) :
    LineFits line := by
  rw [LineFits, pieces, if_pos fits]
  intro piece mem
  rw [List.mem_singleton.mp mem]
  exact .inl fits

/-- None of the buffers is too long. -/
def AllEnd (chunks : List Chunk) : Prop := ∀ chunk ∈ chunks, chunk.tooLong = false

theorem allEnd_cons {chunk : Chunk} {chunks : List Chunk} :
    AllEnd (chunk :: chunks) ↔ chunk.tooLong = false ∧ AllEnd chunks := List.forall_mem_cons

theorem tooLong_take {line : CString} (free : (10 : UInt8) ∉ line)
    (long : ¬line.length < lineMaxLen - 1) :
    Chunk.tooLong ⟨line.take (lineMaxLen - 1), false⟩ = false ↔
      (0 : UInt8) ∈ line.take (lineMaxLen - 1) := by
  refine tooLong_full (fun mem => free (List.mem_of_mem_take mem)) ?_
  rw [List.length_take]
  omega

theorem allEnd_line {line : CString} (free : (10 : UInt8) ∉ line) (rest : List UInt8) :
    AllEnd (chunksOf (line ++ 10 :: rest)) ↔ LineFits line ∧ AllEnd (chunksOf rest) := by
  induction line using pieces.induct with
  | case1 line fits =>
      rw [chunksOf_line free fits, allEnd_cons, tooLong_line fits, eq_self_iff_true, true_and,
        and_iff_right (lineFits_of_short fits)]
  | case2 line long ih =>
      have after : (10 : UInt8) ∉ line.drop (lineMaxLen - 1) :=
        fun mem => free (List.mem_of_mem_drop mem)
      rw [chunksOf_full free long, allEnd_cons, tooLong_take free long, ih after,
        lineFits_cons long, and_assoc]

theorem allEnd_last {line : CString} (free : (10 : UInt8) ∉ line) :
    AllEnd (chunksOf line) ↔ LineFits line := by
  induction line using pieces.induct with
  | case1 line fits =>
      refine iff_of_true ?_ (lineFits_of_short fits)
      by_cases empty : line = []
      · rw [empty, chunksOf_nil]
        exact List.forall_mem_nil _
      · rw [chunksOf_last free fits empty, allEnd_cons]
        exact ⟨tooLong_feof line, List.forall_mem_nil _⟩
  | case2 line long ih =>
      have after : (10 : UInt8) ∉ line.drop (lineMaxLen - 1) :=
        fun mem => free (List.mem_of_mem_drop mem)
      have full := chunksOf_full free long []
      rw [List.append_nil, List.append_nil] at full
      rw [full, allEnd_cons, tooLong_take free long, ih after, lineFits_cons long]

/-! ## The lines of a stream -/

/-- What the reader takes from the lines of a stream. -/
def lineContents : Bool → List CString → List CString
  | _, [] => []
  | first, line :: rest => pieceContents first (pieces line) ++ lineContents false rest

theorem contents_intercalate {lines : List CString} (nonempty : lines ≠ [])
    (free : ∀ line ∈ lines, (10 : UInt8) ∉ line) (first : Bool) :
    contents first (chunksOf ([10].intercalate lines)) = lineContents first lines ∧
      (AllEnd (chunksOf ([10].intercalate lines)) ↔ ∀ line ∈ lines, LineFits line) := by
  induction lines generalizing first with
  | nil => exact absurd rfl nonempty
  | cons line rest ih =>
      rw [List.forall_mem_cons] at free
      rw [lineContents, List.forall_mem_cons]
      cases rest with
      | nil =>
          rw [List.intercalate_singleton, contents_last free.1, lineContents, List.append_nil,
            allEnd_last free.1]
          exact ⟨rfl, by simp⟩
      | cons next rest =>
          obtain ⟨texts, ends⟩ := ih (List.cons_ne_nil next rest) free.2 false
          rw [List.intercalate_cons_cons, List.append_assoc, List.singleton_append,
            contents_line free.1, allEnd_line free.1, texts, ends]
          exact ⟨rfl, Iff.rfl⟩

/-- The buffers of a stream, from its lines. -/
theorem contents_stream (stream : List UInt8) :
    contents true (chunksOf stream) = lineContents true (stream.splitOn 10) ∧
      (AllEnd (chunksOf stream) ↔ ∀ line ∈ stream.splitOn 10, LineFits line) := by
  have lines := contents_intercalate (List.splitOn_ne_nil 10 stream)
    (fun line mem => not_mem_splitOn mem) true
  rwa [List.intercalate_splitOn] at lines

end CpuSched
