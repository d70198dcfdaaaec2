import CpuSched.Io.Csv

/-!
# Fields, lists of phases and the header

Trimming and splitting, and the texts that `parse_phases` and `parse_header` accept.
-/

namespace CpuSched

/-! ## Trimming and splitting -/

/-- Only white space. -/
def Spaces (s : CString) : Prop := ∀ b ∈ s, isSpace b = true

theorem trim_append_left {a : CString} (spaces : Spaces a) (s : CString) :
    trim (a ++ s) = trim s := by
  have drop : (a ++ s).dropWhile isSpace = s.dropWhile isSpace := by
    rw [List.dropWhile_append, dropWhile_all spaces]
    rfl
  rw [trim, trim, drop]

theorem rdropWhile_append_spaces {a : CString} (spaces : Spaces a) (s : CString) :
    (s ++ a).rdropWhile isSpace = s.rdropWhile isSpace := by
  have drop : a.reverse.dropWhile isSpace = [] :=
    dropWhile_all fun b mem => spaces b (List.mem_reverse.mp mem)
  simp only [List.rdropWhile, List.reverse_append, List.dropWhile_append, drop]
  rfl

theorem trim_append_right {a : CString} (spaces : Spaces a) (s : CString) :
    trim (s ++ a) = trim s := by
  rw [trim, trim, List.dropWhile_append]
  cases rest : s.dropWhile isSpace with
  | nil =>
      rw [dropWhile_all spaces]
      rfl
  | cons b t =>
      exact rdropWhile_append_spaces spaces (b :: t)

/-- What `trim` drops is white space. -/
theorem trim_spec (s : CString) : ∃ a b, Spaces a ∧ Spaces b ∧ s = a ++ trim s ++ b := by
  refine ⟨s.takeWhile isSpace, ((s.dropWhile isSpace).reverse.takeWhile isSpace).reverse,
    fun b mem => List.mem_takeWhile_imp mem,
    fun b mem => List.mem_takeWhile_imp (List.mem_reverse.mp mem), ?_⟩
  rw [trim, List.rdropWhile, List.append_assoc, ← List.reverse_append,
    List.takeWhile_append_dropWhile, List.reverse_reverse, List.takeWhile_append_dropWhile]

theorem trim_of_solid {s : CString} (solid : ∀ b ∈ s, isSpace b = false) : trim s = s := by
  have start : s.dropWhile isSpace = s := by
    cases s with
    | nil => rfl
    | cons b rest => exact List.dropWhile_cons_of_neg (by simp [solid b List.mem_cons_self])
  have finish : s.reverse.dropWhile isSpace = s.reverse := by
    cases rev : s.reverse with
    | nil => rfl
    | cons b rest =>
        have mem : b ∈ s := List.mem_reverse.mp (rev ▸ List.mem_cons_self)
        exact List.dropWhile_cons_of_neg (by simp [solid b mem])
  rw [trim, start, List.rdropWhile, finish, List.reverse_reverse]

/-- The trimmed parts of a text between separators. -/
def parts (sep : UInt8) (s : CString) : List CString := (s.splitOn sep).map trim

theorem splitOn_append_left {sep : UInt8} {a : CString} (free : sep ∉ a) (s : CString) :
    (a ++ s).splitOn sep = (s.splitOn sep).modifyHead (a ++ ·) := by
  induction a with
  | nil =>
      rw [List.nil_append]
      cases s.splitOn sep <;> rfl
  | cons b a ih =>
      rw [List.mem_cons, not_or] at free
      have other : (b == sep) = false := beq_eq_false_iff_ne.mpr (Ne.symm free.1)
      rw [List.cons_append, List.splitOn_cons_eq_if_modifyHead, other, ih free.2]
      cases s.splitOn sep <;> rfl

theorem splitOn_append_right {sep : UInt8} {a : CString} (free : sep ∉ a) (s : CString) :
    ∃ init last, s.splitOn sep = init ++ [last] ∧ (s ++ a).splitOn sep = init ++ [last ++ a] := by
  induction s with
  | nil => exact ⟨[], [], rfl, List.splitOn_eq_singleton free⟩
  | cons b s ih =>
      obtain ⟨init, last, whole, extended⟩ := ih
      rw [List.cons_append, List.splitOn_cons_eq_if_modifyHead,
        List.splitOn_cons_eq_if_modifyHead, whole, extended]
      by_cases same : (b == sep) = true
      · exact ⟨[] :: init, last, by rw [if_pos same]; rfl, by rw [if_pos same]; rfl⟩
      · rw [if_neg same, if_neg same]
        cases init with
        | nil => exact ⟨[], b :: last, rfl, rfl⟩
        | cons h t => exact ⟨(b :: h) :: t, last, rfl, rfl⟩

theorem Spaces.not_mem {s : CString} (spaces : Spaces s) {b : UInt8}
    (solid : isSpace b = false) : b ∉ s := by
  intro mem
  rw [spaces b mem] at solid
  cases solid

/-- White space around a text does not change its trimmed parts. -/
theorem parts_trim {sep : UInt8} (solid : isSpace sep = false) (s : CString) :
    parts sep (trim s) = parts sep s := by
  obtain ⟨a, b, left, right, whole⟩ := trim_spec s
  obtain ⟨init, last, inner, outer⟩ := splitOn_append_right (right.not_mem solid) (a ++ trim s)
  have start := splitOn_append_left (left.not_mem solid) (trim s)
  have whole' : parts sep s = parts sep (a ++ trim s) := by
    conv_lhs => rw [whole]
    rw [parts, parts, inner, outer]
    simp [trim_append_right right]
  rw [whole', parts, parts, start]
  cases (trim s).splitOn sep with
  | nil => rfl
  | cons h t => simp [trim_append_left left]

theorem parts_intercalate {sep : UInt8} {texts : List CString} (nonempty : texts ≠ [])
    (free : ∀ t ∈ texts, sep ∉ t) : parts sep ([sep].intercalate texts) = texts.map trim := by
  rw [parts, List.splitOn_intercalate sep free nonempty]

theorem mem_splitOn (sep : UInt8) {b : UInt8} {s : CString} (mem : b ∈ s) :
    b = sep ∨ ∃ t ∈ s.splitOn sep, b ∈ t := by
  induction s with
  | nil => cases mem
  | cons x s ih =>
      rw [List.splitOn_cons_eq_if_modifyHead]
      by_cases same : (x == sep) = true
      · rw [if_pos same]
        rcases List.mem_cons.mp mem with rfl | mem
        · exact .inl (beq_iff_eq.mp same)
        · obtain rfl | ⟨t, here, inside⟩ := ih mem
          · exact .inl rfl
          · exact .inr ⟨t, List.mem_cons_of_mem _ here, inside⟩
      · rw [if_neg same]
        cases split : s.splitOn sep with
        | nil => exact absurd split (List.splitOn_ne_nil sep s)
        | cons h t =>
            rw [split] at ih
            rcases List.mem_cons.mp mem with rfl | mem
            · exact .inr ⟨b :: h, List.mem_cons_self, List.mem_cons_self⟩
            · obtain rfl | ⟨u, here, inside⟩ := ih mem
              · exact .inl rfl
              · rcases List.mem_cons.mp here with rfl | here
                · exact .inr ⟨x :: u, List.mem_cons_self, List.mem_cons_of_mem x inside⟩
                · exact .inr ⟨u, List.mem_cons_of_mem _ here, inside⟩

theorem not_mem_splitOn {sep : UInt8} {s t : CString} (mem : t ∈ s.splitOn sep) : sep ∉ t := by
  induction s generalizing t with
  | nil =>
      obtain rfl := List.mem_singleton.mp mem
      exact List.not_mem_nil
  | cons x s ih =>
      rw [List.splitOn_cons_eq_if_modifyHead] at mem
      by_cases same : (x == sep) = true
      · rw [if_pos same] at mem
        rcases List.mem_cons.mp mem with rfl | mem
        · exact List.not_mem_nil
        · exact ih mem
      · rw [if_neg same] at mem
        cases split : s.splitOn sep with
        | nil => exact absurd split (List.splitOn_ne_nil sep s)
        | cons h rest =>
            rw [split] at ih mem
            rcases List.mem_cons.mp mem with rfl | mem
            · rw [List.mem_cons, not_or]
              exact ⟨fun eq => same (beq_iff_eq.mpr eq.symm), ih List.mem_cons_self⟩
            · exact ih (List.mem_cons_of_mem h mem)

/-- A text consists of separators, white space and its trimmed parts. -/
theorem mem_parts (sep : UInt8) {b : UInt8} {s : CString} (mem : b ∈ s) :
    b = sep ∨ isSpace b = true ∨ ∃ t ∈ parts sep s, b ∈ t := by
  obtain rfl | ⟨t, here, inside⟩ := mem_splitOn sep mem
  · exact .inl rfl
  obtain ⟨l, r, left, right, whole⟩ := trim_spec t
  rw [whole, List.mem_append, List.mem_append] at inside
  obtain (inside | inside) | inside := inside
  · exact .inr (.inl (left b inside))
  · exact .inr (.inr ⟨trim t, List.mem_map_of_mem here, inside⟩)
  · exact .inr (.inl (right b inside))

theorem sep_mem_of_parts {sep : UInt8} {s : CString} (several : 2 ≤ (parts sep s).length) :
    sep ∈ s := by
  by_contra free
  rw [parts, List.splitOn_eq_singleton free] at several
  simp at several

/-! ## Numbers and lists of phases -/

theorem exists_of_forall₂ {α β : Type} {R : α → β → Prop} {xs : List α} {ys : List β} {x : α}
    (each : List.Forall₂ R xs ys) (mem : x ∈ xs) : ∃ y ∈ ys, R x y := by
  induction each with
  | nil => cases mem
  | cons first _ ih =>
      rcases List.mem_cons.mp mem with rfl | mem
      · exact ⟨_, List.mem_cons_self, first⟩
      · obtain ⟨y, here, related⟩ := ih mem
        exact ⟨y, List.mem_cons_of_mem _ here, related⟩

/-- The text writes a number of the 64-bit range in base 10. -/
def I64Text (s : CString) (v : Int) : Prop := Numeral s v ∧ InI64 v

/-- The text writes the phases, separated by colons. -/
def PhasesText (s : CString) (phases : List Int) : Prop :=
  List.Forall₂ I64Text (parts 58 s) phases

theorem Numeral.byte {s : CString} {v : Int} (numeral : Numeral s v) :
    ∀ b ∈ s, isDigit b = true ∨ b = 43 ∨ b = 45 := by
  intro b mem
  cases numeral with
  | unsigned nonempty all => exact .inl (all b mem)
  | plus nonempty all =>
      rcases List.mem_cons.mp mem with rfl | mem
      · exact .inr (.inl rfl)
      · exact .inl (all b mem)
  | minus nonempty all =>
      rcases List.mem_cons.mp mem with rfl | mem
      · exact .inr (.inr rfl)
      · exact .inl (all b mem)

theorem Numeral.trim_eq {s : CString} {v : Int} (numeral : Numeral s v) : trim s = s := by
  refine trim_of_solid fun b mem => ?_
  obtain digit | rfl | rfl := numeral.byte b mem
  · exact isSpace_of_isDigit digit
  · decide
  · decide

theorem I64Text.ne_nil {s : CString} {v : Int} (text : I64Text s v) : s ≠ [] := by
  obtain ⟨b, rest, rfl, -⟩ := text.1.head
  exact List.cons_ne_nil b rest

theorem parts_ne_nil (sep : UInt8) (s : CString) : parts sep s ≠ [] := by
  simp [parts, List.splitOn_ne_nil]

theorem PhasesText.ne_nil {s : CString} {phases : List Int} (text : PhasesText s phases) :
    s ≠ [] ∧ phases ≠ [] := by
  constructor
  · rintro rfl
    cases text with
    | cons first rest => exact first.ne_nil rfl
  · rintro rfl
    exact parts_ne_nil 58 s (List.forall₂_nil_right_iff.mp text)

theorem parsePhaseTexts_eq_some_iff {count : Nat} {texts : List CString} {phases : List Int}
    (room : count ≤ maxPhases) :
    parsePhaseTexts count texts = some phases ↔
      List.Forall₂ I64Text (texts.map trim) phases ∧ count + phases.length ≤ maxPhases := by
  induction texts generalizing count phases with
  | nil => cases phases <;> simp [parsePhaseTexts, room]
  | cons text rest ih =>
      rw [parsePhaseTexts]
      split_ifs with full
      · constructor
        · intro parsed
          cases parsed
        · rintro ⟨each, fits⟩
          have := each.length_eq
          simp only [List.map_cons, List.length_cons] at this
          omega
      · constructor
        · intro parsed
          obtain ⟨x, first, parsed⟩ := Option.bind_eq_some_iff.mp parsed
          obtain ⟨xs, others, same⟩ := Option.bind_eq_some_iff.mp parsed
          obtain rfl := Option.some.inj same
          obtain ⟨each, fits⟩ := (ih (by omega)).mp others
          refine ⟨.cons (parseI64_eq_some_iff.mp first) each, ?_⟩
          simp only [List.length_cons]
          omega
        · rintro ⟨each, fits⟩
          cases each with
          | @cons _ x _ xs first others =>
              rw [List.length_cons] at fits
              rw [parseI64_eq_some_iff.mpr first, (ih (by omega)).mpr ⟨others, by omega⟩]
              rfl

theorem parsePhases_eq_some_iff {text : CString} {phases : List Int} :
    parsePhases text = some phases ↔ PhasesText text phases ∧ phases.length ≤ maxPhases := by
  rw [parsePhases, parsePhaseTexts_eq_some_iff (Nat.zero_le _), Nat.zero_add]
  rfl

/-! ## The header -/

/-- The text writes the column's name in letters of either case. -/
def NameText (s : CString) (c : Column) : Prop := s.map toLower = cstr c.name

instance (s : CString) (c : Column) : Decidable (NameText s c) :=
  inferInstanceAs (Decidable (s.map toLower = cstr c.name))

/-- A header line: the names of distinct columns, with everything that a row needs. -/
structure HeaderText (line : CString) (cols : List Column) : Prop where
  named : List.Forall₂ NameText (parts 44 line) cols
  distinct : cols.Nodup
  pid : Column.pid ∈ cols
  arrival : Column.arrival ∈ cols
  burst : Column.burst ∈ cols ∨ Column.bursts ∈ cols

theorem sameName_iff {a name : CString} : sameName a name = true ↔ name.map toLower = a := by
  induction a generalizing name with
  | nil => simp [sameName]
  | cons x a ih =>
      cases name with
      | nil => simp [sameName]
      | cons b name =>
          rw [sameName, List.map_cons, List.cons_eq_cons]
          split_ifs with same
          · simp [same, ih]
          · simp [same]

theorem columnIndex_eq_some_iff {name : CString} {c : Column} :
    columnIndex name = some c ↔ NameText name c := by
  constructor
  · intro found
    have same : sameName (cstr c.name) name = true := by
      simpa using List.find?_some (show columns.find? (fun c => sameName (cstr c.name) name) =
        some c from found)
    exact sameName_iff.mp same
  · intro text
    have same : (fun c' : Column => sameName (cstr c'.name) name) =
        fun c' => decide (cstr c.name = cstr c'.name) := by
      funext c'
      rw [Bool.eq_iff_iff, sameName_iff, decide_eq_true_iff, text]
    rw [columnIndex, same]
    cases c <;> decide

theorem headerColumns_ok_iff {line : Nat} {fields : List CString} {seen cols : List Column} :
    headerColumns line fields seen = .ok cols ↔
      List.Forall₂ NameText fields cols ∧ cols.Nodup ∧ ∀ c ∈ cols, c ∉ seen := by
  induction fields generalizing seen cols with
  | nil =>
      rw [headerColumns]
      constructor
      · rintro ⟨⟩
        exact ⟨.nil, .nil, by simp⟩
      · rintro ⟨⟨⟩, -, -⟩
        rfl
  | cons field rest ih =>
      rw [headerColumns]
      cases index : columnIndex field with
      | none =>
          constructor
          · intro parsed
            cases parsed
          · rintro ⟨named, -, -⟩
            cases named with
            | cons first others =>
                rw [columnIndex_eq_some_iff.mpr first] at index
                cases index
      | some c =>
          have first := columnIndex_eq_some_iff.mp index
          simp only
          split_ifs with again
          · constructor
            · intro parsed
              cases parsed
            · rintro ⟨named, -, fresh⟩
              cases named with
              | @cons _ c' _ _ first' others =>
                  obtain rfl : c = c' := Option.some.inj
                    (index.symm.trans (columnIndex_eq_some_iff.mpr first'))
                  exact absurd again (fresh c List.mem_cons_self)
          · constructor
            · intro parsed
              obtain ⟨cols', others, same⟩ := exceptBind_ok_iff.mp parsed
              obtain rfl := Except.ok.inj same
              obtain ⟨named, distinct, fresh⟩ := ih.mp others
              refine ⟨.cons first named, ?_, ?_⟩
              · exact List.nodup_cons.mpr ⟨fun mem => fresh c mem List.mem_cons_self, distinct⟩
              · intro c' mem
                rcases List.mem_cons.mp mem with rfl | mem
                · exact again
                · exact fun old => fresh c' mem (List.mem_cons_of_mem c old)
            · rintro ⟨named, distinct, fresh⟩
              cases named with
              | @cons _ c' _ cols' first' named =>
                  obtain rfl : c = c' := Option.some.inj
                    (index.symm.trans (columnIndex_eq_some_iff.mpr first'))
                  obtain ⟨new, distinct⟩ := List.nodup_cons.mp distinct
                  have others : headerColumns line rest (c :: seen) = .ok cols' := by
                    refine ih.mpr ⟨named, distinct, fun c' mem old => ?_⟩
                    rcases List.mem_cons.mp old with rfl | old
                    · exact new mem
                    · exact fresh c' (List.mem_cons_of_mem c mem) old
                  rw [others]
                  rfl

theorem parseHeader_ok_iff {text : CString} {line : Nat} {cols : List Column} :
    parseHeader (parts 44 text) line = .ok cols ↔ HeaderText text cols := by
  rw [parseHeader]
  cases read : headerColumns line (parts 44 text) [] with
  | error err =>
      constructor
      · intro parsed
        cases parsed
      · intro header
        rw [headerColumns_ok_iff.mpr ⟨header.named, header.distinct, by simp⟩] at read
        cases read
  | ok read_cols =>
      obtain ⟨named, distinct, -⟩ := headerColumns_ok_iff.mp read
      simp only [bind, Except.bind]
      constructor
      · intro parsed
        split at parsed
        · cases parsed
        · rename_i none
          split_ifs at parsed with noBurst
          · cases parsed
          · obtain rfl := Except.ok.inj parsed
            have required := List.find?_eq_none.mp none
            refine ⟨named, distinct, ?_, ?_, ?_⟩
            · simpa [Column.required] using required .pid (by decide)
            · simpa [Column.required] using required .arrival (by decide)
            · rwa [not_and_or, not_not, not_not] at noBurst
      · intro header
        have again : headerColumns line (parts 44 text) [] = .ok cols :=
          headerColumns_ok_iff.mpr ⟨header.named, header.distinct, by simp⟩
        obtain rfl : read_cols = cols := Except.ok.inj (read.symm.trans again)
        have none : columns.find? (fun c => c.required && decide (c ∉ read_cols)) = none := by
          refine List.find?_eq_none.mpr fun c _ => ?_
          cases c <;> simp [Column.required, header.pid, header.arrival]
        rw [none]
        exact if_neg (not_and_or.mpr (header.burst.imp not_not.mpr not_not.mpr))

end CpuSched
