import CpuSched.Io.CsvFields
import CpuSched.Workload.Correctness

/-!
# Rows

The texts that `parse_row` accepts, described without the order in which it looks at the
columns: every column has a text that is empty or stands for its value in the process.
-/

namespace CpuSched

/-! ## Pushing a process -/

/-- A process that the reader accepts: it passes `process_validate`, its phases alternate
and are > 0, and neither sum leaves the 64-bit range. -/
structure Process.Readable (p : Process) : Prop where
  validated : processValidate p 0 = .ok ()
  phases_odd : p.phaseCount % 2 = 1
  phases_pos : ∀ ph ∈ p.phases, 0 < ph
  burst_eq : p.burst = evenSum p.phases
  io_eq : p.io = oddSum p.phases
  burst_le : p.burst ≤ int64Max
  io_le : p.io ≤ int64Max

theorem pushSums_ok_iff {pid : Int} {k : Nat} {phases : List Int} {cpu io : Int} {r : Int × Int}
    (cpuFits : cpu ≤ int64Max) (ioFits : io ≤ int64Max) :
    pushSums pid k phases cpu io = .ok r ↔
      (∀ ph ∈ phases, 0 < ph) ∧
        r = (cpu + (if k % 2 = 0 then evenSum phases else oddSum phases),
          io + (if k % 2 = 0 then oddSum phases else evenSum phases)) ∧
        r.1 ≤ int64Max ∧ r.2 ≤ int64Max := by
  induction phases generalizing k cpu io with
  | nil =>
      have sums : (cpu + (if k % 2 = 0 then evenSum [] else oddSum []),
          io + (if k % 2 = 0 then oddSum [] else evenSum [])) = (cpu, io) := by
        split_ifs <;> simp [evenSum]
      rw [pushSums, sums]
      constructor
      · rintro ⟨⟩
        exact ⟨by simp, rfl, cpuFits, ioFits⟩
      · rintro ⟨-, rfl, -, -⟩
        rfl
  | cons ph rest ih =>
      rw [pushSums, List.forall_mem_cons]
      by_cases bad : ph ≤ 0
      · rw [if_pos bad]
        constructor
        · intro pushed
          cases pushed
        · rintro ⟨⟨pos, -⟩, -⟩
          omega
      rw [if_neg bad]
      have pos : 0 < ph := not_le.mp bad
      -- The sums so far only grow, so an overflow is an overflow of the whole sum.
      have grow : (∀ x ∈ rest, 0 < x) → 0 ≤ evenSum rest ∧ 0 ≤ oddSum rest := evenSum_nonneg
      by_cases even : k % 2 = 0
      · have next : ¬(k + 1) % 2 = 0 := by omega
        simp only [if_pos even]
        cases sum : ckAddI64 cpu ph with
        | none =>
            constructor
            · intro pushed
              cases pushed
            · rintro ⟨⟨-, others⟩, rfl, fits, -⟩
              have := (grow others).2
              simp only [evenSum_cons] at fits
              rw [ckAddI64_of_le pos.le (by omega)] at sum
              cases sum
        | some total =>
            obtain rfl := ckAddI64_eq_some sum
            simp only
            rw [ih (ckAddI64_le pos sum) ioFits]
            simp only [if_neg next, evenSum_cons, oddSum_cons, pos, true_and, add_assoc]
      · have next : (k + 1) % 2 = 0 := by omega
        simp only [if_neg even]
        cases sum : ckAddI64 io ph with
        | none =>
            constructor
            · intro pushed
              cases pushed
            · rintro ⟨⟨-, others⟩, rfl, -, fits⟩
              have := (grow others).2
              simp only [evenSum_cons] at fits
              rw [ckAddI64_of_le pos.le (by omega)] at sum
              cases sum
        | some total =>
            obtain rfl := ckAddI64_eq_some sum
            simp only
            rw [ih cpuFits (ckAddI64_le pos sum)]
            simp only [if_pos next, evenSum_cons, oddSum_cons, pos, true_and, add_assoc]

theorem int64Max_nonneg : 0 ≤ int64Max := by decide

/-- The process that `workload_push_phases` stores. -/
def Process.withPhases (p : Process) (phases : List Int) : Process :=
  { p with burst := evenSum phases, io := oddSum phases, phases }

theorem workloadPushPhases_ok_iff {w w' : Workload} {p : Process} {phases : List Int} :
    workloadPushPhases w p phases = .ok w' ↔
      phases.length % 2 = 1 ∧ (∀ ph ∈ phases, 0 < ph) ∧ evenSum phases ≤ int64Max ∧
        oddSum phases ≤ int64Max ∧ w' = ⟨w.items ++ [p.withPhases phases]⟩ := by
  rw [workloadPushPhases]
  by_cases bad : phases.length = 0 ∨ phases.length % 2 = 0
  · rw [if_pos bad]
    constructor
    · intro pushed
      cases pushed
    · rintro ⟨odd, -⟩
      omega
  have odd : phases.length % 2 = 1 := by omega
  have iff {r : Int × Int} : pushSums p.pid 0 phases 0 0 = .ok r ↔ _ :=
    pushSums_ok_iff int64Max_nonneg int64Max_nonneg
  simp only [Nat.zero_mod, if_true, zero_add] at iff
  rw [if_neg bad]
  cases sums : pushSums p.pid 0 phases 0 0 with
  | error err =>
      constructor
      · intro pushed
        cases pushed
      · rintro ⟨-, pos, cpu, io, -⟩
        rw [iff.mpr ⟨pos, rfl, cpu, io⟩] at sums
        cases sums
  | ok r =>
      obtain ⟨pos, rfl, cpu, io⟩ := iff.mp sums
      constructor
      · intro pushed
        exact ⟨odd, pos, cpu, io, (Except.ok.inj pushed).symm⟩
      · rintro ⟨-, -, -, -, rfl⟩
        rfl

theorem processValidate_ok_iff {p : Process} {line : Nat} :
    processValidate p line = .ok () ↔
      0 ≤ p.pid ∧ 0 ≤ p.arrival ∧ 0 < p.burst ∧ 1 ≤ p.tickets ∧ p.tickets ≤ schedMaxTickets ∧
        -20 ≤ p.nice ∧ p.nice ≤ 19 := by
  constructor
  · exact processValidate_ok
  · rintro ⟨pid, arrival, burst, ticketsPos, ticketsLe, niceGe, niceLe⟩
    simp only [processValidate]
    rw [if_neg (by omega), if_neg (by omega), if_neg (by omega), if_neg (by omega),
      if_neg (by omega)]

theorem evenSum_pos {phases : List Int} (nonempty : phases ≠ [])
    (pos : ∀ ph ∈ phases, 0 < ph) : 0 < evenSum phases := by
  cases phases with
  | nil => exact absurd rfl nonempty
  | cons ph rest =>
      rw [List.forall_mem_cons] at pos
      have := oddSum_nonneg pos.2
      rw [evenSum_cons]
      omega

/-- The placeholder of `parse_row` passes the checks of the process that is pushed. -/
theorem validated_withPhases {p : Process} {phases : List Int} {line : Nat} {first : Int}
    (nonempty : phases ≠ []) (pos : ∀ ph ∈ phases, 0 < ph) (firstPos : 0 < first) :
    processValidate { p with burst := first } line = .ok () ↔
      processValidate (p.withPhases phases) 0 = .ok () := by
  have := evenSum_pos nonempty pos
  simp [processValidate_ok_iff, Process.withPhases, firstPos, this]

/-- The phases that `parse_row` pushes. -/
inductive RowState.Pushes (s : RowState) : List Int → Prop
  | bursts (nonempty : s.phases ≠ []) : s.Pushes s.phases
  | burst (none : s.phases = []) (have_ : s.haveBurst = true) : s.Pushes [s.p.burst]

theorem readable_withPhases {p : Process} {phases : List Int} :
    (p.withPhases phases).Readable ↔
      processValidate (p.withPhases phases) 0 = .ok () ∧ phases.length % 2 = 1 ∧
        (∀ ph ∈ phases, 0 < ph) ∧ evenSum phases ≤ int64Max ∧ oddSum phases ≤ int64Max := by
  constructor
  · intro readable
    exact ⟨readable.validated, readable.phases_odd, readable.phases_pos, readable.burst_le,
      readable.io_le⟩
  · rintro ⟨validated, odd, pos, cpu, io⟩
    exact ⟨validated, odd, pos, rfl, rfl, cpu, io⟩

theorem finishRow_ok_iff {line : Nat} {s : RowState} {w w' : Workload} :
    finishRow line s w = .ok w' ↔
      ∃ phases, s.Pushes phases ∧ (s.p.withPhases phases).Readable ∧
        w' = ⟨w.items ++ [s.p.withPhases phases]⟩ := by
  rw [finishRow]
  by_cases several : 0 < s.phases.length
  · have nonempty : s.phases ≠ [] := List.length_pos_iff.mp several
    have firstPos (pos : ∀ ph ∈ s.phases, 0 < ph) : 0 < s.phases.getD 0 0 := by
      obtain ⟨ph, rest, same⟩ := List.exists_cons_of_ne_nil nonempty
      rw [same]
      exact pos ph (same ▸ List.mem_cons_self)
    rw [if_pos several]
    constructor
    · intro finished
      split_ifs at finished with even
      · cases finished
      split at finished
      · cases finished
      rename_i none
      have pos : ∀ ph ∈ s.phases, 0 < ph := fun ph mem => by
        simpa using List.find?_eq_none.mp none ph mem
      obtain ⟨_, validated, pushed⟩ := exceptBind_ok_iff.mp finished
      obtain ⟨odd, -, cpu, io, rfl⟩ := workloadPushPhases_ok_iff.mp pushed
      exact ⟨s.phases, .bursts nonempty, readable_withPhases.mpr
        ⟨(validated_withPhases nonempty pos (firstPos pos)).mp validated, odd, pos, cpu, io⟩, rfl⟩
    · rintro ⟨phases, pushes, readable, rfl⟩
      cases pushes with
      | burst none => exact absurd none nonempty
      | bursts =>
          obtain ⟨validated, odd, pos, cpu, io⟩ := readable_withPhases.mp readable
          have noBad : s.phases.find? (fun ph => decide (ph ≤ 0)) = none :=
            List.find?_eq_none.mpr fun ph mem => by simpa using pos ph mem
          rw [if_neg (by omega), noBad]
          exact exceptBind_ok_iff.mpr
            ⟨(), (validated_withPhases nonempty pos (firstPos pos)).mpr validated,
              workloadPushPhases_ok_iff.mpr ⟨odd, pos, cpu, io, rfl⟩⟩
  · have empty : s.phases = [] := List.length_eq_zero_iff.mp (by omega)
    rw [if_neg several]
    constructor
    · intro finished
      split_ifs at finished with noBurst
      · cases finished
      obtain ⟨_, validated, pushed⟩ := exceptBind_ok_iff.mp finished
      obtain ⟨odd, pos, cpu, io, rfl⟩ := workloadPushPhases_ok_iff.mp pushed
      have burstPos : 0 < s.p.burst := pos _ List.mem_cons_self
      exact ⟨[s.p.burst], .burst empty (by simpa using noBurst), readable_withPhases.mpr
        ⟨(validated_withPhases (by simp) pos burstPos).mp validated, odd, pos, cpu, io⟩, rfl⟩
    · rintro ⟨phases, pushes, readable, rfl⟩
      cases pushes with
      | bursts nonempty => exact absurd empty nonempty
      | burst _ present =>
          obtain ⟨validated, odd, pos, cpu, io⟩ := readable_withPhases.mp readable
          have burstPos : 0 < s.p.burst := pos _ List.mem_cons_self
          rw [if_neg (by simp [present])]
          exact exceptBind_ok_iff.mpr
            ⟨(), (validated_withPhases (by simp) pos burstPos).mpr validated,
              workloadPushPhases_ok_iff.mpr ⟨odd, pos, cpu, io, rfl⟩⟩

/-! ## Rows -/

/-- The field of the process at `offset`. -/
def Column.get (p : Process) : Column → Int
  | pid => p.pid
  | arrival => p.arrival
  | burst => p.burst
  | bursts => 0
  | priority => p.priority
  | tickets => p.tickets
  | nice => p.nice

theorem Column.get_put {c c' : Column} (int : c ≠ .bursts) (v : Int) (p : Process) :
    c.get (c'.put v p) = if c = c' then v else c.get p := by
  cases c <;> first | exact absurd rfl int | cases c' <;> rfl

theorem Column.kind_eq_phases {c : Column} : c.kind = .phases ↔ c = .bursts := by
  cases c <;> decide

/-- One field: empty, a list of phases or a number. -/
theorem parseField_ok_iff {line : Nat} {s s' : RowState} {c : Column} {field : CString} :
    parseField line s c field = .ok s' ↔
      (field = [] ∧ c.required = false ∧ s' = s) ∨
        (field ≠ [] ∧ c = .bursts ∧
          ∃ phases, parsePhases field = some phases ∧ s' = { s with phases }) ∨
        (c ≠ .bursts ∧ ∃ v, I64Text field v ∧
          s' = { s with
            p := c.put v s.p
            haveBurst := s.haveBurst || decide (c = .burst) }) := by
  rw [parseField]
  by_cases default : field = [] ∧ c.required = false
  · rw [if_pos default]
    constructor
    · rintro ⟨⟩
      exact .inl ⟨default.1, default.2, rfl⟩
    · rintro (⟨-, -, rfl⟩ | ⟨present, -⟩ | ⟨-, v, text, -⟩)
      · rfl
      · exact absurd default.1 present
      · exact absurd default.1 text.ne_nil
  rw [if_neg default]
  by_cases list : c.kind = .phases
  · have bursts := Column.kind_eq_phases.mp list
    have present : field ≠ [] := by
      rintro rfl
      exact default ⟨rfl, by rw [bursts]; rfl⟩
    rw [if_pos list]
    cases parsed : parsePhases field with
    | none => simp [inputError, bursts, present]
    | some phases =>
        constructor
        · rintro ⟨⟩
          exact .inr (.inl ⟨present, bursts, phases, rfl, rfl⟩)
        · rintro (⟨none, -⟩ | ⟨-, -, phases', same, rfl⟩ | ⟨int, -⟩)
          · exact absurd none present
          · obtain rfl := Option.some.inj same
            rfl
          · exact absurd bursts int
  · have int : c ≠ .bursts := fun bursts => list (Column.kind_eq_phases.mpr bursts)
    rw [if_neg list]
    cases parsed : parseI64 field with
    | none =>
        constructor
        · intro accepted
          cases accepted
        · rintro (⟨none, notRequired, -⟩ | ⟨-, bursts, -⟩ | ⟨-, v, text, -⟩)
          · exact absurd ⟨none, notRequired⟩ default
          · exact absurd bursts int
          · rw [parseI64_eq_some_iff.mpr text] at parsed
            cases parsed
    | some v =>
        have text := parseI64_eq_some_iff.mp parsed
        constructor
        · rintro ⟨⟩
          exact .inr (.inr ⟨int, v, text, rfl⟩)
        · rintro (⟨none, notRequired, -⟩ | ⟨-, bursts, -⟩ | ⟨-, v', text', rfl⟩)
          · exact absurd ⟨none, notRequired⟩ default
          · exact absurd bursts int
          · obtain rfl : v = v' := Option.some.inj
              (parsed.symm.trans (parseI64_eq_some_iff.mpr text'))
            rfl

/-- Every column has an acceptable text. -/
theorem parseRowFields_total (line : Nat) {cols : List Column} {body : Column → CString}
    (fine : ∀ c ∈ cols, (body c = [] ∧ c.required = false) ∨
      (body c ≠ [] ∧ c = .bursts ∧ ∃ phases, parsePhases (body c) = some phases) ∨
        (c ≠ .bursts ∧ ∃ v, I64Text (body c) v)) (s : RowState) :
    ∃ s', parseRowFields line cols (cols.map body) s = .ok s' := by
  induction cols generalizing s with
  | nil => exact ⟨s, rfl⟩
  | cons c cols ih =>
      rw [List.forall_mem_cons] at fine
      obtain ⟨mid, first⟩ : ∃ mid, parseField line s c (body c) = .ok mid := by
        obtain ⟨none, optional⟩ | ⟨present, bursts, phases, list⟩ | ⟨int, v, text⟩ := fine.1
        · exact ⟨s, parseField_ok_iff.mpr (.inl ⟨none, optional, rfl⟩)⟩
        · exact ⟨_, parseField_ok_iff.mpr (.inr (.inl ⟨present, bursts, phases, list, rfl⟩))⟩
        · exact ⟨_, parseField_ok_iff.mpr (.inr (.inr ⟨int, v, text, rfl⟩))⟩
      obtain ⟨s', others⟩ := ih fine.2 mid
      refine ⟨s', ?_⟩
      rw [List.map_cons, parseRowFields]
      exact exceptBind_ok_iff.mpr ⟨mid, first, others⟩

/-- What the loop of `parse_row` has stored from the texts of the columns; a column
without a text so far has the empty one. -/
structure RowRead (text : Column → CString) (s : RowState) : Prop where
  value : ∀ c, c ≠ .bursts → text c ≠ [] → I64Text (text c) (c.get s.p)
  default : ∀ c, c ≠ .bursts → text c = [] → c.get s.p = c.get (processMake 0 0 0)
  haveBurst : s.haveBurst = true ↔ text .burst ≠ []
  phases : text .bursts ≠ [] → parsePhases (text .bursts) = some s.phases
  noPhases : text .bursts = [] → s.phases = []

theorem RowRead.init : RowRead (fun _ => []) { p := processMake 0 0 0 } where
  value _ _ text := absurd rfl text
  default _ _ _ := rfl
  haveBurst := by simp
  phases text := absurd rfl text
  noPhases _ := rfl

theorem RowRead.step {text : Column → CString} {s s' : RowState} {c : Column} {field : CString}
    {line : Nat} (read : RowRead text s) (new : text c = [])
    (accepted : parseField line s c field = .ok s') :
    RowRead (Function.update text c field) s' ∧ (c.required = true → field ≠ []) := by
  obtain ⟨rfl, optional, rfl⟩ | ⟨present, rfl, phases, list, rfl⟩ | ⟨int, v, number, rfl⟩ :=
    parseField_ok_iff.mp accepted
  · rw [Function.update_eq_self_iff.mpr new.symm]
    refine ⟨read, fun required => ?_⟩
    rw [optional] at required
    cases required
  · refine ⟨⟨?_, ?_, ?_, ?_, ?_⟩, fun _ => present⟩
    · intro c int
      rw [Function.update_of_ne int]
      exact read.value c int
    · intro c int
      rw [Function.update_of_ne int]
      exact read.default c int
    · rw [Function.update_of_ne (by decide)]
      exact read.haveBurst
    · rw [Function.update_self]
      exact fun _ => list
    · rw [Function.update_self]
      exact fun none => absurd none present
  · have present : field ≠ [] := number.ne_nil
    refine ⟨⟨?_, ?_, ?_, ?_, ?_⟩, fun _ => present⟩
    · intro c' int'
      rw [Column.get_put int']
      by_cases same : c' = c
      · subst same
        rw [Function.update_self, if_pos rfl]
        exact fun _ => number
      · rw [Function.update_of_ne same, if_neg same]
        exact read.value c' int'
    · intro c' int'
      rw [Column.get_put int']
      by_cases same : c' = c
      · subst same
        rw [Function.update_self]
        exact fun none => absurd none present
      · rw [Function.update_of_ne same, if_neg same]
        exact read.default c' int'
    · by_cases same : c = .burst
      · subst same
        simp [present]
      · rw [Function.update_of_ne (Ne.symm same)]
        simpa [same] using read.haveBurst
    · rw [Function.update_of_ne (Ne.symm int)]
      exact read.phases
    · rw [Function.update_of_ne (Ne.symm int)]
      exact read.noPhases

/-- The loop of `parse_row` gives every column its own text. -/
theorem RowRead.run {line : Nat} {cols : List Column} {fields : List CString}
    {text : Column → CString} {s s' : RowState} (read : RowRead text s) (distinct : cols.Nodup)
    (new : ∀ c ∈ cols, text c = []) (same : fields.length = cols.length)
    (accepted : parseRowFields line cols fields s = .ok s') :
    ∃ body, (∀ c, c ∉ cols → body c = text c) ∧ fields = cols.map body ∧
      (∀ c ∈ cols, c.required = true → body c ≠ []) ∧ RowRead body s' := by
  induction cols generalizing fields text s with
  | nil =>
      obtain rfl := List.length_eq_zero_iff.mp same
      obtain rfl := Except.ok.inj accepted
      exact ⟨text, fun _ _ => rfl, rfl, by simp, read⟩
  | cons c cols ih =>
      cases fields with
      | nil => cases same
      | cons field fields =>
          rw [parseRowFields] at accepted
          obtain ⟨mid, first, others⟩ := exceptBind_ok_iff.mp accepted
          obtain ⟨absent, distinct⟩ := List.nodup_cons.mp distinct
          obtain ⟨midRead, required⟩ := read.step (new c List.mem_cons_self) first
          obtain ⟨body, rest, fieldsEq, needed, done⟩ := ih midRead distinct
            (fun c' mem => by
              rw [Function.update_of_ne (ne_of_mem_of_not_mem mem absent)]
              exact new c' (List.mem_cons_of_mem c mem))
            (Nat.succ.inj same) others
          have here : body c = field := by rw [rest c absent, Function.update_self]
          refine ⟨body, ?_, ?_, ?_, done⟩
          · intro c' outside
            obtain ⟨other, outside⟩ := not_or.mp (fun mem => outside (List.mem_cons.mpr mem))
            rw [rest c' outside, Function.update_of_ne other]
          · rw [List.map_cons, here, ← fieldsEq]
          · rw [List.forall_mem_cons, here]
            exact ⟨required, needed⟩

/-- An optional number: the default where the text is empty. -/
def OptionalText (s : CString) (default v : Int) : Prop := s = [] ∧ v = default ∨ I64Text s v

/-- The texts of the columns stand for the process; `bursts` wins against `burst`. -/
structure RowValues (body : Column → CString) (p : Process) : Prop where
  pid : I64Text (body .pid) p.pid
  arrival : I64Text (body .arrival) p.arrival
  phases : PhasesText (body .bursts) p.phases ∧
      (body .burst = [] ∨ ∃ burst, I64Text (body .burst) burst) ∨
    body .bursts = [] ∧ ∃ burst, I64Text (body .burst) burst ∧ p.phases = [burst]
  priority : OptionalText (body .priority) 0 p.priority
  tickets : OptionalText (body .tickets) 100 p.tickets
  nice : OptionalText (body .nice) 0 p.nice

/-- A row: one field for each column of the header, which stand for the process. -/
def RowText (cols : List Column) (line : CString) (p : Process) : Prop :=
  ∃ body : Column → CString, (∀ c, c ∉ cols → body c = []) ∧ parts 44 line = cols.map body ∧
    RowValues body p ∧ p.Readable

theorem RowRead.optional {text : Column → CString} {s : RowState} (read : RowRead text s)
    {c : Column} (int : c ≠ .bursts) :
    OptionalText (text c) (c.get (processMake 0 0 0)) (c.get s.p) := by
  by_cases present : text c = []
  · exact .inl ⟨present, read.default c int present⟩
  · exact .inr (read.value c int present)

/-- The row that has been read stands for the process that is pushed. -/
theorem RowRead.values {text : Column → CString} {s : RowState} {phases : List Int}
    (read : RowRead text s) (pid : text .pid ≠ []) (arrival : text .arrival ≠ [])
    (pushes : s.Pushes phases) : RowValues text (s.p.withPhases phases) where
  pid := read.value .pid (by decide) pid
  arrival := read.value .arrival (by decide) arrival
  priority := read.optional (by decide)
  tickets := read.optional (by decide)
  nice := read.optional (by decide)
  phases := by
    have burst (present : text .burst ≠ []) : I64Text (text .burst) s.p.burst :=
      read.value .burst (by decide) present
    cases pushes with
    | bursts nonempty =>
        have present : text .bursts ≠ [] := fun none => nonempty (read.noPhases none)
        refine .inl ⟨(parsePhases_eq_some_iff.mp (read.phases present)).1, ?_⟩
        by_cases given : text .burst = []
        · exact .inl given
        · exact .inr ⟨s.p.burst, burst given⟩
    | burst none given =>
        refine .inr ⟨?_, s.p.burst, burst (read.haveBurst.mp given), rfl⟩
        by_contra present
        have list := parsePhases_eq_some_iff.mp (read.phases present)
        exact list.1.ne_nil.2 none

theorem I64Text.eq {s : CString} {v v' : Int} (text : I64Text s v) (text' : I64Text s v') :
    v = v' :=
  Option.some.inj ((parseI64_eq_some_iff.mpr text).symm.trans (parseI64_eq_some_iff.mpr text'))

theorem OptionalText.eq {s : CString} {default v v' : Int} (text : OptionalText s default v)
    (text' : OptionalText s default v') : v = v' := by
  obtain ⟨none, rfl⟩ | number := text
  · obtain ⟨-, rfl⟩ | number' := text'
    · rfl
    · exact absurd none number'.ne_nil
  · obtain ⟨none, -⟩ | number' := text'
    · exact absurd none number.ne_nil
    · exact number.eq number'

theorem PhasesText.eq {s : CString} {phases phases' : List Int} (text : PhasesText s phases)
    (text' : PhasesText s phases') : phases = phases' := by
  rw [PhasesText] at text text'
  generalize parts 58 s = texts at text text'
  induction text generalizing phases' with
  | nil => exact (List.forall₂_nil_left_iff.mp text').symm
  | cons first _ ih =>
      cases text' with
      | cons first' rest' => rw [first.eq first', ih rest']

/-- The texts of the columns stand for one process only. -/
theorem RowValues.eq {body : Column → CString} {p q : Process} {phases : List Int}
    (values : RowValues body p) (readable : p.Readable)
    (values' : RowValues body (q.withPhases phases)) : q.withPhases phases = p := by
  have phasesEq : p.phases = phases := by
    obtain ⟨list, -⟩ | ⟨none, burst, number, same⟩ := values.phases
    · obtain ⟨list', -⟩ | ⟨none', -⟩ := values'.phases
      · exact list.eq list'
      · exact absurd none' list.ne_nil.1
    · obtain ⟨list', -⟩ | ⟨-, burst', number', same'⟩ := values'.phases
      · exact absurd none list'.ne_nil.1
      · exact same.trans ((number.eq number') ▸ same'.symm)
  have burst : p.burst = evenSum phases := by rw [readable.burst_eq, phasesEq]
  have io : p.io = oddSum phases := by rw [readable.io_eq, phasesEq]
  have pid : p.pid = q.pid := values.pid.eq values'.pid
  have arrival : p.arrival = q.arrival := values.arrival.eq values'.arrival
  have priority : p.priority = q.priority := values.priority.eq values'.priority
  have tickets : p.tickets = q.tickets := values.tickets.eq values'.tickets
  have nice : p.nice = q.nice := values.nice.eq values'.nice
  cases p
  simp_all [Process.withPhases]

theorem two_mul_length_le {sep : UInt8} {texts : List CString} (nonempty : ∀ t ∈ texts, t ≠ []) :
    2 * texts.length ≤ ([sep].intercalate texts).length + 1 := by
  induction texts with
  | nil => simp
  | cons t rest ih =>
      rw [List.forall_mem_cons] at nonempty
      have := List.length_pos_iff.mpr nonempty.1
      have := ih nonempty.2
      cases rest with
      | nil =>
          simp only [List.intercalate_singleton, List.length_singleton]
          omega
      | cons u rest =>
          rw [List.intercalate_cons_cons, List.length_append, List.length_append,
            List.length_singleton, List.length_cons]
          omega

theorem length_le_intercalate {sep : UInt8} {texts : List CString} {t : CString}
    (mem : t ∈ texts) : t.length ≤ ([sep].intercalate texts).length := by
  induction texts with
  | nil => cases mem
  | cons u rest ih =>
      cases rest with
      | nil =>
          obtain rfl := List.mem_singleton.mp mem
          rw [List.intercalate_singleton]
      | cons x rest =>
          rw [List.intercalate_cons_cons, List.length_append, List.length_append]
          rcases List.mem_cons.mp mem with rfl | mem
          · omega
          · have := ih mem
            omega

theorem trim_length_le (s : CString) : (trim s).length ≤ s.length := by
  obtain ⟨a, b, -, -, whole⟩ := trim_spec s
  have := congrArg List.length whole
  simp only [List.length_append] at this
  omega

theorem length_le_of_parts {sep : UInt8} {s t : CString} (mem : t ∈ parts sep s) :
    t.length ≤ s.length := by
  obtain ⟨u, piece, rfl⟩ := List.mem_map.mp mem
  have inside : u.length ≤ ([sep].intercalate (s.splitOn sep)).length := length_le_intercalate piece
  rw [List.intercalate_splitOn] at inside
  exact (trim_length_le u).trans inside

/-- A list of phases that fits in a line fits in the array of `parse_row`. -/
theorem PhasesText.length_le {s : CString} {phases : List Int} (text : PhasesText s phases)
    (short : s.length < lineMaxLen) : phases.length ≤ maxPhases := by
  have nonempty : ∀ t ∈ s.splitOn 58, t ≠ [] := by
    rintro t mem rfl
    have part : [] ∈ parts 58 s := List.mem_map.mpr ⟨[], mem, rfl⟩
    obtain ⟨v, -, number⟩ := exists_of_forall₂ text part
    exact number.ne_nil rfl
  have count : phases.length = (s.splitOn 58).length := by
    rw [← text.length_eq, parts, List.length_map]
  have total : 2 * (s.splitOn 58).length ≤ ([58].intercalate (s.splitOn 58)).length + 1 :=
    two_mul_length_le nonempty
  rw [List.intercalate_splitOn, ← count] at total
  simp only [lineMaxLen, maxPhases] at short ⊢
  omega

/-- Every column of a row has a text that `parse_row` accepts. -/
theorem RowValues.fine {body : Column → CString} {p : Process} (values : RowValues body p)
    {c : Column} (short : (body c).length < lineMaxLen) :
    (body c = [] ∧ c.required = false) ∨
      (body c ≠ [] ∧ c = .bursts ∧ ∃ phases, parsePhases (body c) = some phases) ∨
        (c ≠ .bursts ∧ ∃ v, I64Text (body c) v) := by
  have optional {c : Column} {default v : Int} (int : c ≠ .bursts) (free : c.required = false)
      (text : OptionalText (body c) default v) :
      (body c = [] ∧ c.required = false) ∨
        (body c ≠ [] ∧ c = .bursts ∧ ∃ phases, parsePhases (body c) = some phases) ∨
          (c ≠ .bursts ∧ ∃ v, I64Text (body c) v) :=
    text.elim (fun none => .inl ⟨none.1, free⟩) fun number => .inr (.inr ⟨int, v, number⟩)
  cases c with
  | pid => exact .inr (.inr ⟨by decide, p.pid, values.pid⟩)
  | arrival => exact .inr (.inr ⟨by decide, p.arrival, values.arrival⟩)
  | burst =>
      obtain ⟨-, none | ⟨burst, number⟩⟩ | ⟨-, burst, number, -⟩ := values.phases
      · exact .inl ⟨none, rfl⟩
      · exact .inr (.inr ⟨by decide, burst, number⟩)
      · exact .inr (.inr ⟨by decide, burst, number⟩)
  | bursts =>
      obtain ⟨list, -⟩ | ⟨none, -⟩ := values.phases
      · exact .inr (.inl ⟨list.ne_nil.1, rfl, p.phases,
          parsePhases_eq_some_iff.mpr ⟨list, list.length_le short⟩⟩)
      · exact .inl ⟨none, rfl⟩
  | priority => exact optional (by decide) rfl values.priority
  | tickets => exact optional (by decide) rfl values.tickets
  | nice => exact optional (by decide) rfl values.nice

/-- Where the texts stand for a process, there are phases to push. -/
theorem RowRead.pushes {text : Column → CString} {s : RowState} {p : Process}
    (read : RowRead text s) (values : RowValues text p) : ∃ phases, s.Pushes phases := by
  by_cases list : text .bursts = []
  · obtain ⟨text', -⟩ | ⟨-, burst, number, -⟩ := values.phases
    · exact absurd list text'.ne_nil.1
    · exact ⟨_, .burst (read.noPhases list) (read.haveBurst.mpr number.ne_nil)⟩
  · exact ⟨_, .bursts (parsePhases_eq_some_iff.mp (read.phases list)).1.ne_nil.2⟩

/-- `parse_row` accepts exactly the rows, and pushes their processes. -/
theorem parseRow_ok_iff {text : CString} {cols : List Column} {line : Nat} {w w' : Workload}
    {header : CString} (named : HeaderText header cols) (short : text.length < lineMaxLen) :
    parseRow (parts 44 text) cols line w = .ok w' ↔
      ∃ p, RowText cols text p ∧ w' = ⟨w.items ++ [p]⟩ := by
  rw [parseRow]
  constructor
  · intro parsed
    split_ifs at parsed with differ
    · cases parsed
    obtain ⟨s, read, finished⟩ := exceptBind_ok_iff.mp parsed
    obtain ⟨phases, pushes, readable, rfl⟩ := finishRow_ok_iff.mp finished
    obtain ⟨body, absent, fields, required, done⟩ :=
      RowRead.init.run named.distinct (fun _ _ => rfl) (not_not.mp differ) read
    have values := done.values (required .pid named.pid rfl) (required .arrival named.arrival rfl)
      pushes
    exact ⟨s.p.withPhases phases, ⟨body, absent, fields, values, readable⟩, rfl⟩
  · rintro ⟨p, ⟨body, absent, fields, values, readable⟩, rfl⟩
    have count : (parts 44 text).length = cols.length := by rw [fields, List.length_map]
    have inText {c : Column} (mem : c ∈ cols) : (body c).length < lineMaxLen := by
      refine (length_le_of_parts (show body c ∈ parts 44 text from ?_)).trans_lt short
      rw [fields]
      exact List.mem_map_of_mem mem
    obtain ⟨s, read⟩ := parseRowFields_total line
      (fun c mem => values.fine (inText mem)) { p := processMake 0 0 0 }
    rw [← fields] at read
    obtain ⟨body', absent', fields', -, done⟩ :=
      RowRead.init.run named.distinct (fun _ _ => rfl) count read
    obtain rfl : body' = body := by
      funext c
      by_cases mem : c ∈ cols
      · exact (List.map_inj_left.mp (fields.symm.trans fields') c mem).symm
      · rw [absent c mem, absent' c mem]
    obtain ⟨phases, pushes⟩ := done.pushes values
    have same := values.eq readable
      (done.values values.pid.ne_nil values.arrival.ne_nil pushes)
    rw [if_neg (not_not.mpr count)]
    exact exceptBind_ok_iff.mpr ⟨s, read, finishRow_ok_iff.mpr
      ⟨phases, pushes, same ▸ readable, by rw [same]⟩⟩

end CpuSched
