import CpuSched.Cli.Options

/-!
# What an accepted command line guarantees

Every argument that `parse_option` accepts keeps the parameters in the ranges that the
engine and the policies rely on, and the lists of the last `--mlfq-quanta` and
`--mlfq-allot` are the ones in use.
-/

namespace CpuSched

variable {D : Type}

/-! ## Values -/

theorem parsePositive_eq_some {v : CString} {x : Int} (parsed : parsePositive v = some x) :
    Numeral v x ∧ 0 < x := by
  obtain ⟨value, pos⟩ := Option.filter_eq_some_iff.mp parsed
  exact ⟨(parseI64_eq_some_iff.mp value).1, by simpa using pos⟩

theorem parseNonneg_eq_some {v : CString} {x : Int} (parsed : parseNonneg v = some x) :
    0 ≤ x := by
  obtain ⟨-, nonneg⟩ := Option.filter_eq_some_iff.mp parsed
  simpa using nonneg

theorem parseEntries_eq_some {max count : Nat} {entries : List CString} {xs : List Int}
    (room : count ≤ max) (parsed : parseEntries max count entries = some xs) :
    List.Forall₂ Numeral entries xs ∧ (∀ x ∈ xs, 0 < x) ∧ count + xs.length ≤ max := by
  induction entries generalizing count xs with
  | nil =>
      obtain rfl : [] = xs := by simpa [parseEntries] using parsed
      exact ⟨.nil, by simp, by simpa using room⟩
  | cons entry rest ih =>
      rw [parseEntries] at parsed
      split_ifs at parsed with bad
      obtain ⟨notFull, -⟩ := not_or.mp bad
      obtain ⟨x, first, parsed⟩ := Option.bind_eq_some_iff.mp parsed
      obtain ⟨xs', others, same⟩ := Option.bind_eq_some_iff.mp parsed
      obtain rfl := Option.some.inj same
      obtain ⟨numeral, pos⟩ := parsePositive_eq_some first
      obtain ⟨numerals, allPos, fits⟩ := ih (by omega) others
      refine ⟨.cons numeral numerals, ?_, ?_⟩
      · simpa using ⟨pos, allPos⟩
      · simp only [List.length_cons]
        omega

/-- A list that `parse_list` accepts: numerals > 0, at least one and at most `max`. -/
theorem parseList_eq_some {v : CString} {max : Nat} {xs : List Int}
    (parsed : parseList v max = some xs) :
    List.Forall₂ Numeral (v.splitOn 44) xs ∧ (∀ x ∈ xs, 0 < x) ∧ 1 ≤ xs.length ∧
      xs.length ≤ max := by
  obtain ⟨numerals, pos, fits⟩ := parseEntries_eq_some (Nat.zero_le max) parsed
  refine ⟨numerals, pos, ?_, by omega⟩
  rw [← numerals.length_eq]
  exact List.length_pos_iff.mpr (List.splitOn_ne_nil 44 v)

theorem overwrite_pos {out : Nat → Int} {xs : List Int} (outPos : ∀ l, 0 < out l)
    (pos : ∀ x ∈ xs, 0 < x) (l : Nat) : 0 < overwrite out xs l := by
  rw [overwrite, List.getD_eq_getElem?_getD]
  cases entry : xs[l]? with
  | none => exact outPos l
  | some x => exact pos x (List.mem_of_getElem? entry)

theorem overwrite_eq {out : Nat → Int} {xs : List Int} {l : Nat} (bound : l < xs.length) :
    xs[l]? = some (overwrite out xs l) := by
  simp [overwrite, List.getD_eq_getElem?_getD, bound]

/-! ## The flags -/

section Flags

variable {name : String} {v : CString} {opt opt' : Options D}

theorem positiveFlag_set {put : Int → Options D → Options D}
    (accepted : (positiveFlag name put).set v opt = .ok opt') :
    ∃ x, 0 < x ∧ opt' = put x opt := by
  simp only [positiveFlag] at accepted
  split at accepted
  case h_1 x parsed => exact ⟨x, (parsePositive_eq_some parsed).2, (Except.ok.inj accepted).symm⟩
  case h_2 => cases accepted

theorem nonnegFlag_set {put : Int → Options D → Options D}
    (accepted : (nonnegFlag name put).set v opt = .ok opt') :
    ∃ x, 0 ≤ x ∧ opt' = put x opt := by
  simp only [nonnegFlag] at accepted
  split at accepted
  case h_1 x parsed => exact ⟨x, parseNonneg_eq_some parsed, (Except.ok.inj accepted).symm⟩
  case h_2 => cases accepted

theorem rangeFlag_set {max : Nat} {put : Nat → Options D → Options D}
    (accepted : (rangeFlag name max put).set v opt = .ok opt') :
    ∃ x, 1 ≤ x ∧ x ≤ max ∧ opt' = put x opt := by
  simp only [rangeFlag] at accepted
  split at accepted
  case h_1 x parsed =>
    obtain ⟨parsed, small⟩ := Option.filter_eq_some_iff.mp parsed
    have pos := (parsePositive_eq_some parsed).2
    have small : x ≤ max := by simpa using small
    exact ⟨x.toNat, by omega, by omega, (Except.ok.inj accepted).symm⟩
  case h_2 => cases accepted

theorem listFlag_set {put : List Int → Options D → Options D}
    (accepted : (listFlag name put).set v opt = .ok opt') :
    ∃ xs, parseList v schedMlfqMaxLevels = some xs ∧ opt' = put xs opt := by
  simp only [listFlag] at accepted
  split at accepted
  case h_1 xs parsed => exact ⟨xs, parsed, (Except.ok.inj accepted).symm⟩
  case h_2 => cases accepted

theorem wordFlag_set {expected : String} {words : List (String × (Options D → Options D))}
    (accepted : (wordFlag name expected words).set v opt = .ok opt') :
    ∃ word ∈ words, opt' = word.2 opt := by
  simp only [wordFlag] at accepted
  split at accepted
  case h_1 word found =>
    exact ⟨word, List.mem_of_find?_eq_some found, (Except.ok.inj accepted).symm⟩
  case h_2 => cases accepted

theorem doubleFlag_set [Double D] {strtod : CString → Strtod D} {expected : String}
    {accepts : D → Bool} {put : D → Options D → Options D}
    (accepted : (doubleFlag strtod name expected accepts put).set v opt = .ok opt') :
    ∃ x, opt' = put x opt := by
  simp only [doubleFlag] at accepted
  split at accepted
  case h_1 x parsed => exact ⟨x, (Except.ok.inj accepted).symm⟩
  case h_2 => cases accepted

theorem fileFlag_set {put : CString → Options D → Options D}
    (accepted : (fileFlag name put).set v opt = .ok opt') : opt' = put v opt := by
  simp only [fileFlag] at accepted
  split_ifs at accepted
  · cases accepted
  · exact (Except.ok.inj accepted).symm

theorem algoFlag_set [Double D] (accepted : (algoFlag (D := D)).set v opt = .ok opt') :
    ∃ selected, opt' = { opt with selected } := by
  simp only [algoFlag] at accepted
  cases names : parseAlgoNames D (v.splitOn 44) fun _ => false with
  | error err =>
      rw [names] at accepted
      cases accepted
  | ok selected =>
      rw [names] at accepted
      exact ⟨selected, (Except.ok.inj accepted).symm⟩

end Flags

/-! ## The last list -/

/-- The values of the options `flag`, in order. -/
def valuesOf (flag : String) (args : List CString) : List CString :=
  args.filterMap fun arg => flagValue arg (cstr flag)

/-- The value of the last option `flag`. -/
def lastValue (flag : String) (args : List CString) : Option CString :=
  (valuesOf flag args).getLast?

/-- `out` starts with the `levels` numbers that the list `v` writes, and no more. -/
def ListsLevels (v : CString) (levels : Nat) (out : Nat → Int) : Prop :=
  ∃ xs : List Int, List.Forall₂ Numeral (v.splitOn 44) xs ∧ xs.length = levels ∧
    ∀ l < levels, xs[l]? = some (out l)

/-- What is known of a list option after the arguments `done`. -/
structure ListRead (flag : String) (done : List CString) (given : Bool) (count : Nat)
    (out : Nat → Int) : Prop where
  given_eq : given = (lastValue flag done).isSome
  last : ∀ v, lastValue flag done = some v →
    1 ≤ count ∧ count ≤ schedMlfqMaxLevels ∧ ListsLevels v count out

theorem flagValue_self (flag v : CString) : flagValue (flag ++ v) flag = some v := by
  rw [flagValue, if_pos (startsWith_iff.mpr (List.prefix_append flag v)),
    List.drop_left]

theorem eq_append_of_flagValue {arg flag : CString} (found : (flagValue arg flag).isSome = true) :
    arg = flag ++ arg.drop flag.length := by
  rw [flagValue] at found
  split_ifs at found with start
  · obtain ⟨rest, rfl⟩ := startsWith_iff.mp start
    rw [List.drop_left]
  · cases found

/-- Two flags that differ in a byte that both have: no argument starts with both. -/
def Diverge (a b : CString) : Bool := (a.zip b).any fun pair => pair.1 != pair.2

theorem flagValue_of_apart {flag other v : CString} (apart : Diverge flag other = true) :
    flagValue (other ++ v) flag = none := by
  rw [flagValue, if_neg]
  intro start
  obtain ⟨rest, same⟩ := startsWith_iff.mp start
  obtain ⟨⟨b, c⟩, mem, differ⟩ := List.any_eq_true.mp apart
  obtain ⟨i, bound, at_i⟩ := List.getElem_of_mem mem
  have bound' : i < flag.length ∧ i < other.length := by simpa using bound
  have left := congrArg (fun xs => xs[i]?) same
  simp only [List.getElem?_append_left bound'.1, List.getElem?_append_left bound'.2] at left
  simp_all

theorem ListRead.skip {flag : String} {done : List CString} {given : Bool} {count : Nat}
    {out : Nat → Int} (read : ListRead flag done given count out) {arg : CString}
    (other : flagValue arg (cstr flag) = none) :
    ListRead flag (done ++ [arg]) given count out := by
  have same : lastValue flag (done ++ [arg]) = lastValue flag done := by
    simp [lastValue, valuesOf, List.filterMap_append, other]
  exact ⟨same ▸ read.given_eq, same ▸ read.last⟩

theorem ListRead.take {flag : String} (done : List CString) {v : CString} {xs : List Int}
    (out : Nat → Int) (parsed : parseList v schedMlfqMaxLevels = some xs) :
    ListRead flag (done ++ [cstr flag ++ v]) true xs.length (overwrite out xs) := by
  have last : lastValue flag (done ++ [cstr flag ++ v]) = some v := by
    simp [lastValue, valuesOf, List.filterMap_append, flagValue_self]
  obtain ⟨numerals, -, nonempty, short⟩ := parseList_eq_some parsed
  refine ⟨by rw [last]; rfl, ?_⟩
  intro v' same
  obtain rfl : v = v' := Option.some.inj (last.symm.trans same)
  exact ⟨nonempty, short, xs, numerals, rfl, fun l bound => overwrite_eq bound⟩

/-! ## The invariant of the loop -/

/-- What holds of the options after the arguments `done`. -/
structure OptionsOk (done : List CString) (opt : Options D) : Prop where
  quantum_pos : 0 < opt.params.quantum
  aging_nonneg : 0 ≤ opt.params.aging
  levels_pos : 1 ≤ opt.params.mlfqLevels
  levels_le : opt.params.mlfqLevels ≤ schedMlfqMaxLevels
  quanta_pos : ∀ l, 0 < opt.params.mlfqQuanta l
  allotment_pos : ∀ l, 0 < opt.params.mlfqAllotment l
  boost_nonneg : 0 ≤ opt.params.mlfqBoost
  latency_pos : 0 < opt.params.cfsLatency
  minGran_pos : 0 < opt.params.cfsMinGran
  cores_pos : 1 ≤ opt.sim.cores
  cores_le : opt.sim.cores ≤ schedMaxCores
  csCost_nonneg : 0 ≤ opt.sim.csCost
  quanta : ListRead "--mlfq-quanta=" done opt.quantaGiven opt.nQuanta opt.params.mlfqQuanta
  allot : ListRead "--mlfq-allot=" done opt.allotGiven opt.nAllot opt.params.mlfqAllotment

/-- An argument that is neither of the two list options. -/
def NoList (arg : CString) : Prop :=
  flagValue arg (cstr "--mlfq-quanta=") = none ∧ flagValue arg (cstr "--mlfq-allot=") = none

theorem noList_append {flag v : CString}
    (apart : (Diverge (cstr "--mlfq-quanta=") flag && Diverge (cstr "--mlfq-allot=") flag) = true) :
    NoList (flag ++ v) := by
  obtain ⟨quanta, allot⟩ := Bool.and_eq_true_iff.mp apart
  exact ⟨flagValue_of_apart quanta, flagValue_of_apart allot⟩

theorem OptionsOk.next {done : List CString} {opt : Options D} (ok : OptionsOk done opt)
    {arg : CString} (noList : NoList arg) : OptionsOk (done ++ [arg]) opt :=
  { ok with
    quanta := ok.quanta.skip noList.1
    allot := ok.allot.skip noList.2 }

section Steps

variable [Double D] {strtod : CString → Strtod D} {done : List CString} {opt opt' : Options D}

theorem OptionsOk.default : OptionsOk (D := D) [] defaultOptions where
  quantum_pos := PolicyParams.admitted_default.quantum_pos
  aging_nonneg := PolicyParams.admitted_default.aging_nonneg
  levels_pos := PolicyParams.admitted_default.levels_pos
  levels_le := PolicyParams.admitted_default.levels_le
  quanta_pos l := mul_pos two_pos (pow_pos two_pos l)
  allotment_pos l := mul_pos two_pos (pow_pos two_pos l)
  boost_nonneg := PolicyParams.admitted_default.boost_nonneg
  latency_pos := PolicyParams.admitted_default.latency_pos
  minGran_pos := PolicyParams.admitted_default.minGran_pos
  cores_pos := le_rfl
  cores_le := Nat.le_of_ble_eq_true rfl
  csCost_nonneg := le_rfl
  quanta := ⟨rfl, fun v last => by cases last⟩
  allot := ⟨rfl, fun v last => by cases last⟩

/-- Every option with a value keeps the invariant. -/
theorem OptionsOk.setValue {f : ValueFlag D} (mem : f ∈ valueFlags strtod) {v : CString}
    (ok : OptionsOk done opt) (accepted : f.set v opt = .ok opt') :
    OptionsOk (done ++ [f.flag ++ v]) opt' := by
  have next (flag : String) (apart : (Diverge (cstr "--mlfq-quanta=") (cstr flag ++ [61]) &&
      Diverge (cstr "--mlfq-allot=") (cstr flag ++ [61])) = true) :
      OptionsOk (done ++ [cstr flag ++ [61] ++ v]) opt := ok.next (noList_append apart)
  simp only [valueFlags, List.mem_cons, List.not_mem_nil, or_false] at mem
  -- One case for each line of the table.
  rcases mem with rfl | rfl | rfl | rfl | rfl | rfl | rfl | rfl | rfl | rfl | rfl | rfl | rfl |
    rfl | rfl | rfl | rfl | rfl | rfl | rfl
  · obtain ⟨selected, rfl⟩ := algoFlag_set accepted
    exact { next "--algo" (by decide) with }
  · obtain ⟨x, pos, rfl⟩ := positiveFlag_set accepted
    exact { next "--quantum" (by decide) with quantum_pos := pos }
  · obtain ⟨x, nonneg, rfl⟩ := nonnegFlag_set accepted
    exact { next "--aging" (by decide) with aging_nonneg := nonneg }
  · obtain ⟨l, pos, small, rfl⟩ := rangeFlag_set accepted
    exact { next "--mlfq-levels" (by decide) with levels_pos := pos, levels_le := small }
  · obtain ⟨xs, parsed, rfl⟩ := listFlag_set accepted
    obtain ⟨-, pos, -, -⟩ := parseList_eq_some parsed
    exact { ok with
      quanta_pos := overwrite_pos ok.quanta_pos pos
      quanta := .take done opt.params.mlfqQuanta parsed
      allot := ok.allot.skip (flagValue_of_apart
        (show Diverge (cstr "--mlfq-allot=") (cstr "--mlfq-quanta=") = true by decide)) }
  · obtain ⟨xs, parsed, rfl⟩ := listFlag_set accepted
    obtain ⟨-, pos, -, -⟩ := parseList_eq_some parsed
    exact { ok with
      allotment_pos := overwrite_pos ok.allotment_pos pos
      quanta := ok.quanta.skip (flagValue_of_apart
        (show Diverge (cstr "--mlfq-quanta=") (cstr "--mlfq-allot=") = true by decide))
      allot := .take done opt.params.mlfqAllotment parsed }
  · obtain ⟨x, nonneg, rfl⟩ := nonnegFlag_set accepted
    exact { next "--mlfq-boost" (by decide) with boost_nonneg := nonneg }
  · obtain ⟨x, -, rfl⟩ := nonnegFlag_set accepted
    exact { next "--seed" (by decide) with }
  · obtain ⟨x, pos, rfl⟩ := positiveFlag_set accepted
    exact { next "--cfs-latency" (by decide) with latency_pos := pos }
  · obtain ⟨x, pos, rfl⟩ := positiveFlag_set accepted
    exact { next "--cfs-min-gran" (by decide) with minGran_pos := pos }
  · obtain ⟨c, pos, small, rfl⟩ := rangeFlag_set accepted
    exact { next "--cores" (by decide) with cores_pos := pos, cores_le := small }
  · obtain ⟨x, nonneg, rfl⟩ := nonnegFlag_set accepted
    exact { next "--cs-cost" (by decide) with csCost_nonneg := nonneg }
  · obtain ⟨word, mem, rfl⟩ := wordFlag_set accepted
    simp only [List.mem_cons, List.not_mem_nil, or_false] at mem
    rcases mem with rfl | rfl <;> exact { next "--predict" (by decide) with }
  · obtain ⟨x, rfl⟩ := doubleFlag_set accepted
    exact { next "--alpha" (by decide) with }
  · obtain ⟨x, rfl⟩ := doubleFlag_set accepted
    exact { next "--tau0" (by decide) with }
  · obtain rfl := fileFlag_set accepted
    exact { next "--input" (by decide) with }
  · obtain ⟨word, mem, rfl⟩ := wordFlag_set accepted
    simp only [List.mem_cons, List.not_mem_nil, or_false] at mem
    rcases mem with rfl | rfl | rfl | rfl <;> exact { next "--format" (by decide) with }
  · obtain ⟨word, mem, rfl⟩ := wordFlag_set accepted
    simp only [List.mem_cons, List.not_mem_nil, or_false] at mem
    rcases mem with rfl | rfl <;> exact { next "--metrics" (by decide) with }
  · obtain rfl := fileFlag_set accepted
    exact { next "--csv" (by decide) with }
  · obtain rfl := fileFlag_set accepted
    exact { next "--summary-csv" (by decide) with }

omit [Double D] in
/-- So does every option without one. -/
theorem OptionsOk.setPlain {f : CString × (Options D → Options D)} (mem : f ∈ plainFlags)
    (ok : OptionsOk done opt) : OptionsOk (done ++ [f.1]) (f.2 opt) := by
  have next (flag : String) (noList : flagValue (cstr flag) (cstr "--mlfq-quanta=") = none ∧
      flagValue (cstr flag) (cstr "--mlfq-allot=") = none) :
      OptionsOk (done ++ [cstr flag]) opt := ok.next noList
  simp only [plainFlags, List.mem_cons, List.not_mem_nil, or_false] at mem
  rcases mem with rfl | rfl | rfl | rfl | rfl | rfl | rfl
  · exact { next "--timing" (by decide) with }
  · exact { next "--gap" (by decide) with }
  · exact { next "--no-csv" (by decide) with }
  · exact { next "--no-gantt" (by decide) with }
  · exact { next "--per-tick" (by decide) with }
  · exact { next "--help" (by decide) with }
  · exact { next "-h" (by decide) with }

/-- One argument. -/
theorem OptionsOk.parseOption {arg : CString} (ok : OptionsOk done opt)
    (accepted : parseOption strtod opt arg = .ok opt') : OptionsOk (done ++ [arg]) opt' := by
  rw [CpuSched.parseOption] at accepted
  split at accepted
  case h_1 f found =>
    have starts : (flagValue arg f.flag).isSome = true := by simpa using List.find?_some found
    rw [eq_append_of_flagValue starts]
    exact ok.setValue (List.mem_of_find?_eq_some found) accepted
  case h_2 =>
    split at accepted
    case h_1 f found =>
      obtain rfl : f.1 = arg := by simpa using List.find?_some found
      obtain rfl := Except.ok.inj accepted
      exact ok.setPlain (List.mem_of_find?_eq_some found)
    case h_2 => cases accepted

/-- All arguments. -/
theorem OptionsOk.parseArgs {args : List CString} (ok : OptionsOk done opt)
    (accepted : parseArgs strtod args opt = .ok opt') : OptionsOk (done ++ args) opt' := by
  induction args generalizing done opt with
  | nil =>
      obtain rfl := Except.ok.inj accepted
      simpa using ok
  | cons arg rest ih =>
      rw [CpuSched.parseArgs] at accepted
      obtain ⟨mid, first, others⟩ := exceptBind_ok_iff.mp accepted
      simpa using ih (ok.parseOption first) others

end Steps

/-! ## The end of the command line -/

section Finish

variable {args : List CString} {opt opt' : Options D}

/-- `finish_mlfq` takes the number of levels from the last list of quanta. -/
theorem finishLevels_ok {mid : Options D} (ok : OptionsOk args opt)
    (accepted : finishLevels opt = .ok mid) :
    OptionsOk args mid ∧ (mid.quantaGiven = true → mid.nQuanta = mid.params.mlfqLevels) := by
  rw [finishLevels] at accepted
  split_ifs at accepted with given differ
  · cases accepted
  · obtain rfl := Except.ok.inj accepted
    refine ⟨?_, fun _ => rfl⟩
    obtain ⟨v, last⟩ := Option.isSome_iff_exists.mp (ok.quanta.given_eq.symm.trans given)
    obtain ⟨pos, small, -⟩ := ok.quanta.last v last
    exact { ok with levels_pos := pos, levels_le := small }
  · obtain rfl := Except.ok.inj accepted
    exact ⟨ok, fun absent => absurd absent given⟩

theorem finishMlfq_ok (ok : OptionsOk args opt)
    (accepted : finishMlfq opt = .ok opt') :
    ∃ mid, OptionsOk args mid ∧ (mid.quantaGiven = true → mid.nQuanta = mid.params.mlfqLevels) ∧
      ((mid.allotGiven = true ∧ mid.nAllot = mid.params.mlfqLevels ∧ opt' = mid) ∨
        (mid.allotGiven = false ∧
          opt' = { mid with params.mlfqAllotment := mid.params.mlfqQuanta })) := by
  rw [finishMlfq] at accepted
  obtain ⟨mid, levels, allotments⟩ := exceptBind_ok_iff.mp accepted
  obtain ⟨okMid, fromQuanta⟩ := finishLevels_ok ok levels
  refine ⟨mid, okMid, fromQuanta, ?_⟩
  split_ifs at allotments with given differ
  · cases allotments
  · exact .inl ⟨given, not_not.mp differ, (Except.ok.inj allotments).symm⟩
  · exact .inr ⟨by simpa using given, (Except.ok.inj allotments).symm⟩

theorem ListRead.used {flag : String} {given : Bool} {count levels : Nat} {out : Nat → Int}
    (read : ListRead flag args given count out)
    (levelsEq : given = true → count = levels) {v : CString} (last : lastValue flag args = some v) :
    ListsLevels v levels out := by
  have given := read.given_eq.trans (Option.isSome_iff_exists.mpr ⟨v, last⟩)
  exact levelsEq given ▸ (read.last v last).2.2

end Finish

/-- `parse_options`: whatever command line is accepted, the parameters are in the ranges
that the engine and the policies rely on, and MLFQ has one level for each entry of the
last lists of quanta and of allotments, used entry for entry. -/
theorem parse_options_sound [Double D] (strtod : CString → Strtod D) (args : List CString)
    (opt : Options D) (accepted : parseOptions strtod args = .ok opt) :
    opt.params.Admitted ∧ 1 ≤ opt.sim.cores ∧ opt.sim.cores ≤ 1024 ∧ 0 ≤ opt.sim.csCost ∧
      (∀ v, lastValue "--mlfq-quanta=" args = some v →
        ListsLevels v opt.params.mlfqLevels opt.params.mlfqQuanta) ∧
      (∀ v, lastValue "--mlfq-allot=" args = some v →
        ListsLevels v opt.params.mlfqLevels opt.params.mlfqAllotment) ∧
      (lastValue "--mlfq-allot=" args = none →
        opt.params.mlfqAllotment = opt.params.mlfqQuanta) := by
  rw [parseOptions] at accepted
  obtain ⟨read, parsed, finished⟩ := exceptBind_ok_iff.mp accepted
  obtain ⟨mid, ok, fromQuanta, given | absent⟩ :=
    finishMlfq_ok (.parseArgs .default parsed) finished
  · obtain ⟨given, fromAllot, rfl⟩ := given
    refine ⟨?_, ok.cores_pos, ok.cores_le, ok.csCost_nonneg,
      fun v last => ok.quanta.used fromQuanta last,
      fun v last => ok.allot.used (fun _ => fromAllot) last, ?_⟩
    · exact { ok with
        quanta_pos := fun l _ => ok.quanta_pos l
        allotment_pos := fun l _ => ok.allotment_pos l }
    · intro none
      have absent := ok.allot.given_eq.symm.trans given
      rw [List.nil_append] at absent
      simp [none] at absent
  · obtain ⟨absent, rfl⟩ := absent
    refine ⟨?_, ok.cores_pos, ok.cores_le, ok.csCost_nonneg,
      fun v last => ok.quanta.used fromQuanta last, ?_, fun _ => rfl⟩
    · exact { ok with
        quanta_pos := fun l _ => ok.quanta_pos l
        allotment_pos := fun l _ => ok.quanta_pos l }
    · intro v last
      have given := ok.allot.given_eq.symm.trans absent
      rw [List.nil_append] at given
      simp [last] at given

/-- A `strtod` on texts that are no numbers. -/
def noStrtod (s : CString) : Strtod Float := ⟨0, false, s⟩

/-- Two lists of quanta, then one of allotments: the second has two entries. -/
def twoLevelArgs : List CString :=
  [cstr "--mlfq-quanta=1,1,1", cstr "--cores=4", cstr "--mlfq-quanta=4,8", cstr "--mlfq-allot=6,+9"]

/-- What they leave in the options. -/
def twoLevelOptions : Options Float :=
  { defaultOptions with
    params.mlfqLevels := 2
    params.mlfqQuanta := overwrite (overwrite (defaultOptions (D := Float)).params.mlfqQuanta
      [1, 1, 1]) [4, 8]
    params.mlfqAllotment := overwrite (defaultOptions (D := Float)).params.mlfqAllotment [6, 9]
    sim.cores := 4
    quantaGiven := true
    allotGiven := true
    nQuanta := 2
    nAllot := 2 }

theorem parse_options_sound_two_levels :
    ListsLevels (cstr "4,8") 2 twoLevelOptions.params.mlfqQuanta ∧
      ListsLevels (cstr "6,+9") 2 twoLevelOptions.params.mlfqAllotment := by
  obtain ⟨-, -, -, -, quanta, allot, -⟩ :=
    parse_options_sound noStrtod twoLevelArgs twoLevelOptions rfl
  exact ⟨quanta _ (by decide), allot _ (by decide)⟩

end CpuSched
