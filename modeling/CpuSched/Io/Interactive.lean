import CpuSched.Io.CsvRows
import CpuSched.Lib.Words

/-!
# The interactive reader

`read_workload_interactive` of `src/io/input.c`: a process count and as many triples
`pid arrival burst`, separated by white space.  A stream is the list of its bytes, and
reading does not fail.  `parse_i64` sees a token up to its first NUL.  The prompts are
not modelled.
-/

namespace CpuSched

/-! ## The reader -/

/-- `TOKEN_MAX`. -/
def tokenMax : Nat := 64

/-- What `next_token` returns: 0, -1, or 1 with the buffer and what is left of the stream. -/
inductive Token
  | endOfInput
  | tooLong
  | read (buf rest : List UInt8)
  deriving DecidableEq, Repr

/-- The second loop of `next_token` with room for `room` more bytes; `none` is -1.  The
white space that ends the token is read. -/
def tokenBytes : Nat → List UInt8 → Option (List UInt8 × List UInt8)
  | _, [] => some ([], [])
  | 0, c :: stream => if isSpace c then some ([], stream) else none
  | room + 1, c :: stream =>
      if isSpace c then some ([], stream)
      else (tokenBytes room stream).map fun r => (c :: r.1, r.2)

/-- `next_token`. -/
def nextToken (stream : List UInt8) (size : Nat) : Token :=
  let stream := stream.dropWhile isSpace
  if stream = [] then .endOfInput
  else
    match tokenBytes (size - 1) stream with
    | none => .tooLong
    | some r => .read r.1 r.2

/-- `read_int_token`: the number and what is left of the stream. -/
def readIntToken (stream : List UInt8) (what : String) : Except SchedError (Int × List UInt8) :=
  match nextToken stream tokenMax with
  | .endOfInput => inputError s!"failed to read {what}: unexpected end of input"
  | .tooLong => inputError s!"failed to read {what}: token too long"
  | .read tok rest =>
      match parseI64 (cstringOf tok) with
      | none =>
          inputError
            s!"failed to read {what}: '{showBytes (cstringOf tok)}' is not a 64-bit integer"
      | some v => .ok (v, rest)

/-- The body of the loop of `read_workload_interactive`. -/
def readProcess (i : Nat) (stream : List UInt8) (w : Workload) :
    Except SchedError (List UInt8 × Workload) := do
  let p := processMake 0 0 0
  let (pid, stream) ← readIntToken stream s!"PID of process #{i}"
  let (arrival, stream) ← readIntToken stream s!"arrival of process #{i}"
  let (burst, stream) ← readIntToken stream s!"burst of process #{i}"
  let p := { p with pid, arrival, burst }
  processValidate p 0
  let w ← workloadPush w p
  .ok (stream, w)

/-- The loop of `read_workload_interactive`, which has read `i - 1` processes and reads
`left` more. -/
def readProcesses (i : Nat) : Nat → List UInt8 → Workload → Except SchedError Workload
  | 0, _, w => .ok w
  | left + 1, stream, w => do
      let (stream, w) ← readProcess i stream w
      readProcesses (i + 1) left stream w

/-- `read_workload_interactive`. -/
def readWorkloadInteractive (stream : List UInt8) (w : Workload) : Except SchedError Workload := do
  let (n, stream) ← readIntToken stream "number of processes"
  if n ≤ 0 then inputError s!"number of processes must be positive (got {n})"
  else readProcesses 1 n.toNat stream w

/-! ## Tokens -/

theorem tokenBytes_eq (room : Nat) (stream : List UInt8) : tokenBytes room stream =
    if (firstWord isSpace stream).1.length ≤ room then some (firstWord isSpace stream)
    else none := by
  induction stream generalizing room with
  | nil => simp [tokenBytes, firstWord]
  | cons c stream ih =>
      by_cases space : isSpace c = true
      · cases room <;> simp [tokenBytes, firstWord, space]
      · have space : isSpace c = false := by simpa using space
        cases room with
        | zero => simp [tokenBytes, firstWord, space]
        | succ room =>
            rw [tokenBytes, if_neg (by simp [space]), ih]
            simp only [firstWord, space, Bool.not_false, List.takeWhile_cons_of_pos,
              List.dropWhile_cons_of_pos, List.length_cons, Nat.add_le_add_iff_right]
            by_cases fits : (stream.takeWhile (!isSpace ·)).length ≤ room <;> simp [fits]

/-- `next_token` reads the next word if it fits into the buffer. -/
theorem nextToken_eq_read_iff {stream buf rest : List UInt8} :
    nextToken stream tokenMax = .read buf rest ↔ stream.dropWhile isSpace ≠ [] ∧
      firstWord isSpace (stream.dropWhile isSpace) = (buf, rest) ∧ buf.length < tokenMax := by
  simp only [nextToken, tokenBytes_eq]
  by_cases nothing : stream.dropWhile isSpace = []
  · simp [nothing]
  · rw [if_neg nothing]
    generalize firstWord isSpace (stream.dropWhile isSpace) = word
    rcases word with ⟨buf', rest'⟩
    have room : buf'.length ≤ tokenMax - 1 ↔ buf'.length < tokenMax := by
      unfold tokenMax
      omega
    by_cases fits : buf'.length ≤ tokenMax - 1
    · simp only [if_pos fits, Token.read.injEq, Prod.mk.injEq, nothing, not_false_eq_true,
        ne_eq, true_and]
      constructor
      · rintro ⟨rfl, rfl⟩
        exact ⟨⟨rfl, rfl⟩, room.mp fits⟩
      · exact fun h => h.1
    · simp only [if_neg fits, reduceCtorEq, Prod.mk.injEq, false_iff, not_and]
      rintro - ⟨rfl, -⟩ short
      exact fits (room.mpr short)

/-- The token fits into the buffer, and writes a number of the 64-bit range up to its first
NUL. -/
structure TokenText (token : List UInt8) (v : Int) : Prop where
  short : token.length < tokenMax
  text : I64Text (cstringOf token) v

/-- `read_int_token` reads the next word as a number. -/
theorem readIntToken_ok_iff {stream : List UInt8} {what : String} {r : Int × List UInt8} :
    readIntToken stream what = .ok r ↔ ∃ token, words isSpace stream =
      token :: words isSpace r.2 ∧ TokenText token r.1 ∧
        nextToken stream tokenMax = .read token r.2 := by
  unfold readIntToken
  cases next : nextToken stream tokenMax with
  | endOfInput => simp [inputError]
  | tooLong => simp [inputError]
  | read tok rest =>
      obtain ⟨more, word, short⟩ := nextToken_eq_read_iff.mp next
      have split : words isSpace stream = tok :: words isSpace rest :=
        words_eq_cons_iff.mpr ⟨more, congrArg Prod.fst word, by rw [word]⟩
      dsimp only
      cases parsed : parseI64 (cstringOf tok) with
      | none =>
          simp only [inputError, reduceCtorEq, false_iff, not_exists, not_and]
          rintro token - ⟨-, text⟩ same
          cases same
          cases parsed.symm.trans (parseI64_eq_some_iff.mpr text)
      | some v =>
          have text : I64Text (cstringOf tok) v := parseI64_eq_some_iff.mp parsed
          constructor
          · rintro ⟨⟩
            exact ⟨tok, split, ⟨short, text⟩, rfl⟩
          · rintro ⟨token, -, ⟨-, text'⟩, same⟩
            cases same
            have same : some v = some r.1 :=
              parsed.symm.trans (parseI64_eq_some_iff.mpr text')
            rw [Option.some.inj same]

/-- A word that writes a number is read. -/
theorem TokenText.read {stream token : List UInt8} {v : Int} {rest : List (List UInt8)}
    (text : TokenText token v) (split : words isSpace stream = token :: rest) (what : String) :
    ∃ stream', readIntToken stream what = .ok (v, stream') ∧ words isSpace stream' = rest := by
  obtain ⟨more, word, left⟩ := words_eq_cons_iff.mp split
  have next : nextToken stream tokenMax =
      .read token (firstWord isSpace (stream.dropWhile isSpace)).2 :=
    nextToken_eq_read_iff.mpr ⟨more, Prod.ext word rfl, text.short⟩
  exact ⟨_, readIntToken_ok_iff.mpr ⟨token, by rw [split, left], text, next⟩, left⟩

/-! ## Processes -/

/-- Three tokens that write a process: its numbers are the tokens', and everything else of
it is a default. -/
def TripleText (t : List UInt8 × List UInt8 × List UInt8) (p : Process) : Prop :=
  ∃ pid arrival burst, TokenText t.1 pid ∧ TokenText t.2.1 arrival ∧ TokenText t.2.2 burst ∧
    p = processMake pid arrival burst ∧ 0 ≤ pid ∧ 0 ≤ arrival ∧ 0 < burst

/-- The default process with three numbers. -/
theorem processMake_put (pid arrival burst : Int) :
    { processMake 0 0 0 with pid, arrival, burst }.withPhases [burst] =
      processMake pid arrival burst := by
  simp [Process.withPhases, processMake, evenSum, oddSum]

/-- The checks and the push of one process. -/
theorem process_ok_iff {pid arrival burst : Int} (fits : burst ≤ int64Max) {w w' : Workload} :
    (processValidate { processMake 0 0 0 with pid, arrival, burst } 0 = .ok () ∧
      workloadPush w { processMake 0 0 0 with pid, arrival, burst } = .ok w') ↔
      0 ≤ pid ∧ 0 ≤ arrival ∧ 0 < burst ∧ w' = ⟨w.items ++ [processMake pid arrival burst]⟩ := by
  rw [processValidate_ok_iff, workloadPush, workloadPushPhases_ok_iff, processMake_put]
  have even : evenSum [burst] = burst := by simp [evenSum]
  have odd : oddSum [burst] ≤ int64Max := by
    rw [oddSum_cons]
    exact int64Max_nonneg
  have defaults : (1 : Int) ≤ 100 ∧ 100 ≤ schedMaxTickets ∧ (-20 : Int) ≤ 0 ∧ (0 : Int) ≤ 19 := by
    decide
  constructor
  · rintro ⟨⟨pidPos, arrivalPos, burstPos, -⟩, -, -, -, -, rfl⟩
    exact ⟨pidPos, arrivalPos, burstPos, rfl⟩
  · rintro ⟨pidPos, arrivalPos, burstPos, rfl⟩
    exact ⟨⟨pidPos, arrivalPos, burstPos, defaults⟩, rfl,
      by simpa using burstPos, by rw [even]; exact fits, odd, rfl⟩

/-- The body of the loop reads a process where the next three words write one. -/
theorem readProcess_ok {i : Nat} {stream stream' : List UInt8} {w w' : Workload} :
    readProcess i stream w = .ok (stream', w') → ∃ t p, TripleText t p ∧
      words isSpace stream = t.1 :: t.2.1 :: t.2.2 :: words isSpace stream' ∧
      w' = ⟨w.items ++ [p]⟩ := by
  intro read
  unfold readProcess at read
  obtain ⟨⟨pid, stream₁⟩, readPid, read⟩ := exceptBind_ok_iff.mp read
  obtain ⟨⟨arrival, stream₂⟩, readArrival, read⟩ := exceptBind_ok_iff.mp read
  obtain ⟨⟨burst, stream₃⟩, readBurst, read⟩ := exceptBind_ok_iff.mp read
  obtain ⟨⟨⟩, validated, read⟩ := exceptBind_ok_iff.mp read
  obtain ⟨w₁, pushed, read⟩ := exceptBind_ok_iff.mp read
  cases read
  obtain ⟨pidTok, pidWord, pidText, -⟩ := readIntToken_ok_iff.mp readPid
  obtain ⟨arrivalTok, arrivalWord, arrivalText, -⟩ := readIntToken_ok_iff.mp readArrival
  obtain ⟨burstTok, burstWord, burstText, -⟩ := readIntToken_ok_iff.mp readBurst
  obtain ⟨pidPos, arrivalPos, burstPos, rfl⟩ :=
    (process_ok_iff burstText.text.2.2).mp ⟨validated, pushed⟩
  exact ⟨(pidTok, arrivalTok, burstTok), processMake pid arrival burst,
    ⟨pid, arrival, burst, pidText, arrivalText, burstText, rfl, pidPos, arrivalPos, burstPos⟩,
    by rw [pidWord, arrivalWord, burstWord], rfl⟩

theorem TripleText.readProcess {t : List UInt8 × List UInt8 × List UInt8} {p : Process}
    (text : TripleText t p) {stream : List UInt8} {rest : List (List UInt8)}
    (split : words isSpace stream = t.1 :: t.2.1 :: t.2.2 :: rest) (i : Nat) (w : Workload) :
    ∃ stream', readProcess i stream w = .ok (stream', ⟨w.items ++ [p]⟩) ∧
      words isSpace stream' = rest := by
  obtain ⟨pid, arrival, burst, pidText, arrivalText, burstText, rfl, pidPos, arrivalPos,
    burstPos⟩ := text
  obtain ⟨stream₁, readPid, split⟩ := pidText.read split s!"PID of process #{i}"
  obtain ⟨stream₂, readArrival, split⟩ := arrivalText.read split s!"arrival of process #{i}"
  obtain ⟨stream₃, readBurst, split⟩ := burstText.read split s!"burst of process #{i}"
  obtain ⟨validated, pushed⟩ := (process_ok_iff (w := w) burstText.text.2.2).mpr
    ⟨pidPos, arrivalPos, burstPos, rfl⟩
  exact ⟨stream₃, exceptBind_ok_iff.mpr ⟨_, readPid, exceptBind_ok_iff.mpr ⟨_, readArrival,
    exceptBind_ok_iff.mpr ⟨_, readBurst, exceptBind_ok_iff.mpr ⟨_, validated,
      exceptBind_ok_iff.mpr ⟨_, pushed, rfl⟩⟩⟩⟩⟩, split⟩

/-- The tokens of triples, in the order of the stream. -/
def tripleWords (ts : List (List UInt8 × List UInt8 × List UInt8)) : List (List UInt8) :=
  ts.flatMap fun t => [t.1, t.2.1, t.2.2]

/-- The loop reads the processes that the next triples of words write.  Induction on how many
are left. -/
theorem readProcesses_ok_iff {i left : Nat} {stream : List UInt8} {w w' : Workload} :
    readProcesses i left stream w = .ok w' ↔ ∃ ts ps rest,
      words isSpace stream = tripleWords ts ++ rest ∧ ts.length = left ∧
        List.Forall₂ TripleText ts ps ∧ w' = ⟨w.items ++ ps⟩ := by
  induction left generalizing i stream w with
  | zero =>
      rw [readProcesses]
      constructor
      · rintro ⟨⟩
        exact ⟨[], [], _, rfl, rfl, .nil, by rw [List.append_nil]⟩
      · rintro ⟨ts, ps, rest, -, none, texts, rfl⟩
        obtain rfl := List.length_eq_zero_iff.mp none
        cases texts
        rw [List.append_nil]
  | succ left ih =>
      rw [readProcesses, exceptBind_ok_iff]
      constructor
      · rintro ⟨⟨stream', w₁⟩, read, others⟩
        obtain ⟨t, p, text, split, rfl⟩ := readProcess_ok read
        obtain ⟨ts, ps, rest, split', count, texts, rfl⟩ := ih.mp others
        refine ⟨t :: ts, p :: ps, rest, ?_, by rw [List.length_cons, count], .cons text texts, ?_⟩
        · rw [split, split']
          rfl
        · rw [List.append_assoc, List.singleton_append]
      · rintro ⟨ts, ps, rest, split, count, texts, rfl⟩
        cases texts with
        | nil => cases count
        | @cons t p ts ps text texts =>
            obtain ⟨stream', read, split'⟩ := text.readProcess split i w
            refine ⟨(stream', _), read,
              ih.mpr ⟨ts, ps, rest, split', Nat.succ.inj count, texts, ?_⟩⟩
            rw [List.append_assoc, List.singleton_append]

/-- The interactive reader accepts exactly the streams whose words are a count `n` > 0, `n`
triples that write processes, and anything.  It reads these processes, in that order. -/
theorem read_workload_interactive_iff (stream : List UInt8) (w w' : Workload) :
    readWorkloadInteractive stream w = .ok w' ↔ ∃ count ts ps rest,
      words isSpace stream = count :: (tripleWords ts ++ rest) ∧
        0 < ts.length ∧ TokenText count ts.length ∧ List.Forall₂ TripleText ts ps ∧
        w' = ⟨w.items ++ ps⟩ := by
  rw [readWorkloadInteractive, exceptBind_ok_iff]
  constructor
  · rintro ⟨⟨n, stream'⟩, readCount, read⟩
    obtain ⟨count, word, text, -⟩ := readIntToken_ok_iff.mp readCount
    dsimp only at read word text
    split_ifs at read with bad
    · cases read
    obtain ⟨ts, ps, rest, split, length, texts, rfl⟩ := readProcesses_ok_iff.mp read
    have positive : n = ts.length := by omega
    exact ⟨count, ts, ps, rest, by rw [word, split], by omega, positive ▸ text, texts, rfl⟩
  · rintro ⟨count, ts, ps, rest, split, nonempty, text, texts, rfl⟩
    obtain ⟨stream', readCount, split'⟩ := text.read split "number of processes"
    refine ⟨(ts.length, stream'), readCount, ?_⟩
    dsimp only
    rw [if_neg (by omega)]
    exact readProcesses_ok_iff.mpr ⟨ts, ps, rest, split', by omega, texts, rfl⟩

end CpuSched
