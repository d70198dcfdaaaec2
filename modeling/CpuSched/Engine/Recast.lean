import CpuSched.Engine.Projection

/-!
# Engines that differ where it does not matter

What the engine decides does not depend on the timelines, nor on the lengths that were
asked for where the remaining burst is shorter.  `recast` replaces them, and the state of
the policy; the operations that call no hook commute with it.
-/

namespace CpuSched

/-! ## What a run writes down -/

/-- The timelines, the number of segments and the failure. -/
structure Tape where
  timelines : Nat → List Segment
  segments : Nat
  fail : EngineFail

namespace Tape

/-- A new segment, under the limit. -/
def push (limit : Nat) (t : Tape) (c : Nat) (seg : Segment) : Tape :=
  if limit ≤ t.segments then { t with fail := .limit }
  else { t with
    timelines := Function.update t.timelines c (seg :: t.timelines c)
    segments := t.segments + 1 }

/-- `append`, on the tape alone. -/
def append (limit : Nat) (t : Tape) (c : Nat) (start stop : Int) (proc : Option Nat)
    (kind : SegmentKind) : Tape :=
  if stop ≤ start ∨ t.fail ≠ .ok then t
  else
    match t.timelines c with
    | last :: rest =>
        if last.kind = kind ∧ last.proc = proc ∧ last.stop = start then
          { t with timelines := Function.update t.timelines c ({ last with stop } :: rest) }
        else t.push limit c ⟨start, stop, proc, kind⟩
    | [] => t.push limit c ⟨start, stop, proc, kind⟩

/-- What a sum beyond 64 bits leaves. -/
def overflow (t : Tape) : Tape := { t with fail := .overflow }

end Tape

variable {D : Type} {σ τ : Type}

/-- The tape of an engine. -/
abbrev Engine.tape (e : Engine D σ) : Tape := ⟨e.timelines, e.segments, e.fail⟩

/-- The engine with another policy state, another tape and other lengths asked for. -/
abbrev Engine.recast (e : Engine D σ) (s : τ) (t : Tape) (len : Nat → Int) : Engine D τ where
  state := s
  now := e.now
  pending := e.pending
  remaining := e.remaining
  burstLen := e.burstLen
  predicted := e.predicted
  phase := e.phase
  wake := e.wake
  blocked := e.blocked
  cores := fun c => { e.cores c with length := len c }
  outcomes := e.outcomes
  timelines := t.timelines
  switches := e.switches
  csTime := e.csTime
  segments := t.segments
  completed := e.completed
  fail := t.fail

/-- How long the process on a core runs. -/
def runLength (e : Engine D σ) (c p : Nat) : Int := min (e.cores c).length (e.remaining p)

/-- The engine after the start of `p` is noted. -/
def stampStart (e : Engine D σ) (p : Nat) : Engine D σ :=
  { e with outcomes := if (e.outcomes p).start < 0 then
      Function.update e.outcomes p { e.outcomes p with start := e.now } else e.outcomes }

/-- The core of a slice that starts now. -/
def runningCore (core : Core) (now runEnd : Int) : Core :=
  { core with
    inCs := false
    runStart := now
    runEnd
    busyUntil := if core.deadline < runEnd then core.deadline else runEnd }

namespace Sim

/-- The simulation with another policy and another segment limit. -/
abbrev alter (S : Sim D) (Q : Policy D) (limit : Nat) : Sim D where
  build := S.build
  w := S.w
  policy := Q
  params := S.params
  opt := { S.opt with maxSegments := limit }

variable {S : Sim D} {Q : Policy D} {limit : Nat}

/-! ## Operations that call no hook -/

section Silent

variable (e : S.Eng) (s : Q.State) (t : Tape) (len : Nat → Int)

theorem append_tape (c : Nat) (a b : Int) (p : Option Nat) (k : SegmentKind) :
    (S.append e c a b p k).tape = e.tape.append S.opt.maxSegments c a b p k := by
  unfold append Tape.append
  split_ifs with skip
  · rfl
  · cases line : e.timelines c with
    | nil =>
        simp only [line, pushSegment, Tape.push]
        split_ifs <;> rfl
    | cons last rest =>
        simp only [line, pushSegment, Tape.push]
        split_ifs <;> rfl

theorem append_recast (c : Nat) (a b : Int) (p : Option Nat) (k : SegmentKind) :
    (S.alter Q limit).append (e.recast s t len) c a b p k =
      e.recast s (t.append limit c a b p k) len := by
  unfold append Tape.append
  split_ifs with skip
  · rfl
  · cases line : t.timelines c with
    | nil =>
        simp only [line, pushSegment, Tape.push]
        split_ifs <;> rfl
    | cons last rest =>
        simp only [line, pushSegment, Tape.push]
        split_ifs <;> rfl

/-- `append` changes nothing but the tape. -/
theorem recast_append (c : Nat) (a b : Int) (p : Option Nat) (k : SegmentKind) :
    (S.append e c a b p k).recast s t len = e.recast s t len := by
  rw [append_eq]

theorem addTime_recast (a b : Int) : (S.alter Q limit).addTime (e.recast s t len) a b =
    (e.recast s (if ckAddI64 a b = none then t.overflow else t) len, (S.addTime e a b).2) := by
  cases sum : ckAddI64 a b with
  | none => simp [addTime, sum, Tape.overflow]
  | some r => simp [addTime, sum]

theorem addTime_tape (a b : Int) : (S.addTime e a b).1.tape =
    if ckAddI64 a b = none then e.tape.overflow else e.tape := by
  cases sum : ckAddI64 a b with
  | none => simp [addTime, sum, Tape.overflow]
  | some r => simp [addTime, sum]

theorem addTime_state (a b : Int) : (S.addTime e a b).1.state = e.state := by
  rw [addTime_eq]

theorem recast_addTime (a b : Int) : (S.addTime e a b).1.recast s t len = e.recast s t len := by
  rw [addTime_eq]

theorem setCore_recast (c : Nat) (core : Core) (l : Int) :
    (S.alter Q limit).setCore (e.recast s t len) c { core with length := l } =
      (S.setCore e c core).recast s t (Function.update len c l) := by
  simp only [setCore, Engine.recast]
  congr 1
  funext c'
  by_cases same : c' = c
  · subst same
    simp
  · simp [same]

theorem chargeRun_recast (c p : Nat) : (S.alter Q limit).chargeRun (e.recast s t len) c p =
    (S.chargeRun e c p).recast s
      (t.append limit c (e.cores c).runStart e.now (some p) .run) len := by
  obtain ⟨charged, charged_eq⟩ : ∃ charged : S.Eng, charged = { e with
      remaining :=
        Function.update e.remaining p (e.remaining p - (e.now - (e.cores c).runStart)) } :=
    ⟨_, rfl⟩
  obtain ⟨core, core_eq⟩ : ∃ core : Core,
    core = { e.cores c with proc := none, freeSince := e.now } :=
    ⟨_, rfl⟩
  have target : (S.alter Q limit).chargeRun (e.recast s t len) c p =
      (S.alter Q limit).setCore
        (charged.recast s (t.append limit c (e.cores c).runStart e.now (some p) .run) len) c
        { core with length := len c } := by
    unfold chargeRun
    dsimp only
    rw [append_recast, charged_eq, core_eq]
  have source : (S.chargeRun e c p).recast s
      (t.append limit c (e.cores c).runStart e.now (some p) .run) len =
      (S.setCore charged c core).recast s
        (t.append limit c (e.cores c).runStart e.now (some p) .run) len := by
    unfold chargeRun
    dsimp only
    rw [append_eq, charged_eq, core_eq]
    rfl
  rw [target, source, setCore_recast, Function.update_eq_self]

theorem chargeRun_tape (c p : Nat) : (S.chargeRun e c p).tape =
    e.tape.append S.opt.maxSegments c (e.cores c).runStart e.now (some p) .run :=
  append_tape e c _ _ _ _

theorem startIo_recast (p : Nat) : (S.alter Q limit).startIo (e.recast s t len) p =
    (S.startIo e p).recast s
      (if ckAddI64 e.now ((S.w.proc p).phase (e.phase p + 1)) = none then t.overflow else t)
        len := by
  unfold startIo
  dsimp only
  rw [addTime_recast, addTime_eq]

theorem startIo_tape (p : Nat) : (S.startIo e p).tape =
    if ckAddI64 e.now ((S.w.proc p).phase (e.phase p + 1)) = none then e.tape.overflow
    else e.tape :=
  addTime_tape e _ _

/-- The sum of `add_time`, whatever the engine. -/
theorem addTime_snd (a b : Int) : (S.addTime e a b).2 = (ckAddI64 a b).getD int64Max := by
  unfold addTime
  cases ckAddI64 a b <;> rfl

theorem beginRun_eq_setCore (c p : Nat) : S.beginRun e c p =
    S.setCore (S.addTime (stampStart e p) e.now (runLength e c p)).1 c
      (runningCore (e.cores c) e.now ((ckAddI64 e.now (runLength e c p)).getD int64Max)) := by
  unfold beginRun stampStart runLength runningCore
  rw [min_def_lt]
  by_cases fresh : (e.outcomes p).start < 0
  · simp only [fresh, if_true, addTime_snd, addTime_now]
  · simp only [fresh, if_false, addTime_snd, addTime_now]

theorem beginRun_tape (c p : Nat) : (S.beginRun e c p).tape =
    if ckAddI64 e.now (runLength e c p) = none then e.tape.overflow else e.tape := by
  rw [beginRun_eq_setCore]
  exact addTime_tape (stampStart e p) _ _

theorem beginRun_recast (c p : Nat)
    (fits : min (e.cores c).length (e.remaining p) = min (len c) (e.remaining p)) :
    (S.alter Q limit).beginRun (e.recast s t len) c p = (S.beginRun e c p).recast s
      (if ckAddI64 e.now (runLength e c p) = none then t.overflow else t) len := by
  have same : runLength (e.recast s t len) c p = runLength e c p := fits.symm
  have core : runningCore ((e.recast s t len).cores c) e.now
      ((ckAddI64 e.now (runLength e c p)).getD int64Max) =
      { runningCore (e.cores c) e.now ((ckAddI64 e.now (runLength e c p)).getD int64Max) with
        length := len c } := rfl
  have stamped : stampStart (e.recast s t len) p = (stampStart e p).recast s t len := rfl
  rw [beginRun_eq_setCore, beginRun_eq_setCore, same, core, stamped, addTime_recast, setCore_recast,
    Function.update_eq_self, addTime_eq]
  rfl

theorem seat_recast (c : Nat) (slice slice' : Slice) (proc_eq : slice'.proc = slice.proc)
    (deadline_eq : slice'.deadline = slice.deadline) :
    (S.alter Q limit).seat (e.recast s t len) c slice' = (S.seat e c slice).recast s
      (t.append limit c (e.cores c).freeSince e.now none .idle)
        (Function.update len c slice'.length) := by
  have core : seatedCore ((e.recast s t len).cores c) slice' =
      { seatedCore (e.cores c) slice with length := slice'.length } := by
    simp only [seatedCore, proc_eq, deadline_eq]
  have switch : (S.alter Q limit).switching (e.recast s t len) c slice'.proc = S.switching e c
    slice.proc := by
    rw [proc_eq]
    rfl
  rw [seat_eq, seat_eq, core, switch, append_recast]
  simp only [Engine.recast]
  congr 1
  funext c'
  by_cases same : c' = c
  · subst same
    simp
  · simp [same]

theorem seat_tape (c : Nat) (slice : Slice) : (S.seat e c slice).tape =
    e.tape.append S.opt.maxSegments c (e.cores c).freeSince e.now none .idle := by
  unfold seat
  dsimp only
  split_ifs <;> exact append_tape e c _ _ _ _

/-- The core of a switch-in. -/
theorem switchIn_eq_append (c p : Nat) : S.switchIn e c p =
    { S.append (S.setCore (S.addTime e e.now S.opt.csCost).1 c { e.cores c with
        inCs := true, busyUntil := (ckAddI64 e.now S.opt.csCost).getD int64Max }) c e.now
        ((ckAddI64 e.now S.opt.csCost).getD int64Max) (some p) .cs with
      csTime := e.csTime + S.opt.csCost } := by
  unfold switchIn
  simp only [addTime_snd, addTime_cores, addTime_now, append_csTime, setCore, addTime_csTime]

theorem switchIn_recast (c p : Nat) : (S.alter Q limit).switchIn (e.recast s t len) c p =
    (S.switchIn e c p).recast s
      ((if ckAddI64 e.now S.opt.csCost = none then t.overflow else t).append limit c e.now
        ((ckAddI64 e.now S.opt.csCost).getD int64Max) (some p) .cs) len := by
  have core : ({ (e.recast s t len).cores c with
        inCs := true, busyUntil := (ckAddI64 e.now S.opt.csCost).getD int64Max } : Core) =
      { ({ e.cores c with
          inCs := true, busyUntil := (ckAddI64 e.now S.opt.csCost).getD int64Max } : Core) with
        length := len c } := rfl
  rw [switchIn_eq_append, switchIn_eq_append, core, addTime_recast, setCore_recast,
    Function.update_eq_self, append_recast, append_eq, addTime_eq]
  rfl

theorem switchIn_tape (c p : Nat) : (S.switchIn e c p).tape =
    (if ckAddI64 e.now S.opt.csCost = none then e.tape.overflow else e.tape).append
      S.opt.maxSegments c
      e.now ((ckAddI64 e.now S.opt.csCost).getD int64Max) (some p) .cs := by
  rw [switchIn_eq_append, ← addTime_tape]
  exact append_tape _ c _ _ _ _

end Silent

end Sim

end CpuSched
