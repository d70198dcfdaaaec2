import CpuSched.Engine.Core
import CpuSched.Workload.Correctness

/-!
# What the engine operations change

Each operation of the engine updates a few fields of `Engine`.  The lemmas here
read the other fields through it, so that no later proof unfolds `append` or
`add_time`.
-/

namespace CpuSched

namespace Sim

variable {D : Type} (S : Sim D)

/-! ## `append` -/

theorem pushSegment_eq (e : S.Eng) (c : Nat) (seg : Segment) :
    S.pushSegment e c seg = { e with
      timelines := (S.pushSegment e c seg).timelines
      segments := (S.pushSegment e c seg).segments
      fail := (S.pushSegment e c seg).fail } := by
  unfold pushSegment
  split <;> rfl

/-- `append` only touches the timelines, their count and the failure flag. -/
theorem append_eq (e : S.Eng) (c : Nat) (a b : Int) (p : Option Nat) (k : SegmentKind) :
    S.append e c a b p k = { e with
      timelines := (S.append e c a b p k).timelines
      segments := (S.append e c a b p k).segments
      fail := (S.append e c a b p k).fail } := by
  unfold append
  split
  · rfl
  · split
    · split
      · rfl
      · exact S.pushSegment_eq e c _
    · exact S.pushSegment_eq e c _

section AppendFields

variable (e : S.Eng) (c : Nat) (a b : Int) (p : Option Nat) (k : SegmentKind)

@[simp] theorem append_state : (S.append e c a b p k).state = e.state := by rw [append_eq]

@[simp] theorem append_now : (S.append e c a b p k).now = e.now := by rw [append_eq]

@[simp] theorem append_pending : (S.append e c a b p k).pending = e.pending := by rw [append_eq]

@[simp] theorem append_remaining : (S.append e c a b p k).remaining = e.remaining := by
  rw [append_eq]

@[simp] theorem append_burstLen : (S.append e c a b p k).burstLen = e.burstLen := by
  rw [append_eq]

@[simp] theorem append_predicted : (S.append e c a b p k).predicted = e.predicted := by
  rw [append_eq]

@[simp] theorem append_phase : (S.append e c a b p k).phase = e.phase := by rw [append_eq]

@[simp] theorem append_wake : (S.append e c a b p k).wake = e.wake := by rw [append_eq]

@[simp] theorem append_blocked : (S.append e c a b p k).blocked = e.blocked := by rw [append_eq]

@[simp] theorem append_cores : (S.append e c a b p k).cores = e.cores := by rw [append_eq]

@[simp] theorem append_outcomes : (S.append e c a b p k).outcomes = e.outcomes := by
  rw [append_eq]

@[simp] theorem append_switches : (S.append e c a b p k).switches = e.switches := by
  rw [append_eq]

@[simp] theorem append_csTime : (S.append e c a b p k).csTime = e.csTime := by rw [append_eq]

@[simp] theorem append_completed : (S.append e c a b p k).completed = e.completed := by
  rw [append_eq]

@[simp] theorem view_append : S.view (S.append e c a b p k) = S.view e := by
  simp [view]

/-- `append` reads only what it writes. -/
theorem append_congr {e f : S.Eng} (fail : f.fail = e.fail) (timelines : f.timelines = e.timelines)
    (segments : f.segments = e.segments) :
    (S.append f c a b p k).timelines = (S.append e c a b p k).timelines ∧
      (S.append f c a b p k).segments = (S.append e c a b p k).segments ∧
      (S.append f c a b p k).fail = (S.append e c a b p k).fail := by
  unfold append pushSegment
  rw [fail, timelines, segments]
  cases e.timelines c with
  | nil =>
      dsimp only
      split_ifs <;> simp [fail, timelines, segments]
  | cons last rest =>
      dsimp only
      split_ifs <;> simp [fail, timelines, segments]

/-- `append` fails only at the segment limit. -/
theorem append_fail : (S.append e c a b p k).fail = e.fail ∨
    (S.append e c a b p k).fail = .limit := by
  have push : ∀ seg, (S.pushSegment e c seg).fail = e.fail ∨
      (S.pushSegment e c seg).fail = .limit := by
    intro seg
    unfold pushSegment
    split
    · exact .inr rfl
    · exact .inl rfl
  unfold append
  split
  · exact .inl rfl
  · split
    · split
      · exact .inl rfl
      · exact push _
    · exact push _

theorem append_segments (h : e.segments ≤ S.opt.maxSegments) :
    e.segments ≤ (S.append e c a b p k).segments ∧
      (S.append e c a b p k).segments ≤ S.opt.maxSegments := by
  have push : ∀ seg, e.segments ≤ (S.pushSegment e c seg).segments ∧
      (S.pushSegment e c seg).segments ≤ S.opt.maxSegments := by
    intro seg
    unfold pushSegment
    split
    · exact ⟨le_rfl, h⟩
    · simp only
      omega
  unfold append
  split
  · exact ⟨le_rfl, h⟩
  · split
    · split
      · exact ⟨le_rfl, h⟩
      · exact push _
    · exact push _

/-- A failure is final. -/
theorem append_of_fail (h : e.fail ≠ .ok) : S.append e c a b p k = e := by
  unfold append
  exact if_pos (.inr h)

theorem append_of_le (h : b ≤ a) : S.append e c a b p k = e := by
  unfold append
  exact if_pos (.inl h)

/-- How `append` records a non-empty interval: it extends the newest segment, or
pushes a new one that could not be merged. -/
inductive Recorded : S.Eng → Prop
  | extended {last rest} (timeline : e.timelines c = last :: rest) (kind_eq : last.kind = k)
      (proc_eq : last.proc = p) (stop_eq : last.stop = a) :
      Recorded { e with
        timelines := Function.update e.timelines c ({ last with stop := b } :: rest) }
  | pushed (apart : ∀ last rest, e.timelines c = last :: rest →
        ¬ (last.kind = k ∧ last.proc = p ∧ last.stop = a))
      (room : e.segments < S.opt.maxSegments) :
      Recorded { e with
        timelines := Function.update e.timelines c (⟨a, b, p, k⟩ :: e.timelines c)
        segments := e.segments + 1 }

/-- An `append` that does not fail records its interval. -/
theorem append_recorded (ok : (S.append e c a b p k).fail = .ok) (lt : a < b) :
    e.fail = .ok ∧ S.Recorded e c a b p k (S.append e c a b p k) := by
  have hfail : e.fail = .ok := by
    by_contra h
    rw [S.append_of_fail e c a b p k h] at ok
    exact h ok
  refine ⟨hfail, ?_⟩
  have push : ∀ e', e' = S.pushSegment e c ⟨a, b, p, k⟩ → e'.fail = .ok →
      (∀ last rest, e.timelines c = last :: rest →
        ¬ (last.kind = k ∧ last.proc = p ∧ last.stop = a)) →
      S.Recorded e c a b p k e' := by
    rintro e' rfl ok apart
    unfold pushSegment at ok ⊢
    split_ifs at ok ⊢ with full
    exact .pushed apart (by omega)
  unfold append at ok ⊢
  rw [if_neg (by simp [hfail, lt])] at ok ⊢
  cases timeline : e.timelines c with
  | nil =>
      simp only [timeline] at ok ⊢
      exact push _ rfl ok (by simp [timeline])
  | cons last rest =>
      simp only [timeline] at ok ⊢
      split_ifs at ok ⊢ with merge
      · exact .extended timeline merge.1 merge.2.1 merge.2.2
      · refine push _ rfl ok fun last' rest' h => ?_
        rw [timeline] at h
        cases h
        exact merge

end AppendFields

/-! ## `add_time` -/

/-- `add_time` only touches the failure flag. -/
theorem addTime_eq (e : S.Eng) (a b : Int) :
    (S.addTime e a b).1 = { e with fail := (S.addTime e a b).1.fail } := by
  unfold addTime
  split <;> rfl

section AddTimeFields

variable (e : S.Eng) (a b : Int)

@[simp] theorem addTime_now : (S.addTime e a b).1.now = e.now := by rw [addTime_eq]

@[simp] theorem addTime_pending : (S.addTime e a b).1.pending = e.pending := by rw [addTime_eq]

@[simp] theorem addTime_remaining :
    (S.addTime e a b).1.remaining = e.remaining := by rw [addTime_eq]

@[simp] theorem addTime_phase : (S.addTime e a b).1.phase = e.phase := by rw [addTime_eq]

@[simp] theorem addTime_wake : (S.addTime e a b).1.wake = e.wake := by rw [addTime_eq]

@[simp] theorem addTime_blocked : (S.addTime e a b).1.blocked = e.blocked := by rw [addTime_eq]

@[simp] theorem addTime_cores : (S.addTime e a b).1.cores = e.cores := by rw [addTime_eq]

@[simp] theorem addTime_outcomes : (S.addTime e a b).1.outcomes = e.outcomes := by rw [addTime_eq]

@[simp] theorem addTime_timelines :
    (S.addTime e a b).1.timelines = e.timelines := by rw [addTime_eq]

@[simp] theorem addTime_segments : (S.addTime e a b).1.segments = e.segments := by rw [addTime_eq]

@[simp] theorem addTime_switches : (S.addTime e a b).1.switches = e.switches := by rw [addTime_eq]

@[simp] theorem addTime_csTime : (S.addTime e a b).1.csTime = e.csTime := by rw [addTime_eq]

@[simp] theorem addTime_completed :
    (S.addTime e a b).1.completed = e.completed := by rw [addTime_eq]

end AddTimeFields

theorem addTime_of_le (e : S.Eng) {a b : Int} (hb : 0 ≤ b) (fits : a + b ≤ int64Max) :
    S.addTime e a b = (e, a + b) := by
  simp [addTime, ckAddI64_of_le hb fits]

@[simp] theorem setCore_self (e : S.Eng) (c : Nat) : S.setCore e c (e.cores c) = e := by
  simp [setCore]

/-! ## The end of a slice -/

section ChargeRun

variable (e : S.Eng) (c p : Nat)

@[simp] theorem chargeRun_state : (S.chargeRun e c p).state = e.state := by
  simp [chargeRun, setCore]

@[simp] theorem chargeRun_now : (S.chargeRun e c p).now = e.now := by
  simp [chargeRun, setCore]

@[simp] theorem chargeRun_pending : (S.chargeRun e c p).pending = e.pending := by
  simp [chargeRun, setCore]

@[simp] theorem chargeRun_remaining : (S.chargeRun e c p).remaining =
    Function.update e.remaining p (e.remaining p - (e.now - (e.cores c).runStart)) := by
  simp [chargeRun, setCore]

@[simp] theorem chargeRun_burstLen : (S.chargeRun e c p).burstLen = e.burstLen := by
  simp [chargeRun, setCore]

@[simp] theorem chargeRun_predicted : (S.chargeRun e c p).predicted = e.predicted := by
  simp [chargeRun, setCore]

@[simp] theorem chargeRun_phase : (S.chargeRun e c p).phase = e.phase := by
  simp [chargeRun, setCore]

@[simp] theorem chargeRun_wake : (S.chargeRun e c p).wake = e.wake := by
  simp [chargeRun, setCore]

@[simp] theorem chargeRun_blocked : (S.chargeRun e c p).blocked = e.blocked := by
  simp [chargeRun, setCore]

@[simp] theorem chargeRun_cores : (S.chargeRun e c p).cores =
    Function.update e.cores c { e.cores c with proc := none, freeSince := e.now } := by
  simp [chargeRun, setCore]

@[simp] theorem chargeRun_outcomes : (S.chargeRun e c p).outcomes = e.outcomes := by
  simp [chargeRun, setCore]

@[simp] theorem chargeRun_switches : (S.chargeRun e c p).switches = e.switches := by
  simp [chargeRun, setCore]

@[simp] theorem chargeRun_csTime : (S.chargeRun e c p).csTime = e.csTime := by
  simp [chargeRun, setCore]

@[simp] theorem chargeRun_completed : (S.chargeRun e c p).completed = e.completed := by
  simp [chargeRun, setCore]

@[simp] theorem chargeRun_timelines : (S.chargeRun e c p).timelines =
    (S.append e c (e.cores c).runStart e.now (some p) .run).timelines := rfl

@[simp] theorem chargeRun_segments : (S.chargeRun e c p).segments =
    (S.append e c (e.cores c).runStart e.now (some p) .run).segments := rfl

@[simp] theorem chargeRun_fail : (S.chargeRun e c p).fail =
    (S.append e c (e.cores c).runStart e.now (some p) .run).fail := rfl

end ChargeRun

@[simp] theorem startIo_now (e : S.Eng) (p : Nat) : (S.startIo e p).now = e.now := by
  simp [startIo]

/-- `startIo` when the wake time fits. -/
theorem startIo_eq (e : S.Eng) (p : Nat) (hio : 0 ≤ (S.w.proc p).phase (e.phase p + 1))
    (fits : e.now + (S.w.proc p).phase (e.phase p + 1) ≤ int64Max) :
    S.startIo e p = { e with
      wake := Function.update e.wake p (e.now + (S.w.proc p).phase (e.phase p + 1))
      phase := Function.update e.phase p (e.phase p + 2)
      burstLen := Function.update e.burstLen p ((S.w.proc p).phase (e.phase p + 2))
      remaining := Function.update e.remaining p ((S.w.proc p).phase (e.phase p + 2)) } := by
  simp [startIo, S.addTime_of_le e hio fits]

/-! ## The start of a slice -/

/-- The core after `begin_run` at `now`. -/
def startedCore (core : Core) (now remaining : Int) : Core :=
  { core with
    inCs := false
    runStart := now
    runEnd := now + min core.length remaining
    busyUntil := min core.deadline (now + min core.length remaining) }

/-- The outcome after `begin_run` at `now`. -/
def startedOutcome (o : ProcOutcome) (now : Int) : ProcOutcome :=
  if o.start < 0 then { o with start := now } else o

@[simp] theorem startedOutcome_completion (o : ProcOutcome) (now : Int) :
    (startedOutcome o now).completion = o.completion := by
  unfold startedOutcome
  split <;> rfl

@[simp] theorem beginRun_now (e : S.Eng) (c p : Nat) : (S.beginRun e c p).now = e.now := by
  unfold beginRun
  split <;> simp [setCore]

/-- `begin_run` when the end of the slice fits. -/
theorem beginRun_eq (e : S.Eng) (c p : Nat) (hlen : 0 ≤ (e.cores c).length)
    (hrem : 0 ≤ e.remaining p) (fits : e.now + e.remaining p ≤ int64Max) :
    S.beginRun e c p = { e with
      outcomes := Function.update e.outcomes p (startedOutcome (e.outcomes p) e.now)
      cores := Function.update e.cores c (startedCore (e.cores c) e.now (e.remaining p)) } := by
  have hmin : (if (e.cores c).length < e.remaining p then (e.cores c).length else e.remaining p) =
      min (e.cores c).length (e.remaining p) := by
    rw [min_def]
    split_ifs <;> omega
  have hmin' : ∀ x : Int, (if (e.cores c).deadline < x then (e.cores c).deadline else x) =
      min (e.cores c).deadline x := by
    intro x
    rw [min_def]
    split_ifs <;> omega
  have hnonneg : 0 ≤ min (e.cores c).length (e.remaining p) := le_min hlen hrem
  have hfits : e.now + min (e.cores c).length (e.remaining p) ≤ int64Max := by
    have := min_le_right (e.cores c).length (e.remaining p)
    omega
  unfold beginRun startedOutcome startedCore
  split_ifs with hstart
  · simp [hmin, hmin', S.addTime_of_le _ hnonneg hfits, setCore]
  · simp [hmin, hmin', S.addTime_of_le _ hnonneg hfits, setCore]

/-- The core after `seat`. -/
def seatedCore (core : Core) (s : Slice) : Core :=
  { core with
    proc := some s.proc
    length := s.length
    deadline := s.deadline
    recheck := false
    context := some s.proc }

section Seat

variable (e : S.Eng) (c : Nat) (s : Slice)

theorem seat_eq : S.seat e c s = { e with
    cores := Function.update e.cores c (seatedCore (e.cores c) s)
    switches := if S.switching e c s.proc then e.switches + 1 else e.switches
    timelines := (S.append e c (e.cores c).freeSince e.now none .idle).timelines
    segments := (S.append e c (e.cores c).freeSince e.now none .idle).segments
    fail := (S.append e c (e.cores c).freeSince e.now none .idle).fail } := by
  cases hs : S.switching e c s.proc with
  | true => simp [seat, seatedCore, setCore, hs]
  | false => simp [seat, seatedCore, setCore, hs]

end Seat

@[simp] theorem switchIn_now (e : S.Eng) (c p : Nat) : (S.switchIn e c p).now = e.now := by
  simp [switchIn, setCore]

/-- `switchIn` when its end fits. -/
theorem switchIn_eq (e : S.Eng) (c p : Nat) (hcs : 0 ≤ S.opt.csCost)
    (fits : e.now + S.opt.csCost ≤ int64Max) :
    S.switchIn e c p = { e with
      cores := Function.update e.cores c
        { e.cores c with inCs := true, busyUntil := e.now + S.opt.csCost }
      csTime := e.csTime + S.opt.csCost
      timelines := (S.append e c e.now (e.now + S.opt.csCost) (some p) .cs).timelines
      segments := (S.append e c e.now (e.now + S.opt.csCost) (some p) .cs).segments
      fail := (S.append e c e.now (e.now + S.opt.csCost) (some p) .cs).fail } := by
  obtain ⟨core, hcore⟩ : ∃ core : Core, core =
    { e.cores c with inCs := true, busyUntil := e.now + S.opt.csCost } := ⟨_, rfl⟩
  obtain ⟨htl, hseg, hfail⟩ := S.append_congr c e.now (e.now + S.opt.csCost) (some p) .cs (e := e)
    (f := S.setCore e c core) rfl rfl rfl
  have key : S.switchIn e c p =
      { S.append (S.setCore e c core) c e.now (e.now + S.opt.csCost) (some p) .cs with
        csTime := e.csTime + S.opt.csCost } := by
    simp only [switchIn, S.addTime_of_le e hcs fits, hcore]
    rw [append_csTime]
    rfl
  rw [key, append_eq, htl, hseg, hfail, ← hcore]
  rfl

end Sim

end CpuSched
