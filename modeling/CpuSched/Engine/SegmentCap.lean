import CpuSched.Engine.AlikeRuns
import CpuSched.Engine.Schedule

/-!
# The segment limit

The limit is exact and has no other effect.  A run that succeeds under one limit is followed
step by step under any other one: either the two have written the same, or the schedule
has outgrown the other limit.
-/

namespace CpuSched

namespace Tape

variable {t t' : Tape}

/-- The number of segments is that of the timelines of the first `cores` cores. -/
def Counted (cores : Nat) (t : Tape) : Prop :=
  t.segments = ∑ c ∈ Finset.range cores, (t.timelines c).length

/-- The second tape is the first one, or its limit `L` was too small. -/
def Capped (L : Nat) (t t' : Tape) : Prop :=
  t.fail = .ok → (t' = t ∧ t.segments ≤ L) ∨ (t'.fail = .limit ∧ L < t.segments)

/-- The second tape stopped at its limit `L`, and the first one needs more. -/
def Exceeded (L : Nat) (t t' : Tape) : Prop := t.fail = .ok → t'.fail = .limit ∧ L < t.segments

/-- `append` does the same under every limit, unless it needs a new segment. -/
theorem append_cases (t : Tape) (c : Nat) (start stop : Int) (proc : Option Nat)
    (kind : SegmentKind) :
    (∃ m : Tape, m.segments = t.segments ∧ m.fail = t.fail ∧
        (∀ c', (m.timelines c').length = (t.timelines c').length) ∧
        ∀ limit, t.append limit c start stop proc kind = m) ∨
      (∃ seg, t.fail = .ok ∧ ∀ limit, t.append limit c start stop proc kind =
        t.push limit c seg) := by
  by_cases skip : stop ≤ start ∨ t.fail ≠ .ok
  · exact .inl ⟨t, rfl, rfl, fun _ => rfl, fun limit => by rw [append, if_pos skip]⟩
  · have ok : t.fail = .ok := not_not.mp (not_or.mp skip).2
    cases line : t.timelines c with
    | nil =>
        refine .inr ⟨⟨start, stop, proc, kind⟩, ok, fun limit => ?_⟩
        rw [append, if_neg skip, line]
    | cons last rest =>
        have appended : ∀ limit, t.append limit c start stop proc kind =
            if last.kind = kind ∧ last.proc = proc ∧ last.stop = start then
              { t with timelines := Function.update t.timelines c ({ last with stop } :: rest) }
            else t.push limit c ⟨start, stop, proc, kind⟩ := by
          intro limit
          rw [append, if_neg skip, line]
        by_cases merges : last.kind = kind ∧ last.proc = proc ∧ last.stop = start
        · refine .inl ⟨{ t with
            timelines := Function.update t.timelines c ({ last with stop } :: rest) },
            rfl, rfl, fun c' => ?_, fun limit => by rw [appended, if_pos merges]⟩
          by_cases same : c' = c
          · subst same
            simp [line]
          · simp [same]
        · exact .inr ⟨⟨start, stop, proc, kind⟩, ok, fun limit => by rw [appended, if_neg merges]⟩

theorem push_segments_le (limit : Nat) (t : Tape) (c : Nat) (seg : Segment) :
    t.segments ≤ (t.push limit c seg).segments := by
  unfold push
  split_ifs
  · exact le_rfl
  · exact Nat.le_succ _

/-- A tape that failed stays as it is. -/
theorem append_of_failed (limit c : Nat) (start stop : Int) (proc : Option Nat) (kind : SegmentKind)
    (failed : t.fail ≠ .ok) : t.append limit c start stop proc kind = t := by
  rw [append, if_pos (.inr failed)]

theorem append_segments_le (limit c : Nat) (start stop : Int) (proc : Option Nat)
    (kind : SegmentKind) :
    t.segments ≤ (t.append limit c start stop proc kind).segments := by
  rcases t.append_cases c start stop proc kind with ⟨m, segments, -, -, same⟩ | ⟨seg, -, pushed⟩
  · rw [same, segments]
  · rw [pushed]
    exact push_segments_le ..

/-- What did not fail had not failed. -/
theorem ok_of_append {limit c : Nat} {start stop : Int} {proc : Option Nat} {kind : SegmentKind}
    (ok : (t.append limit c start stop proc kind).fail = .ok) : t.fail = .ok := by
  by_contra failed
  rw [append_of_failed limit c start stop proc kind failed] at ok
  exact failed ok

/-- Writing under two limits stops the second tape exactly when its limit is outgrown. -/
theorem capped_kept (limit L : Nat) : TapesKept limit L (Capped L) where
  append {t t'} c start stop proc kind related := by
    intro ok
    rcases related (ok_of_append ok) with ⟨rfl, room⟩ | ⟨failed, outgrown⟩
    · rcases t'.append_cases c start stop proc kind
        with ⟨m, segments, -, -, same⟩ | ⟨seg, fine, pushed⟩
      · exact .inl ⟨by rw [same, same], by rw [same, segments]; exact room⟩
      · rw [pushed] at ok
        rw [pushed, pushed]
        have push_eq : ∀ limit, ¬limit ≤ t'.segments → t'.push limit c seg = { t' with
            timelines := Function.update t'.timelines c (seg :: t'.timelines c)
            segments := t'.segments + 1 } := fun limit room => by rw [push, if_neg room]
        have below : ¬limit ≤ t'.segments := by
          intro full
          rw [push, if_pos full] at ok
          cases ok
        rw [push_eq limit below]
        by_cases full : L ≤ t'.segments
        · right
          rw [push, if_pos full]
          exact ⟨rfl, Nat.lt_succ_of_le full⟩
        · rw [push_eq L full]
          exact .inl ⟨rfl, Nat.succ_le_of_lt (not_le.mp full)⟩
    · right
      rw [append_of_failed L c start stop proc kind (by simp [failed])]
      exact ⟨failed, outgrown.trans_le (append_segments_le ..)⟩
  overflow _ ok := by cases ok

/-- A limit that was outgrown stays so. -/
theorem exceeded_kept (limit L : Nat) : TapesKept limit L (Exceeded L) where
  append {t t'} c start stop proc kind related := by
    intro ok
    obtain ⟨failed, outgrown⟩ := related (ok_of_append ok)
    rw [append_of_failed L c start stop proc kind (by simp [failed])]
    exact ⟨failed, outgrown.trans_le (append_segments_le ..)⟩
  overflow _ ok := by cases ok

/-- `append` on one of the cores keeps the count. -/
theorem Counted.append {cores : Nat} (counted : t.Counted cores) {limit c : Nat} (hc : c < cores)
    (start stop : Int) (proc : Option Nat) (kind : SegmentKind) :
    (t.append limit c start stop proc kind).Counted cores := by
  rcases t.append_cases c start stop proc kind
    with ⟨m, segments, -, lengths, same⟩ | ⟨seg, -, pushed⟩
  · rw [same]
    unfold Counted
    rw [segments, counted]
    exact Finset.sum_congr rfl fun c' _ => (lengths c').symm
  · rw [pushed]
    unfold push
    split_ifs
    · exact counted
    · unfold Counted at counted ⊢
      dsimp only
      rw [counted]
      have mem : c ∈ Finset.range cores := Finset.mem_range.mpr hc
      rw [← Finset.add_sum_erase _ _ mem, ← Finset.add_sum_erase _ (fun c' =>
        (Function.update t.timelines c (seg :: t.timelines c) c').length) mem]
      have others : ∑ c' ∈ (Finset.range cores).erase c,
          (Function.update t.timelines c (seg :: t.timelines c) c').length =
          ∑ c' ∈ (Finset.range cores).erase c, (t.timelines c').length :=
        Finset.sum_congr rfl fun c' mem => by
          rw [Function.update_of_ne (Finset.ne_of_mem_erase mem)]
      rw [others, Function.update_self, List.length_cons]
      omega

end Tape

namespace Sim

variable {D : Type} [Double D] {S : Sim D}
  {PInv : SchedView D → S.policy.State → Places → Prop} {state : S.policy.State}

/-! ## The number of segments -/

/-- `segments` counts the segments on all cores. -/
theorem counted_runInv (valid : S.w.Valid) (hcs : 0 ≤ S.opt.csCost) :
    RunInv S PInv fun a => a.eng.tape.Counted S.opt.cores where
  init _ _ := by simp [Tape.Counted, initConfig, initEngine]
  move {budget a b} move sound _ _ counted := by
    have charged : ∀ {e : S.Eng} {c p}, c < S.opt.cores → e.tape.Counted S.opt.cores →
        (S.chargeRun e c p).tape.Counted S.opt.cores := by
      intro e c p hc counted
      rw [chargeRun_tape]
      exact counted.append hc _ _ _ _
    cases move with
    | arrive => exact counted
    | wake => exact counted
    | @preempt e sp c p s f state seat => exact charged (sound.cores.seat p c s seat).1 counted
    | @block e sp c p s heap state seat runs ran used more =>
        rw [(sound.startIo_eq valid seat runs used more).2]
        exact charged (p := p) (sound.cores.seat p c s seat).1 counted
    | @complete e sp c p s state seat =>
        exact charged (p := p) (sound.cores.seat p c s seat).1 counted
    | mark => exact counted
    | start seat switching =>
        rw [sound.startRun_eq valid seat switching]
        exact counted
    | pick => exact counted
    | refuse => exact counted
    | @place e sp c s held core_lt free fits =>
        rw [sound.placed_eq valid hcs held fits]
        have idle : (S.append e c (e.cores c).freeSince e.now none .idle).tape.Counted
          S.opt.cores := by
          rw [append_tape]
          exact counted.append core_lt _ _ _ _
        change (S.placedRecord e c s).tape.Counted S.opt.cores
        unfold placedRecord
        dsimp only
        split_ifs with switch
        · rw [append_tape]
          exact idle.append core_lt _ _ _ _
        · exact idle
  advance _ _ _ _ _ counted := counted

omit [Double D] in
/-- The idle time at the end is counted as well. -/
theorem counted_trailing {cs : List Nat} (inside : ∀ c ∈ cs, c < S.opt.cores) {e : S.Eng}
    (counted : e.tape.Counted S.opt.cores) : (cs.foldl S.appendTrailing e).tape.Counted
      S.opt.cores := by
  induction cs generalizing e with
  | nil => exact counted
  | cons c rest ih =>
      refine ih (fun c mem => inside c (List.mem_cons_of_mem _ mem)) ?_
      unfold appendTrailing
      rw [append_tape]
      exact counted.append (inside c List.mem_cons_self) _ _ _ _

/-! ## Another limit -/

/-- The simulation under another segment limit. -/
abbrev withLimit (S : Sim D) (limit : Nat) : Sim D := S.alter S.policy limit

omit [Double D] in
/-- A policy answers as it does. -/
theorem follows_self (P : Policy D) : P.Follows P (fun _ => True) Eq where
  preemptOnReady_eq := rfl
  onArrival := by
    rintro v s _ r p rfl answer
    exact ⟨r, answer, rfl⟩
  wakeHook := by
    rintro v s _ r p rfl answer
    exact ⟨r, answer, rfl⟩
  refuse := by
    rintro v s _ r - rfl answer
    exact ⟨r, answer, rfl⟩
  pick := by
    rintro v s _ r slice - rfl answer
    exact ⟨r, slice, answer, rfl, rfl, rfl, id, rfl⟩
  onPreempt := by
    rintro f hook
    refine ⟨f, hook, ?_⟩
    rintro v s _ r p ran rfl answer
    exact ⟨r, answer, rfl⟩
  onBlock := by
    rintro v s _ r p ran rfl answer
    exact ⟨r, answer, rfl⟩
  onComplete := by
    rintro v s _ r p ran rfl answer
    exact ⟨r, answer, rfl⟩

/-- A limit that is outgrown on the way is outgrown at the end. -/
theorem Launched.outgrown (launched : Launched S PInv state) {limit fuel : Nat} {e f : S.Eng}
    {e' : (S.withLimit limit).Eng} (reached : Reached S state .settled e)
    (alike : Alike S.opt.cores Eq (Tape.Exceeded limit) e e') (done : S.mainLoop fuel e = .done f) :
    ∃ f' : (S.withLimit limit).Eng, Alike S.opt.cores Eq (Tape.Exceeded limit) f f' := by
  induction fuel generalizing e e' with
  | zero =>
      rw [Sim.mainLoop] at done
      split_ifs at done
      cases done
      exact ⟨e', alike⟩
  | succ fuel ih =>
      rw [Sim.mainLoop] at done
      split_ifs at done with running
      · rcases launched.iterate reached running with ⟨e₁, run, reached₁, -⟩ | ⟨run, -⟩
        · rw [run] at done
          obtain ⟨e₁', -, alike₁⟩ := alike.round launched (follows_self S.policy)
            (Tape.exceeded_kept S.opt.maxSegments limit) (fun _ => trivial) reached running run
          exact ih reached₁ alike₁ done
        · rw [run] at done
          cases done
      · cases done
        exact ⟨e', alike⟩

omit [Double D] in
/-- A run that outgrew its limit. -/
theorem finish_of_limit {f : S.Eng} (failed : f.fail = .limit) :
    S.finish (.done f) = .error (S.failError .limit) := by
  have fails : ((List.range S.opt.cores).foldl S.appendTrailing f).fail = .limit := by
    rcases foldl_appendTrailing_fail f (List.range S.opt.cores) with same | limit
    · exact same.trans failed
    · exact limit
  unfold finish
  dsimp only
  rw [fails, if_neg nofun]

omit [Double D] in
/-- Runs that have written the same, or of which the second outgrew its limit, end so. -/
theorem Alike.finish_capped {limit : Nat} {f : S.Eng} {f' : (S.withLimit limit).Eng}
    (alike : Alike S.opt.cores Eq (Tape.Capped limit) f f')
    (ok : ((List.range S.opt.cores).foldl S.appendTrailing f).fail = .ok) :
    (((List.range S.opt.cores).foldl S.appendTrailing f).segments ≤ limit ∧
        (S.withLimit limit).finish (.done f') =
          .ok (S.result ((List.range S.opt.cores).foldl S.appendTrailing f))) ∨
      (limit < ((List.range S.opt.cores).foldl S.appendTrailing f).segments ∧
        (S.withLimit limit).finish (.done f') = .error ((S.withLimit limit).failError .limit)) := by
  have trailing := alike.trailing (Tape.capped_kept S.opt.maxSegments limit)
    (List.range S.opt.cores)
  rcases trailing.tapes ok with ⟨same, room⟩ | ⟨failed, more⟩
  · have results := trailing.result_eq limit (congrArg Tape.timelines same)
    have fine : ((List.range S.opt.cores).foldl (S.withLimit limit).appendTrailing f').fail = .ok :=
      (congrArg Tape.fail same).trans ok
    refine .inl ⟨room, ?_⟩
    unfold finish
    dsimp only
    rw [if_pos fine, results]
  · have failed : ((List.range S.opt.cores).foldl (S.withLimit limit).appendTrailing f').fail =
        .limit := failed
    refine .inr ⟨more, ?_⟩
    unfold finish
    dsimp only
    rw [failed, if_neg (by decide)]

/-- The number of segments on all cores. -/
def segmentTotal (r : SimResult) : Nat := ∑ c ∈ Finset.range r.cores, (r.timelines c).length

/-- The segment limit is exact.  A run that succeeds under one limit ends the same under every
other limit that leaves room for its segments; under a smaller one it is an input error, and
nothing is handed out. -/
theorem simRun_withLimit (builtIn : BuiltIn S) {r : SimResult} (success : S.simRun = .ok r)
    {limit : Nat} (options : (S.withLimit limit).checkOptions = .ok ()) :
    (segmentTotal r ≤ limit → (S.withLimit limit).simRun = .ok r) ∧
      (limit < segmentTotal r → ∃ err, (S.withLimit limit).simRun = .error err ∧
        err.status = .input) := by
  obtain ⟨state, started⟩ := started_of_ok success
  obtain ⟨PInv, launched⟩ := started.launched builtIn
  have started' : Started (S.withLimit limit) state := ⟨started.validated, options, started.created⟩
  obtain ⟨e, sp, run, -, -⟩ := launched.first (I := fun _ => True)
  have reached : Reached S state .settled e := .first run
  obtain ⟨e', run', alike⟩ := Alike.first (follows_self S.policy)
    (Tape.capped_kept S.opt.maxSegments limit) rfl (fun _ => .inl ⟨rfl, Nat.zero_le limit⟩) run
  have run' : (S.withLimit limit).processInstant
    ((S.withLimit limit).initEngine state) = some e' := run'
  rw [started.simRun_eq, run] at success
  rw [started'.simRun_eq, run']
  dsimp only at success ⊢
  rcases launched.mainLoop loopFuel reached (reached.fuel_enough launched) with
    ⟨f, done, reachedf, -⟩ | ⟨aborted, -⟩
  swap
  · rw [aborted] at success
    cases success
  rw [done] at success
  unfold finish at success
  dsimp only at success
  split_ifs at success with ok
  cases success
  obtain ⟨fine, -⟩ := foldl_appendTrailing _ List.nodup_range f ok
  have total : segmentTotal (S.result ((List.range S.opt.cores).foldl S.appendTrailing f)) =
      ((List.range S.opt.cores).foldl S.appendTrailing f).segments := by
    obtain ⟨sp', -, counted⟩ := reachedf.course launched
      (counted_runInv launched.valid launched.options.cs_nonneg)
    have counted := counted_trailing (fun c mem => List.mem_range.mp mem) counted
    simp only [segmentTotal, result, List.length_reverse]
    exact counted.symm
  rw [total]
  obtain ⟨f', done', alike' | ⟨failed, g, k, reachedg, running, alikeg, doneg⟩⟩ :=
    alike.mainLoop launched (follows_self S.policy) (Tape.capped_kept S.opt.maxSegments limit)
      (fun _ => trivial) reached done fun bad => absurd fine bad
  · have done' : (S.withLimit limit).mainLoop loopFuel e' = .done f' := done'
    rw [done']
    rcases alike'.finish_capped ok with ⟨room, ends⟩ | ⟨more, ends⟩
    · exact ⟨fun _ => ends, fun more => absurd more (not_lt.mpr room)⟩
    · exact ⟨fun room => absurd more (not_lt.mpr room), fun _ => ⟨_, ends, rfl⟩⟩
  · have done' : (S.withLimit limit).mainLoop loopFuel e' = .done f' := done'
    rw [done']
    -- the second run stopped on the way, and the first one went on
    rcases alikeg.tapes (running_iff.mp running).2 with ⟨same, -⟩ | ⟨limited, more⟩
    · exact absurd ((congrArg Tape.fail same).trans (running_iff.mp running).2) failed
    · have alike₂ : Alike S.opt.cores Eq (Tape.Exceeded limit) g f' := by
        obtain ⟨s, t, len, rfl, states, -, fit⟩ := alikeg
        exact ⟨s, t, len, rfl, states, fun _ => ⟨limited, more⟩, fit⟩
      obtain ⟨f'', alikef⟩ := launched.outgrown reachedg alike₂ doneg
      have trailing := alikef.trailing (Tape.exceeded_kept S.opt.maxSegments limit)
        (List.range S.opt.cores)
      have outgrown := (trailing.tapes ok).2
      exact ⟨fun room => absurd outgrown (not_lt.mpr room),
        fun _ => ⟨_, finish_of_limit limited, rfl⟩⟩

theorem trioSim_limit_ok {limit : Nat} (few : limit = 8 ∨ limit = 9) :
    (trioSim.withLimit limit).checkOptions = .ok () := by
  have horizon : workloadHorizon trioWorkload = 12 := by decide
  have room : (int64Max - 12) / 8 = 1152921504606846974 ∧
      (int64Max - 12) / 9 = 1024819115206086199 := by decide
  rcases few with rfl | rfl
  · simp only [checkOptions, trioSim, horizon, policyRr, Nat.cast_ofNat, room.1]
    rfl
  · simp only [checkOptions, trioSim, horizon, policyRr, Nat.cast_ofNat, room.2]
    rfl

/-- The run of the three processes has nine segments: it is the same with a limit of nine, and an
input error with a limit of eight. -/
theorem trioSim_withLimit : ∃ r, trioSim.simRun = .ok r ∧ segmentTotal r = 9 ∧
    (trioSim.withLimit 9).simRun = .ok r ∧
    ∃ err, (trioSim.withLimit 8).simRun = .error err ∧ err.status = .input := by
  obtain ⟨r, success, seen⟩ := trioSim_succeeds
  have total : segmentTotal r = 9 := by
    obtain ⟨e, sp, final⟩ := simRun_final trioSim_builtIn success
    rw [segmentTotal, final.cores, show trioSim.opt.cores = 2 from rfl,
      Finset.sum_range_succ, Finset.sum_range_one, seen.first, seen.second]
    rfl
  refine ⟨r, success, total, ?_, ?_⟩
  · exact (simRun_withLimit trioSim_builtIn success (trioSim_limit_ok (.inr rfl))).1 total.le
  · exact (simRun_withLimit trioSim_builtIn success (trioSim_limit_ok (.inl rfl))).2
      (by rw [total]; decide)

end Sim

end CpuSched
