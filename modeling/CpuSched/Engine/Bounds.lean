import CpuSched.Engine.Dispatch
import Mathlib.Tactic.Linarith
import Mathlib.Tactic.Ring

/-!
# How far the clock can get

Every tick lies before the last arrival, serves some process, or belongs to a
switch-in.  So the clock plus the unserved work stays below the horizon plus the
cost of the rounds of `dispatch` that switched, and the segment limit, which
counts one segment for each switch, bounds their number.
-/

namespace CpuSched

namespace Sim

variable {D : Type} {S : Sim D}
variable {PInv : SchedView D → S.policy.State → Places → Prop} {budget : Int}

/-! ## Switches are paid for in segments -/

/-- As long as nothing failed, each switch has pushed a segment, and one more was
there before it. -/
structure Paid (e : S.Eng) : Prop where
  segments_le : e.segments ≤ S.opt.maxSegments
  counted : e.fail = .ok → ∀ c, e.timelines c ≠ [] → 1 ≤ e.segments
  ran : e.fail = .ok → ∀ c < S.opt.cores, (e.cores c).proc = none → (e.cores c).context ≠ none →
    ∃ seg rest, e.timelines c = seg :: rest ∧ seg.kind = .run
  switched : e.fail = .ok → 0 < S.opt.csCost → e.switches = 0 ∨ e.switches + 1 ≤ e.segments

theorem Paid.congr {e e' : S.Eng} (paid : Paid e) (segments : e'.segments = e.segments)
    (fail : e'.fail = e.fail) (timelines : e'.timelines = e.timelines)
    (switches : e'.switches = e.switches)
    (cores : ∀ c < S.opt.cores, (e'.cores c).proc = none →
      (e.cores c).proc = none ∧ (e'.cores c).context = (e.cores c).context) : Paid e' := by
  refine ⟨by rw [segments]; exact paid.segments_le, ?_, ?_, ?_⟩
  · rw [fail, timelines, segments]
    exact paid.counted
  · rw [fail, timelines]
    intro ok c hc free context
    obtain ⟨free', context'⟩ := cores c hc free
    exact paid.ran ok c hc free' (context' ▸ context)
  · rw [fail, switches, segments]
    exact paid.switched

/-- A non-empty interval adds or extends the newest segment of its core. -/
theorem Recorded.head {e e' : S.Eng} {c : Nat} {a b : Int} {p : Option Nat} {k : SegmentKind}
    (rec : S.Recorded e c a b p k e') :
    (∃ seg rest, e'.timelines c = seg :: rest ∧ seg.kind = k) ∧
      (∀ c', c' ≠ c → e'.timelines c' = e.timelines c') := by
  cases rec with
  | extended timeline kind_eq proc_eq stop_eq =>
      exact ⟨⟨_, _, Function.update_self .., kind_eq⟩, fun c' hc' => Function.update_of_ne hc' ..⟩
  | pushed apart room =>
      exact ⟨⟨_, _, Function.update_self .., rfl⟩, fun c' hc' => Function.update_of_ne hc' ..⟩

theorem Recorded.segments {e e' : S.Eng} {c : Nat} {a b : Int} {p : Option Nat} {k : SegmentKind}
    (rec : S.Recorded e c a b p k e') :
    (e.timelines c ≠ [] ∧ e'.segments = e.segments) ∨ e'.segments = e.segments + 1 := by
  cases rec with
  | extended timeline => exact .inl ⟨by simp [timeline], rfl⟩
  | pushed => exact .inr rfl

theorem Paid.chargeRun {e : S.Eng} (paid : Paid e) {c p : Nat}
    (ran : (e.cores c).runStart < e.now) :
    Paid (S.chargeRun e c p) := by
  obtain ⟨hle, hmax⟩ := S.append_segments e c (e.cores c).runStart e.now (some p) .run
    paid.segments_le
  have recorded : (S.chargeRun e c p).fail = .ok → e.fail = .ok ∧
      S.Recorded e c (e.cores c).runStart e.now (some p) .run
        (S.append e c (e.cores c).runStart e.now (some p) .run) :=
    fun ok => S.append_recorded e c _ _ _ _ (by simpa using ok) ran
  refine ⟨by simpa using hmax, fun ok c' hne => ?_, fun ok c' hc' free context => ?_,
    fun ok pos => ?_⟩
  · obtain ⟨ok', rec⟩ := recorded ok
    simp only [chargeRun_timelines, chargeRun_segments] at hne ⊢
    by_cases hc : c' = c
    · subst hc
      rcases rec.segments with ⟨old, h⟩ | h
      · have := paid.counted ok' c' old
        omega
      · omega
    · rw [rec.head.2 c' hc] at hne
      exact (paid.counted ok' c' hne).trans hle
  · obtain ⟨ok', rec⟩ := recorded ok
    simp only [chargeRun_timelines]
    by_cases hc : c' = c
    · subst hc
      exact rec.head.1
    · rw [rec.head.2 c' hc]
      simp only [chargeRun_cores, Function.update_of_ne hc] at free context
      exact paid.ran ok' c' hc' free context
  · obtain ⟨ok', _⟩ := recorded ok
    simp only [chargeRun_switches, chargeRun_segments]
    rcases paid.switched ok' pos with h | h
    · exact .inl h
    · exact .inr (by omega)

theorem Paid.append_idle {e : S.Eng} (paid : Paid e) (c : Nat) (a b : Int) :
    e.segments ≤ (S.append e c a b none .idle).segments ∧
      (S.append e c a b none .idle).segments ≤ S.opt.maxSegments ∧
      ((S.append e c a b none .idle).fail = .ok → e.fail = .ok ∧
        (∀ c', (S.append e c a b none .idle).timelines c' ≠ [] →
          1 ≤ (S.append e c a b none .idle).segments) ∧
        (∀ c', c' ≠ c → (S.append e c a b none .idle).timelines c' = e.timelines c') ∧
        (e.timelines c ≠ [] → ∀ seg rest, e.timelines c = seg :: rest → seg.kind ≠ .cs →
          ∃ seg' rest', (S.append e c a b none .idle).timelines c = seg' :: rest' ∧
            seg'.kind ≠ .cs)) := by
  obtain ⟨hle, hmax⟩ := S.append_segments e c a b none .idle paid.segments_le
  refine ⟨hle, hmax, fun ok => ?_⟩
  by_cases lt : a < b
  · obtain ⟨ok', rec⟩ := S.append_recorded e c a b none .idle ok lt
    obtain ⟨⟨seg', rest', h, hkind⟩, others⟩ := rec.head
    refine ⟨ok', fun c' hne => ?_, others, fun _ _ _ _ _ => ⟨seg', rest', h, by simp [hkind]⟩⟩
    by_cases hc : c' = c
    · subst hc
      rcases rec.segments with ⟨old, h⟩ | h
      · have := paid.counted ok' c' old
        omega
      · omega
    · rw [others c' hc] at hne
      exact (paid.counted ok' c' hne).trans hle
  · have same := S.append_of_le e c a b none .idle (by omega)
    rw [same] at ok ⊢
    exact ⟨ok, paid.counted ok, fun _ _ => rfl, fun _ seg rest h hk => ⟨seg, rest, h, hk⟩⟩

theorem Paid.placed {e : S.Eng} {sp : Nat → Spot} (paid : Paid e) (valid : S.w.Valid)
    (hcs : 0 ≤ S.opt.csCost) (sound : S.Sound PInv budget ⟨e, sp⟩) {c : Nat} {s : Slice}
    (held : sp s.proc = .held s) (core_lt : c < S.opt.cores) (free : (e.cores c).proc = none)
    (fits : e.now + S.opt.csCost ≤ int64Max) : Paid (S.placed e c s) := by
  obtain ⟨hle, hmax, idle⟩ := paid.append_idle c (e.cores c).freeSince e.now
  rw [sound.placed_eq (c := c) valid hcs held fits]
  have busy : (S.placedCore e c s).proc ≠ none := by
    unfold placedCore
    split <;> simp [seatedCore, startedCore]
  by_cases h : S.switching e c s.proc = true ∧ 0 < S.opt.csCost
  · have hrecord : S.placedRecord e c s =
        S.append (S.append e c (e.cores c).freeSince e.now none .idle) c e.now
          (e.now + S.opt.csCost) (some s.proc) .cs := by
      simp only [placedRecord, if_pos h]
    obtain ⟨e₁, he₁⟩ : ∃ e₁, e₁ = S.append e c (e.cores c).freeSince e.now none .idle := ⟨_, rfl⟩
    rw [← he₁] at hle hmax idle hrecord
    obtain ⟨hle', hmax'⟩ := S.append_segments e₁ c e.now (e.now + S.opt.csCost)
      (some s.proc) .cs hmax
    -- the switch-in is a segment of its own
    have pushed : (S.placedRecord e c s).fail = .ok → e.fail = .ok ∧
        (∀ c', c' ≠ c → (S.placedRecord e c s).timelines c' = e.timelines c') ∧ 1 ≤ e.segments ∧
        e.segments + 1 ≤ (S.placedRecord e c s).segments := by
      intro ok
      rw [hrecord] at ok ⊢
      obtain ⟨ok₁, rec⟩ := S.append_recorded e₁ c _ _ _ _ ok (by omega)
      obtain ⟨ok₀, counted, others, head⟩ := idle ok₁
      have context : (e.cores c).context ≠ none := by
        have := h.1
        simp only [switching, decide_eq_true_eq] at this
        exact this.1
      obtain ⟨seg, rest, htl, hkind⟩ := paid.ran ok₀ c core_lt free context
      obtain ⟨seg', rest', htl', hkind'⟩ := head (by simp [htl]) seg rest htl (by simp [hkind])
      refine ⟨ok₀, fun c' hc' => (rec.head.2 c' hc').trans (others c' hc'),
        paid.counted ok₀ c (by simp [htl]), ?_⟩
      generalize S.append e₁ c e.now (e.now + S.opt.csCost) (some s.proc) .cs = e₂ at rec
      cases rec with
      | extended timeline kind_eq =>
          rw [htl'] at timeline
          cases timeline
          exact absurd kind_eq hkind'
      | pushed =>
          simp only
          omega
    refine ⟨by simp only [hrecord]; exact hmax', fun ok c' _ => ?_,
      fun ok c' hc' free' context => ?_, fun ok pos => ?_⟩
    · obtain ⟨_, _, h1, h2⟩ := pushed ok
      simp only
      omega
    · obtain ⟨ok₀, others, _, _⟩ := pushed ok
      by_cases hc : c' = c
      · subst hc
        simp only [Function.update_self] at free'
        exact absurd free' busy
      · simp only [Function.update_of_ne hc] at free' context ⊢
        rw [others c' hc]
        exact paid.ran ok₀ c' hc' free' context
    · obtain ⟨ok₀, _, h1, h2⟩ := pushed ok
      simp only [h.1, if_true]
      rcases paid.switched ok₀ pos with hs | hs
      · right
        omega
      · right
        omega
  · have hrecord : S.placedRecord e c s =
        S.append e c (e.cores c).freeSince e.now none .idle := by
      simp only [placedRecord, if_neg h]
    rw [← hrecord] at hle hmax idle
    refine ⟨hmax, fun ok => (idle ok).2.1, fun ok c' hc' free' context => ?_, fun ok pos => ?_⟩
    · obtain ⟨ok₀, _, others, _⟩ := idle ok
      by_cases hc : c' = c
      · subst hc
        simp only [Function.update_self] at free'
        exact absurd free' busy
      · simp only [Function.update_of_ne hc] at free' context ⊢
        rw [others c' hc]
        exact paid.ran ok₀ c' hc' free' context
    · obtain ⟨ok₀, _⟩ := idle ok
      have notSwitching : S.switching e c s.proc = false := by
        by_contra hne
        exact h ⟨by simpa using hne, pos⟩
      simp only [notSwitching]
      rcases paid.switched ok₀ pos with hs | hs
      · exact .inl hs
      · right
        simp only [Bool.false_eq_true, if_false]
        omega

theorem Move.paid [Double D] (valid : S.w.Valid) (hcs : 0 ≤ S.opt.csCost) {a b : S.Config}
    (move : S.Move a b) (sound : S.Sound PInv budget a) (paid : Paid a.eng) : Paid b.eng := by
  cases move with
  | arrive => exact paid.congr rfl rfl rfl rfl fun c _ free => ⟨free, rfl⟩
  | wake => exact paid.congr rfl rfl rfl rfl fun c _ free => ⟨free, rfl⟩
  | preempt seat runs ran =>
      exact (paid.chargeRun ran).congr rfl rfl rfl rfl fun c _ free => ⟨free, rfl⟩
  | block seat runs ran used more =>
      rw [(sound.startIo_eq valid seat runs used more).2]
      exact (paid.chargeRun ran).congr rfl rfl rfl rfl fun c _ free => ⟨free, rfl⟩
  | complete seat runs ran =>
      exact (paid.chargeRun ran).congr rfl rfl rfl rfl fun c _ free => ⟨free, rfl⟩
  | @mark e sp c p s seat =>
      refine paid.congr rfl rfl rfl rfl fun c' _ free => ?_
      by_cases hc : c' = c
      · subst hc
        simpa [setCore] using free
      · simpa [setCore, hc] using free
  | @start e sp c p s deadline seat switching =>
      rw [sound.startRun_eq valid seat switching]
      refine paid.congr rfl rfl rfl rfl fun c' _ free => ?_
      by_cases hc : c' = c
      · subst hc
        simpa [startedCore] using free
      · simpa [hc] using free
  | pick => exact paid.congr rfl rfl rfl rfl fun c _ free => ⟨free, rfl⟩
  | refuse => exact paid.congr rfl rfl rfl rfl fun c _ free => ⟨free, rfl⟩
  | place held core_lt free fits => exact paid.placed valid hcs sound held core_lt free fits

/-! ## The bound -/

/-- The horizon and the cost of `rounds` rounds of switches. -/
def limit (S : Sim D) (rounds : Nat) : Int := workloadHorizon S.w + rounds * S.opt.csCost

theorem limit_succ (rounds : Nat) : S.limit (rounds + 1) = S.limit rounds + S.opt.csCost := by
  simp only [limit, Nat.cast_add, Nat.cast_one]
  ring

theorem limit_mono (hcs : 0 ≤ S.opt.csCost) {m n : Nat} (h : m ≤ n) : S.limit m ≤ S.limit n := by
  have : (m : Int) * S.opt.csCost ≤ n * S.opt.csCost :=
    mul_le_mul_of_nonneg_right (by exact_mod_cast h) hcs
  simp only [limit]
  linarith

/-- After `rounds` rounds of `dispatch` that switched, the clock, and the end of
each switch-in, plus the unserved work stay below the limit. -/
structure Bound (rounds : Nat) (a : S.Config) : Prop where
  clock : a.eng.now + S.work a ≤ S.limit rounds
  switching : ∀ c, OnCore (fun core => core.inCs = true →
    core.busyUntil + S.work a ≤ S.limit rounds) c a
  work_le : S.work a ≤ S.w.totalWork
  rounds_le : (rounds : Int) ≤ a.eng.switches

/-- The same while a round is going on: a switch-in that has just begun ends one
switch cost from now, and has been counted. -/
structure Round (rounds : Nat) (a : S.Config) : Prop where
  switching : ∀ c, OnCore (fun core => core.inCs = true →
    core.busyUntil + S.work a ≤ S.limit rounds ∨
      (core.busyUntil ≤ a.eng.now + S.opt.csCost ∧ (rounds : Int) + 1 ≤ a.eng.switches)) c a
  rounds_le : (rounds : Int) ≤ a.eng.switches

theorem Bound.round {rounds : Nat} {a : S.Config} (bound : Bound rounds a) : Round rounds a :=
  ⟨fun c p s seat switching => .inl (bound.switching c p s seat switching), bound.rounds_le⟩

theorem Move.switches_le [Double D] (valid : S.w.Valid) (hcs : 0 ≤ S.opt.csCost) {a b : S.Config}
    (move : S.Move a b) (sound : S.Sound PInv budget a) : a.eng.switches ≤ b.eng.switches := by
  cases move with
  | block seat runs ran used more =>
      rw [(sound.startIo_eq valid seat runs used more).2]
      simp [burstOver]
  | start seat switching =>
      rw [sound.startRun_eq valid seat switching]
  | place held core_lt free fits =>
      rw [sound.placed_eq valid hcs held fits]
      simp only
      split <;> omega
  | _ => simp [finishProcess, burstOver, setCore]

theorem Sound.work_eq {a b : S.Config} (sound : S.Sound PInv budget a)
    (sound' : S.Sound PInv budget b) (now_eq : b.eng.now = a.eng.now) : S.work b = S.work a := by
  have := sound.budget_eq
  have := sound'.budget_eq
  omega

theorem Move.round [Double D] (valid : S.w.Valid) (hcs : 0 ≤ S.opt.csCost)
    (contract : Contract S.w S.policy PInv) {a b : S.Config} {rounds : Nat} (move : S.Move a b)
    (sound : S.Sound PInv budget a) (round : Round rounds a) : Round rounds b := by
  have work_eq := sound.work_eq (move.sound valid hcs contract sound) move.now_eq
  have switches_le := move.switches_le valid hcs sound
  have rounds_le := round.rounds_le
  refine ⟨fun c => ?_, by omega⟩
  rw [move.now_eq, work_eq]
  refine move.onCore valid hcs sound (P := fun core => core.inCs = true →
      core.busyUntil + S.work a ≤ S.limit rounds ∨ (core.busyUntil ≤ a.eng.now + S.opt.csCost ∧
        (rounds : Int) + 1 ≤ b.eng.switches)) (fun core h => h)
    (fun core rem _ _ _ h => by simp [startedCore] at h)
    (fun core _ counted _ => .inr ⟨le_rfl, by omega⟩) ?_
  · intro p s seat switching
    rcases round.switching c p s seat switching with h | ⟨h, counted⟩
    · exact .inl h
    · exact .inr ⟨h, by omega⟩

/-- A round that is over counts if it switched. -/
theorem Round.close {a : S.Config} {rounds : Nat} (hcs : 0 ≤ S.opt.csCost) (round : Round rounds a)
    (clock : a.eng.now + S.work a ≤ S.limit rounds) (work_le : S.work a ≤ S.w.totalWork) :
    ∃ rounds' ≤ rounds + 1, Bound rounds' a := by
  by_cases counted : (rounds : Int) + 1 ≤ a.eng.switches
  · have succ := limit_succ (S := S) rounds
    refine ⟨rounds + 1, le_rfl, by omega, fun c p s seat switching => ?_, work_le,
      by push_cast; omega⟩
    rcases round.switching c p s seat switching with h | ⟨h, _⟩
    · omega
    · omega
  · refine ⟨rounds, by omega, clock, fun c p s seat switching => ?_, work_le, round.rounds_le⟩
    rcases round.switching c p s seat switching with h | ⟨_, h⟩
    · exact h
    · exact absurd h counted

/-- An instant keeps the bound, up to one more round. -/
theorem Moves.bound [Double D] (valid : S.w.Valid) (hcs : 0 ≤ S.opt.csCost)
    (contract : Contract S.w S.policy PInv) {a b : S.Config} {rounds : Nat} (moves : S.Moves a b)
    (sound : S.Sound PInv budget a) (bound : Bound rounds a) :
    ∃ rounds' ≤ rounds + 1, Bound rounds' b := by
  have sound' := moves.sound valid hcs contract sound
  have work_eq := sound.work_eq sound' moves.now_eq
  have now_eq := moves.now_eq
  have round : Round rounds b := Moves.keep valid hcs contract (I := Round rounds)
    (fun move sound => move.round valid hcs contract sound) moves sound bound.round
  have clock := bound.clock
  have work_le := bound.work_le
  exact round.close hcs (by omega) (by omega)

/-! ## The options -/

/-- What `check_options` guarantees about times. -/
structure OptionsOk (S : Sim D) : Prop where
  cores_pos : 1 ≤ S.opt.cores
  segments_pos : 1 ≤ S.opt.maxSegments
  cs_nonneg : 0 ≤ S.opt.csCost
  cs_le : S.opt.maxSegments * S.opt.csCost ≤ int64Max - workloadHorizon S.w

/-- While nothing has failed, one more round of switches fits. -/
theorem Bound.fits {a : S.Config} {rounds : Nat} (ok : OptionsOk S) (bound : Bound rounds a)
    (paid : Paid a.eng) (running : a.eng.fail = .ok) (valid : S.w.Valid) (nonneg : 0 ≤ S.work a) :
    a.eng.now + S.opt.csCost ≤ int64Max ∧ S.limit rounds + S.opt.csCost ≤ int64Max := by
  have clock := bound.clock
  have cs_le := ok.cs_le
  have segments_le := paid.segments_le
  have rounds_le := bound.rounds_le
  have segments_pos := ok.segments_pos
  have horizon := valid.horizon_le
  have hlimit : S.limit rounds + S.opt.csCost ≤ int64Max := by
    rcases ok.cs_nonneg.eq_or_lt with hzero | hpos
    · simp only [limit, ← hzero]
      omega
    · have few : (rounds : Int) + 1 ≤ S.opt.maxSegments := by
        rcases paid.switched running hpos with h | h <;> omega
      have := mul_le_mul_of_nonneg_right few hpos.le
      simp only [limit]
      linarith
  exact ⟨by omega, hlimit⟩

end Sim

end CpuSched
