import CpuSched.Policies.HrrnContract
import CpuSched.Policies.Protocol
import CpuSched.Policy.Kept
import Mathlib.Algebra.Order.Field.Rat
import Mathlib.Data.Prod.Lex
import Mathlib.Data.Sign.Basic
import Mathlib.Tactic.FieldSimp

/-!
# The response ratios

`cmp_fraction` compares two fractions exactly, by the rounds of the Euclidean
algorithm.  Within the queue of one burst length the process that became ready first
has the highest response ratio, so the best of the heads is the best of all ready
processes.
-/

namespace CpuSched

variable {D : Type} {w : Workload}

/-! ## `cmp_fraction` -/

/-- A round leaves the comparison of the two remainders, or of their inverses. -/
theorem cmpFractionLoop_eq (fuel : Nat) {sign a b c d : Int} (ha : 0 ≤ a) (hb : 0 < b)
    (hc : 0 ≤ c) (hd : 0 < d) (enough : b < fuel) :
    cmpFractionLoop fuel sign a b c d = sign * (a * d - c * b).sign := by
  induction fuel generalizing sign a b c d with
  | zero => omega
  | succ fuel ih =>
      have splitA := Int.mul_ediv_add_emod a b
      have splitC := Int.mul_ediv_add_emod c d
      have lowA := Int.emod_nonneg a hb.ne'
      have highA := Int.emod_lt_of_pos a hb
      have lowC := Int.emod_nonneg c hd.ne'
      have highC := Int.emod_lt_of_pos c hd
      rw [cmpFractionLoop]
      simp only [Int.tdiv_eq_ediv_of_nonneg ha, Int.tdiv_eq_ediv_of_nonneg hc,
        Int.tmod_eq_emod_of_nonneg ha, Int.tmod_eq_emod_of_nonneg hc]
      generalize a / b = qa at *
      generalize c / d = qc at *
      generalize a % b = ra at *
      generalize c % d = rc at *
      have cross : a * d - c * b = (qa - qc) * (b * d) + (ra * d - rc * b) := by
        rw [← splitA, ← splitC]
        ring
      have smallA : 0 ≤ ra * d ∧ ra * d < b * d :=
        ⟨mul_nonneg lowA hd.le, mul_lt_mul_of_pos_right highA hd⟩
      have smallC : 0 ≤ rc * b ∧ rc * b < b * d :=
        ⟨mul_nonneg lowC hb.le, by rw [mul_comm b]; exact mul_lt_mul_of_pos_right highC hb⟩
      by_cases same : qa = qc
      · rw [if_neg (not_not.mpr same)]
        rw [same, sub_self, zero_mul, zero_add] at cross
        by_cases stop : ra = 0 ∨ rc = 0
        · rw [if_pos stop, cross]
          congr 1
          rcases stop with rfl | rfl
          · by_cases zero : rc = 0
            · simp [zero]
            · have : 0 < rc * b := mul_pos (by omega) hb
              simp [zero, Int.sign_eq_one_of_pos this]
          · by_cases zero : ra = 0
            · simp [zero]
            · have : 0 < ra * d := mul_pos (by omega) hd
              simp [zero, Int.sign_eq_one_of_pos this]
        · rw [not_or] at stop
          have inverse : b * rc - d * ra = -(ra * d - rc * b) := by ring
          rw [if_neg (not_or.mpr stop), ih hb.le (by omega) hd.le (by omega) (by omega), cross,
            inverse, Int.sign_neg, neg_mul_neg]
      · rw [if_pos same]
        by_cases less : qa < qc
        · have gap : (qa - qc) * (b * d) ≤ -1 * (b * d) :=
            mul_le_mul_of_nonneg_right (by omega) (mul_pos hb hd).le
          rw [if_pos less, Int.sign_eq_neg_one_of_neg (by omega), mul_neg_one]
        · have gap : 1 * (b * d) ≤ (qa - qc) * (b * d) :=
            mul_le_mul_of_nonneg_right (by omega) (mul_pos hb hd).le
          rw [if_neg less, Int.sign_eq_one_of_pos (by omega), mul_one]

/-- `cmp_fraction` returns the sign of `a/b - c/d`. -/
theorem cmpFraction_eq {a b c d : Int} (ha : 0 ≤ a) (hb : 0 < b) (hc : 0 ≤ c) (hd : 0 < d) :
    cmpFraction a b c d = (a * d - c * b).sign := by
  rw [cmpFraction, cmpFractionLoop_eq _ ha hb hc hd (by omega), one_mul]

/-- `cmp_fraction` with the results of its operations, those on `int64_t` first and those
on `int` second; `none` for a division by zero, or when the rounds run out. -/
def cmpFractionTrace : Nat → Int → Int → Int → Int → Int → Option (Int × List Int × List Int)
  | 0, _, _, _, _, _ => none
  | fuel + 1, sign, a, b, c, d =>
      if b = 0 ∨ d = 0 then none
      else
        let qa := a.tdiv b
        let qc := c.tdiv d
        if qa ≠ qc then
          let result := if qa < qc then -sign else sign
          some (result, [qa, qc], [result])
        else
          let ra := a.tmod b
          let rc := c.tmod d
          if ra = 0 ∨ rc = 0 then
            let side := (if ra ≠ 0 then 1 else 0) - (if rc ≠ 0 then 1 else 0)
            some (sign * side, [qa, qc, ra, rc], [side, sign * side])
          else
            (cmpFractionTrace fuel (-sign) b ra d rc).map fun r =>
              (r.1, [qa, qc, ra, rc] ++ r.2.1, -sign :: r.2.2)

theorem ediv_le_of_nonneg {a b : Int} (ha : 0 ≤ a) (hb : 0 < b) : 0 ≤ a / b ∧ a / b ≤ a :=
  ⟨Int.ediv_nonneg ha hb.le, Int.ediv_le_self b ha⟩

/-- The rounds end before the fuel does, never divide by zero, and no result leaves
the range of the operands. -/
theorem cmpFractionTrace_spec (fuel : Nat) (sign : Int) {a b c d bound : Int}
    (ha : 0 ≤ a) (hb : 0 < b) (hc : 0 ≤ c) (hd : 0 < d) (enough : b < fuel)
    (unit : sign = 1 ∨ sign = -1)
    (hab : a ≤ bound) (hbb : b ≤ bound) (hcb : c ≤ bound) (hdb : d ≤ bound) :
    ∃ wide narrow, cmpFractionTrace fuel sign a b c d =
        some (cmpFractionLoop fuel sign a b c d, wide, narrow) ∧
      (∀ x ∈ wide, 0 ≤ x ∧ x ≤ bound) ∧ ∀ x ∈ narrow, -1 ≤ x ∧ x ≤ 1 := by
  induction fuel generalizing sign a b c d with
  | zero => omega
  | succ fuel ih =>
      obtain ⟨lowQa, highQa⟩ := ediv_le_of_nonneg ha hb
      obtain ⟨lowQc, highQc⟩ := ediv_le_of_nonneg hc hd
      have lowA := Int.emod_nonneg a hb.ne'
      have highA := Int.emod_lt_of_pos a hb
      have lowC := Int.emod_nonneg c hd.ne'
      have highC := Int.emod_lt_of_pos c hd
      rw [cmpFractionTrace, cmpFractionLoop, if_neg (by omega)]
      simp only [Int.tdiv_eq_ediv_of_nonneg ha, Int.tdiv_eq_ediv_of_nonneg hc,
        Int.tmod_eq_emod_of_nonneg ha, Int.tmod_eq_emod_of_nonneg hc]
      by_cases differ : a / b ≠ c / d
      · rw [if_pos differ, if_pos differ]
        refine ⟨_, _, rfl, ?_, ?_⟩
        · simp only [List.mem_cons, List.not_mem_nil, or_false, forall_eq_or_imp, forall_eq]
          omega
        · simp only [List.mem_cons, List.not_mem_nil, or_false, forall_eq]
          split_ifs <;> omega
      · rw [if_neg differ, if_neg differ]
        by_cases stop : a % b = 0 ∨ c % d = 0
        · rw [if_pos stop, if_pos stop]
          refine ⟨_, _, rfl, ?_, ?_⟩
          · simp only [List.mem_cons, List.not_mem_nil, or_false, forall_eq_or_imp, forall_eq]
            omega
          · simp only [List.mem_cons, List.not_mem_nil, or_false, forall_eq_or_imp, forall_eq]
            rcases unit with rfl | rfl <;> split_ifs <;> omega
        · rw [if_neg stop, if_neg stop]
          rw [not_or] at stop
          obtain ⟨wide, narrow, run, wideBound, narrowBound⟩ := ih (-sign) hb.le
            (show 0 < a % b by omega) hd.le (show 0 < c % d by omega) (by omega) (by omega)
            hbb (by omega) hdb (by omega)
          rw [run]
          refine ⟨_, _, rfl, ?_, ?_⟩
          · simp only [List.cons_append, List.nil_append, List.mem_cons, forall_eq_or_imp]
            exact ⟨by omega, by omega, by omega, by omega, wideBound⟩
          · simp only [List.mem_cons, forall_eq_or_imp]
            exact ⟨by omega, narrowBound⟩

/-- On non-negative numerators and positive denominators `cmp_fraction` terminates, no
operation leaves its type, and the result is the sign of the exact difference. -/
theorem cmp_fraction_exact {a b c d : Int} (ia : InI64 a) (ib : InI64 b) (ic : InI64 c)
    (idd : InI64 d) (ha : 0 ≤ a) (hb : 0 < b) (hc : 0 ≤ c) (hd : 0 < d) :
    ∃ wide narrow, cmpFractionTrace (b.toNat + 1) 1 a b c d =
        some (cmpFraction a b c d, wide, narrow) ∧
      (∀ x ∈ wide, InI64 x) ∧ (∀ x ∈ narrow, -2147483648 ≤ x ∧ x ≤ 2147483647) ∧
      cmpFraction a b c d = SignType.sign ((a : ℚ) / b - (c : ℚ) / d) := by
  obtain ⟨wide, narrow, run, wideBound, narrowBound⟩ := cmpFractionTrace_spec (b.toNat + 1)
    1 ha hb hc hd (by omega) (.inl rfl) ia.2 ib.2 ic.2 idd.2
  refine ⟨wide, narrow, run, ?_, ?_, ?_⟩
  · intro x hx
    obtain ⟨lower, upper⟩ := wideBound x hx
    exact ⟨by unfold int64Min; omega, upper⟩
  · intro x hx
    obtain ⟨lower, upper⟩ := narrowBound x hx
    omega
  · have posB : (0 : ℚ) < b := by exact_mod_cast hb
    have posD : (0 : ℚ) < d := by exact_mod_cast hd
    have cross : (a : ℚ) / b - (c : ℚ) / d = ((a * d - c * b : Int) : ℚ) / (b * d) := by
      push_cast
      field_simp
    rw [cmpFraction_eq ha hb hc hd, cross]
    rcases lt_trichotomy (a * d - c * b) 0 with neg | zero | pos
    · have : ((a * d - c * b : Int) : ℚ) / (b * d) < 0 :=
        div_neg_of_neg_of_pos (by exact_mod_cast neg) (mul_pos posB posD)
      rw [Int.sign_eq_neg_one_of_neg neg, sign_neg this]
      rfl
    · rw [zero, Int.cast_zero, zero_div, sign_zero]
      rfl
    · have : 0 < ((a * d - c * b : Int) : ℚ) / (b * d) :=
        div_pos (by exact_mod_cast pos) (mul_pos posB posD)
      rw [Int.sign_eq_one_of_pos pos, sign_pos this]
      rfl

/-- The largest operands: two fractions that differ only in the last place. -/
theorem cmp_fraction_exact_largest :
    ∃ wide narrow, cmpFractionTrace (int64Max.toNat + 1) 1 (int64Max - 1) int64Max
        int64Max int64Max =
        some (cmpFraction (int64Max - 1) int64Max int64Max int64Max, wide, narrow) ∧
      (∀ x ∈ wide, InI64 x) ∧ (∀ x ∈ narrow, -2147483648 ≤ x ∧ x ≤ 2147483647) ∧
      cmpFraction (int64Max - 1) int64Max int64Max int64Max =
        SignType.sign (((int64Max - 1 : Int) : ℚ) / (int64Max : Int) -
          ((int64Max : Int) : ℚ) / (int64Max : Int)) :=
  cmp_fraction_exact (by decide) (by decide) (by decide) (by decide) (by decide) (by decide)
    (by decide) (by decide)

/-! ## The order -/

/-- The time at which `p` last became ready, replayed from the log. -/
def becameReady (p : Nat) : List TimedCall → Int
  | [] => 0
  | call :: before =>
      match call.call with
      | .arrival q => if q = p then call.now else becameReady p before
      | .ready q => if q = p then call.now else becameReady p before
      | .preempt q _ => if q = p then call.now else becameReady p before
      | .slice _ => becameReady p before
      | .block _ _ => becameReady p before
      | .complete _ _ => becameReady p before

/-- `W / S`: the time since `p` last became ready by the length of its burst. -/
def responseRatio (v : SchedView D) (log : List TimedCall) (p : Nat) : ℚ :=
  (v.now - becameReady p log : Int) / (v.burstLen p : Int)

/-- `p` has the larger response ratio, or the same and the smaller `(arrival, pid)`. -/
def RatioBefore (w : Workload) (v : SchedView D) (log : List TimedCall) (p q : Nat) : Prop :=
  responseRatio v log q < responseRatio v log p ∨
    (responseRatio v log q = responseRatio v log p ∧ ((w.proc p).arrival < (w.proc q).arrival ∨
      ((w.proc p).arrival = (w.proc q).arrival ∧ (w.proc p).pid < (w.proc q).pid)))

/-- The view shows, as the burst length of a ready process, the length of one of its
CPU bursts. -/
def ShowsBursts (w : Workload) (v : SchedView D) (pl : Places) : Prop :=
  ∀ p, pl p = .ready → ∃ k, k % 2 = 0 ∧ k < (w.proc p).phaseCount ∧
    v.burstLen p = (w.proc p).phase k

theorem RatioBefore.trans {v : SchedView D} {log : List TimedCall} {p q r : Nat}
    (first : RatioBefore w v log p q) (second : RatioBefore w v log q r) :
    RatioBefore w v log p r := by
  rcases first with less | ⟨same, order⟩ <;> rcases second with less' | ⟨same', order'⟩
  · exact .inl (less'.trans less)
  · exact .inl (same' ▸ less)
  · exact .inl (same ▸ less')
  · exact .inr ⟨same'.trans same, by omega⟩

theorem RatioBefore.total (valid : w.Valid) {v : SchedView D} {log : List TimedCall} {p q : Nat}
    (hp : p < w.len) (hq : q < w.len) (ne : p ≠ q) :
    RatioBefore w v log p q ∨ RatioBefore w v log q p := by
  have apart : (w.proc p).pid ≠ (w.proc q).pid := fun same => ne (valid.pid_injective hp hq same)
  unfold RatioBefore
  rcases lt_trichotomy (responseRatio v log p) (responseRatio v log q) with less | same | less
  · exact .inr (.inl less)
  · rw [same]
    simp only [lt_irrefl, true_and, false_or]
    omega
  · exact .inl (.inl less)

/-! ## What the policy knows -/

section Selection

variable [Double D] {v : SchedView D}

/-- The queues are in the order of `queued_before`, by the times of the log. -/
structure HrrnSorted (w : Workload) (v : SchedView D) (s : Logged Hrrn) (pl : Places) : Prop where
  queues : ∃ qs acts, HrrnQueues w.len v s.state pl qs acts ∧ (∀ g ∈ acts, qs g ≠ []) ∧
    ∀ g, (qs g).Pairwise fun a b => queuedBefore v s.state a b = true
  since : ∀ p, pl p = .ready →
    s.state.readySince p = becameReady p s.log ∧ s.state.readySince p ≤ v.now

omit [Double D] in
theorem queuedBefore_iff {s : Hrrn} (procs_eq : v.procs = w.proc) {a b : Nat} :
    queuedBefore v s a b = true ↔ s.readySince a < s.readySince b ∨
      (s.readySince a = s.readySince b ∧ ((w.proc a).arrival < (w.proc b).arrival ∨
        ((w.proc a).arrival = (w.proc b).arrival ∧ (w.proc a).pid < (w.proc b).pid))) := by
  unfold queuedBefore
  rw [procs_eq]
  split_ifs <;> simp only [decide_eq_true_eq] <;> omega

namespace HrrnSorted

variable {s : Logged Hrrn} {s' : Hrrn} {pl : Places} {p : Nat}

/-- The tail insertion keeps the order. -/
theorem enqueue (valid : w.Valid) (sorted : HrrnSorted w v s pl) (ok : ViewOk w v pl)
    (hp : p < w.len) (notReady : pl p ≠ .ready) (run : hrrnEnqueue v s.state p = some s') :
    HrrnSorted w v (s.push v (.arrival p) s') (pl.move p .ready) := by
  obtain ⟨qs, acts, queues, full, order⟩ := sorted.queues
  obtain ⟨s₁, acts', g, xs, ys, run', queues', full', split, since, after, stop⟩ :=
    hrrnEnqueue_queues queues full ok hp notReady
  obtain rfl := Option.some.inj (run.symm.trans run')
  have others : ∀ g', ∀ a ∈ qs g', s'.readySince a = s.state.readySince a := by
    intro g' a ha
    rw [since, Function.update_of_ne (ne_of_mem_of_not_mem ha (queues.fresh notReady g'))]
  have kept : ∀ g', (qs g').Pairwise fun a b => queuedBefore v s' a b = true := by
    intro g'
    refine (order g').imp_of_mem fun {a b} ha hb before => ?_
    rw [queuedBefore_iff ok.procs_eq] at before ⊢
    rwa [others g' a ha, others g' b hb]
  refine ⟨⟨_, acts', queues', full', fun g' => ?_⟩, fun q ready => ?_⟩
  · by_cases same : g' = g
    · subst same
      rw [Function.update_self]
      have parts := kept g'
      rw [split] at parts
      obtain ⟨front, back, cross⟩ := List.pairwise_append.mp parts
      -- the last process in front of the new one is not behind it, nor are those before
      have joins : ∀ x ∈ xs, queuedBefore v s' x p = true := by
        intro x hx
        obtain ⟨init, last, rfl⟩ := List.eq_nil_or_concat xs |>.resolve_left (List.ne_nil_of_mem hx)
        rw [List.concat_eq_append] at *
        have behind := stop last (by simp)
        have inside : ∀ q ∈ init ++ [last], q < w.len ∧ q ≠ p := by
          intro q hq
          have mem : q ∈ qs g' := split ▸ List.mem_append_left _ hq
          exact ⟨ok.ready_lt q ((queues.holds q).mp ⟨g', mem⟩),
            ne_of_mem_of_not_mem mem (queues.fresh notReady g')⟩
        have apart : (w.proc last).pid ≠ (w.proc p).pid := fun same =>
          (inside last (by simp)).2 (valid.pid_injective (inside last (by simp)).1 hp same)
        have upTo : x = last ∨ queuedBefore v s' x last = true := by
          rcases List.mem_append.mp hx with hx | hx
          · exact .inr ((List.pairwise_append.mp front).2.2 x hx last (by simp))
          · exact .inl (List.mem_singleton.mp hx)
        rw [← Bool.not_eq_true, queuedBefore_iff ok.procs_eq] at behind
        rw [queuedBefore_iff ok.procs_eq] at upTo ⊢
        rcases upTo with rfl | before
        · omega
        · omega
      refine List.pairwise_append.mpr ⟨front, List.pairwise_cons.mpr ⟨after, back⟩, ?_⟩
      intro x hx y hy
      rcases List.mem_cons.mp hy with rfl | hy
      · exact joins x hx
      · exact cross x hx y hy
    · rw [Function.update_of_ne same]
      exact kept g'
  · by_cases same : q = p
    · subst same
      simp only [Logged.push, since, Function.update_self, becameReady, if_true]
      exact ⟨trivial, le_rfl⟩
    · rw [pl.move_of_ne _ same] at ready
      simp only [Logged.push, since, Function.update_of_ne same, becameReady, if_neg (Ne.symm same)]
      exact sorted.since q ready

/-- The head of a queue leaves, and the rest stays in order. -/
theorem pick (sorted : HrrnSorted w v s pl) (ok : ViewOk w v pl) {slice : Slice}
    (run : hrrnNextSlice v s.state = some (s', some slice)) :
    HrrnSorted w v (s.push v (.slice slice) s') (pl.move slice.proc (.out slice)) := by
  obtain ⟨qs, acts, queues, full, order⟩ := sorted.queues
  rcases hrrnNextSlice_queues queues full ok with
    ⟨rfl, sliced⟩ | ⟨s₁, g, best, rest, acts', sliced, -, queue, queues', full', since⟩
  · cases run.symm.trans sliced
  · obtain ⟨rfl, ⟨⟩⟩ := Prod.mk.inj (Option.some.inj (run.symm.trans sliced))
    refine ⟨⟨_, acts', queues', full', fun g' => ?_⟩, fun q ready => ?_⟩
    · rw [Logged.push, queuedBefore_congr since]
      by_cases same : g' = g
      · subst same
        have := order g'
        rw [queue] at this
        rw [Function.update_self]
        exact this.of_cons
      · rw [Function.update_of_ne same]
        exact order g'
    · have ne : q ≠ best := by
        rintro rfl
        simp at ready
      rw [pl.move_of_ne _ ne] at ready
      simp only [Logged.push, since, becameReady]
      exact sorted.since q ready

/-- A process that blocks or completes was in no queue. -/
theorem other {place : Place} (sorted : HrrnSorted w v s pl) (notReady : pl p ≠ .ready)
    (stays : place ≠ .ready) : HrrnSorted w v s (pl.move p place) := by
  obtain ⟨qs, acts, queues, full, order⟩ := sorted.queues
  refine ⟨⟨qs, acts, queues.other notReady stays, full, order⟩, fun q ready => ?_⟩
  have ne : q ≠ p := by
    rintro rfl
    exact stays (by simpa using ready)
  rw [pl.move_of_ne _ ne] at ready
  exact sorted.since q ready

theorem view {v' : SchedView D} (sorted : HrrnSorted w v s pl) (step : ViewStep pl v v') :
    HrrnSorted w v' s pl := by
  obtain ⟨qs, acts, queues, full, order⟩ := sorted.queues
  have same : queuedBefore v' s.state = queuedBefore v s.state := by
    funext a b
    simp only [queuedBefore, step.procs_eq]
  refine ⟨⟨qs, acts, queues.view fun p ready => burstKey_congr step ready, full, ?_⟩,
    fun q ready => ⟨(sorted.since q ready).1, (sorted.since q ready).2.trans step.now_le⟩⟩
  rwa [same]

end HrrnSorted

/-- What the policy returns and what it keeps. -/
theorem hrrn_sorted (valid : w.Valid) : Contract (D := D) w policyHrrn.logged (HrrnSorted w) where
  interruptible _ := rfl
  view sorted _ _ step := sorted.view step
  arrival {v s pl p} sorted ok hp new _ := by
    obtain ⟨qs, acts, queues, full, -⟩ := sorted.queues
    obtain ⟨s', -, -, -, -, run, -⟩ := hrrnEnqueue_queues queues full ok hp (by simp [new])
    exact ⟨s.push v (.arrival p) s', by simp [Policy.logged, policyHrrn, run],
      sorted.enqueue valid ok hp (by simp [new]) run⟩
  wake {v s pl p} sorted ok blocked _ := by
    obtain ⟨qs, acts, queues, full, -⟩ := sorted.queues
    have hp := ok.outside p (by simp [blocked])
    obtain ⟨s', -, -, -, -, run, -⟩ := hrrnEnqueue_queues queues full ok hp (by simp [blocked])
    exact ⟨s.push v (.arrival p) s', by simp [Policy.wakeHook, Policy.logged, policyHrrn, run],
      sorted.enqueue valid ok hp (by simp [blocked]) run⟩
  next {v s pl} sorted ok early := by
    obtain ⟨qs, acts, queues, full, -⟩ := sorted.queues
    rcases hrrnNextSlice_queues queues full ok with
      ⟨rfl, sliced⟩ | ⟨s', g, best, rest, acts', sliced, -, queue, -⟩
    · refine ⟨s, none, by simp only [Policy.logged, policyHrrn, sliced]; rfl, sorted,
        .inl fun p ready => ?_⟩
      obtain ⟨g, mem⟩ := (queues.holds p).mpr ready
      exact List.not_mem_nil (queues.active g (List.ne_nil_of_mem mem))
    · have ready : pl best = .ready := (queues.holds best).mp ⟨g, by simp [queue]⟩
      have run : policyHrrn.logged.nextSlice v s = some (s.push v
          (.slice ⟨best, v.remaining best, schedNoDeadline⟩) s',
            some ⟨best, v.remaining best, schedNoDeadline⟩) := by
        simp only [Policy.logged, policyHrrn, sliced]
        rfl
      exact ⟨_, _, run, ready,
        ok.ready_pos best ready, early, le_rfl, fun _ => ⟨le_rfl, rfl⟩, sorted.pick ok sliced⟩
  preempt _ _ _ _ _ _ hook := by simp [Policy.logged, policyHrrn] at hook
  block {v s pl p slice ran} sorted _ out _ _ _ :=
    ⟨s, rfl, sorted.other (by simp [out]) (by simp)⟩
  complete {v s pl p slice ran} sorted _ out _ _ :=
    ⟨s, rfl, sorted.other (by simp [out]) (by simp)⟩

/-- Nothing is queued at the start. -/
theorem hrrn_starts_sorted {params : PolicyParams} {s : Logged Hrrn}
    (ok : ViewOk w v fun _ => .new) (created : policyHrrn.logged.create v params = .ok s) :
    HrrnSorted w v s fun _ => .new := by
  obtain ⟨state, run, rfl⟩ : ∃ state, hrrnCreate v params = .ok state ∧ s = ⟨state, []⟩ := by
    cases created
    exact ⟨_, rfl, rfl⟩
  exact ⟨⟨_, [], hrrnCreate_queues ok.n_eq run, by simp, by simp⟩, by simp⟩

/-! ## The pick -/

section Pick

variable {s : Logged Hrrn} {pl : Places}

omit [Double D] in
theorem ShowsBursts.pos (valid : w.Valid) (ok : ViewOk w v pl)
    (shown : ShowsBursts w v pl) {p : Nat}
    (ready : pl p = .ready) : 0 < v.burstLen p ∧ v.burstLen p ≤ int64Max := by
  obtain ⟨k, -, inside, eq⟩ := shown p ready
  rw [eq]
  exact ⟨(valid.proc (ok.ready_lt p ready)).phase_pos inside,
    valid.phase_le (ok.ready_lt p ready) inside⟩

/-- Exact bursts with one key are equal. -/
theorem burstLen_eq_of_key (valid : w.Valid) (ok : ViewOk w v pl) (shown : ShowsBursts w v pl)
    (oracle : v.predicted = none) {p q : Nat} (hp : pl p = .ready) (hq : pl q = .ready)
    (same : burstKey v p = burstKey v q) : v.burstLen p = v.burstLen q := by
  have boundP := shown.pos valid ok hp
  have boundQ := shown.pos valid ok hq
  simp only [burstKey, oracle] at same
  have word : ∀ x : Int, 0 < x ∧ x ≤ int64Max → (BitVec.ofInt 64 x).toInt = x := by
    intro x bound
    unfold int64Max at bound
    rw [BitVec.toInt_ofInt]
    exact Int.bmod_eq_of_le (by omega) (by omega)
  rw [← word _ boundP, same, word _ boundQ]

/-- `better` is the order of the response ratios. -/
theorem hrrnBetter_iff (valid : w.Valid) (ok : ViewOk w v pl) (shown : ShowsBursts w v pl)
    (oracle : v.predicted = none) (sorted : HrrnSorted w v s pl) {p q : Nat} (hp : pl p = .ready)
    (hq : pl q = .ready) : hrrnBetter v s.state p q = true ↔ RatioBefore w v s.log p q := by
  obtain ⟨sinceP, leP⟩ := sorted.since p hp
  obtain ⟨sinceQ, leQ⟩ := sorted.since q hq
  have posP := (shown.pos valid ok hp).1
  have posQ := (shown.pos valid ok hq).1
  have compare : cmpRatio v s.state p q = ((v.now - becameReady p s.log) * v.burstLen q -
      (v.now - becameReady q s.log) * v.burstLen p).sign := by
    simp only [cmpRatio, oracle, sinceP, sinceQ]
    exact cmpFraction_eq (by omega) posP (by omega) posQ
  have posP' : (0 : ℚ) < (v.burstLen p : Int) := by exact_mod_cast posP
  have posQ' : (0 : ℚ) < (v.burstLen q : Int) := by exact_mod_cast posQ
  have less : responseRatio v s.log q < responseRatio v s.log p ↔
      (v.now - becameReady q s.log) * v.burstLen p < (v.now - becameReady p s.log) *
        v.burstLen q := by
    rw [responseRatio, responseRatio, div_lt_div_iff₀ posQ' posP']
    exact_mod_cast Iff.rfl
  have equal : responseRatio v s.log q = responseRatio v s.log p ↔
      (v.now - becameReady q s.log) * v.burstLen p = (v.now - becameReady p s.log) *
        v.burstLen q := by
    rw [responseRatio, responseRatio, div_eq_div_iff posQ'.ne' posP'.ne']
    exact_mod_cast Iff.rfl
  rw [RatioBefore, less, equal]
  simp only [hrrnBetter, compare, ok.procs_eq]
  generalize (v.now - becameReady q s.log) * v.burstLen p = y
  generalize (v.now - becameReady p s.log) * v.burstLen q = x
  rcases lt_trichotomy x y with lt | rfl | gt
  · rw [Int.sign_eq_neg_one_of_neg (by omega), if_pos (by decide), decide_eq_true_eq]
    omega
  · rw [sub_self, Int.sign_zero, if_neg (by decide)]
    simp only [lt_irrefl, true_and, false_or]
    split_ifs <;> simp only [decide_eq_true_eq] <;> omega
  · rw [Int.sign_eq_one_of_pos (by omega), if_pos (by decide), decide_eq_true_eq]
    omega

/-- The head of a queue is before the rest of it. -/
theorem head_before (valid : w.Valid) (ok : ViewOk w v pl) (shown : ShowsBursts w v pl)
    (oracle : v.predicted = none) (sorted : HrrnSorted w v s pl) {qs : Nat → List Nat}
    {acts : List Nat} (queues : HrrnQueues w.len v s.state pl qs acts) {g h p :
      Nat} {rest : List Nat}
    (queue : qs g = h :: rest) (before : queuedBefore v s.state h p = true) (mem : p ∈ rest) :
    RatioBefore w v s.log h p := by
  have memH : h ∈ qs g := by simp [queue]
  have memP : p ∈ qs g := by simp [queue, mem]
  have readyH := (queues.holds h).mp ⟨g, memH⟩
  have readyP := (queues.holds p).mp ⟨g, memP⟩
  have length := burstLen_eq_of_key valid ok shown oracle readyH readyP
    ((queues.key g h memH).symm.trans (queues.key g p memP))
  have pos : (0 : ℚ) < (v.burstLen p : Int) := by
    exact_mod_cast (shown.pos valid ok readyP).1
  rw [queuedBefore_iff ok.procs_eq, (sorted.since h readyH).1, (sorted.since p readyP).1] at before
  unfold RatioBefore responseRatio
  rw [length]
  rcases before with earlier | ⟨same, order⟩
  · refine .inl (div_lt_div_of_pos_right ?_ pos)
    exact_mod_cast (by omega : v.now - becameReady p s.log < v.now - becameReady h s.log)
  · exact .inr ⟨by rw [same], order⟩

/-- The scan over the heads ends with the first of them in the order. -/
theorem bestHead_least {R : Nat → Nat → Prop} {C : Nat → Prop} {s : Hrrn}
    (better_iff : ∀ x y, C x → C y → (hrrnBetter v s x y = true ↔ R x y))
    (trans : ∀ x y z, R x y → R y z → R x z)
    (total : ∀ x y, C x → C y → x ≠ y → R x y ∨ R y x) (fuel : Nat) (gs : List Nat)
    (forth : Chain s.actNext gs) (best : Option Nat) (bestOk : ∀ x, best = some x → C x)
    (heads : ∀ g ∈ gs, ∃ h, s.head g = some h ∧ C h) {b : Nat}
    (scan : bestHead v s fuel gs.head? best = some (some b)) :
    (∀ x, best = some x → x ≠ b → R b x) ∧ ∀ g ∈ gs, ∀ h, s.head g = some h → h ≠ b → R b h := by
  induction fuel generalizing gs best with
  | zero => cases scan
  | succ fuel ih =>
      cases gs with
      | nil =>
          obtain rfl : best = some b := Option.some.inj scan
          exact ⟨fun x eq ne => absurd (Option.some.inj eq).symm ne, by simp⟩
      | cons g rest =>
          obtain ⟨h, head, candidate⟩ := heads g List.mem_cons_self
          rw [List.head?_cons, bestHead, head, forth.1] at scan
          have heads' := fun g' hg' => heads g' (List.mem_cons_of_mem _ hg')
          -- the scan goes on with the better of the two
          obtain ⟨next, goOn, nextOk, here, kept⟩ : ∃ next,
              bestHead v s fuel rest.head? (some next) = some (some b) ∧ C next ∧
              (h ≠ next → R next h) ∧ ∀ x, best = some x → x ≠ next → R next x := by
            cases best with
            | none => exact ⟨h, scan, candidate, fun ne => absurd rfl ne, by simp⟩
            | some x =>
                have old := bestOk x rfl
                by_cases better : hrrnBetter v s h x = true
                · simp only [better, if_true] at scan
                  refine ⟨h, scan, candidate, fun ne => absurd rfl ne, fun y eq _ => ?_⟩
                  exact Option.some.inj eq ▸ (better_iff h x candidate old).mp better
                · simp only [better, Bool.false_eq_true, if_false] at scan
                  refine ⟨x, scan, old, fun ne => ?_, fun y eq ne => ?_⟩
                  · exact (total h x candidate old ne).resolve_left fun less =>
                      better ((better_iff h x candidate old).mpr less)
                  · exact absurd (Option.some.inj eq).symm ne
          obtain ⟨ahead, others⟩ := ih rest forth.2 (some next)
            (fun x eq => Option.some.inj eq ▸ nextOk)
            (fun g' hg' => heads g' (List.mem_cons_of_mem _ hg')) goOn
          have through : ∀ x, (x ≠ next → R next x) → x ≠ b → R b x := by
            intro x before ne
            by_cases same : x = next
            · exact ahead x (same ▸ rfl) ne
            · by_cases same' : next = b
              · exact same' ▸ before same
              · exact trans b next x (ahead next rfl same') (before same)
          refine ⟨fun x eq => through x (kept x eq), fun g' hg' h' head' => ?_⟩
          rcases List.mem_cons.mp hg' with rfl | hg'
          · obtain rfl := Option.some.inj (head.symm.trans head')
            exact through h here
          · exact others g' hg' h' head'

/-- What `hrrn_next_slice` returns. -/
theorem HrrnSorted.pick_before (valid : w.Valid) (ok : ViewOk w v pl) (shown : ShowsBursts w v pl)
    (oracle : v.predicted = none) (sorted : HrrnSorted w v s pl) {s' : Hrrn} {slice : Slice}
    (run : hrrnNextSlice v s.state = some (s', some slice)) {p : Nat} (ready : pl p = .ready)
    (ne : p ≠ slice.proc) : RatioBefore w v s.log slice.proc p := by
  obtain ⟨qs, acts, queues, full, order⟩ := sorted.queues
  rcases hrrnNextSlice_queues queues full ok with ⟨-, sliced⟩ | ⟨s₁, -, best, -, -, sliced, scan, -⟩
  · cases run.symm.trans sliced
  obtain ⟨-, ⟨⟩⟩ := Prod.mk.inj (Option.some.inj (run.symm.trans sliced))
  have inside : ∀ g, ∀ q ∈ qs g, pl q = .ready := fun g q hq => (queues.holds q).mp ⟨g, hq⟩
  have least := (bestHead_least (R := RatioBefore w v s.log) (C := fun q => pl q = .ready)
    (fun x y hx hy => hrrnBetter_iff valid ok shown oracle sorted hx hy)
    (fun x y z => RatioBefore.trans)
    (fun x y hx hy => RatioBefore.total valid (ok.ready_lt x hx) (ok.ready_lt y hy))
    _ acts queues.acts_linked.forth none (by simp) (fun g hg => by
      rw [(queues.ends g hg).1]
      cases h : qs g with
      | nil => exact absurd h (full g hg)
      | cons q rest => exact ⟨q, rfl, inside g q (by simp [h])⟩) scan).2
  obtain ⟨g, mem⟩ := (queues.holds p).mpr ready
  have hg := queues.active g (List.ne_nil_of_mem mem)
  cases queue : qs g with
  | nil => exact absurd queue (full g hg)
  | cons h rest =>
      have head : s.state.head g = some h := by
        rw [(queues.ends g hg).1, queue]
        rfl
      rw [queue] at mem
      rcases List.mem_cons.mp mem with rfl | mem
      · exact least g hg p head ne
      · have first : RatioBefore w v s.log h p := by
          have sortedQueue := order g
          rw [queue, List.pairwise_cons] at sortedQueue
          exact head_before valid ok shown oracle sorted queues queue (sortedQueue.1 p mem) mem
        by_cases same : h = best
        · exact same ▸ first
        · exact (least g hg h head same).trans first

end Pick

/-- What a call of `hrrn_next_slice` returns. -/
theorem HrrnSorted.selects (valid : w.Valid) {s : (policyHrrn (D := D)).logged.State} {pl : Places}
    (sorted : HrrnSorted w v s pl) (ok : ViewOk w v pl) (oracle : v.predicted = none)
    (shown : ShowsBursts w v pl) (early : v.now < int64Max) :
    ∃ s' r, policyHrrn.logged.nextSlice v s = some (s', r) ∧ (r = none → ∀ p, pl p ≠ .ready) ∧
      ∀ slice, r = some slice → pl slice.proc = .ready ∧
        ∀ p, pl p = .ready → p ≠ slice.proc → RatioBefore w v s.log slice.proc p := by
  obtain ⟨s', r, sliced, next⟩ := (hrrn_sorted valid).next sorted ok early
  refine ⟨s', r, sliced, ?_, ?_⟩
  · rintro rfl
    exact next.2.resolve_right (by simp [Policy.logged, policyHrrn])
  · rintro slice rfl
    obtain ⟨⟨state, r⟩, source, eq⟩ := Option.map_eq_some_iff.mp sliced
    cases r with
    | none => cases eq
    | some slice' =>
        obtain ⟨-, ⟨⟩⟩ := Prod.mk.inj eq
        exact ⟨next.1, fun p ready ne => sorted.pick_before valid ok shown oracle source ready ne⟩

/-- With exact bursts `hrrn_next_slice` returns the ready process with the largest response
ratio, and of several the one with the smallest `(arrival, pid)`. -/
theorem hrrn_selects (valid : w.Valid) {params : PolicyParams}
    {s : (policyHrrn (D := D)).logged.State}
    {pl : Places} (run : Protocol w policyHrrn.logged params v s pl) (oracle : v.predicted = none)
    (shown : ShowsBursts w v pl) (early : v.now < int64Max) :
    ∃ s' r, policyHrrn.logged.nextSlice v s = some (s', r) ∧ (r = none → ∀ p, pl p ≠ .ready) ∧
      ∀ slice, r = some slice → pl slice.proc = .ready ∧
        ∀ p, pl p = .ready → p ≠ slice.proc → RatioBefore w v s.log slice.proc p := by
  obtain ⟨sorted, ok⟩ := run.keep (hrrn_sorted valid) fun v s ok created =>
    hrrn_starts_sorted ok created
  exact sorted.selects valid ok oracle shown early

end Selection

/-- Four processes that arrive one after the other, two of them with bursts of one length. -/
def fourWaits : Workload :=
  ⟨[processMake 1 0 6, processMake 2 1 2, processMake 3 2 2, processMake 4 3 1]⟩

/-- They wait from their arrivals on. -/
def fourWaitsCalls : List (Lent × Call) :=
  [0, 1, 2, 3].map fun p : Nat => (⟨p, [(6, 6), (2, 2), (2, 2), (1, 1)]⟩, .arrival p)

theorem fourWaits_valid : fourWaits.Valid where
  nonempty := by decide
  procs p mem := by
    simp only [fourWaits, List.mem_cons, List.not_mem_nil, or_false] at mem
    rcases mem with rfl | rfl | rfl | rfl
    · constructor <;> decide
    · constructor <;> decide
    · constructor <;> decide
    · constructor <;> decide
  pids_nodup := by decide
  horizon_le := by decide

theorem fourWaits_run : ((policyHrrn.logged.runs fourWaits {} noteAnswers
    ⟨0, [(6, 6), (2, 2), (2, 2), (1, 1)]⟩ [] fourWaitsCalls).map fun e =>
      ((e.1.now, e.1.left), (List.range 4).all (fun p => decide (e.2.2.1 p = .ready)),
        (policyHrrn.logged.nextSlice (e.1.view fourWaits) e.2.1).map fun x =>
          x.2.map Slice.choice)) =
      some ((3, [(6, 6), (2, 2), (2, 2), (1, 1)]), true, some (some (1, 2))) := by
  decide +kernel

/-- At 3 the ratios of waiting to burst are 3/6, 2/2, 1/2 and 0/1, and the second process is
selected. -/
theorem fourWaits_hrrn : ∃ (l : Lent) (s : Logged Hrrn) (pl : Places),
    Protocol fourWaits policyHrrn.logged {} (l.view fourWaits) s pl ∧ l.now = 3 ∧
    (∀ p < 4, pl p = .ready) ∧ ∃ s' slice, slice.proc = 1 ∧
      policyHrrn.logged.nextSlice (l.view fourWaits) s = some (s', some slice) ∧
      RatioBefore fourWaits (l.view fourWaits) s.log 1 0 ∧
      RatioBefore fourWaits (l.view fourWaits) s.log 1 2 ∧
      RatioBefore fourWaits (l.view fourWaits) s.log 1 3 := by
  obtain ⟨⟨⟨now, left⟩, s, pl, answers⟩, run, seen⟩ := Option.map_eq_some_iff.mp fourWaits_run
  simp only [Prod.mk.injEq] at seen
  obtain ⟨⟨rfl, rfl⟩, all, call⟩ := seen
  have reached := Protocol.computed le_rfl run
  have ready : ∀ p < 4, pl p = .ready := fun p hp =>
    of_decide_eq_true (List.all_eq_true.mp all p (List.mem_range.mpr hp))
  obtain ⟨-, ok⟩ := reached.keep (hrrn_sorted fourWaits_valid) fun v s ok created =>
    hrrn_starts_sorted ok created
  have shown : ShowsBursts fourWaits (Lent.view fourWaits ⟨3, [(6, 6), (2, 2), (2, 2), (1, 1)]⟩)
      pl := by
    intro p isReady
    have inside : p < 4 := ok.outside p (by rw [isReady]; simp)
    have four : p = 0 ∨ p = 1 ∨ p = 2 ∨ p = 3 := by omega
    rcases four with rfl | rfl | rfl | rfl <;> exact ⟨0, rfl, by decide, rfl⟩
  obtain ⟨⟨s', r⟩, called, returned⟩ := Option.map_eq_some_iff.mp call
  obtain ⟨slice, rfl, choice⟩ := Option.map_eq_some_iff.mp returned
  have proc : slice.proc = 1 := congrArg Prod.fst choice
  obtain ⟨s₁, r₁, sliced, -, selects⟩ := hrrn_selects fourWaits_valid reached rfl shown
    (show (3 : Int) < int64Max by decide)
  obtain ⟨rfl, rfl⟩ := Prod.mk.inj (Option.some.inj (called.symm.trans sliced))
  have before := (selects slice rfl).2
  rw [proc] at before
  exact ⟨_, s, pl, reached, rfl, ready, s', slice, proc, called,
    before 0 (ready 0 (by decide)) (by decide), before 2 (ready 2 (by decide)) (by decide),
    before 3 (ready 3 (by decide)) (by decide)⟩

namespace Sim

variable {S : Sim D} {PInv : SchedView D → S.policy.State → Places → Prop}

/-- The engine shows the length of the current CPU burst. -/
theorem Sound.showsBursts {budget : Int} {a : S.Config} (sound : S.Sound PInv budget a) :
    ShowsBursts S.w (S.view a.eng) (places a.spots) := by
  intro p ready
  have here : a.spots p = .ready := places_eq_ready.mp ready
  have inside : p < S.w.len := by
    by_contra outside
    rw [sound.outside p (not_lt.mp outside)] at here
    cases here
  have progress := sound.data.progress p inside (by simp [here])
  exact ⟨a.eng.phase p, progress.even, progress.phase_lt, progress.burstLen_eq⟩

end Sim

end CpuSched
