import CpuSched.Lib.ShortestRemaining
import CpuSched.Lib.SingleMachine
import CpuSched.Policies.OptNpContract
import Mathlib.Algebra.BigOperators.Ring.Finset

/-!
# The lower bound of the offline optimum

`srpt_bound` runs the open jobs with preemption, the one with the least work left first.
It is ahead of every schedule that starts no earlier, so the sum that it returns exceeds
the cost of no order.
-/

namespace CpuSched

variable {rel p C rem : Nat → Int} {Q : Int → Nat → Int} {J : Finset Nat} {t total : Int}

/-! ## The loop invariant -/

/-- `f` on the jobs released by `t`. -/
def released (rel : Nat → Int) (t : Int) (f : Nat → Int) (j : Nat) : Int :=
  if rel j ≤ t then f j else 0

/-- A schedule of the jobs, with preemption or without: `Q t` is the work left at `t`, and
no job completes at `C` while it has work left. -/
structure SrptRival (rel p C : Nat → Int) (Q : Int → Nat → Int) (J : Finset Nat) : Prop where
  pos : ∀ j ∈ J, 0 < p j
  fresh : ∀ t, ∀ j ∈ J, t ≤ rel j → Q t j = p j
  tick : ∀ t, Tick J (Q t) (Q (t + 1))
  late : ∀ t, ∀ j ∈ J, 0 < Q t j → t < C j

/-- The loop of `srpt_bound` at time `t` is ahead of the schedule, and has not cost
more: `total` and the time spent on the jobs that are released and not complete. -/
structure SrptAhead (rel p C : Nat → Int) (Q : Int → Nat → Int) (J : Finset Nat) (rem : Nat → Int)
    (t total : Int) : Prop where
  nonneg : ∀ j ∈ J, 0 ≤ rem j
  fresh : ∀ j ∈ J, t < rel j → rem j = p j
  ahead : Ahead J (released rel t rem) (released rel t (Q t))
  cost_le : total + ∑ j ∈ J, (if 0 < released rel t rem j then t - rel j else 0) ≤
    ∑ j ∈ J, released rel t (fun j => min (C j) t - rel j) j

/-- Runs without preemption are a schedule. -/
theorem NonPreemptive.rival (schedule : NonPreemptive rel p J C) (pos : ∀ j ∈ J, 0 < p j) :
    SrptRival rel p C (leftAt p C) J where
  pos := pos
  fresh t j hj le := by
    have := pos j hj
    have := schedule.released j hj
    unfold leftAt
    omega
  tick t := by
    refine ⟨fun j hj => ?_, ?_, fun j hj => ?_⟩
    · have := pos j hj
      unfold leftAt
      omega
    · by_cases works : ∃ i ∈ J, C i - p i ≤ t ∧ t < C i
      · obtain ⟨i, hi, started, unfinished⟩ := works
        refine ⟨i, fun j hj => ?_⟩
        split_ifs with same
        · rfl
        · have apart := schedule.apart i hi j hj (Ne.symm same)
          have := pos j hj
          unfold leftAt
          omega
      · push Not at works
        refine ⟨0, fun j hj => ?_⟩
        split_ifs with same
        · rfl
        · have := works j hj
          have := pos j hj
          unfold leftAt
          omega
    · have := pos j hj
      unfold leftAt
      omega
  late t j hj left := by
    unfold leftAt at left
    omega

namespace SrptRival

variable (rival : SrptRival rel p C Q J)
include rival

theorem nonneg (t : Int) : ∀ j ∈ J, 0 ≤ Q t j := by
  have := (rival.tick (t - 1)).nonneg
  rwa [sub_add_cancel] at this

theorem arrival_lt : ∀ j ∈ J, rel j < C j := fun j hj =>
  rival.late (rel j) j hj ((rival.pos j hj).trans_eq (rival.fresh (rel j) j hj le_rfl).symm)

/-- The total exceeds no schedule at any time. -/
theorem total_le (srpt : SrptAhead rel p C Q J rem t total) : total ≤ ∑ j ∈ J, (C j - rel j) := by
  have mine : 0 ≤ ∑ j ∈ J, (if 0 < released rel t rem j then t - rel j else 0) := by
    refine Finset.sum_nonneg fun j _ => ?_
    unfold released
    split_ifs <;> omega
  have other : ∑ j ∈ J, released rel t (fun j => min (C j) t - rel j) j ≤ ∑ j ∈ J,
    (C j - rel j) := by
    refine Finset.sum_le_sum fun j hj => ?_
    have := rival.arrival_lt j hj
    simp only [released]
    split_ifs <;> omega
  have := srpt.cost_le
  omega

/-- Before any job has run, the two are level. -/
theorem init (untouched : ∀ j ∈ J, Q t j = p j) : SrptAhead rel p C Q J p t 0 := by
  refine ⟨fun j hj => (rival.pos j hj).le, fun _ _ _ => rfl, (Ahead.refl J _).congr (fun _ _ => rfl)
    fun j hj => ?_, ?_⟩
  · simp only [released, untouched j hj]
  · rw [zero_add]
    refine Finset.sum_le_sum fun j hj => ?_
    have := rival.late t j hj (by rw [untouched j hj]; exact rival.pos j hj)
    have := rival.pos j hj
    simp only [released]
    split_ifs <;> omega

/-- A tick of the schedule works on one released job. -/
theorem tickReleased : Tick J (released rel t (Q t)) (released rel t (Q (t + 1))) := by
  obtain ⟨nonneg, ⟨i, single⟩, unit⟩ := rival.tick t
  refine ⟨fun j hj => ?_, ⟨i, fun j hj => ?_⟩, fun j hj => ?_⟩
  · have := nonneg j hj
    unfold released
    split_ifs <;> omega
  · have := single j hj
    unfold released
    split_ifs at this ⊢ <;> first | rfl | exact this
  · have := unit j hj
    unfold released
    split_ifs <;> omega

/-- The jobs that are released at `t + 1` join, after the tick from `t` on. -/
theorem join {rem' : Nat → Int} (nonneg : ∀ j ∈ J, 0 ≤ rem' j)
    (fresh : ∀ j ∈ J, t < rel j → rem' j = p j)
    (ahead : Ahead J (released rel t rem') (released rel t (Q (t + 1))))
    {total' : Int} (srpt : SrptAhead rel p C Q J rem t total)
    (cost_le : total' + ∑ j ∈ J, (if 0 < released rel t rem' j then t + 1 - rel j else 0) ≤
      total + ∑ j ∈ J, ((if 0 < released rel t rem j then t - rel j else 0) +
        if 0 < released rel t rem j then 1 else 0)) :
    SrptAhead rel p C Q J rem' (t + 1) total' := by
  have unfinished := srpt.ahead.unfinished_le
    (fun j hj => by have := srpt.nonneg j hj; unfold released; split_ifs <;> omega)
    (fun j hj => by have := rival.nonneg t j hj; unfold released; split_ifs <;> omega)
  refine ⟨nonneg, fun j hj later => fresh j hj (by omega), ?_, ?_⟩
  · refine (ahead.releaseAll (b := p) (J.filter fun j => rel j = t + 1) (Finset.filter_subset ..)
      (fun j hj => (rival.pos j (Finset.mem_filter.mp hj).1).le) (fun j hj => ?_)
      (fun j hj => ?_)).congr (fun j hj => ?_) fun j hj => ?_
    · have := (Finset.mem_filter.mp hj).2
      exact if_neg (by omega)
    · have := (Finset.mem_filter.mp hj).2
      exact if_neg (by omega)
    · have := fresh j hj
      simp only [Finset.mem_filter, hj, true_and, released]
      split_ifs <;> omega
    · have := rival.fresh (t + 1) j hj
      simp only [Finset.mem_filter, hj, true_and, released]
      split_ifs <;> omega
  · have mine : ∑ j ∈ J, (if 0 < released rel (t + 1) rem' j then t + 1 - rel j else 0) ≤
        ∑ j ∈ J, (if 0 < released rel t rem' j then t + 1 - rel j else 0) := by
      refine Finset.sum_le_sum fun j _ => ?_
      unfold released
      split_ifs <;> omega
    have other : ∑ j ∈ J, (released rel t (fun j => min (C j) t - rel j) j +
          if 0 < released rel t (Q t) j then 1 else 0) ≤
        ∑ j ∈ J, released rel (t + 1) (fun j => min (C j) (t + 1) - rel j) j := by
      refine Finset.sum_le_sum fun j hj => ?_
      have := rival.arrival_lt j hj
      have := rival.late t j hj
      simp only [released]
      split_ifs <;> omega
    rw [Finset.sum_add_distrib, Finset.sum_boole] at cost_le other
    have := srpt.cost_le
    omega

/-- A tick on the released job with the least work left. -/
theorem run {b : Nat} (srpt : SrptAhead rel p C Q J rem t total) (mem : b ∈ J) (pos : 0 < rem b)
    (due : rel b ≤ t) (least : ∀ j ∈ J, 0 < rem j → rel j ≤ t → rem b ≤ rem j) :
    SrptAhead rel p C Q J (Function.update rem b (rem b - 1)) (t + 1)
      (if rem b = 1 then total + (t + 1 - rel b) else total) := by
  have here : released rel t rem b = rem b := if_pos due
  refine rival.join (fun j hj => ?_) (fun j hj later => ?_) ?_ srpt ?_
  · by_cases same : j = b
    · subst same
      rw [Function.update_self]
      omega
    · rw [Function.update_of_ne same]
      exact srpt.nonneg j hj
  · rw [Function.update_of_ne (by rintro rfl; omega)]
    exact srpt.fresh j hj later
  · refine (srpt.ahead.tick mem (by omega) (fun j hj left => ?_) rival.tickReleased).congr
      (fun j hj => ?_)
      fun _ _ => rfl
    · unfold released at left ⊢
      split_ifs at left ⊢ with due'
      · exact least j hj left due'
      · omega
    · by_cases same : j = b
      · subst same
        rw [Function.update_self, here]
        simp [released, due]
      · rw [Function.update_of_ne same]
        simp [released, same]
  · have extra : (if rem b = 1 then total + (t + 1 - rel b) else total) =
        total + ∑ j ∈ J, if j = b then (if rem b = 1 then t + 1 - rel b else 0) else 0 := by
      rw [Finset.sum_ite_eq' J b, if_pos mem]
      split_ifs <;> omega
    rw [extra, add_assoc, ← Finset.sum_add_distrib]
    refine add_le_add_right (Finset.sum_le_sum fun j hj => ?_) total
    by_cases same : j = b
    · subst same
      simp only [released, due, if_true, Function.update_self]
      split_ifs <;> omega
    · simp only [released, if_neg same, Function.update_of_ne same]
      split_ifs <;> omega

/-- A tick without a released job that is not complete. -/
theorem idle (srpt : SrptAhead rel p C Q J rem t total) (done : ∀ j ∈ J, 0 < rem j → t < rel j) :
    SrptAhead rel p C Q J rem (t + 1) total := by
  have none : ∀ j ∈ J, ¬ 0 < released rel t rem j := by
    intro j hj left
    unfold released at left
    split_ifs at left with due
    · have := done j hj left
      omega
    · omega
  refine rival.join srpt.nonneg srpt.fresh (.idle (fun j hj => not_lt.mp (none j hj))
    rival.tickReleased.nonneg) srpt ?_
  refine add_le_add_right (Finset.sum_le_sum fun j hj => ?_) total
  simp [none j hj]

/-! ## Rounds -/

/-- A run of the job with the least work left, up to the next release or its completion. -/
theorem runs {b : Nat} (srpt : SrptAhead rel p C Q J rem t total) (mem : b ∈ J) (pos : 0 < rem b)
    (due : rel b ≤ t) (least : ∀ j ∈ J, 0 < rem j → rel j ≤ t → rem b ≤ rem j) (k : Nat)
    (le : k ≤ rem b) (quiet : ∀ j ∈ J, t < rel j → t + k ≤ rel j) :
    SrptAhead rel p C Q J (Function.update rem b (rem b - k)) (t + k)
      (if rem b = k then total + (t + k - rel b) else total) := by
  induction k with
  | zero =>
      rw [if_neg (by push_cast; omega)]
      simpa using srpt
  | succ k ih =>
      push_cast at le quiet
      have before := ih (by omega) fun j hj later => by have := quiet j hj later; omega
      rw [if_neg (by omega)] at before
      have next := rival.run (b := b) before mem (by rw [Function.update_self]; omega) (by omega)
        fun j hj left due' => ?_
      · rw [Function.update_self, Function.update_idem] at next
        push_cast
        rw [show rem b - ((k : Int) + 1) = rem b - k - 1 by omega, ← add_assoc]
        refine (congrArg (SrptAhead rel p C Q J _ _) (if_congr ?_ rfl rfl)).mp next
        omega
      · by_cases same : j = b
        · rw [same]
        · rw [Function.update_self]
          rw [Function.update_of_ne same] at left ⊢
          have := least j hj left (by by_contra! later; have := quiet j hj later; omega)
          omega

/-- The wait for the next release. -/
theorem idles (srpt : SrptAhead rel p C Q J rem t total) (k : Nat)
    (quiet : ∀ j ∈ J, 0 < rem j → t + k ≤ rel j) : SrptAhead rel p C Q J rem (t + k) total := by
  induction k with
  | zero => simpa using srpt
  | succ k ih =>
      push_cast at quiet
      have next := rival.idle (ih fun j hj left => by have := quiet j hj left; omega)
        fun j hj left => by have := quiet j hj left; omega
      push_cast
      rwa [← add_assoc]

end SrptRival

/-! ## The loop -/

/-- What a scan finds: the released job with the least work left, if any, and the next
release, if any. -/
structure ScanFinds (rem rel : Nat → Int) (t : Int) (jobs : List Nat) (start scan : SrptScan) :
    Prop where
  some_mem : ∀ b, scan.best = some b → start.best = some b ∨ (b ∈ jobs ∧ rem b ≠ 0 ∧ rel b ≤ t)
  least : ∀ b, scan.best = some b → ∀ j ∈ jobs, rem j ≠ 0 → rel j ≤ t → rem b ≤ rem j
  le_start : ∀ b, scan.best = some b → ∀ b₀, start.best = some b₀ → rem b ≤ rem b₀
  none_due : scan.best = none → start.best = none ∧ ∀ j ∈ jobs, rem j ≠ 0 → t < rel j
  next_le : scan.nextRelease ≤ start.nextRelease
  next_first : ∀ j ∈ jobs, rem j ≠ 0 → t < rel j → scan.nextRelease ≤ rel j
  next_attained : scan.nextRelease = start.nextRelease ∨
    ∃ j ∈ jobs, rem j ≠ 0 ∧ t < rel j ∧ scan.nextRelease = rel j

theorem ScanFinds.next_later {jobs : List Nat} {start scan : SrptScan}
    (finds : ScanFinds rem rel t jobs start scan) :
    scan.nextRelease = start.nextRelease ∨ t < scan.nextRelease :=
  finds.next_attained.imp_right fun ⟨_, _, _, later, eq⟩ => eq ▸ later

/-- The scan keeps the job `b`, which is `i` or the one it had, and goes on. -/
theorem ScanFinds.keep {jobs : List Nat} {start start' scan : SrptScan} {i b : Nat}
    (finds : ScanFinds rem rel t jobs start' scan) (kept : start'.best = some b)
    (next_eq : start'.nextRelease = start.nextRelease) (more : rem i ≠ 0) (due : rel i ≤ t)
    (origin : start.best = some b ∨ b = i) (le_i : rem b ≤ rem i)
    (le_start : ∀ b₀, start.best = some b₀ → rem b ≤ rem b₀) :
    ScanFinds rem rel t (i :: jobs) start scan := by
  refine ⟨fun c h => ?_, fun c h j hj left due' => ?_, fun c h b₀ h₀ => ?_, fun h => ?_,
    next_eq ▸ finds.next_le, fun j hj left later => ?_, next_eq ▸ finds.next_attained.imp_right
      fun ⟨j, hj, h⟩ => ⟨j, List.mem_cons_of_mem _ hj, h⟩⟩
  · rcases finds.some_mem c h with here | ⟨mem, h⟩
    · obtain rfl := Option.some.inj (kept.symm.trans here)
      refine origin.imp_right ?_
      rintro rfl
      exact ⟨List.mem_cons_self, more, due⟩
    · exact .inr ⟨List.mem_cons_of_mem _ mem, h⟩
  · rcases List.mem_cons.mp hj with rfl | hj
    · exact (finds.le_start c h _ kept).trans le_i
    · exact finds.least c h j hj left due'
  · exact (finds.le_start c h _ kept).trans (le_start b₀ h₀)
  · cases kept.symm.trans (finds.none_due h).1
  · rcases List.mem_cons.mp hj with rfl | hj
    · omega
    · exact finds.next_first j hj left later

theorem srptScan_finds (rem rel : Nat → Int) (t : Int) (jobs : List Nat) (start : SrptScan) :
    ScanFinds rem rel t jobs start (srptScan rem rel t jobs start) := by
  induction jobs generalizing start with
  | nil =>
      refine ⟨fun _ h => .inl
        h, by simp, fun b h b₀ h₀ => ?_, fun h => ⟨h, by simp⟩, le_rfl, by simp,
        .inl rfl⟩
      obtain rfl := Option.some.inj (h.symm.trans h₀)
      rfl
  | cons i rest ih =>
      rw [srptScan]
      by_cases used : rem i = 0
      · rw [if_pos used]
        obtain ⟨some_mem, least, le_start, none_due, next_le, next_first, next_attained⟩ := ih start
        have others : ∀ {j}, j ∈ i :: rest → rem j ≠ 0 → j ∈ rest := fun {j} hj left =>
          (List.mem_cons.mp hj).resolve_left (by rintro rfl; exact left used)
        exact ⟨fun b h => (some_mem b h).imp_right fun ⟨mem, h⟩ => ⟨List.mem_cons_of_mem _ mem, h⟩,
          fun b h j hj left => least b h j (others hj left) left, le_start,
          fun h => ⟨(none_due h).1, fun j hj left => (none_due h).2 j
            (others hj left) left⟩, next_le,
          fun j hj left => next_first j (others hj left) left,
          next_attained.imp_right fun ⟨j, hj, h⟩ => ⟨j, List.mem_cons_of_mem _ hj, h⟩⟩
      · rw [if_neg used]
        by_cases due : rel i ≤ t
        · rw [if_pos due]
          obtain ⟨best, next⟩ := start
          cases best with
          | none => exact (ih _).keep rfl rfl used due (.inr rfl) le_rfl (by simp)
          | some b =>
              dsimp only
              by_cases less : rem i < rem b
              · rw [if_pos less]
                refine (ih _).keep rfl rfl used due (.inr rfl) le_rfl fun b₀ h => ?_
                obtain rfl := Option.some.inj h
                exact less.le
              · rw [if_neg less]
                refine (ih _).keep rfl rfl used due (.inl rfl) (not_lt.mp less) fun b₀ h => ?_
                obtain rfl := Option.some.inj h
                rfl
        · rw [if_neg due]
          obtain ⟨some_mem, least, le_start, none_due, next_le, next_first, next_attained⟩ :=
            ih (if rel i < start.nextRelease then { start with nextRelease := rel i } else start)
          have best_eq : (if rel i < start.nextRelease then { start with nextRelease := rel i }
              else start).best = start.best := by split_ifs <;> rfl
          have next_eq : (if rel i < start.nextRelease then { start with nextRelease := rel i }
              else start).nextRelease = min start.nextRelease (rel i) := by
            split_ifs with less
            · exact (min_eq_right less.le).symm
            · exact (min_eq_left (not_lt.mp less)).symm
          rw [best_eq] at some_mem le_start none_due
          rw [next_eq] at next_le next_attained
          refine ⟨fun b h => (some_mem b h).imp_right fun ⟨mem, h⟩ =>
            ⟨List.mem_cons_of_mem _ mem, h⟩,
            fun b h j hj left due' => ?_, le_start, fun h => ⟨(none_due h).1, fun j hj left => ?_⟩,
            by omega, fun j hj left later => ?_, ?_⟩
          · rcases List.mem_cons.mp hj with rfl | hj
            · exact absurd due' due
            · exact least b h j hj left due'
          · rcases List.mem_cons.mp hj with rfl | hj
            · omega
            · exact (none_due h).2 j hj left
          · rcases List.mem_cons.mp hj with rfl | hj
            · omega
            · exact next_first j hj left later
          · rcases next_attained with eq | ⟨j, hj, h⟩
            · rcases min_choice start.nextRelease (rel i) with first | first
              · exact .inl (eq.trans first)
              · exact .inr ⟨i, List.mem_cons_self, used, not_le.mp due, eq.trans first⟩
            · exact .inr ⟨j, List.mem_cons_of_mem _ hj, h⟩

/-- The jobs with work left after one of them has run. -/
theorem card_unfinished_update {b : Nat} {x : Int} (mem : b ∈ J) (more : rem b ≠ 0) :
    (J.filter fun j => Function.update rem b x j ≠ 0).card =
      (J.filter fun j => rem j ≠ 0).card - if x = 0 then 1 else 0 := by
  split_ifs with done
  · rw [← Finset.card_erase_of_mem (Finset.mem_filter.mpr ⟨mem, more⟩)]
    congr 1
    ext j
    by_cases same : j = b
    · subst same
      simp [done]
    · simp [same]
  · congr 1
    ext j
    by_cases same : j = b
    · subst same
      simp [done, more]
    · simp [same]

/-- The loop of `srpt_bound` never exceeds the cost of a schedule. -/
theorem srptLoop_le {jobs : List Nat} (rival : SrptRival rel p C Q jobs.toFinset)
    (early : ∀ j ∈ jobs, rel j < int64Max) (fuel : Nat) {left : Nat}
    (left_eq : left = (jobs.toFinset.filter fun j => rem j ≠ 0).card)
    (srpt : SrptAhead rel p C Q jobs.toFinset rem t total) :
    srptLoop rel jobs fuel rem left t total ≤ ∑ j ∈ jobs.toFinset, (C j - rel j) := by
  have mem : ∀ {j}, j ∈ jobs ↔ j ∈ jobs.toFinset := fun {j} => List.mem_toFinset.symm
  induction fuel generalizing rem left t total with
  | zero => exact rival.total_le srpt
  | succ fuel ih =>
      rw [srptLoop]
      split_ifs
      · exact rival.total_le srpt
      · have finds := srptScan_finds rem rel t jobs ⟨none, int64Max⟩
        generalize srptScan rem rel t jobs ⟨none, int64Max⟩ = scan at finds ⊢
        dsimp only
        cases best : scan.best with
        | none =>
            -- some open job is left, so there is a next release
            obtain ⟨j, hj⟩ := Finset.card_pos.mp
              (by omega : 0 < (jobs.toFinset.filter fun j => rem j ≠ 0).card)
            obtain ⟨hj, more⟩ := Finset.mem_filter.mp hj
            have later := (finds.none_due best).2 j (mem.mpr hj) more
            have first := finds.next_first j (mem.mpr hj) more later
            have := early j (mem.mpr hj)
            have ahead : t < scan.nextRelease := finds.next_later.resolve_left (by simp only; omega)
            refine ih left_eq ?_
            have next := rival.idles srpt (scan.nextRelease - t).toNat fun i hi left => by
              have ahead := (finds.none_due best).2 i (mem.mpr hi) left.ne'
              have := finds.next_first i (mem.mpr hi) left.ne' ahead
              omega
            rwa [show t + ((scan.nextRelease - t).toNat : Int) = scan.nextRelease by omega] at next
        | some b =>
            obtain ⟨hb, more, due⟩ := (finds.some_mem b best).resolve_left (by simp)
            have hb := mem.mp hb
            have pos : 0 < rem b := lt_of_le_of_ne (srpt.nonneg b hb) more.symm
            obtain ⟨run, run_eq⟩ : ∃ run,
              (if scan.nextRelease ≠ int64Max ∧ scan.nextRelease - t < rem b then
              scan.nextRelease - t else rem b) = run := ⟨_, rfl⟩
            have run_pos : 0 < run ∧ run ≤ rem b ∧
                (scan.nextRelease ≠ int64Max → t + run ≤ scan.nextRelease) := by
              have := finds.next_later
              simp only at this
              split_ifs at run_eq <;> omega
            obtain ⟨run_pos, run_le, within⟩ := run_pos
            have next := rival.runs srpt hb pos due
              (fun j hj left due' => finds.least b best j (mem.mpr hj) left.ne' due') run.toNat
                (by omega)
              fun j hj later => by
                have first := finds.next_first j (mem.mpr hj)
                  (by rw [srpt.fresh j hj later]; exact (rival.pos j hj).ne') later
                have := early j (mem.mpr hj)
                have := within (by omega)
                omega
            rw [show (run.toNat : Int) = run by omega] at next
            simp only [run_eq, Function.update_self]
            by_cases done : rem b - run = 0
            · rw [if_pos done]
              rw [if_pos (by omega)] at next
              refine ih ?_ next
              rw [card_unfinished_update hb more, if_pos done, left_eq]
            · rw [if_neg done]
              rw [if_neg (by omega)] at next
              refine ih ?_ next
              rw [card_unfinished_update hb more, if_neg done, left_eq, Nat.sub_zero]

theorem openJobs_nodup (n mask : Nat) : (openJobs n mask).Nodup := List.nodup_range.filter _

/-- `srpt_bound` exceeds the cost of no order of the open jobs. -/
theorem srptBound_le {s : Search} {mask : Nat} {t : Int} (nonneg : ∀ j, 0 ≤ s.p j)
    (pos : ∀ j < s.n, 0 < s.p j) (early : ∀ j < s.n, s.r j < int64Max) {js : List Nat}
    (perm : js.Perm (openJobs s.n mask)) : srptBound s mask t ≤ orderCost s.r s.p t js := by
  obtain ⟨C, schedule, start_ge, cost⟩ := exists_schedule (r := s.r) nonneg
    (perm.nodup_iff.mpr (openJobs_nodup s.n mask)) t
  rw [List.toFinset_eq_of_perm _ _ perm] at schedule cost
  have inside : ∀ j ∈ openJobs s.n mask, j < s.n := fun j hj => (mem_openJobs.mp hj).1
  have pos : ∀ j ∈ (openJobs s.n mask).toFinset, 0 < s.p j :=
    fun j hj => pos j (inside j (List.mem_toFinset.mp hj))
  rw [← cost, srptBound]
  refine srptLoop_le (schedule.rival pos) (fun j hj => early j (inside j hj)) _ ?_
    ((schedule.rival pos).init fun j hj => ?_)
  · rw [Finset.filter_true_of_mem fun j hj => (pos j hj).ne',
      List.toFinset_card_of_nodup (openJobs_nodup s.n mask)]
  · have := start_ge j (perm.mem_iff.mpr (List.mem_toFinset.mp hj))
    have := pos j hj
    unfold leftAt
    omega

end CpuSched
