import CpuSched.Policies.OneCpu
import CpuSched.Policies.OptNpBound

/-!
# Two implementations of the shortest remaining time first

The loop of `srpt_bound` builds a schedule and returns its sum of turnaround times, and so
does a run of SRTF.  Neither sum exceeds that of any schedule, so the two agree, whatever
each of them does about ties.
-/

namespace CpuSched

variable {rel rem : Nat → Int} {J : Finset Nat} {t : Int}

/-! ## The schedule of the loop -/

/-- From `t` on, `σ` serves what is left of the released jobs; they complete at `C`. -/
structure Serves (rel rem : Nat → Int) (J : Finset Nat) (t : Int) (σ : Int → Option Nat)
    (C : Nat → Int) : Prop where
  released : ∀ u j, σ u = some j → j ∈ J ∧ rel j ≤ u ∧ t ≤ u
  finite : ∀ j ∈ J, {u | σ u = some j}.Finite
  served : ∀ j ∈ J, ({u | σ u = some j}.ncard : Int) = rem j
  last : ∀ j ∈ J, rem j ≠ 0 → IsGreatest {u | σ u = some j} (C j - 1)

/-- What the jobs with work left will have cost. -/
def costLeft (rel rem C : Nat → Int) (J : Finset Nat) : Int :=
  ∑ j ∈ J, if rem j = 0 then 0 else C j - rel j

/-- Nothing is left to serve. -/
theorem exists_serves_done (rel : Nat → Int) (t : Int)
    (none : (J.filter fun j => rem j ≠ 0).card = 0) :
    ∃ σ C, Serves rel rem J t σ C ∧ costLeft rel rem C J = 0 := by
  have none_left : ∀ j ∈ J, rem j = 0 := by
    simpa [Finset.filter_eq_empty_iff] using Finset.card_eq_zero.mp none
  refine ⟨fun _ => .none, fun _ => 0,
    ⟨nofun, fun j _ => by simp, fun j hj => by simp [none_left j hj],
    fun j hj left => absurd (none_left j hj) left⟩, Finset.sum_eq_zero fun j hj =>
      if_pos (none_left j hj)⟩

/-- The schedule waits. -/
theorem Serves.wait {σ : Int → Option Nat} {C : Nat → Int} {t' : Int}
    (serves : Serves rel rem J t' σ C)
    (le : t ≤ t') : Serves rel rem J t σ C :=
  { serves with released := fun u j h => (serves.released u j h).imp id (.imp id le.trans) }

/-- The schedule runs a job first. -/
theorem Serves.run {σ : Int → Option Nat} {C : Nat → Int} {b : Nat} {run : Int} (mem : b ∈ J)
    (due : rel b ≤ t) (pos : 0 < run)
    (serves : Serves rel (Function.update rem b (rem b - run)) J (t + run) σ C) :
    Serves rel rem J t (fun u => if t ≤ u ∧ u < t + run then some b else σ u)
      (if rem b - run = 0 then Function.update C b (t + run) else C) := by
  have own : {u | (if t ≤ u ∧ u < t + run then some b else σ u) = some b} =
      Set.Ico t (t + run) ∪ {u | σ u = some b} := by
    ext u
    simp only [Set.mem_ofPred_eq, Set.mem_union, Set.mem_Ico]
    split_ifs with here <;> simp [here]
  have others : ∀ j, j ≠ b → {u | (if t ≤ u ∧ u < t + run then some b else σ u) = some j} =
      {u | σ u = some j} := by
    intro j ne
    ext u
    simp only [Set.mem_ofPred_eq]
    split_ifs with here
    · refine ⟨fun h => absurd (Option.some.inj h).symm ne, fun h => ?_⟩
      have := (serves.released u j h).2.2
      omega
    · rfl
  have apart : Disjoint (Set.Ico t (t + run)) {u | σ u = some b} := by
    refine Set.disjoint_left.mpr fun u here h => ?_
    have := (serves.released u b h).2.2
    have := here.2
    omega
  have left : (({u | σ u = some b}.ncard : Nat) : Int) = rem b - run := by
    rw [serves.served b mem, Function.update_self]
  constructor
  · intro u j h
    split_ifs at h with here
    · obtain rfl := Option.some.inj h
      exact ⟨mem, due.trans here.1, here.1⟩
    · have := serves.released u j h
      exact ⟨this.1, this.2.1, by omega⟩
  · intro j hj
    by_cases same : j = b
    · rw [same, own]
      exact (Set.finite_Ico ..).union (serves.finite b mem)
    · rw [others j same]
      exact serves.finite j hj
  · intro j hj
    by_cases same : j = b
    · have width : (Set.Ico t (t + run)).ncard = run.toNat := by
        rw [← Finset.coe_Ico, Set.ncard_coe_finset, Int.card_Ico, add_sub_cancel_left]
      rw [same, own, Set.ncard_union_eq apart (Set.finite_Ico ..) (serves.finite b mem), width]
      push_cast
      omega
    · rw [others j same, serves.served j hj, Function.update_of_ne same]
  · intro j hj more
    by_cases same : j = b
    · subst same
      rw [own]
      split_ifs with all
      · rw [all] at left
        have empty : {u | σ u = some j} = ∅ :=
          (Set.ncard_eq_zero (serves.finite j mem)).mp (by omega)
        rw [empty, Set.union_empty, Function.update_self]
        exact ⟨⟨by omega, by omega⟩, fun u hu => by have := hu.2; omega⟩
      · obtain ⟨here, greatest⟩ := serves.last j mem (by rwa [Function.update_self])
        refine ⟨.inr here, fun u hu => ?_⟩
        rcases hu with hu | hu
        · have := (serves.released _ j here).2.2
          have := hu.2
          omega
        · exact greatest hu
    · rw [others j same]
      have := serves.last j hj (by rwa [Function.update_of_ne same])
      split_ifs
      · rwa [Function.update_of_ne same]
      · exact this

/-- The first run of a job in the cost. -/
theorem costLeft_run {C : Nat → Int} {b : Nat} {run : Int} (mem : b ∈ J) (more : rem b ≠ 0) :
    costLeft rel rem (if rem b - run = 0 then Function.update C b (t + run) else C) J =
      (if rem b - run = 0 then t + run - rel b else 0) +
        costLeft rel (Function.update rem b (rem b - run)) C J := by
  have before := Finset.sum_erase_add J (fun j => if rem j = 0 then 0 else
    (if rem b - run = 0 then Function.update C b (t + run) else C) j - rel j) mem
  have after := Finset.sum_erase_add J
    (fun j => if Function.update rem b (rem b - run) j = 0 then 0 else C j - rel j) mem
  simp only [if_neg more, Function.update_self] at before after
  have rest : ∑ j ∈ J.erase b, (if rem j = 0 then 0 else
        (if rem b - run = 0 then Function.update C b (t + run) else C) j - rel j) =
      ∑ j ∈ J.erase b, if Function.update rem b (rem b - run) j = 0 then 0 else C j - rel j := by
    refine Finset.sum_congr rfl fun j hj => ?_
    have ne := Finset.ne_of_mem_erase hj
    rw [Function.update_of_ne ne]
    split_ifs
    · rfl
    · rw [Function.update_of_ne ne]
    · rfl
  rw [costLeft, costLeft, ← before, ← after, rest]
  split_ifs
  · rw [Function.update_self]
    ring
  · ring

/-- The rounds that the loop still takes, at most: one for each job that has work left and
one for each of them that is not released. -/
def roundsLeft (rel rem : Nat → Int) (J : Finset Nat) (t : Int) : Nat :=
  (J.filter fun j => rem j ≠ 0).card + (J.filter fun j => rem j ≠ 0 ∧ t < rel j).card

theorem roundsLeft_le (rel rem : Nat → Int) (J : Finset Nat) (t : Int) :
    roundsLeft rel rem J t ≤ 2 * J.card := by
  have unfinished := Finset.card_filter_le J fun j => rem j ≠ 0
  have waiting := Finset.card_filter_le J fun j => rem j ≠ 0 ∧ t < rel j
  unfold roundsLeft
  omega

theorem roundsLeft_release {t' : Int} (le : t ≤ t') {j : Nat} (mem : j ∈ J) (more : rem j ≠ 0)
    (later : t < rel j) (now : rel j = t') :
    roundsLeft rel rem J t' < roundsLeft rel rem J t := by
  refine Nat.add_lt_add_left (Finset.card_lt_card ⟨fun i hi => ?_, fun sub => ?_⟩) _
  · simp only [Finset.mem_filter] at hi ⊢
    exact ⟨hi.1, hi.2.1, le.trans_lt hi.2.2⟩
  · have := (Finset.mem_filter.mp (sub (Finset.mem_filter.mpr ⟨mem, more, later⟩))).2.2
    omega

/-- A run that leaves work ends with a release, and any other with a completion. -/
theorem roundsLeft_run {run : Int} (t : Int) {b : Nat} (mem : b ∈ J) (more : rem b ≠ 0)
    (pos : 0 < run)
    (release : rem b - run ≠ 0 → ∃ i ∈ J, rem i ≠ 0 ∧ t < rel i ∧ rel i = t + run) :
    roundsLeft rel (Function.update rem b (rem b - run)) J (t + run) < roundsLeft rel rem J t := by
  by_cases done : rem b - run = 0
  · refine Nat.add_lt_add_of_lt_of_le (Finset.card_lt_card ⟨fun j hj => ?_, fun sub => ?_⟩)
      (Finset.card_le_card fun j hj => ?_)
    · obtain ⟨hj, left⟩ := Finset.mem_filter.mp hj
      have ne : j ≠ b := by
        rintro rfl
        rw [Function.update_self] at left
        exact left done
      rw [Function.update_of_ne ne] at left
      exact Finset.mem_filter.mpr ⟨hj, left⟩
    · have := (Finset.mem_filter.mp (sub (Finset.mem_filter.mpr ⟨mem, more⟩))).2
      rw [Function.update_self] at this
      exact this done
    · obtain ⟨hj, left, later⟩ := Finset.mem_filter.mp hj
      have ne : j ≠ b := by
        rintro rfl
        rw [Function.update_self] at left
        exact left done
      rw [Function.update_of_ne ne] at left
      exact Finset.mem_filter.mpr ⟨hj, left, by omega⟩
  · obtain ⟨i, hi, left, later, eq⟩ := release done
    have same : ∀ j, Function.update rem b (rem b - run) j ≠ 0 ↔ rem j ≠ 0 := by
      intro j
      by_cases eq : j = b
      · rw [eq, Function.update_self]
        exact iff_of_true done more
      · rw [Function.update_of_ne eq]
    simp only [roundsLeft, same]
    exact roundsLeft_release (by omega) hi left later eq

/-- The loop of `srpt_bound` ends with the cost of a schedule. -/
theorem srptLoop_serves {jobs : List Nat} (early : ∀ j ∈ jobs, rel j < int64Max) (fuel : Nat)
    {left : Nat} {a : Int} (left_eq : left = (jobs.toFinset.filter fun j => rem j ≠ 0).card)
    (nonneg : ∀ j ∈ jobs, 0 ≤ rem j) (enough : roundsLeft rel rem jobs.toFinset t ≤ fuel) :
    ∃ σ C, Serves rel rem jobs.toFinset t σ C ∧
      srptLoop rel jobs fuel rem left t a = a + costLeft rel rem C jobs.toFinset := by
  have mem : ∀ {j}, j ∈ jobs ↔ j ∈ jobs.toFinset := fun {j} => List.mem_toFinset.symm
  induction fuel generalizing rem left t a with
  | zero =>
      have none : (jobs.toFinset.filter fun j => rem j ≠ 0).card = 0 := by
        unfold roundsLeft at enough
        omega
      obtain ⟨σ, C, serves, cost⟩ := exists_serves_done rel t none
      exact ⟨σ, C, serves, by rw [cost, add_zero]; rfl⟩
  | succ fuel ih =>
      rw [srptLoop]
      split_ifs with empty
      · obtain ⟨σ, C, serves, cost⟩ := exists_serves_done rel t (left_eq.symm.trans empty)
        exact ⟨σ, C, serves, by rw [cost, add_zero]⟩
      · have finds := srptScan_finds rem rel t jobs ⟨none, int64Max⟩
        generalize srptScan rem rel t jobs ⟨none, int64Max⟩ = scan at finds ⊢
        dsimp only
        cases best : scan.best with
        | none =>
            obtain ⟨j, hj⟩ := Finset.card_pos.mp
              (by omega : 0 < (jobs.toFinset.filter fun j => rem j ≠ 0).card)
            obtain ⟨hj, more⟩ := Finset.mem_filter.mp hj
            have first := finds.next_first j (mem.mpr hj) more
              ((finds.none_due best).2 j (mem.mpr hj) more)
            have := early j (mem.mpr hj)
            obtain ⟨i, hi, more, later, eq⟩ :=
              finds.next_attained.resolve_left (by simp only; omega)
            have less := roundsLeft_release (by omega : t ≤ scan.nextRelease) (mem.mp hi)
              more later eq.symm
            obtain ⟨σ, C, serves, cost⟩ := ih (a := a) (t := scan.nextRelease) left_eq nonneg
              (by omega)
            exact ⟨σ, C, serves.wait (by omega), cost⟩
        | some b =>
            obtain ⟨hb, more, due⟩ := (finds.some_mem b best).resolve_left (by simp)
            have pos : 0 < rem b := lt_of_le_of_ne (nonneg b hb) more.symm
            obtain ⟨run, run_eq⟩ : ∃ run,
              (if scan.nextRelease ≠ int64Max ∧ scan.nextRelease - t < rem b then
              scan.nextRelease - t else rem b) = run := ⟨_, rfl⟩
            have later := finds.next_later
            have run_pos : 0 < run ∧ run ≤ rem b ∧
                (rem b - run ≠ 0 → scan.nextRelease ≠ int64Max ∧ scan.nextRelease = t + run) := by
              simp only at later
              split_ifs at run_eq <;> omega
            obtain ⟨run_pos, run_le, cut⟩ := run_pos
            have less : roundsLeft rel (Function.update rem b (rem b - run)) jobs.toFinset
              (t + run) <
                roundsLeft rel rem jobs.toFinset t :=
                  roundsLeft_run t (mem.mp hb) more run_pos fun unfinished => by
              obtain ⟨ne, eq⟩ := cut unfinished
              obtain ⟨i, hi, left, later, first⟩ := finds.next_attained.resolve_left ne
              exact ⟨i, mem.mp hi, left, later, by omega⟩
            have nonneg' : ∀ j ∈ jobs, 0 ≤ Function.update rem b (rem b - run) j := by
              intro j hj
              by_cases same : j = b
              · rw [same, Function.update_self]
                omega
              · rw [Function.update_of_ne same]
                exact nonneg j hj
            have left_eq' := card_unfinished_update (x := rem b - run) (mem.mp hb) more
            simp only [run_eq, Function.update_self]
            split_ifs with done
            · rw [if_pos done] at left_eq'
              obtain ⟨σ, C, serves, cost⟩ := ih (t := t + run) (a := a + (t + run - rel b))
                (left_eq ▸ left_eq'.symm) nonneg' (by omega)
              refine ⟨_, _, serves.run (mem.mp hb) due run_pos, ?_⟩
              rw [costLeft_run (mem.mp hb) more, if_pos done, cost, add_assoc]
            · rw [if_neg done, Nat.sub_zero] at left_eq'
              obtain ⟨σ, C, serves, cost⟩ := ih (t := t + run) (a := a)
                (left_eq.trans left_eq'.symm) nonneg'
                (by omega)
              refine ⟨_, _, serves.run (mem.mp hb) due run_pos, ?_⟩
              rw [costLeft_run (mem.mp hb) more, if_neg done, cost, zero_add]

/-! ## Schedules as rivals -/

/-- A preemptive schedule of the jobs is a rival of the loop. -/
theorem Serves.rival {σ : Int → Option Nat} {C : Nat → Int} (serves : Serves rel rem J t σ C)
    (pos : ∀ j ∈ J, 0 < rem j) :
    SrptRival rel rem C (fun u j => rem j - ticksBefore σ j u) J where
  pos := pos
  fresh u j _ le := by
    rw [ticksBefore_eq_zero fun v hv => le.trans (serves.released v j hv).2.1, sub_zero]
  tick u := by
    refine ⟨fun j hj => ?_, ⟨(σ u).getD 0, fun j hj => ?_⟩, fun j hj => ?_⟩
    · have := ticksBefore_le_ncard (serves.finite j hj) (u + 1)
      have := serves.served j hj
      omega
    · split_ifs with same
      · rfl
      · rw [ticksBefore_add_one (serves.finite j hj), if_neg, add_zero]
        intro runs
        rw [runs] at same
        exact same rfl
    · have := ticksBefore_add_one (serves.finite j hj) u
      split_ifs at this <;> omega
  late u j hj left := by
    by_contra! done
    have ran := ticksBefore_eq_ncard (σ := σ) (p := j) (t := u) fun v hv => by
      have := (serves.last j hj (pos j hj).ne').2 hv
      omega
    have := serves.served j hj
    omega

section Bound

variable {s : Search} (pos : ∀ j < s.n, 0 < s.p j) (early : ∀ j < s.n, s.r j < int64Max)
include pos early

/-- `srpt_bound` returns the sum of the turnaround times of a schedule of the open jobs. -/
theorem srptBound_serves (mask : Nat) (t : Int) :
    ∃ σ C, Serves s.r s.p (openJobs s.n mask).toFinset t σ C ∧
    srptBound s mask t = ∑ j ∈ (openJobs s.n mask).toFinset, (C j - s.r j) := by
  have card : (openJobs s.n mask).toFinset.card = (openJobs s.n mask).length :=
    List.toFinset_card_of_nodup (openJobs_nodup s.n mask)
  have untouched : (openJobs s.n mask).toFinset.filter (fun j => s.p j ≠ 0) =
    (openJobs s.n mask).toFinset :=
    Finset.filter_true_of_mem fun j hj => (pos j (mem_openJobs.mp (List.mem_toFinset.mp hj)).1).ne'
  have enough := roundsLeft_le s.r s.p (openJobs s.n mask).toFinset t
  obtain ⟨σ, C, serves, total⟩ := srptLoop_serves (t := t) (a := 0)
    (fun j hj => early j (mem_openJobs.mp hj).1) (3 * (openJobs s.n mask).length)
    (by rw [untouched, card]) (fun j hj => (pos j (mem_openJobs.mp hj).1).le) (by omega)
  refine ⟨σ, C, serves, total.trans ((zero_add _).trans (Finset.sum_congr rfl fun j hj => ?_))⟩
  rw [if_neg (pos j (mem_openJobs.mp (List.mem_toFinset.mp hj)).1).ne']

/-- `srpt_bound` exceeds the sum of no schedule of the open jobs. -/
theorem srptBound_le_serves {mask : Nat} {t : Int} {σ : Int → Option Nat} {C : Nat → Int}
    (serves : Serves s.r s.p (openJobs s.n mask).toFinset t σ C) :
    srptBound s mask t ≤ ∑ j ∈ (openJobs s.n mask).toFinset, (C j - s.r j) := by
  have card : (openJobs s.n mask).toFinset.card = (openJobs s.n mask).length :=
    List.toFinset_card_of_nodup (openJobs_nodup s.n mask)
  have pos : ∀ j ∈ (openJobs s.n mask).toFinset, 0 < s.p j := fun j hj =>
    pos j (mem_openJobs.mp (List.mem_toFinset.mp hj)).1
  have rival := serves.rival pos
  refine srptLoop_le rival (fun j hj => early j (mem_openJobs.mp hj).1) _ ?_
    (rival.init fun j hj => ?_)
  · rw [Finset.filter_true_of_mem fun j hj => (pos j hj).ne', card]
  · rw [ticksBefore_eq_zero fun u hu => (serves.released u j hu).2.2, sub_zero]

end Bound

/-- A preemptive schedule of the workload serves its bursts from time 0 on. -/
theorem Feasible.serves {w : Workload} {σ : Int → Option Nat} (valid : w.Valid)
    (feasible : Feasible w σ) :
    Serves (fun p => (w.proc p).arrival) (fun p => (w.proc p).burst) (Finset.range w.len) 0 σ
      (completionOf σ) where
  released u p runs := by
    obtain ⟨hp, due⟩ := feasible.released u p runs
    exact ⟨Finset.mem_range.mpr hp, due, (valid.proc hp).arrival_nonneg.trans due⟩
  finite p hp := feasible.finite valid (Finset.mem_range.mp hp)
  served p hp := feasible.served p (Finset.mem_range.mp hp)
  last p hp _ := feasible.last valid (Finset.mem_range.mp hp)

/-- The schedule of the loop is one of the workload. -/
theorem Serves.feasible {w : Workload} {σ : Int → Option Nat} {C : Nat → Int} (valid : w.Valid)
    (serves : Serves (fun p => (w.proc p).arrival) (fun p => (w.proc p).burst)
      (Finset.range w.len) t σ C) :
    Feasible w σ ∧ ∀ p < w.len, completionOf σ p = C p := by
  refine ⟨⟨fun u p runs => ?_, fun p hp => serves.served p
    (Finset.mem_range.mpr hp)⟩, fun p hp => ?_⟩
  · obtain ⟨hp, due, -⟩ := serves.released u p runs
    exact ⟨Finset.mem_range.mp hp, due⟩
  · rw [completionOf, (serves.last p (Finset.mem_range.mpr hp)
      (valid.proc hp).burst_pos.ne').csSup_eq]
    omega

namespace Sim

variable {D : Type} [Double D] {S : Sim D}

/-- At the root of the search `srpt_bound` returns the sum of the turnaround times of a run
of SRTF on one core, without I/O and without a switch cost. -/
theorem srptBound_eq_srtf (oneBurst : ∀ p < S.w.len, (S.w.proc p).phaseCount = 1)
    (one : S.opt.cores = 1) (free : S.opt.csCost = 0) (oracle : S.opt.predict = .oracle)
    {r : SimResult} (success : (S.withPolicy policySrtf).simRun = .ok r) :
    srptBound (initSearch S.initView) 0 0 =
      ∑ p ∈ Finset.range S.w.len, ((r.outcomes p).completion - (S.w.proc p).arrival) := by
  obtain ⟨state, started⟩ := started_of_ok success
  have launched := srtf_launched started
  have valid : S.w.Valid := launched.valid
  obtain ⟨e, sp, final, -⟩ := launched.keeps started success .true
  have jobs : (openJobs S.w.len 0).toFinset = Finset.range S.w.len := by
    ext p
    simp [openJobs]
  have pos : ∀ p < (initSearch S.initView).n, 0 < (initSearch S.initView).p p := fun p hp =>
    (valid.proc hp).burst_pos
  have early : ∀ p < (initSearch S.initView).n, (initSearch S.initView).r p <
    int64Max := fun p hp =>
    valid.arrival_lt hp
  apply le_antisymm
  · -- the run is a schedule, and the loop is ahead of it
    obtain ⟨feasible, completions⟩ := final.feasible one oneBurst
    have serves := feasible.serves valid
    rw [← jobs] at serves
    refine (srptBound_le_serves pos early serves).trans ((Finset.sum_congr jobs fun p hp => ?_).le)
    rw [completions p (Finset.mem_range.mp hp)]
    rfl
  · -- the loop builds a schedule, and the run is ahead of it
    obtain ⟨σ, C, serves, total⟩ := srptBound_serves pos early 0 0
    have whole : Serves (fun p => (S.w.proc p).arrival) (fun p => (S.w.proc p).burst)
        (Finset.range S.w.len) 0 σ C := jobs ▸ serves
    obtain ⟨feasible, completions⟩ := whole.feasible valid
    have least := srtf_completions_le oneBurst one free oracle success feasible
    rw [Finset.sum_sub_distrib]
    refine (sub_le_sub_right least _).trans_eq ?_
    rw [← Finset.sum_sub_distrib]
    refine Eq.trans (Finset.sum_congr jobs.symm fun p hp => ?_) total.symm
    rw [completions p (Finset.mem_range.mp (jobs ▸ hp))]
    rfl

/-- The two agree on two processes at once. -/
theorem pairSim_srptBound : ∃ r, (pairSim.withPolicy policySrtf).simRun = .ok r ∧
    srptBound (initSearch pairSim.initView) 0 0 =
      ∑ p ∈ Finset.range 2, ((r.outcomes p).completion - (twoThenOne.proc p).arrival) := by
  obtain ⟨r, success⟩ := pairSim_succeeds
  refine ⟨r, success, srptBound_eq_srtf (S := pairSim) (fun p hp => ?_) rfl rfl rfl success⟩
  have hp : p < 2 := hp
  obtain rfl | rfl : p = 0 ∨ p = 1 := by omega
  · rfl
  · rfl

end Sim

end CpuSched
