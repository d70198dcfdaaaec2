import CpuSched.Engine.Conserving
import CpuSched.Policies.SrtfOptimal

/-!
# Runs on one core

The timeline of a successful run on one core, read tick by tick, is a schedule of one CPU
that serves every process.
-/

namespace CpuSched

/-! ## Timelines tick by tick -/

/-- What runs in the tick from `t` on. -/
def runningAt (l : List Segment) (t : Int) : Option Nat :=
  (l.find? fun seg => seg.kind = .run ∧ seg.start ≤ t ∧ t < seg.stop).bind Segment.proc

theorem runningAt_iff {l : List Segment}
    (ordered : l.Pairwise fun a b => a.stop ≤ b.start) {p : Nat}
    {t : Int} : runningAt l t = some p ↔
      ∃ seg ∈ l, seg.kind = .run ∧ seg.proc = some p ∧ seg.start ≤ t ∧ t < seg.stop := by
  rw [runningAt, Option.bind_eq_some_iff]
  constructor
  · rintro ⟨seg, found, own⟩
    have here := List.find?_some found
    simp only [decide_eq_true_eq] at here
    exact ⟨seg, List.mem_of_find?_eq_some found, here.1, own, here.2⟩
  · rintro ⟨seg, mem, run, own, le, lt⟩
    cases found : l.find? fun seg => seg.kind = .run ∧ seg.start ≤ t ∧ t < seg.stop with
    | none => exact absurd (List.find?_eq_none.mp found seg mem) (by simp [run, le, lt])
    | some seg' =>
        have here := List.find?_some found
        simp only [decide_eq_true_eq] at here
        -- two segments of the timeline do not overlap
        have same : seg' = seg := by
          by_contra ne
          have apart : l.Pairwise (Apart Segment.start Segment.stop) := ordered.imp .inl
          have apart := apart.forall (List.mem_of_find?_eq_some found) mem ne
          unfold Apart at apart
          omega
        exact ⟨seg', rfl, same ▸ own⟩

/-- The runs of the first `n` processes take no more time than all runs, and as much only
if there are no others. -/
theorem sum_runTime_le (n : Nat) {l : List Segment} (pos : ∀ seg ∈ l, seg.start < seg.stop) :
    ∑ p ∈ Finset.range n, runTime p l ≤ kindTime .run l ∧
      (kindTime .run l ≤ ∑ p ∈ Finset.range n, runTime p l →
        ∀ seg ∈ l, seg.kind = .run → ∃ p < n, seg.proc = some p) := by
  induction l with
  | nil => simp [runTime, kindTime, segTime]
  | cons seg rest ih =>
      obtain ⟨le, inside⟩ := ih fun seg mem => pos seg (List.mem_cons_of_mem _ mem)
      have here : 0 < seg.length := by
        have := pos seg List.mem_cons_self
        unfold Segment.length
        omega
      have grow : ∀ p, runTime p (seg :: rest) =
          runTime p rest + if seg.kind = .run ∧ seg.proc = some p then seg.length else 0 := by
        intro p
        simp [runTime, segTime]
      have all : kindTime .run (seg :: rest) =
          kindTime .run rest + if seg.kind = .run then seg.length else 0 := by
        simp [kindTime, segTime]
      rw [Finset.sum_congr rfl fun p _ => grow p, Finset.sum_add_distrib, all]
      by_cases own : seg.kind = .run ∧ ∃ p < n, seg.proc = some p
      · obtain ⟨run, p, hp, own⟩ := own
        have one : ∑ q ∈ Finset.range n,
          (if seg.kind = .run ∧ seg.proc = some q then seg.length else 0) =
            seg.length := by
          simp [run, own, hp]
        rw [one, if_pos run]
        refine ⟨by omega, fun h seg' mem run' => ?_⟩
        rcases List.mem_cons.mp mem with rfl | mem
        · exact ⟨p, hp, own⟩
        · exact inside (by omega) seg' mem run'
      · have none : ∑ q ∈ Finset.range n,
          (if seg.kind = .run ∧ seg.proc = some q then seg.length else 0) =
            0 := by
          refine Finset.sum_eq_zero fun q hq => if_neg fun h =>
            own ⟨h.1, q, Finset.mem_range.mp hq, h.2⟩
        rw [none, add_zero]
        refine ⟨by split_ifs <;> omega, fun h seg' mem run' => ?_⟩
        rcases List.mem_cons.mp mem with rfl | mem
        · rw [if_pos run'] at h
          omega
        · exact inside (by split_ifs at h <;> omega) seg' mem run'

namespace Sim

variable {D : Type} {S : Sim D} {e : S.Eng} {sp : Nat → Spot} {r : SimResult}
    (final : Final S e sp r)
include final

/-- The runs on a single core are runs of the processes of the workload. -/
theorem Final.run_inside (one : S.opt.cores = 1) {seg : Segment} (mem : seg ∈ r.timelines 0)
    (run : seg.kind = .run) : ∃ p < S.w.len, seg.proc = some p := by
  have ledger := final.lives.ledger
  have tiled := final.tiled (c := 0) (by omega)
  have pos : ∀ seg ∈ r.timelines 0, seg.start < seg.stop := fun seg mem =>
    tiled.lt seg (List.mem_reverse.mpr mem)
  have kept : ∀ (f : SegmentKind → Option Nat → Bool), (∀ p, f .idle p = false) →
      segTime f (r.timelines 0) = segTime f (e.timelines 0) := by
    intro f noIdle
    rw [final.timelines 0 (by omega), segTime_reverse, idleRecord,
      segTime_record f (final.since 0 (by omega))]
    simp [noIdle]
  have all := ledger.allRuns
  have each := ledger.runs
  simp only [one, Finset.sum_range_one] at all each
  refine (sum_runTime_le S.w.len pos).2 ?_ seg mem run
  rw [kindTime, kept _ (by simp), ← kindTime, all]
  refine (Finset.sum_congr rfl fun p _ => ?_).le
  rw [← each p]
  exact (kept _ (by simp)).symm

/-- What runs on a single core is a schedule in which every process completes as in the
result, if the processes have a single burst. -/
theorem Final.feasible (one : S.opt.cores = 1)
    (oneBurst : ∀ p < S.w.len, (S.w.proc p).phaseCount = 1) :
    Feasible S.w (runningAt (r.timelines 0)) ∧
      ∀ p < S.w.len, completionOf (runningAt (r.timelines 0)) p = (r.outcomes p).completion := by
  have ordered := final.ordered (c := 0) (by omega)
  have running : ∀ {p t}, runningAt (r.timelines 0) t = some p ↔
      Covers Segment.start Segment.stop (runsOf S.opt.cores r.timelines p) t := by
    intro p t
    rw [runningAt_iff ordered]
    constructor
    · rintro ⟨seg, mem, run, own, h⟩
      exact ⟨seg, mem_runsOf.mpr ⟨⟨0, by omega, mem, own⟩, run⟩, h⟩
    · rintro ⟨seg, mem, h⟩
      obtain ⟨⟨c, hc, mem, own⟩, run⟩ := mem_runsOf.mp mem
      obtain rfl : c = 0 := by omega
      exact ⟨seg, mem, run, own, h⟩
  have ticks : ∀ p < S.w.len, ({t | runningAt (r.timelines 0) t = some p}.ncard : Int) =
      (S.w.proc p).burst ∧ IsGreatest {t | runningAt (r.timelines 0) t = some p}
        ((r.outcomes p).completion - 1) := by
    intro p hp
    obtain ⟨ends, m, life, all, -, completion, bound⟩ := final.life hp
    obtain rfl : m = 0 := by have := oneBurst p hp; omega
    constructor
    · classical
      have inside : ∀ seg ∈ runsOf S.opt.cores r.timelines p, Finset.Ico seg.start seg.stop ⊆
          Finset.Ico (S.w.proc p).arrival (r.outcomes p).completion := by
        intro seg mem
        obtain ⟨⟨c, here⟩, -⟩ := mem_runsOf.mp mem
        exact Finset.Ico_subset_Ico (life.bounded here).1 (bound here)
      have covered := card_covered Segment.start Segment.stop
        (l := runsOf S.opt.cores r.timelines p)
        (fun seg mem => by
          obtain ⟨⟨c, here⟩, -⟩ := mem_runsOf.mp mem
          exact (life.pos here).le)
        ((life.busy_apart fun c hc => final.ordered hc).filter _) inside
      rw [life.sum_runs (final.valid.proc hp) all fun here => completion ▸ bound here] at covered
      rw [← covered, ← Set.ncard_coe_finset]
      congr 2
      ext t
      simp only [Set.mem_ofPred_eq, running, Finset.coe_filter, iff_and_self]
      rintro ⟨seg, mem, le, lt⟩
      exact inside seg mem (Finset.mem_Ico.mpr ⟨le, lt⟩)
    · obtain ⟨c, seg, here, run, stop_eq⟩ := life.closed Nat.one_pos
      have pos := life.pos here
      refine ⟨running.mpr ⟨seg, mem_runsOf.mpr ⟨⟨c, here⟩, run⟩, by omega, by omega⟩, fun t ht =>
        ?_⟩
      obtain ⟨seg', mem, le, lt⟩ := running.mp ht
      obtain ⟨⟨c', here'⟩, -⟩ := mem_runsOf.mp mem
      have := bound here'
      omega
  refine ⟨⟨fun t p runs => ?_, fun p hp => (ticks p hp).1⟩, fun p hp => ?_⟩
  · obtain ⟨seg, mem, run, own, le, lt⟩ := (runningAt_iff ordered).mp runs
    obtain ⟨q, hq, own'⟩ := final.run_inside one mem run
    obtain rfl : q = p := Option.some.inj (own'.symm.trans own)
    obtain ⟨ends, m, life, -⟩ := final.life hq
    have := (life.bounded ⟨by omega, mem, own⟩ : _ ∧ _).1
    exact ⟨hq, this.trans le⟩
  · rw [completionOf, (ticks p hp).2.csSup_eq]
    omega

end Sim

end CpuSched
