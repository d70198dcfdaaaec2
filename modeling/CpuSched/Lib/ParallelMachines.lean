import Mathlib.Algebra.BigOperators.Ring.Finset
import Mathlib.Algebra.Order.BigOperators.Group.Finset
import Mathlib.Data.Int.ConditionallyCompleteOrder
import Mathlib.Data.Int.Interval
import Mathlib.Tactic.Linarith
import Mathlib.Tactic.Ring

/-!
# Parallel machines

Jobs with release dates, lengths and times of rest, served tick by tick on identical
machines.  No schedule is over before its work and its longest job allow, and a job that
waits only while every machine serves another one does not wait long: at most twice the
span of any schedule is needed.
-/

namespace CpuSched

variable {ι : Type*} [DecidableEq ι]

/-- The ticks from the release to the end of a job during which it is on a machine. -/
noncomputable def servedTicks (m : Nat) (release finish : ι → Int)
    (run : Nat → Int → Option ι) (j : ι) :
    Finset Int :=
  (Finset.Ico (release j) (finish j)).filter fun t => ∃ c < m, run c t = some j

/-- The ticks from the release to the end of a job during which it is on no machine. -/
noncomputable def restTicks (m : Nat) (release finish : ι → Int)
    (run : Nat → Int → Option ι) (j : ι) :
    Finset Int :=
  (Finset.Ico (release j) (finish j)).filter fun t => ¬ ∃ c < m, run c t = some j

/-- `run c t` is the job on machine `c` during the tick from `t`.  Every job of `J` runs
between its release and its end, on one machine at a time, for its length, and is off the
machines for its rest. -/
structure ParallelSchedule (m : Nat) (J : Finset ι) (release length rest : ι → Int)
    (run : Nat → Int → Option ι) (finish : ι → Int) : Prop where
  inside : ∀ {c t j}, c < m → run c t = some j → j ∈ J
  window : ∀ {c t j}, c < m → run c t = some j → release j ≤ t ∧ t < finish j
  once : ∀ {c c' t j}, c < m → c' < m → run c t = some j → run c' t = some j → c = c'
  served : ∀ j ∈ J, ((servedTicks m release finish run j).card : Int) = length j
  rests : ∀ j ∈ J, rest j ≤ ((restTicks m release finish run j).card : Int)

namespace ParallelSchedule

variable {m : Nat} {J : Finset ι} {release length rest finish : ι → Int}
  {run : Nat → Int → Option ι} (schedule : ParallelSchedule m J release length rest run finish)
include schedule

/-- Between the release and the end of a job lie its length and the ticks off the
machines. -/
theorem finish_eq {j : ι} (mem : j ∈ J) (pos : 0 < length j) :
    finish j = release j + length j + ((restTicks m release finish run j).card : Int) := by
  have parts := Finset.card_filter_add_card_filter_not (s := Finset.Ico (release j) (finish j))
    fun t => ∃ c < m, run c t = some j
  have served := schedule.served j mem
  rw [Int.card_Ico] at parts
  simp only [servedTicks] at served
  simp only [restTicks]
  omega

/-- No job ends before its length and its rest have passed. -/
theorem release_add_le {j : ι} (mem : j ∈ J) (pos : 0 < length j) :
    release j + length j + rest j ≤ finish j := by
  have := schedule.finish_eq mem pos
  have := schedule.rests j mem
  omega

/-- The ticks of a job on one machine. -/
theorem card_served_le {j : ι} (mem : j ∈ J) {s : Finset Int}
    (window : ∀ c < m, ∀ t, run c t = some j → t ∈ s) :
    length j ≤ ∑ c ∈ Finset.range m, ((s.filter fun t => run c t = some j).card : Int) := by
  rw [← schedule.served j mem, ← Nat.cast_sum, Nat.cast_le]
  refine (Finset.card_le_card fun t ht => ?_).trans Finset.card_biUnion_le
  obtain ⟨-, c, hc, on⟩ := Finset.mem_filter.mp ht
  exact Finset.mem_biUnion.mpr
    ⟨c, Finset.mem_range.mpr hc, Finset.mem_filter.mpr ⟨window c hc t on, on⟩⟩

/-- On all machines together a job is served no longer than its length. -/
theorem le_length {j : ι} (mem : j ∈ J) (s : Finset Int) :
    ∑ c ∈ Finset.range m, ((s.filter fun t => run c t = some j).card : Int) ≤ length j := by
  have apart : ((Finset.range m : Finset Nat) : Set Nat).PairwiseDisjoint
      fun c => s.filter fun t => run c t = some j := by
    intro c hc c' hc' ne
    refine Finset.disjoint_filter.mpr fun t _ on on' => ne ?_
    exact schedule.once (Finset.mem_range.mp hc) (Finset.mem_range.mp hc') on on'
  rw [← schedule.served j mem, ← Nat.cast_sum, Nat.cast_le, ← Finset.card_biUnion apart]
  refine Finset.card_le_card fun t ht => ?_
  obtain ⟨c, hc, ht⟩ := Finset.mem_biUnion.mp ht
  have on := (Finset.mem_filter.mp ht).2
  have hc := Finset.mem_range.mp hc
  exact Finset.mem_filter.mpr ⟨Finset.mem_Ico.mpr (schedule.window hc on), c, hc, on⟩

omit [DecidableEq ι] schedule in
/-- A machine serves one job at a time. -/
theorem sum_machine_le [DecidableEq ι] (K : Finset ι) (c : Nat) (s : Finset Int) :
    ∑ j ∈ K, ((s.filter fun t => run c t = some j).card : Int) ≤ s.card := by
  have apart : (K : Set ι).PairwiseDisjoint fun j => s.filter fun t => run c t = some j := by
    intro j _ k _ ne
    refine Finset.disjoint_filter.mpr fun t _ on on' => ne ?_
    exact Option.some.inj (on.symm.trans on')
  rw [← Nat.cast_sum, Nat.cast_le, ← Finset.card_biUnion apart]
  exact Finset.card_le_card (Finset.biUnion_subset.mpr fun j _ => Finset.filter_subset _ _)

/-- The machines together have the capacity for all the work. -/
theorem total_le {first last : Int} (first_le : ∀ j ∈ J, first ≤ release j)
    (le_last : ∀ j ∈ J, finish j ≤ last) (le : first ≤ last) :
    ∑ j ∈ J, length j ≤ m * (last - first) := by
  calc ∑ j ∈ J, length j
      ≤ ∑ j ∈ J, ∑ c ∈ Finset.range m,
          (((Finset.Ico first last).filter fun t => run c t = some j).card : Int) := by
        refine Finset.sum_le_sum fun j mem => schedule.card_served_le mem fun c hc t on => ?_
        have := schedule.window hc on
        have := first_le j mem
        have := le_last j mem
        exact Finset.mem_Ico.mpr ⟨by omega, by omega⟩
    _ = ∑ c ∈ Finset.range m, ∑ j ∈ J,
          (((Finset.Ico first last).filter fun t => run c t = some j).card : Int) :=
        Finset.sum_comm
    _ ≤ ∑ _c ∈ Finset.range m, (last - first) := by
        refine Finset.sum_le_sum fun c _ => (sum_machine_le J c _).trans ?_
        rw [Int.card_Ico]
        omega
    _ = m * (last - first) := by rw [Finset.sum_const, Finset.card_range, nsmul_eq_mul]

/-- While a job waits only for machines that serve other jobs, the time it waits is at most
the other work over the number of machines. -/
theorem waiting_le {j : ι} {W : Finset Int}
    (busy : ∀ t ∈ W, ∀ c < m, ∃ k, k ≠ j ∧ run c t = some k) :
    m * (W.card : Int) ≤ ∑ k ∈ J.erase j, length k := by
  calc (m : Int) * W.card
      = ∑ _c ∈ Finset.range m, (W.card : Int) := by simp
    _ ≤ ∑ c ∈ Finset.range m, ∑ k ∈ J.erase j,
          ((W.filter fun t => run c t = some k).card : Int) := by
        refine Finset.sum_le_sum fun c hc => ?_
        have hc := Finset.mem_range.mp hc
        rw [← Nat.cast_sum, Nat.cast_le]
        refine (Finset.card_le_card fun t ht => ?_).trans Finset.card_biUnion_le
        obtain ⟨k, ne, on⟩ := busy t ht c hc
        exact Finset.mem_biUnion.mpr
          ⟨k, Finset.mem_erase.mpr ⟨ne, schedule.inside hc on⟩, Finset.mem_filter.mpr ⟨ht, on⟩⟩
    _ = ∑ k ∈ J.erase j, ∑ c ∈ Finset.range m,
          ((W.filter fun t => run c t = some k).card : Int) := Finset.sum_comm
    _ ≤ ∑ k ∈ J.erase j, length k :=
        Finset.sum_le_sum fun k mem => schedule.le_length (Finset.mem_of_mem_erase mem) W

end ParallelSchedule

/-! ## Two schedules of the same jobs -/

section Compare

variable {m : Nat} {J : Finset ι} {release length rest finish' : ι → Int}
  {run' : Nat → Int → Option ι} {first last : Int}
  (other : ParallelSchedule m J release length rest run' finish')
  (pos : ∀ j ∈ J, 0 < length j) (first_le : ∀ j ∈ J, first ≤ release j)
  (le_last : ∀ j ∈ J, finish' j ≤ last) {j : ι} (mem : j ∈ J) {wait : Int}
  (waits : m * wait ≤ ∑ k ∈ J.erase j, length k)
include other pos first_le le_last mem waits

/-- A job that ends its length, its rest and a short wait after its release ends within
twice the span of any other schedule. -/
theorem ParallelSchedule.span_le {ending : Int}
    (ending_eq : ending = release j + length j + rest j + wait) :
    m * (ending - first) + length j ≤ 2 * (m * (last - first)) := by
  have ends := other.release_add_le mem (pos j mem)
  have bound := le_last j mem
  have rest_nonneg := other.finish_eq mem (pos j mem)
  have released := first_le j mem
  have long := pos j mem
  have total := other.total_le first_le le_last (by omega)
  rw [← Finset.add_sum_erase J length mem] at total
  have reach : (m : Int) * (ending - first - wait) ≤ m * (last - first) :=
    mul_le_mul_of_nonneg_left (by omega) (Int.natCast_nonneg m)
  have split : (m : Int) * (ending - first) = m * (ending - first - wait) + m * wait := by ring
  linarith

/-- When all jobs are released at once and none rests, one span of the longest job less. -/
theorem ParallelSchedule.span_le_of_simultaneous {ending : Int} (machines : 0 < m)
    (at_once : ∀ k ∈ J, release k = first)
    (ending_eq : ending = release j + length j + wait) :
    m * (ending - first) ≤ (2 * m - 1) * (last - first) := by
  have ends := other.finish_eq mem (pos j mem)
  have bound := le_last j mem
  have released := at_once j mem
  have long := pos j mem
  have total := other.total_le first_le le_last (by omega)
  rw [← Finset.add_sum_erase J length mem] at total
  have fits : length j ≤ last - first := by omega
  have less : ((m : Int) - 1) * length j ≤ (m - 1) * (last - first) :=
    mul_le_mul_of_nonneg_left fits (by omega)
  have span_eq : ending - first = length j + wait := by omega
  rw [span_eq]
  linarith

end Compare

end CpuSched
