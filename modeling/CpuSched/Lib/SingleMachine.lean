import CpuSched.Util.Intervals
import Mathlib.Algebra.BigOperators.Group.Finset.Basic
import Mathlib.Algebra.Order.BigOperators.Group.Finset
import Mathlib.Data.List.Sort
import Mathlib.Data.Finset.Sort

/-!
# One machine without preemption

Jobs with release dates and lengths.  An order runs them one after another, each as
early as possible; its cost is the sum of the times from release to completion.  Any
schedule without preemption costs at least as much as the order of its completions.
-/

namespace CpuSched

variable {ι : Type*} {r p : ι → Int}

/-- The sum of the times from release to completion, when the jobs run in order from
`t` on, each as early as possible. -/
def orderCost (r p : ι → Int) : Int → List ι → Int
  | _, [] => 0
  | t, j :: js => max t (r j) + p j - r j + orderCost r p (max t (r j) + p j) js

/-- When the last job of the order is over. -/
def orderEnd (r p : ι → Int) : Int → List ι → Int
  | t, [] => t
  | t, j :: js => orderEnd r p (max t (r j) + p j) js

@[simp] theorem orderCost_nil (t : Int) : orderCost r p t [] = 0 := rfl

@[simp] theorem orderEnd_nil (t : Int) : orderEnd r p t [] = t := rfl

theorem orderCost_cons (t : Int) (j : ι) (js : List ι) :
    orderCost r p t (j :: js) = max t (r j) + p j - r j + orderCost r p
      (max t (r j) + p j) js := rfl

theorem orderEnd_append (t : Int) (js ks : List ι) :
    orderEnd r p t (js ++ ks) = orderEnd r p (orderEnd r p t js) ks := by
  induction js generalizing t with
  | nil => rfl
  | cons j js ih => exact ih _

/-- The cost of an order is that of its parts. -/
theorem orderCost_append (t : Int) (js ks : List ι) :
    orderCost r p t (js ++ ks) = orderCost r p t js + orderCost r p (orderEnd r p t js) ks := by
  induction js generalizing t with
  | nil => simp
  | cons j js ih =>
      rw [List.cons_append, orderCost_cons, orderCost_cons, ih, orderEnd]
      omega

/-- Starting later costs no less. -/
theorem orderCost_mono {t t' : Int} (le : t ≤ t') (js : List ι) :
    orderCost r p t js ≤ orderCost r p t' js := by
  induction js generalizing t t' with
  | nil => exact le_rfl
  | cons j js ih =>
      have start : max t (r j) ≤ max t' (r j) := max_le_max_right _ le
      have := ih (Int.add_le_add_right start (p j))
      rw [orderCost_cons, orderCost_cons]
      omega

/-- No job is over before its release. -/
theorem orderCost_nonneg (nonneg : ∀ j, 0 ≤ p j) (t : Int) (js : List ι) :
    0 ≤ orderCost r p t js := by
  induction js generalizing t with
  | nil => exact le_rfl
  | cons j js ih =>
      have := ih (max t (r j) + p j)
      have := nonneg j
      rw [orderCost_cons]
      omega

/-! ## Gaps -/

section Exchange

variable [DecidableEq ι] (nonneg : ∀ j, 0 ≤ p j)
include nonneg

/-- Without one of its jobs an order costs less by what this one costs at least. -/
theorem orderCost_erase {k : ι} {js : List ι} (mem : k ∈ js) (t : Int) :
    orderCost r p t (js.erase k) + (t + p k - r k) ≤ orderCost r p t js := by
  induction js generalizing t with
  | nil => cases mem
  | cons j js ih =>
      have here := nonneg j
      by_cases same : j = k
      · subst same
        rw [List.erase_cons_head, orderCost_cons]
        have := orderCost_mono (r := r) (p := p) (t := t) (le_trans (le_max_left t (r j))
          (le_add_of_nonneg_right here)) js
        omega
      · have mem : k ∈ js := (List.mem_cons.mp mem).resolve_left fun h => same h.symm
        rw [List.erase_cons_tail (by simpa using same), orderCost_cons, orderCost_cons]
        have := ih mem (max t (r j) + p j)
        omega

/-- It costs no more to fill a gap before the first job with a later one that fits. -/
theorem orderCost_fill {t : Int} {j k : ι} {js : List ι} (mem : k ∈ js) (waits : t < r j)
    (released : r k ≤ t) (fits : t + p k ≤ r j) :
    orderCost r p t (k :: j :: js.erase k) ≤ orderCost r p t (j :: js) := by
  have less := orderCost_erase (r := r) nonneg mem (max t (r j) + p j)
  have := nonneg j
  rw [orderCost_cons, orderCost_cons, orderCost_cons, max_eq_left released, max_eq_right fits]
  rw [max_eq_right waits.le] at less ⊢
  omega

end Exchange

/-! ## Schedules -/

/-- The jobs of `J` complete at `C`, each after a run of its length that starts at or
after its release; no two runs overlap. -/
structure NonPreemptive (r p : ι → Int) (J : Finset ι) (C : ι → Int) : Prop where
  released : ∀ j ∈ J, r j ≤ C j - p j
  apart : ∀ i ∈ J, ∀ j ∈ J, i ≠ j → C i ≤ C j - p j ∨ C j ≤ C i - p i

/-- What is left of a job at `t`. -/
def leftAt (p C : ι → Int) (t : Int) (j : ι) : Int := min (p j) (max 0 (C j - t))

/-- An order is a schedule. -/
theorem exists_schedule [DecidableEq ι] (nonneg : ∀ j, 0 ≤ p j) {js : List ι} (nodup : js.Nodup)
    (t : Int) : ∃ C, NonPreemptive r p js.toFinset C ∧ (∀ j ∈ js, t ≤ C j - p j) ∧
      ∑ j ∈ js.toFinset, (C j - r j) = orderCost r p t js := by
  induction js generalizing t with
  | nil => exact ⟨fun _ => 0, ⟨by simp, by simp⟩, by simp, by simp⟩
  | cons j js ih =>
      obtain ⟨fresh, nodup⟩ := List.nodup_cons.mp nodup
      obtain ⟨C, schedule, start_ge, cost⟩ := ih nodup (max t (r j) + p j)
      have here := nonneg j
      have absent : j ∉ js.toFinset := by simpa using fresh
      have others : ∀ i ∈ js.toFinset, Function.update C j (max t (r j) + p j) i = C i := by
        intro i hi
        refine Function.update_of_ne ?_ ..
        rintro rfl
        exact absent hi
      have later : ∀ i ∈ js.toFinset, max t (r j) + p j ≤ C i - p i := fun i hi =>
        start_ge i (by simpa using hi)
      refine ⟨Function.update C j (max t (r j) + p j), ⟨fun i hi => ?_, fun i hi k hk ne => ?_⟩,
        fun i hi => ?_, ?_⟩
      · rw [List.toFinset_cons, Finset.mem_insert] at hi
        rcases hi with rfl | hi
        · rw [Function.update_self]
          omega
        · rw [others i hi]
          exact schedule.released i hi
      · rw [List.toFinset_cons, Finset.mem_insert] at hi hk
        rcases hi with rfl | hi <;> rcases hk with rfl | hk
        · exact absurd rfl ne
        · left
          rw [Function.update_self, others k hk]
          exact later k hk
        · right
          rw [Function.update_self, others i hi]
          exact later i hi
        · rw [others i hi, others k hk]
          exact schedule.apart i hi k hk ne
      · rcases List.mem_cons.mp hi with rfl | hi
        · rw [Function.update_self]
          omega
        · have hi : i ∈ js.toFinset := by simpa using hi
          have := later i hi
          rw [others i hi]
          omega
      · rw [List.toFinset_cons, Finset.sum_insert absent, Function.update_self,
          orderCost_cons, ← cost]
        exact congrArg _ (Finset.sum_congr rfl fun i hi => by rw [others i hi])

/-- Jobs that run one after another in a schedule cost no more in this order. -/
theorem orderCost_le_of_sorted {t : Int} {C : ι → Int} {js : List ι}
    (start_ge : ∀ j ∈ js, t ≤ C j - p j) (released : ∀ j ∈ js, r j ≤ C j - p j)
    (sorted : js.Pairwise fun i j => C i ≤ C j - p j) :
    orderCost r p t js ≤ (js.map fun j => C j - r j).sum := by
  induction js generalizing t with
  | nil => exact le_rfl
  | cons j js ih =>
      obtain ⟨first, rest⟩ := List.pairwise_cons.mp sorted
      have start := start_ge j List.mem_cons_self
      have release := released j List.mem_cons_self
      have tail := ih (t := max t (r j) + p j) (fun i hi => by have := first i hi; omega)
        (fun i hi => released i (List.mem_cons_of_mem _ hi)) rest
      rw [orderCost_cons, List.map_cons, List.sum_cons]
      omega

/-- Some order of the jobs costs no more than the schedule. -/
theorem NonPreemptive.exists_order {J : Finset ι} {C : ι → Int} {t : Int}
    (schedule : NonPreemptive r p J C) (pos : ∀ j ∈ J, 0 < p j) (start_ge : ∀ j ∈ J, t ≤ r j) :
    ∃ js : List ι, js.Perm J.toList ∧ orderCost r p t js ≤ ∑ j ∈ J, (C j - r j) := by
  obtain ⟨js, perm, sorted⟩ : ∃ js : List ι, js.Perm J.toList ∧ js.Pairwise fun i j => C i ≤ C j :=
    ⟨J.toList.mergeSort fun i j => C i ≤ C j, List.mergeSort_perm .., pairwise_mergeSort_key C _⟩
  have mem : ∀ {j}, j ∈ js ↔ j ∈ J := fun {j} => perm.mem_iff.trans Finset.mem_toList
  have nodup : js.Nodup := perm.nodup_iff.mpr J.nodup_toList
  refine ⟨js, perm, ?_⟩
  have cost : orderCost r p t js ≤ (js.map fun j => C j - r j).sum := orderCost_le_of_sorted
    (fun j hj => (start_ge j (mem.mp hj)).trans (schedule.released j (mem.mp hj)))
    (fun j hj => schedule.released j (mem.mp hj))
    ((sorted.and nodup).imp_of_mem fun {i j} hi hj ⟨le, ne⟩ => by
      rcases schedule.apart i (mem.mp hi) j (mem.mp hj) ne with h | h
      · exact h
      · have := pos i (mem.mp hi)
        omega)
  calc orderCost r p t js ≤ (js.map fun j => C j - r j).sum := cost
    _ = (J.toList.map fun j => C j - r j).sum := (perm.map _).sum_eq
    _ = ∑ j ∈ J, (C j - r j) := Finset.sum_map_toList J _

end CpuSched
