import Mathlib.Algebra.BigOperators.Group.Finset.Basic
import Mathlib.Algebra.Order.BigOperators.Group.Finset
import Mathlib.Algebra.BigOperators.Group.Finset.Piecewise
import Mathlib.Data.Finset.Card

/-!
# The shortest remaining time first

Two processors work on the same jobs.  The first is ahead of the second when, however
many jobs are put aside, it can put aside as many and has no more work left in the
others.  A tick on the job with the least work keeps it ahead, whatever the other one
does, and so does the release of a job.  A processor that is ahead has no more
unfinished jobs.
-/

namespace CpuSched

variable {ι : Type*} [DecidableEq ι] {J : Finset ι} {R Q Q' : ι → Int}

/-- For every set of jobs put aside on the right there is one on the left that is not
larger and leaves no more work. -/
def Ahead (J : Finset ι) (R Q : ι → Int) : Prop :=
  ∀ K ⊆ J, ∃ K' ⊆ J, K'.card ≤ K.card ∧ ∑ j ∈ J \ K', R j ≤ ∑ j ∈ J \ K, Q j

theorem Ahead.refl (J : Finset ι) (R : ι → Int) : Ahead J R R :=
  fun K sub => ⟨K, sub, le_rfl, le_rfl⟩

theorem Ahead.congr {R' : ι → Int} (ahead : Ahead J R Q) (left : ∀ j ∈ J, R' j = R j)
    (right : ∀ j ∈ J, Q' j = Q j) : Ahead J R' Q' := by
  intro K sub
  obtain ⟨K', sub', card_le, le⟩ := ahead K sub
  refine ⟨K', sub', card_le, ?_⟩
  rw [Finset.sum_congr rfl fun j hj => left j (Finset.mem_sdiff.mp hj).1,
    Finset.sum_congr rfl fun j hj => right j (Finset.mem_sdiff.mp hj).1]
  exact le

/-- Work left outside a set changes with one job. -/
theorem sum_sdiff_update {K : Finset ι} {j : ι} (mem : j ∈ J) (f : ι → Int) (x : Int) :
    ∑ i ∈ J \ K, Function.update f j x i =
      (∑ i ∈ J \ K, f i) + if j ∈ K then 0 else x - f j := by
  split_ifs with inside
  · rw [add_zero]
    refine Finset.sum_congr rfl fun i hi => Function.update_of_ne ?_ ..
    rintro rfl
    exact (Finset.mem_sdiff.mp hi).2 inside
  · have here : j ∈ J \ K := Finset.mem_sdiff.mpr ⟨mem, inside⟩
    have split := Finset.sum_erase_add _ f here
    rw [Finset.sum_update_of_mem here, Finset.sdiff_singleton_eq_erase]
    omega

/-- The release of a job keeps a processor ahead. -/
theorem Ahead.release (ahead : Ahead J R Q) {j : ι} (mem : j ∈ J) {b : Int} (b_nonneg : 0 ≤ b)
    (left : R j = 0) (right : Q j = 0) :
    Ahead J (Function.update R j b) (Function.update Q j b) := by
  intro K sub
  by_cases aside : j ∈ K
  · -- it is put aside on both sides
    obtain ⟨K', sub', card_le, le⟩ := ahead (K.erase j) ((Finset.erase_subset j K).trans sub)
    refine ⟨insert j K', Finset.insert_subset mem sub', ?_, ?_⟩
    · have := Finset.card_erase_add_one aside
      have := Finset.card_insert_le j K'
      omega
    · have without : J \ K.erase j = insert j (J \ K) := by
        ext i
        by_cases same : i = j
        · subst same
          simp [mem]
        · simp [same]
      have outside : j ∉ J \ K := fun h => (Finset.mem_sdiff.mp h).2 aside
      rw [without, Finset.sum_insert outside, right, zero_add] at le
      have less : ∑ i ∈ J \ insert j K', R i ≤ ∑ i ∈ J \ K', R i := by
        by_cases inside : j ∈ K'
        · rw [Finset.insert_eq_of_mem inside]
        · have split : J \ K' = insert j (J \ insert j K') := by
            ext i
            by_cases same : i = j
            · subst same
              simp [mem, inside]
            · simp [same]
          rw [split, Finset.sum_insert (by simp), left, zero_add]
      rw [sum_sdiff_update mem, sum_sdiff_update mem,
        if_pos (Finset.mem_insert_self j K'), if_pos aside]
      omega
  · obtain ⟨K', sub', card_le, le⟩ := ahead K sub
    refine ⟨K', sub', card_le, ?_⟩
    rw [sum_sdiff_update mem, sum_sdiff_update mem, if_neg aside, left, right]
    split_ifs <;> omega

/-- So does the release of several jobs. -/
theorem Ahead.releaseAll (ahead : Ahead J R Q) {b : ι → Int} (A : Finset ι) (sub : A ⊆ J)
    (b_nonneg : ∀ j ∈ A, 0 ≤ b j) (left : ∀ j ∈ A, R j = 0) (right : ∀ j ∈ A, Q j = 0) :
    Ahead J (fun j => if j ∈ A then b j else R j) (fun j => if j ∈ A then b j else Q j) := by
  induction A using Finset.induction_on with
  | empty => exact ahead.congr (fun _ _ => by simp) fun _ _ => by simp
  | insert j A fresh ih =>
      obtain ⟨mem, sub⟩ := Finset.insert_subset_iff.mp sub
      obtain ⟨b_nonneg_j, b_nonneg⟩ := (Finset.forall_mem_insert ..).mp b_nonneg
      obtain ⟨left_j, left⟩ := (Finset.forall_mem_insert ..).mp left
      obtain ⟨right_j, right⟩ := (Finset.forall_mem_insert ..).mp right
      refine ((ih sub b_nonneg left right).release mem b_nonneg_j (by simp [fresh, left_j])
        (by simp [fresh, right_j])).congr (fun i _ => ?_) fun i _ => ?_
      · by_cases same : i = j
        · simp [same]
        · simp [same]
      · by_cases same : i = j
        · simp [same]
        · simp [same]

/-- A tick of the other processor takes at most one unit of work off any set of jobs. -/
structure Tick (J : Finset ι) (Q Q' : ι → Int) : Prop where
  nonneg : ∀ j ∈ J, 0 ≤ Q' j
  single : ∃ i, ∀ j ∈ J, Q' j = if j = i then Q' j else Q j
  unit : ∀ j ∈ J, Q j - 1 ≤ Q' j

theorem Tick.sum_le (tick : Tick J Q Q') (K : Finset ι) :
    0 ≤ ∑ j ∈ J \ K, Q' j ∧ (∑ j ∈ J \ K, Q j) - 1 ≤ ∑ j ∈ J \ K, Q' j := by
  refine ⟨Finset.sum_nonneg fun j hj => tick.nonneg j (Finset.mem_sdiff.mp hj).1, ?_⟩
  obtain ⟨i, single⟩ := tick.single
  have others : ∀ j ∈ J \ K, j ≠ i → Q' j = Q j := by
    intro j hj ne
    rw [single j (Finset.mem_sdiff.mp hj).1, if_neg ne]
  by_cases here : i ∈ J \ K
  · rw [← Finset.sum_erase_add _ _ here, ← Finset.sum_erase_add _ _ here]
    have rest : ∑ j ∈ (J \ K).erase i, Q' j = ∑ j ∈ (J \ K).erase i, Q j :=
      Finset.sum_congr rfl fun j hj =>
        others j (Finset.mem_of_mem_erase hj) (Finset.ne_of_mem_erase hj)
    have := tick.unit i (Finset.mem_sdiff.mp here).1
    omega
  · have same : ∑ j ∈ J \ K, Q' j = ∑ j ∈ J \ K, Q j :=
      Finset.sum_congr rfl fun j hj => others j hj fun eq => here (eq ▸ hj)
    omega

/-- A tick on the job with the least work keeps a processor ahead. -/
theorem Ahead.tick (ahead : Ahead J R Q) {s : ι} (mem : s ∈ J) (pos : 0 < R s)
    (least : ∀ j ∈ J, 0 < R j → R s ≤ R j) (tick : Tick J Q Q') :
    Ahead J (Function.update R s (R s - 1)) Q' := by
  intro K sub
  obtain ⟨K', sub', card_le, le⟩ := ahead K sub
  obtain ⟨right_nonneg, right⟩ := tick.sum_le K
  by_cases worked : s ∈ K'
  · by_cases left : ∃ j ∈ J \ K', 0 < R j
    · -- the job is put back in place of another, which has no less work
      obtain ⟨j, hj, j_pos⟩ := left
      obtain ⟨hj, fresh⟩ := Finset.mem_sdiff.mp hj
      have ne : j ≠ s := by
        rintro rfl
        exact fresh worked
      refine ⟨insert j (K'.erase s), Finset.insert_subset hj
        ((Finset.erase_subset s K').trans sub'), ?_, ?_⟩
      · have := Finset.card_erase_add_one worked
        have := Finset.card_insert_le j (K'.erase s)
        omega
      · have swap : ∑ i ∈ J \ insert j (K'.erase s), R i + R j = ∑ i ∈ J \ K', R i + R s := by
          have outer : insert j (J \ insert j (K'.erase s)) = insert s (J \ K') := by
            ext i
            by_cases hi : i = j
            · subst hi
              simp [hj, fresh]
            · by_cases hs : i = s
              · subst hs
                simp [mem, Ne.symm ne]
              · simp [hi, hs]
          have left_eq := Finset.sum_insert (s := J \ insert j (K'.erase s)) (a := j)
            (f := R) (by simp)
          have right_eq := Finset.sum_insert (s := J \ K') (a := s) (f := R) (by simp [worked])
          rw [outer] at left_eq
          omega
        have := least j hj j_pos
        rw [sum_sdiff_update mem, if_neg (by simp [Ne.symm ne])]
        omega
    · push Not at left
      refine ⟨K', sub', card_le, ?_⟩
      rw [sum_sdiff_update mem, if_pos worked, add_zero]
      exact (Finset.sum_nonpos left).trans right_nonneg
  · refine ⟨K', sub', card_le, ?_⟩
    rw [sum_sdiff_update mem, if_neg worked]
    omega

/-- A processor without work left is ahead of any other. -/
theorem Ahead.idle (done : ∀ j ∈ J, R j ≤ 0) (nonneg : ∀ j ∈ J, 0 ≤ Q' j) : Ahead J R Q' :=
  fun K sub => ⟨K, sub, le_rfl,
    (Finset.sum_nonpos fun j hj => done j (Finset.mem_sdiff.mp hj).1).trans
      (Finset.sum_nonneg fun j hj => nonneg j (Finset.mem_sdiff.mp hj).1)⟩

/-- A processor that is ahead has no more unfinished jobs. -/
theorem Ahead.unfinished_le (ahead : Ahead J R Q) (left : ∀ j ∈ J, 0 ≤ R j)
    (right : ∀ j ∈ J, 0 ≤ Q j) :
    (J.filter fun j => 0 < R j).card ≤ (J.filter fun j => 0 < Q j).card := by
  obtain ⟨K', -, card_le, le⟩ := ahead (J.filter fun j => 0 < Q j) (Finset.filter_subset ..)
  have none : ∑ j ∈ J \ J.filter (fun j => 0 < Q j), Q j = 0 := by
    refine Finset.sum_eq_zero fun j hj => ?_
    obtain ⟨hj, done⟩ := Finset.mem_sdiff.mp hj
    have := right j hj
    simp only [Finset.mem_filter, hj, true_and, not_lt] at done
    omega
  refine (Finset.card_le_card fun j hj => ?_).trans card_le
  obtain ⟨hj, pos⟩ := Finset.mem_filter.mp hj
  by_contra fresh
  have part := Finset.single_le_sum (f := R) (s := J \ K')
    (fun i hi => left i (Finset.mem_sdiff.mp hi).1) (Finset.mem_sdiff.mpr ⟨hj, fresh⟩)
  omega

end CpuSched
