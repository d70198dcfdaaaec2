import Mathlib.Data.List.Forall2
import Mathlib.Data.List.Sort
import Mathlib.Order.Bounds.Defs

/-!
# Order statistics

The `k`-th smallest entry of a list, characterised by how many entries are at most a value.
The nearest-rank percentile is one of these entries.
-/

namespace CpuSched

variable {α : Type*} [LinearOrder α]

/-- The entries in increasing order. -/
def ascending (l : List α) : List α := l.insertionSort (· ≤ ·)

@[simp] theorem length_ascending (l : List α) : (ascending l).length = l.length :=
  List.length_insertionSort _ l

theorem ascending_perm (l : List α) : (ascending l).Perm l := List.perm_insertionSort _ l

theorem ascending_pairwise (l : List α) : (ascending l).Pairwise (· ≤ ·) :=
  List.pairwise_insertionSort _ l

/-- The `k`-th smallest entry, from 0 on. -/
def kth (d : α) (l : List α) (k : Nat) : α := (ascending l).getD k d

/-- How many entries are at most `v`. -/
def countLe (l : List α) (v : α) : Nat := l.countP fun a => a ≤ v

theorem countLe_le (l : List α) (v : α) : countLe l v ≤ l.length := List.countP_le_length

theorem countLe_mono {l l' : List α} (le : List.Forall₂ (· ≤ ·) l l') (v : α) :
    countLe l' v ≤ countLe l v := by
  induction le with
  | nil => rfl
  | @cons a b l l' le _ ih =>
      simp only [countLe, List.countP_cons, decide_eq_true_eq] at ih ⊢
      split_ifs with hb ha
      · omega
      · exact absurd (le.trans hb) ha
      · omega
      · omega

/-- In an increasing list the entries with a property that smaller ones inherit come first. -/
theorem get_iff {P : α → Prop} [DecidablePred P] (inherited : Antitone P) {l : List α}
    (sorted : l.Pairwise (· ≤ ·)) {d : α} {k : Nat} (lt : k < l.length) :
    P (l.getD k d) ↔ k < l.countP P := by
  induction l generalizing k with
  | nil => exact absurd lt (Nat.not_lt_zero k)
  | cons a l ih =>
      rw [List.pairwise_cons] at sorted
      have none : ¬P a → l.countP P = 0 := fun fails =>
        List.countP_eq_zero.mpr fun b mem holds =>
          fails (inherited (sorted.1 b mem) (by simpa using holds))
      cases k with
      | zero =>
          by_cases holds : P a
          · simp [holds]
          · simp [holds, none holds]
      | succ k =>
          have lt : k < l.length := Nat.lt_of_succ_lt_succ lt
          rw [List.getD_cons_succ, ih sorted.2 lt]
          by_cases holds : P a
          · simp [holds]
          · simp [holds, none holds]

/-- The `k`-th smallest entry has such a property just if more than `k` entries have it. -/
theorem kth_iff {P : α → Prop} [DecidablePred P] (inherited : Antitone P) {d : α} {l : List α}
    {k : Nat} (lt : k < l.length) : P (kth d l k) ↔ k < l.countP P := by
  rw [kth, get_iff inherited (ascending_pairwise l) (by rwa [length_ascending]),
    (ascending_perm l).countP_eq]

theorem kth_le_iff {d v : α} {l : List α} {k : Nat} (lt : k < l.length) :
    kth d l k ≤ v ↔ k < countLe l v :=
  kth_iff (P := (· ≤ v)) (fun _ _ le le' => le.trans le') lt

theorem kth_mem {d : α} {l : List α} {k : Nat} (lt : k < l.length) : kth d l k ∈ l := by
  have lt : k < (ascending l).length := by rwa [length_ascending]
  rw [kth, List.getD_eq_getElem?_getD, List.getElem?_eq_getElem lt]
  exact (ascending_perm l).mem_iff.mp (List.getElem_mem lt)

theorem kth_mono {d : α} {l : List α} {j k : Nat} (le : j ≤ k) (lt : k < l.length) :
    kth d l j ≤ kth d l k :=
  (kth_le_iff (le.trans_lt lt)).mpr (le.trans_lt ((kth_le_iff lt).mp le_rfl))

/-- Smaller entries have smaller order statistics. -/
theorem kth_le_kth {d : α} {l l' : List α} (le : List.Forall₂ (· ≤ ·) l l') {k : Nat}
    (lt : k < l'.length) : kth d l k ≤ kth d l' k := by
  rw [kth_le_iff (by rwa [le.length_eq])]
  exact ((kth_le_iff lt).mp le_rfl).trans_le (countLe_mono le _)

theorem kth_isGreatest {d : α} {l : List α} (ne : l ≠ []) :
    IsGreatest {v | v ∈ l} (kth d l (l.length - 1)) := by
  have pos := List.length_pos_iff.mpr ne
  have lt : l.length - 1 < l.length := by omega
  refine ⟨kth_mem lt, fun v mem => ?_⟩
  -- all entries are at most the last one
  have all : countLe l (kth d l (l.length - 1)) = l.length :=
    le_antisymm (countLe_le _ _) (by have := (kth_le_iff (d := d) lt).mp le_rfl; omega)
  simpa using List.countP_eq_length.mp all v mem

/-! ## Nearest rank -/

/-- The smallest value such that at least `pct` of 100 entries are at most it. -/
structure NearestRank (l : List α) (pct : Nat) (v : α) : Prop where
  mem : v ∈ l
  enough : pct * l.length ≤ 100 * countLe l v
  least : ∀ u < v, 100 * countLe l u < pct * l.length

/-- The entry of this rank is the percentile. -/
theorem kth_nearestRank {d : α} {l : List α} {pct rank : Nat} (pos : 0 < rank)
    (le : rank ≤ l.length) (enough : pct * l.length ≤ 100 * rank)
    (least : 100 * (rank - 1) < pct * l.length) : NearestRank l pct (kth d l (rank - 1)) where
  mem := kth_mem (by omega)
  enough := by
    have := (kth_le_iff (d := d) (l := l) (k := rank - 1) (by omega)).mp le_rfl
    omega
  least u lt := by
    have few := (kth_le_iff (d := d) (v := u) (l := l) (k := rank - 1) (by omega)).not.mp
      (not_le.mpr lt)
    omega

/-- At most half of the entries are smaller and at most half are larger. -/
def IsMedian {β : Type*} [LinearOrder β] (f : α → β) (l : List α) (v : β) : Prop :=
  2 * l.countP (fun a => f a < v) ≤ l.length ∧ 2 * l.countP (fun a => v < f a) ≤ l.length

/-- What lies between the two middle entries is a median. -/
theorem isMedian_of_between {β : Type*} [LinearOrder β] {f : α → β} (mono : Monotone f) {d : α}
    {l : List α} (ne : l ≠ []) {v : β} (low : f (kth d l ((l.length - 1) / 2)) ≤ v)
    (high : v ≤ f (kth d l (l.length / 2))) : IsMedian f l v := by
  have pos := List.length_pos_iff.mpr ne
  constructor
  · have few := (kth_iff (P := fun a => f a < v) (fun _ _ le lt => (mono le).trans_lt lt) (d := d)
      (show l.length / 2 < l.length by omega)).not.mp (not_lt.mpr high)
    omega
  · have many := (kth_iff (P := fun a => f a ≤ v) (fun _ _ le le' => (mono le).trans le') (d := d)
      (show (l.length - 1) / 2 < l.length by omega)).mp low
    have parts := List.length_eq_countP_add_countP (l := l) fun a => decide (f a ≤ v)
    have rest : (l.countP fun a => decide (v < f a)) =
        l.countP fun a => !decide (f a ≤ v) := by
      refine List.countP_congr fun a _ => ?_
      simp
    rw [rest]
    simp only [decide_eq_true_eq, decide_not] at parts ⊢
    omega

end CpuSched
