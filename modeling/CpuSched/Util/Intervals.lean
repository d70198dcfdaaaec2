import Mathlib.Algebra.BigOperators.Group.List.Basic
import Mathlib.Data.Int.ConditionallyCompleteOrder
import Mathlib.Data.Int.Interval
import Mathlib.Data.List.Pairwise
import Mathlib.Data.List.Sort
import Mathlib.Data.Set.Card
import Mathlib.Tactic.Linarith
import Mathlib.Tactic.Ring

/-!
# Half-open intervals of integers

Lists of intervals over any type with two ends.  Intervals that do not overlap
cover as many integers as their lengths add up to, and a list in order can be cut
at any time.
-/

namespace CpuSched

variable {α : Type*}

theorem pairwise_mergeSort_key {β : Type*} [LinearOrder β] (f : α → β) (l : List α) :
    (l.mergeSort fun a b => f a ≤ f b).Pairwise fun a b => f a ≤ f b := by
  have total : Std.Total fun a b => f a ≤ f b := ⟨fun a b => le_total (f a) (f b)⟩
  have trans : IsTrans α fun a b => f a ≤ f b := ⟨fun _ _ _ => le_trans⟩
  exact List.pairwise_mergeSort' (fun a b => f a ≤ f b) l

/-- One interval ends before the other starts. -/
def Apart (lo hi : α → Int) (a b : α) : Prop := hi a ≤ lo b ∨ hi b ≤ lo a

instance (lo hi : α → Int) : Std.Symm (Apart lo hi) := ⟨fun _ _ h => h.symm⟩

/-- `t` lies in one of the intervals. -/
def Covers (lo hi : α → Int) (l : List α) (t : Int) : Prop := ∃ a ∈ l, lo a ≤ t ∧ t < hi a

section Cover

variable {lo hi : α → Int}

theorem covers_cons {a : α} {l : List α} {t : Int} :
    Covers lo hi (a :: l) t ↔ (lo a ≤ t ∧ t < hi a) ∨ Covers lo hi l t := by
  simp [Covers]

open Classical in
/-- Disjoint intervals inside a finite set cover as many of its elements as their
lengths add up to. -/
theorem card_covered (lo hi : α → Int) {l : List α} (le : ∀ a ∈ l, lo a ≤ hi a)
    (apart : l.Pairwise (Apart lo hi))
    {s : Finset Int} (inside : ∀ a ∈ l, Finset.Ico (lo a) (hi a) ⊆ s) :
    ((s.filter (Covers lo hi l)).card : Int) = (l.map fun a => hi a - lo a).sum := by
  induction l with
  | nil => simp [Covers]
  | cons a l ih =>
      obtain ⟨first, apart⟩ := List.pairwise_cons.mp apart
      have ih := ih (fun b mem => le b (List.mem_cons_of_mem _ mem)) apart
        fun b mem => inside b (List.mem_cons_of_mem _ mem)
      have here : s.filter (fun t => lo a ≤ t ∧ t < hi a) = Finset.Ico (lo a) (hi a) := by
        ext t
        rw [Finset.mem_filter, Finset.mem_Ico, and_iff_right_iff_imp]
        exact fun h => inside a List.mem_cons_self (Finset.mem_Ico.mpr h)
      have split : s.filter (Covers lo hi (a :: l)) =
          s.filter (fun t => lo a ≤ t ∧ t < hi a) ∪ s.filter (Covers lo hi l) := by
        rw [← Finset.filter_or]
        exact Finset.filter_congr fun t _ => covers_cons
      have disjoint : Disjoint (s.filter fun t => lo a ≤ t ∧ t < hi a)
          (s.filter (Covers lo hi l)) := by
        refine Finset.disjoint_filter.mpr fun t _ h ⟨b, mem, h'⟩ => ?_
        rcases first b mem with before | before <;> omega
      rw [split, Finset.card_union_of_disjoint disjoint, here, Int.card_Ico, List.map_cons,
        List.sum_cons]
      push_cast
      rw [ih, Int.toNat_of_nonneg]
      have := le a List.mem_cons_self
      omega

end Cover

section Cuts

variable {lo hi : α → Int}

/-- The intervals that end by `t`. -/
def endingBy (hi : α → Int) (t : Int) (l : List α) : List α := l.filter fun a => hi a ≤ t

/-- The intervals that end after `t` and by `t'`. -/
def endingIn (hi : α → Int) (t t' : Int) (l : List α) : List α :=
  l.filter fun a => t < hi a ∧ hi a ≤ t'

/-- Intervals in order are cut in order. -/
theorem endingBy_append {l : List α} (sorted : l.Pairwise fun a b => hi a ≤ hi b) {t t' : Int}
    (le : t ≤ t') : endingBy hi t' l = endingBy hi t l ++ endingIn hi t t' l := by
  induction l with
  | nil => rfl
  | cons a l ih =>
      obtain ⟨first, rest⟩ := List.pairwise_cons.mp sorted
      have ih := ih rest
      unfold endingBy endingIn at ih ⊢
      by_cases early : hi a ≤ t
      · simp [early, early.trans le, early.not_gt, ih]
      · have none : l.filter (fun b => hi b ≤ t) = [] := by
          rw [List.filter_eq_nil_iff]
          intro b mem
          have := first b mem
          simp only [decide_eq_true_eq]
          omega
        rw [none, List.nil_append] at ih
        by_cases mid : hi a ≤ t'
        · simp [early, mid, none, ih, not_le.mp early]
        · simp [early, mid, none, ih]

/-- When every interval ends by `t` or starts after it, the parts before `t` are the
intervals that end by `t`. -/
theorem sum_before (lo hi : α → Int) {l : List α} {t : Int} (le : ∀ a ∈ l, lo a ≤ hi a)
    (fence : ∀ a ∈ l, hi a ≤ t ∨ t ≤ lo a) :
    (l.map fun a => min (hi a) t - min (lo a) t).sum =
      ((endingBy hi t l).map fun a => hi a - lo a).sum := by
  induction l with
  | nil => rfl
  | cons a l ih =>
      have ih := ih (fun b mem => le b (List.mem_cons_of_mem _ mem))
        fun b mem => fence b (List.mem_cons_of_mem _ mem)
      have here := le a List.mem_cons_self
      unfold endingBy at ih ⊢
      rw [List.map_cons, List.sum_cons, ih]
      by_cases early : hi a ≤ t
      · rw [List.filter_cons_of_pos (by simpa using early), List.map_cons, List.sum_cons]
        omega
      · rw [List.filter_cons_of_neg (by simpa using early)]
        have := (fence a List.mem_cons_self).resolve_left early
        omega

/-- The last of a list in order that has an interval with the latest end. -/
theorem getLast?_hi (hi : α → Int) {l : List α}
    (sorted : l.Pairwise fun a b => hi a ≤ hi b) {t : Int}
    (bound : ∀ a ∈ l, hi a ≤ t) (reached : ∃ a ∈ l, hi a = t) :
    ∃ last, l.getLast? = some last ∧ hi last = t := by
  obtain ⟨a, mem, eq⟩ := reached
  obtain ⟨ys, last, rfl⟩ : ∃ ys last, l = ys ++ [last] :=
    (List.eq_nil_or_concat' l).resolve_left (List.ne_nil_of_mem mem)
  refine ⟨last, by simp, le_antisymm (bound last (by simp)) ?_⟩
  rcases List.mem_append.mp mem with mem | mem
  · have := (List.pairwise_append.mp sorted).2.2 a mem last (by simp)
    omega
  · rw [← List.mem_singleton.mp mem, eq]

/-- The first of a list in order that has an interval with the earliest start. -/
theorem head?_lo (lo : α → Int) {l : List α} (sorted : l.Pairwise fun a b => lo a ≤ lo b) {t : Int}
    (bound : ∀ a ∈ l, t ≤ lo a) (reached : ∃ a ∈ l, lo a = t) :
    ∃ first, l.head? = some first ∧ lo first = t := by
  obtain ⟨a, mem, eq⟩ := reached
  cases l with
  | nil => simp at mem
  | cons first rest =>
      refine ⟨first, rfl, le_antisymm ?_ (bound first List.mem_cons_self)⟩
      rcases List.mem_cons.mp mem with rfl | mem
      · exact eq.le
      · exact ((List.pairwise_cons.mp sorted).1 a mem).trans eq.le

end Cuts

end CpuSched
