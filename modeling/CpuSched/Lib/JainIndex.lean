import Mathlib.Algebra.Order.BigOperators.Ring.Finset
import Mathlib.Algebra.Order.Chebyshev
import Mathlib.Algebra.Order.Field.Basic
import Mathlib.Tactic.Linarith
import Mathlib.Tactic.Positivity
import Mathlib.Tactic.Ring

/-!
# Jain's fairness index

The index of finitely many positive shares lies between 1 over their number and 1, and is 1
just if the shares are equal.
-/

namespace CpuSched

open Finset

variable {ι K : Type*} [Field K] [LinearOrder K] [IsStrictOrderedRing K] {s : Finset ι} {f : ι → K}

/-- Jain's fairness index. -/
def jainIndex (s : Finset ι) (f : ι → K) : K :=
  ((∑ i ∈ s, f i) * ∑ i ∈ s, f i) / (#s * ∑ i ∈ s, f i * f i)

omit [LinearOrder K] [IsStrictOrderedRing K] in
/-- How far the shares are from equal. -/
theorem sum_sq_sub (s : Finset ι) (f : ι → K) : ∑ i ∈ s, ∑ j ∈ s, (f i - f j) ^ 2 =
    2 * (#s * (∑ i ∈ s, f i * f i) - (∑ i ∈ s, f i) * ∑ i ∈ s, f i) := by
  have square (i j : ι) : (f i - f j) ^ 2 = f i * f i - 2 * (f i * f j) + f j * f j := by ring
  simp only [square, sum_add_distrib, sum_sub_distrib, sum_const, nsmul_eq_mul, ← mul_sum,
    ← sum_mul]
  ring

theorem sum_mul_self_pos (nonempty : s.Nonempty) (pos : ∀ i ∈ s, 0 < f i) :
    0 < #s * ∑ i ∈ s, f i * f i :=
  mul_pos (by exact_mod_cast nonempty.card_pos)
    (sum_pos (fun i mem => mul_pos (pos i mem) (pos i mem)) nonempty)

theorem jainIndex_pos (nonempty : s.Nonempty) (pos : ∀ i ∈ s, 0 < f i) : 0 < jainIndex s f :=
  have total := sum_pos pos nonempty
  div_pos (mul_pos total total) (sum_mul_self_pos nonempty pos)

theorem jainIndex_le_one (nonempty : s.Nonempty) (pos : ∀ i ∈ s, 0 < f i) :
    jainIndex s f ≤ 1 := by
  rw [jainIndex, div_le_one (sum_mul_self_pos nonempty pos)]
  have cauchy := sq_sum_le_card_mul_sum_sq (s := s) (f := f)
  simpa only [sq] using cauchy

theorem jainIndex_eq_one_iff (nonempty : s.Nonempty) (pos : ∀ i ∈ s, 0 < f i) :
    jainIndex s f = 1 ↔ ∀ i ∈ s, ∀ j ∈ s, f i = f j := by
  have differences := sum_sq_sub s f
  rw [jainIndex, div_eq_one_iff_eq (sum_mul_self_pos nonempty pos).ne']
  constructor
  · intro equal
    rw [equal, sub_self, mul_zero, sum_eq_zero_iff_of_nonneg fun i _ =>
      sum_nonneg fun j _ => sq_nonneg _] at differences
    intro i hi j hj
    have row := differences i hi
    rw [sum_eq_zero_iff_of_nonneg fun j _ => sq_nonneg _] at row
    exact sub_eq_zero.mp (pow_eq_zero_iff two_ne_zero |>.mp (row j hj))
  · intro equal
    have none : ∑ i ∈ s, ∑ j ∈ s, (f i - f j) ^ 2 = 0 :=
      sum_eq_zero fun i hi => sum_eq_zero fun j hj => by
        rw [equal i hi j hj, sub_self, sq, zero_mul]
    linarith

theorem inv_card_le_jainIndex (nonempty : s.Nonempty) (pos : ∀ i ∈ s, 0 < f i) :
    1 / (#s : K) ≤ jainIndex s f := by
  have card : (0 : K) < #s := by exact_mod_cast nonempty.card_pos
  have squares := sum_sq_le_sq_sum_of_nonneg fun i hi => (pos i hi).le
  simp only [sq] at squares
  rw [jainIndex, div_le_div_iff₀ card (sum_mul_self_pos nonempty pos), one_mul, mul_comm]
  exact mul_le_mul_of_nonneg_right squares card.le

end CpuSched
