import Mathlib.Algebra.Order.BigOperators.Group.List
import Mathlib.Algebra.Order.Field.Power
import Mathlib.Algebra.Order.Field.Rat
import Mathlib.Algebra.Order.Floor.Ring
import Mathlib.Data.Int.ConditionallyCompleteOrder
import Mathlib.Data.Int.Log
import Mathlib.Data.Rat.Floor
import Mathlib.Tactic.FieldSimp
import Mathlib.Tactic.Linarith
import Mathlib.Tactic.NormNum
import Mathlib.Tactic.Ring

/-!
# Rounding

Arithmetic that rounds the exact result of every operation.  All that is used of a rounding
is that it is monotone, that it keeps what it has rounded, and that it keeps the integers up
to a limit.  Rounding to the nearest number of `p` binary digits is one, with `2 ^ p` as its
limit; the exponents have a lower end, and no upper one.
-/

namespace CpuSched

/-- A rounding of rational numbers that keeps the integers up to `limit`. -/
structure Rounding (limit : Int) where
  round : ℚ → ℚ
  mono : Monotone round
  idem : ∀ x, round (round x) = round x
  int : ∀ n : Int, -limit ≤ n → n ≤ limit → round n = n

namespace Rounding

variable {limit : Int} (R : Rounding limit)

/-- No rounding. -/
def exact (limit : Int) : Rounding limit := ⟨id, monotone_id, fun _ => rfl, fun _ _ _ => rfl⟩

theorem round_zero (nonneg : 0 ≤ limit) : R.round 0 = 0 := by
  simpa using R.int 0 (by omega) nonneg

theorem round_nonneg (nonneg : 0 ≤ limit) {x : ℚ} (le : 0 ≤ x) : 0 ≤ R.round x := by
  rw [← R.round_zero nonneg]
  exact R.mono le

theorem round_le_int {x : ℚ} {n : Int} (low : -limit ≤ n) (high : n ≤ limit) (le : x ≤ n) :
    R.round x ≤ n := by
  rw [← R.int n low high]
  exact R.mono le

theorem int_le_round {x : ℚ} {n : Int} (low : -limit ≤ n) (high : n ≤ limit) (le : (n : ℚ) ≤ x) :
    (n : ℚ) ≤ R.round x := by
  rw [← R.int n low high]
  exact R.mono le

/-! ## Sums -/

/-- A sum that is rounded after each addition. -/
def sum (xs : List ℚ) (s : ℚ) : ℚ := xs.foldl (fun s x => R.round (s + x)) s

/-- A sum of integers that are not negative is exact while it stays within the limit. -/
theorem sum_ints {xs : List Int} (nonneg : ∀ x ∈ xs, 0 ≤ x) {s : Int} (start : 0 ≤ s)
    (fits : s + xs.sum ≤ limit) : R.sum (xs.map (↑)) s = ((s + xs.sum : Int) : ℚ) := by
  induction xs generalizing s with
  | nil => simp [sum]
  | cons x xs ih =>
      rw [List.forall_mem_cons] at nonneg
      rw [List.sum_cons] at fits
      have rest : 0 ≤ xs.sum := List.sum_nonneg nonneg.2
      have head : R.round ((s : ℚ) + x) = ((s + x : Int) : ℚ) := by
        rw [← Int.cast_add]
        exact R.int _ (by omega) (by omega)
      have tail := ih nonneg.2 (s := s + x) (by omega) (by omega)
      rw [sum] at tail
      rw [sum, List.map_cons, List.foldl_cons, head, tail, List.sum_cons]
      congr 1
      ring

/-- A sum of terms that are at least 1 is at least their number. -/
theorem length_le_sum {xs : List ℚ} (large : ∀ x ∈ xs, 1 ≤ x) {k : Int} (start : 0 ≤ k) {s : ℚ}
    (le : (k : ℚ) ≤ s) (fits : k + xs.length ≤ limit) :
    ((k + xs.length : Int) : ℚ) ≤ R.sum xs s := by
  induction xs generalizing k s with
  | nil => simpa [sum] using le
  | cons x xs ih =>
      rw [List.forall_mem_cons] at large
      rw [List.length_cons] at fits
      have next : ((k + 1 : Int) : ℚ) ≤ R.round (s + x) :=
        R.int_le_round (by omega) (by omega) (by push_cast; linarith [large.1])
      have tail := ih large.2 (k := k + 1) (by omega) next (by push_cast at fits ⊢; omega)
      rw [List.length_cons]
      push_cast at tail ⊢
      rw [add_comm (xs.length : ℚ) 1, ← add_assoc]
      exact tail

end Rounding

/-! ## Binary digits -/

/-- The nearest integer, and the even one of two. -/
def halfEven (y : ℚ) : Int :=
  if y - ⌊y⌋ < 1 / 2 ∨ (y - ⌊y⌋ = 1 / 2 ∧ Even ⌊y⌋) then ⌊y⌋ else ⌊y⌋ + 1

theorem halfEven_int (n : Int) : halfEven n = n := by
  simp [halfEven]

theorem halfEven_mono : Monotone halfEven := by
  intro x y le
  have floors := Int.floor_mono le
  have bounds : ∀ z, ⌊z⌋ ≤ halfEven z ∧ halfEven z ≤ ⌊z⌋ + 1 := by
    intro z
    unfold halfEven
    split_ifs <;> omega
  by_cases same : ⌊x⌋ = ⌊y⌋
  · unfold halfEven
    rw [same]
    split_ifs with hx hy hy
    · exact le_rfl
    · omega
    · -- the larger one is rounded down, so the smaller one is
      refine absurd ?_ hx
      rcases hy with below | ⟨half, even⟩
      · exact .inl (by linarith)
      · rcases le.lt_or_eq with lt | rfl
        · exact .inl (by linarith)
        · exact .inr ⟨half, even⟩
    · exact le_rfl
  · have := bounds x
    have := bounds y
    omega

theorem halfEven_neg (y : ℚ) : halfEven (-y) = -halfEven y := by
  by_cases int : (⌊y⌋ : ℚ) = y
  · rw [← int, ← Int.cast_neg, halfEven_int, halfEven_int]
  · have low := lt_of_le_of_ne (Int.floor_le y) int
    have high := Int.lt_floor_add_one y
    have floor : ⌊-y⌋ = -⌊y⌋ - 1 := by
      rw [Int.floor_eq_iff]
      push_cast
      constructor <;> linarith
    have parity : Even (-⌊y⌋ - 1) ↔ ¬ Even ⌊y⌋ := by
      rw [Int.even_sub_one, even_neg]
    have down : -y - ((-⌊y⌋ - 1 : Int) : ℚ) < 1 / 2 ↔ 1 / 2 < y - ⌊y⌋ := by
      push_cast
      constructor <;> intro h <;> linarith
    have tie : -y - ((-⌊y⌋ - 1 : Int) : ℚ) = 1 / 2 ↔ y - ⌊y⌋ = 1 / 2 := by
      push_cast
      constructor <;> intro h <;> linarith
    unfold halfEven
    rw [floor]
    simp only [down, tie, parity]
    rcases lt_trichotomy (y - ⌊y⌋) (1 / 2) with lt | eq | gt
    · rw [if_neg (by rintro (h | ⟨h, -⟩) <;> linarith), if_pos (.inl lt)]
      ring
    · by_cases even : Even ⌊y⌋
      · rw [if_neg (by rintro (h | ⟨-, h⟩); exacts [by linarith, h even]),
          if_pos (.inr ⟨eq, even⟩)]
        ring
      · rw [if_pos (.inr ⟨eq, even⟩), if_neg (by rintro (h | ⟨-, h⟩); exacts [by linarith, even h])]
        ring
    · rw [if_pos (.inl gt), if_neg (by rintro (h | ⟨h, -⟩) <;> linarith)]
      ring

theorem abs_halfEven_sub_le (y : ℚ) : |halfEven y - y| ≤ 1 / 2 := by
  have low := Int.floor_le y
  have high := Int.lt_floor_add_one y
  rw [halfEven, abs_le]
  split_ifs with down
  · have : y - ⌊y⌋ ≤ 1 / 2 := down.elim le_of_lt fun tie => tie.1.le
    constructor <;> linarith
  · rw [not_or] at down
    have := not_lt.mp down.1
    push_cast
    constructor <;> linarith

/-- An integer is the nearest one to all that is less than a half away. -/
theorem halfEven_eq {y : ℚ} {k : Int} (close : |y - k| < 1 / 2) : halfEven y = k := by
  have nearest := abs_halfEven_sub_le y
  rw [abs_le] at nearest
  rw [abs_lt] at close
  have below : ((k - 1 : Int) : ℚ) < halfEven y := by
    push_cast
    linarith
  have above : (halfEven y : ℚ) < (k + 1 : Int) := by
    push_cast
    linarith
  have := Int.cast_lt.mp below
  have := Int.cast_lt.mp above
  omega

/-- The exponent of the last of `p` digits. -/
def lastDigit (p : Nat) (x : ℚ) : Int := Int.log 2 |x| - (p - 1)

/-- The nearest number of `p` binary digits. -/
def nearest (p : Nat) (x : ℚ) : ℚ :=
  halfEven (x / (2 : ℚ) ^ lastDigit p x) * (2 : ℚ) ^ lastDigit p x

section Nearest

variable {p : Nat}

theorem nearest_neg (x : ℚ) : nearest p (-x) = -nearest p x := by
  simp only [nearest, lastDigit, abs_neg, neg_div, halfEven_neg]
  push_cast
  ring

/-- A number of at most `p` digits has an integral multiple of its last digit. -/
theorem nearest_of_multiple {x : ℚ} {k : Int} (eq : x = k * (2 : ℚ) ^ lastDigit p x) :
    nearest p x = x := by
  have pos : (2 : ℚ) ^ lastDigit p x ≠ 0 := zpow_ne_zero _ two_ne_zero
  rw [nearest, show x / (2 : ℚ) ^ lastDigit p x = k from (div_eq_iff pos).mpr eq, halfEven_int]
  exact eq.symm

theorem lt_two_zpow {x : ℚ} : |x| < (2 : ℚ) ^ ((p : Int) + lastDigit p x) := by
  have lt := Int.lt_zpow_succ_log_self (b := 2) one_lt_two |x|
  rwa [show (p : Int) + lastDigit p x = Int.log 2 |x| + 1 by unfold lastDigit; ring]

theorem two_zpow_le {x : ℚ} (ne : x ≠ 0) :
    (2 : ℚ) ^ ((p : Int) - 1 + lastDigit p x) ≤ |x| := by
  have le := Int.zpow_log_le_self (b := 2) one_lt_two (abs_pos.mpr ne)
  rwa [show (p : Int) - 1 + lastDigit p x = Int.log 2 |x| by unfold lastDigit; ring]

theorem lastDigit_two_zpow (k : Int) : lastDigit p ((2 : ℚ) ^ k) = k - (p - 1) := by
  have log := Int.log_zpow (R := ℚ) (b := 2) one_lt_two k
  rw [Nat.cast_ofNat] at log
  rw [lastDigit, abs_of_pos (by positivity), log]

/-- A power of 2 has one digit. -/
theorem nearest_two_zpow (digits : 0 < p) (k : Int) : nearest p ((2 : ℚ) ^ k) = (2 : ℚ) ^ k := by
  refine nearest_of_multiple (k := 2 ^ (p - 1)) ?_
  rw [lastDigit_two_zpow]
  push_cast
  rw [← zpow_natCast, ← zpow_add₀ two_ne_zero]
  congr 1
  omega

/-- The multiples of a power of 2 by integers of at most `p` digits are not changed. -/
theorem nearest_grid (digits : 0 < p) {m e : Int} (le : |m| ≤ 2 ^ p) :
    nearest p (m * (2 : ℚ) ^ e) = m * (2 : ℚ) ^ e := by
  by_cases zero : m = 0
  · simp [zero, nearest, halfEven]
  have ne : (m : ℚ) * (2 : ℚ) ^ e ≠ 0 := mul_ne_zero (by exact_mod_cast zero) (by positivity)
  by_cases fine : lastDigit p (m * (2 : ℚ) ^ e) ≤ e
  · refine nearest_of_multiple (k := m * 2 ^ (e - lastDigit p (m * (2 : ℚ) ^ e)).toNat) ?_
    push_cast
    rw [mul_assoc, ← zpow_natCast, ← zpow_add₀ two_ne_zero]
    congr 2
    omega
  · -- then `m` has more than `p` digits, and is a power of 2 or the negative of one
    have low := two_zpow_le (p := p) ne
    rw [abs_mul, abs_of_pos (show (0 : ℚ) < 2 ^ e by positivity)] at low
    have bound : (2 : ℚ) ^ ((p : Int) + e) ≤ |(m : ℚ)| * 2 ^ e :=
      (zpow_le_zpow_right₀ one_le_two (by omega)).trans low
    rw [zpow_add₀ two_ne_zero, mul_le_mul_iff_left₀ (by positivity), zpow_natCast] at bound
    have size : |m| = 2 ^ p := le_antisymm le (by exact_mod_cast bound)
    have power : ((2 ^ p : Int) : ℚ) * (2 : ℚ) ^ e = (2 : ℚ) ^ ((p : Int) + e) := by
      rw [zpow_add₀ two_ne_zero, zpow_natCast]
      push_cast
      rfl
    rcases eq_or_eq_neg_of_abs_eq size with rfl | rfl
    · rw [power]
      exact nearest_two_zpow digits _
    · rw [Int.cast_neg, neg_mul, nearest_neg, power, nearest_two_zpow digits]

theorem abs_halfEven_le {y : ℚ} {n : Int} (le : |y| ≤ n) : |halfEven y| ≤ n := by
  obtain ⟨low, high⟩ := abs_le.mp le
  have above := halfEven_mono high
  have below := halfEven_mono low
  rw [halfEven_neg, halfEven_int] at below
  rw [halfEven_int] at above
  exact abs_le.mpr ⟨below, above⟩

theorem nearest_nonneg {x : ℚ} (le : 0 ≤ x) : 0 ≤ nearest p x := by
  have nonneg : 0 ≤ halfEven (x / (2 : ℚ) ^ lastDigit p x) := by
    rw [← halfEven_int 0]
    exact halfEven_mono (by positivity)
  exact mul_nonneg (by exact_mod_cast nonneg) (by positivity)

/-- Two numbers of one magnitude are rounded on one grid, and powers of 2 separate the
magnitudes. -/
theorem nearest_mono_pos (digits : 0 < p) {x y : ℚ} (pos : 0 < x) (le : x ≤ y) :
    nearest p x ≤ nearest p y := by
  have pos' := pos.trans_le le
  have coarser : lastDigit p x ≤ lastDigit p y := by
    have := Int.log_mono_right (b := 2) pos le
    simp only [lastDigit, abs_of_pos pos, abs_of_pos pos']
    omega
  rcases coarser.eq_or_lt with same | lt
  · unfold nearest
    rw [same]
    have := halfEven_mono (div_le_div_of_nonneg_right le
      (show (0 : ℚ) ≤ 2 ^ lastDigit p y by positivity))
    exact mul_le_mul_of_nonneg_right (by exact_mod_cast this) (by positivity)
  · have high := lt_two_zpow (p := p) (x := x)
    have low := two_zpow_le (p := p) pos'.ne'
    rw [abs_of_pos pos] at high
    rw [abs_of_pos pos'] at low
    calc nearest p x ≤ (2 : ℚ) ^ ((p : Int) + lastDigit p x) := by
          rw [zpow_add₀ two_ne_zero, nearest]
          refine mul_le_mul_of_nonneg_right ?_ (by positivity)
          rw [zpow_add₀ two_ne_zero, ← div_lt_iff₀ (by positivity)] at high
          rw [zpow_natCast] at high ⊢
          have := halfEven_mono (show x / (2 : ℚ) ^ lastDigit p x ≤ ((2 ^ p : Int) : ℚ) by
            push_cast
            exact high.le)
          rw [halfEven_int] at this
          exact_mod_cast this
      _ ≤ (2 : ℚ) ^ ((p : Int) - 1 + lastDigit p y) :=
          zpow_le_zpow_right₀ one_le_two (by omega)
      _ ≤ nearest p y := by
          rw [show (p : Int) - 1 = ((p - 1 : Nat) : Int) by omega] at low ⊢
          rw [zpow_add₀ two_ne_zero, nearest]
          refine mul_le_mul_of_nonneg_right ?_ (by positivity)
          rw [zpow_add₀ two_ne_zero, ← le_div_iff₀ (by positivity)] at low
          rw [zpow_natCast] at low ⊢
          have := halfEven_mono (show ((2 ^ (p - 1) : Int) : ℚ) ≤ y / (2 : ℚ) ^ lastDigit p y by
            push_cast
            exact low)
          rw [halfEven_int] at this
          exact_mod_cast this

theorem lastDigit_eq {x : ℚ} {e : Int} (low : (2 : ℚ) ^ ((p : Int) - 1 + e) ≤ x)
    (high : x < (2 : ℚ) ^ ((p : Int) + e)) : lastDigit p x = e := by
  have pos : 0 < x := (show (0 : ℚ) < 2 ^ ((p : Int) - 1 + e) by positivity).trans_le low
  have least := (Int.zpow_le_iff_le_log (b := 2) one_lt_two pos).mp low
  have most := (Int.lt_zpow_iff_log_lt (b := 2) one_lt_two pos).mp high
  rw [lastDigit, abs_of_pos pos]
  omega

/-- What is less than half a digit away from a number of the grid is rounded to it. -/
theorem nearest_eq {x : ℚ} {k e : Int} (last : lastDigit p x = e)
    (close : |x - k * (2 : ℚ) ^ e| < 1 / 2 * 2 ^ e) : nearest p x = k * (2 : ℚ) ^ e := by
  have pos : (0 : ℚ) < 2 ^ e := by positivity
  have scaled : |x / 2 ^ e - k| < 1 / 2 := by
    rw [show x / 2 ^ e - k = (x - k * 2 ^ e) / 2 ^ e by field_simp, abs_div, abs_of_pos pos,
      div_lt_iff₀ pos]
    exact close
  rw [nearest, last, halfEven_eq scaled]

/-- A number of `p` digits is the nearest one to all that is so close to it.  Below a power
of 2 the next one is only half as far away as above it. -/
theorem nearest_of_close_pos (digits : 0 < p) {v x : ℚ} (pos : 0 < v) (kept : nearest p v = v)
    (close : |x - v| * 2 ^ (p + 1) < v) : nearest p x = v := by
  obtain ⟨k, e, k_eq, e_eq⟩ : ∃ k e : Int, v = k * (2 : ℚ) ^ e ∧ e = lastDigit p v :=
    ⟨_, _, kept.symm, rfl⟩
  have unit : (0 : ℚ) < 2 ^ e := by positivity
  have low := two_zpow_le (p := p) pos.ne'
  have high := lt_two_zpow (p := p) (x := v)
  rw [abs_of_pos pos, ← e_eq] at low high
  rw [show (p : Int) - 1 + e = ((p - 1 : Nat) : Int) + e by omega] at low
  rw [zpow_add₀ two_ne_zero, zpow_natCast] at low high
  have half : 2 * (2 : ℚ) ^ (p - 1) = 2 ^ p := by
    rw [← pow_succ', Nat.sub_add_cancel digits]
  have one_le : (1 : ℚ) ≤ 2 ^ (p - 1) := one_le_pow₀ one_le_two
  have k_lt : k + 1 ≤ 2 ^ p := by
    rw [k_eq, mul_lt_mul_iff_left₀ unit] at high
    exact_mod_cast high
  have near : |x - v| < 1 / 2 * 2 ^ e := by
    rw [pow_succ] at close
    have : |x - v| * 2 ^ p < 1 / 2 * 2 ^ e * 2 ^ p := by linarith
    exact lt_of_mul_lt_mul_right this (by positivity)
  have bounds := abs_lt.mp near
  by_cases inside : (2 : ℚ) ^ (p - 1) * 2 ^ e ≤ x
  · have below : x < 2 ^ p * 2 ^ e := by
      have : (k : ℚ) + 1 ≤ 2 ^ p := by exact_mod_cast k_lt
      have := mul_le_mul_of_nonneg_right this unit.le
      linarith
    rw [k_eq] at near ⊢
    refine nearest_eq (lastDigit_eq ?_ ?_) near
    · rwa [show (p : Int) - 1 + e = ((p - 1 : Nat) : Int) + e by omega, zpow_add₀ two_ne_zero,
        zpow_natCast]
    · rwa [zpow_add₀ two_ne_zero, zpow_natCast]
  · -- `x` is below the least number of `p` digits with this last one, which `v` then is
    rw [not_le] at inside
    have least : v = 2 ^ (p - 1) * 2 ^ e := by
      have : (k : ℚ) * 2 ^ e < (2 ^ (p - 1) + 1) * 2 ^ e := by linarith
      rw [mul_lt_mul_iff_left₀ unit] at this
      have le : k ≤ 2 ^ (p - 1) := Int.lt_add_one_iff.mp (by exact_mod_cast this)
      refine le_antisymm ?_ low
      rw [k_eq]
      exact mul_le_mul_of_nonneg_right (by exact_mod_cast le) unit.le
    have step : (2 : ℚ) ^ e = 2 * 2 ^ (e - 1) := by
      rw [← zpow_one_add₀ two_ne_zero]
      congr 1
      ring
    have unit' : (0 : ℚ) < 2 ^ (e - 1) := by positivity
    have grid : v = ((2 ^ p : Int) : ℚ) * 2 ^ (e - 1) := by
      push_cast
      rw [least, step, ← half]
      ring
    have nearer : |x - v| < 1 / 2 * 2 ^ (e - 1) := by
      rw [pow_succ] at close
      push_cast at grid
      have : |x - v| * 2 ^ p < 1 / 2 * 2 ^ (e - 1) * 2 ^ p := by linarith
      exact lt_of_mul_lt_mul_right this (by positivity)
    have bounds' := abs_lt.mp nearer
    rw [grid] at nearer ⊢
    refine nearest_eq (lastDigit_eq ?_ ?_) nearer
    · rw [show (p : Int) - 1 + (e - 1) = ((p - 1 : Nat) : Int) + (e - 1) by omega,
        zpow_add₀ two_ne_zero, zpow_natCast]
      have : (2 : ℚ) ^ (p - 1) * 2 ^ (e - 1) ≤ 2 * 2 ^ (p - 1) * 2 ^ (e - 1) - 2 ^ (e - 1) := by
        nlinarith
      rw [half] at this
      push_cast at grid
      linarith
    · rw [zpow_add₀ two_ne_zero, zpow_natCast]
      push_cast at grid
      rw [← grid, least]
      exact inside

end Nearest

/-! ## Exponents with a lower end -/

/-- The exponent of the last of `p` digits, which is at least `q`. -/
def lastDigitFrom (p : Nat) (q : Int) (x : ℚ) : Int := max (lastDigit p x) q

/-- The nearest number of `p` binary digits whose last one stands for at least `2 ^ q`. -/
def nearestFrom (p : Nat) (q : Int) (x : ℚ) : ℚ :=
  halfEven (x / (2 : ℚ) ^ lastDigitFrom p q x) * (2 : ℚ) ^ lastDigitFrom p q x

section NearestFrom

variable {p : Nat} {q : Int}

theorem nearestFrom_neg (x : ℚ) : nearestFrom p q (-x) = -nearestFrom p q x := by
  simp only [nearestFrom, lastDigitFrom, lastDigit, abs_neg, neg_div, halfEven_neg]
  push_cast
  ring

@[simp] theorem nearestFrom_zero : nearestFrom p q 0 = 0 := by
  simp [nearestFrom, halfEven]

/-- Large numbers have all their digits. -/
theorem nearestFrom_of_le {x : ℚ} (le : q ≤ lastDigit p x) :
    nearestFrom p q x = nearest p x := by
  rw [nearestFrom, lastDigitFrom, max_eq_left le, nearest]

/-- Small numbers are rounded to the multiples of `2 ^ q`. -/
theorem nearestFrom_of_ge {x : ℚ} (ge : lastDigit p x ≤ q) :
    nearestFrom p q x = halfEven (x / (2 : ℚ) ^ q) * (2 : ℚ) ^ q := by
  rw [nearestFrom, lastDigitFrom, max_eq_right ge]

theorem lt_two_zpow_from (x : ℚ) : |x| < (2 : ℚ) ^ ((p : Int) + lastDigitFrom p q x) := by
  refine (lt_two_zpow (p := p)).trans_le (zpow_le_zpow_right₀ one_le_two ?_)
  exact Int.add_le_add_left (le_max_left _ _) _

/-- The multiples of a power of 2 by integers of at most `p` digits are not changed. -/
theorem nearestFrom_grid (digits : 0 < p) {m e : Int} (le : |m| ≤ 2 ^ p) (least : q ≤ e) :
    nearestFrom p q (m * (2 : ℚ) ^ e) = m * (2 : ℚ) ^ e := by
  rcases le_total q (lastDigit p (m * (2 : ℚ) ^ e)) with large | small
  · rw [nearestFrom_of_le large, nearest_grid digits le]
  · have multiple : (m : ℚ) * 2 ^ e / 2 ^ q = ((m * 2 ^ (e - q).toNat : Int) : ℚ) := by
      rw [div_eq_iff (by positivity)]
      push_cast
      rw [mul_assoc, ← zpow_natCast, ← zpow_add₀ two_ne_zero]
      congr 2
      omega
    rw [nearestFrom_of_ge small, multiple, halfEven_int, ← multiple,
      div_mul_cancel₀ _ (by positivity)]

/-- A power of 2 has one digit. -/
theorem nearestFrom_two_zpow (digits : 0 < p) {k : Int} (least : q ≤ k) :
    nearestFrom p q ((2 : ℚ) ^ k) = (2 : ℚ) ^ k := by
  have one_le : |(1 : Int)| ≤ 2 ^ p := by
    rw [abs_one]
    exact one_le_pow₀ one_le_two
  simpa using nearestFrom_grid digits one_le least

theorem nearestFrom_idem (digits : 0 < p) (x : ℚ) :
    nearestFrom p q (nearestFrom p q x) = nearestFrom p q x := by
  refine nearestFrom_grid digits (abs_halfEven_le ?_) (le_max_right _ _)
  have lt := lt_two_zpow_from (p := p) (q := q) x
  rw [zpow_add₀ two_ne_zero, zpow_natCast] at lt
  rw [abs_div, abs_of_pos (show (0 : ℚ) < 2 ^ lastDigitFrom p q x by positivity),
    div_le_iff₀ (by positivity)]
  push_cast
  exact lt.le

theorem nearestFrom_nonneg {x : ℚ} (le : 0 ≤ x) : 0 ≤ nearestFrom p q x := by
  have nonneg : 0 ≤ halfEven (x / (2 : ℚ) ^ lastDigitFrom p q x) := by
    rw [← halfEven_int 0]
    exact halfEven_mono (by positivity)
  exact mul_nonneg (by exact_mod_cast nonneg) (by positivity)

/-- On the grid of the least exponent as above it. -/
theorem nearestFrom_mono_pos (digits : 0 < p) {x y : ℚ} (pos : 0 < x) (le : x ≤ y) :
    nearestFrom p q x ≤ nearestFrom p q y := by
  have pos' := pos.trans_le le
  have coarser : lastDigit p x ≤ lastDigit p y := by
    have := Int.log_mono_right (b := 2) pos le
    simp only [lastDigit, abs_of_pos pos, abs_of_pos pos']
    omega
  rcases le_total q (lastDigit p x) with large | small
  · rw [nearestFrom_of_le large, nearestFrom_of_le (large.trans coarser)]
    exact nearest_mono_pos digits pos le
  rcases le_or_gt (lastDigit p y) q with small' | large'
  · rw [nearestFrom_of_ge small, nearestFrom_of_ge small']
    have := halfEven_mono (div_le_div_of_nonneg_right le
      (show (0 : ℚ) ≤ 2 ^ q by positivity))
    exact mul_le_mul_of_nonneg_right (by exact_mod_cast this) (by positivity)
  · -- the power of 2 with `p + 1` digits on the grid of `x` lies between
    have high := lt_two_zpow_from (p := p) (q := q) x
    rw [lastDigitFrom, max_eq_right small, abs_of_pos pos] at high
    calc nearestFrom p q x ≤ (2 : ℚ) ^ ((p : Int) + q) := by
          rw [nearestFrom_of_ge small, zpow_add₀ two_ne_zero]
          refine mul_le_mul_of_nonneg_right ?_ (by positivity)
          rw [zpow_add₀ two_ne_zero, ← div_lt_iff₀ (by positivity)] at high
          rw [zpow_natCast] at high ⊢
          have := halfEven_mono (show x / (2 : ℚ) ^ q ≤ ((2 ^ p : Int) : ℚ) by
            push_cast
            exact high.le)
          rw [halfEven_int] at this
          exact_mod_cast this
      _ = nearest p ((2 : ℚ) ^ ((p : Int) + q)) := (nearest_two_zpow digits _).symm
      _ ≤ nearest p y := by
          have above := two_zpow_le (p := p) pos'.ne'
          rw [abs_of_pos pos'] at above
          refine nearest_mono_pos digits (by positivity) (le_trans ?_ above)
          exact zpow_le_zpow_right₀ one_le_two (by omega)
      _ = nearestFrom p q y := (nearestFrom_of_le large'.le).symm

theorem nearestFrom_mono (digits : 0 < p) : Monotone (nearestFrom p q) := by
  intro x y le
  rcases lt_trichotomy x 0 with neg | rfl | pos
  · by_cases neg' : y < 0
    · have := nearestFrom_mono_pos (q := q) digits (neg_pos.mpr neg') (neg_le_neg le)
      rw [nearestFrom_neg, nearestFrom_neg] at this
      exact neg_le_neg_iff.mp this
    · have above := nearestFrom_nonneg (p := p) (q := q) (not_lt.mp neg')
      have below := nearestFrom_nonneg (p := p) (q := q) (neg_pos.mpr neg).le
      rw [nearestFrom_neg] at below
      linarith
  · rw [nearestFrom_zero]
    exact nearestFrom_nonneg le
  · exact nearestFrom_mono_pos digits pos le

theorem nearestFrom_of_close_pos (digits : 0 < p) {v x : ℚ} (pos : 0 < v)
    (kept : nearestFrom p q v = v) (close : |x - v| * 2 ^ (p + 1) < v) :
    nearestFrom p q x = v := by
  have two_le : (2 : ℚ) ≤ 2 ^ (p + 1) := by
    have := pow_le_pow_right₀ (one_le_two (α := ℚ)) (show 1 ≤ p + 1 by omega)
    simpa using this
  have half : |x - v| < 1 / 2 * v := by
    have := mul_le_mul_of_nonneg_left two_le (abs_nonneg (x - v))
    linarith
  have above : 1 / 2 * v < x := by
    have := (abs_lt.mp half).1
    linarith
  have pos' : 0 < x := by linarith
  rcases le_or_gt (lastDigit p v) q with small | large
  · have unit : (0 : ℚ) < 2 ^ q := by positivity
    obtain ⟨k, k_eq⟩ : ∃ k : Int, v = k * (2 : ℚ) ^ q :=
      ⟨_, (kept.symm.trans (nearestFrom_of_ge small))⟩
    have high := lt_two_zpow_from (p := p) (q := q) v
    rw [lastDigitFrom, max_eq_right small, abs_of_pos pos, zpow_add₀ two_ne_zero, zpow_natCast]
      at high
    have k_lt : (k : ℚ) + 1 ≤ 2 ^ p := by
      rw [k_eq, mul_lt_mul_iff_left₀ unit] at high
      have : k + 1 ≤ 2 ^ p := by exact_mod_cast high
      exact_mod_cast this
    have near : |x - v| < 1 / 2 * 2 ^ q := by
      rw [pow_succ] at close
      have : |x - v| * 2 ^ p < 1 / 2 * 2 ^ q * 2 ^ p := by linarith
      exact lt_of_mul_lt_mul_right this (by positivity)
    have below : x < (2 : ℚ) ^ ((p : Int) + q) := by
      have := mul_le_mul_of_nonneg_right k_lt unit.le
      have := (abs_lt.mp near).2
      rw [zpow_add₀ two_ne_zero, zpow_natCast]
      linarith
    have small' : lastDigit p x ≤ q := by
      have := (Int.lt_zpow_iff_log_lt (b := 2) one_lt_two pos').mp below
      rw [lastDigit, abs_of_pos pos']
      omega
    have scaled : |x / 2 ^ q - k| < 1 / 2 := by
      rw [show x / 2 ^ q - k = (x - k * 2 ^ q) / 2 ^ q by field_simp, abs_div,
        abs_of_pos unit, div_lt_iff₀ unit, ← k_eq]
      exact near
    rw [nearestFrom_of_ge small', halfEven_eq scaled, ← k_eq]
  · rw [nearestFrom_of_le large.le] at kept
    have least := two_zpow_le (p := p) pos.ne'
    rw [abs_of_pos pos] at least
    have large' : q ≤ lastDigit p x := by
      have step : (2 : ℚ) ^ ((p : Int) - 1 + q) ≤ 1 / 2 * v := by
        have : (2 : ℚ) * 2 ^ ((p : Int) - 1 + q) ≤ v := by
          rw [← zpow_one_add₀ two_ne_zero]
          exact (zpow_le_zpow_right₀ one_le_two (by omega)).trans least
        linarith
      have := (Int.zpow_le_iff_le_log (b := 2) one_lt_two pos').mp (step.trans above.le)
      rw [lastDigit, abs_of_pos pos']
      omega
    rw [nearestFrom_of_le large']
    exact nearest_of_close_pos digits pos kept close

/-- A number that is kept is the nearest one to all that is so close to it. -/
theorem nearestFrom_of_close (digits : 0 < p) {v x : ℚ} (kept : nearestFrom p q v = v)
    (close : |x - v| * 2 ^ (p + 1) < |v|) : nearestFrom p q x = v := by
  rcases lt_trichotomy v 0 with neg | rfl | pos
  · have opposite := nearestFrom_of_close_pos (q := q) digits (neg_pos.mpr neg) (x := -x)
      (by rw [nearestFrom_neg, kept])
      (by rwa [neg_sub_neg, abs_sub_comm, ← abs_of_neg neg])
    rw [nearestFrom_neg] at opposite
    exact neg_injective opposite
  · rw [abs_zero] at close
    exact absurd close (not_lt.mpr (by positivity))
  · exact nearestFrom_of_close_pos digits pos kept (by rwa [abs_of_pos pos] at close)

end NearestFrom

/-- Rounding to the nearest such number, ties to even. -/
def Rounding.binaryFrom (p : Nat) (q : Int) (digits : 0 < p) (fine : q ≤ 0) :
    Rounding (2 ^ p) where
  round := nearestFrom p q
  mono := nearestFrom_mono digits
  idem := nearestFrom_idem digits
  int n least most := by
    have grid := nearestFrom_grid (q := q) digits (m := n) (abs_le.mpr ⟨least, most⟩) fine
    simpa using grid

end CpuSched
