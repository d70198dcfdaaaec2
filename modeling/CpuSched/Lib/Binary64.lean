import CpuSched.Lib.Rounding
import Mathlib.Algebra.Order.Group.Int.Sum

/-!
# Doubles

The numbers of the format binary64 and their arithmetic.  A finite double is a sign and a
magnitude of 53 binary digits, of which those below `2 ^ (-1074)` are missing; beside these
there are two infinities and a value that is no number.  Every operation rounds its exact
result to the nearest double, ties to even, and a result of magnitude `2 ^ 1024` or more is
infinite.
-/

namespace CpuSched

/-- The rounding of doubles, as if their exponents had no upper end. -/
def doubleRound (x : ℚ) : ℚ := nearestFrom 53 (-1074) x

theorem doubleRound_mono : Monotone doubleRound := nearestFrom_mono (by decide)

theorem doubleRound_idem (x : ℚ) : doubleRound (doubleRound x) = doubleRound x :=
  nearestFrom_idem (by decide) x

theorem doubleRound_neg (x : ℚ) : doubleRound (-x) = -doubleRound x := nearestFrom_neg x

@[simp] theorem doubleRound_zero : doubleRound 0 = 0 := nearestFrom_zero

theorem doubleRound_nonneg {x : ℚ} (le : 0 ≤ x) : 0 ≤ doubleRound x := nearestFrom_nonneg le

/-- Integers of 53 digits are doubles. -/
theorem doubleRound_int {n : Int} (le : |n| ≤ 2 ^ 53) : doubleRound n = n := by
  have grid := nearestFrom_grid (q := -1074) (e := 0) (by decide) le (by decide)
  rwa [zpow_zero, mul_one] at grid

theorem doubleRound_two_zpow {k : Int} (least : -1074 ≤ k) :
    doubleRound ((2 : ℚ) ^ k) = (2 : ℚ) ^ k := nearestFrom_two_zpow (by decide) least

/-- What is not above a power of 2 is not rounded above it. -/
theorem abs_doubleRound_le {x : ℚ} {k : Int} (least : -1074 ≤ k) (le : |x| ≤ (2 : ℚ) ^ k) :
    |doubleRound x| ≤ (2 : ℚ) ^ k := by
  obtain ⟨low, high⟩ := abs_le.mp le
  have above := doubleRound_mono high
  have below := doubleRound_mono low
  rw [doubleRound_neg, doubleRound_two_zpow least] at below
  rw [doubleRound_two_zpow least] at above
  exact abs_le.mpr ⟨below, above⟩

theorem abs_doubleRound (x : ℚ) : doubleRound |x| = |doubleRound x| := by
  rcases le_total 0 x with nonneg | nonpos
  · rw [abs_of_nonneg nonneg, abs_of_nonneg (doubleRound_nonneg nonneg)]
  · have := doubleRound_nonneg (neg_nonneg.mpr nonpos)
    rw [doubleRound_neg] at this
    rw [abs_of_nonpos nonpos, doubleRound_neg, abs_of_nonpos (neg_nonneg.mp this)]

/-! ## The numbers -/

/-- The magnitude of a finite double. -/
@[ext] structure Magnitude where
  val : ℚ
  nonneg : 0 ≤ val
  kept : doubleRound val = val
  lt : val < (2 : ℚ) ^ (1024 : Int)

/-- A double. -/
inductive Binary64
  | nan
  | infinity (negative : Bool)
  | finite (negative : Bool) (magnitude : Magnitude)

namespace Binary64

/-- A number with a sign. -/
def signed (negative : Bool) (x : ℚ) : ℚ := if negative then -x else x

/-- The number that a finite double stands for. -/
def val : Binary64 → ℚ
  | finite negative m => signed negative m.val
  | _ => 0

/-- It is neither infinite nor not a number. -/
def isFinite : Binary64 → Bool
  | finite _ _ => true
  | _ => false

/-- The double nearest to `x`, which for zero has the given sign. -/
def round (zero : Bool) (x : ℚ) : Binary64 :=
  let negative := if x = 0 then zero else decide (x < 0)
  if lt : doubleRound |x| < (2 : ℚ) ^ (1024 : Int) then
    finite negative ⟨doubleRound |x|, doubleRound_nonneg (abs_nonneg x), doubleRound_idem _, lt⟩
  else infinity negative

/-! ## Arithmetic -/

def ofInt (n : Int) : Binary64 := round false n

def neg : Binary64 → Binary64
  | nan => nan
  | infinity s => infinity !s
  | finite s a => finite (!s) a

/-- A sum that is zero has a minus sign only if both terms have one. -/
def add : Binary64 → Binary64 → Binary64
  | nan, _ => nan
  | _, nan => nan
  | infinity s, infinity t => if s = t then infinity s else nan
  | infinity s, finite _ _ => infinity s
  | finite _ _, infinity t => infinity t
  | finite s a, finite t b => round (s && t) (signed s a.val + signed t b.val)

def sub (a b : Binary64) : Binary64 := add a (neg b)

def mul : Binary64 → Binary64 → Binary64
  | nan, _ => nan
  | _, nan => nan
  | infinity s, infinity t => infinity (s ^^ t)
  | infinity s, finite t b => if b.val = 0 then nan else infinity (s ^^ t)
  | finite s a, infinity t => if a.val = 0 then nan else infinity (s ^^ t)
  | finite s a, finite t b => round (s ^^ t) (signed s a.val * signed t b.val)

def div : Binary64 → Binary64 → Binary64
  | nan, _ => nan
  | _, nan => nan
  | infinity _, infinity _ => nan
  | infinity s, finite t _ => infinity (s ^^ t)
  | finite s _, infinity t => round (s ^^ t) 0
  | finite s a, finite t b =>
      if b.val = 0 then if a.val = 0 then nan else infinity (s ^^ t)
      else round (s ^^ t) (signed s a.val / signed t b.val)

/-- What is no number is below nothing. -/
def lt : Binary64 → Binary64 → Bool
  | nan, _ => false
  | _, nan => false
  | infinity s, infinity t => s && !t
  | infinity s, finite _ _ => s
  | finite _ _, infinity t => !t
  | finite s a, finite t b => decide (signed s a.val < signed t b.val)

def le : Binary64 → Binary64 → Bool
  | nan, _ => false
  | _, nan => false
  | infinity s, infinity t => s || !t
  | infinity s, finite _ _ => s
  | finite _ _, infinity t => !t
  | finite s a, finite t b => decide (signed s a.val ≤ signed t b.val)

/-! ## Exact values -/

/-- A finite double and the number it stands for. -/
structure Stands (a : Binary64) (x : ℚ) : Prop where
  finite : a.isFinite = true
  val_eq : a.val = x

theorem Stands.exists_magnitude {a : Binary64} {x : ℚ} (stands : Stands a x) :
    ∃ s m, a = .finite s m ∧ signed s m.val = x := by
  obtain ⟨finite, val_eq⟩ := stands
  cases a with
  | nan => cases finite
  | infinity s => cases finite
  | finite s m => exact ⟨s, m, rfl, val_eq⟩

/-- A positive one has no minus sign. -/
theorem Stands.exists_pos {a : Binary64} {x : ℚ} (stands : Stands a x) (pos : 0 < x) :
    ∃ m, a = .finite false m ∧ m.val = x := by
  obtain ⟨s, m, rfl, rfl⟩ := stands.exists_magnitude
  cases s with
  | false => exact ⟨m, rfl, rfl⟩
  | true =>
      have nonneg := m.nonneg
      have : 0 < -m.val := pos
      linarith

/-- A result of magnitude at most `2 ^ 1023` is finite. -/
theorem stands_round {zero : Bool} {x : ℚ} (small : |x| ≤ (2 : ℚ) ^ (1023 : Int)) :
    Stands (round zero x) (doubleRound x) := by
  have lt : doubleRound |x| < (2 : ℚ) ^ (1024 : Int) := by
    rw [abs_doubleRound]
    exact (abs_doubleRound_le (by decide) small).trans_lt
      (zpow_lt_zpow_right₀ one_lt_two (by decide))
  rw [round, dif_pos lt]
  refine ⟨rfl, ?_⟩
  simp only [val, signed]
  rcases lt_trichotomy x 0 with neg | rfl | pos
  · rw [if_neg neg.ne, if_pos (decide_eq_true neg), abs_of_neg neg, doubleRound_neg, neg_neg]
  · simp
  · rw [if_neg pos.ne', if_neg (by simpa using pos.le), abs_of_pos pos]

section Operations

variable {a b : Binary64} {x y : ℚ}

theorem stands_ofInt {n : Int} (le : |n| ≤ 2 ^ 53) : Stands (ofInt n) n := by
  have small : |(n : ℚ)| ≤ (2 : ℚ) ^ (1023 : Int) := by
    have : |(n : ℚ)| ≤ (2 : ℚ) ^ (53 : Nat) := by exact_mod_cast le
    rw [← zpow_natCast] at this
    exact this.trans (zpow_le_zpow_right₀ one_le_two (by decide))
  have stands : Stands (ofInt n) (doubleRound n) := stands_round small
  rwa [doubleRound_int le] at stands

theorem Stands.neg (ha : Stands a x) : Stands (neg a) (-x) := by
  obtain ⟨s, m, rfl, rfl⟩ := ha.exists_magnitude
  refine ⟨rfl, ?_⟩
  cases s <;> simp [Binary64.neg, val, signed]

theorem Stands.add (ha : Stands a x) (hb : Stands b y)
    (small : |x + y| ≤ (2 : ℚ) ^ (1023 : Int)) : Stands (add a b) (doubleRound (x + y)) := by
  obtain ⟨s, m, rfl, rfl⟩ := ha.exists_magnitude
  obtain ⟨t, m', rfl, rfl⟩ := hb.exists_magnitude
  exact stands_round small

theorem Stands.sub (ha : Stands a x) (hb : Stands b y)
    (small : |x - y| ≤ (2 : ℚ) ^ (1023 : Int)) : Stands (sub a b) (doubleRound (x - y)) := by
  rw [sub_eq_add_neg] at small ⊢
  exact ha.add hb.neg small

theorem Stands.mul (ha : Stands a x) (hb : Stands b y)
    (small : |x * y| ≤ (2 : ℚ) ^ (1023 : Int)) : Stands (mul a b) (doubleRound (x * y)) := by
  obtain ⟨s, m, rfl, rfl⟩ := ha.exists_magnitude
  obtain ⟨t, m', rfl, rfl⟩ := hb.exists_magnitude
  exact stands_round small

theorem Stands.div (ha : Stands a x) (hb : Stands b y) (ne : y ≠ 0)
    (small : |x / y| ≤ (2 : ℚ) ^ (1023 : Int)) : Stands (div a b) (doubleRound (x / y)) := by
  obtain ⟨s, m, rfl, rfl⟩ := ha.exists_magnitude
  obtain ⟨t, m', rfl, rfl⟩ := hb.exists_magnitude
  have divisor : m'.val ≠ 0 := by
    intro zero
    refine ne ?_
    cases t <;> simp [signed, zero]
  simp only [Binary64.div, if_neg divisor]
  exact stands_round small

theorem Stands.le_iff (ha : Stands a x) (hb : Stands b y) : le a b = true ↔ x ≤ y := by
  obtain ⟨s, m, rfl, rfl⟩ := ha.exists_magnitude
  obtain ⟨t, m', rfl, rfl⟩ := hb.exists_magnitude
  exact decide_eq_true_iff

theorem Stands.lt_iff (ha : Stands a x) (hb : Stands b y) : lt a b = true ↔ x < y := by
  obtain ⟨s, m, rfl, rfl⟩ := ha.exists_magnitude
  obtain ⟨t, m', rfl, rfl⟩ := hb.exists_magnitude
  exact decide_eq_true_iff

/-- A positive difference from itself is zero, with a plus sign. -/
theorem Stands.sub_self (ha : Stands a x) : Binary64.sub a a = ofInt 0 := by
  obtain ⟨s, m, rfl, rfl⟩ := ha.exists_magnitude
  have sum : signed s m.val + signed (!s) m.val = 0 := by
    cases s <;> simp [signed]
  have sign : (s && !s) = false := by cases s <;> rfl
  simp only [Binary64.sub, Binary64.neg, Binary64.add, sum, sign, ofInt, Int.cast_zero]

end Operations

/-- An integer that is not negative has no minus sign. -/
theorem ofInt_of_nonneg {n : Int} (nonneg : 0 ≤ n) (le : n ≤ 2 ^ 53) :
    ∃ m, ofInt n = finite false m ∧ m.val = n := by
  rcases nonneg.eq_or_lt with rfl | pos
  · have lt : doubleRound |((0 : Int) : ℚ)| < (2 : ℚ) ^ (1024 : Int) := by
      rw [Int.cast_zero, abs_zero, doubleRound_zero]
      positivity
    rw [ofInt, round, dif_pos lt]
    exact ⟨_, by rw [if_pos Int.cast_zero], by simp⟩
  · exact (stands_ofInt (by rwa [abs_of_pos pos])).exists_pos (by exact_mod_cast pos)

/-- Integers add up exactly up to `2 ^ 53`. -/
theorem ofInt_add {m n : Int} (hm : 0 ≤ m) (hn : 0 ≤ n) (le : m + n ≤ 2 ^ 53) :
    add (ofInt m) (ofInt n) = ofInt (m + n) := by
  obtain ⟨a, a_eq, a_val⟩ := ofInt_of_nonneg hm (by omega)
  obtain ⟨b, b_eq, b_val⟩ := ofInt_of_nonneg hn (by omega)
  rw [a_eq, b_eq, ofInt, Int.cast_add, ← a_val, ← b_val]
  rfl

/-- A sum of integers that are not negative is exact up to `2 ^ 53`. -/
theorem sum_ofInt {xs : List Int} (nonneg : ∀ x ∈ xs, 0 ≤ x) {s : Int} (start : 0 ≤ s)
    (fits : s + xs.sum ≤ 2 ^ 53) :
    xs.foldl (fun sum x => add sum (ofInt x)) (ofInt s) = ofInt (s + xs.sum) := by
  induction xs generalizing s with
  | nil => simp
  | cons x xs ih =>
      rw [List.forall_mem_cons] at nonneg
      rw [List.sum_cons] at fits ⊢
      have rest : 0 ≤ xs.sum := List.sum_nonneg nonneg.2
      rw [List.foldl_cons, ofInt_add start nonneg.1 (by omega),
        ih nonneg.2 (by omega) (by omega), add_assoc]

/-- Zero times a number and zero by a positive number are zero. -/
theorem zero_scaled {k : Int} (nonneg : 0 ≤ k) (le : k ≤ 2 ^ 53) {b : Binary64} {y : ℚ}
    (hb : Stands b y) (pos : 0 < y) : div (mul (ofInt k) (ofInt 0)) b = ofInt 0 := by
  obtain ⟨m, k_eq, -⟩ := ofInt_of_nonneg nonneg le
  obtain ⟨z, z_eq, z_val⟩ := ofInt_of_nonneg le_rfl (show (0 : Int) ≤ 2 ^ 53 by decide)
  obtain ⟨d, rfl, rfl⟩ := hb.exists_pos pos
  have product : mul (ofInt k) (ofInt 0) = ofInt 0 := by
    rw [k_eq]
    nth_rewrite 1 [z_eq]
    simp only [mul, signed, z_val, Int.cast_zero, Bool.xor_false, ofInt]
    simp
  rw [product]
  nth_rewrite 1 [z_eq]
  simp only [div, if_neg pos.ne', signed, z_val, Int.cast_zero, Bool.xor_false, ofInt]
  simp

/-! ## Decimals -/

/-- The double that a decimal with a sign is rounded to. -/
def ofDecimal (negative : Bool) (x : ℚ) : Binary64 := round negative (signed negative x)

theorem ofDecimal_eq {negative : Bool} {x : ℚ} (nonneg : 0 ≤ x) {m : Magnitude}
    (nearest : doubleRound x = m.val) : ofDecimal negative x = finite negative m := by
  have size : |signed negative x| = x := by
    cases negative <;> simp [signed, abs_of_nonneg nonneg]
  have lt : doubleRound |signed negative x| < (2 : ℚ) ^ (1024 : Int) := by
    rw [size, nearest]
    exact m.lt
  have sign : (if signed negative x = 0 then negative else decide (signed negative x < 0)) =
      negative := by
    split_ifs with zero
    · rfl
    · cases negative with
      | false => simpa [signed] using nonneg
      | true =>
          have ne : x ≠ 0 := by simpa [signed] using zero
          simpa [signed] using lt_of_le_of_ne nonneg ne.symm
  have value : doubleRound |signed negative x| = m.val := by rw [size, nearest]
  rw [ofDecimal, round, dif_pos lt]
  exact congrArg₂ finite sign (Magnitude.ext value)

/-! ## Bit patterns -/

/-- The exponent and the digits after the first one, in 63 bits. -/
def magnitudeBits (x : ℚ) : Nat :=
  if x < (2 : ℚ) ^ (-1022 : Int) then ⌊x / (2 : ℚ) ^ (-1074 : Int)⌋.toNat
  else
    let e := Int.log 2 x
    ((e + 1022) * 2 ^ 52 + ⌊x / (2 : ℚ) ^ (e - 52)⌋).toNat

/-- The bit pattern: the sign, 11 bits of the exponent and 52 digits. -/
def bits : Binary64 → BitVec 64
  | nan => 0x7ff8000000000000
  | infinity s => BitVec.ofNat 64 ((if s then 2 ^ 63 else 0) + 2047 * 2 ^ 52)
  | finite s m => BitVec.ofNat 64 ((if s then 2 ^ 63 else 0) + magnitudeBits m.val)

/-- The magnitude of a bit pattern. -/
def ofMagnitudeBits (n : Nat) : ℚ :=
  if n / 2 ^ 52 = 0 then (n % 2 ^ 52 : Nat) * (2 : ℚ) ^ (-1074 : Int)
  else (2 ^ 52 + n % 2 ^ 52 : Nat) * (2 : ℚ) ^ ((n / 2 ^ 52 : Nat) - 1075 : Int)

/-- A number below `2 ^ (-1022)` is an integral multiple of the least double. -/
theorem exists_subnormal {x : ℚ} (nonneg : 0 ≤ x) (kept : doubleRound x = x)
    (small : x < (2 : ℚ) ^ (-1022 : Int)) :
    ∃ k : Nat, x = k * (2 : ℚ) ^ (-1074 : Int) ∧ k < 2 ^ 52 := by
  have unit : (0 : ℚ) < (2 : ℚ) ^ (-1074 : Int) := by positivity
  have multiple : ∃ k : Int, x = k * (2 : ℚ) ^ (-1074 : Int) := by
    rcases nonneg.eq_or_lt with rfl | pos
    · exact ⟨0, by simp⟩
    · have below := (Int.lt_zpow_iff_log_lt (b := 2) one_lt_two pos).mp small
      have last : lastDigit 53 x ≤ -1074 := by
        rw [lastDigit, abs_of_pos pos]
        omega
      exact ⟨_, kept.symm.trans (nearestFrom_of_ge last)⟩
  obtain ⟨k, rfl⟩ := multiple
  have k_nonneg : 0 ≤ k := by
    have := nonneg_of_mul_nonneg_left nonneg unit
    exact_mod_cast this
  obtain ⟨n, rfl⟩ := Int.eq_ofNat_of_zero_le k_nonneg
  refine ⟨n, by simp, ?_⟩
  rw [show (-1022 : Int) = (52 : Nat) + -1074 by rfl, zpow_add₀ two_ne_zero, zpow_natCast,
    mul_lt_mul_iff_left₀ unit] at small
  exact_mod_cast small

/-- Any other one has 53 digits. -/
theorem exists_normal {x : ℚ} (kept : doubleRound x = x) (large : (2 : ℚ) ^ (-1022 : Int) ≤ x) :
    ∃ k : Nat, x = k * (2 : ℚ) ^ (Int.log 2 x - 52) ∧ 2 ^ 52 ≤ k ∧ k < 2 ^ 53 ∧
      -1022 ≤ Int.log 2 x := by
  have pos : 0 < x := (show (0 : ℚ) < 2 ^ (-1022 : Int) by positivity).trans_le large
  have least := (Int.zpow_le_iff_le_log (b := 2) one_lt_two pos).mp large
  have last : lastDigit 53 x = Int.log 2 x - 52 := by
    rw [lastDigit, abs_of_pos pos]
    omega
  have eq : x = _ := kept.symm.trans (nearestFrom_of_le (show -1074 ≤ lastDigit 53 x by omega))
  rw [nearest, last] at eq
  obtain ⟨k, k_eq⟩ : ∃ k, k = halfEven (x / (2 : ℚ) ^ (Int.log 2 x - 52)) := ⟨_, rfl⟩
  rw [← k_eq] at eq
  have unit : (0 : ℚ) < (2 : ℚ) ^ (Int.log 2 x - 52) := by positivity
  have low := Int.zpow_log_le_self (b := 2) one_lt_two pos
  have high := Int.lt_zpow_succ_log_self (b := 2) one_lt_two x
  rw [Nat.cast_ofNat] at low high
  rw [show Int.log 2 x = (52 : Nat) + (Int.log 2 x - 52) by omega, zpow_add₀ two_ne_zero,
    zpow_natCast] at low
  rw [show Int.log 2 x + 1 = (53 : Nat) + (Int.log 2 x - 52) by omega, zpow_add₀ two_ne_zero,
    zpow_natCast] at high
  have low : (2 : ℚ) ^ 52 ≤ k := by
    refine le_of_mul_le_mul_right (low.trans_eq ?_) unit
    exact eq
  have high : (k : ℚ) < 2 ^ 53 := by
    refine lt_of_mul_lt_mul_right (lt_of_eq_of_lt ?_ high) unit.le
    exact eq.symm
  have low : (2 : Int) ^ 52 ≤ k := by exact_mod_cast low
  have high : k < (2 : Int) ^ 53 := by exact_mod_cast high
  obtain ⟨n, rfl⟩ := Int.eq_ofNat_of_zero_le (show 0 ≤ k by omega)
  exact ⟨n, by simpa using eq, by omega, by omega, least⟩

/-- A magnitude can be read back from its bits. -/
theorem ofMagnitudeBits_magnitudeBits (m : Magnitude) :
    ofMagnitudeBits (magnitudeBits m.val) = m.val ∧ magnitudeBits m.val < 2047 * 2 ^ 52 := by
  obtain ⟨x, nonneg, kept, lt⟩ := m
  dsimp only
  by_cases small : x < (2 : ℚ) ^ (-1022 : Int)
  · obtain ⟨k, eq, few⟩ := exists_subnormal nonneg kept small
    have digits : magnitudeBits x = k := by
      rw [magnitudeBits, if_pos small]
      nth_rewrite 1 [eq]
      rw [mul_div_cancel_right₀ _ (by positivity), Int.floor_natCast, Int.toNat_natCast]
    rw [digits, ofMagnitudeBits, if_pos (Nat.div_eq_of_lt few), Nat.mod_eq_of_lt few]
    exact ⟨eq.symm, by omega⟩
  · obtain ⟨k, eq, low, high, least⟩ := exists_normal kept (not_lt.mp small)
    have pos : 0 < x := (show (0 : ℚ) < 2 ^ (-1022 : Int) by positivity).trans_le (not_lt.mp small)
    have most := (Int.lt_zpow_iff_log_lt (b := 2) one_lt_two pos).mp lt
    obtain ⟨e, e_eq⟩ := Int.eq_ofNat_of_zero_le (show 0 ≤ Int.log 2 x + 1022 by omega)
    have scaled : x / (2 : ℚ) ^ (Int.log 2 x - 52) = (k : Nat) := by
      nth_rewrite 1 [eq]
      rw [mul_div_cancel_right₀ _ (by positivity)]
    have digits : magnitudeBits x = e * 2 ^ 52 + k := by
      rw [magnitudeBits, if_neg small]
      simp only [scaled, e_eq, Int.floor_natCast]
      exact Int.toNat_natCast (e * 2 ^ 52 + k)
    have exponent : (e * 2 ^ 52 + k) / 2 ^ 52 = e + 1 := by omega
    have fraction : 2 ^ 52 + (e * 2 ^ 52 + k) % 2 ^ 52 = k := by omega
    rw [digits, ofMagnitudeBits, exponent, fraction, if_neg (Nat.succ_ne_zero e)]
    have unit : ((e + 1 : Nat) : Int) - 1075 = Int.log 2 x - 52 := by
      push_cast
      omega
    refine ⟨?_, by omega⟩
    rw [unit]
    exact eq.symm

/-- Different finite doubles have different bit patterns. -/
theorem bits_injective {s t : Bool} {a b : Magnitude}
    (same : bits (finite s a) = bits (finite t b)) : s = t ∧ a = b := by
  obtain ⟨back, few⟩ := ofMagnitudeBits_magnitudeBits a
  obtain ⟨back', few'⟩ := ofMagnitudeBits_magnitudeBits b
  have numbers := congrArg BitVec.toNat same
  simp only [bits, BitVec.toNat_ofNat] at numbers
  have split : s = t ∧ magnitudeBits a.val = magnitudeBits b.val := by
    cases s <;> cases t <;> simp at numbers ⊢ <;> omega
  refine ⟨split.1, Magnitude.ext ?_⟩
  rw [← back, split.2, back']

end Binary64

end CpuSched
