import CpuSched.Lib.Rounding
import Mathlib.Data.List.DropRight
import Mathlib.Data.Nat.Digits.Lemmas

/-!
# Decimal texts

The texts of numbers in base 10, as a sign, digits, a fraction and an exponent, and the text
that `printf` writes for `%d` and `%.*g`.  A number of `p` digits is off by at most half a
unit in its last one; 17 digits are enough to get every number of 53 binary digits back.
-/

namespace CpuSched

/-! ## Digits -/

/-- The digits of a number, the first one first. -/
def decimalDigits (n : Nat) : List Nat := if n = 0 then [0] else (Nat.digits 10 n).reverse

/-- The number that digits write. -/
def ofDecimal (ds : List Nat) : Nat := Nat.ofDigits 10 ds.reverse

/-- The characters of digits. -/
def digitBytes (ds : List Nat) : List UInt8 := ds.map fun d => (48 + d).toUInt8

/-- Digits without the zeros at their end. -/
def stripZeros (ds : List Nat) : List Nat := ds.rdropWhile (· = 0)

theorem ofDecimal_decimalDigits (n : Nat) : ofDecimal (decimalDigits n) = n := by
  rw [ofDecimal, decimalDigits]
  split_ifs with zero
  · simp [zero]
  · rw [List.reverse_reverse, Nat.ofDigits_digits]

theorem ofDecimal_append (as bs : List Nat) :
    ofDecimal (as ++ bs) = ofDecimal as * 10 ^ bs.length + ofDecimal bs := by
  rw [ofDecimal, List.reverse_append, Nat.ofDigits_append, List.length_reverse]
  simp only [ofDecimal]
  ring

@[simp] theorem ofDecimal_replicate_zero (k : Nat) : ofDecimal (List.replicate k 0) = 0 := by
  rw [ofDecimal, List.reverse_replicate, Nat.ofDigits_replicate_zero]

theorem decimalDigits_lt {n d : Nat} (mem : d ∈ decimalDigits n) : d < 10 := by
  rw [decimalDigits] at mem
  split_ifs at mem
  · rw [List.mem_singleton.mp mem]
    decide
  · exact Nat.digits_lt_base (by decide) (List.mem_reverse.mp mem)

/-- There is no zero in front, except in zero itself. -/
theorem decimalDigits_head {n : Nat} (pos : n ≠ 0) :
    ∃ d ds, decimalDigits n = d :: ds ∧ d ≠ 0 := by
  have ne : Nat.digits 10 n ≠ [] := Nat.digits_ne_nil_iff_ne_zero.mpr pos
  have last := Nat.getLast_digit_ne_zero 10 pos
  rw [decimalDigits, if_neg pos]
  obtain ⟨init, d, whole⟩ := (List.eq_nil_or_concat' _).resolve_left ne
  refine ⟨d, init.reverse, ?_, ?_⟩
  · rw [whole, List.reverse_append]
    rfl
  · simpa [whole] using last

theorem decimalDigits_length {n p : Nat} (digits : 0 < p) (low : 10 ^ (p - 1) ≤ n)
    (high : n < 10 ^ p) : (decimalDigits n).length = p := by
  have pos : n ≠ 0 := by
    have : 0 < 10 ^ (p - 1) := by positivity
    omega
  have := (Nat.digits_length_le_iff (by decide) n).mpr high
  have := (Nat.lt_digits_length_iff (by decide) n).mpr low
  rw [decimalDigits, if_neg pos, List.length_reverse]
  omega

theorem stripZeros_spec (ds : List Nat) : ∃ k, ds = stripZeros ds ++ List.replicate k 0 := by
  refine ⟨(ds.rtakeWhile (· = 0)).length, ?_⟩
  have zeros : ds.rtakeWhile (· = 0) = List.replicate (ds.rtakeWhile (· = 0)).length 0 :=
    List.eq_replicate_of_mem fun d mem => by simpa using List.mem_rtakeWhile_imp mem
  rw [← zeros]
  exact (List.rdropWhile_append_rtakeWhile ..).symm

/-! ## Numbers -/

/-- Digits of a whole number, with no zero in front of another digit. -/
structure WholeDigits (ds : List Nat) : Prop where
  nonempty : ds ≠ []
  digit : ∀ d ∈ ds, d < 10
  lead : ds.head? = some 0 → ds = [0]

/-- A fraction, after its point; without digits there is no point. -/
def fractionText (frac : List Nat) : List UInt8 := if frac = [] then [] else 46 :: digitBytes frac

/-- An exponent, which may be missing. -/
inductive ExponentText : List UInt8 → Int → Prop
  | none : ExponentText [] 0
  | plus {ds : List Nat} (nonempty : ds ≠ []) (digit : ∀ d ∈ ds, d < 10) :
      ExponentText (101 :: 43 :: digitBytes ds) (ofDecimal ds)
  | minus {ds : List Nat} (nonempty : ds ≠ []) (digit : ∀ d ∈ ds, d < 10) :
      ExponentText (101 :: 45 :: digitBytes ds) (-ofDecimal ds)

/-- The value of digits before and after the point. -/
def decimalValue (whole frac : List Nat) : ℚ :=
  ofDecimal (whole ++ frac) * (10 : ℚ) ^ (-(frac.length : Int))

/-- The text of a number without a sign. -/
inductive UnsignedText : List UInt8 → ℚ → Prop
  | mk {whole frac : List Nat} {t : List UInt8} {e : Int} (digits : WholeDigits whole)
      (digit : ∀ d ∈ frac, d < 10) (exponent : ExponentText t e) :
      UnsignedText (digitBytes whole ++ fractionText frac ++ t) (decimalValue whole frac * 10 ^ e)

/-- The text of a number, which may start with a minus sign. -/
inductive NumberText : List UInt8 → ℚ → Prop
  | plain {t : List UInt8} {x : ℚ} (text : UnsignedText t x) : NumberText t x
  | minus {t : List UInt8} {x : ℚ} (text : UnsignedText t x) : NumberText (45 :: t) (-x)

theorem wholeDigits (n : Nat) : WholeDigits (decimalDigits n) := by
  by_cases zero : n = 0
  · rw [zero]
    exact ⟨by decide, by decide, fun _ => rfl⟩
  · obtain ⟨d, ds, whole, ne⟩ := decimalDigits_head zero
    refine ⟨by simp [whole], fun d mem => decimalDigits_lt mem, fun lead => ?_⟩
    rw [whole] at lead
    exact absurd (Option.some.inj lead) ne

/-- A whole number as `%d` writes it. -/
def natText (n : Nat) : List UInt8 := digitBytes (decimalDigits n)

/-- An integer as `%d` writes it. -/
def intText (z : Int) : List UInt8 := (if z < 0 then [45] else []) ++ natText z.natAbs

theorem unsignedText_nat (n : Nat) : UnsignedText (natText n) n := by
  have none : ∀ d ∈ ([] : List Nat), d < 10 := by simp
  have text := UnsignedText.mk (wholeDigits n) none .none
  simpa [decimalValue, ofDecimal_decimalDigits, fractionText, natText] using text

theorem numberText_int (z : Int) : NumberText (intText z) z := by
  have text := unsignedText_nat z.natAbs
  rw [intText]
  split_ifs with neg
  · have value : (z : ℚ) = -(z.natAbs : ℚ) := by
      rw [Nat.cast_natAbs, abs_of_neg neg, Int.cast_neg, neg_neg]
    rw [value]
    exact .minus text
  · rw [Nat.cast_natAbs, abs_of_nonneg (not_lt.mp neg)] at text
    exact .plain text

/-! ## Rounded decimals -/

/-- The first `p` digits of a positive number, rounded, and the exponent of the last one. -/
def firstDigits (p : Nat) (x : ℚ) : Nat × Int :=
  let e := Int.log 10 x - (p - 1)
  let m := (halfEven (x / (10 : ℚ) ^ e)).toNat
  if m = 10 ^ p then (10 ^ (p - 1), e + 1) else (m, e)

/-- The number that `%.*g` writes. -/
def decimalOf (p : Nat) (x : ℚ) : ℚ :=
  let r := firstDigits p |x|
  if x = 0 then 0 else if x < 0 then -(r.1 * (10 : ℚ) ^ r.2) else r.1 * (10 : ℚ) ^ r.2

/-- Digits with a point after the whole ones, and no zeros at the end of the fraction. -/
def pointText (whole frac : List Nat) : List UInt8 :=
  digitBytes whole ++ fractionText (stripZeros frac)

/-- An exponent of at least two digits. -/
def exponentText (e : Int) : List UInt8 :=
  101 :: (if e < 0 then 45 else 43) ::
    digitBytes (if e.natAbs < 10 then [0, e.natAbs] else decimalDigits e.natAbs)

/-- The digits of a positive number with its point or its exponent. -/
def digitsText (p : Nat) (m : Nat) (e : Int) : List UInt8 :=
  let ds := decimalDigits m
  let x := e + (p - 1)
  if -4 ≤ x ∧ x < p then
    if 0 ≤ x then pointText (ds.take (x + 1).toNat) (ds.drop (x + 1).toNat)
    else pointText [0] (List.replicate (-x - 1).toNat 0 ++ ds)
  else pointText (ds.take 1) (ds.drop 1) ++ exponentText x

/-- A number as `%.*g` writes it with `p` digits. -/
def formatG (p : Nat) (x : ℚ) : List UInt8 :=
  if x = 0 then [48]
  else (if x < 0 then [45] else []) ++
    digitsText p (firstDigits p |x|).1 (firstDigits p |x|).2

theorem firstDigits_spec {p : Nat} (digits : 0 < p) {x : ℚ} (pos : 0 < x) :
    10 ^ (p - 1) ≤ (firstDigits p x).1 ∧ (firstDigits p x).1 < 10 ^ p ∧
      2 * |(firstDigits p x).1 * (10 : ℚ) ^ (firstDigits p x).2 - x| * 10 ^ (p - 1) ≤ x := by
  obtain ⟨e, e_eq⟩ : ∃ e, e = Int.log 10 x - (p - 1) := ⟨_, rfl⟩
  have unit : (0 : ℚ) < 10 ^ e := by positivity
  have low := Int.zpow_log_le_self (b := 10) (by decide) pos
  have high := Int.lt_zpow_succ_log_self (b := 10) (by decide) x
  rw [show Int.log 10 x + 1 = (p : Int) + e by omega] at high
  rw [show Int.log 10 x = ((p - 1 : Nat) : Int) + e by omega] at low
  rw [Nat.cast_ofNat, zpow_add₀ (by norm_num), zpow_natCast] at low high
  have near := abs_halfEven_sub_le (x / 10 ^ e)
  have least : ((10 ^ (p - 1) : Nat) : Int) ≤ halfEven (x / 10 ^ e) := by
    rw [← halfEven_int ((10 ^ (p - 1) : Nat) : Int)]
    refine halfEven_mono ?_
    push_cast
    rwa [le_div_iff₀ unit]
  have most : halfEven (x / 10 ^ e) ≤ ((10 ^ p : Nat) : Int) := by
    rw [← halfEven_int ((10 ^ p : Nat) : Int)]
    refine halfEven_mono ?_
    push_cast
    rw [div_le_iff₀ unit]
    exact high.le
  obtain ⟨m, m_eq⟩ : ∃ m : Nat, halfEven (x / 10 ^ e) = m :=
    ⟨_, (Int.toNat_of_nonneg (le_trans (Int.natCast_nonneg _) least)).symm⟩
  rw [m_eq] at near least most
  have least := Int.ofNat_le.mp least
  have most := Int.ofNat_le.mp most
  have half : 2 * |m * (10 : ℚ) ^ e - x| * 10 ^ (p - 1) ≤ x := by
    have apart : |m * (10 : ℚ) ^ e - x| = |(m : ℚ) - x / 10 ^ e| * 10 ^ e := by
      rw [← abs_of_pos unit, ← abs_mul, abs_of_pos unit, sub_mul, div_mul_cancel₀ _ unit.ne']
    rw [apart]
    calc 2 * (|(m : ℚ) - x / 10 ^ e| * 10 ^ e) * 10 ^ (p - 1)
        = 2 * |(m : ℚ) - x / 10 ^ e| * (10 ^ (p - 1) * 10 ^ e) := by ring
      _ ≤ 1 * (10 ^ (p - 1) * 10 ^ e) := by
          refine mul_le_mul_of_nonneg_right ?_ (by positivity)
          have : |(m : ℚ) - x / 10 ^ e| ≤ 1 / 2 := near
          linarith
      _ ≤ x := by rwa [one_mul]
  have power : 10 * 10 ^ (p - 1) = 10 ^ p := by rw [← pow_succ', Nat.sub_add_cancel digits]
  have tens : 0 < 10 ^ (p - 1) := by positivity
  rw [firstDigits, ← e_eq]
  simp only [m_eq, Int.toNat_natCast]
  split_ifs with carry
  · refine ⟨le_rfl, by omega, ?_⟩
    have same : ((10 ^ (p - 1) : Nat) : ℚ) * (10 : ℚ) ^ (e + 1) = m * 10 ^ e := by
      rw [carry, ← power, zpow_add_one₀ (by norm_num)]
      push_cast
      ring
    rw [same]
    exact half
  · exact ⟨least, by omega, half⟩

/-- A decimal of `p` digits is off by at most half a unit in the last one. -/
theorem decimalOf_close {p : Nat} (digits : 0 < p) (x : ℚ) :
    2 * |decimalOf p x - x| * 10 ^ (p - 1) ≤ |x| := by
  by_cases zero : x = 0
  · simp [zero, decimalOf]
  have spec := (firstDigits_spec digits (abs_pos.mpr zero)).2.2
  rw [decimalOf, if_neg zero]
  split_ifs with neg
  · rw [show -((firstDigits p |x|).1 * (10 : ℚ) ^ (firstDigits p |x|).2) - x =
      -((firstDigits p |x|).1 * (10 : ℚ) ^ (firstDigits p |x|).2 - |x|) by
        rw [abs_of_neg neg]
        ring, abs_neg]
    exact spec
  · rw [abs_of_nonneg (not_lt.mp neg)] at spec ⊢
    exact spec

/-- Seventeen digits are enough for 53 binary ones. -/
theorem nearestFrom_decimalOf {q : Int} {x : ℚ} (kept : nearestFrom 53 q x = x) :
    nearestFrom 53 q (decimalOf 17 x) = x := by
  by_cases zero : x = 0
  · subst zero
    rw [show decimalOf 17 0 = 0 by simp [decimalOf]]
    exact kept
  have close := decimalOf_close (p := 17) (by decide) x
  have positive := abs_pos.mpr zero
  refine nearestFrom_of_close (by decide) kept ?_
  norm_num at close ⊢
  linarith

/-! ## The text of a decimal -/

/-- The zeros at the end of a fraction do not count. -/
theorem decimalValue_stripZeros (whole frac : List Nat) :
    decimalValue whole (stripZeros frac) = decimalValue whole frac := by
  obtain ⟨k, split⟩ := stripZeros_spec frac
  conv_rhs => rw [split]
  rw [decimalValue, decimalValue, ← List.append_assoc, ofDecimal_append (whole ++ _),
    ofDecimal_replicate_zero, add_zero, List.length_append, List.length_replicate]
  push_cast
  rw [neg_add, zpow_add₀ (by norm_num), zpow_neg (10 : ℚ) k, zpow_natCast]
  field_simp

theorem pointText_number {whole frac : List Nat} {t : List UInt8} {e : Int}
    (digits : WholeDigits whole) (digit : ∀ d ∈ frac, d < 10) (exponent : ExponentText t e) :
    UnsignedText (pointText whole frac ++ t) (decimalValue whole frac * 10 ^ e) := by
  rw [← decimalValue_stripZeros]
  refine .mk digits (fun d mem => digit d ?_) exponent
  exact (List.rdropWhile_prefix (fun d => decide (d = 0)) (l := frac)).subset mem

theorem exponentText_number (e : Int) : ExponentText (exponentText e) e := by
  obtain ⟨ds, ds_eq⟩ : ∃ ds, ds = if e.natAbs < 10 then [0, e.natAbs] else decimalDigits e.natAbs :=
    ⟨_, rfl⟩
  have value : ofDecimal ds = e.natAbs := by
    rw [ds_eq]
    split_ifs with small
    · simp [ofDecimal, Nat.ofDigits]
    · exact ofDecimal_decimalDigits _
  have digit : ∀ d ∈ ds, d < 10 := by
    rw [ds_eq]
    split_ifs with small
    · simpa using small
    · exact fun d mem => decimalDigits_lt mem
  have nonempty : ds ≠ [] := by
    rw [ds_eq]
    split_ifs
    · exact List.cons_ne_nil _ _
    · exact (wholeDigits _).nonempty
  rw [exponentText, ← ds_eq]
  split_ifs with neg
  · have text := ExponentText.minus nonempty digit
    rwa [value, show -(e.natAbs : Int) = e by omega] at text
  · have text := ExponentText.plus nonempty digit
    rwa [value, show (e.natAbs : Int) = e by omega] at text

theorem digitsText_number {p m : Nat} (digits : 0 < p) (low : 10 ^ (p - 1) ≤ m)
    (high : m < 10 ^ p) (e : Int) : UnsignedText (digitsText p m e) (m * (10 : ℚ) ^ e) := by
  have length := decimalDigits_length digits low high
  have value := ofDecimal_decimalDigits m
  have digit (d : Nat) (mem : d ∈ decimalDigits m) : d < 10 := decimalDigits_lt mem
  obtain ⟨d, ds, split, lead⟩ := decimalDigits_head (n := m) (by
    have : 0 < 10 ^ (p - 1) := by positivity
    omega)
  -- the first digits, if there are any, are those of a whole number
  have front (k : Nat) : WholeDigits ((decimalDigits m).take (k + 1)) := by
    refine ⟨by simp [split], fun d mem => digit d (List.mem_of_mem_take mem), fun zero => ?_⟩
    simp [split] at zero
    exact absurd zero lead
  have rest (k : Nat) : ∀ d ∈ (decimalDigits m).drop k, d < 10 :=
    fun d mem => digit d (List.mem_of_mem_drop mem)
  have cut (k : Nat) : decimalValue ((decimalDigits m).take k) ((decimalDigits m).drop k) =
      m * (10 : ℚ) ^ (-((p - k : Nat) : Int)) := by
    rw [decimalValue, List.take_append_drop, value, List.length_drop, length]
  rw [digitsText]
  split_ifs with plain whole
  · obtain ⟨k, k_eq⟩ : ∃ k : Nat, e + (p - 1) = k := ⟨_, (Int.toNat_of_nonneg whole).symm⟩
    have text := pointText_number (front k) (rest (k + 1)) .none
    rw [cut, List.append_nil, zpow_zero, mul_one] at text
    rw [show (e + (p - 1) + 1).toNat = k + 1 by omega]
    rwa [show -((p - (k + 1) : Nat) : Int) = e by omega] at text
  · have zero : WholeDigits [0] := ⟨by simp, by simp, fun _ => rfl⟩
    have frac : ∀ d ∈ List.replicate (-(e + (p - 1)) - 1).toNat 0 ++ decimalDigits m, d < 10 := by
      intro d mem
      rcases List.mem_append.mp mem with zero | mem
      · rw [(List.mem_replicate.mp zero).2]
        decide
      · exact digit d mem
    have text := pointText_number zero frac .none
    rw [List.append_nil, zpow_zero, mul_one, decimalValue, ← List.append_assoc, ofDecimal_append,
      value, List.length_append, List.length_replicate, length] at text
    have zeros : ofDecimal ([0] ++ List.replicate (-(e + (p - 1)) - 1).toNat 0) = 0 :=
      ofDecimal_replicate_zero (_ + 1)
    rw [zeros, zero_mul, zero_add] at text
    rwa [show -(((-(e + (p - 1)) - 1).toNat + p : Nat) : Int) = e by omega] at text
  · have text := pointText_number (front 0) (rest (0 + 1)) (exponentText_number (e + (p - 1)))
    rw [cut, mul_assoc, ← zpow_add₀ (by norm_num)] at text
    rwa [show -((p - (0 + 1) : Nat) : Int) + (e + (p - 1)) = e by omega] at text

/-- What `%.*g` writes of a number that is not negative is the text of the rounded one. -/
theorem formatG_unsigned {p : Nat} (digits : 0 < p) {x : ℚ} (nonneg : 0 ≤ x) :
    UnsignedText (formatG p x) (decimalOf p x) := by
  by_cases zero : x = 0
  · rw [formatG, decimalOf, if_pos zero, if_pos zero]
    have text := unsignedText_nat 0
    rwa [Nat.cast_zero] at text
  obtain ⟨low, high, -⟩ := firstDigits_spec digits (abs_pos.mpr zero)
  have text := digitsText_number digits low high (firstDigits p |x|).2
  rwa [formatG, decimalOf, if_neg zero, if_neg zero, if_neg nonneg.not_gt, if_neg nonneg.not_gt]

theorem decimalOf_nonneg {p : Nat} {x : ℚ} (nonneg : 0 ≤ x) : 0 ≤ decimalOf p x := by
  rw [decimalOf]
  split_ifs with zero neg
  · exact le_rfl
  · exact absurd neg nonneg.not_gt
  · positivity

end CpuSched
