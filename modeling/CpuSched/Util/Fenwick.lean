import Mathlib.Algebra.BigOperators.Intervals
import Mathlib.Algebra.Order.BigOperators.Group.Finset
import Mathlib.Data.Nat.Bitwise
import Mathlib.Tactic.Positivity
import Mathlib.Tactic.Ring

/-!
# Fenwick trees

A binary indexed tree over an array `f`: entry `i`, counted from 1, holds the
sum of the `lowBit i` array entries that end before index `i`.  The two loops are
those of `fenwick_add` and `fenwick_find` in `src/policies/lottery.c`.
-/

namespace CpuSched

/-- `i & (0 - i)`, the lowest set bit. -/
def lowBit (i : Nat) : Nat := i.ldiff (i - 1)

/-- The loop of `fenwick_add`. -/
def fenwickAddLoop (n : Nat) (delta : Int) : Nat → Nat → (Nat → Int) → Nat → Int
  | 0, _, tree => tree
  | fuel + 1, i, tree =>
      if i ≤ n then
        fenwickAddLoop n delta fuel (i + lowBit i) (Function.update tree i (tree i + delta))
      else tree

/-- The loop of `fenwick_find`; `step` halves every round. -/
def fenwickFindLoop (n : Nat) (tree : Nat → Int) : Nat → Nat → Nat → Int → Nat
  | 0, _, pos, _ => pos
  | fuel + 1, step, pos, r =>
      if step = 0 then pos
      else if pos + step ≤ n ∧ tree (pos + step) ≤ r then
        fenwickFindLoop n tree fuel (step / 2) (pos + step) (r - tree (pos + step))
      else fenwickFindLoop n tree fuel (step / 2) pos r

/-- The loop `for (log2n = 1; log2n * 2 <= n; log2n *= 2)`. -/
def highestPower (n : Nat) : Nat → Nat → Nat
  | 0, p => p
  | fuel + 1, p => if p * 2 ≤ n then highestPower n fuel (p * 2) else p

/-! ## The lowest set bit -/

theorem lowBit_two_mul {i : Nat} (hi : 0 < i) : lowBit (2 * i) = 2 * lowBit i := by
  have hpred : 2 * i - 1 = Nat.bit true (i - 1) := by
    simp only [Nat.bit_val, Bool.toNat_true]
    omega
  have heven : 2 * i = Nat.bit false i := by simp [Nat.bit_val]
  unfold lowBit
  rw [hpred, heven, Nat.ldiff_bit]
  simp [Nat.bit_val]

theorem lowBit_odd (m : Nat) : lowBit (2 * m + 1) = 1 := by
  have hodd : 2 * m + 1 = Nat.bit true m := by simp [Nat.bit_val]
  have heven : 2 * m = Nat.bit false m := by simp [Nat.bit_val]
  have self : Nat.ldiff m m = 0 := by
    apply Nat.eq_of_testBit_eq
    intro k
    simp [Nat.testBit_ldiff]
  unfold lowBit
  rw [Nat.add_sub_cancel, hodd, heven, Nat.ldiff_bit, self]
  simp [Nat.bit_val]

/-- The lowest set bit is the largest power of two that divides. -/
theorem lowBit_spec {i : Nat} (hi : 0 < i) :
    ∃ k m, lowBit i = 2 ^ k ∧ i = 2 ^ k * (2 * m + 1) := by
  induction i using Nat.strong_induction_on with
  | _ i ih =>
      rcases Nat.even_or_odd' i with ⟨j, rfl | rfl⟩
      · obtain ⟨k, m, hlow, hj⟩ := ih j (by omega) (by omega)
        refine ⟨k + 1, m, ?_, ?_⟩
        · rw [lowBit_two_mul (by omega), hlow, pow_succ]
          ring
        · rw [pow_succ]
          nth_rewrite 1 [hj]
          ring
      · exact ⟨0, j, by rw [lowBit_odd, pow_zero], by rw [pow_zero, one_mul]⟩

theorem lowBit_pos {i : Nat} (hi : 0 < i) : 0 < lowBit i := by
  obtain ⟨k, m, hlow, -⟩ := lowBit_spec hi
  rw [hlow]
  positivity

theorem lowBit_le {i : Nat} (hi : 0 < i) : lowBit i ≤ i := by
  obtain ⟨k, m, hlow, heq⟩ := lowBit_spec hi
  calc lowBit i = 2 ^ k := hlow
    _ ≤ 2 ^ k * (2 * m + 1) := Nat.le_mul_of_pos_right _ (by omega)
    _ = i := heq.symm

/-- A power of two that divides `i` divides its lowest set bit. -/
theorem two_pow_le_lowBit {i t : Nat} (hi : 0 < i) (dvd : 2 ^ t ∣ i) : 2 ^ t ≤ lowBit i := by
  obtain ⟨k, m, hlow, heq⟩ := lowBit_spec hi
  rw [hlow]
  by_contra hlt
  have hkt : k + 1 ≤ t := by
    by_contra hle
    exact hlt (Nat.pow_le_pow_right (by omega) (by omega))
  have dvd' : 2 ^ (k + 1) ∣ i := (Nat.pow_dvd_pow 2 hkt).trans dvd
  rw [heq, pow_succ] at dvd'
  have := Nat.dvd_of_mul_dvd_mul_left (by positivity) dvd'
  omega

/-- The entry that `fenwick_add` visits after `i` covers all that `i` does. -/
theorem lowBit_next {i : Nat} (hi : 0 < i) :
    i + lowBit i - lowBit (i + lowBit i) ≤ i - lowBit i := by
  obtain ⟨k, m, hlow, heq⟩ := lowBit_spec hi
  have dvd : 2 ^ (k + 1) ∣ i + lowBit i := by
    refine ⟨m + 1, ?_⟩
    rw [hlow]
    nth_rewrite 1 [heq]
    rw [pow_succ]
    ring
  have := two_pow_le_lowBit (by omega) dvd
  rw [pow_succ] at this
  have := lowBit_le hi
  omega

/-- The entries between `i` and the next one cover nothing below `i`. -/
theorem le_sub_lowBit {i j : Nat} (hi : 0 < i) (hij : i < j) (hj : j < i + lowBit i) :
    i ≤ j - lowBit j := by
  obtain ⟨k, m, hlow, heq⟩ := lowBit_spec hi
  obtain ⟨t, m', hlow', heq'⟩ := lowBit_spec (i := j) (by omega)
  have dvd_i : 2 ^ k ∣ i := ⟨_, heq⟩
  have dvd_j : 2 ^ t ∣ j := ⟨_, heq'⟩
  have htk : t < k := by
    by_contra hle
    have dvd : 2 ^ k ∣ j - i := Nat.dvd_sub ((Nat.pow_dvd_pow 2 (by omega)).trans dvd_j) dvd_i
    have := Nat.le_of_dvd (by omega) dvd
    omega
  have dvd : 2 ^ t ∣ j - i := Nat.dvd_sub dvd_j ((Nat.pow_dvd_pow 2 htk.le).trans dvd_i)
  have := Nat.le_of_dvd (by omega) dvd
  omega

/-! ## The tree -/

/-- The sum of the first `i` entries. -/
def prefixSum (f : Nat → Int) (i : Nat) : Int := ∑ j ∈ Finset.range i, f j

/-- The tree holds the sums of the array `f`. -/
def FenwickTree (n : Nat) (f : Nat → Int) (tree : Nat → Int) : Prop :=
  ∀ i, 0 < i → i ≤ n → tree i = prefixSum f i - prefixSum f (i - lowBit i)

theorem prefixSum_update (f : Nat → Int) (r i : Nat) (delta : Int) :
    prefixSum (Function.update f r (f r + delta)) i =
      prefixSum f i + (if r < i then delta else 0) := by
  induction i with
  | zero => simp [prefixSum]
  | succ i ih =>
      unfold prefixSum at ih ⊢
      rw [Finset.sum_range_succ, Finset.sum_range_succ, ih]
      by_cases heq : i = r
      · subst heq
        simp
        ring
      · rw [Function.update_of_ne heq]
        have : r < i ↔ r < i + 1 := by omega
        simp only [this]
        ring

/-- The loop adds `delta` to the entries from `i` on that cover index `r`. -/
theorem fenwickAddLoop_spec (n : Nat) (delta : Int) (r : Nat) (fuel : Nat) {i : Nat}
    (tree : Nat → Int) (hi : 0 < i) (covers : i - lowBit i ≤ r ∧ r < i) (enough : n < fuel + i) :
    ∀ j, 0 < j → j ≤ n → fenwickAddLoop n delta fuel i tree j =
      tree j + (if i ≤ j ∧ j - lowBit j ≤ r ∧ r < j then delta else 0) := by
  induction fuel generalizing i tree with
  | zero =>
      intro j _ hj
      rw [if_neg (by omega), add_zero]
      rfl
  | succ fuel ih =>
      intro j hj0 hjn
      have low := lowBit_pos hi
      have next := lowBit_next hi
      by_cases hin : i ≤ n
      · rw [fenwickAddLoop, if_pos hin, ih _ (by omega) (by omega) (by omega) j hj0 hjn]
        by_cases heq : j = i
        · subst heq
          rw [Function.update_self, if_neg (by omega), if_pos ⟨le_rfl, covers⟩, add_zero]
        · rw [Function.update_of_ne heq]
          have same : (i + lowBit i ≤ j ∧ j - lowBit j ≤ r ∧ r < j) ↔
              (i ≤ j ∧ j - lowBit j ≤ r ∧ r < j) := by
            constructor
            · rintro ⟨h1, h2⟩
              exact ⟨by omega, h2⟩
            · rintro ⟨h1, h2, h3⟩
              refine ⟨?_, h2, h3⟩
              by_contra hlt
              have := le_sub_lowBit hi (by omega : i < j) (by omega)
              omega
          simp only [same]
      · rw [fenwickAddLoop, if_neg hin, if_neg (by omega), add_zero]

/-- `fenwick_add` updates one entry of the array. -/
theorem FenwickTree.add {n : Nat} {f tree : Nat → Int} (fen : FenwickTree n f tree) (r : Nat)
    (delta : Int) :
    FenwickTree n (Function.update f r (f r + delta)) (fenwickAddLoop n delta n (r + 1) tree) := by
  intro j hj0 hjn
  have low := lowBit_pos (Nat.succ_pos r)
  have low' := lowBit_pos hj0
  rw [fenwickAddLoop_spec n delta r n tree (Nat.succ_pos r) (by omega) (by omega) j hj0 hjn,
    fen j hj0 hjn, prefixSum_update, prefixSum_update]
  split_ifs <;> omega

/-- The search keeps a prefix of at most the sum looked for, and a bound above
it. -/
theorem fenwickFindLoop_spec {n : Nat} {f tree : Nat → Int} (fen : FenwickTree n f tree) (r : Int)
    (k : Nat) {pos : Nat} (dvd : 2 ^ (k + 1) ∣ pos) (hpos : pos ≤ n) (below : prefixSum f pos ≤ r)
    (above : pos + 2 ^ (k + 1) ≤ n → r < prefixSum f (pos + 2 ^ (k + 1))) :
    ∀ fuel, k < fuel → ∃ q, fenwickFindLoop n tree fuel (2 ^ k) pos (r - prefixSum f pos) = q ∧
      q ≤ n ∧ prefixSum f q ≤ r ∧ (q + 1 ≤ n → r < prefixSum f (q + 1)) := by
  induction k generalizing pos with
  | zero =>
      rintro (_ | fuel) hfuel
      · omega
      have stop : ∀ q s, fenwickFindLoop n tree fuel 0 q s = q := by
        cases fuel <;> simp [fenwickFindLoop]
      have low : lowBit (pos + 1) = 1 := by
        obtain ⟨m, rfl⟩ := dvd
        rw [show 2 ^ (0 + 1) * m + 1 = 2 * m + 1 by ring, lowBit_odd]
      rw [fenwickFindLoop, if_neg (by simp), pow_zero, show 1 / 2 = 0 from rfl]
      simp only [zero_add, pow_one] at above
      split_ifs with hstep
      · have entry := fen (pos + 1) (by omega) hstep.1
        rw [low, Nat.add_sub_cancel] at entry
        refine ⟨pos + 1, stop _ _, hstep.1, by omega, above⟩
      · refine ⟨pos, stop _ _, hpos, below, fun h => ?_⟩
        have entry := fen (pos + 1) (by omega) h
        rw [low, Nat.add_sub_cancel] at entry
        omega
  | succ k ih =>
      rintro (_ | fuel) hfuel
      · omega
      have two : 2 ^ (k + 1 + 1) = 2 ^ (k + 1) + 2 ^ (k + 1) := by ring
      have positive : 0 < 2 ^ (k + 1) := by positivity
      have half : 2 ^ (k + 1) / 2 = 2 ^ k := by rw [pow_succ, Nat.mul_div_cancel _ (by omega)]
      have low : lowBit (pos + 2 ^ (k + 1)) = 2 ^ (k + 1) := by
        obtain ⟨j, m, hlow, heq⟩ := lowBit_spec (i := pos + 2 ^ (k + 1)) (by omega)
        obtain ⟨q, rfl⟩ := dvd
        have le := two_pow_le_lowBit (i := 2 ^ (k + 1 + 1) * q + 2 ^ (k + 1)) (t := k + 1)
          (by omega)
          ⟨2 * q + 1, by ring⟩
        rw [hlow] at le ⊢
        refine le_antisymm ?_ le
        by_contra hlt
        have hkj : k + 1 + 1 ≤ j := by
          by_contra hle
          exact hlt (Nat.pow_le_pow_right (by omega) (by omega))
        have dvd' : 2 ^ (k + 1 + 1) ∣ 2 ^ (k + 1 + 1) * q + 2 ^ (k + 1) :=
          (Nat.pow_dvd_pow 2 hkj).trans ⟨_, heq⟩
        have := Nat.le_of_dvd positive ((Nat.dvd_add_right (Dvd.intro _ rfl)).mp dvd')
        omega
      have dvd' : 2 ^ (k + 1) ∣ pos := (Nat.pow_dvd_pow 2 (by omega)).trans dvd
      rw [fenwickFindLoop, if_neg positive.ne', half]
      split_ifs with hstep
      · have entry := fen _ (by omega) hstep.1
        rw [low, Nat.add_sub_cancel] at entry
        have left : r - prefixSum f pos - tree (pos + 2 ^ (k + 1)) =
            r - prefixSum f (pos + 2 ^ (k + 1)) := by omega
        rw [left]
        refine ih (dvd'.add (dvd_refl _)) hstep.1 (by omega) (fun h => ?_) fuel (by omega)
        rw [Nat.add_assoc, ← two] at h ⊢
        exact above h
      · refine ih dvd' hpos below (fun h => ?_) fuel (by omega)
        have entry := fen _ (by omega) h
        rw [low, Nat.add_sub_cancel] at entry
        omega

theorem highestPower_spec {n : Nat} (fuel : Nat) {k : Nat} (le : 2 ^ k ≤ n)
    (enough : n < fuel + 2 ^ k) :
    ∃ m, highestPower n fuel (2 ^ k) = 2 ^ m ∧ 2 ^ m ≤ n ∧ n < 2 ^ (m + 1) := by
  induction fuel generalizing k with
  | zero => omega
  | succ fuel ih =>
      have positive : 0 < 2 ^ k := by positivity
      rw [highestPower, ← pow_succ]
      split_ifs with h
      · exact ih h (by rw [pow_succ] at *; omega)
      · exact ⟨k, rfl, le, by omega⟩

/-- `fenwick_find` returns the index whose entry covers `r`. -/
theorem FenwickTree.find {n : Nat} {f tree : Nat → Int} (fen : FenwickTree n f tree) (hn : 0 < n)
    {r : Int} (hr : 0 ≤ r) (total : r < prefixSum f n) :
    ∃ q < n, fenwickFindLoop n tree (highestPower n n 1) (highestPower n n 1) 0 r = q ∧
      prefixSum f q ≤ r ∧ r < prefixSum f (q + 1) := by
  obtain ⟨m, power, le, lt⟩ := highestPower_spec (n := n) n (k := 0)
    (by simpa using Nat.succ_le_of_lt hn) (by simp)
  rw [pow_zero] at power
  have empty : prefixSum f 0 = 0 := by simp [prefixSum]
  obtain ⟨q, found, hq, below, above⟩ := fenwickFindLoop_spec fen r m (dvd_zero _)
    (Nat.zero_le _) (by rw [empty]; exact hr) (fun h => by omega) (2 ^ m) Nat.lt_two_pow_self
  rw [empty, sub_zero] at found
  have hqn : q < n := by
    rcases hq.lt_or_eq with hlt | heq
    · exact hlt
    · subst heq
      omega
  exact ⟨q, hqn, by rw [power, found], below, above hqn⟩

end CpuSched
