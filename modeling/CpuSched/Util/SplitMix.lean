import Mathlib.Data.BitVec
import Mathlib.Data.Fintype.EquivFin

/-!
# The SplitMix64 finaliser

Three files use the same mixing of a 64-bit word: the lottery generator, the
treap priorities and the hash of burst lengths.  Each of its rounds can be
undone, so it takes every value, and an odd increment visits every state.
-/

namespace CpuSched

/-- `0x9E3779B97F4A7C15`. -/
def goldenGamma : BitVec 64 := 0x9E3779B97F4A7C15#64

/-- The finaliser: two xor-shift-multiply rounds and a last xor-shift. -/
def splitMixFinal (z : BitVec 64) : BitVec 64 :=
  let z := (z ^^^ (z >>> 30)) * 0xBF58476D1CE4E5B9#64
  let z := (z ^^^ (z >>> 27)) * 0x94D049BB133111EB#64
  z ^^^ (z >>> 31)

/-! ## Every value occurs -/

/-- A xor with its own right shift can be undone. -/
theorem xorShift_injective {s : Nat} (hs : 0 < s) :
    Function.Injective fun z : BitVec 64 => z ^^^ (z >>> s) := by
  intro a b same
  have same : a ^^^ (a >>> s) = b ^^^ (b >>> s) := same
  have shifted : a ^^^ b = (a ^^^ b) >>> s := by
    have := congrArg (fun z => z ^^^ (b ^^^ (a >>> s))) same
    rw [BitVec.ushiftRight_xor_distrib]
    calc a ^^^ b = (a ^^^ (a >>> s)) ^^^ (b ^^^ (a >>> s)) := by
          rw [BitVec.xor_comm b, BitVec.xor_assoc, ← BitVec.xor_assoc (a >>> s), BitVec.xor_self,
            BitVec.zero_xor]
      _ = (b ^^^ (b >>> s)) ^^^ (b ^^^ (a >>> s)) := this
      _ = (b ^^^ b) ^^^ ((b >>> s) ^^^ (a >>> s)) := by ac_rfl
      _ = (a >>> s) ^^^ (b >>> s) := by
          rw [BitVec.xor_self, BitVec.zero_xor, BitVec.xor_comm]
  have zero : (a ^^^ b).toNat = 0 := by
    have nat := congrArg BitVec.toNat shifted
    rw [BitVec.toNat_ushiftRight, Nat.shiftRight_eq_div_pow] at nat
    by_contra hne
    have : (a ^^^ b).toNat / 2 ^ s < (a ^^^ b).toNat :=
      Nat.div_lt_self (by omega) (Nat.one_lt_two_pow (by omega))
    omega
  have zero : a ^^^ b = 0#64 := BitVec.eq_of_toNat_eq zero
  calc a = (a ^^^ b) ^^^ b := by rw [BitVec.xor_assoc, BitVec.xor_self, BitVec.xor_zero]
    _ = b := by rw [zero, BitVec.zero_xor]

theorem mul_injective {c i : BitVec 64} (h : c * i = 1#64) :
    Function.Injective fun z : BitVec 64 => z * c := by
  intro a b same
  have same : a * c = b * c := same
  calc a = a * (c * i) := by rw [h, BitVec.mul_one]
    _ = b * (c * i) := by rw [← BitVec.mul_assoc, same, BitVec.mul_assoc]
    _ = b := by rw [h, BitVec.mul_one]

theorem splitMixFinal_injective : Function.Injective splitMixFinal := by
  intro a b same
  have h1 := xorShift_injective (s := 31) (by omega) same
  have h2 := mul_injective (c := 0x94D049BB133111EB#64) (i := 0x319642b2d24d8ec3#64) (by decide) h1
  have h3 := xorShift_injective (s := 27) (by omega) h2
  have h4 := mul_injective (c := 0xBF58476D1CE4E5B9#64) (i := 0x96de1b173f119089#64) (by decide) h3
  exact xorShift_injective (s := 30) (by omega) h4

theorem splitMixFinal_surjective : Function.Surjective splitMixFinal := by
  have : Finite (BitVec 64) := Finite.of_equiv _ BitVec.equivFin.toEquiv.symm
  exact Finite.surjective_of_injective splitMixFinal_injective

/-- The generator reaches every output within `2^64` rounds. -/
theorem exists_round (state y : BitVec 64) :
    ∃ k, 1 ≤ k ∧ k ≤ 2 ^ 64 ∧ splitMixFinal (state + BitVec.ofNat 64 k * goldenGamma) = y := by
  obtain ⟨z, rfl⟩ := splitMixFinal_surjective y
  obtain ⟨x, hx⟩ : ∃ x, x = (z - state) * 0xf1de83e19937733d#64 := ⟨_, rfl⟩
  have hit : state + x * goldenGamma = z := by
    have inverse : 0xf1de83e19937733d#64 * goldenGamma = 1#64 := by decide
    rw [hx, BitVec.mul_assoc, inverse, BitVec.mul_one, BitVec.add_comm, BitVec.sub_add_cancel]
  by_cases zero : x.toNat = 0
  · refine ⟨2 ^ 64, by omega, le_rfl, ?_⟩
    have : x = BitVec.ofNat 64 (2 ^ 64) := BitVec.eq_of_toNat_eq (by rw [zero]; rfl)
    rw [← this, hit]
  · refine ⟨x.toNat, by omega, x.isLt.le, ?_⟩
    rw [BitVec.ofNat_toNat, BitVec.setWidth_eq, hit]

end CpuSched
