import CpuSched.Policies.Fifo
import CpuSched.Policies.Hrrn
import CpuSched.Policies.Lottery
import CpuSched.Policies.Mlfq
import CpuSched.Policies.OptNp
import CpuSched.Policies.Priority
import CpuSched.Policies.ProportionalShare
import CpuSched.Policies.ShortestJob

/-!
# The table of built-in policies

`src/policies/registry.c`, in the order results are printed, and the parameters
that the command line admits.
-/

namespace CpuSched

variable {D : Type} [Double D]

/-- `REGISTRY`. -/
def registry (realloc : Nat → Bool) : List (Policy D) :=
  [policyFcfs, policySjf, policySrtf, policyRr, policyPrio, policyPrioP, policyHrrn, policyMlfq,
    policyLottery, policyStride, policyCfs, policyOptNp realloc]

/-- The parameters that the options of the command line can produce. -/
structure PolicyParams.Admitted (params : PolicyParams) : Prop where
  quantum_pos : 0 < params.quantum
  aging_nonneg : 0 ≤ params.aging
  levels_pos : 1 ≤ params.mlfqLevels
  levels_le : params.mlfqLevels ≤ 16
  quanta_pos : ∀ l < params.mlfqLevels, 0 < params.mlfqQuanta l
  allotment_pos : ∀ l < params.mlfqLevels, 0 < params.mlfqAllotment l
  boost_nonneg : 0 ≤ params.mlfqBoost
  latency_pos : 0 < params.cfsLatency
  minGran_pos : 0 < params.cfsMinGran

/-- The defaults are admitted. -/
theorem PolicyParams.admitted_default : ({} : PolicyParams).Admitted where
  quantum_pos := by decide
  aging_nonneg := le_rfl
  levels_pos := by decide
  levels_le := by decide
  quanta_pos l _ := mul_pos two_pos (pow_pos two_pos l)
  allotment_pos l _ := mul_pos two_pos (pow_pos two_pos l)
  boost_nonneg := le_rfl
  latency_pos := by decide
  minGran_pos := by decide

end CpuSched
