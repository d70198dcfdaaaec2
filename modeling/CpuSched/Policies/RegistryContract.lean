import CpuSched.Policies.FifoContract
import CpuSched.Policies.HrrnContract
import CpuSched.Policies.LotteryContract
import CpuSched.Policies.MlfqContract
import CpuSched.Policies.OptNpContract
import CpuSched.Policies.PriorityContract
import CpuSched.Policies.ProportionalShareContract
import CpuSched.Policies.Registry
import CpuSched.Policies.ShortestJobContract

/-!
# Every built-in policy keeps the contract
-/

namespace CpuSched

variable {D : Type} [Double D] {w : Workload}

/-- A policy and what its ready structure holds. -/
structure BuiltInPolicy (D : Type) where
  policy : Policy D
  stores : policy.State → List Nat → Prop

/-- The policies of the table with their ready structures. -/
def builtInPolicies (realloc : Nat → Bool) : List (BuiltInPolicy D) :=
  [⟨policyFcfs, fcfsStores⟩, ⟨policySjf, shortestStores⟩, ⟨policySrtf, shortestStores⟩,
    ⟨policyRr, rrStores⟩, ⟨policyPrio, prioStores⟩, ⟨policyPrioP, prioStores⟩,
    ⟨policyHrrn, hrrnStores⟩, ⟨policyMlfq, mlfqStores⟩, ⟨policyLottery, lotteryStores⟩,
    ⟨policyStride, strideStores⟩, ⟨policyCfs, cfsStores⟩, ⟨policyOptNp realloc, optNpStores⟩]

theorem builtInPolicies_policy (realloc : Nat → Bool) :
    (builtInPolicies (D := D) realloc).map BuiltInPolicy.policy = registry realloc := rfl

/-- With the parameters the command line admits, every policy of the table that
can be created keeps the contract. -/
theorem builtIn_lawful (valid : w.Valid) {realloc : Nat → Bool} {B : BuiltInPolicy D}
    (builtIn : B ∈ builtInPolicies realloc) {v : SchedView D} {params : PolicyParams}
    (admitted : params.Admitted) (procs_eq : v.procs = w.proc) (n_eq : v.n = w.len) :
    Lawful w B.policy B.stores v params := by
  simp only [builtInPolicies, List.mem_cons, List.not_mem_nil, or_false] at builtIn
  rcases builtIn with rfl | rfl | rfl | rfl | rfl | rfl | rfl | rfl | rfl | rfl | rfl | rfl
  · exact fcfs_lawful v params n_eq
  · exact sjf_lawful valid v params n_eq
  · exact srtf_lawful valid v params n_eq
  · exact rr_lawful v params n_eq admitted.quantum_pos
  · exact prio_lawful valid v params
  · exact prioP_lawful valid v params
  · exact hrrn_lawful v params n_eq
  · exact mlfq_lawful w v admitted
  · exact lottery_lawful valid v params n_eq admitted.quantum_pos
  · exact stride_lawful valid v params n_eq admitted.quantum_pos
  · exact cfs_lawful valid v params n_eq admitted.minGran_pos
  · exact optNp_lawful valid realloc v params procs_eq n_eq

theorem registry_lawful (valid : w.Valid) {realloc : Nat → Bool} {P : Policy D}
    (registered : P ∈ registry realloc) {v : SchedView D} {params : PolicyParams}
    (admitted : params.Admitted) (procs_eq : v.procs = w.proc) (n_eq : v.n = w.len) :
    ∃ stores, Lawful w P stores v params := by
  rw [← builtInPolicies_policy] at registered
  obtain ⟨B, member, rfl⟩ := List.mem_map.mp registered
  exact ⟨B.stores, builtIn_lawful valid member admitted procs_eq n_eq⟩

end CpuSched
