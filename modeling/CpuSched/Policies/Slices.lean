import CpuSched.Policies.Registry
import CpuSched.Policy.Calm

/-!
# Built-in policies that let slices run

FCFS, SJF, round robin, priority without preemption, HRRN, lottery, stride and CFS-lite
are asked at free cores alone.  Those that run whole bursts read the remaining time of
the process they pick, the others read no remaining time at all.
-/

namespace CpuSched

variable {D : Type} [Double D]

omit [Double D] in
theorem fcfs_unwatching : Unwatching (D := D) policyFcfs where
  notReady := rfl
  conserving := rfl
  undated hook := absurd rfl hook
  idle {v s s'} run := by
    simp only [policyFcfs, fcfsNextSlice] at run
    split_ifs at run
    · exact (congrArg Prod.fst (Option.some.inj run)).symm
    · obtain ⟨_, -, last⟩ := Option.map_eq_some_iff.mp run
      cases congrArg Prod.snd last
  arrival _ _ _ _ := rfl
  wake _ _ _ _ := rfl
  next {v s s' pick remaining} run same := by
    simp only [policyFcfs, fcfsNextSlice] at run ⊢
    split_ifs at run ⊢
    · exact run
    · obtain ⟨⟨p, ready⟩, popped, last⟩ := Option.map_eq_some_iff.mp run
      obtain ⟨rfl, rfl⟩ := Prod.mk.inj last
      rw [popped, Option.map_some, same _ rfl]
  preempt hook := by simp [policyFcfs] at hook
  block _ _ _ _ _ _ := rfl
  complete _ _ _ _ _ _ := rfl

theorem sjf_unwatching : Unwatching (D := D) policySjf where
  notReady := rfl
  conserving := rfl
  undated hook := absurd rfl hook
  idle {v s s'} run := by
    simp only [policySjf, sjfNextSlice, popWholeBurst] at run
    split_ifs at run
    · exact (congrArg Prod.fst (Option.some.inj run)).symm
    · obtain ⟨_, -, last⟩ := Option.map_eq_some_iff.mp run
      cases congrArg Prod.snd last
  arrival _ _ _ _ := rfl
  wake _ _ _ _ := rfl
  next {v s s' pick remaining} run same := by
    simp only [policySjf, sjfNextSlice, popWholeBurst] at run ⊢
    split_ifs at run ⊢
    · exact run
    · obtain ⟨⟨p, ready⟩, popped, last⟩ := Option.map_eq_some_iff.mp run
      obtain ⟨rfl, rfl⟩ := Prod.mk.inj last
      refine Option.map_eq_some_iff.mpr ⟨⟨p, ready⟩, popped, ?_⟩
      rw [same _ rfl]
  preempt hook := by simp [policySjf] at hook
  block _ _ _ _ _ _ := rfl
  complete _ _ _ _ _ _ := rfl

omit [Double D] in
theorem rr_unwatching : Unwatching (D := D) policyRr where
  notReady := rfl
  conserving := rfl
  undated _ {v s s' slice} run := by
    simp only [policyRr, rrNextSlice] at run
    split_ifs at run
    · cases congrArg Prod.snd (Option.some.inj run)
    · obtain ⟨_, -, last⟩ := Option.map_eq_some_iff.mp run
      rw [← Option.some.inj (congrArg Prod.snd last)]
  idle {v s s'} run := by
    simp only [policyRr, rrNextSlice] at run
    split_ifs at run
    · exact (congrArg Prod.fst (Option.some.inj run)).symm
    · obtain ⟨_, -, last⟩ := Option.map_eq_some_iff.mp run
      cases congrArg Prod.snd last
  arrival _ _ _ _ := rfl
  wake _ _ _ _ := rfl
  next run _ := run
  preempt hook _ _ _ _ _ _ := by
    obtain rfl := Option.some.inj hook
    rfl
  block _ _ _ _ _ _ := rfl
  complete _ _ _ _ _ _ := rfl

omit [Double D] in
/-- What `prio_next_slice` returns, whatever the remaining times are. -/
theorem prioNextSlice_remaining {v : SchedView D} {s s' : Prio} {root : Nat} {pick : Option Slice}
    (on : s.root = some root) (run : prioNextSlice satSub v s = some (s', pick)) :
    ∃ p deadline, pick = some ⟨p, v.remaining p, deadline⟩ ∧ ∀ remaining,
      prioNextSlice satSub { v with remaining } s = some (s', some ⟨p, remaining p, deadline⟩) := by
  simp only [prioNextSlice, on, Option.bind_eq_bind, Option.bind_eq_some_iff] at run
  obtain ⟨p, chosen, ⟨links, left⟩, erased, run⟩ := run
  cases left with
  | none =>
      obtain ⟨rfl, rfl⟩ := Prod.mk.inj (Option.some.inj run)
      refine ⟨p, _, rfl, fun remaining => ?_⟩
      rw [prioNextSlice, on]
      exact Option.bind_eq_some_iff.mpr ⟨p, chosen, Option.bind_eq_some_iff.mpr ⟨_, erased, rfl⟩⟩
  | some left =>
      simp only at run
      by_cases cuts : s.preemptive = true ∧ 0 < s.aging
      · rw [if_pos cuts] at run
        obtain ⟨deadline, dated, last⟩ := Option.bind_eq_some_iff.mp run
        obtain ⟨rfl, rfl⟩ := Prod.mk.inj (Option.some.inj last)
        refine ⟨p, deadline, rfl, fun remaining => ?_⟩
        rw [prioNextSlice, on]
        refine Option.bind_eq_some_iff.mpr ⟨p, chosen, Option.bind_eq_some_iff.mpr ⟨_, erased, ?_⟩⟩
        simp only [if_pos cuts]
        exact Option.bind_eq_some_iff.mpr ⟨deadline, dated, rfl⟩
      · rw [if_neg cuts] at run
        obtain ⟨rfl, rfl⟩ := Prod.mk.inj (Option.some.inj run)
        refine ⟨p, _, rfl, fun remaining => ?_⟩
        rw [prioNextSlice, on]
        refine Option.bind_eq_some_iff.mpr ⟨p, chosen, Option.bind_eq_some_iff.mpr ⟨_, erased, ?_⟩⟩
        simp only [if_neg cuts]
        rfl

omit [Double D] in
theorem prio_unwatching : Unwatching (D := D) policyPrio where
  notReady := rfl
  conserving := rfl
  undated hook := absurd rfl hook
  idle {v s s'} run := by
    cases on : s.root with
    | none =>
        simp only [policyPrio, policyPrioWith, prioNextSlice, on] at run
        exact (congrArg Prod.fst (Option.some.inj run)).symm
    | some root =>
        obtain ⟨p, deadline, picked, -⟩ := prioNextSlice_remaining on run
        cases picked
  arrival _ _ _ _ := rfl
  wake _ _ _ _ := rfl
  next {v s s' pick remaining} run same := by
    cases on : s.root with
    | none =>
        simp only [policyPrio, policyPrioWith, prioNextSlice, on] at run ⊢
        exact run
    | some root =>
        obtain ⟨p, deadline, rfl, again⟩ := prioNextSlice_remaining on run
        have here : remaining p = v.remaining p := same _ rfl
        rw [← here]
        exact again remaining
  preempt hook := by simp [policyPrio, policyPrioWith] at hook
  block _ _ _ _ _ _ := rfl
  complete _ _ _ _ _ _ := rfl

omit [Double D] in
theorem insertAfter_remaining (v : SchedView D) (s : Hrrn) (p : Nat) (remaining : Nat → Int)
    (fuel : Nat) (after : Option Nat) :
    insertAfter { v with remaining } s p fuel after = insertAfter v s p fuel after := by
  induction fuel generalizing after with
  | zero => rfl
  | succ fuel ih =>
      cases after with
      | none => rfl
      | some after =>
          simp only [insertAfter, ih]
          rfl

theorem bestHead_remaining (v : SchedView D) (s : Hrrn) (remaining : Nat → Int) (fuel : Nat)
    (g best : Option Nat) :
    bestHead { v with remaining } s fuel g best = bestHead v s fuel g best := by
  induction fuel generalizing g best with
  | zero => rfl
  | succ fuel ih =>
      cases g with
      | none => rfl
      | some g =>
          simp only [bestHead, ih]
          rfl

theorem hrrnEnqueue_remaining (v : SchedView D) (s : Hrrn) (p : Nat) (remaining : Nat → Int) :
    hrrnEnqueue { v with remaining } s p = hrrnEnqueue v s p := by
  simp only [hrrnEnqueue, insertAfter_remaining]
  rfl

theorem hrrn_unwatching : Unwatching (D := D) policyHrrn where
  notReady := rfl
  conserving := rfl
  undated hook := absurd rfl hook
  idle {v s s'} run := by
    simp only [policyHrrn, hrrnNextSlice] at run
    cases active : s.active with
    | none =>
        simp only [active] at run
        exact (congrArg Prod.fst (Option.some.inj run)).symm
    | some g =>
        simp only [active, Option.bind_eq_bind, Option.bind_eq_some_iff] at run
        obtain ⟨head, -, run⟩ := run
        cases head with
        | none => cases run
        | some best =>
            obtain ⟨s₁, -, last⟩ := Option.bind_eq_some_iff.mp run
            cases congrArg Prod.snd (Option.some.inj last)
  arrival v s p remaining := hrrnEnqueue_remaining v s p remaining
  wake v s p remaining := hrrnEnqueue_remaining v s p remaining
  next {v s s' pick remaining} run same := by
    simp only [policyHrrn, hrrnNextSlice] at run ⊢
    cases active : s.active with
    | none => simpa [active] using run
    | some g =>
        simp only [active, Option.bind_eq_bind, Option.bind_eq_some_iff] at run ⊢
        obtain ⟨head, found, run⟩ := run
        refine ⟨head, (bestHead_remaining v s remaining _ _ _).trans found, ?_⟩
        cases head with
        | none => cases run
        | some best =>
            obtain ⟨s₁, popped, last⟩ := Option.bind_eq_some_iff.mp run
            obtain ⟨rfl, rfl⟩ := Prod.mk.inj (Option.some.inj last)
            refine Option.bind_eq_some_iff.mpr ⟨s₁, popped, ?_⟩
            rw [same _ rfl]
  preempt hook := by simp [policyHrrn] at hook
  block _ _ _ _ _ _ := rfl
  complete _ _ _ _ _ _ := rfl

omit [Double D] in
theorem lottery_unwatching : Unwatching (D := D) policyLottery where
  notReady := rfl
  conserving := rfl
  undated _ {v s s' slice} run := by
    simp only [policyLottery, lotteryNextSlice] at run
    split_ifs at run
    · cases congrArg Prod.snd (Option.some.inj run)
    · obtain ⟨_, -, last⟩ := Option.bind_eq_some_iff.mp run
      rw [← Option.some.inj (congrArg Prod.snd (Option.some.inj last))]
  idle {v s s'} run := by
    simp only [policyLottery, lotteryNextSlice] at run
    split_ifs at run
    · exact (congrArg Prod.fst (Option.some.inj run)).symm
    · obtain ⟨_, -, last⟩ := Option.bind_eq_some_iff.mp run
      cases congrArg Prod.snd (Option.some.inj last)
  arrival _ _ _ _ := rfl
  wake _ _ _ _ := rfl
  next run _ := run
  preempt hook _ _ _ _ _ _ := by
    obtain rfl := Option.some.inj hook
    rfl
  block _ _ _ _ _ _ := rfl
  complete _ _ _ _ _ _ := rfl

omit [Double D] in
theorem stride_unwatching : Unwatching (D := D) policyStride where
  notReady := rfl
  conserving := rfl
  undated _ {v s s' slice} run := by
    simp only [policyStride, strideNextSlice] at run
    split_ifs at run
    · cases congrArg Prod.snd (Option.some.inj run)
    · obtain ⟨_, -, last⟩ := Option.map_eq_some_iff.mp run
      rw [← Option.some.inj (congrArg Prod.snd last)]
  idle {v s s'} run := by
    simp only [policyStride, strideNextSlice] at run
    split_ifs at run
    · exact (congrArg Prod.fst (Option.some.inj run)).symm
    · obtain ⟨_, -, last⟩ := Option.map_eq_some_iff.mp run
      cases congrArg Prod.snd last
  arrival _ _ _ _ := rfl
  wake _ _ _ _ := rfl
  next run _ := run
  preempt hook _ _ _ _ _ _ := by
    obtain rfl := Option.some.inj hook
    rfl
  block _ _ _ _ _ _ := rfl
  complete _ _ _ _ _ _ := rfl

omit [Double D] in
theorem cfs_unwatching : Unwatching (D := D) policyCfs where
  notReady := rfl
  conserving := rfl
  undated _ {v s s' slice} run := by
    simp only [policyCfs, cfsNextSlice] at run
    split_ifs at run
    · cases congrArg Prod.snd (Option.some.inj run)
    · obtain ⟨_, -, run⟩ := Option.bind_eq_some_iff.mp run
      split at run
      · cases run
      · rw [← Option.some.inj (congrArg Prod.snd (Option.some.inj run))]
  idle {v s s'} run := by
    simp only [policyCfs, cfsNextSlice] at run
    split_ifs at run
    · exact (congrArg Prod.fst (Option.some.inj run)).symm
    · obtain ⟨_, -, run⟩ := Option.bind_eq_some_iff.mp run
      split at run
      · cases run
      · cases congrArg Prod.snd (Option.some.inj run)
  arrival _ _ _ _ := rfl
  wake _ _ _ _ := rfl
  next run _ := run
  preempt hook _ _ _ _ _ _ := by
    obtain rfl := Option.some.inj hook
    rfl
  block _ _ _ _ _ _ := rfl
  complete _ _ _ _ _ _ := rfl

/-- The built-in policies that are asked at free cores alone. -/
def slicePolicies : List (Policy D) :=
  [policyFcfs, policySjf, policyRr, policyPrio, policyHrrn, policyLottery, policyStride, policyCfs]

theorem slicePolicies_unwatching {P : Policy D} (mem : P ∈ slicePolicies) : Unwatching P := by
  simp only [slicePolicies, List.mem_cons, List.not_mem_nil, or_false] at mem
  rcases mem with rfl | rfl | rfl | rfl | rfl | rfl | rfl | rfl
  · exact fcfs_unwatching
  · exact sjf_unwatching
  · exact rr_unwatching
  · exact prio_unwatching
  · exact hrrn_unwatching
  · exact lottery_unwatching
  · exact stride_unwatching
  · exact cfs_unwatching

end CpuSched
