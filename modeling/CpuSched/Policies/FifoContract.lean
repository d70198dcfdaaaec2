import CpuSched.Policies.Fifo
import CpuSched.Policy.ReadySet

/-!
# FCFS and round robin keep the contract

Their ring buffer holds exactly the ready processes.
-/

namespace CpuSched

variable {D : Type} {w : Workload}

/-- The invariant of FCFS. -/
def FcfsInv (w : Workload) (_ : SchedView D) (ready : Queue) (pl : Places) : Prop :=
  QueueReady w.len ready pl

theorem fcfs_contract (w : Workload) : Contract (D := D) w policyFcfs (FcfsInv w) where
  interruptible _ := rfl
  view inv _ _ _ := inv
  arrival {v s pl p} inv ok hp new _ := by
    obtain ⟨s', pushed, inv', _⟩ := inv.push ok.ready_lt hp (by simp [new])
    exact ⟨s', pushed, inv'⟩
  wake {v s pl p} inv ok blocked _ := by
    obtain ⟨s', pushed, inv', _⟩ := inv.push ok.ready_lt (ok.outside p (by simp [blocked]))
      (by simp [blocked])
    exact ⟨s', pushed, inv'⟩
  next {v s pl} inv ok hnow := by
    cases empty : s.isEmpty with
    | true =>
        exact ⟨s, none, by simp [policyFcfs, fcfsNextSlice, empty], inv,
          .inl (inv.none_ready empty)⟩
    | false =>
        obtain ⟨p, s', popped, ready, inv', _⟩ := inv.pop empty
          (z := fun p => .out ⟨p, v.remaining p, schedNoDeadline⟩) (by simp)
        refine ⟨s', some ⟨p, v.remaining p, schedNoDeadline⟩,
          by simp [policyFcfs, fcfsNextSlice, empty, popped], ready, ok.ready_pos p ready, hnow,
          le_rfl, fun _ => ⟨le_rfl, rfl⟩, inv'⟩
  preempt _ _ _ _ _ _ hook := by simp [policyFcfs] at hook
  block {v s pl p slice ran} inv _ out _ _ _ :=
    ⟨s, rfl, inv.other (by simp [out]) (by simp)⟩
  complete {v s pl p slice ran} inv _ out _ _ :=
    ⟨s, rfl, inv.other (by simp [out]) (by simp)⟩

/-- What the queue of FCFS holds. -/
def fcfsStores (ready : Queue) (entries : List Nat) : Prop := ready.toList = entries

theorem fcfs_lawful (v : SchedView D) (params : PolicyParams) (n_eq : v.n = w.len) :
    Lawful w policyFcfs fcfsStores v params := by
  intro s created
  cases created
  refine ⟨FcfsInv w, fcfs_contract w, ?_, fun inv _ => ⟨_, rfl, QueueReady.holds inv⟩⟩
  rw [n_eq]
  exact QueueReady.init w.len

/-- The invariant of round robin. -/
structure RrInv (w : Workload) (_ : SchedView D) (s : Rr) (pl : Places) : Prop where
  ready : QueueReady w.len s.ready pl
  quantum_pos : 0 < s.quantum

/-- `rr_enqueue` of a process that is not ready. -/
theorem rrEnqueue_spec {v : SchedView D} {s : Rr} {pl : Places} {p : Nat} (inv : RrInv w v s pl)
    (ok : ViewOk w v pl) (hp : p < w.len) (notReady : pl p ≠ .ready) :
    ∃ s', rrEnqueue v s p = some s' ∧ RrInv w v s' (pl.move p .ready) := by
  obtain ⟨q, pushed, ready, _⟩ := inv.ready.push ok.ready_lt hp notReady
  exact ⟨{ s with ready := q }, by simp [rrEnqueue, pushed], ready, inv.quantum_pos⟩

theorem rr_contract (w : Workload) : Contract (D := D) w policyRr (RrInv w) where
  interruptible _ := rfl
  view inv _ _ _ := ⟨inv.ready, inv.quantum_pos⟩
  arrival inv ok hp new _ := rrEnqueue_spec inv ok hp (by simp [new])
  wake {v s pl p} inv ok blocked _ :=
    rrEnqueue_spec inv ok (ok.outside p (by simp [blocked])) (by simp [blocked])
  next {v s pl} inv ok hnow := by
    cases empty : s.ready.isEmpty with
    | true =>
        exact ⟨s, none, by simp [policyRr, rrNextSlice, empty], inv,
          .inl (inv.ready.none_ready empty)⟩
    | false =>
        obtain ⟨p, q, popped, ready, inv', _⟩ := inv.ready.pop empty
          (z := fun p => .out ⟨p, s.quantum, schedNoDeadline⟩) (by simp)
        refine ⟨{ s with ready := q }, some ⟨p, s.quantum, schedNoDeadline⟩,
          by simp [policyRr, rrNextSlice, empty, popped], ready, inv.quantum_pos, hnow,
          le_rfl, fun hook => ?_, inv', inv.quantum_pos⟩
        simp [policyRr] at hook
  preempt {v s pl p slice ran f} inv ok out _ _ _ hook := by
    cases hook
    exact rrEnqueue_spec inv ok (ok.outside p (by simp [out])) (by simp [out])
  block {v s pl p slice ran} inv _ out _ _ _ :=
    ⟨s, rfl, inv.ready.other (by simp [out]) (by simp), inv.quantum_pos⟩
  complete {v s pl p slice ran} inv _ out _ _ :=
    ⟨s, rfl, inv.ready.other (by simp [out]) (by simp), inv.quantum_pos⟩

/-- What the queue of round robin holds. -/
def rrStores (s : Rr) (entries : List Nat) : Prop := s.ready.toList = entries

theorem rr_lawful (v : SchedView D) (params : PolicyParams) (n_eq : v.n = w.len)
    (quantum_pos : 0 < params.quantum) : Lawful w policyRr rrStores v params := by
  intro s created
  cases created
  refine ⟨RrInv w, rr_contract w, ⟨?_, quantum_pos⟩, fun inv _ => ⟨_, rfl, inv.ready.holds⟩⟩
  rw [n_eq]
  exact QueueReady.init w.len

end CpuSched
