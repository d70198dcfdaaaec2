import CpuSched.Policies.ShortestJob
import CpuSched.Policy.ReadySet

/-!
# SJF and SRTF keep the contract

Their heap holds exactly the ready processes.  Under the oracle the comparator
is a strict total order on the processes, so the heap is in order and the process
returned is the least one; with predictions nothing is known about the order of
the doubles, and only the contents are tracked.
-/

namespace CpuSched

variable {D : Type} {w : Workload}

theorem cmpInt_lt_zero {a b : Int} : cmpInt a b < 0 ↔ a < b := by
  unfold cmpInt
  split_ifs <;> omega

theorem cmpInt_eq_zero {a b : Int} : cmpInt a b = 0 ↔ a = b := by
  unfold cmpInt
  split_ifs <;> omega

/-- A comparator `(key, arrival, pid)` is the lexicographic order. -/
theorem lessByArrival_iff (v : SchedView D) (key : Nat → Int) (a b : Nat) :
    lessByArrival v (cmpInt (key a) (key b)) a b = true ↔
      key a < key b ∨ (key a = key b ∧ ((v.procs a).arrival < (v.procs b).arrival ∨
        ((v.procs a).arrival = (v.procs b).arrival ∧ (v.procs a).pid < (v.procs b).pid))) := by
  unfold lessByArrival
  have hlt := cmpInt_lt_zero (a := key a) (b := key b)
  have heq := cmpInt_eq_zero (a := key a) (b := key b)
  split_ifs with h1 h2
  · simp only [decide_eq_true_eq]
    omega
  · simp only [decide_eq_true_eq]
    omega
  · simp only [decide_eq_true_eq]
    omega

/-- `(key, arrival, pid)` orders the processes of a valid workload. -/
theorem lessByArrival_total {v : SchedView D} (valid : w.Valid) (procs_eq : v.procs = w.proc)
    (key : Nat → Int) :
    StrictTotalOn (fun a b => lessByArrival v (cmpInt (key a) (key b)) a b) (· < w.len) where
  irrefl a _ := by
    rw [Bool.eq_false_iff]
    intro h
    have := (lessByArrival_iff v key a a).mp h
    omega
  trans a b c _ _ _ hab hbc := by
    have hab := (lessByArrival_iff v key a b).mp hab
    have hbc := (lessByArrival_iff v key b c).mp hbc
    exact (lessByArrival_iff v key a c).mpr (by omega)
  total a b ha hb hne := by
    have hpid : (v.procs a).pid ≠ (v.procs b).pid := by
      rw [procs_eq]
      exact fun same => hne (valid.pid_injective ha hb same)
    rw [lessByArrival_iff, lessByArrival_iff]
    omega

/-! ## The shared invariant -/

/-- The invariant of both policies, over their comparator. -/
def ShortestInv (less : SchedView D → Nat → Nat → Bool) (w : Workload) (v : SchedView D)
    (ready : Heap) (pl : Places) : Prop :=
  HeapReady w.len (less v) (v.predicted = none) ready pl

/-- The comparator orders the processes under the oracle, and reads only fields
of the two processes it compares. -/
structure Ranking (w : Workload) (less : SchedView D → Nat → Nat → Bool) : Prop where
  total : ∀ v, v.procs = w.proc → v.predicted = none → StrictTotalOn (less v) (· < w.len)
  stable : ∀ {pl v v'}, ViewStep pl v v' → v.predicted = none →
    ∀ a b, pl a = .ready → pl b = .ready → less v' a b = less v a b

section Shared

variable {less : SchedView D → Nat → Nat → Bool} (ranking : Ranking w less)
include ranking

theorem ShortestInv.view {v v' : SchedView D} {s : Heap} {pl : Places}
    (inv : ShortestInv less w v s pl) (step : ViewStep pl v v') : ShortestInv less w v' s pl := by
  refine ⟨inv.cap_eq, inv.holds, fun oracle => ?_⟩
  have oracle := step.oracle_iff.mp oracle
  exact (HeapReady.congr inv (fun _ => oracle)
    (ranking.stable step oracle)).heapOrdered trivial

theorem ShortestInv.push {v : SchedView D} {s : Heap} {pl : Places} {p : Nat}
    (inv : ShortestInv less w v s pl) (ok : ViewOk w v pl) (hp : p < w.len)
    (notReady : pl p ≠ .ready) :
    ∃ s', heapPush (less v) s p = some s' ∧ ShortestInv less w v s' (pl.move p .ready) :=
  HeapReady.push inv ok.ready_lt (ranking.total v ok.procs_eq) hp notReady

/-- The slice returned is that of a ready process, the least one under the
oracle. -/
theorem ShortestInv.next {v : SchedView D} {s : Heap} {pl : Places}
    (inv : ShortestInv less w v s pl) (ok : ViewOk w v pl) :
    (popWholeBurst (less v) v s = some (s, none) ∧ ∀ p, pl p ≠ .ready) ∨
      ∃ p s', popWholeBurst (less v) v s =
          some (s', some ⟨p, v.remaining p, schedNoDeadline⟩) ∧
        pl p = .ready ∧
        ShortestInv less w v s' (pl.move p (.out ⟨p, v.remaining p, schedNoDeadline⟩)) ∧
        (v.predicted = none → ∀ x, pl x = .ready → x ≠ p → less v p x = true) := by
  cases empty : s.isEmpty with
  | true =>
      exact .inl ⟨by simp [popWholeBurst, empty], HeapReady.none_ready inv empty⟩
  | false =>
      obtain ⟨p, s', popped, ready, inv', least⟩ := HeapReady.pop inv ok.ready_lt
        (ranking.total v ok.procs_eq) empty
        (z := fun p => .out ⟨p, v.remaining p, schedNoDeadline⟩) (by simp)
      exact .inr ⟨p, s', by simp [popWholeBurst, empty, popped], ready, inv', least⟩

/-- `next_slice` keeps the contract. -/
theorem ShortestInv.nextOk {v : SchedView D} {s : Heap} {pl : Places}
    (inv : ShortestInv less w v s pl) (ok : ViewOk w v pl) (hnow : v.now < int64Max)
    (whole mayIdle : Prop) :
    ∃ s' r, popWholeBurst (less v) v s = some (s', r) ∧
      NextOk (ShortestInv less w) whole mayIdle v pl s' r := by
  rcases inv.next ranking ok with ⟨stuck, empty⟩ | ⟨p, s', popped, ready, inv', _⟩
  · exact ⟨s, none, stuck, inv, .inl empty⟩
  · exact ⟨s', _, popped, ready, ok.ready_pos p ready, hnow, le_rfl, fun _ => ⟨le_rfl, rfl⟩, inv'⟩

end Shared

/-! ## The two comparators -/

variable [Double D]

theorem sjfLess_oracle {v : SchedView D} (oracle : v.predicted = none) :
    sjfLess v = fun a b => lessByArrival v (cmpInt (v.burstLen a) (v.burstLen b)) a b := by
  funext a b
  simp [sjfLess, schedCmpExpectedBurst, oracle]

theorem srtfLess_oracle {v : SchedView D} (oracle : v.predicted = none) :
    srtfLess v = fun a b => lessByArrival v (cmpInt (v.remaining a) (v.remaining b)) a b := by
  funext a b
  simp [srtfLess, schedCmpExpectedRemaining, oracle]

theorem sjfLess_total {v : SchedView D} (valid : w.Valid) (procs_eq : v.procs = w.proc)
    (oracle : v.predicted = none) : StrictTotalOn (sjfLess v) (· < w.len) := by
  rw [sjfLess_oracle oracle]
  exact lessByArrival_total valid procs_eq _

theorem srtfLess_total {v : SchedView D} (valid : w.Valid) (procs_eq : v.procs = w.proc)
    (oracle : v.predicted = none) : StrictTotalOn (srtfLess v) (· < w.len) := by
  rw [srtfLess_oracle oracle]
  exact lessByArrival_total valid procs_eq _

theorem sjf_ranking (valid : w.Valid) : Ranking (D := D) w sjfLess where
  total _ procs_eq oracle := sjfLess_total valid procs_eq oracle
  stable step oracle a b ha hb := by
    rw [sjfLess_oracle oracle, sjfLess_oracle (step.oracle_iff.mpr oracle)]
    simp only [lessByArrival, step.burstLen_eq a ha, step.burstLen_eq b hb, step.procs_eq]

theorem srtf_ranking (valid : w.Valid) : Ranking (D := D) w srtfLess where
  total _ procs_eq oracle := srtfLess_total valid procs_eq oracle
  stable step oracle a b ha hb := by
    rw [srtfLess_oracle oracle, srtfLess_oracle (step.oracle_iff.mpr oracle)]
    simp only [lessByArrival, step.remaining_eq a ha, step.remaining_eq b hb, step.procs_eq]

/-! ## The two policies -/

theorem sjf_contract (valid : w.Valid) :
    Contract (D := D) w policySjf (ShortestInv sjfLess w) where
  interruptible _ := rfl
  view inv _ _ step := inv.view (sjf_ranking valid) step
  arrival inv ok hp new _ := inv.push (sjf_ranking valid) ok hp (by simp [new])
  wake {v s pl p} inv ok blocked _ :=
    inv.push (sjf_ranking valid) ok (ok.outside p (by simp [blocked]))
    (by simp [blocked])
  next inv ok hnow := inv.nextOk (sjf_ranking valid) ok hnow _ _
  preempt _ _ _ _ _ _ hook := by simp [policySjf] at hook
  block {v s pl p slice ran} inv _ out _ _ _ :=
    ⟨s, rfl, HeapReady.other inv (by simp [out]) (by simp)⟩
  complete {v s pl p slice ran} inv _ out _ _ :=
    ⟨s, rfl, HeapReady.other inv (by simp [out]) (by simp)⟩

/-- What the heap of SJF and SRTF holds. -/
def shortestStores (ready : Heap) (entries : List Nat) : Prop := ready.toList = entries

theorem sjf_lawful (valid : w.Valid) (v : SchedView D) (params : PolicyParams)
    (n_eq : v.n = w.len) : Lawful w policySjf shortestStores v params := by
  intro s created
  cases created
  refine ⟨ShortestInv sjfLess w, sjf_contract valid, ?_, fun inv _ => ⟨_, rfl, HeapReady.holds inv⟩⟩
  rw [n_eq]
  exact HeapReady.init _ _ _

theorem srtf_contract (valid : w.Valid) :
    Contract (D := D) w policySrtf (ShortestInv srtfLess w) where
  interruptible hook := by simp [policySrtf] at hook
  view inv _ _ step := inv.view (srtf_ranking valid) step
  arrival inv ok hp new _ := inv.push (srtf_ranking valid) ok hp (by simp [new])
  wake {v s pl p} inv ok blocked _ :=
    inv.push (srtf_ranking valid) ok (ok.outside p (by simp [blocked]))
    (by simp [blocked])
  next inv ok hnow := inv.nextOk (srtf_ranking valid) ok hnow _ _
  preempt {v s pl p slice ran f} inv ok out _ _ _ hook := by
    cases hook
    exact inv.push (srtf_ranking valid) ok (ok.outside p (by simp [out])) (by simp [out])
  block {v s pl p slice ran} inv _ out _ _ _ :=
    ⟨s, rfl, HeapReady.other inv (by simp [out]) (by simp)⟩
  complete {v s pl p slice ran} inv _ out _ _ :=
    ⟨s, rfl, HeapReady.other inv (by simp [out]) (by simp)⟩

theorem srtf_lawful (valid : w.Valid) (v : SchedView D) (params : PolicyParams)
    (n_eq : v.n = w.len) : Lawful w policySrtf shortestStores v params := by
  intro s created
  cases created
  refine ⟨ShortestInv srtfLess w, srtf_contract valid, ?_,
    fun inv _ => ⟨_, rfl, HeapReady.holds inv⟩⟩
  rw [n_eq]
  exact HeapReady.init _ _ _

end CpuSched
