import CpuSched.Workload.Core
import Mathlib.Algebra.Order.BigOperators.Group.List
import Mathlib.Data.List.GetD
import Mathlib.Tactic.Linarith

/-!
# What validation guarantees

A workload that `workload_validate` accepts is non-empty, its processes satisfy
every range check over the exact integers, its PIDs are distinct, and the latest
arrival plus every phase stays in the 64-bit range.
-/

namespace CpuSched

theorem ckAddI64_eq_some {a b r : Int} (h : ckAddI64 a b = some r) : r = a + b := by
  unfold ckAddI64 at h
  split_ifs at h
  exact (Option.some.inj h).symm

/-- The checked addition of a positive tick count fails exactly above
`INT64_MAX`. -/
theorem ckAddI64_of_le {a b : Int} (hb : 0 ≤ b) (fits : a + b ≤ int64Max) :
    ckAddI64 a b = some (a + b) := by
  unfold ckAddI64
  rw [if_neg]
  rintro (⟨_, h⟩ | ⟨h, _⟩) <;> omega

theorem ckAddI64_le {a b r : Int} (hb : 0 < b) (h : ckAddI64 a b = some r) : r ≤ int64Max := by
  unfold ckAddI64 at h
  split_ifs at h with hc
  cases h
  rw [not_or] at hc
  by_contra hlt
  exact hc.1 ⟨hb, by omega⟩

/-! ## Sums over phases -/

/-- The sum of the entries at even positions: the CPU phases. -/
def evenSum : List Int → Int
  | [] => 0
  | [x] => x
  | x :: _ :: rest => x + evenSum rest

/-- The sum of the entries at odd positions: the I/O phases. -/
def oddSum (phases : List Int) : Int := evenSum phases.tail

@[simp]
theorem evenSum_cons (x : Int) (rest : List Int) : evenSum (x :: rest) = x + oddSum rest := by
  cases rest <;> simp [evenSum, oddSum]

@[simp]
theorem oddSum_cons (x : Int) (rest : List Int) : oddSum (x :: rest) = evenSum rest := rfl

@[simp]
theorem oddSum_nil : oddSum [] = 0 := rfl

theorem evenSum_add_oddSum (phases : List Int) : evenSum phases + oddSum phases = phases.sum := by
  induction phases with
  | nil => rfl
  | cons x rest ih =>
      rw [evenSum_cons, oddSum_cons, List.sum_cons, ← ih]
      omega

theorem evenSum_nonneg {phases : List Int} (pos : ∀ ph ∈ phases, 0 < ph) :
    0 ≤ evenSum phases ∧ 0 ≤ oddSum phases := by
  induction phases with
  | nil => simp [evenSum]
  | cons x rest ih =>
      simp only [List.mem_cons, forall_eq_or_imp] at pos
      obtain ⟨heven, hodd⟩ := ih pos.2
      rw [evenSum_cons, oddSum_cons]
      exact ⟨by omega, heven⟩

theorem oddSum_nonneg {phases : List Int} (pos : ∀ ph ∈ phases, 0 < ph) : 0 ≤ oddSum phases :=
  (evenSum_nonneg pos).2

/-- The phase loop accepts only positive phases and sums them per parity. -/
theorem sumPhases_spec {k : Nat} {phases : List Int} {sums r : PhaseSums}
    (h : sumPhases k phases sums = some r) :
    (∀ ph ∈ phases, 0 < ph) ∧ r.total = sums.total + phases.sum ∧
      r.cpu = sums.cpu + (if k % 2 = 1 then oddSum phases else evenSum phases) ∧
      r.io = sums.io + (if k % 2 = 1 then evenSum phases else oddSum phases) := by
  induction phases generalizing k sums with
  | nil =>
      cases h
      simp [evenSum]
  | cons ph rest ih =>
      simp only [sumPhases] at h
      split_ifs at h with hle hodd
      · obtain ⟨side, hside, h⟩ := Option.bind_eq_some_iff.mp h
        obtain ⟨total, htotal, h⟩ := Option.bind_eq_some_iff.mp h
        obtain ⟨pos, tot, cpu, io⟩ := ih h
        have := ckAddI64_eq_some hside
        have := ckAddI64_eq_some htotal
        have heven : ¬ (k + 1) % 2 = 1 := by omega
        simp only [heven, if_false] at cpu io
        refine ⟨?_, ?_, ?_, ?_⟩
        · simp only [List.mem_cons, forall_eq_or_imp]
          exact ⟨by omega, pos⟩
        · rw [List.sum_cons, tot]
          simp only
          omega
        · simp only [hodd, if_true, oddSum_cons]
          omega
        · simp only [hodd, if_true, evenSum_cons]
          omega
      · obtain ⟨side, hside, h⟩ := Option.bind_eq_some_iff.mp h
        obtain ⟨total, htotal, h⟩ := Option.bind_eq_some_iff.mp h
        obtain ⟨pos, tot, cpu, io⟩ := ih h
        have := ckAddI64_eq_some hside
        have := ckAddI64_eq_some htotal
        have heven : (k + 1) % 2 = 1 := by omega
        simp only [heven, if_true] at cpu io
        refine ⟨?_, ?_, ?_, ?_⟩
        · simp only [List.mem_cons, forall_eq_or_imp]
          exact ⟨by omega, pos⟩
        · rw [List.sum_cons, tot]
          simp only
          omega
        · simp only [hodd, if_false, evenSum_cons]
          omega
        · simp only [hodd, if_false, oddSum_cons]
          omega

/-! ## The horizon -/

/-- The latest arrival, as `workload_horizon` computes it. -/
def Workload.maxArrival (w : Workload) : Int := (horizonSums w.items 0 0).1

/-- Every tick of CPU and I/O that the workload asks for. -/
def Workload.totalWork (w : Workload) : Int := (w.items.map fun p => p.burst + p.io).sum

theorem horizonSums_total (items : List Process) (maxArrival total : Int) :
    (horizonSums items maxArrival total).2 =
      total + (items.map fun p => p.burst + p.io).sum := by
  induction items generalizing maxArrival total with
  | nil => simp [horizonSums]
  | cons p rest ih =>
      rw [horizonSums, ih, List.map_cons, List.sum_cons]
      omega

theorem horizonSums_le_arrival (items : List Process) (maxArrival total : Int) :
    maxArrival ≤ (horizonSums items maxArrival total).1 ∧
      ∀ p ∈ items, p.arrival ≤ (horizonSums items maxArrival total).1 := by
  induction items generalizing maxArrival total with
  | nil => simp [horizonSums]
  | cons p rest ih =>
      obtain ⟨hm, hp⟩ := ih (if maxArrival < p.arrival then p.arrival else maxArrival)
        (total + (p.burst + p.io))
      simp only [horizonSums, List.mem_cons, forall_eq_or_imp]
      refine ⟨?_, ?_, hp⟩
      · split_ifs at hm ⊢ with hlt <;> omega
      · split_ifs at hm ⊢ with hlt <;> omega

theorem workloadHorizon_eq (w : Workload) : workloadHorizon w = w.maxArrival + w.totalWork := by
  simp only [workloadHorizon, Workload.maxArrival, Workload.totalWork, horizonSums_total, zero_add]

theorem Workload.arrival_le_maxArrival {w : Workload} {p : Process} (hp : p ∈ w.items) :
    p.arrival ≤ w.maxArrival :=
  (horizonSums_le_arrival w.items 0 0).2 p hp

theorem Workload.maxArrival_nonneg (w : Workload) : 0 ≤ w.maxArrival :=
  (horizonSums_le_arrival w.items 0 0).1

/-! ## Valid workloads -/

/-- Every check of one process, over the exact integers. -/
structure Process.Valid (p : Process) : Prop where
  pid_nonneg : 0 ≤ p.pid
  arrival_nonneg : 0 ≤ p.arrival
  burst_pos : 0 < p.burst
  tickets_pos : 1 ≤ p.tickets
  tickets_le : p.tickets ≤ schedMaxTickets
  nice_ge : -20 ≤ p.nice
  nice_le : p.nice ≤ 19
  phases_odd : p.phaseCount % 2 = 1
  phases_pos : ∀ ph ∈ p.phases, 0 < ph
  burst_eq : p.burst = evenSum p.phases
  io_eq : p.io = oddSum p.phases

theorem processValidate_ok {p : Process} {line : Nat} (h : processValidate p line = .ok ()) :
    0 ≤ p.pid ∧ 0 ≤ p.arrival ∧ 0 < p.burst ∧ 1 ≤ p.tickets ∧ p.tickets ≤ schedMaxTickets ∧
      -20 ≤ p.nice ∧ p.nice ≤ 19 := by
  simp only [processValidate] at h
  split_ifs at h
  refine ⟨?_, ?_, ?_, ?_, ?_, ?_, ?_⟩ <;> omega

/-- What the outer loop has computed when it accepts. -/
theorem validateItems_spec {items : List Process} {maxArrival total : Int} {r : Int × Int}
    (h : validateItems items maxArrival total = .ok r) :
    (∀ p ∈ items, p.Valid) ∧ r = horizonSums items maxArrival total := by
  induction items generalizing maxArrival total with
  | nil =>
      cases h
      simp [horizonSums]
  | cons p rest ih =>
      simp only [validateItems] at h
      cases hp : processValidate p 0 with
      | error err =>
          rw [hp] at h
          cases h
      | ok u =>
          rw [hp] at h
          simp only [Except.bind, bind] at h
          cases hs : sumPhases 0 p.phases ⟨0, 0, total⟩ with
          | none =>
              rw [hs] at h
              cases h
          | some sums =>
              rw [hs] at h
              simp only at h
              by_cases hbad : p.phaseCount % 2 = 0 ∨ sums.cpu ≠ p.burst ∨ sums.io ≠ p.io
              · rw [if_pos hbad] at h
                cases h
              rw [if_neg hbad] at h
              obtain ⟨valid, eq⟩ := ih h
              obtain ⟨pid, arrival, burst, tickets, tickets', nice, nice'⟩ := processValidate_ok hp
              obtain ⟨pos, tot, cpu, io⟩ := sumPhases_spec hs
              rw [not_or, not_or, not_not, not_not] at hbad
              simp only [Nat.zero_mod, Nat.zero_ne_one, if_false, zero_add] at cpu io
              refine ⟨?_, ?_⟩
              · simp only [List.mem_cons, forall_eq_or_imp]
                exact ⟨⟨pid, arrival, burst, tickets, tickets', nice, nice', by omega, pos,
                  by omega, by omega⟩, valid⟩
              · rw [eq, horizonSums]
                congr 1
                have := evenSum_add_oddSum p.phases
                simp only at tot
                omega

/-- The scan of a sorted list finds a duplicate if there is one. -/
theorem nodup_of_adjacentDuplicate {pids : List Int} (sorted : pids.Pairwise (· ≤ ·))
    (h : adjacentDuplicate pids = none) : pids.Nodup := by
  induction pids with
  | nil => exact List.nodup_nil
  | cons a rest ih =>
      cases rest with
      | nil => exact List.nodup_singleton a
      | cons b rest =>
          simp only [adjacentDuplicate] at h
          split_ifs at h with hab
          rw [List.pairwise_cons] at sorted
          refine List.nodup_cons.mpr ⟨?_, ih sorted.2 h⟩
          intro mem
          -- everything behind `b` is at least `b`, hence above `a`
          have hlt : a < b := lt_of_le_of_ne (sorted.1 b List.mem_cons_self) (Ne.symm hab)
          have hb := (List.pairwise_cons.mp sorted.2).1
          rcases List.mem_cons.mp mem with rfl | mem
          · exact absurd rfl hab
          · exact absurd (hb a mem) (by omega)

/-- What `workload_validate` checks, over the exact integers. -/
structure Workload.Valid (w : Workload) : Prop where
  nonempty : 0 < w.len
  procs : ∀ p ∈ w.items, p.Valid
  pids_nodup : (w.items.map Process.pid).Nodup
  horizon_le : workloadHorizon w ≤ int64Max

theorem workloadValidate_ok {w : Workload} (h : workloadValidate w = .ok ()) : w.Valid := by
  simp only [workloadValidate] at h
  split_ifs at h with hlen
  cases hv : validateItems w.items 0 0 with
  | error err =>
      rw [hv] at h
      cases h
  | ok r =>
      obtain ⟨maxArrival, total⟩ := r
      rw [hv] at h
      simp only at h
      obtain ⟨valid, eq⟩ := validateItems_spec hv
      cases ha : ckAddI64 maxArrival total with
      | none =>
          rw [ha] at h
          cases h
      | some horizon =>
          rw [ha] at h
          simp only at h
          cases hd : adjacentDuplicate ((w.items.map Process.pid).mergeSort (· ≤ ·)) with
          | some pid =>
              rw [hd] at h
              cases h
          | none =>
              have sorted : ((w.items.map Process.pid).mergeSort (· ≤ ·)).Pairwise (· ≤ ·) := by
                have := List.pairwise_mergeSort' (fun a b : Int => a ≤ b)
                  (w.items.map Process.pid)
                exact this
              have nodup := nodup_of_adjacentDuplicate sorted hd
              refine ⟨Nat.pos_of_ne_zero hlen, valid,
                (List.mergeSort_perm _ _).nodup_iff.mp nodup, ?_⟩
              have hsum := ckAddI64_eq_some ha
              have heq : workloadHorizon w = maxArrival + total := by
                simp only [workloadHorizon, ← eq]
              rw [heq, ← hsum]
              refine ckAddI64_le ?_ ha
              -- a non-empty workload asks for at least one tick
              have htotal : total = 0 + (w.items.map fun p => p.burst + p.io).sum := by
                rw [← horizonSums_total w.items 0 0, ← eq]
              rw [htotal, zero_add]
              refine List.sum_pos _ ?_ ?_
              · intro x hx
                obtain ⟨p, hp, rfl⟩ := List.mem_map.mp hx
                have := valid p hp
                have hio : 0 ≤ p.io := by
                  rw [this.io_eq]
                  exact oddSum_nonneg this.phases_pos
                have := this.burst_pos
                omega
              · simpa [Workload.len] using hlen

/-! ## Access by index -/

theorem Workload.proc_eq {w : Workload} {i : Nat} (hi : i < w.len) : w.proc i = w.items[i] :=
  List.getD_eq_getElem _ _ hi

theorem Workload.proc_mem {w : Workload} {i : Nat} (hi : i < w.len) : w.proc i ∈ w.items := by
  rw [Workload.proc_eq hi]
  exact List.getElem_mem hi

theorem Workload.Valid.proc {w : Workload} (valid : w.Valid) {i : Nat} (hi : i < w.len) :
    (w.proc i).Valid :=
  valid.procs _ (Workload.proc_mem hi)

/-- A process that is not there has no burst. -/
theorem Workload.Valid.burst_nonneg {w : Workload} (valid : w.Valid) (i : Nat) :
    0 ≤ (w.proc i).burst := by
  by_cases hi : i < w.len
  · exact (valid.proc hi).burst_pos.le
  · rw [Workload.proc, List.getD_eq_default _ _ (not_lt.mp hi)]
    rfl

theorem Workload.Valid.totalWork_nonneg {w : Workload} (valid : w.Valid) : 0 ≤ w.totalWork := by
  refine List.sum_nonneg fun x hx => ?_
  obtain ⟨p, hp, rfl⟩ := List.mem_map.mp hx
  have proc := valid.procs p hp
  have := proc.burst_pos
  have := oddSum_nonneg proc.phases_pos
  rw [← proc.io_eq] at this
  omega

/-- Arrivals stay in the 64-bit range. -/
theorem Workload.Valid.arrival_le {w : Workload} (valid : w.Valid) {i : Nat} (hi : i < w.len) :
    (w.proc i).arrival ≤ int64Max := by
  have := arrival_le_maxArrival (proc_mem hi)
  have := valid.totalWork_nonneg
  have := valid.horizon_le
  rw [workloadHorizon_eq] at this
  omega

/-- Work is left after the last arrival, so no process arrives at `INT64_MAX`. -/
theorem Workload.Valid.arrival_lt {w : Workload} (valid : w.Valid) {i : Nat} (hi : i < w.len) :
    (w.proc i).arrival < int64Max := by
  have latest := arrival_le_maxArrival (proc_mem hi)
  have positive : 0 < w.totalWork := by
    refine List.sum_pos _ (fun x hx => ?_) ?_
    · obtain ⟨p, hp, rfl⟩ := List.mem_map.mp hx
      have proc := valid.procs p hp
      have := proc.burst_pos
      have := oddSum_nonneg proc.phases_pos
      rw [← proc.io_eq] at this
      omega
    · have := valid.nonempty
      simpa [Workload.len, List.length_pos_iff] using this
  have := valid.horizon_le
  rw [workloadHorizon_eq] at this
  omega

/-- PIDs name processes. -/
theorem Workload.Valid.pid_injective {w : Workload} (valid : w.Valid) {i j : Nat}
    (hi : i < w.len) (hj : j < w.len) (same : (w.proc i).pid = (w.proc j).pid) : i = j := by
  rw [Workload.proc_eq hi, Workload.proc_eq hj] at same
  have hi' : i < (w.items.map Process.pid).length := by simpa [Workload.len] using hi
  have hj' : j < (w.items.map Process.pid).length := by simpa [Workload.len] using hj
  have same' : (w.items.map Process.pid)[i] = (w.items.map Process.pid)[j] := by
    rw [List.getElem_map, List.getElem_map]
    exact same
  exact valid.pids_nodup.getElem_inj_iff.mp same'

theorem Process.Valid.phaseCount_pos {p : Process} (valid : p.Valid) : 0 < p.phaseCount := by
  have := valid.phases_odd
  omega

theorem Process.Valid.phase_pos {p : Process} (valid : p.Valid) {k : Nat}
    (hk : k < p.phaseCount) : 0 < p.phase k := by
  rw [Process.phase, List.getD_eq_getElem _ _ hk]
  exact valid.phases_pos _ (List.getElem_mem hk)

/-- Every phase stays in the 64-bit range. -/
theorem Workload.Valid.phase_le {w : Workload} (valid : w.Valid) {i k : Nat} (hi : i < w.len)
    (hk : k < (w.proc i).phaseCount) : (w.proc i).phase k ≤ int64Max := by
  have proc := valid.proc hi
  have part : (w.proc i).phase k ≤ (w.proc i).phases.sum := by
    rw [Process.phase, List.getD_eq_getElem _ _ hk]
    exact List.single_le_sum (fun x hx => (proc.phases_pos x hx).le) _ (List.getElem_mem hk)
  have share : (w.proc i).burst + (w.proc i).io ≤ w.totalWork := by
    refine List.single_le_sum (fun x hx => ?_) _ (List.mem_map.mpr ⟨_, Workload.proc_mem hi, rfl⟩)
    obtain ⟨p, hp, rfl⟩ := List.mem_map.mp hx
    have proc := valid.procs p hp
    have := oddSum_nonneg proc.phases_pos
    have := proc.io_eq
    have := proc.burst_pos
    omega
  have := evenSum_add_oddSum (w.proc i).phases
  have := proc.burst_eq
  have := proc.io_eq
  have := valid.horizon_le
  have := arrival_le_maxArrival (Workload.proc_mem hi)
  have := proc.arrival_nonneg
  rw [workloadHorizon_eq] at *
  omega

/-! ## Exactly the valid workloads are accepted -/

/-- The latest arrival. -/
def Workload.latestArrival (w : Workload) : Int := ((w.items.map Process.arrival).max?).getD 0

/-- The sum of all phases. -/
def Workload.phaseTotal (w : Workload) : Int := (w.items.map fun p => p.phases.sum).sum

/-- The results of the signed additions of `workload_horizon`, in its order. -/
def horizonInts : List Process → Int → Int → List Int
  | [], maxArrival, total => [maxArrival + total]
  | p :: rest, maxArrival, total =>
      (p.burst + p.io) :: (total + (p.burst + p.io)) ::
        horizonInts rest (if maxArrival < p.arrival then p.arrival else maxArrival)
          (total + (p.burst + p.io))

theorem processValidate_of_valid {p : Process} (valid : p.Valid) (line : Nat) :
    processValidate p line = .ok () := by
  have := valid.pid_nonneg
  have := valid.arrival_nonneg
  have := valid.burst_pos
  have := valid.tickets_pos
  have := valid.tickets_le
  have := valid.nice_ge
  have := valid.nice_le
  simp only [processValidate]
  rw [if_neg (by omega), if_neg (by omega), if_neg (by omega), if_neg (by omega),
    if_neg (by omega)]

theorem phases_sum_nonneg {phases : List Int} (pos : ∀ ph ∈ phases, 0 < ph) : 0 ≤ phases.sum :=
  List.sum_nonneg fun ph hph => (pos ph hph).le

/-- The phase loop never leaves the 64-bit range before the total does. -/
theorem sumPhases_of_fits {k : Nat} {phases : List Int} (sums : PhaseSums)
    (pos : ∀ ph ∈ phases, 0 < ph) (cpu : sums.cpu ≤ sums.total) (io : sums.io ≤ sums.total)
    (fits : sums.total + phases.sum ≤ int64Max) : ∃ r, sumPhases k phases sums = some r := by
  induction phases generalizing k sums with
  | nil => exact ⟨sums, rfl⟩
  | cons ph rest ih =>
      simp only [List.mem_cons, forall_eq_or_imp] at pos
      rw [List.sum_cons] at fits
      have := phases_sum_nonneg pos.2
      have total := ckAddI64_of_le (a := sums.total) pos.1.le (by omega)
      rw [sumPhases, if_neg (by omega), total]
      split_ifs with odd
      · rw [ckAddI64_of_le pos.1.le (by omega)]
        exact ih _ pos.2 (by simp only; omega) (by simp only; omega) (by simp only; omega)
      · rw [ckAddI64_of_le pos.1.le (by omega)]
        exact ih _ pos.2 (by simp only; omega) (by simp only; omega) (by simp only; omega)

/-- The outer loop accepts valid processes whose phases fit. -/
theorem validateItems_of_fits {items : List Process} (maxArrival : Int) {total : Int}
    (valid : ∀ p ∈ items, p.Valid) (nonneg : 0 ≤ total)
    (fits : total + (items.map fun p => p.phases.sum).sum ≤ int64Max) :
    ∃ r, validateItems items maxArrival total = .ok r := by
  induction items generalizing maxArrival total with
  | nil => exact ⟨_, rfl⟩
  | cons p rest ih =>
      simp only [List.mem_cons, forall_eq_or_imp] at valid
      rw [List.map_cons, List.sum_cons] at fits
      have later : 0 ≤ (rest.map fun p => p.phases.sum).sum := by
        refine List.sum_nonneg fun x hx => ?_
        obtain ⟨q, hq, rfl⟩ := List.mem_map.mp hx
        exact phases_sum_nonneg (valid.2 q hq).phases_pos
      have own := phases_sum_nonneg valid.1.phases_pos
      obtain ⟨sums, hsums⟩ := sumPhases_of_fits (k := 0) ⟨0, 0, total⟩
        valid.1.phases_pos nonneg nonneg (by simp only; omega)
      obtain ⟨-, tot, cpu, io⟩ := sumPhases_spec hsums
      simp only [Nat.zero_mod, Nat.zero_ne_one, if_false, zero_add] at tot cpu io
      have odd := valid.1.phases_odd
      have burst := valid.1.burst_eq
      have ioEq := valid.1.io_eq
      simp only [validateItems, processValidate_of_valid valid.1, Except.bind, bind, hsums]
      rw [if_neg (by omega)]
      exact ih _ valid.2 (by omega) (by omega)

theorem adjacentDuplicate_of_nodup {pids : List Int} (nodup : pids.Nodup) :
    adjacentDuplicate pids = none := by
  induction pids with
  | nil => rfl
  | cons a rest ih =>
      cases rest with
      | nil => rfl
      | cons b rest =>
          rw [List.nodup_cons] at nodup
          have apart : b ≠ a := by
            rintro rfl
            exact nodup.1 List.mem_cons_self
          rw [adjacentDuplicate, if_neg apart]
          exact ih nodup.2

theorem Process.Valid.phases_sum {p : Process} (valid : p.Valid) :
    p.phases.sum = p.burst + p.io := by
  rw [valid.burst_eq, valid.io_eq, evenSum_add_oddSum]

theorem Workload.phaseTotal_eq {w : Workload} (procs : ∀ p ∈ w.items, p.Valid) :
    w.phaseTotal = w.totalWork := by
  unfold Workload.phaseTotal Workload.totalWork
  congr 1
  exact List.map_congr_left fun p hp => (procs p hp).phases_sum

theorem horizonSums_arrival_mem (items : List Process) (maxArrival total : Int) :
    (horizonSums items maxArrival total).1 = maxArrival ∨
      (horizonSums items maxArrival total).1 ∈ items.map Process.arrival := by
  induction items generalizing maxArrival total with
  | nil => exact .inl rfl
  | cons p rest ih =>
      rw [horizonSums, List.map_cons, List.mem_cons]
      rcases ih (if maxArrival < p.arrival then p.arrival else maxArrival)
        (total + (p.burst + p.io)) with same | mem
      · rw [same]
        split_ifs
        · exact .inr (.inl rfl)
        · exact .inl rfl
      · exact .inr (.inr mem)

/-- The running maximum from 0 is the latest arrival. -/
theorem Workload.maxArrival_eq {w : Workload} (nonempty : 0 < w.len)
    (nonneg : ∀ p ∈ w.items, 0 ≤ p.arrival) : w.maxArrival = w.latestArrival := by
  have greatest : (w.items.map Process.arrival).max? = some w.maxArrival := by
    rw [List.max?_eq_some_iff]
    constructor
    · rcases horizonSums_arrival_mem w.items 0 0 with zero | mem
      · -- then every arrival is 0
        have first := Workload.proc_mem nonempty
        have upper := Workload.arrival_le_maxArrival first
        have lower := nonneg _ first
        have same : (w.proc 0).arrival = w.maxArrival := by
          unfold Workload.maxArrival at upper ⊢
          omega
        rw [← same]
        exact List.mem_map_of_mem first
      · exact mem
    · intro a ha
      obtain ⟨p, hp, rfl⟩ := List.mem_map.mp ha
      exact Workload.arrival_le_maxArrival hp
  rw [Workload.latestArrival, greatest, Option.getD_some]

/-- No addition of `workload_horizon` exceeds the last one. -/
theorem horizonInts_bounds {items : List Process} {maxArrival total : Int}
    (procs : ∀ p ∈ items, p.Valid) (arrival : 0 ≤ maxArrival) (nonneg : 0 ≤ total) :
    ∀ x ∈ horizonInts items maxArrival total, 0 ≤ x ∧
      x ≤ (horizonSums items maxArrival total).1 + (horizonSums items maxArrival total).2 := by
  induction items generalizing maxArrival total with
  | nil =>
      intro x hx
      rw [horizonInts, List.mem_singleton] at hx
      subst hx
      exact ⟨by omega, le_rfl⟩
  | cons p rest ih =>
      simp only [List.mem_cons, forall_eq_or_imp] at procs
      have burst := procs.1.burst_pos
      have io := oddSum_nonneg procs.1.phases_pos
      rw [← procs.1.io_eq] at io
      have latest := (horizonSums_le_arrival rest
        (if maxArrival < p.arrival then p.arrival else maxArrival) (total + (p.burst + p.io))).1
      have sum := horizonSums_total rest
        (if maxArrival < p.arrival then p.arrival else maxArrival) (total + (p.burst + p.io))
      have later : 0 ≤ (rest.map fun p => p.burst + p.io).sum := by
        refine List.sum_nonneg fun x hx => ?_
        obtain ⟨q, hq, rfl⟩ := List.mem_map.mp hx
        rw [← (procs.2 q hq).phases_sum]
        exact phases_sum_nonneg (procs.2 q hq).phases_pos
      have floor : 0 ≤ if maxArrival < p.arrival then p.arrival else maxArrival := by
        split_ifs <;> omega
      intro x hx
      rw [horizonInts, List.mem_cons, List.mem_cons] at hx
      rw [horizonSums]
      rcases hx with rfl | rfl | hx
      · omega
      · omega
      · exact ih procs.2 floor (by omega) x hx

theorem Workload.Valid.validates {w : Workload} (valid : w.Valid) :
    workloadValidate w = .ok () := by
  have total := valid.horizon_le
  rw [workloadHorizon_eq, ← Workload.phaseTotal_eq valid.procs] at total
  have latest := w.maxArrival_nonneg
  obtain ⟨r, hr⟩ := validateItems_of_fits 0 valid.procs le_rfl (by
    unfold Workload.phaseTotal at total
    omega)
  have sums := (validateItems_spec hr).2
  have fits : r.1 + r.2 ≤ int64Max := by
    rw [sums]
    exact valid.horizon_le
  have nonneg : 0 ≤ r.2 := by
    rw [sums, horizonSums_total, zero_add]
    exact valid.totalWork_nonneg
  have nodup := (List.mergeSort_perm (w.items.map Process.pid) (· ≤ ·)).nodup_iff.mpr
    valid.pids_nodup
  simp only [workloadValidate]
  rw [if_neg valid.nonempty.ne', hr]
  simp only [ckAddI64_of_le nonneg fits, adjacentDuplicate_of_nodup nodup]

/-- `workload_validate` accepts exactly the workloads of valid processes with distinct
PIDs whose latest arrival plus all phases stay in the 64-bit range; for these
`workload_horizon` computes that sum and no addition overflows. -/
theorem workload_validate_exact (w : Workload) :
    (workloadValidate w = .ok () ↔
      w.items ≠ [] ∧ (∀ p ∈ w.items, p.Valid) ∧ (w.items.map Process.pid).Nodup ∧
        w.latestArrival + w.phaseTotal ≤ int64Max) ∧
    (workloadValidate w = .ok () →
      workloadHorizon w = w.latestArrival + w.phaseTotal ∧
        ∀ x ∈ horizonInts w.items 0 0, InI64 x) := by
  have horizon : 0 < w.len → (∀ p ∈ w.items, p.Valid) →
      workloadHorizon w = w.latestArrival + w.phaseTotal := by
    intro nonempty procs
    rw [workloadHorizon_eq, Workload.phaseTotal_eq procs,
      Workload.maxArrival_eq nonempty fun p hp => (procs p hp).arrival_nonneg]
  constructor
  · constructor
    · intro accepted
      have valid := workloadValidate_ok accepted
      refine ⟨List.length_pos_iff.mp valid.nonempty, valid.procs, valid.pids_nodup, ?_⟩
      rw [← horizon valid.nonempty valid.procs]
      exact valid.horizon_le
    · rintro ⟨nonempty, procs, nodup, fits⟩
      have positive : 0 < w.len := List.length_pos_iff.mpr nonempty
      exact Workload.Valid.validates
        ⟨positive, procs, nodup, (horizon positive procs).symm ▸ fits⟩
  · intro accepted
    have valid := workloadValidate_ok accepted
    refine ⟨horizon valid.nonempty valid.procs, fun x hx => ?_⟩
    obtain ⟨lower, upper⟩ := horizonInts_bounds valid.procs le_rfl le_rfl x hx
    have top : (horizonSums w.items 0 0).1 + (horizonSums w.items 0 0).2 ≤ int64Max :=
      valid.horizon_le
    exact ⟨by unfold int64Min; omega, by omega⟩

end CpuSched
