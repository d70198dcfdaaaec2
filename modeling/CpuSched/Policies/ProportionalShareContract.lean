import CpuSched.Policies.ProportionalShare
import CpuSched.Policy.ReadySet
import Mathlib.Algebra.BigOperators.Group.Finset.Basic
import Mathlib.Algebra.Order.BigOperators.Group.Finset

/-!
# Stride and CFS-lite keep the contract

Their heap is ordered by `(key, pid)`, where the key of a ready process does not
change.  CFS also divides by the weight of the runnable processes, which is
positive while one is ready.
-/

namespace CpuSched

variable {D : Type} {w : Workload}

/-! ## The heap order -/

theorem lessByPid_iff (v : SchedView D) (key : Nat → Int) (a b : Nat) :
    lessByPid v key a b = true ↔
      key a < key b ∨ (key a = key b ∧ (v.procs a).pid < (v.procs b).pid) := by
  unfold lessByPid
  split_ifs with h
  · simp only [decide_eq_true_eq]
    omega
  · simp only [decide_eq_true_eq]
    omega

/-- `(key, pid)` orders the processes of a valid workload. -/
theorem lessByPid_total {v : SchedView D} (valid : w.Valid) (procs_eq : v.procs = w.proc)
    (key : Nat → Int) : StrictTotalOn (lessByPid v key) (· < w.len) where
  irrefl a _ := by
    rw [Bool.eq_false_iff]
    intro h
    have := (lessByPid_iff v key a a).mp h
    omega
  trans a b c _ _ _ hab hbc := by
    have hab := (lessByPid_iff v key a b).mp hab
    have hbc := (lessByPid_iff v key b c).mp hbc
    exact (lessByPid_iff v key a c).mpr (by omega)
  total a b ha hb hne := by
    have hpid : (v.procs a).pid ≠ (v.procs b).pid := by
      rw [procs_eq]
      exact fun same => hne (valid.pid_injective ha hb same)
    rw [lessByPid_iff, lessByPid_iff]
    omega

/-- The heap of `(key, pid)` that holds the ready processes. -/
abbrev KeyReady (w : Workload) (v : SchedView D) (key : Nat → Int) (ready : Heap) (pl : Places) :
    Prop :=
  HeapReady w.len (lessByPid v key) True ready pl

namespace KeyReady

variable {v v' : SchedView D} {key : Nat → Int} {ready : Heap} {pl : Places} {p : Nat}

theorem view (hr : KeyReady w v key ready pl) (procs_eq : v'.procs = v.procs) :
    KeyReady w v' key ready pl :=
  HeapReady.congr hr id fun a b _ _ => by simp only [lessByPid, procs_eq]

/-- The key of a process that is not in the heap may change. -/
theorem rekey (hr : KeyReady w v key ready pl) (notReady : pl p ≠ .ready) (x : Int) :
    KeyReady w v (Function.update key p x) ready pl := by
  refine HeapReady.congr hr id fun a b ha hb => ?_
  have ha' : a ≠ p := by
    rintro rfl
    exact notReady ha
  have hb' : b ≠ p := by
    rintro rfl
    exact notReady hb
  simp only [lessByPid, Function.update_of_ne ha', Function.update_of_ne hb']

theorem push (hr : KeyReady w v key ready pl) (valid : w.Valid) (ok : ViewOk w v pl)
    (hp : p < w.len) (notReady : pl p ≠ .ready) :
    ∃ ready', heapPush (lessByPid v key) ready p = some ready' ∧
      KeyReady w v key ready' (pl.move p .ready) :=
  HeapReady.push hr ok.ready_lt (fun _ => lessByPid_total valid ok.procs_eq key) hp notReady

theorem pop (hr : KeyReady w v key ready pl) (valid : w.Valid) (ok : ViewOk w v pl)
    (nonempty : ready.isEmpty = false) {z : Nat → Place} (leaves : ∀ q, z q ≠ .ready) :
    ∃ q ready', heapPop (lessByPid v key) ready = some (q, ready') ∧ pl q = .ready ∧
      KeyReady w v key ready' (pl.move q (z q)) ∧
      ∀ x, pl x = .ready → x ≠ q → lessByPid v key q x = true := by
  obtain ⟨q, ready', popped, hq, hr', least⟩ := HeapReady.pop hr ok.ready_lt
    (fun _ => lessByPid_total valid ok.procs_eq key) nonempty leaves
  exact ⟨q, ready', popped, hq, hr', least trivial⟩

end KeyReady

/-! ## Stride -/

/-- The invariant of stride scheduling. -/
structure StrideInv (w : Workload) (v : SchedView D) (s : Stride) (pl : Places) : Prop where
  ready : KeyReady w v s.pass s.ready pl
  quantum_pos : 0 < s.quantum

/-- A push of a process that is not ready, with any pass. -/
theorem stridePush_spec (valid : w.Valid) {v : SchedView D} {s : Stride} {pl : Places} {p : Nat}
    (inv : StrideInv w v s pl) (ok : ViewOk w v pl) (hp : p < w.len) (notReady : pl p ≠ .ready) :
    ∃ s', stridePush v s p = some s' ∧ StrideInv w v s' (pl.move p .ready) := by
  obtain ⟨ready, pushed, hr⟩ := inv.ready.push valid ok hp notReady
  have pushed : heapPush (strideLess v s) s.ready p = some ready := pushed
  exact ⟨{ s with ready }, by simp [stridePush, pushed], hr, inv.quantum_pos⟩

theorem StrideInv.rekey {v : SchedView D} {s : Stride} {pl : Places} {p : Nat}
    (inv : StrideInv w v s pl) (notReady : pl p ≠ .ready) (x : Int) :
    StrideInv w v { s with pass := Function.update s.pass p x } pl :=
  ⟨inv.ready.rekey notReady x, inv.quantum_pos⟩

theorem strideReady_spec (valid : w.Valid) {v : SchedView D} {s : Stride} {pl : Places} {p : Nat}
    (inv : StrideInv w v s pl) (ok : ViewOk w v pl) (blocked : pl p = .blocked) :
    ∃ s', strideReady v s p = some s' ∧ StrideInv w v s' (pl.move p .ready) := by
  refine stridePush_spec valid ?_ ok (ok.outside p (by simp [blocked])) (by simp [blocked])
  split
  · exact inv.rekey (by simp [blocked]) _
  · exact inv

theorem strideDone_spec {v : SchedView D} {s : Stride} {pl : Places} {p : Nat} {z : Place}
    {slice : Slice} (inv : StrideInv w v s pl) (out : pl p = .out slice) (leaves : z ≠ .ready)
    (ran : Int) : ∃ s', strideDone v s p ran = some s' ∧ StrideInv w v s' (pl.move p z) := by
  have charged := inv.rekey (p := p) (by simp [out]) (s.pass p + strideOf v p * ran)
  exact ⟨_, rfl, charged.ready.other (by simp [out]) leaves, inv.quantum_pos⟩

theorem stride_contract (valid : w.Valid) : Contract (D := D) w policyStride (StrideInv w) where
  interruptible _ := rfl
  view inv _ _ step := ⟨inv.ready.view step.procs_eq, inv.quantum_pos⟩
  arrival {v s pl p} inv ok hp new _ :=
    stridePush_spec valid (inv.rekey (by simp [new]) s.vtime) ok hp (by simp [new])
  wake inv ok blocked _ := strideReady_spec valid inv ok blocked
  next {v s pl} inv ok hnow := by
    cases empty : s.ready.isEmpty with
    | true =>
        exact ⟨s, none, by simp [policyStride, strideNextSlice, empty], inv,
          .inl (inv.ready.none_ready empty)⟩
    | false =>
        obtain ⟨p, ready, popped, isReady, hr, -⟩ := inv.ready.pop valid ok empty
          (z := fun p => .out ⟨p, s.quantum, schedNoDeadline⟩) (by simp)
        have popped : heapPop (strideLess v s) s.ready = some (p, ready) := popped
        refine ⟨{ s with ready, vtime := s.pass p }, some ⟨p, s.quantum, schedNoDeadline⟩,
          by simp [policyStride, strideNextSlice, empty, popped], isReady, inv.quantum_pos, hnow,
          le_rfl, fun hook => ?_, hr, inv.quantum_pos⟩
        simp [policyStride] at hook
  preempt {v s pl p slice ran f} inv ok out _ _ _ hook := by
    cases hook
    exact stridePush_spec valid (inv.rekey (by simp [out]) _) ok (ok.outside p (by simp [out]))
      (by simp [out])
  block inv _ out _ _ _ := strideDone_spec inv out (by simp) _
  complete inv _ out _ _ := strideDone_spec inv out (by simp) _

/-- What the heap of stride scheduling holds. -/
def strideStores (s : Stride) (entries : List Nat) : Prop := s.ready.toList = entries

theorem stride_lawful (valid : w.Valid) (v : SchedView D) (params : PolicyParams)
    (n_eq : v.n = w.len) (quantum_pos : 0 < params.quantum) :
    Lawful w policyStride strideStores v params := by
  intro s created
  have created : strideCreate v params = .ok s := created
  unfold strideCreate at created
  cases total : strideTotal v (List.range v.n) 0 with
  | none =>
      rw [total] at created
      cases created
  | some t =>
      rw [total] at created
      cases created
      refine ⟨StrideInv w, stride_contract valid, ⟨?_, quantum_pos⟩,
        fun inv _ => ⟨_, rfl, inv.ready.holds⟩⟩
      rw [n_eq]
      exact HeapReady.init _ _ _

/-! ## CFS-lite -/

/-- `weight` of a process. -/
def Process.weight (p : Process) : Int := niceToWeight.getD (p.nice + 20).toNat 0

theorem niceToWeight_pos : ∀ x ∈ niceToWeight, (0 : Int) < x := by decide

theorem Process.Valid.weight_pos {p : Process} (valid : p.Valid) : 0 < p.weight := by
  have hge := valid.nice_ge
  have hle := valid.nice_le
  have inside : (p.nice + 20).toNat < niceToWeight.length := by
    have : niceToWeight.length = 40 := rfl
    omega
  rw [Process.weight, List.getD_eq_getElem _ _ inside]
  exact niceToWeight_pos _ (List.getElem_mem inside)

/-- A process that counts in `runnable_weight`: ready, or on a core. -/
def Place.Runnable : Place → Bool
  | .ready => true
  | .out _ => true
  | _ => false

/-- The weight of the runnable processes. -/
def runnableWeight (w : Workload) (pl : Places) : Int :=
  ∑ p ∈ Finset.range w.len, if (pl p).Runnable then (w.proc p).weight else 0

theorem runnableWeight_move {pl : Places} {p : Nat} {z : Place} (hp : p < w.len) :
    runnableWeight w (pl.move p z) = runnableWeight w pl -
      (if (pl p).Runnable then (w.proc p).weight else 0) +
      (if z.Runnable then (w.proc p).weight else 0) := by
  have mem := Finset.mem_range.mpr hp
  unfold runnableWeight
  rw [← Finset.add_sum_erase _ _ mem, ← Finset.add_sum_erase _ _ mem, pl.move_self]
  have rest : ∀ q ∈ (Finset.range w.len).erase p,
      (if (pl.move p z q).Runnable then (w.proc q).weight else 0) =
        if (pl q).Runnable then (w.proc q).weight else 0 := by
    intro q hq
    rw [pl.move_of_ne z (Finset.ne_of_mem_erase hq)]
  rw [Finset.sum_congr rfl rest]
  omega

theorem runnableWeight_pos (valid : w.Valid) {pl : Places} {p : Nat} (hp : p < w.len)
    (ready : pl p = .ready) : 0 < runnableWeight w pl := by
  have here : 0 < if (pl p).Runnable then (w.proc p).weight else 0 := by
    rw [ready]
    exact (valid.proc hp).weight_pos
  refine here.trans_le (Finset.single_le_sum (f := fun p =>
    if (pl p).Runnable then (w.proc p).weight else 0) (fun q hq => ?_) (Finset.mem_range.mpr hp))
  have := (valid.proc (Finset.mem_range.mp hq)).weight_pos
  split <;> omega

/-- The invariant of CFS. -/
structure CfsInv (w : Workload) (v : SchedView D) (s : Cfs) (pl : Places) : Prop where
  ready : KeyReady w v s.vruntime s.ready pl
  weight_eq : s.runnableWeight = runnableWeight w pl
  minGran_pos : 0 < s.minGran

/-- `update_min_vruntime` changes nothing else. -/
theorem updateMinVruntime_eq (s : Cfs) :
    updateMinVruntime s = { s with minVruntime := (updateMinVruntime s).minVruntime } := by
  simp only [updateMinVruntime]
  split_ifs <;> rfl

theorem CfsInv.updateMin {v : SchedView D} {s : Cfs} {pl : Places} (inv : CfsInv w v s pl) :
    CfsInv w v (updateMinVruntime s) pl := by
  rw [updateMinVruntime_eq]
  exact ⟨inv.ready, inv.weight_eq, inv.minGran_pos⟩

/-- `enqueue` of a process that is not ready, once its weight is counted. -/
theorem cfsEnqueue_spec (valid : w.Valid) {v : SchedView D} {s : Cfs} {pl : Places} {p : Nat}
    (ready : KeyReady w v s.vruntime s.ready pl) (ok : ViewOk w v pl) (hp : p < w.len)
    (notReady : pl p ≠ .ready) (weight_eq : s.runnableWeight = runnableWeight w (pl.move p .ready))
    (minGran_pos : 0 < s.minGran) :
    ∃ s', cfsEnqueue v s p = some s' ∧ CfsInv w v s' (pl.move p .ready) := by
  obtain ⟨heap, pushed, hr⟩ := ready.push valid ok hp notReady
  have pushed : heapPush (cfsLess v s) s.ready p = some heap := pushed
  refine ⟨updateMinVruntime { s with ready := heap }, by simp [cfsEnqueue, pushed], ?_⟩
  exact CfsInv.updateMin ⟨hr, weight_eq, minGran_pos⟩

theorem cfsWeight_eq {v : SchedView D} (procs_eq : v.procs = w.proc) (p : Nat) :
    cfsWeight v p = (w.proc p).weight := by
  rw [cfsWeight, procs_eq]
  rfl

theorem cfsReady_spec (valid : w.Valid) {v : SchedView D} {s : Cfs} {pl : Places} {p : Nat}
    (inv : CfsInv w v s pl) (ok : ViewOk w v pl) (blocked : pl p = .blocked) :
    ∃ s', cfsReady v s p = some s' ∧ CfsInv w v s' (pl.move p .ready) := by
  have hp := ok.outside p (by simp [blocked])
  have weight_eq : s.runnableWeight + cfsWeight v p = runnableWeight w (pl.move p .ready) := by
    rw [runnableWeight_move hp, cfsWeight_eq ok.procs_eq, blocked]
    simp [inv.weight_eq, Place.Runnable]
  simp only [cfsReady]
  split
  · exact cfsEnqueue_spec valid (inv.ready.rekey (by simp [blocked]) _) ok hp (by simp [blocked])
      weight_eq inv.minGran_pos
  · exact cfsEnqueue_spec valid inv.ready ok hp (by simp [blocked]) weight_eq inv.minGran_pos

/-- `cfs_leave` of a process that was on a core. -/
theorem cfsLeave_spec {v : SchedView D} {s : Cfs} {pl : Places} {p : Nat} {z : Place}
    {slice : Slice} (inv : CfsInv w v s pl) (ok : ViewOk w v pl) (out : pl p = .out slice)
    (leaves : z.Runnable = false) (ran : Int) :
    ∃ s', cfsLeave v s p ran = some s' ∧ CfsInv w v s' (pl.move p z) := by
  have hp := ok.outside p (by simp [out])
  have notReady : z ≠ .ready := by
    rintro rfl
    cases leaves
  refine ⟨_, rfl, (inv.ready.rekey (by simp [out]) _).other (by simp [out]) notReady, ?_,
    inv.minGran_pos⟩
  rw [runnableWeight_move hp, cfsWeight_eq ok.procs_eq, out, leaves]
  simp only [cfsCharge, inv.weight_eq, Place.Runnable, if_true, Bool.false_eq_true, if_false]
  omega

theorem cfs_contract (valid : w.Valid) : Contract (D := D) w policyCfs (CfsInv w) where
  interruptible _ := rfl
  view inv _ _ step := ⟨inv.ready.view step.procs_eq, inv.weight_eq, inv.minGran_pos⟩
  arrival {v s pl p} inv ok hp new _ := by
    refine cfsEnqueue_spec valid (inv.ready.rekey (by simp [new]) _) ok hp (by simp [new]) ?_
      inv.minGran_pos
    rw [runnableWeight_move hp, cfsWeight_eq ok.procs_eq, new]
    simp only [inv.weight_eq, Place.Runnable, if_true, Bool.false_eq_true, if_false]
    omega
  wake inv ok blocked _ := cfsReady_spec valid inv ok blocked
  next {v s pl} inv ok hnow := by
    cases empty : s.ready.isEmpty with
    | true =>
        exact ⟨s, none, by simp [policyCfs, cfsNextSlice, empty], inv,
          .inl (inv.ready.none_ready empty)⟩
    | false =>
        obtain ⟨len, hlen⟩ : ∃ len : Nat → Int, len = fun p =>
          if s.minGran < s.latency * cfsWeight v p / s.runnableWeight then
            s.latency * cfsWeight v p / s.runnableWeight else s.minGran := ⟨_, rfl⟩
        obtain ⟨p, ready, popped, isReady, hr, -⟩ := inv.ready.pop valid ok empty
          (z := fun p => .out ⟨p, len p, schedNoDeadline⟩) (by simp)
        have popped : heapPop (cfsLess v s) s.ready = some (p, ready) := popped
        have hp := ok.ready_lt p isReady
        have nonzero : s.runnableWeight ≠ 0 := by
          rw [inv.weight_eq]
          exact (runnableWeight_pos valid hp isReady).ne'
        have left := updateMinVruntime_eq { s with ready }
        refine ⟨updateMinVruntime { s with ready }, some ⟨p, len p, schedNoDeadline⟩, ?_, isReady,
          ?_, hnow, le_rfl, fun hook => ?_, CfsInv.updateMin ⟨hr, ?_, inv.minGran_pos⟩⟩
        · have same : (updateMinVruntime { s with ready }).runnableWeight = s.runnableWeight ∧
              (updateMinVruntime { s with ready }).latency = s.latency ∧
              (updateMinVruntime { s with ready }).minGran = s.minGran := by
            rw [left]
            exact ⟨rfl, rfl, rfl⟩
          simp [policyCfs, cfsNextSlice, empty, popped, same, nonzero, hlen]
        · have := inv.minGran_pos
          rw [hlen]
          dsimp only
          split <;> omega
        · simp [policyCfs] at hook
        · rw [runnableWeight_move hp, isReady]
          simp [Place.Runnable, inv.weight_eq]
  preempt {v s pl p slice ran f} inv ok out _ _ _ hook := by
    cases hook
    have hp := ok.outside p (by simp [out])
    refine cfsEnqueue_spec valid (inv.ready.rekey (by simp [out]) _) ok hp (by simp [out]) ?_
      inv.minGran_pos
    rw [runnableWeight_move hp, out]
    simp [Place.Runnable, cfsCharge, inv.weight_eq]
  block inv ok out _ _ _ := cfsLeave_spec inv ok out rfl _
  complete inv ok out _ _ := cfsLeave_spec inv ok out rfl _

/-- What the heap of CFS-lite holds. -/
def cfsStores (s : Cfs) (entries : List Nat) : Prop := s.ready.toList = entries

theorem cfs_lawful (valid : w.Valid) (v : SchedView D) (params : PolicyParams)
    (n_eq : v.n = w.len) (minGran_pos : 0 < params.cfsMinGran) :
    Lawful w policyCfs cfsStores v params := by
  intro s created
  have created : cfsCreate v params = .ok s := created
  simp only [cfsCreate] at created
  split_ifs at created
  cases created
  refine ⟨CfsInv w, cfs_contract valid, ⟨?_, ?_, minGran_pos⟩,
    fun inv _ => ⟨_, rfl, inv.ready.holds⟩⟩
  · rw [n_eq]
    exact HeapReady.init _ _ _
  · simp [runnableWeight, Place.Runnable]

end CpuSched
