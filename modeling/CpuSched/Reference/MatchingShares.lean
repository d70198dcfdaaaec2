import CpuSched.Reference.Matching

/-!
# Stride scheduling and CFS against plain lists

Both pop the root of a heap ordered by `(key, pid)`, which is what a scan of the ready list
finds.  The virtual times, the floors and the runnable weight are those of the reference:
the split shift of `vruntime_delta` is its exact quotient, and the least key is at the root.
-/

namespace CpuSched

variable {D : Type} {w : Workload}

/-- The floor that a key may be raised to. -/
theorem update_max (key : Nat → Int) (p : Nat) (floor : Int) :
    Function.update key p (max (key p) floor) =
      if key p < floor then Function.update key p floor else key := by
  split_ifs with low
  · rw [max_eq_right low.le]
  · rw [max_eq_left (not_lt.mp low), Function.update_eq_self]

/-- The process at the root has the least key of the ready ones. -/
theorem KeyReady.root {v : SchedView D} {key : Nat → Int} {ready : Heap} {pl : Places}
    (valid : w.Valid) (hr : KeyReady w v key ready pl) (procs_eq : v.procs = w.proc)
    (inside : ∀ x, pl x = .ready → x < w.len) (nonempty : ready.isEmpty = false) :
    pl (ready.items 0) = .ready ∧ ∀ x, pl x = .ready → key (ready.items 0) ≤ key x := by
  have stored := Heap.mem_toList.mpr ⟨0, Heap.isEmpty_eq_false_iff.mp nonempty, rfl⟩
  refine ⟨(hr.holds.mem_iff _).mp stored, fun x hx => ?_⟩
  by_cases root : x = ready.items 0
  · rw [root]
  · have less := Heap.root_least (lessByPid_total valid procs_eq key) (hr.heapOrdered trivial)
      (fun y hy => inside y ((hr.holds.mem_iff y).mp hy)) x ((hr.holds.mem_iff x).mpr hx) root
    have := (lessByPid_iff v key _ _).mp less
    omega

/-! ## Stride -/

/-- Stride scheduling and its class have the same passes, and the list holds the ready
processes. -/
def StrideAlike (_ : SchedView D) (s : Stride) (t : RefStride) (pl : Places) : Prop :=
  ∃ readyList, Holds pl readyList ∧ t = ⟨readyList, s.pass, s.vtime, s.quantum⟩

namespace StrideAlike

variable {v : SchedView D} {s s' : Stride} {t : RefStride} {pl : Places} {p : Nat}

theorem push (alike : StrideAlike v s t pl) (notReady : pl p ≠ .ready)
    (run : stridePush v s p = some s') : StrideAlike v s' (t.push p) (pl.move p .ready) := by
  obtain ⟨readyList, holds, rfl⟩ := alike
  obtain ⟨ready, -, rfl⟩ := Option.map_eq_some_iff.mp run
  exact ⟨_, holds.append notReady, rfl⟩

/-- The charge of the reference is the charge of the code. -/
theorem charge (alike : StrideAlike v s t pl) (ran : Int) :
    StrideAlike v (strideCharge v s p ran) (t.charge v p ran) pl := by
  obtain ⟨readyList, holds, rfl⟩ := alike
  exact ⟨readyList, holds, rfl⟩

theorem arrival (alike : StrideAlike v s t pl) (notReady : pl p ≠ .ready)
    (run : strideArrival v s p = some s') :
    ∃ t', RefStride.arrive v t p = some t' ∧ StrideAlike v s' t' (pl.move p .ready) := by
  obtain ⟨readyList, holds, rfl⟩ := alike
  refine ⟨_, rfl, push ?_ notReady run⟩
  exact ⟨readyList, holds, rfl⟩

theorem ready (alike : StrideAlike v s t pl) (notReady : pl p ≠ .ready)
    (run : strideReady v s p = some s') :
    ∃ t', RefStride.ready v t p = some t' ∧ StrideAlike v s' t' (pl.move p .ready) := by
  obtain ⟨readyList, holds, rfl⟩ := alike
  refine ⟨_, rfl, push ?_ notReady run⟩
  rw [update_max]
  split_ifs
  · exact ⟨readyList, holds, rfl⟩
  · exact ⟨readyList, holds, rfl⟩

theorem leave (alike : StrideAlike v s t pl) {z : Place} (notReady : pl p ≠ .ready)
    (stays : z ≠ .ready) {ran : Int} (run : strideDone v s p ran = some s') :
    ∃ t', RefStride.leave v t p ran = some t' ∧ StrideAlike v s' t' (pl.move p z) := by
  cases run
  obtain ⟨readyList, holds, charged⟩ := alike.charge (p := p) ran
  exact ⟨_, rfl, readyList, holds.other notReady stays, charged⟩

/-- The root of the heap is what the scan finds. -/
theorem next (valid : w.Valid) (inv : StrideInv w v s pl) (alike : StrideAlike v s t pl)
    (ok : ViewOk w v pl) {r : Option Slice} (run : strideNextSlice v s = some (s', r)) :
    ∃ t', RefStride.pick v t = some (t', r) ∧ StrideAlike v s' t' (pl.afterNext r) := by
  obtain ⟨readyList, holds, rfl⟩ := alike
  unfold strideNextSlice at run
  cases empty : s.ready.isEmpty with
  | true =>
      rw [empty] at run
      cases run
      refine ⟨_, ?_, readyList, holds, rfl⟩
      rw [holds.eq_nil (inv.ready.none_ready empty)]
      rfl
  | false =>
      obtain ⟨p, heap, popped, ready, -, least⟩ :=
        inv.ready.pop valid ok empty (z := fun _ => .done) (by simp)
      have popped : heapPop (strideLess v s) s.ready = some (p, heap) := popped
      rw [empty, popped] at run
      cases run
      refine ⟨_, ?_, readyList.erase p, holds.erase ready (by simp), rfl⟩
      rw [RefStride.pick, holds.minBy_eq (lessByPid_total valid ok.procs_eq s.pass) ok.ready_lt
        ready least]

end StrideAlike

/-- Stride scheduling and the class `Stride` answer alike. -/
theorem stride_matches (valid : w.Valid) :
    Matches (D := D) w policyStride refStride (StrideInv w) StrideAlike where
  preemptOnReady_eq := rfl
  workConserving_eq := rfl
  preempt_none := by simp [policyStride, refStride]
  view _ alike _ _ := alike
  arrival _ alike _ _ new run := alike.arrival (by simp [new]) run
  wake _ alike _ blocked run := alike.ready (by simp [blocked]) run
  next inv alike ok _ run := alike.next valid inv ok run
  preempt {v s s' t pl p slice ran f g} _ alike _ out hook hook' run := by
    cases hook
    cases hook'
    exact ⟨_, rfl, (alike.charge ran).push (by simp [out]) run⟩
  block _ alike _ out run := alike.leave (by simp [out]) (by simp) run
  complete _ alike _ out run := alike.leave (by simp [out]) (by simp) run

/-! ## CFS -/

/-- CFS and its class have the same virtual times, floor, load and parameters, and the list
holds the ready processes. -/
def CfsAlike (_ : SchedView D) (s : Cfs) (t : RefCfs) (pl : Places) : Prop :=
  ∃ readyList, Holds pl readyList ∧
    t = ⟨readyList, s.vruntime, s.minVruntime, s.runnableWeight, s.latency, s.minGran⟩

namespace CfsAlike

variable {v : SchedView D} {s s' : Cfs} {t : RefCfs} {pl : Places} {p : Nat}

/-- The least key of the list is that of the root. -/
theorem updateMin (valid : w.Valid) (ready : KeyReady w v s.vruntime s.ready pl)
    (procs_eq : v.procs = w.proc) (inside : ∀ x, pl x = .ready → x < w.len)
    (alike : CfsAlike v s t pl) : CfsAlike v (updateMinVruntime s) t.updateMin pl := by
  obtain ⟨readyList, holds, rfl⟩ := alike
  cases empty : s.ready.isEmpty with
  | true =>
      obtain rfl := holds.eq_nil (ready.none_ready empty)
      have kept : updateMinVruntime s = s := by
        rw [updateMinVruntime, empty]
        rfl
      rw [kept]
      exact ⟨[], holds, rfl⟩
  | false =>
      obtain ⟨isReady, least⟩ := ready.root valid procs_eq inside empty
      have found : (readyList.map s.vruntime).min? = some (s.vruntime (s.ready.items 0)) := by
        rw [List.min?_eq_some_iff]
        refine ⟨List.mem_map_of_mem ((holds.mem_iff _).mpr isReady), fun x hx => ?_⟩
        obtain ⟨q, hq, rfl⟩ := List.mem_map.mp hx
        exact least q ((holds.mem_iff q).mp hq)
      rw [RefCfs.updateMin, found, updateMinVruntime, empty]
      simp only [Bool.false_eq_true, if_false]
      split_ifs with low
      · exact ⟨readyList, holds, by rw [max_eq_right low.le]⟩
      · exact ⟨readyList, holds, by rw [max_eq_left (not_lt.mp low)]⟩

/-- `enqueue` and `Cfs._push`. -/
theorem push (valid : w.Valid) (ready : KeyReady w v s.vruntime s.ready pl) (ok : ViewOk w v pl)
    (alike : CfsAlike v s t pl) (hp : p < w.len) (notReady : pl p ≠ .ready)
    (run : cfsEnqueue v s p = some s') : CfsAlike v s' (t.push p) (pl.move p .ready) := by
  obtain ⟨readyList, holds, rfl⟩ := alike
  obtain ⟨heap, pushed, rfl⟩ := Option.map_eq_some_iff.mp run
  obtain ⟨heap', pushed', ready'⟩ := ready.push valid ok hp notReady
  obtain rfl : heap' = heap := Option.some.inj (pushed'.symm.trans pushed)
  refine updateMin (s := { s with ready := heap' }) valid ready' ok.procs_eq (fun x hx => ?_)
    ⟨_, holds.append notReady, rfl⟩
  by_cases same : x = p
  · exact same ▸ hp
  · rw [pl.move_of_ne _ same] at hx
    exact ok.ready_lt x hx

theorem arrival (valid : w.Valid) (inv : CfsInv w v s pl) (ok : ViewOk w v pl)
    (alike : CfsAlike v s t pl) (hp : p < w.len) (notReady : pl p ≠ .ready)
    (run : cfsArrival v s p = some s') :
    ∃ t', RefCfs.arrive v t p = some t' ∧ CfsAlike v s' t' (pl.move p .ready) := by
  obtain ⟨readyList, holds, rfl⟩ := alike
  refine ⟨_, rfl, push valid (inv.ready.rekey notReady _) ok ?_ hp notReady run⟩
  exact ⟨readyList, holds, rfl⟩

theorem ready (valid : w.Valid) (inv : CfsInv w v s pl) (ok : ViewOk w v pl)
    (alike : CfsAlike v s t pl) (hp : p < w.len) (notReady : pl p ≠ .ready)
    (run : cfsReady v s p = some s') :
    ∃ t', RefCfs.ready v t p = some t' ∧ CfsAlike v s' t' (pl.move p .ready) := by
  obtain ⟨readyList, holds, rfl⟩ := alike
  refine ⟨_, rfl, ?_⟩
  rw [update_max]
  unfold cfsReady at run
  dsimp only at run
  split_ifs at run ⊢
  · refine push valid (inv.ready.rekey notReady _) ok ?_ hp notReady run
    exact ⟨readyList, holds, rfl⟩
  · refine push (s := { s with runnableWeight := s.runnableWeight + cfsWeight v p }) valid
      inv.ready ok ?_ hp notReady run
    exact ⟨readyList, holds, rfl⟩

/-- The split shift is the quotient of the reference. -/
theorem delta_eq (valid : w.Valid) (ok : ViewOk w v pl) (hp : p < w.len) (ran : Int) :
    vruntimeDelta ran (cfsWeight v p) = RefCfs.delta v p ran := by
  have pos : 0 < cfsWeight v p := by
    rw [cfsWeight_eq ok.procs_eq]
    exact (valid.proc hp).weight_pos
  rw [vruntimeDelta_eq pos]
  rfl

theorem charge (valid : w.Valid) (ok : ViewOk w v pl) (alike : CfsAlike v s t pl)
    (hp : p < w.len) (ran : Int) : CfsAlike v (cfsCharge v s p ran) (t.charge v p ran) pl := by
  obtain ⟨readyList, holds, rfl⟩ := alike
  refine ⟨readyList, holds, ?_⟩
  rw [cfsCharge, delta_eq valid ok hp]
  rfl

theorem preempt (valid : w.Valid) (inv : CfsInv w v s pl) (ok : ViewOk w v pl)
    (alike : CfsAlike v s t pl) (hp : p < w.len) (notReady : pl p ≠ .ready) {ran : Int}
    (run : cfsPreempt v s p ran = some s') :
    ∃ t', RefCfs.preempt v t p ran = some t' ∧ CfsAlike v s' t' (pl.move p .ready) :=
  ⟨_, rfl, (alike.charge valid ok hp ran).push valid (inv.ready.rekey notReady _) ok hp notReady
    run⟩

theorem leave (valid : w.Valid) (ok : ViewOk w v pl) (alike : CfsAlike v s t pl)
    (hp : p < w.len) {z : Place} (notReady : pl p ≠ .ready) (stays : z ≠ .ready) {ran : Int}
    (run : cfsLeave v s p ran = some s') :
    ∃ t', RefCfs.leave v t p ran = some t' ∧ CfsAlike v s' t' (pl.move p z) := by
  cases run
  obtain ⟨readyList, holds, rfl⟩ := alike
  refine ⟨_, rfl, readyList, holds.other notReady stays, ?_⟩
  rw [cfsCharge, delta_eq valid ok hp]
  rfl

/-- The root of the heap is what the scan finds, and the slices are equally long. -/
theorem next (valid : w.Valid) (inv : CfsInv w v s pl) (alike : CfsAlike v s t pl)
    (ok : ViewOk w v pl) {r : Option Slice} (run : cfsNextSlice v s = some (s', r)) :
    ∃ t', RefCfs.pick v t = some (t', r) ∧ CfsAlike v s' t' (pl.afterNext r) := by
  obtain ⟨readyList, holds, rfl⟩ := alike
  unfold cfsNextSlice at run
  cases empty : s.ready.isEmpty with
  | true =>
      rw [empty] at run
      cases run
      refine ⟨_, ?_, readyList, holds, rfl⟩
      rw [holds.eq_nil (inv.ready.none_ready empty)]
      rfl
  | false =>
      obtain ⟨p, heap, popped, ready, ready', least⟩ :=
        inv.ready.pop valid ok empty (z := fun _ => .done) (by simp)
      have popped : heapPop (cfsLess v s) s.ready = some (p, heap) := popped
      rw [empty, popped] at run
      have inside : ∀ x, (pl.move p .done) x = .ready → x < w.len := by
        intro x hx
        by_cases same : x = p
        · exact same ▸ ok.ready_lt p ready
        · rw [pl.move_of_ne _ same] at hx
          exact ok.ready_lt x hx
      obtain ⟨list, holds', same⟩ := updateMin (s := { s with ready := heap }) valid ready'
        ok.procs_eq inside ⟨readyList.erase p, holds.erase ready (by simp), rfl⟩
      rw [RefCfs.pick, holds.minBy_eq (lessByPid_total valid ok.procs_eq s.vruntime) ok.ready_lt
        ready least]
      dsimp only at same ⊢
      rw [same]
      simp only [Bool.false_eq_true, if_false, Option.bind_eq_bind, Option.bind_some] at run
      generalize updateMinVruntime { s with ready := heap } = s₁ at run
      by_cases zero : s₁.runnableWeight = 0
      · rw [if_pos zero] at run
        cases run
      · rw [if_neg zero] at run
        obtain ⟨rfl, rfl⟩ := Prod.mk.inj (Option.some.inj run)
        refine ⟨_, ?_, list, holds'.relocate (by simp) (by simp), rfl⟩
        rw [if_neg zero, max_comm, max_def_lt]
        rfl

end CfsAlike

/-- CFS and the class `Cfs` answer alike. -/
theorem cfs_matches (valid : w.Valid) :
    Matches (D := D) w policyCfs refCfs (CfsInv w) CfsAlike where
  preemptOnReady_eq := rfl
  workConserving_eq := rfl
  preempt_none := by simp [policyCfs, refCfs]
  view _ alike _ _ := alike
  arrival inv alike ok hp new run := alike.arrival valid inv ok hp (by simp [new]) run
  wake inv alike ok blocked run :=
    alike.ready valid inv ok (ok.outside _ (by simp [blocked])) (by simp [blocked]) run
  next inv alike ok _ run := alike.next valid inv ok run
  preempt inv alike ok out hook hook' run := by
    cases hook
    cases hook'
    exact alike.preempt valid inv ok (ok.outside _ (by simp [out])) (by simp [out]) run
  block _ alike ok out run :=
    alike.leave valid ok (ok.outside _ (by simp [out])) (by simp [out]) (by simp) run
  complete _ alike ok out run :=
    alike.leave valid ok (ok.outside _ (by simp [out])) (by simp [out]) (by simp) run

end CpuSched
