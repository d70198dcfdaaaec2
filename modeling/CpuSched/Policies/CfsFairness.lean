import CpuSched.Policies.StrideFairness

/-!
# The arithmetic and the shares of CFS-lite

The virtual run time of a process grows by `2 ^ 26` over its weight, rounded down, for
every tick that it runs.  All integers stay far within 64 bits, and on one core a process
that competes with another gets ahead of it by no more than what its longest slice
charges.
-/

namespace CpuSched

variable {D : Type} {w : Workload}

/-! ## Weights and deltas -/

theorem niceToWeight_bounds : ∀ x ∈ niceToWeight, (15 : Int) ≤ x ∧ x ≤ 88761 := by decide

theorem Process.Valid.weight_bounds {p : Process} (valid : p.Valid) : 15 ≤ p.weight ∧
    p.weight ≤ 88761 := by
  have hge := valid.nice_ge
  have hle := valid.nice_le
  have inside : (p.nice + 20).toNat < niceToWeight.length := by
    have : niceToWeight.length = 40 := rfl
    omega
  rw [Process.weight, List.getD_eq_getElem _ _ inside]
  exact niceToWeight_bounds _ (List.getElem_mem inside)

/-- The split shift is the exact quotient, rounded down. -/
theorem vruntimeDelta_eq {weight : Int} (positive : 0 < weight) (ran : Int) :
    vruntimeDelta ran weight = ran * 2 ^ 26 / weight := by
  have split := Int.mul_ediv_add_emod ran weight
  calc vruntimeDelta ran weight = ran % weight * 2 ^ 26 / weight + ran / weight *
    2 ^ 26 := add_comm _ _
    _ = (ran % weight * 2 ^ 26 + ran / weight * 2 ^ 26 * weight) / weight :=
        (Int.add_mul_ediv_right _ _ positive.ne').symm
    _ = (weight * (ran / weight) + ran % weight) * 2 ^ 26 / weight := by ring_nf
    _ = ran * 2 ^ 26 / weight := by rw [split]

theorem vruntimeDelta_mono {weight ran ran' : Int} (positive : 0 < weight) (le : ran ≤ ran') :
    vruntimeDelta ran weight ≤ vruntimeDelta ran' weight := by
  rw [vruntimeDelta_eq positive, vruntimeDelta_eq positive]
  exact Int.ediv_le_ediv positive (by omega)

theorem vruntimeDelta_nonneg {weight ran : Int} (positive : 0 < weight) (nonneg : 0 ≤ ran) :
    0 ≤ vruntimeDelta ran weight := by
  rw [vruntimeDelta_eq positive]
  exact Int.ediv_nonneg (by omega) positive.le

/-- A delta is at most the ticks over the least weight. -/
theorem vruntimeDelta_le {weight ran : Int} (least : 15 ≤ weight) (nonneg : 0 ≤ ran) :
    15 * vruntimeDelta ran weight ≤ ran * 2 ^ 26 := by
  have positive : 0 < weight := by omega
  have delta := vruntimeDelta_nonneg positive nonneg
  calc 15 * vruntimeDelta ran weight ≤ weight * vruntimeDelta ran weight :=
        mul_le_mul_of_nonneg_right least delta
    _ ≤ ran * 2 ^ 26 := by
        rw [vruntimeDelta_eq positive]
        exact Int.mul_ediv_self_le positive.ne'

/-! ## What a call does -/

/-- What a call does to the run times and to the weight, the minimum aside. -/
def cfsAfter (v : SchedView D) (s : Cfs) : HookCall → Cfs
  | .arrival p => { s with
      vruntime := Function.update s.vruntime p s.minVruntime
      runnableWeight := s.runnableWeight + cfsWeight v p }
  | .ready p => { s with
      vruntime := Function.update s.vruntime p
        (max (s.vruntime p) (s.minVruntime - s.latency * 2 ^ 16 / 2))
      runnableWeight := s.runnableWeight + cfsWeight v p }
  | .slice _ => s
  | .preempt p ran => cfsCharge v s p ran
  | .block p ran => { cfsCharge v s p ran with runnableWeight := s.runnableWeight - cfsWeight v p }
  | .complete p ran =>
      { cfsCharge v s p ran with runnableWeight := s.runnableWeight - cfsWeight v p }

/-- A call changes no other run time. -/
theorem cfsAfter_of_ne {v : SchedView D} {s : Cfs} {call : HookCall} {p : Nat}
    (ne : p ≠ call.proc) :
    (cfsAfter v s call).vruntime p = s.vruntime p := by
  cases call with
  | slice => rfl
  | _ => exact Function.update_of_ne ne ..

/-- The states differ in the heap, and the minimum may have been raised to a run time. -/
structure Raised (s s' : Cfs) : Prop where
  latency_eq : s'.latency = s.latency
  minGran_eq : s'.minGran = s.minGran
  vruntime_eq : s'.vruntime = s.vruntime
  weight_eq : s'.runnableWeight = s.runnableWeight
  le : s.minVruntime ≤ s'.minVruntime
  min_eq : s'.minVruntime = s.minVruntime ∨ ∃ p, s'.minVruntime = s.vruntime p

theorem Raised.updateMin (s : Cfs) (ready : Heap) :
    Raised s (updateMinVruntime { s with ready }) := by
  unfold updateMinVruntime
  dsimp only
  split_ifs with empty lt
  · exact ⟨rfl, rfl, rfl, rfl, le_rfl, .inl rfl⟩
  · exact ⟨rfl, rfl, rfl, rfl, lt.le, .inr ⟨_, rfl⟩⟩
  · exact ⟨rfl, rfl, rfl, rfl, le_rfl, .inl rfl⟩

theorem cfsEnqueue_raised {v : SchedView D} {s s' : Cfs} {p : Nat}
    (run : cfsEnqueue v s p = some s') :
    Raised s s' := by
  obtain ⟨ready, -, rfl⟩ := Option.map_eq_some_iff.mp run
  exact .updateMin s ready

/-- An answer of `cfs_next_slice`. -/
theorem cfsNextSlice_eq {v : SchedView D} {s s' : Cfs} {slice : Slice}
    (run : cfsNextSlice v s = some (s', some slice)) : s.ready.isEmpty = false ∧
      (∃ ready, heapPop (cfsLess v s) s.ready = some (slice.proc, ready) ∧
        s' = updateMinVruntime { s with ready }) ∧ s.runnableWeight ≠ 0 ∧
      slice.length = max s.minGran (s.latency * cfsWeight v slice.proc / s.runnableWeight) := by
  unfold cfsNextSlice at run
  split_ifs at run with empty
  · cases run
  obtain ⟨⟨proc, ready⟩, popped, run⟩ := Option.bind_eq_some_iff.mp run
  have same := Raised.updateMin s ready
  simp only [same.weight_eq, same.latency_eq, same.minGran_eq] at run
  split_ifs at run with zero lt
  · cases run
    exact ⟨by simpa using empty, ⟨ready, popped, rfl⟩, zero, (max_eq_right lt.le).symm⟩
  · cases run
    exact ⟨by simpa using empty, ⟨ready, popped, rfl⟩, zero, (max_eq_left (not_lt.mp lt)).symm⟩

theorem cfsNextSlice_refuse {v : SchedView D} {s s' : Cfs}
    (run : cfsNextSlice v s = some (s', none)) :
    s' = s := by
  unfold cfsNextSlice at run
  split_ifs at run with empty
  · cases run
    rfl
  obtain ⟨x, -, run⟩ := Option.bind_eq_some_iff.mp run
  dsimp only at run
  split_ifs at run with zero
  all_goals cases run

theorem cfs_redo {v : SchedView D} {s s' : Cfs} {call : HookCall}
    (run : policyCfs.redo v s call = some s') : Raised (cfsAfter v s call) s' := by
  cases call with
  | arrival p => exact cfsEnqueue_raised run
  | ready p =>
      have run : cfsReady v s p = some s' := run
      have raised := cfsEnqueue_raised run
      simp only [cfsAfter]
      split_ifs at raised with behind
      · rwa [max_eq_right behind.le]
      · rwa [max_eq_left (not_lt.mp behind), Function.update_eq_self]
  | slice slice =>
      obtain ⟨-, ⟨ready, -, rfl⟩, -⟩ := cfsNextSlice_eq (Policy.redo_slice.mp run)
      exact .updateMin s ready
  | preempt p ran => exact cfsEnqueue_raised run
  | block p ran =>
      cases run
      exact ⟨rfl, rfl, rfl, rfl, le_rfl, .inl rfl⟩
  | complete p ran =>
      cases run
      exact ⟨rfl, rfl, rfl, rfl, le_rfl, .inl rfl⟩

/-- The weight of a process counts in that of all runnable ones. -/
theorem weight_le_runnable (valid : w.Valid) (pl : Places) {p : Nat} (hp : p < w.len)
    (runnable : (pl p).Runnable = true) : (w.proc p).weight ≤ runnableWeight w pl := by
  have here : (w.proc p).weight = if (pl p).Runnable then (w.proc p).weight else 0 := by
    rw [if_pos runnable]
  rw [here]
  refine Finset.single_le_sum (f := fun p => if (pl p).Runnable then (w.proc p).weight else 0)
    (fun q hq => ?_) (Finset.mem_range.mpr hp)
  have := (valid.proc (Finset.mem_range.mp hq)).weight_pos
  split <;> omega

/-- The pick has the least run time, and its slice is at most the latency or the least
granularity. -/
theorem cfs_pick (valid : w.Valid) {v : SchedView D} {s s' : Cfs} {pl : Places} {slice : Slice}
    (inv : CfsInv w v s pl) (ok : ViewOk w v pl) (latency_pos : 0 ≤ s.latency)
    (run : policyCfs.redo v s (.slice slice) = some s') :
    slice.length ≤ max s.latency s.minGran ∧
      ∀ q, pl q = .ready → s.vruntime slice.proc ≤ s.vruntime q := by
  obtain ⟨nonempty, ⟨ready, popped, -⟩, -, length_eq⟩ := cfsNextSlice_eq (Policy.redo_slice.mp run)
  obtain ⟨p, ready', popped', isReady, -, least⟩ := inv.ready.pop valid ok nonempty
    (z := fun _ => .done) (by simp)
  have popped' : heapPop (cfsLess v s) s.ready = some (p, ready') := popped'
  obtain ⟨rfl, rfl⟩ := Prod.mk.inj (Option.some.inj (popped'.symm.trans popped))
  have hp := ok.ready_lt _ isReady
  have counted := weight_le_runnable valid pl hp (by rw [isReady]; rfl)
  have positive := runnableWeight_pos valid hp isReady
  refine ⟨?_, fun q ready_q => ?_⟩
  · have share : s.latency * cfsWeight v slice.proc / s.runnableWeight ≤ s.latency := by
      rw [cfsWeight_eq ok.procs_eq, inv.weight_eq]
      refine Int.ediv_le_of_le_mul positive ?_
      exact mul_le_mul_of_nonneg_left counted latency_pos
    rw [length_eq, max_comm]
    exact max_le_max_right _ share
  · by_cases same : q = slice.proc
    · rw [same]
    · have := (lessByPid_iff v s.vruntime slice.proc q).mp (least q ready_q same)
      omega

theorem cfs_reports : (policyCfs : Policy D).Reports where
  ready := by simp [policyCfs]
  preempt := by simp [policyCfs]
  block := by simp [policyCfs]
  complete := by simp [policyCfs]
  refuse run := cfsNextSlice_refuse run

theorem cfs_readsProcs : (policyCfs : Policy D).ReadsProcs := by
  intro v v' s call same
  have less : ∀ s, cfsLess v' s = cfsLess v s := fun s => by
    funext a b
    simp only [cfsLess, lessByPid, same]
  have weight : cfsWeight v' = cfsWeight v := by
    funext p
    simp only [cfsWeight, same]
  have enqueue : cfsEnqueue v' = cfsEnqueue v := by
    funext s p
    simp only [cfsEnqueue, less]
  have charge : cfsCharge v' = cfsCharge v := by
    funext s p ran
    simp only [cfsCharge, weight]
  have next : cfsNextSlice v' = cfsNextSlice v := by
    funext s
    simp only [cfsNextSlice, less, weight]
  cases call <;> simp only [Policy.redo, policyCfs, Policy.wakeHook, Option.getD_some, optCall,
    Option.bind_some, cfsArrival, cfsReady, cfsPreempt, cfsLeave, enqueue, charge, next, weight]

/-! ## No overflow -/

section Bound

/-- The deltas of all charges. -/
def deltas (w : Workload) : List TimedCall → Int
  | [] => 0
  | call :: before => deltas w before + vruntimeDelta call.call.ran (w.proc call.call.proc).weight

/-- Neither the minimum nor a run time exceeds `bound`. -/
structure RunTimesWithin (s : Cfs) (bound : Int) : Prop where
  min_nonneg : 0 ≤ s.minVruntime
  min_le : s.minVruntime ≤ bound
  vruntime_nonneg : ∀ p, 0 ≤ s.vruntime p
  vruntime_le : ∀ p, s.vruntime p ≤ bound

theorem RunTimesWithin.mono {s : Cfs} {bound bound' : Int} (within : RunTimesWithin s bound)
    (le : bound ≤ bound') : RunTimesWithin s bound' :=
  ⟨within.min_nonneg, within.min_le.trans le, within.vruntime_nonneg,
    fun p => (within.vruntime_le p).trans le⟩

theorem RunTimesWithin.update {s s' : Cfs} {bound x : Int}
    (within : RunTimesWithin s bound) {p : Nat}
    (nonneg : 0 ≤ x) (le : x ≤ bound) (min_eq : s'.minVruntime = s.minVruntime)
    (vruntime_eq : s'.vruntime = Function.update s.vruntime p x) : RunTimesWithin s' bound := by
  refine ⟨min_eq ▸ within.min_nonneg, min_eq ▸ within.min_le, fun q => ?_, fun q => ?_⟩
  all_goals
    rw [vruntime_eq]
    by_cases same : q = p
    · subst same
      simpa
    · rw [Function.update_of_ne same]
      first
        | exact within.vruntime_nonneg q
        | exact within.vruntime_le q

theorem RunTimesWithin.raised {s s' : Cfs} {bound : Int} (within : RunTimesWithin s bound)
    (raised : Raised s s') : RunTimesWithin s' bound := by
  refine ⟨within.min_nonneg.trans raised.le, ?_, ?_, ?_⟩
  · rcases raised.min_eq with eq | ⟨p, eq⟩
    · exact eq ▸ within.min_le
    · exact eq ▸ within.vruntime_le p
  · rw [raised.vruntime_eq]
    exact within.vruntime_nonneg
  · rw [raised.vruntime_eq]
    exact within.vruntime_le

variable {start s : (policyCfs : Policy D).State} {log : List TimedCall}
  {Inv : SchedView D → (policyCfs : Policy D).State → Places → Prop}

/-- No run time exceeds the sum of all deltas charged so far, which takes the ticks
reported over the least weight at most; the weight is that of the runnable processes. -/
structure CfsBounds (w : Workload) (s : Cfs) (log : List TimedCall) : Prop where
  charged_nonneg : 0 ≤ chargedAll w log
  deltas_nonneg : 0 ≤ deltas w log
  deltas_le : 15 * deltas w log ≤ chargedAll w log * 2 ^ 26
  within : RunTimesWithin s (deltas w log)
  weight_eq : s.runnableWeight = runnableWeight w (placesAfter log)

/-- What a legal call adds to the deltas. -/
theorem HookCall.Legal.delta {v : SchedView D} {pl : Places} {call : HookCall} (valid : w.Valid)
    (legal : call.Legal w pl) (ok : ViewOk w v pl) :
    0 ≤ vruntimeDelta call.ran (w.proc call.proc).weight ∧
      15 * vruntimeDelta call.ran (w.proc call.proc).weight ≤ call.ran * 2 ^ 26 := by
  have weight := (valid.proc (legal.inside ok)).weight_bounds
  exact ⟨vruntimeDelta_nonneg (by omega) legal.ran_nonneg, vruntimeDelta_le weight.1
    legal.ran_nonneg⟩

/-- The parameters stay. -/
theorem Chronicle.cfsParams (chronicle : Chronicle w policyCfs Inv start log s) :
    (s : Cfs).latency = (start : Cfs).latency ∧ (s : Cfs).minGran = (start : Cfs).minGran := by
  induction chronicle with
  | start => exact ⟨rfl, rfl⟩
  | @call v now s s' call before earlier time ok inv legal run ih =>
      have raised := cfs_redo run
      rw [raised.latency_eq, raised.minGran_eq, ← ih.1, ← ih.2]
      cases call <;> exact ⟨rfl, rfl⟩

theorem Chronicle.cfsBounds (valid : w.Valid) (chronicle : Chronicle w policyCfs Inv start log s)
    (zero : CfsBounds w start []) (latency_nonneg : 0 ≤ (start : Cfs).latency) :
      CfsBounds w s log := by
  induction chronicle with
  | start => exact zero
  | @call v now s s' call before earlier time ok inv legal run ih =>
      have bounds := ih
      have latency_eq := earlier.cfsParams.1
      have raised := cfs_redo run
      have total : chargedAll w (⟨now, call⟩ :: before) = chargedAll w before + call.ran :=
        chargedAll_call legal ok
      obtain ⟨delta_nonneg, delta_le⟩ := legal.delta valid ok
      have ran := legal.ran_nonneg
      have inside := legal.inside ok
      have grown := bounds.within.mono (le_add_of_nonneg_right delta_nonneg)
      have charge : ∀ p, call.proc = p → RunTimesWithin (cfsCharge v s p call.ran)
          (deltas w before + vruntimeDelta call.ran (w.proc call.proc).weight) := by
        rintro p rfl
        have := bounds.within.vruntime_nonneg call.proc
        have := bounds.within.vruntime_le call.proc
        refine grown.update ?_ ?_ rfl rfl
        · rw [cfsWeight_eq ok.procs_eq]
          omega
        · rw [cfsWeight_eq ok.procs_eq]
          omega
      have moved : runnableWeight w ((placesAfter before).move call.proc call.place) = _ :=
        runnableWeight_move inside
      have weight_eq := bounds.weight_eq
      refine ⟨?_, ?_, ?_, RunTimesWithin.raised ?_ raised, ?_⟩
      case refine_1 =>
        have := bounds.charged_nonneg
        omega
      case refine_2 => exact add_nonneg bounds.deltas_nonneg delta_nonneg
      case refine_3 =>
        have := bounds.deltas_le
        simp only [deltas, total]
        omega
      case refine_4 =>
        cases call with
        | arrival p => exact grown.update grown.min_nonneg grown.min_le rfl rfl
        | ready p =>
            have latency : 0 ≤ s.latency := latency_eq ▸ latency_nonneg
            have := grown.min_le
            exact grown.update (le_max_of_le_left (grown.vruntime_nonneg p))
              (max_le (grown.vruntime_le p) (by omega)) rfl rfl
        | slice slice => exact grown
        | preempt p ran => exact charge p rfl
        | block p ran =>
            have := charge p rfl
            exact ⟨this.min_nonneg, this.min_le, this.vruntime_nonneg, this.vruntime_le⟩
        | complete p ran =>
            have := charge p rfl
            exact ⟨this.min_nonneg, this.min_le, this.vruntime_nonneg, this.vruntime_le⟩
      case refine_5 =>
        rw [raised.weight_eq, placesAfter]
        dsimp only
        rw [moved, ← weight_eq]
        cases call with
        | arrival p =>
            simp [cfsAfter, HookCall.proc, HookCall.place,
              show placesAfter before p = .new from legal.2,
              Place.Runnable, cfsWeight_eq ok.procs_eq]
        | ready p =>
            simp [cfsAfter, HookCall.proc, HookCall.place,
              show placesAfter before p = .blocked from legal,
              Place.Runnable, cfsWeight_eq ok.procs_eq]
        | slice slice =>
            simp [cfsAfter, HookCall.proc, HookCall.place,
              show placesAfter before slice.proc = .ready from legal,
              Place.Runnable]
        | preempt p ran =>
            obtain ⟨slice, out, -⟩ := legal
            simp [cfsAfter, cfsCharge, HookCall.proc, HookCall.place, out, Place.Runnable]
        | block p ran =>
            obtain ⟨slice, out, -⟩ := legal
            simp [cfsAfter, HookCall.proc, HookCall.place, out, Place.Runnable,
              cfsWeight_eq ok.procs_eq]
        | complete p ran =>
            obtain ⟨slice, out, -⟩ := legal
            simp [cfsAfter, HookCall.proc, HookCall.place, out, Place.Runnable,
              cfsWeight_eq ok.procs_eq]

/-- The minimum does not decrease. -/
theorem Chronicle.min_mono {calls : List TimedCall} {s' : (policyCfs : Policy D).State}
    (chronicle : Chronicle w policyCfs Inv start (calls ++ log) s)
    (before : Chronicle w policyCfs Inv start log s') :
    (s' : Cfs).minVruntime ≤ (s : Cfs).minVruntime := by
  induction calls generalizing s with
  | nil => rw [before.unique cfs_readsProcs chronicle]
  | cons call calls ih =>
      cases chronicle with
      | @call v now s₁ _ call _ earlier time ok inv legal run =>
          refine (ih earlier).trans (le_trans ?_ (cfs_redo run).le)
          cases call <;> exact le_rfl

/-- The weight of all processes is bounded by their CPU time. -/
theorem runnableWeight_le (valid : w.Valid) (pl : Places) :
    runnableWeight w pl ≤ 88761 * ∑ p ∈ Finset.range w.len, (w.proc p).burst := by
  rw [runnableWeight, Finset.mul_sum]
  refine Finset.sum_le_sum fun p hp => ?_
  have weight := (valid.proc (Finset.mem_range.mp hp)).weight_bounds
  have burst := (valid.proc (Finset.mem_range.mp hp)).burst_pos
  split_ifs <;> omega

/-- The results of the signed operations of `vruntime_delta` and the charge. -/
def chargeInts (s : Cfs) (p : Nat) (ran weight : Int) : List Int :=
  [ran / weight, ran / weight * 2 ^ 26, ran % weight, ran % weight * 2 ^ 26,
    ran % weight * 2 ^ 26 / weight, vruntimeDelta ran weight, s.vruntime p +
      vruntimeDelta ran weight]

/-- The results of the signed operations of the call. -/
def cfsInts (v : SchedView D) (s : Cfs) : HookCall → List Int
  | .arrival p => [s.runnableWeight + cfsWeight v p]
  | .ready p => [s.latency * 2 ^ 16, s.latency * 2 ^ 16 / 2, s.minVruntime - s.latency * 2 ^ 16 / 2,
      s.runnableWeight + cfsWeight v p]
  | .slice slice => [s.latency * cfsWeight v slice.proc,
      s.latency * cfsWeight v slice.proc / s.runnableWeight]
  | .preempt p ran => chargeInts s p ran (cfsWeight v p)
  | .block p ran => (s.runnableWeight - cfsWeight v p) :: chargeInts s p ran (cfsWeight v p)
  | .complete p ran => (s.runnableWeight - cfsWeight v p) :: chargeInts s p ran (cfsWeight v p)

theorem chargeInts_fit {s : Cfs} {p : Nat} {ran weight bound : Int} (least : 15 ≤ weight)
    (greatest : weight ≤ 88761) (ran_nonneg : 0 ≤ ran) (nonneg : 0 ≤ s.vruntime p)
    (le : s.vruntime p + vruntimeDelta ran weight ≤ bound) (bound_le : bound ≤ int64Max)
      (ran_le : ran ≤ int64Max) :
    ∀ x ∈ chargeInts s p ran weight, InI64 x := by
  have positive : 0 < weight := by omega
  have quotient := Int.ediv_nonneg ran_nonneg positive.le
  have quotient_le := Int.ediv_le_self weight ran_nonneg
  have rest := Int.emod_nonneg ran positive.ne'
  have rest_lt := Int.emod_lt_of_pos ran positive
  have part := Int.ediv_nonneg (show 0 ≤ ran % weight * 2 ^ 26 by omega) positive.le
  have delta : vruntimeDelta ran weight = ran / weight * 2 ^ 26 + ran % weight *
    2 ^ 26 / weight := rfl
  simp only [chargeInts, InI64, List.forall_mem_cons, List.not_mem_nil, false_imp_iff,
    implies_true, and_true]
  unfold int64Min int64Max at *
  refine ⟨⟨?_, ?_⟩, ⟨?_, ?_⟩, ⟨?_, ?_⟩, ⟨?_, ?_⟩, ⟨?_, ?_⟩, ⟨?_, ?_⟩, ?_, ?_⟩ <;> omega

/-- The share of the latency fits. -/
theorem cfsShare_fit {v : SchedView D} {s : Cfs} {slice : Slice} (latency_nonneg : 0 ≤ s.latency)
    (latency_le : s.latency ≤ 1000000000) (weight_nonneg : 0 ≤ cfsWeight v slice.proc)
    (weight_le : cfsWeight v slice.proc ≤ 88761) (load_nonneg : 0 ≤ s.runnableWeight) :
    ∀ x ∈ cfsInts v s (.slice slice), InI64 x := by
  have product_nonneg := mul_nonneg latency_nonneg weight_nonneg
  have product_le : s.latency * cfsWeight v slice.proc ≤ 1000000000 * 88761 :=
    mul_le_mul latency_le weight_le weight_nonneg (by decide)
  have share_nonneg := Int.ediv_nonneg product_nonneg load_nonneg
  have share_le := Int.ediv_le_self s.runnableWeight product_nonneg
  simp only [cfsInts, InI64, List.forall_mem_cons, List.not_mem_nil, false_imp_iff,
    implies_true, and_true]
  unfold int64Min int64Max
  omega

end Bound

/-! ## The lead on one core -/

section Lead

variable {start s s' : (policyCfs : Policy D).State} {log calls : List TimedCall}

/-- The longest slice. -/
def Cfs.longest (s : Cfs) : Int := max s.latency s.minGran

/-- No slice is longer than the longest. -/
theorem Chronicle.cfsSlices (valid : w.Valid)
    (chronicle : Chronicle w policyCfs (CfsInv w) start log s)
    (latency_nonneg : 0 ≤ (start : Cfs).latency) {p : Nat} {slice : Slice}
    (out : placesAfter log p = .out slice) : slice.length ≤ Cfs.longest start := by
  induction chronicle with
  | start => cases out
  | @call v now s s' call before earlier time ok inv legal run ih =>
      by_cases own : p = call.proc
      · subst own
        rw [placesAfter_self] at out
        cases call with
        | slice slice' =>
            cases out
            obtain ⟨latency_eq, minGran_eq⟩ := earlier.cfsParams
            have short := (cfs_pick valid inv ok (latency_eq ▸ latency_nonneg) run).1
            rwa [latency_eq, minGran_eq] at short
        | _ => cases out
      · rw [placesAfter_of_ne own] at out
        exact ih out

/-- Process `i` is ahead of `j` by at most `bound`, and not at all while it is on a core. -/
structure Lead (pl : Places) (s : Cfs) (i j : Nat) (bound : Int) : Prop where
  active_i : Active pl i
  active_j : Active pl j
  le : s.vruntime i - s.vruntime j ≤ bound
  behind : ∀ slice, pl i = .out slice → s.vruntime i ≤ s.vruntime j

/-- While two processes neither block nor complete, a slice of one gets it ahead of the
other by no more than the longest slice charges. -/
theorem Chronicle.cfsLead (valid : w.Valid)
    (chronicle : Chronicle w policyCfs (CfsInv w) start (calls ++ log) s)
    (before : Chronicle w policyCfs (CfsInv w) start log s')
    (latency_nonneg : 0 ≤ (start : Cfs).latency)
    (one : ∀ l, l <:+ calls ++ log → OneOut (placesAfter l)) {i j : Nat} (ne : i ≠ j)
    (ready : ∀ p, p = i ∨ p = j → placesAfter log p = .ready ∧
      ∀ call ∈ calls, ¬(call.call.Leaves ∧ call.call.proc = p)) :
    Lead (placesAfter (calls ++ log)) s i j (max ((s' : Cfs).vruntime i - (s' : Cfs).vruntime j)
      (vruntimeDelta (Cfs.longest start) (w.proc i).weight)) := by
  induction calls generalizing s with
  | nil =>
      rw [before.unique cfs_readsProcs chronicle]
      obtain ⟨ready_i, -⟩ := ready i (.inl rfl)
      obtain ⟨ready_j, -⟩ := ready j (.inr rfl)
      exact ⟨.inl ready_i, .inl ready_j, le_max_left _ _, fun slice out => by
        cases ready_i.symm.trans out⟩
  | cons call calls ih =>
      cases chronicle with
      | @call v now s₁ _ call _ earlier time ok inv legal run =>
          have alone := one _ (List.suffix_refl _)
          have lead := ih earlier (fun l suffix => one l (suffix.trans (List.suffix_cons _ _)))
            fun p kind => ⟨(ready p kind).1, fun c mem => (ready p kind).2 c
              (List.mem_cons_of_mem _ mem)⟩
          have stays_i := (ready i (.inl rfl)).2 _ List.mem_cons_self
          have stays_j := (ready j (.inr rfl)).2 _ List.mem_cons_self
          have vruntime_eq := (cfs_redo run).vruntime_eq
          have active_i := lead.active_i.call stays_i
          have active_j := lead.active_j.call stays_j
          by_cases own_i : call.proc = i
          · subst own_i
            have other : (s : Cfs).vruntime j = (s₁ : Cfs).vruntime j :=
              vruntime_eq ▸ cfsAfter_of_ne (Ne.symm ne)
            rcases legal.of_active lead.active_i fun leaves => stays_i ⟨leaves, rfl⟩ with
              ⟨slice, rfl⟩ | ⟨r, ran, rfl⟩
            · have same : (s : Cfs).vruntime = (s₁ : Cfs).vruntime := vruntime_eq
              -- the other one is ready, for the core was free
              have ready_j : placesAfter (calls ++ log) j = .ready := by
                rcases lead.active_j with ready_j | ⟨slice', out⟩
                · exact ready_j
                · have out : placesAfter (⟨now, .slice slice⟩ :: (calls ++ log)) j =
                    .out slice' := by
                    rwa [placesAfter_of_ne (show j ≠ (HookCall.slice slice).proc from Ne.symm ne)]
                  have own : placesAfter (⟨now, .slice slice⟩ :: (calls ++ log))
                    slice.proc = .out slice :=
                    placesAfter_self
                  exact absurd (alone _ _ slice slice' own out) ne
              have least := (cfs_pick valid inv ok (earlier.cfsParams.1 ▸ latency_nonneg)
                run).2 j ready_j
              refine ⟨active_i, active_j, ?_, fun _ _ => ?_⟩
              · rw [same]
                exact lead.le
              · rw [same]
                exact least
            · have mine : (s : Cfs).vruntime r = (s₁ : Cfs).vruntime r + vruntimeDelta ran
                (w.proc r).weight := by
                rw [vruntime_eq]
                simp [cfsAfter, cfsCharge, cfsWeight_eq ok.procs_eq]
              have weight := (valid.proc (legal.inside ok)).weight_pos
              obtain ⟨slice, out, -, le⟩ := legal
              have delta := vruntimeDelta_mono weight
                (le.trans (earlier.cfsSlices valid latency_nonneg out))
              have behind := lead.behind slice out
              refine ⟨active_i, active_j, le_max_of_le_right ?_, fun slice' out' => ?_⟩
              · simp only [HookCall.proc] at other behind delta ⊢
                omega
              · rw [List.cons_append, placesAfter_self] at out'
                cases out'
          · have mine : (s : Cfs).vruntime i = (s₁ : Cfs).vruntime i :=
              vruntime_eq ▸ cfsAfter_of_ne (Ne.symm own_i)
            have place : placesAfter (⟨now, call⟩ :: (calls ++ log)) i =
              placesAfter (calls ++ log) i :=
              placesAfter_of_ne (Ne.symm own_i)
            have grows : (s₁ : Cfs).vruntime j ≤ (s : Cfs).vruntime j := by
              by_cases own_j : call.proc = j
              · subst own_j
                rw [vruntime_eq]
                rcases legal.of_active lead.active_j fun leaves => stays_j ⟨leaves, rfl⟩ with
                  ⟨slice, rfl⟩ | ⟨r, ran, rfl⟩
                · exact le_rfl
                · have weight := (valid.proc (legal.inside ok)).weight_pos
                  have delta := vruntimeDelta_nonneg weight legal.ran_nonneg
                  simpa [cfsAfter, cfsCharge, cfsWeight_eq ok.procs_eq, HookCall.proc,
                    HookCall.ran] using delta
              · have same : (s : Cfs).vruntime j = (s₁ : Cfs).vruntime j :=
                  vruntime_eq ▸ cfsAfter_of_ne (Ne.symm own_j)
                exact same.ge
            have le := lead.le
            refine ⟨active_i, active_j, by omega, fun slice out => ?_⟩
            rw [mine]
            exact (lead.behind slice (place.symm.trans out)).trans grows

end Lead

/-! ## Runs -/

namespace Sim

variable [Double D]

/-- The simulation under `POLICY_CFS`. -/
abbrev cfs (S : Sim D) : Sim D := S.withPolicy policyCfs

/-- What `cfs_create` checks and sets up. -/
theorem Started.cfs_created {S : Sim D} {state : Cfs} (started : Started S.cfs state)
    (admitted : S.params.Admitted) :
    ∑ p ∈ Finset.range S.w.len, (S.w.proc p).burst ≤ cfsMaxCpu ∧ S.params.cfsLatency ≤ 1000000000 ∧
      CfsInv S.w S.initView state (fun _ => .new) ∧ CfsBounds S.w state [] ∧
      state.latency = S.params.cfsLatency ∧ state.minGran = S.params.cfsMinGran := by
  have created : cfsCreate S.initView S.params = .ok state := started.created
  simp only [cfsCreate] at created
  split_ifs at created with large
  cases created
  have weight : runnableWeight S.w (fun _ => .new) = 0 := by simp [runnableWeight, Place.Runnable]
  refine ⟨not_lt.mp fun h => large (.inl h), not_lt.mp fun h => large (.inr h),
    ⟨HeapReady.init _ _ _, weight.symm, admitted.minGran_pos⟩, ?_, rfl, rfl⟩
  exact ⟨by simp [chargedAll, charged], le_rfl, by simp [deltas, chargedAll, charged],
    ⟨le_rfl, le_rfl, fun _ => le_rfl, fun _ => le_rfl⟩, weight.symm⟩

/-- In every run of CFS on one core, a process that is ready at two points of the run,
like another one, and like it neither blocks nor completes in between, is ahead of it by
no more than before, or than its longest slice charges. -/
theorem cfs_lead (S : Sim D) (one : S.opt.cores = 1) (admitted : S.params.Admitted) {state : Cfs}
    (started : Started S.cfs state) : S.cfs.Logs state ∧
    ∀ point₀ e₀ point e calls, Reached S.cfs.logged ⟨state, []⟩ point₀ e₀ →
      Reached S.cfs.logged ⟨state, []⟩ point e → e.state.log = calls ++ e₀.state.log →
      ∀ i j, (∀ p, p = i ∨ p = j → placesAfter e₀.state.log p = .ready ∧
          placesAfter e.state.log p = .ready ∧
            ∀ call ∈ calls, ¬(call.call.Leaves ∧ call.call.proc = p)) →
        e.state.state.vruntime i - e.state.state.vruntime j ≤
          max (e₀.state.state.vruntime i - e₀.state.state.vruntime j)
            (max S.params.cfsLatency S.params.cfsMinGran * 2 ^ 26 / (S.w.proc i).weight) := by
  refine ⟨S.cfs.logs state, fun point₀ e₀ point e calls reached₀ reached log i j ready => ?_⟩
  have valid : S.w.Valid := workloadValidate_ok started.validated
  obtain ⟨-, -, start, -, latency_eq, minGran_eq⟩ := started.cfs_created admitted
  have launched := started.chronicled (cfs_contract valid) cfs_reports start
  have apart := reached.oneOut launched one
  obtain ⟨sp, -, here⟩ := reached.recounted launched
  obtain ⟨sp₀, course₀, here₀⟩ := reached₀.recounted launched
  have chronicle : Chronicle S.w policyCfs (CfsInv S.w) state e.state.log
    e.state.state := here.chronicle
  have before : Chronicle S.w policyCfs (CfsInv S.w) state e₀.state.log
    e₀.state.state := here₀.chronicle
  by_cases same : i = j
  · subst same
    simp
  obtain ⟨budget, sound⟩ := course₀.sound
  have inside : i < S.w.len := sound.inside fun new => by
    have at_ : places sp₀ i = .ready := here₀.places ▸ (ready i (.inl rfl)).1
    simp [places, Spot.place, show sp₀ i = .new from new] at at_
  rw [log] at apart chronicle
  have lead := chronicle.cfsLead valid before (latency_eq ▸ admitted.latency_pos.le) apart same
    fun p kind => ⟨(ready p kind).1, (ready p kind).2.2⟩
  have bound := lead.le
  rwa [Cfs.longest, latency_eq, minGran_eq,
    vruntimeDelta_eq (valid.proc inside).weight_pos] at bound

/-- What is seen of a state under CFS. -/
structure CfsSeen where
  now : Int
  log : List TimedCall
  vruntime : Int × Int
  deriving DecidableEq

def cfsSeen (e : twinSim.cfs.logged.Eng) : CfsSeen where
  now := e.now
  log := e.state.log
  vruntime := (e.state.state.vruntime 0, e.state.state.vruntime 1)

/-- The calls while the first of the two runs for its slice. -/
def twinCfsCalls : List TimedCall := [⟨18, .preempt 0 18⟩, ⟨0, .slice ⟨0, 18, schedNoDeadline⟩⟩]

theorem twinSim_cfs_run : ((policyCfs.create twinSim.cfs.initView {}).toOption.bind fun s =>
      (twinSim.cfs.logged.settledAfter ⟨s, []⟩ twinOrder 0).bind fun e₀ =>
        (twinSim.cfs.logged.settledAfter ⟨s, []⟩ twinOrder 1).map fun e =>
          (cfsSeen e₀, cfsSeen e)) =
      some (⟨0, [⟨0, .arrival 1⟩, ⟨0, .arrival 0⟩], (0, 0)⟩,
        ⟨18, twinCfsCalls ++ [⟨0, .arrival 1⟩, ⟨0, .arrival 0⟩], (1179648, 0)⟩) := by
  decide +kernel

theorem twinSim_cfs_started {s : Cfs} (created : policyCfs.create twinSim.cfs.initView {} = .ok s) :
    Started twinSim.cfs s :=
  ⟨twinWorkload_valid.validates, rfl, created⟩

/-- The first process is ready again after its slice of 18 ticks, and ahead of the other one by
what the slice charges, which is less than a slice of the whole latency would charge. -/
theorem twinSim_cfsLead : ∃ s e₀ e, Reached twinSim.cfs.logged ⟨s, []⟩ .settled e₀ ∧
    Reached twinSim.cfs.logged ⟨s, []⟩ .settled e ∧ e.now = 18 ∧
    e.state.log = twinCfsCalls ++ e₀.state.log ∧
    e₀.state.state.vruntime 0 - e₀.state.state.vruntime 1 = 0 ∧
    0 < e.state.state.vruntime 0 - e.state.state.vruntime 1 ∧
    e.state.state.vruntime 0 - e.state.state.vruntime 1 ≤
      max twinSim.params.cfsLatency twinSim.params.cfsMinGran * 2 ^ 26 /
        (twinSim.w.proc 0).weight := by
  obtain ⟨s, e₀, e, created, reached₀, reached, seen₀, seen⟩ :=
    twinSim_reached (P := policyCfs) twinSim_cfs_run
  simp only [cfsSeen, CfsSeen.mk.injEq, Prod.mk.injEq] at seen₀ seen
  obtain ⟨-, log₀, first₀, second₀⟩ := seen₀
  obtain ⟨now, log, first, second⟩ := seen
  obtain ⟨-, lead⟩ := cfs_lead twinSim rfl PolicyParams.admitted_default
    (twinSim_cfs_started created)
  have split : e.state.log = twinCfsCalls ++ e₀.state.log := by rw [log, log₀]
  have bound := lead _ e₀ _ e _ reached₀ reached split 0 1 fun p kind => by
    rw [log₀, log]
    rcases kind with rfl | rfl
    · exact ⟨rfl, rfl, by simp [twinCfsCalls, HookCall.Leaves]⟩
    · exact ⟨rfl, rfl, by simp [twinCfsCalls, HookCall.Leaves]⟩
  have none : e₀.state.state.vruntime 0 - e₀.state.state.vruntime 1 = 0 := by
    rw [first₀, second₀, sub_zero]
  rw [none, max_eq_right (by decide)] at bound
  refine ⟨s, e₀, e, reached₀, reached, now, split, none, ?_, bound⟩
  rw [first, second]
  decide

/-- In every run of CFS the weight is that of the runnable processes, so the slice
division is defined; the minimum never decreases, every delta is the exact quotient, no
run time exceeds the sum of the deltas charged so far, and no operation leaves 64 bits. -/
theorem cfs_fits (S : Sim D) (admitted : S.params.Admitted) {state : Cfs}
    (started : Started S.cfs state) : S.cfs.Logs state ∧
    ∀ point e, Reached S.cfs.logged ⟨state, []⟩ point e →
      History S.w S.cfs.policy state e.state.log e.state.state ∧
      ∀ log s, log <:+ e.state.log → History S.w S.cfs.policy state log s →
        s.runnableWeight = runnableWeight S.w (placesAfter log) ∧
        RunTimesWithin s (deltas S.w log) ∧ deltas S.w log ≤ int64Max ∧
        (∀ calls s', History S.w S.cfs.policy state (calls ++ log) s' →
          s.minVruntime ≤ s'.minVruntime) ∧
        ∀ call, call :: log <:+ e.state.log →
          (∀ x ∈ cfsInts S.initView s call.call, InI64 x) ∧
          (∀ slice, call.call = .slice slice → 0 < s.runnableWeight) ∧
          vruntimeDelta call.call.ran (S.w.proc call.call.proc).weight =
            call.call.ran * 2 ^ 26 / (S.w.proc call.call.proc).weight := by
  refine ⟨S.cfs.logs state, fun point e reached => ?_⟩
  have valid : S.w.Valid := workloadValidate_ok started.validated
  obtain ⟨total, latency_le, start, zero, latency_eq, -⟩ := started.cfs_created admitted
  have latency_pos := admitted.latency_pos
  have launched := started.chronicled (cfs_contract valid) cfs_reports start
  obtain ⟨-, le⟩ := reached.charged_eq launched cfs_reports
  obtain ⟨sp, -, here⟩ := reached.recounted launched
  have history : History S.w S.cfs.policy state e.state.log e.state.state :=
    here.chronicle.mono fun _ => trivial
  have spent : chargedAll S.w e.state.log ≤ cfsMaxCpu :=
    (Finset.sum_le_sum fun p hp => le p (Finset.mem_range.mp hp)).trans total
  have spent_at : ∀ log, log <:+ e.state.log → chargedAll S.w log ≤ cfsMaxCpu := by
    rintro log ⟨calls, split⟩
    rw [← split] at spent history
    exact history.chargedAll_mono.trans spent
  have maxCpu : cfsMaxCpu = 1000000000000 := rfl
  have greatest : int64Max = 9223372036854775807 := rfl
  have least : int64Min = -9223372036854775808 := rfl
  refine ⟨history, fun log s suffix before => ?_⟩
  have bounds := before.cfsBounds valid zero (latency_eq ▸ latency_pos.le)
  have within := bounds.within
  have spent_log := spent_at log suffix
  have deltas_le := bounds.deltas_le
  have deltas_fit : deltas S.w log ≤ int64Max := by omega
  refine ⟨bounds.weight_eq, within, deltas_fit, fun calls s' after => after.min_mono before,
    fun call called => ?_⟩
  have spent_call := spent_at _ called
  obtain ⟨calls, split⟩ := called
  rw [← split] at history
  obtain ⟨s', after⟩ := history.earlier
  have bounds' := after.cfsBounds valid zero (latency_eq ▸ latency_pos.le)
  cases after with
  | @call v now s₁ _ call _ earlier time ok inv legal run =>
      have weight := (valid.proc (legal.inside ok)).weight_bounds
      have ran := legal.ran_nonneg
      have all : chargedAll S.w (⟨now, call⟩ :: log) = chargedAll S.w log + call.ran :=
        chargedAll_call legal ok
      have delta : deltas S.w (⟨now, call⟩ :: log) =
          deltas S.w log + vruntimeDelta call.ran (S.w.proc call.proc).weight := rfl
      have deltas_le' := bounds'.deltas_le
      have charged_nonneg := bounds.charged_nonneg
      have weight_eq : cfsWeight S.initView call.proc = (S.w.proc call.proc).weight :=
        cfsWeight_eq rfl call.proc
      have load_le := runnableWeight_le valid (placesAfter log)
      have load_nonneg : 0 ≤ runnableWeight S.w (placesAfter log) := by
        refine Finset.sum_nonneg fun p hp => ?_
        have := (valid.proc (Finset.mem_range.mp hp)).weight_pos
        split_ifs <;> omega
      have load : s.runnableWeight = runnableWeight S.w (placesAfter log) := bounds.weight_eq
      have latency : s.latency = S.params.cfsLatency := before.cfsParams.1.trans latency_eq
      have weight_pos : 0 < (S.w.proc call.proc).weight := by omega
      have grown := vruntimeDelta_nonneg weight_pos ran
      have counted : 15 ≤ cfsWeight S.initView call.proc ∧ cfsWeight S.initView call.proc ≤ 88761 :=
        weight_eq ▸ weight
      have total_fit : deltas S.w (⟨now, call⟩ :: log) ≤ int64Max := by omega
      have charge : ∀ x ∈ chargeInts s call.proc call.ran (cfsWeight S.initView call.proc),
        InI64 x := by
        have own := within.vruntime_le call.proc
        rw [weight_eq]
        exact chargeInts_fit weight.1 weight.2 ran (within.vruntime_nonneg _) (by omega) total_fit
          (by omega)
      have leave : ∀ p, call.proc = p → InI64 (s.runnableWeight - cfsWeight S.initView p) := by
        rintro p rfl
        simp only [InI64]
        omega
      have join : ∀ p, call.proc = p → InI64 (s.runnableWeight + cfsWeight S.initView p) := by
        rintro p rfl
        simp only [InI64]
        omega
      refine ⟨?_, fun slice eq => ?_, vruntimeDelta_eq weight_pos _⟩
      · cases call with
        | arrival p => exact List.forall_mem_singleton.mpr (join p rfl)
        | ready p =>
            have := within.min_nonneg
            have := within.min_le
            have joined := join p rfl
            simp only [cfsInts, InI64, List.forall_mem_cons, List.not_mem_nil, false_imp_iff,
              implies_true, and_true] at joined ⊢
            omega
        | slice slice =>
            exact cfsShare_fit (by omega) (by omega)
              ((by decide : (0 : Int) ≤ 15).trans counted.1) counted.2
              (by omega)
        | preempt p ran => exact charge
        | block p ran => exact List.forall_mem_cons.mpr ⟨leave p rfl, charge⟩
        | complete p ran => exact List.forall_mem_cons.mpr ⟨leave p rfl, charge⟩
      · have eq : call = .slice slice := eq
        subst eq
        rw [load]
        exact runnableWeight_pos valid (ok.ready_lt _ legal) legal

/-- The charge after the slice of the first process is the exact quotient, and no integer of it
leaves the range. -/
theorem twinSim_cfsFits : ∃ s e, Reached twinSim.cfs.logged ⟨s, []⟩ .settled e ∧
    e.state.log = twinCfsCalls ++ [⟨0, .arrival 1⟩, ⟨0, .arrival 0⟩] ∧
    e.state.state.vruntime 0 = 18 * 2 ^ 26 / (twinSim.w.proc 0).weight ∧
    e.state.state.vruntime 0 ≤ deltas twinSim.w e.state.log ∧
    deltas twinSim.w e.state.log ≤ int64Max ∧
    e.state.state.runnableWeight = runnableWeight twinSim.w (placesAfter e.state.log) ∧
    vruntimeDelta 18 (twinSim.w.proc 0).weight = 18 * 2 ^ 26 / (twinSim.w.proc 0).weight ∧
    ∃ s₁, ∀ x ∈ cfsInts twinSim.initView s₁ (.preempt 0 18), InI64 x := by
  obtain ⟨s, e₀, e, created, -, reached, -, seen⟩ :=
    twinSim_reached (P := policyCfs) twinSim_cfs_run
  simp only [cfsSeen, CfsSeen.mk.injEq, Prod.mk.injEq] at seen
  obtain ⟨-, log, first, -⟩ := seen
  obtain ⟨-, points⟩ := cfs_fits twinSim PolicyParams.admitted_default
    (twinSim_cfs_started created)
  obtain ⟨history, fits⟩ := points _ e reached
  obtain ⟨weight, within, total, -, -⟩ := fits _ _ (List.suffix_refl _) history
  have split : e.state.log = [⟨18, .preempt 0 18⟩] ++ e.state.log.tail := by
    rw [log]
    rfl
  rw [split] at history
  obtain ⟨s₁, before⟩ := history.earlier
  obtain ⟨charge, -, exact_⟩ := (fits _ s₁ (List.tail_suffix _) before).2.2.2.2
    ⟨18, .preempt 0 18⟩ (split ▸ List.suffix_refl _)
  refine ⟨s, e, reached, log, ?_, within.vruntime_le 0, total, weight, exact_, s₁, charge⟩
  rw [first]
  decide

end Sim

end CpuSched
