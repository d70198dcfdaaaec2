import CpuSched.Engine.OnePiece
import CpuSched.Engine.Paired
import CpuSched.Policies.SrtfOptimal
import CpuSched.Reference.Agreement
import CpuSched.Reference.MatchingLottery
import CpuSched.Reference.MatchingPriority
import CpuSched.Reference.MatchingShares

/-!
# The simulator against the reference

`tools/reference_sim.py` steps through every tick with policies on plain lists;
`sim_run` jumps from event to event with policies on ring buffers, heaps, a treap and a
Fenwick tree.  The engine runs a policy and its class alike, and for the policies that let
slices run it ends with the ticks, the times and the counts of the reference.
-/

namespace CpuSched

variable {D : Type}

/-- The horizon and the cost of one switch for each CPU burst, which no clock passes that
runs every burst in one piece. -/
def Sim.clockLimit (S : Sim D) : Int := workloadHorizon S.w + S.w.burstCount * S.opt.csCost

/-- The class of `tools/reference_sim.py` for a policy of `src/policies`, and what it asks
of the simulation so that the 64-bit numbers of the policy are those of the class. -/
inductive ReferenceClass [Double D] (S : Sim D) : Policy D → Policy D → Prop
  | fcfs : ReferenceClass S policyFcfs refFcfs
  | sjf : ReferenceClass S policySjf refSjf
  | srtf : ReferenceClass S policySrtf refSrtf
  | rr : ReferenceClass S policyRr refRr
  | prio (fit : S.w.BasesFit S.params.aging S.clockLimit) : ReferenceClass S policyPrio refPrio
  | lottery (fits : S.w.TicketsFit) : ReferenceClass S policyLottery refLottery
  | stride : ReferenceClass S policyStride refStride
  | cfs : ReferenceClass S policyCfs refCfs

/-! ## The classes do not watch the cores -/

section Unwatching

theorem refFcfs_unwatching : Unwatching (D := D) refFcfs where
  notReady := rfl
  conserving := rfl
  undated hook := absurd rfl hook
  idle {v s s'} run := by
    cases s with
    | nil => exact (congrArg Prod.fst (Option.some.inj run)).symm
    | cons p rest => cases congrArg Prod.snd (Option.some.inj run)
  arrival _ _ _ _ := rfl
  wake _ _ _ _ := rfl
  next {v s s' pick remaining} run same := by
    cases s with
    | nil => exact run
    | cons p rest =>
        obtain ⟨rfl, rfl⟩ := Prod.mk.inj (Option.some.inj run)
        rw [← same _ rfl]
        rfl
  preempt hook := by cases hook
  block _ _ _ _ _ _ := rfl
  complete _ _ _ _ _ _ := rfl

theorem refSjf_unwatching : Unwatching (D := D) refSjf where
  notReady := rfl
  conserving := rfl
  undated hook := absurd rfl hook
  idle {v s s'} run := by
    simp only [refSjf, refKeyedPick] at run
    split at run
    · exact (congrArg Prod.fst (Option.some.inj run)).symm
    · cases congrArg Prod.snd (Option.some.inj run)
  arrival _ _ _ _ := rfl
  wake _ _ _ _ := rfl
  next {v s s' pick remaining} run same := by
    have less : refSjfLess { v with remaining } = refSjfLess v := rfl
    simp only [refSjf, refKeyedPick, less] at run ⊢
    split at run
    · exact run
    · obtain ⟨rfl, rfl⟩ := Prod.mk.inj (Option.some.inj run)
      rw [same _ rfl]
  preempt hook := by cases hook
  block _ _ _ _ _ _ := rfl
  complete _ _ _ _ _ _ := rfl

theorem refPrio_unwatching : Unwatching (D := D) refPrio where
  notReady := rfl
  conserving := rfl
  undated hook := absurd rfl hook
  idle {v s s'} run := by
    simp only [refPrio, RefPriority.pick] at run
    split at run
    · exact (congrArg Prod.fst (Option.some.inj run)).symm
    · cases congrArg Prod.snd (Option.some.inj run)
  arrival _ _ _ _ := rfl
  wake _ _ _ _ := rfl
  next {v s s' pick remaining} run same := by
    have less : RefPriority.less { v with remaining } s = RefPriority.less v s := rfl
    simp only [refPrio, RefPriority.pick, less] at run ⊢
    split at run
    · exact run
    · obtain ⟨rfl, rfl⟩ := Prod.mk.inj (Option.some.inj run)
      rw [same _ rfl]
  preempt hook := by cases hook
  block _ _ _ _ _ _ := rfl
  complete _ _ _ _ _ _ := rfl

theorem refRr_unwatching : Unwatching (D := D) refRr where
  notReady := rfl
  conserving := rfl
  undated _ {v s s' slice} run := by
    simp only [refRr, RefRr.pick] at run
    split at run
    · cases congrArg Prod.snd (Option.some.inj run)
    · rw [← Option.some.inj (congrArg Prod.snd (Option.some.inj run))]
  idle {v s s'} run := by
    simp only [refRr, RefRr.pick] at run
    split at run
    · exact (congrArg Prod.fst (Option.some.inj run)).symm
    · cases congrArg Prod.snd (Option.some.inj run)
  arrival _ _ _ _ := rfl
  wake _ _ _ _ := rfl
  next run _ := run
  preempt hook _ _ _ _ _ _ := by
    obtain rfl := Option.some.inj hook
    rfl
  block _ _ _ _ _ _ := rfl
  complete _ _ _ _ _ _ := rfl

/-- The walk reads the tickets alone. -/
theorem refLotteryWalk_remaining (v : SchedView D) (remaining : Nat → Int) (l : List Nat)
    (r : Int) : refLotteryWalk { v with remaining } l r = refLotteryWalk v l r := by
  induction l generalizing r with
  | nil => rfl
  | cons p rest ih => simp only [refLotteryWalk, ih]

theorem refLotteryPick_remaining (v : SchedView D) (s : RefLottery) (remaining : Nat → Int) :
    RefLottery.pick { v with remaining } s = RefLottery.pick v s := by
  simp only [RefLottery.pick, RefLottery.total, refLotteryPick, refLotteryWalk_remaining]

theorem refLottery_unwatching : Unwatching (D := D) refLottery where
  notReady := rfl
  conserving := rfl
  undated _ {v s s' slice} run := by
    simp only [refLottery, RefLottery.pick] at run
    split at run
    · cases congrArg Prod.snd (Option.some.inj run)
    · obtain ⟨_, -, run⟩ := Option.bind_eq_some_iff.mp run
      obtain ⟨_, -, last⟩ := Option.bind_eq_some_iff.mp run
      rw [← Option.some.inj (congrArg Prod.snd (Option.some.inj last))]
  idle {v s s'} run := by
    simp only [refLottery, RefLottery.pick] at run
    split at run
    · exact (congrArg Prod.fst (Option.some.inj run)).symm
    · obtain ⟨_, -, run⟩ := Option.bind_eq_some_iff.mp run
      obtain ⟨_, -, last⟩ := Option.bind_eq_some_iff.mp run
      cases congrArg Prod.snd (Option.some.inj last)
  arrival _ _ _ _ := rfl
  wake _ _ _ _ := rfl
  next run _ := (refLotteryPick_remaining ..).trans run
  preempt hook _ _ _ _ _ _ := by
    obtain rfl := Option.some.inj hook
    rfl
  block _ _ _ _ _ _ := rfl
  complete _ _ _ _ _ _ := rfl

theorem refStride_unwatching : Unwatching (D := D) refStride where
  notReady := rfl
  conserving := rfl
  undated _ {v s s' slice} run := by
    simp only [refStride, RefStride.pick] at run
    split at run
    · cases congrArg Prod.snd (Option.some.inj run)
    · rw [← Option.some.inj (congrArg Prod.snd (Option.some.inj run))]
  idle {v s s'} run := by
    simp only [refStride, RefStride.pick] at run
    split at run
    · exact (congrArg Prod.fst (Option.some.inj run)).symm
    · cases congrArg Prod.snd (Option.some.inj run)
  arrival _ _ _ _ := rfl
  wake _ _ _ _ := rfl
  next run _ := run
  preempt hook _ _ _ _ _ _ := by
    obtain rfl := Option.some.inj hook
    rfl
  block _ _ _ _ _ _ := rfl
  complete _ _ _ _ _ _ := rfl

theorem refCfs_unwatching : Unwatching (D := D) refCfs where
  notReady := rfl
  conserving := rfl
  undated _ {v s s' slice} run := by
    simp only [refCfs, RefCfs.pick] at run
    split at run
    · cases congrArg Prod.snd (Option.some.inj run)
    · split_ifs at run
      rw [← Option.some.inj (congrArg Prod.snd (Option.some.inj run))]
  idle {v s s'} run := by
    simp only [refCfs, RefCfs.pick] at run
    split at run
    · exact (congrArg Prod.fst (Option.some.inj run)).symm
    · split_ifs at run
      cases congrArg Prod.snd (Option.some.inj run)
  arrival _ _ _ _ := rfl
  wake _ _ _ _ := rfl
  next run _ := run
  preempt hook _ _ _ _ _ _ := by
    obtain rfl := Option.some.inj hook
    rfl
  block _ _ _ _ _ _ := rfl
  complete _ _ _ _ _ _ := rfl

/-- A class that is asked at free cores alone reads no remaining time but that of its
pick. -/
theorem ReferenceClass.unwatching [Double D] {S : Sim D} {P R : Policy D}
    (cls : ReferenceClass S P R) (still : P.preemptOnReady = false) :
    Unwatching R := by
  cases cls with
  | fcfs => exact refFcfs_unwatching
  | sjf => exact refSjf_unwatching
  | srtf => cases still
  | rr => exact refRr_unwatching
  | prio => exact refPrio_unwatching
  | lottery => exact refLottery_unwatching
  | stride => exact refStride_unwatching
  | cfs => exact refCfs_unwatching

end Unwatching

namespace Sim

variable [Double D] {S : Sim D}

/-! ## The start -/

/-- A class about to run, with a contract of its own, that ends its run as the policy
does. -/
structure RunsAs (S : Sim D) (P R : Policy D) (t : R.State)
    (RInv : SchedView D → R.State → Places → Prop) : Prop where
  launched : Launched (S.withPolicy R) RInv t
  started : Started (S.withPolicy R) t
  simRun_iff : ∀ r, (S.withPolicy R).simRun = .ok r ↔ (S.withPolicy P).simRun = .ok r

/-- A class that matches a policy runs as the policy does. -/
theorem Started.runsAs {P R : Policy D} {s : P.State} {t : R.State}
    {PInv : SchedView D → P.State → Places → Prop}
    {Rel : SchedView D → P.State → R.State → Places → Prop}
    (started : Started (S.withPolicy P) s) (contract : Contract S.w P PInv)
    (alike : Matches S.w P R PInv Rel) (start : PInv S.initView s fun _ => .new)
    (options : (S.withPolicy R).checkOptions = (S.withPolicy P).checkOptions)
    (created : R.create S.initView S.params = .ok t) (rel : Rel S.initView s t fun _ => .new) :
    ∃ t RInv, RunsAs S P R t RInv := by
  have valid : S.w.Valid := workloadValidate_ok started.validated
  have launched : Launched (S.withPolicy P) PInv s :=
    ⟨valid, checkOptions_ok valid started.options, contract, start⟩
  have started' : Started (S.withPolicy R) t :=
    ⟨started.validated, options.trans started.options, created⟩
  have launched' : Launched (S.withPolicy R) (MatchedInv PInv Rel) t :=
    ⟨valid, checkOptions_ok valid started'.options, contract.matched alike, s, start, rel⟩
  exact ⟨t, _, launched', started', launched.simRun_iff_matched started alike started' rel⟩

/-- The class of `prio` runs as the policy does: the class with the saturation matches the
policy, and the clock does not get to where its bases saturate. -/
theorem Started.runsAs_prio {s : Prio} (started : Started (S.withPolicy policyPrio) s)
    (admitted : S.params.Admitted) (fit : S.w.BasesFit S.params.aging S.clockLimit) :
    ∃ t RInv, RunsAs S policyPrio refPrio t RInv := by
  have valid : S.w.Valid := workloadValidate_ok started.validated
  have created : (policyPrio (D := D)).create S.initView S.params = .ok s := started.created
  have start : PrioInvBoth satSub false S.w S.initView s fun _ => .new := prioCreate_inv created
  have times : PrioTimes S.params.aging S.initView s fun _ => .new := by
    cases created
    exact ⟨rfl, by simp, by simp⟩
  have rel : PrioAlike S.initView s ⟨S.params.aging, [], fun _ => 0, fun _ => 0⟩
      fun _ => .new := by
    cases created
    exact ⟨[], Holds.nil, rfl⟩
  have kept : Kept (D := D) S.w policyPrio (PrioInvBoth satSub false S.w)
      (PrioTimes S.params.aging) := prio_times valid
  have contract := (prio_contract (D := D) valid).and kept
  have alike := prio_matches (D := D) valid admitted.aging_nonneg fit
  have launched : Launched (S.withPolicy policyPrio) _ s :=
    ⟨valid, checkOptions_ok valid started.options, contract, start, times⟩
  have until_ : Started (S.withPolicy (refPrioUntil S.clockLimit))
      ⟨S.params.aging, [], fun _ => 0, fun _ => 0⟩ := ⟨started.validated, started.options, rfl⟩
  have launchedUntil : Launched (S.withPolicy (refPrioUntil S.clockLimit)) _
      ⟨S.params.aging, [], fun _ => 0, fun _ => 0⟩ :=
    ⟨valid, checkOptions_ok valid until_.options, contract.matched alike, s, ⟨start, times⟩, rel⟩
  have started' : Started (S.withPolicy refPrio) ⟨S.params.aging, [], fun _ => 0, fun _ => 0⟩ :=
    ⟨started.validated, started.options, rfl⟩
  refine ⟨_, _, ⟨valid, checkOptions_ok valid started'.options, refPrio_contract S.w, Holds.nil⟩,
    started', fun r => ?_⟩
  have follows := launchedUntil.simRun_iff until_ (refPrio_follows S.clockLimit)
    (fun reached => reached.now_le_of_whole launchedUntil rfl) started' rfl r
  exact follows.trans (launched.simRun_iff_matched started alike until_ rel r)

/-- Where a policy starts, its class runs as the policy does. -/
theorem Started.reference {P R : Policy D} {s : P.State} (started : Started (S.withPolicy P) s)
    (cls : ReferenceClass S P R) (admitted : S.params.Admitted)
    (exact_ : P.usesEstimates = true → S.opt.predict = .oracle) :
    ∃ t RInv, RunsAs S P R t RInv := by
  have valid : S.w.Valid := workloadValidate_ok started.validated
  have oracle : P.usesEstimates = true → S.initView.predicted = none := fun uses => by
    simp only [initView, initPredicted, exact_ uses]
  have created := started.created
  cases cls with
  | fcfs =>
      cases created
      exact started.runsAs (fcfs_contract _) (fcfs_matches _) (QueueReady.init _) rfl rfl rfl
  | sjf =>
      cases created
      exact started.runsAs (sjf_contract valid) (sjf_matches valid) (HeapReady.init _ _ _) rfl
        rfl ⟨oracle rfl, Holds.nil⟩
  | srtf =>
      cases created
      exact started.runsAs (srtf_contract valid) (srtf_matches valid) (HeapReady.init _ _ _) rfl
        rfl ⟨oracle rfl, Holds.nil⟩
  | rr =>
      cases created
      exact started.runsAs (rr_contract _) (rr_matches _)
        ⟨QueueReady.init _, admitted.quantum_pos⟩ rfl rfl rfl
  | prio fit => exact started.runsAs_prio admitted fit
  | lottery fits =>
      have start := LotteryInv.init (w := S.w) (v := S.initView) rfl admitted.quantum_pos created
      cases created
      refine started.runsAs (lottery_contract valid) (lottery_matches valid fits) start rfl rfl
        ⟨[], Holds.nil, rankedByPid_pidOrder valid rfl rfl, ?_⟩
      rw [mask64, Nat.and_two_pow_sub_one_eq_mod, Nat.mod_eq_of_lt S.params.seed.isLt]
  | stride =>
      have created : strideCreate S.initView S.params = .ok s := created
      unfold strideCreate at created
      cases total : strideTotal S.initView (List.range S.initView.n) 0 with
      | none =>
          rw [total] at created
          cases created
      | some _ =>
          rw [total] at created
          cases created
          exact started.runsAs (stride_contract valid) (stride_matches valid)
            ⟨HeapReady.init _ _ _, admitted.quantum_pos⟩ rfl rfl ⟨[], Holds.nil, rfl⟩
  | cfs =>
      have created : cfsCreate S.initView S.params = .ok s := created
      simp only [cfsCreate] at created
      split_ifs at created
      cases created
      exact started.runsAs (cfs_contract valid) (cfs_matches valid)
        ⟨HeapReady.init _ _ _, by simp [runnableWeight, Place.Runnable], admitted.minGran_pos⟩
        rfl rfl ⟨[], Holds.nil, rfl⟩

/-! ## Aging on one core -/

/-- The second process has the worst priority and blocks between its bursts. -/
def agedWorkload : Workload :=
  ⟨[{ processMake 1 0 3 with priority := 2 },
    { pid := 2, arrival := 0, burst := 2, io := 1, phases := [1, 1, 1], priority := 4 },
    { processMake 3 1 2 with priority := 3 }]⟩

theorem agedWorkload_valid : agedWorkload.Valid where
  nonempty := by decide
  procs p mem := by
    simp only [agedWorkload, List.mem_cons, List.not_mem_nil, or_false] at mem
    rcases mem with rfl | rfl | rfl
    · constructor <;> decide
    · constructor <;> decide
    · constructor <;> decide
  pids_nodup := by decide
  horizon_le := by decide

/-- Their run with a level for every tick of waiting and a switch cost. -/
def agedSim : Sim Float where
  build := .debug
  w := agedWorkload
  policy := policyPrio
  params := { aging := 1 }
  opt := { cores := 1, csCost := 1, predict := .oracle, alpha := 0.5, tau0 := 1, maxSegments := 20 }

theorem agedSim_admitted : agedSim.params.Admitted :=
  { PolicyParams.admitted_default with aging_nonneg := by decide }

theorem agedSim_basesFit : agedWorkload.BasesFit 1 agedSim.clockLimit := by
  have limit : agedSim.clockLimit = 13 := by decide
  rw [limit]
  decide

/-- The arrivals. -/
def agedOrder : List ArrivalKey := [⟨0, 1, 0⟩, ⟨0, 2, 1⟩, ⟨1, 3, 2⟩]

theorem agedSim_order : agedSim.order = agedOrder := List.mergeSort_of_pairwise (by decide)

/-- At 3 the second process has waited long enough to go before the third. -/
def agedTimeline : List Segment :=
  [⟨0, 3, some 0, .run⟩, ⟨3, 4, some 1, .cs⟩, ⟨4, 5, some 1, .run⟩, ⟨5, 6, some 2, .cs⟩,
    ⟨6, 8, some 2, .run⟩, ⟨8, 9, some 1, .cs⟩, ⟨9, 10, some 1, .run⟩]

theorem agedSim_seen :
    ((agedSim.policy.create agedSim.initView agedSim.params).toOption.bind fun s =>
      (agedSim.settledAfter s agedOrder 8).map fun e =>
        (agedSim.running e, (agedSim.appendTrailing e 0).fail,
          ((agedSim.appendTrailing e 0).timelines 0).reverse)) =
      some (false, .ok, agedTimeline) := by
  decide +kernel

theorem agedSim_succeeds :
    ∃ s, Started agedSim s ∧ ∃ r, agedSim.simRun = .ok r ∧ r.timelines 0 = agedTimeline := by
  obtain ⟨s, created, run⟩ := Option.bind_eq_some_iff.mp agedSim_seen
  obtain ⟨e, run, seen⟩ := Option.map_eq_some_iff.mp run
  simp only [Prod.mk.injEq] at seen
  obtain ⟨stops, ok, timeline⟩ := seen
  have started : Started agedSim s :=
    ⟨agedWorkload_valid.validates, rfl, eq_ok_of_toOption created⟩
  exact ⟨s, started, _, started.simRun_settledAfter agedSim_order (by decide) run stops ok,
    timeline⟩

/-! ## Whole runs -/

/-- The engine runs a policy and its class alike: the ring buffers, heaps, treap and ticket
tree of the policies against the lists of the reference. -/
theorem simRun_class (S : Sim D) {R : Policy D} (cls : ReferenceClass S S.policy R)
    (admitted : S.params.Admitted)
    (exact_ : S.policy.usesEstimates = true → S.opt.predict = .oracle)
    {state : S.policy.State} (started : Started S state) (r : SimResult) :
    (S.withPolicy R).simRun = .ok r ↔ S.simRun = .ok r := by
  obtain ⟨t, RInv, same⟩ := Started.reference (P := S.policy) started cls admitted exact_
  exact same.simRun_iff r

/-- The engine runs `prio` on three processes as it runs its class. -/
theorem agedSim_class : ∃ r, agedSim.simRun = .ok r ∧ r.timelines 0 = agedTimeline ∧
    (agedSim.withPolicy refPrio).simRun = .ok r := by
  obtain ⟨state, started, r, success, timeline⟩ := agedSim_succeeds
  exact ⟨r, success, timeline, (simRun_class agedSim (.prio agedSim_basesFit) agedSim_admitted
    (fun uses => absurd uses (by decide)) started r).mpr success⟩

/-- A successful run of a policy that lets slices run is what the reference simulates: its
tick-by-tick loop over the class of the policy ends, with the same ticks on every core, the
same start and completion times, the same number of switches and the same switching time. -/
theorem simRun_reference (S : Sim D) {R : Policy D}
    (cls : ReferenceClass S S.policy R) (still : S.policy.preemptOnReady = false)
    (admitted : S.params.Admitted)
    (exact_ : S.policy.usesEstimates = true → S.opt.predict = .oracle)
    {r : SimResult} (success : S.simRun = .ok r) :
    ∃ fuel state ref, R.create S.initView S.params = .ok state ∧
      (S.withPolicy R).refSimulate fuel state = some ref ∧ Agrees (S.withPolicy R) ref r := by
  obtain ⟨s, started⟩ := started_of_ok success
  obtain ⟨t, RInv, same⟩ := Started.reference (P := S.policy) started cls admitted exact_
  have success' := (same.simRun_iff r).mpr success
  obtain ⟨fuel, ref, e, simulated, agrees, -⟩ := same.launched.tickLoop same.started
    ((cls.unwatching still).calm same.launched.contract) success'
  exact ⟨fuel, t, ref, same.started.created, simulated, agrees⟩

/-- The reference simulates their run tick by tick. -/
theorem agedSim_reference : ∃ r fuel ref, agedSim.simRun = .ok r ∧
    (agedSim.withPolicy refPrio).refSimulate fuel
      (⟨1, [], fun _ => 0, fun _ => 0⟩ : RefPriority) = some ref ∧
    Agrees (agedSim.withPolicy refPrio) ref r ∧ r.timelines 0 = agedTimeline := by
  obtain ⟨s, started, r, success, timeline⟩ := agedSim_succeeds
  obtain ⟨fuel, state, ref, created, simulated, agrees⟩ := simRun_reference agedSim
    (.prio agedSim_basesFit) rfl agedSim_admitted (fun uses => absurd uses (by decide)) success
  cases created
  exact ⟨r, fuel, ref, success, simulated, agrees, timeline⟩

end Sim

end CpuSched
