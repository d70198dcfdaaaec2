import CpuSched.Engine.Termination
import CpuSched.Policy.Log

/-!
# Every process is in one place

At the two points of the main loop each process is not yet admitted, in the ready
structure of the policy, on one core, in the blocked heap, or completed.  The
ready structure holds what the hooks have handed over and `next_slice` has not
returned, as the log of the calls tells.
-/

namespace CpuSched

variable {D : Type} [Double D]

/-- A simulation with a policy of the table. -/
abbrev BuiltInPolicy.sim (B : BuiltInPolicy D) (build : Build) (w : Workload)
    (params : PolicyParams)
    (opt : SimOptions D) : Sim D := ⟨build, w, B.policy, params, opt⟩

/-- The five places of a process. -/
inductive Site
  | pending
  | ready
  | core
  | blocked
  | completed
  deriving DecidableEq

/-- The place that a spot stands for; a slice that waits to be placed has none. -/
def Spot.site : Spot → Option Site
  | new => some .pending
  | ready => some .ready
  | held _ => none
  | core _ _ => some .core
  | blocked => some .blocked
  | done => some .completed

namespace Sim

/-- The engine `e` keeps process `p` at a site, where `ready` lists the ready
structure. -/
def AtSite (S : Sim D) (e : S.Eng) (ready : List Nat) (p : Nat) : Site → Prop
  | .pending => p ∈ e.pending.map ArrivalKey.index
  | .ready => p ∈ ready
  | .core => ∃ c < S.opt.cores, (e.cores c).proc = some p
  | .blocked => p ∈ e.blocked.toList
  | .completed => (e.outcomes p).completion ≠ -1

/-- Each process is in one place, no place holds a process twice or holds
anything else, and the completed processes are counted. -/
structure Placement (S : Sim D) (e : S.Eng) (ready : List Nat) : Prop where
  site : ∀ p < S.w.len, ∃! site, AtSite S e ready p site
  core : ∀ c < S.opt.cores, ∀ c' < S.opt.cores, ∀ p, (e.cores c).proc = some p →
    (e.cores c').proc = some p → c = c'
  pending_nodup : (e.pending.map ArrivalKey.index).Nodup
  ready_nodup : ready.Nodup
  blocked_nodup : e.blocked.toList.Nodup
  inside : ∀ p site, AtSite S e ready p site → p < S.w.len
  completed : e.completed =
    ((Finset.range S.w.len).filter fun p => (e.outcomes p).completion ≠ -1).card
  ready_le : ready.length ≤ S.w.len
  blocked_le : e.blocked.len ≤ S.w.len

variable {S : Sim D} {PInv : SchedView D → S.policy.State → Places → Prop}

/-! ## Completion times -/

/-- Exactly the completed processes have a completion time. -/
def Finished (a : S.Config) : Prop :=
  ∀ p, (a.eng.outcomes p).completion ≠ -1 ↔ a.spots p = .done

omit [Double D] in
/-- A move between places other than `done` that records no completion. -/
theorem Finished.congr {a b : S.Config} (finished : Finished a)
    (same : ∀ p, (b.eng.outcomes p).completion = (a.eng.outcomes p).completion)
    (spots : ∀ p, b.spots p = .done ↔ a.spots p = .done) : Finished b := by
  intro p
  rw [same, spots]
  exact finished p

omit [Double D] in
theorem update_done_iff {sp : Nat → Spot} {p : Nat} {z : Spot} (leaves : sp p ≠ .done)
    (enters : z ≠ .done) (q : Nat) : Function.update sp p z q = .done ↔ sp q = .done := by
  by_cases hq : q = p
  · subst hq
    simp [leaves, enters]
  · simp [hq]

theorem Finished.init (state : S.policy.State) : Finished (S.initConfig state) := by
  intro p
  simp [initConfig, initEngine]

theorem Finished.move (valid : S.w.Valid) (hcs : 0 ≤ S.opt.csCost)
    (contract : Contract S.w S.policy PInv) {budget : Int} {a b : S.Config} (move : S.Move a b)
    (sound : S.Sound PInv budget a) (finished : Finished a) : Finished b := by
  cases move with
  | @arrive e sp key rest state pending =>
      have new := ((sound.pending.mem_iff key.index).mp
        (List.mem_map_of_mem (pending ▸ List.mem_cons_self))).2
      exact finished.congr (fun _ => rfl)
        (update_done_iff (fun h => by cases new.symm.trans h) (by simp))
  | wake popped =>
      have blocked := (sound.blocked.pop (blockedLess_total valid _)
        (fun q hq => sound.inside fun h => by cases hq.symm.trans h) popped (z := .ready)
        (by simp)).1
      exact finished.congr (fun _ => rfl)
        (update_done_iff (fun h => by cases blocked.symm.trans h) (by simp))
  | preempt seat =>
      exact finished.congr (fun _ => by simp) (update_done_iff (by simp [seat]) (by simp))
  | block seat runs ran used more =>
      obtain ⟨-, eq⟩ := sound.startIo_eq valid seat runs used more
      rw [eq]
      exact finished.congr (fun _ => by simp [burstOver])
        (update_done_iff (by simp [seat]) (by simp))
  | @complete e sp c p s state seat =>
      have now_nonneg : 0 ≤ e.now := sound.now_nonneg
      intro q
      by_cases hq : q = p
      · subst hq
        simp only [finishProcess, burstOver, Function.update_self, chargeRun_now]
        simp only [ne_eq, iff_true]
        omega
      · simpa [finishProcess, burstOver, hq] using finished q
  | mark => exact finished.congr (fun _ => rfl) fun _ => Iff.rfl
  | @start e sp c p s deadline seat switching =>
      rw [sound.startRun_eq valid seat switching]
      refine finished.congr (fun q => ?_) fun _ => Iff.rfl
      by_cases hq : q = p
      · subst hq
        simp
      · simp [hq]
  | pick hook early =>
      have ready := (sound.pick contract hook early).1
      exact finished.congr (fun _ => rfl)
        (update_done_iff (fun h => by cases ready.symm.trans h) (by simp))
  | refuse => exact finished.congr (fun _ => rfl) fun _ => Iff.rfl
  | @place e sp c s held core_lt free fits =>
      rw [sound.placed_eq valid hcs held fits]
      refine finished.congr (fun q => ?_) (update_done_iff (by simp [held]) (by simp))
      simp only [placedOutcomes]
      split_ifs
      · rfl
      · by_cases hq : q = s.proc
        · subst hq
          simp
        · simp [hq]

theorem Finished.runInv (valid : S.w.Valid) (hcs : 0 ≤ S.opt.csCost)
    (contract : Contract S.w S.policy PInv) : RunInv S PInv Finished where
  init state _ := .init state
  move move sound _ _ finished := finished.move valid hcs contract move sound
  advance _ _ _ _ _ finished := finished

/-! ## The places -/

omit [Double D] in
theorem Sound.atSite_iff {budget : Int} {a : S.Config} (sound : S.Sound PInv budget a)
    (finished : Finished a) {ready : List Nat} (holds : Holds (places a.spots) ready) {p : Nat}
    (hp : p < S.w.len) (site : Site) :
    AtSite S a.eng ready p site ↔ (a.spots p).site = some site := by
  have spot_iff : ∀ z : Spot, z.site = some .core ↔ ∃ c s, z = .core c s := by
    intro z
    cases z <;> simp [Spot.site]
  cases site with
  | pending =>
      rw [AtSite, sound.pending.mem_iff]
      cases h : a.spots p <;> simp [Spot.site, hp]
  | ready =>
      rw [AtSite, holds.mem_iff, places_eq_ready]
      cases h : a.spots p <;> simp [Spot.site]
  | core =>
      rw [AtSite, spot_iff]
      constructor
      · rintro ⟨c, hc, on⟩
        obtain ⟨s, seat⟩ := sound.cores.owner c hc p on
        exact ⟨c, s, seat⟩
      · rintro ⟨c, s, seat⟩
        obtain ⟨hc, hs, ok⟩ := sound.cores.seat p c s seat
        exact ⟨c, hc, ok.proc_eq.trans (congrArg some hs)⟩
  | blocked =>
      rw [AtSite, sound.blocked.mem_iff]
      cases h : a.spots p <;> simp [Spot.site]
  | completed =>
      rw [AtSite, finished p]
      cases h : a.spots p <;> simp [Spot.site]

omit [Double D] in
theorem Sound.placement {budget : Int} {a : S.Config} (sound : S.Sound PInv budget a)
    (finished : Finished a) (none : NoneHeld a) {ready : List Nat}
    (holds : Holds (places a.spots) ready) : Placement S a.eng ready := by
  have inside : ∀ p site, AtSite S a.eng ready p site → p < S.w.len := by
    intro p site at_
    by_contra hp
    have new := sound.outside p (by omega)
    cases site with
    | pending => exact hp ((sound.pending.mem_iff p).mp at_).1
    | ready =>
        cases (places_eq_ready.mp ((holds.mem_iff p).mp at_)).symm.trans new
    | core =>
        obtain ⟨c, hc, on⟩ := at_
        obtain ⟨s, seat⟩ := sound.cores.owner c hc p on
        cases seat.symm.trans new
    | blocked => cases ((sound.blocked.mem_iff p).mp at_).symm.trans new
    | completed => cases ((finished p).mp at_).symm.trans new
  have le_of_inside : ∀ {l : List Nat}, l.Nodup → (∀ p ∈ l, p < S.w.len) → l.length ≤ S.w.len := by
    intro l nodup bound
    have subset : l ⊆ List.range S.w.len := fun p hp => List.mem_range.mpr (bound p hp)
    simpa using (List.subperm_of_subset nodup subset).length_le
  refine ⟨fun p hp => ?_, fun c hc c' hc' p on on' => ?_, sound.pending.nodup, holds.nodup,
    sound.blocked.nodup, inside, ?_, le_of_inside holds.nodup fun p hp => inside p .ready hp, ?_⟩
  · obtain ⟨site, hsite⟩ : ∃ site, (a.spots p).site = some site := by
      cases h : a.spots p with
      | held s => exact absurd h (none p s)
      | _ => exact ⟨_, rfl⟩
    refine ⟨site, (sound.atSite_iff finished holds hp site).mpr hsite, fun other at_ => ?_⟩
    have := (sound.atSite_iff finished holds hp other).mp at_
    exact Option.some.inj (this.symm.trans hsite)
  · obtain ⟨s, seat⟩ := sound.cores.owner c hc p on
    obtain ⟨s', seat'⟩ := sound.cores.owner c' hc' p on'
    exact (Spot.core.inj (seat.symm.trans seat')).1
  · rw [sound.completed_eq]
    refine congrArg Finset.card (Finset.filter_congr fun p _ => ?_)
    exact (finished p).symm
  · have := le_of_inside sound.blocked.nodup fun p hp => inside p .blocked hp
    simpa [Heap.toList] using this

/-- In every run of a built-in policy, at both points of the main loop, each
process is in one of five places.  The ready structure, and the log of the hook
calls when replayed, hold the same processes, each once; in particular no hook
ever hands over a process that is in the ready set already. -/
theorem reached_placement {realloc : Nat → Bool} {B : BuiltInPolicy D}
    (builtIn : B ∈ builtInPolicies realloc) {build : Build} {w : Workload} {params : PolicyParams}
    {opt : SimOptions D} (admitted : params.Admitted) {state : B.policy.State}
    (started : Started (B.sim build w params opt) state) {point : LoopPoint}
    {e : Engine D B.policy.State} (reached : Reached (B.sim build w params opt) state point e) :
    ∃ (e' : Engine D B.policy.logged.State) (ready queue : List Nat),
      Reached ((B.sim build w params opt).withPolicy B.policy.logged) ⟨state, []⟩ point e' ∧
      e'.map Logged.state = e ∧ queued e'.state.log = some queue ∧ queue.Perm ready ∧
      B.stores e.state ready ∧ Placement (B.sim build w params opt) e ready := by
  have valid := workloadValidate_ok started.validated
  have options := checkOptions_ok valid started.options
  obtain ⟨Inv, contract, start, stores⟩ := builtIn_lawful valid builtIn admitted
    (v := (B.sim build w params opt).initView) rfl rfl state started.created
  have launched : Launched ((B.sim build w params opt).withPolicy B.policy.logged) (LoggedInv Inv)
      ⟨state, []⟩ :=
    ⟨valid, ⟨options.cores_pos, options.segments_pos, options.cs_nonneg, options.cs_le⟩,
      contract.logged, start, [], rfl, Holds.nil⟩
  obtain ⟨e', rfl, reached'⟩ := Reached.lift B.policy.logged_projects
    (S := B.sim build w params opt) (show Reached _ (Logged.state (⟨state, []⟩ :
      Logged B.policy.State)) point e from reached)
  obtain ⟨sp, course, finished⟩ := reached'.course launched
    (Finished.runInv valid options.cs_nonneg contract.logged)
  obtain ⟨budget, sound⟩ := course.sound
  have viewOk := sound.viewOk (e := e') rfl fun _ _ => rfl
  obtain ⟨inv, queue, replay, held⟩ := sound.policy
  obtain ⟨ready, stored, holds⟩ := stores inv viewOk
  have perm : queue.Perm ready :=
    (List.perm_ext_iff_of_nodup held.nodup holds.nodup).mpr fun p => by
      rw [held.mem_iff, holds.mem_iff]
  have placement := sound.placement finished course.settled.noneHeld holds
  exact ⟨e', ready, queue, reached', rfl, replay, perm, stored, placement.site, placement.core,
    placement.pending_nodup, placement.ready_nodup, placement.blocked_nodup, placement.inside,
    placement.completed, placement.ready_le, placement.blocked_le⟩

theorem trioSim_fifth : ((trioSim.settledAfter ⟨queueInit 3, 2⟩ trioOrder 4).map fun e =>
    (e.now, e.blocked.toList, e.completed, e.state.ready.toList)) = some (4, [0], 1, [1]) := by
  decide +kernel

/-- At the clock 4 the first process is blocked, the second one ready and the third one done. -/
theorem trioSim_placement : ∃ e, Reached trioSim ⟨queueInit 3, 2⟩ .settled e ∧
    e.now = 4 ∧ e.blocked.toList = [0] ∧ e.completed = 1 ∧
    Placement trioSim e [1] := by
  obtain ⟨e, run, seen⟩ := Option.map_eq_some_iff.mp trioSim_fifth
  simp only [Prod.mk.injEq] at seen
  obtain ⟨now, blocked, completed, stored⟩ := seen
  have reached := Reached.settledAfter trioSim_order run
  have member : (⟨policyRr, rrStores⟩ : BuiltInPolicy Float) ∈ builtInPolicies fun _ => true := by
    simp [builtInPolicies]
  obtain ⟨-, ready, -, -, -, -, -, stores, placement⟩ := reached_placement member
    PolicyParams.admitted_default trioSim_started reached
  have ready_eq : e.state.ready.toList = ready := stores
  rw [← ready_eq, stored] at placement
  exact ⟨e, reached, now, blocked, completed, placement⟩

end Sim

end CpuSched
