import CpuSched.Policies.CfsFairness
import CpuSched.Policies.SjfOptimal
import CpuSched.Policy.Watch

/-!
# The keys of the heaps

The comparators of the heaps read arrays that the engine and the policies keep changing.
Only keys of processes outside a heap change, so at every hook call each heap is in order
under the current values, and what is popped is the least entry as of that instant.
-/

namespace CpuSched

/-- `(key, pid)` of `p` is smaller than that of `q`. -/
def Workload.BeforeByPid (w : Workload) (key : Nat → Int) (p q : Nat) : Prop :=
  key p < key q ∨ (key p = key q ∧ (w.proc p).pid < (w.proc q).pid)

namespace Sim

variable {D : Type} [Double D] {S : Sim D} {PInv : SchedView D → S.policy.State → Places → Prop}

/-! ## The blocked processes -/

/-- The blocked heap is in order under the current wake times. -/
def BlockedOrdered (e : S.Eng) : Prop :=
  HeapOrdered (S.blockedLess e.wake) e.blocked.items e.blocked.len

/-- The blocked heap is in order before and after the step; a process that leaves it is
due now, and the first of those in it by `(wake, pid)`. -/
structure WakesInOrder (a b : S.Config) : Prop where
  before : BlockedOrdered a.eng
  after : BlockedOrdered b.eng
  first : ∀ p ∈ a.eng.blocked.toList, p ∉ b.eng.blocked.toList → a.eng.wake p = a.eng.now ∧
    ∀ q ∈ a.eng.blocked.toList, q ≠ p → a.eng.wake p < a.eng.wake q ∨
      (a.eng.wake p = a.eng.wake q ∧ (S.w.proc p).pid < (S.w.proc q).pid)

omit [Double D] in
theorem blockedLess_iff (wake : Nat → Int) (p q : Nat) : S.blockedLess wake p q = true ↔
    wake p < wake q ∨ (wake p = wake q ∧ (S.w.proc p).pid < (S.w.proc q).pid) := by
  unfold blockedLess
  split_ifs with differ
  · simp only [decide_eq_true_eq]
    omega
  · simp only [decide_eq_true_eq]
    omega

/-- A move takes the first process off the blocked heap, or none. -/
theorem Move.wakesInOrder (valid : S.w.Valid) (hcs : 0 ≤ S.opt.csCost)
    (contract : Contract S.w S.policy PInv) {budget : Int} {a b : S.Config} (move : S.Move a b)
    (sound : S.Sound PInv budget a) : WakesInOrder a b := by
  have sound' := move.sound valid hcs contract sound
  refine ⟨sound.blocked.ordered, sound'.blocked.ordered, fun p mem left => ?_⟩
  have blocked := (sound.blocked.mem_iff p).mp mem
  have woken : b.spots p ≠ .blocked := fun still => left ((sound'.blocked.mem_iff p).mpr still)
  cases move with
  | @wake e sp r heap state popped due hook =>
      have inside : ∀ q ∈ e.blocked.toList, q < S.w.len := fun q hq =>
        sound.inside fun new => by cases ((sound.blocked.mem_iff q).mp hq).symm.trans new
      obtain ⟨-, root, -⟩ := sound.blocked.pop (blockedLess_total valid _)
        (fun q hq => sound.inside fun h => by cases hq.symm.trans h) popped (z := .ready) (by simp)
      have same : p = r := by
        by_contra ne
        exact woken (by simpa [ne] using blocked)
      subst same
      refine ⟨le_antisymm due (sound.blocked.wake_ge p blocked), fun q hq ne => ?_⟩
      rw [← blockedLess_iff, root]
      exact Heap.root_least (blockedLess_total valid _) sound.blocked.ordered inside q hq
        (root ▸ ne)
  | @arrive e sp key rest state pending due hook =>
      have new : sp key.index = .new := ((sound.pending.mem_iff key.index).mp
        (List.mem_map_of_mem (pending ▸ List.mem_cons_self))).2
      have ne : p ≠ key.index := by
        rintro rfl
        cases new.symm.trans blocked
      exact absurd (by simpa [ne] using blocked) woken
  | @preempt e sp c r s f state seat =>
      have ne : p ≠ r := by
        rintro rfl
        cases seat.symm.trans blocked
      exact absurd (by simpa [ne] using blocked) woken
  | @block e sp c r s heap state seat =>
      by_cases same : p = r
      · exact absurd (by simp [same]) woken
      · exact absurd (by simpa [same] using blocked) woken
  | @complete e sp c r s state seat =>
      have ne : p ≠ r := by
        rintro rfl
        cases seat.symm.trans blocked
      exact absurd (by simpa [ne] using blocked) woken
  | mark => exact absurd blocked woken
  | start => exact absurd blocked woken
  | @pick e sp s state hook early =>
      have ready := (sound.pick contract hook early).1
      have ne : p ≠ s.proc := by
        rintro rfl
        cases ready.symm.trans blocked
      exact absurd (by simpa [ne] using blocked) woken
  | refuse => exact absurd blocked woken
  | @place e sp c s held =>
      have ne : p ≠ s.proc := by
        rintro rfl
        cases held.symm.trans blocked
      exact absurd (by simpa [ne] using blocked) woken

/-- In every run processes wake in the order of `(wake, pid)`. -/
theorem Launched.wakesInOrder {state : S.policy.State} (launched : Launched S PInv state) :
    EachMove S state WakesInOrder :=
  launched.eachMove (I := fun _ => True) trivial (fun _ _ _ => trivial) (fun _ => trivial)
    fun move sound _ =>
      move.wakesInOrder launched.valid launched.options.cs_nonneg launched.contract sound

/-! ## The ready processes -/

/-- The simulation that also keeps the log of the calls and what the hooks see. -/
abbrev watching (S : Sim D) : Sim D := S.withPolicy S.policy.logged.watched

/-- The heap is in order under the comparator with the view and the state of the moment. -/
def ReadyOrdered {σ : Type} (heap : σ → Heap) (less : SchedView D → σ → Nat → Nat → Bool)
    (v : SchedView D) (s : σ) : Prop :=
  HeapOrdered (less v s) (heap s).items (heap s).len

/-- In every run the heaps are in order, in every state and at every hook call, and each
pick is the least process of the ready ones. -/
structure HeapsStable (S : Sim D) (heap : S.policy.State → Heap)
    (less : SchedView D → S.policy.State → Nat → Nat → Bool)
    (Ahead : SchedView D → S.policy.State → Nat → Nat → Prop) (state : S.policy.State) : Prop where
  watches : ∀ point e, Reached S state point e →
    ∃ e', Reached S.watching ⟨⟨state, []⟩, []⟩ point e' ∧ e'.map (Logged.state ∘ Watched.state) = e
  ordered : ∀ point e, Reached S state point e → ReadyOrdered heap less (S.view e) e.state
  calls : ∀ point e, Reached S.watching ⟨⟨state, []⟩, []⟩ point e → ∀ x ∈ e.state.seen,
    ReadyOrdered heap less x.view x.before.state ∧ ReadyOrdered heap less x.view x.after.state
  picks : ∀ point e, Reached S.watching ⟨⟨state, []⟩, []⟩ point e → ∀ x ∈ e.state.seen,
    ∀ slice, x.call = .hook (.slice slice) → ∃ queue, queued x.before.log = some queue ∧
      slice.proc ∈ queue ∧ ∀ q ∈ queue, q ≠ slice.proc → Ahead x.view x.before.state slice.proc q
  wakes : EachMove S state WakesInOrder

/-- What a policy with a heap has to provide: its contract keeps the heap in order, its
picks are pops, and the comparator is a total order with a meaning. -/
structure HeapPolicy (w : Workload) (P : Policy D) (Inv : SchedView D → P.State → Places → Prop)
    (heap : P.State → Heap) (less : SchedView D → P.State → Nat → Nat → Bool)
    (Ahead : SchedView D → P.State → Nat → Nat → Prop) : Prop where
  contract : Contract w P Inv
  ready : ∀ {v s pl}, Inv v s pl → HeapReady w.len (less v s) True (heap s) pl
  total : ∀ {v s pl}, Inv v s pl → ViewOk w v pl → StrictTotalOn (less v s) (· < w.len)
  pop : ∀ {v s s' slice}, P.nextSlice v s = some (s', some slice) →
    (heap s).isEmpty = false ∧ ∃ rest, heapPop (less v s) (heap s) = some (slice.proc, rest)
  ahead : ∀ {v s pl p q}, Inv v s pl → ViewOk w v pl → less v s p q = true → Ahead v s p q

/-- Such a policy has stable heaps in every run. -/
theorem HeapPolicy.stable {Inv : SchedView D → S.policy.State → Places → Prop}
    {heap : S.policy.State → Heap} {less : SchedView D → S.policy.State → Nat → Nat → Bool}
    {Ahead : SchedView D → S.policy.State → Nat → Nat → Prop} {state : S.policy.State}
    (source : HeapPolicy S.w S.policy Inv heap less Ahead) (started : Started S state)
    (start : Inv S.initView state fun _ => .new) : HeapsStable S heap less Ahead state := by
  have valid : S.w.Valid := workloadValidate_ok started.validated
  have options := checkOptions_ok valid started.options
  have launched : Launched S Inv state := ⟨valid, options, source.contract, start⟩
  have watching : Launched S.watching (WatchedInv S.w S.policy.logged (LoggedInv Inv))
    ⟨⟨state, []⟩, []⟩ :=
    ⟨valid, ⟨options.cores_pos, options.segments_pos, options.cs_nonneg, options.cs_le⟩,
      source.contract.logged.watched, ⟨⟨start, [], rfl, Holds.nil⟩, by simp⟩⟩
  have sees : ∀ point e, Reached S.watching ⟨⟨state, []⟩, []⟩ point e → ∀ x ∈ e.state.seen,
      Seen.Sound S.w S.policy.logged (LoggedInv Inv) x := by
    intro point e reached
    obtain ⟨sp, course, -⟩ := reached.course watching RunInv.true
    obtain ⟨budget, sound⟩ := course.sound
    have policy : WatchedInv S.w S.policy.logged (LoggedInv Inv) _ e.state _ := sound.policy
    exact policy.seen
  refine ⟨fun point e reached => ?_, fun point e reached => ?_, fun point e reached x mem => ?_,
    fun point e reached x mem slice call => ?_, launched.wakesInOrder⟩
  · obtain ⟨e₁, rfl, reached₁⟩ := Reached.lift S.policy.logged_projects
      (show Reached S (Logged.state (⟨state, []⟩ : Logged S.policy.State)) point e from reached)
    obtain ⟨e₂, rfl, reached₂⟩ := Reached.lift (S := S.logged) S.policy.logged.watched_projects
      (show Reached S.logged
        (Watched.state (⟨⟨state, []⟩, []⟩ : Watched D (Logged S.policy.State))) point e₁
        from reached₁)
    exact ⟨e₂, reached₂, rfl⟩
  · obtain ⟨sp, course, -⟩ := reached.course launched RunInv.true
    obtain ⟨budget, sound⟩ := course.sound
    exact (source.ready sound.policy).heapOrdered trivial
  · obtain ⟨⟨pl, -, before⟩, ⟨pl', after⟩, -⟩ := sees point e reached x mem
    exact ⟨(source.ready before.inv).heapOrdered trivial,
      (source.ready after.inv).heapOrdered trivial⟩
  · obtain ⟨⟨pl, ok, before⟩, -, answer⟩ := sees point e reached x mem
    obtain ⟨queue, replay, holds⟩ := before.log
    obtain ⟨⟨s', r⟩, run, eq⟩ := Option.map_eq_some_iff.mp (answer slice call)
    obtain rfl : r = some slice := by
      cases r with
      | none => cases (Prod.mk.inj eq).2
      | some slice' => exact (Prod.mk.inj eq).2
    obtain ⟨nonempty, rest, popped⟩ := source.pop run
    obtain ⟨p, rest', popped', isReady, -, least⟩ := (source.ready before.inv).pop ok.ready_lt
      (fun _ => source.total before.inv ok) nonempty (z := fun _ => .done) (by simp)
    obtain ⟨rfl, -⟩ := Prod.mk.inj (Option.some.inj (popped'.symm.trans popped))
    refine ⟨queue, replay, (holds.mem_iff _).mpr isReady, fun q hq ne => source.ahead
      before.inv ok ?_⟩
    exact least trivial q ((holds.mem_iff q).mp hq) ne

/-! ## The four policies -/

section Policies

variable {w : Workload}

omit [Double D] in
/-- A pop of the whole burst is a pop. -/
theorem popWholeBurst_pop {less : Nat → Nat → Bool} {v : SchedView D} {s s' : Heap} {slice : Slice}
    (run : popWholeBurst less v s = some (s', some slice)) :
    s.isEmpty = false ∧ ∃ rest, heapPop less s = some (slice.proc, rest) := by
  unfold popWholeBurst at run
  split_ifs at run with empty
  · cases run
  · obtain ⟨⟨p, rest⟩, popped, eq⟩ := Option.map_eq_some_iff.mp run
    cases eq
    exact ⟨by simpa using empty, s', popped⟩

omit [Double D] in
/-- `(key, arrival, pid)` of the first is smaller. -/
theorem before_of_lessByArrival {v : SchedView D} {pl : Places} (ok : ViewOk w v pl)
    (key : Nat → Int)
    {p q : Nat} (less : lessByArrival v (cmpInt (key p) (key q)) p q = true) :
    w.Before key p q := by
  have before := (lessByArrival_iff v key p q).mp less
  rwa [ok.procs_eq] at before

variable (valid : w.Valid)
include valid

/-- SJF with exact bursts picks by `(burst, arrival, pid)`. -/
theorem sjf_heapPolicy : HeapPolicy (D := D) w policySjf (SjfInv w) id (fun v _ => sjfLess v)
    fun v _ => w.Before v.burstLen where
  contract := sjf_oracle valid
  ready {v s pl} inv := ⟨inv.1.cap_eq, inv.1.holds, fun _ => inv.1.heapOrdered inv.2⟩
  total inv ok := sjfLess_total valid ok.procs_eq inv.2
  pop run := popWholeBurst_pop run
  ahead {v s pl p q} inv ok less := by
    rw [sjfLess_oracle inv.2] at less
    exact before_of_lessByArrival ok v.burstLen less

/-- SRTF with exact bursts picks by `(remaining, arrival, pid)`. -/
theorem srtf_heapPolicy : HeapPolicy (D := D) w policySrtf
    (fun v s pl => ShortestInv srtfLess w v s pl ∧ v.predicted = none) id (fun v _ => srtfLess v)
    fun v _ => w.Before v.remaining where
  contract := (srtf_contract valid).oracle
  ready {v s pl} inv := ⟨inv.1.cap_eq, inv.1.holds, fun _ => inv.1.heapOrdered inv.2⟩
  total inv ok := srtfLess_total valid ok.procs_eq inv.2
  pop run := popWholeBurst_pop run
  ahead {v s pl p q} inv ok less := by
    rw [srtfLess_oracle inv.2] at less
    exact before_of_lessByArrival ok v.remaining less

omit [Double D] in
/-- Stride scheduling picks by `(pass, pid)`. -/
theorem stride_heapPolicy : HeapPolicy (D := D) w policyStride (StrideInv w) Stride.ready strideLess
    fun _ s => w.BeforeByPid s.pass where
  contract := stride_contract valid
  ready inv := inv.ready
  total {v s pl} _ ok := lessByPid_total valid ok.procs_eq _
  pop {v s s' slice} run := by
    have run : strideNextSlice v s = some (s', some slice) := run
    unfold strideNextSlice at run
    split_ifs at run with empty
    · cases run
    · obtain ⟨⟨p, rest⟩, popped, eq⟩ := Option.map_eq_some_iff.mp run
      cases eq
      exact ⟨by simpa using empty, rest, popped⟩
  ahead {v s pl p q} _ ok less := by
    have before := (lessByPid_iff v _ p q).mp less
    rwa [ok.procs_eq] at before

omit [Double D] in
/-- CFS picks by `(vruntime, pid)`. -/
theorem cfs_heapPolicy : HeapPolicy (D := D) w policyCfs (CfsInv w) Cfs.ready cfsLess
    fun _ s => w.BeforeByPid s.vruntime where
  contract := cfs_contract valid
  ready inv := inv.ready
  total {v s pl} _ ok := lessByPid_total valid ok.procs_eq _
  pop {v s s' slice} run := by
    obtain ⟨nonempty, ⟨rest, popped, -⟩, -⟩ := cfsNextSlice_eq run
    exact ⟨nonempty, rest, popped⟩
  ahead {v s pl p q} _ ok less := by
    have before := (lessByPid_iff v _ p q).mp less
    rwa [ok.procs_eq] at before

end Policies

/-- In every run under SJF and SRTF with exact bursts, stride scheduling and CFS, and at
every hook call of it, the ready heap and the blocked heap are in order under the current
keys; each pick is the least of the ready processes, and processes wake in the order of
`(wake, pid)`. -/
theorem heap_keys_stable (S : Sim D) :
    (S.opt.predict = .oracle → ∀ state, Started (S.withPolicy policySjf) state →
      HeapsStable (S.withPolicy policySjf) id (fun v _ => sjfLess v)
        (fun v _ => S.w.Before v.burstLen) state) ∧
    (S.opt.predict = .oracle → ∀ state, Started (S.withPolicy policySrtf) state →
      HeapsStable (S.withPolicy policySrtf) id (fun v _ => srtfLess v)
        (fun v _ => S.w.Before v.remaining) state) ∧
    (∀ state, Started (S.withPolicy policyStride) state →
      HeapsStable (S.withPolicy policyStride) Stride.ready strideLess
        (fun _ s => S.w.BeforeByPid s.pass) state) ∧
    (S.params.Admitted → ∀ state, Started (S.withPolicy policyCfs) state →
      HeapsStable (S.withPolicy policyCfs) Cfs.ready cfsLess
        (fun _ s => S.w.BeforeByPid s.vruntime) state) := by
  refine ⟨fun oracle state started => ?_, fun oracle state started => ?_, fun state started => ?_,
    fun admitted state started => ?_⟩
  all_goals have valid : S.w.Valid := workloadValidate_ok started.validated
  · exact (sjf_heapPolicy valid).stable started (sjf_launched oracle started).start
  · refine (srtf_heapPolicy valid).stable started ⟨(srtf_launched started).start, ?_⟩
    change S.initPredicted = none
    rw [initPredicted, oracle]
  · obtain ⟨-, -, start, -⟩ := started.stride_created
    exact (stride_heapPolicy valid).stable started start
  · obtain ⟨-, -, start, -⟩ := started.cfs_created admitted
    exact (cfs_heapPolicy valid).stable started start

/-- The heaps of two processes are stable under each of the policies. -/
theorem pairSim_heapsStable : (∃ state, HeapsStable (pairSim.withPolicy policySjf) id
      (fun v _ => sjfLess v) (fun v _ => twoThenOne.Before v.burstLen) state) ∧
    (∃ state, HeapsStable (pairSim.withPolicy policySrtf) id
      (fun v _ => srtfLess v) (fun v _ => twoThenOne.Before v.remaining) state) ∧
    (∃ state, HeapsStable (pairSim.withPolicy policyStride) Stride.ready strideLess
      (fun _ s => twoThenOne.BeforeByPid s.pass) state) ∧
    ∃ state, HeapsStable (pairSim.withPolicy policyCfs) Cfs.ready cfsLess
      (fun _ s => twoThenOne.BeforeByPid s.vruntime) state := by
  obtain ⟨sjf, srtf, stride, cfs⟩ := heap_keys_stable pairSim
  exact ⟨⟨_, sjf rfl _ ⟨pairSim_started.validated, rfl, rfl⟩⟩, ⟨_, srtf rfl _ pairSim_started⟩,
    ⟨_, stride _ ⟨pairSim_started.validated, rfl, rfl⟩⟩,
    ⟨_, cfs PolicyParams.admitted_default _ ⟨pairSim_started.validated, rfl, rfl⟩⟩⟩

end Sim

end CpuSched
