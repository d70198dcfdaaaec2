import CpuSched.Engine.AlikeRuns
import CpuSched.Policies.RoundRobinWaiting
import CpuSched.Reference.Lockstep

/-!
# First in, first out

A process becomes ready when it arrives, when its I/O ends or when its slice ends before
its burst does.  The engine hands the processes that become ready at one instant to the
policy in this order, the first two by pid and the last by core; FCFS and round robin
return them in the order in which they were handed over.
-/

namespace CpuSched

variable {D : Type}

/-! ## Processes that become ready -/

/-- Why a process becomes ready. -/
inductive JoinKind
  | arrived
  | woken
  /-- The slice on this core ended before the burst did. -/
  | expired (core : Nat)
  deriving DecidableEq

/-- A process becomes ready. -/
structure Join where
  time : Int
  kind : JoinKind
  proc : Nat
  deriving DecidableEq

/-- Arrivals come first, then the ends of I/O, then the ends of slices. -/
def JoinKind.rank : JoinKind → Nat
  | .arrived => 0
  | .woken => 1
  | .expired _ => 2

/-- Within a kind the pid counts, or the core. -/
def Join.key (w : Workload) (j : Join) : Int :=
  match j.kind with
  | .expired c => c
  | _ => (w.proc j.proc).pid

/-- The order of the joins: by time, kind, and pid or core. -/
def Join.Before (w : Workload) (i j : Join) : Prop :=
  i.time < j.time ∨ (i.time = j.time ∧ (i.kind.rank < j.kind.rank ∨
    (i.kind.rank = j.kind.rank ∧ i.key w < j.key w)))

namespace Sim

variable {S : Sim D}

/-! ## What one instant hands over -/

/-- `e'` comes from `e` at the same time, after the processes of `l` were handed over. -/
structure Hands (e e' : S.logged.Eng) (l : List Nat) : Prop where
  now_eq : e'.now = e.now
  handed_eq : handed e'.state.log = handed e.state.log ++ l.map fun p => (e.now, p)

theorem Hands.refl (e : S.logged.Eng) : Hands e e [] := ⟨rfl, (List.append_nil _).symm⟩

theorem Hands.trans {e e₁ e₂ : S.logged.Eng} {l l' : List Nat} (first : Hands e e₁ l)
    (then_ : Hands e₁ e₂ l') : Hands e e₂ (l ++ l') := by
  refine ⟨then_.now_eq.trans first.now_eq, ?_⟩
  rw [then_.handed_eq, first.handed_eq, first.now_eq, List.map_append, List.append_assoc]

/-- `admit_arrivals` hands over the pending processes that are due. -/
theorem admitArrivals_hands {pending : List ArrivalKey} {e e' : S.logged.Eng} {any : Bool}
    (run : S.logged.admitArrivals pending e = some (e', any)) :
    Hands e e' ((pending.takeWhile fun key => key.arrival ≤ e.now).map ArrivalKey.index) ∧
      ∃ state rest, e' = { e with state, pending := rest } := by
  induction pending generalizing e e' any with
  | nil =>
      cases run
      exact ⟨.refl e, _, _, rfl⟩
  | cons key rest ih =>
      rw [Sim.admitArrivals] at run
      by_cases due : key.arrival ≤ e.now
      · rw [if_pos due] at run
        obtain ⟨e₁, hooked, run⟩ := Option.bind_eq_some_iff.mp run
        obtain ⟨⟨e₂, any'⟩, admitted, run⟩ := Option.bind_eq_some_iff.mp run
        cases run
        obtain ⟨s, call, rfl⟩ := Option.map_eq_some_iff.mp hooked
        obtain ⟨state, -, rfl⟩ := Option.map_eq_some_iff.mp call
        obtain ⟨hands, state', rest', eq⟩ := ih admitted
        refine ⟨?_, state', rest', eq⟩
        rw [List.takeWhile_cons_of_pos (by simpa using due), List.map_cons]
        refine ⟨hands.now_eq, ?_⟩
        rw [hands.handed_eq]
        dsimp only [Logged.push]
        rw [handed_cons, List.append_assoc]
        rfl
      · rw [if_neg due] at run
        cases run
        rw [List.takeWhile_cons_of_neg (by simpa using due)]
        exact ⟨.refl e, _, _, rfl⟩

/-- The call of a wake-up hands the process over. -/
theorem wakeHook_handed {P : Policy D} {v : SchedView D} {s s' : Logged P.State} {p : Nat}
    (run : P.logged.wakeHook v s p = some s') : handed s'.log = handed s.log ++ [(v.now, p)] := by
  cases ready : P.onReady with
  | none =>
      simp only [Policy.wakeHook, Policy.logged, ready, Option.map_none, Option.getD_none] at run
      obtain ⟨state, -, rfl⟩ := Option.map_eq_some_iff.mp run
      exact handed_cons _ _
  | some f =>
      simp only [Policy.wakeHook, Policy.logged, ready, Option.map_some, Option.getD_some] at run
      obtain ⟨state, -, rfl⟩ := Option.map_eq_some_iff.mp run
      exact handed_cons _ _

/-- The processes whose I/O ends now, by pid. -/
def wakesAt (S : Sim D) {σ : Type} (e : Engine D σ) : List Nat :=
  S.sortedPids fun p => decide (p ∈ e.blocked.toList ∧ e.wake p = e.now)

theorem wakesAt_nil {σ : Type} {e : Engine D σ} (later : ∀ q ∈ e.blocked.toList, e.wake q ≠ e.now) :
    wakesAt S e = [] :=
  sortedPids_nil fun q _ => by
    rw [decide_eq_false_iff_not]
    exact fun due => later q due.1 due.2

/-- The root of the blocked heap wakes first. -/
theorem wakesAt_pop (valid : S.w.Valid) {σ : Type} {e : Engine D σ} {sp : Nat → Spot} {heap : Heap}
    {p : Nat} (ok : BlockedOk S.w.len (S.blockedLess e.wake) e.now e.wake e.blocked sp)
    (inside : ∀ q, sp q = .blocked → q < S.w.len)
    (popped : heapPop (S.blockedLess e.wake) e.blocked = some (p, heap)) (due : e.wake p ≤ e.now) :
    wakesAt S e = p :: wakesAt S { e with blocked := heap } := by
  have nonempty : 0 < e.blocked.len := by
    by_contra empty
    simp [heapPop, empty] at popped
  have members : ∀ q ∈ e.blocked.toList, q < S.w.len :=
    fun q mem => inside q ((ok.mem_iff q).mp mem)
  obtain ⟨h', popped', perm, -⟩ := heapPop_spec (S.blockedLess e.wake) nonempty
  obtain ⟨rfl, rfl⟩ : p = e.blocked.items 0 ∧ heap = h' := by
    have both := Option.some.inj (popped.symm.trans popped')
    exact ⟨congrArg Prod.fst both, congrArg Prod.snd both⟩
  have nodup := (perm.nodup_iff.mp ok.nodup)
  obtain ⟨outside, nodup⟩ := List.nodup_cons.mp nodup
  have root : e.blocked.items 0 ∈ e.blocked.toList := perm.mem_iff.mpr List.mem_cons_self
  have wake_eq : e.wake (e.blocked.items 0) = e.now :=
    le_antisymm due (ok.wake_ge _ ((ok.mem_iff _).mp root))
  unfold wakesAt
  refine sortedPids_eq valid (fun q => ?_) (List.pairwise_cons.mpr ⟨fun q mem => ?_,
    sortedPids_sorted valid _⟩)
  · rw [List.mem_cons, mem_sortedPids, decide_eq_true_eq, decide_eq_true_eq,
      perm.mem_iff, List.mem_cons]
    constructor
    · rintro (rfl | ⟨hq, mem, at_⟩)
      · exact ⟨members _ root, .inl rfl, wake_eq⟩
      · exact ⟨hq, .inr mem, at_⟩
    · rintro ⟨hq, rfl | mem, at_⟩
      · exact .inl rfl
      · exact .inr ⟨hq, mem, at_⟩
  · obtain ⟨hq, due'⟩ := mem_sortedPids.mp mem
    rw [decide_eq_true_eq] at due'
    have ne : q ≠ e.blocked.items 0 := by
      rintro rfl
      exact outside due'.1
    have less := Heap.root_least (blockedLess_total valid e.wake) ok.ordered members q
      (perm.mem_iff.mpr (List.mem_cons_of_mem _ due'.1)) ne
    have same : e.wake (e.blocked.items 0) = e.wake q := wake_eq.trans due'.2.symm
    simpa [blockedLess, same] using less

/-- `wake_blocked` hands over the processes whose I/O ends, by pid. -/
theorem wakeBlocked_hands (valid : S.w.Valid) {fuel : Nat} {e e' : S.logged.Eng} {any : Bool}
    {sp : Nat → Spot} (ok : BlockedOk S.w.len (S.blockedLess e.wake) e.now e.wake e.blocked sp)
    (inside : ∀ q, sp q = .blocked → q < S.w.len) (enough : e.blocked.len ≤ fuel)
    (run : S.logged.wakeBlocked fuel e = some (e', any)) :
    Hands e e' (wakesAt S e) ∧ ∃ state blocked, e' = { e with state, blocked } := by
  induction fuel generalizing e sp any with
  | zero =>
      obtain ⟨rfl, rfl⟩ := Prod.mk.inj (Option.some.inj run)
      have none : wakesAt S e = [] := wakesAt_nil fun q mem => by
        obtain ⟨i, hi, -⟩ := Heap.mem_toList.mp mem
        omega
      rw [none]
      exact ⟨.refl e, _, _, rfl⟩
  | succ fuel ih =>
      rw [Sim.wakeBlocked] at run
      by_cases due : e.blocked.isEmpty = false ∧ e.wake (e.blocked.items 0) ≤ e.now
      · rw [if_pos due] at run
        obtain ⟨⟨p, heap⟩, popped, run⟩ := Option.bind_eq_some_iff.mp run
        obtain ⟨e₁, hooked, run⟩ := Option.bind_eq_some_iff.mp run
        obtain ⟨⟨e₂, any'⟩, woken, run⟩ := Option.bind_eq_some_iff.mp run
        cases run
        obtain ⟨s, call, rfl⟩ := Option.map_eq_some_iff.mp hooked
        have popped : heapPop (S.blockedLess e.wake) e.blocked = some (p, heap) := popped
        obtain ⟨-, root, ok'⟩ := ok.pop (blockedLess_total valid e.wake) inside popped
          (z := .ready) (by simp)
        obtain ⟨h', popped', -, -, len_eq⟩ := heapPop_spec (S.blockedLess e.wake)
          (Heap.isEmpty_eq_false_iff.mp due.1)
        have heap_eq : heap = h' := congrArg Prod.snd (Option.some.inj (popped.symm.trans popped'))
        obtain ⟨hands, state', blocked', eq⟩ := ih (e := { e with blocked := heap, state := s }) ok'
          (fun q hq => inside q (by
            by_cases same : q = p
            · subst same
              simp at hq
            · rwa [Function.update_of_ne same] at hq))
          (by dsimp only; rw [heap_eq]; omega) woken
        refine ⟨⟨hands.now_eq, ?_⟩, state', blocked', eq⟩
        rw [wakesAt_pop valid ok inside popped (root ▸ due.2), hands.handed_eq]
        dsimp only
        rw [wakeHook_handed call, List.append_assoc]
        rfl
      · rw [if_neg due] at run
        obtain ⟨rfl, rfl⟩ := Prod.mk.inj (Option.some.inj run)
        have none : wakesAt S e = [] := wakesAt_nil fun q mem at_ => by
          have nonempty : e.blocked.isEmpty = false := by
            obtain ⟨i, hi, -⟩ := Heap.mem_toList.mp mem
            exact Heap.isEmpty_eq_false_iff.mpr (by omega)
          refine due ⟨nonempty, ?_⟩
          by_cases root : q = e.blocked.items 0
          · rw [← root, at_]
          · have first := Heap.root_least (blockedLess_total valid e.wake) ok.ordered
              (fun q hq => inside q ((ok.mem_iff q).mp hq)) q mem root
            simp only [blockedLess] at first
            split_ifs at first with differ
            · simp only [decide_eq_true_eq] at first
              omega
            · omega
        rw [none]
        exact ⟨.refl e, _, _, rfl⟩

/-! ## Slices that end -/

section Ends

variable {e e' : S.logged.Eng} {c p : Nat}

/-- The process whose slice on core `c` ends now, before its burst does. -/
def expiredOn {σ : Type} (e : Engine D σ) (c : Nat) : Option Nat :=
  (e.cores c).proc.filter fun p => decide ((e.cores c).inCs = false ∧ (e.cores c).runEnd = e.now ∧
    e.remaining p ≠ e.now - (e.cores c).runStart)

theorem expiredOn_eq_some {σ : Type} {e : Engine D σ} : expiredOn e c = some p ↔
    (e.cores c).proc = some p ∧ (e.cores c).inCs = false ∧ (e.cores c).runEnd = e.now ∧
      e.remaining p ≠ e.now - (e.cores c).runStart := by
  rw [expiredOn, Option.filter_eq_some_iff, decide_eq_true_eq]

theorem expiredOn_congr {σ : Type} {e e' : Engine D σ} (now_eq : e'.now = e.now)
    (core_eq : e'.cores c = e.cores c)
    (remaining : ∀ p, (e.cores c).proc = some p → e'.remaining p = e.remaining p) :
    expiredOn e' c = expiredOn e c := by
  refine Option.ext fun p => ?_
  rw [expiredOn_eq_some, expiredOn_eq_some, core_eq, now_eq]
  constructor
  · rintro ⟨on, rest⟩
    exact ⟨on, by rwa [remaining p on] at rest⟩
  · rintro ⟨on, rest⟩
    exact ⟨on, by rwa [remaining p on]⟩

variable [Double D]

theorem burstDone_remaining {ran : Int} (run : S.logged.burstDone e p ran = some e') {q : Nat}
    (ne : q ≠ p) : e'.remaining q = e.remaining q := by
  simp only [burstDone] at run
  split_ifs at run with last
  · obtain ⟨s, rfl, -⟩ := optHook_frame (fun _ _ => .inr rfl) run
    rfl
  · obtain ⟨blocked, -, run⟩ := Option.bind_eq_some_iff.mp run
    obtain ⟨s, rfl, -⟩ := optHook_frame (fun _ _ => .inl rfl) run
    simp only [startIo, addTime]
    cases ckAddI64 e.now ((S.w.proc p).phase (e.phase p + 1)) with
    | none => exact Function.update_of_ne ne _ _
    | some t => exact Function.update_of_ne ne _ _

/-- The end of a slice hands its process over unless the burst ends with it. -/
theorem endRun_hands {requeued : Bool} (on : (e.cores c).proc = some p)
    (runs : (e.cores c).inCs = false) (ends : (e.cores c).runEnd = e.now)
    (run : S.logged.endRun e c = some (e', requeued)) :
    Hands e e' (expiredOn e c).toList ∧ ∀ q, q ≠ p → e'.remaining q = e.remaining q := by
  have now_eq := (endRun_frame run).1
  have others : ∀ q, q ≠ p → (S.logged.chargeRun e c p).remaining q =
    e.remaining q := fun q ne => by
    rw [chargeRun_remaining, Function.update_of_ne ne]
  simp only [endRun, on] at run
  split_ifs at run with used
  · obtain ⟨e₁, done, eq⟩ := Option.map_eq_some_iff.mp run
    obtain ⟨rfl, rfl⟩ := Prod.mk.inj eq
    have whole : expiredOn e c = none := by
      refine Option.eq_none_iff_forall_ne_some.mpr fun q here => ?_
      obtain ⟨on', -, -, left⟩ := expiredOn_eq_some.mp here
      obtain rfl := Option.some.inj (on.symm.trans on')
      rw [chargeRun_remaining, Function.update_self] at used
      omega
    obtain ⟨-, -, grown⟩ := burstDone_frame done
    refine ⟨⟨now_eq, ?_⟩, fun q ne => (burstDone_remaining done ne).trans (others q ne)⟩
    rw [handed_of_leaves grown, chargeRun_state, whole]
    exact (List.append_nil _).symm
  · have expired : expiredOn e c = some p := by
      refine expiredOn_eq_some.mpr ⟨on, runs, ends, fun same => used ?_⟩
      rw [chargeRun_remaining, Function.update_self]
      omega
    cases hook : S.policy.onPreempt with
    | none => simp [Policy.logged, hook] at run
    | some f =>
        simp only [Policy.logged, hook, Option.map_some] at run
        obtain ⟨e₁, called, eq⟩ := Option.map_eq_some_iff.mp run
        obtain ⟨rfl, rfl⟩ := Prod.mk.inj eq
        obtain ⟨s, call, rfl⟩ := Option.map_eq_some_iff.mp called
        obtain ⟨state, -, rfl⟩ := Option.map_eq_some_iff.mp call
        refine ⟨⟨now_eq, ?_⟩, others⟩
        rw [expired]
        dsimp only [Logged.push, Sim.view]
        rw [handed_cons, chargeRun_state, chargeRun_now]
        rfl

omit [Double D] in
theorem oneCoreEach_freed {σ : Type} {n : Nat} {e e' : Engine D σ} (apart : OneCoreEach n e)
    (freed : Freed e.cores e'.cores) : OneCoreEach n e' := by
  intro c hc c' hc' p on on'
  have kept : ∀ i, (e'.cores i).proc = some p → (e.cores i).proc = some p := by
    intro i on
    rcases freed i with free | same
    · cases free.symm.trans on
    · rwa [same] at on
  exact apart c hc c' hc' p (kept c on) (kept c' on')

/-- `process_instant` hands over the processes whose slices end before their bursts, by core. -/
theorem endFinished_hands {cs : List Nat} {requeued : Bool} (nodup : cs.Nodup)
    (inside : ∀ c ∈ cs, c < S.opt.cores) (apart : OneCoreEach S.opt.cores e)
    (run : S.logged.endFinished cs e = some (e', requeued)) :
    Hands e e' (cs.filterMap (expiredOn e)) := by
  induction cs generalizing e requeued with
  | nil =>
      cases run
      exact .refl _
  | cons c rest ih =>
      obtain ⟨outside, nodup⟩ := List.nodup_cons.mp nodup
      obtain ⟨hc, inside⟩ := List.forall_mem_cons.mp inside
      simp only [endFinished] at run
      split_ifs at run with elapsed
      · simp only [Option.bind_eq_bind, Option.bind_eq_some_iff] at run
        obtain ⟨⟨e₁, requeued₁⟩, ended, ⟨e₂, more⟩, later, eq⟩ := run
        obtain ⟨rfl, rfl⟩ := Prod.mk.inj (Option.some.inj eq)
        obtain ⟨p, on⟩ := Option.ne_none_iff_exists'.mp elapsed.1
        obtain ⟨now₁, -, others, -⟩ := endRun_frame ended
        obtain ⟨hands₁, remaining₁⟩ := endRun_hands on elapsed.2.1 elapsed.2.2 ended
        have hands₂ := ih nodup inside (oneCoreEach_freed apart (endRun_freed ended)) later
        have same : rest.filterMap (expiredOn e₁) = rest.filterMap (expiredOn e) := by
          refine List.filterMap_congr fun i mem => ?_
          have ne : i ≠ c := by
            rintro rfl
            exact outside mem
          refine expiredOn_congr now₁ (others i ne) fun q on' => remaining₁ q ?_
          rintro rfl
          exact ne (apart c hc i (inside i mem) q on on')
        rw [same] at hands₂
        have both := hands₁.trans hands₂
        cases expired : expiredOn e c with
        | none =>
            rw [expired] at both
            rwa [List.filterMap_cons_none expired]
        | some q =>
            rw [expired] at both
            rwa [List.filterMap_cons_some expired]
      · have none : expiredOn e c = none := by
          refine Option.eq_none_iff_forall_ne_some.mpr fun q here => elapsed ?_
          obtain ⟨on, runs, ends, -⟩ := expiredOn_eq_some.mp here
          exact ⟨by simp [on], runs, ends⟩
        rw [List.filterMap_cons_none none]
        exact ih nodup inside apart run

end Ends

/-! ## Arrivals -/

/-- The processes that are not pending have arrived. -/
def Admitted (a : S.Config) : Prop :=
  ∀ p < S.w.len, p ∉ a.eng.pending.map ArrivalKey.index → (S.w.proc p).arrival ≤ a.eng.now

/-- The pending processes that are due now, by pid. -/
theorem pending_takeWhile (valid : S.w.Valid) {now : Int} {pending : List ArrivalKey}
    {sp : Nat → Spot}
    (ok : PendingOk S.w now pending sp)
    (admitted : ∀ p < S.w.len, p ∉ pending.map ArrivalKey.index → (S.w.proc p).arrival < now) :
    (pending.takeWhile fun key => key.arrival ≤ now).map ArrivalKey.index =
      S.sortedPids fun p => decide ((S.w.proc p).arrival = now) := by
  refine due_eq_sortedPids valid ok.sorted (fun key mem => ?_) ok.arrival_ge fun p inside at_ => ?_
  · obtain ⟨arrival_eq, pid_eq⟩ := ok.keys key mem
    exact S.mem_order.mpr ⟨((ok.mem_iff key.index).mp (List.mem_map_of_mem mem)).1,
      arrival_eq, pid_eq⟩
  · by_contra absent
    exact (admitted p inside absent).ne at_

variable [Double D]

theorem admitted_runInv {PInv : SchedView D → S.policy.State → Places → Prop} (valid : S.w.Valid)
    (hcs : 0 ≤ S.opt.csCost) : RunInv S PInv Admitted where
  init state start p inside absent := by
    have sound := Sound.init valid start
    exact absurd ((sound.pending.mem_iff p).mpr ⟨inside, rfl⟩) absent
  move {budget a b} move sound _ _ admitted := by
    cases move with
    | @arrive e sp key rest state pending due hook =>
        intro p inside absent
        by_cases same : p = key.index
        · subst same
          have keys := (sound.pending.keys key (by simp [pending])).1
          exact keys ▸ due
        · refine admitted p inside ?_
          dsimp only at absent ⊢
          rw [pending, List.map_cons, List.mem_cons, not_or]
          exact ⟨same, absent⟩
    | wake => exact admitted
    | @preempt e sp c p =>
        intro q inside absent
        simp only [chargeRun_pending, chargeRun_now] at absent ⊢
        exact admitted q inside absent
    | @block e sp c p s heap state seat runs ran used more =>
        have eq := (sound.startIo_eq valid seat runs used more).2
        intro q inside absent
        rw [eq] at absent ⊢
        simp only [burstOver, chargeRun_pending, chargeRun_now] at absent ⊢
        exact admitted q inside absent
    | @complete e sp c p =>
        intro q inside absent
        simp only [finishProcess, burstOver, chargeRun_pending, chargeRun_now] at absent ⊢
        exact admitted q inside absent
    | mark => exact admitted
    | @start e sp c p s deadline seat switching =>
        rw [sound.startRun_eq valid seat switching]
        exact admitted
    | pick => exact admitted
    | refuse => exact admitted
    | @place e sp c s held core_lt free fits =>
        rw [sound.placed_eq valid hcs held fits]
        exact admitted
  advance _ _ _ _ gt admitted p inside absent := (admitted p inside absent).trans gt.le

/-! ## A whole instant -/

omit [Double D] in
theorem finishSwitches_state (cs : List Nat) (e : S.Eng) :
    (cs.foldl S.finishSwitch e).now = e.now ∧ (cs.foldl S.finishSwitch e).state = e.state := by
  induction cs generalizing e with
  | nil => exact ⟨rfl, rfl⟩
  | cons c rest ih =>
      have first : (S.finishSwitch e c).now = e.now ∧ (S.finishSwitch e c).state = e.state := by
        simp only [finishSwitch]
        cases on : (e.cores c).proc with
        | none => exact ⟨rfl, rfl⟩
        | some p =>
            simp only
            split_ifs with still again
            · exact ⟨rfl, rfl⟩
            · cases added : ckAddI64 e.now 1 with
              | none =>
                  simp only [addTime, added]
                  exact ⟨(beginRun_core _ c p).1, (beginRun_core _ c p).2.1⟩
              | some t =>
                  simp only [addTime, added]
                  exact ⟨(beginRun_core _ c p).1, (beginRun_core _ c p).2.1⟩
            · exact ⟨(beginRun_core e c p).1, (beginRun_core e c p).2.1⟩
      obtain ⟨now_eq, state_eq⟩ := ih (S.finishSwitch e c)
      exact ⟨now_eq.trans first.1, state_eq.trans first.2⟩

/-- The processes that become ready at the instant of `e`, which is yet to be processed. -/
def joinsAt (S : Sim D) {σ : Type} (e : Engine D σ) : List Join :=
  ((S.sortedPids fun p => decide ((S.w.proc p).arrival = e.now)).map fun p =>
    ⟨e.now, .arrived, p⟩) ++
    (wakesAt S e).map (fun p => ⟨e.now, .woken, p⟩) ++
    (List.range S.opt.cores).filterMap fun c => (expiredOn e c).map fun p => ⟨e.now, .expired c, p⟩

/-- `process_instant` hands over the processes that become ready: arrivals by pid, wake-ups
by pid, and expired slices by core. -/
theorem processInstant_hands
    {PInv : SchedView D → S.logged.policy.State → Places → Prop} {budget : Int}
    (valid : S.w.Valid) (hcs : 0 ≤ S.opt.csCost) (contract : Contract S.w S.logged.policy PInv)
    (un : Uninterrupted S.w S.logged.policy PInv) {e e' : S.logged.Eng} {sp : Nat → Spot}
    (undated : Undated (S := S.logged) ⟨e, sp⟩) (sound : S.logged.Sound PInv budget ⟨e, sp⟩)
    (apart : OneCoreEach S.opt.cores e)
    (admitted : ∀ p < S.w.len, p ∉ e.pending.map ArrivalKey.index → (S.w.proc p).arrival < e.now)
    (run : S.logged.processInstant e = some e') : Hands e e' ((joinsAt S e).map Join.proc) := by
  obtain ⟨e₁, arrived, e₂, woken, e₃, requeued, run₁, run₂, run₃, rfl⟩ :=
    Undated.processInstant (S := S.logged) valid hcs contract un undated sound run
  obtain ⟨hands₁, state₁, pending₁, rfl⟩ := admitArrivals_hands run₁
  have blocked : BlockedOk S.w.len (S.blockedLess e.wake) e.now e.wake e.blocked sp := sound.blocked
  obtain ⟨hands₂, state₂, blocked₂, rfl⟩ := wakeBlocked_hands
    (e := { e with state := state₁, pending := pending₁ }) valid blocked
    (fun q blocked => sound.inside fun new => by cases blocked.symm.trans new) le_rfl run₂
  have hands₃ := endFinished_hands
    (e := { e with state := state₂, pending := pending₁, blocked := blocked₂ }) List.nodup_range
    (fun c hc => List.mem_range.mp hc) apart run₃
  obtain ⟨now₄, state₄⟩ := finishSwitches_state (S := S.logged) (List.range S.opt.cores) e₃
  have all := (hands₁.trans hands₂).trans hands₃
  rw [pending_takeWhile valid sound.pending admitted] at all
  have list : (joinsAt S e).map Join.proc =
      (S.sortedPids fun p => decide ((S.w.proc p).arrival = e.now)) ++ wakesAt S e ++
        (List.range S.opt.cores).filterMap (expiredOn e) := by
    have proc_eq : ∀ kind (l : List Nat), (l.map fun p => (⟨e.now, kind, p⟩ : Join)).map
      Join.proc = l :=
      fun kind l => (List.map_map).trans (List.map_id l)
    rw [joinsAt, List.map_append, List.map_append, proc_eq, proc_eq, List.map_filterMap]
    congr 1
    refine List.filterMap_congr fun c _ => ?_
    cases expiredOn e c <;> rfl
  rw [list]
  exact ⟨now₄.trans all.now_eq,
    (congrArg (fun s => handed (Logged.log s)) state₄).trans all.handed_eq⟩

omit [Double D] in
theorem joinsAt_time {σ : Type} {e : Engine D σ} {j : Join} (mem : j ∈ joinsAt S e) :
    j.time = e.now := by
  simp only [joinsAt, List.mem_append, List.mem_map, List.mem_filterMap,
    Option.map_eq_some_iff] at mem
  rcases mem with (⟨p, -, rfl⟩ | ⟨p, -, rfl⟩) | ⟨c, -, p, -, rfl⟩
  · rfl
  · rfl
  · rfl

omit [Double D] in
/-- The processes that become ready at one instant, in order. -/
theorem joinsAt_sorted (valid : S.w.Valid) {σ : Type} (e : Engine D σ) :
    (joinsAt S e).Pairwise (Join.Before S.w) := by
  have byPid : ∀ kind cond, (∀ p, (⟨e.now, kind, p⟩ : Join).key S.w = (S.w.proc p).pid) →
      ((S.sortedPids cond).map fun p => (⟨e.now, kind, p⟩ : Join)).Pairwise (Join.Before S.w) := by
    intro kind cond key_eq
    rw [List.pairwise_map]
    refine (sortedPids_sorted valid cond).imp fun {p q} less => .inr ⟨rfl, .inr ⟨rfl, ?_⟩⟩
    rwa [key_eq, key_eq]
  rw [joinsAt, List.pairwise_append, List.pairwise_append]
  refine ⟨⟨byPid _ _ fun _ => rfl, byPid _ _ fun _ => rfl, fun i hi j hj => ?_⟩, ?_,
    fun i hi j hj => ?_⟩
  · obtain ⟨p, -, rfl⟩ := List.mem_map.mp hi
    obtain ⟨q, -, rfl⟩ := List.mem_map.mp hj
    exact .inr ⟨rfl, .inl (by simp [JoinKind.rank])⟩
  · rw [List.pairwise_filterMap]
    refine List.pairwise_lt_range.imp fun {c c'} less j hj j' hj' => ?_
    obtain ⟨p, -, rfl⟩ := Option.map_eq_some_iff.mp hj
    obtain ⟨q, -, rfl⟩ := Option.map_eq_some_iff.mp hj'
    exact .inr ⟨rfl, .inr ⟨rfl, by simpa [Join.key] using less⟩⟩
  · obtain ⟨c, -, p, -, rfl⟩ : ∃ c ∈ List.range S.opt.cores, ∃ p, expiredOn e c =
      some p ∧ _ = j := by
      simpa only [List.mem_filterMap, Option.map_eq_some_iff] using hj
    rcases List.mem_append.mp hi with hi | hi
    · obtain ⟨q, -, rfl⟩ := List.mem_map.mp hi
      exact .inr ⟨rfl, .inl (by simp [JoinKind.rank])⟩
    · obtain ⟨q, -, rfl⟩ := List.mem_map.mp hi
      exact .inr ⟨rfl, .inl (by simp [JoinKind.rank])⟩

/-! ## Runs -/

/-- The processes that became ready on the way to a state of the main loop. -/
inductive Joining (S : Sim D) (state : S.policy.State) : LoopPoint → S.Eng → List Join → Prop
  | first {e} (run : S.processInstant (S.initEngine state) = some e) :
      Joining S state .settled e (joinsAt S (S.initEngine state))
  | dispatch {e e' joins} (before : Joining S state .settled e joins) (running : S.running e = true)
      (run : S.dispatch e = some e') : Joining S state .dispatched e' joins
  | instant {e e' joins} (before : Joining S state .dispatched e joins)
      (event : S.build.assert (S.nextEvent e ≠ int64Max) = some ())
      (run : S.processInstant { e with now := S.nextEvent e } = some e') :
      Joining S state .settled e' (joins ++ joinsAt S { e with now := S.nextEvent e })

theorem Reached.joining {state : S.policy.State} {point : LoopPoint} {e : S.Eng}
    (reached : Reached S state point e) : ∃ joins, Joining S state point e joins := by
  induction reached with
  | first run => exact ⟨_, .first run⟩
  | dispatch _ running run ih =>
      obtain ⟨joins, before⟩ := ih
      exact ⟨joins, .dispatch before running run⟩
  | instant _ event run ih =>
      obtain ⟨joins, before⟩ := ih
      exact ⟨_, .instant before event run⟩

theorem Joining.reached {state : S.policy.State} {point : LoopPoint} {e : S.Eng} {joins : List Join}
    (joining : Joining S state point e joins) : Reached S state point e := by
  induction joining with
  | first run => exact .first run
  | dispatch _ running run ih => exact .dispatch ih running run
  | instant _ event run ih => exact .instant ih event run

/-- The hook calls of a run hand over the processes that become ready, in order. -/
theorem Joining.handed_eq {PInv : SchedView D → S.logged.policy.State → Places → Prop}
    {state : S.logged.policy.State} (launched : Launched S.logged PInv state)
    (un : Uninterrupted S.w S.logged.policy PInv) (silent : state.log = []) {point : LoopPoint}
    {e : S.logged.Eng} {joins : List Join} (joining : Joining S.logged state point e joins) :
    handed e.state.log = joins.map (fun j => (j.time, j.proc)) ∧
      joins.Pairwise (Join.Before S.w) ∧ ∀ j ∈ joins, j.time ≤ e.now := by
  have valid : S.w.Valid := launched.valid
  have hcs : 0 ≤ S.opt.csCost := launched.options.cs_nonneg
  have timed : ∀ e₀ : S.logged.Eng, ((joinsAt S e₀).map Join.proc).map (fun p => (e₀.now, p)) =
      (joinsAt S e₀).map fun j => (j.time, j.proc) := by
    intro e₀
    rw [List.map_map]
    refine List.map_congr_left fun j mem => ?_
    rw [joinsAt_time mem]
    rfl
  induction joining with
  | @first e run =>
      have sound := Sound.init (S := S.logged) valid launched.start
      have hands := processInstant_hands valid hcs launched.contract un (Undated.init state) sound
        (fun c _ c' _ p on _ => by cases on)
        (fun p inside absent => absurd ((sound.pending.mem_iff p).mpr ⟨inside, rfl⟩) absent) run
      refine ⟨?_, joinsAt_sorted valid _, fun j mem => ?_⟩
      · rw [hands.handed_eq, timed]
        change handed state.log ++ _ = _
        rw [silent]
        rfl
      · exact ((joinsAt_time mem).trans hands.now_eq.symm).le
  | @dispatch e e' joins before running run ih =>
      obtain ⟨picks, seats, dispatches, log⟩ := before.reached.dispatch_picks launched running run
      obtain ⟨handed_eq, sorted, past⟩ := ih
      refine ⟨?_, sorted, fun j mem => dispatches.seated.now_eq ▸ past j mem⟩
      rw [log, (handed_picks e.now picks _).1]
      exact handed_eq
  | @instant e e' joins before event run ih =>
      obtain ⟨sp, course, undated, admitted⟩ := before.reached.course launched
        ((Undated.runInv (S := S.logged) valid hcs un).and
          (admitted_runInv (S := S.logged) valid hcs))
      obtain ⟨gt, -⟩ := launched.advance (I := fun _ => True) course
      obtain ⟨budget, sound⟩ := course.sound
      obtain ⟨rounds, bound, fits⟩ := course.bound
      obtain ⟨dispatched, unfinished⟩ := course.dispatched rfl
      obtain ⟨budget', sound', -⟩ := dispatched.advance launched.valid launched.contract
        launched.options
        sound unfinished bound (fits rfl)
      have hands := processInstant_hands (e := { e with now := S.logged.nextEvent e }) valid hcs
        launched.contract un ⟨undated.held, undated.core⟩ sound'
          (before.reached.oneCoreEach launched)
        (fun p inside absent => (admitted p inside absent).trans_lt gt) run
      obtain ⟨handed_eq, sorted, past⟩ := ih
      have now_eq : e'.now = S.logged.nextEvent e := hands.now_eq
      refine ⟨?_, ?_, fun j mem => ?_⟩
      · rw [hands.handed_eq, timed, List.map_append, ← handed_eq]
        rfl
      · refine List.pairwise_append.mpr ⟨sorted, joinsAt_sorted valid _, fun i hi j hj => .inl ?_⟩
        rw [joinsAt_time hj]
        exact (past i hi).trans_lt gt
      · rw [now_eq]
        rcases List.mem_append.mp mem with old | new
        · exact (past j old).trans gt.le
        · exact (joinsAt_time new).le

/-! ## The order of the picks -/

/-- On the way to `e` the processes became ready in the order of `Join.Before`, were handed
over in that order, and those that `next_slice` returned it returned in that order.  In
particular a process that arrived or woke while a slice was running, or when it ended, comes
before the process of that slice. -/
def InReadyOrder (S : Sim D) (state : S.policy.State) (point : LoopPoint)
    (e : S.logged.Eng) : Prop :=
  ∃ joins, Joining S.logged ⟨state, []⟩ point e joins ∧ joins.Pairwise (Join.Before S.w) ∧
    handed e.state.log = joins.map (fun j => (j.time, j.proc)) ∧
    returned e.state.log <+: joins.map Join.proc ∧
    ∀ i j (hi : i < joins.length) (hj : j < joins.length) c, joins[j].kind = .expired c →
      (∀ c', joins[i].kind ≠ .expired c') → joins[i].time ≤ joins[j].time → i < j

/-- A queue returns the processes in the order in which they become ready. -/
theorem inReadyOrder {Inv : SchedView D → S.policy.State → Places → Prop}
    {contents : S.policy.State → List Nat} {state : S.policy.State} (started : Started S state)
    (contract : Contract S.w S.policy Inv) (calm : Calm S.w S.policy Inv)
    (fifo : FirstInFirstOut S.policy Inv contents) (start : Inv S.initView state fun _ => .new)
    {point : LoopPoint} {e : S.logged.Eng} (reached : Reached S.logged ⟨state, []⟩ point e) :
    InReadyOrder S state point e := by
  have launched := started.ordered contract fifo start
  obtain ⟨joins, joining⟩ := reached.joining
  obtain ⟨handed_eq, sorted, -⟩ := joining.handed_eq launched (calm.ordered contents) rfl
  obtain ⟨sp, course, -⟩ := reached.course launched RunInv.true
  obtain ⟨budget, sound⟩ := course.sound
  have order : InOrder contents e.state := sound.policy.2
  refine ⟨joins, joining, sorted, handed_eq, ?_, fun i j hi hj c expired early le => ?_⟩
  · have first := order.returned_prefix
    rwa [handed_eq, List.map_map] at first
  · have rank : joins[i].kind.rank < joins[j].kind.rank := by
      rw [expired]
      cases kind : joins[i].kind with
      | expired c' => exact absurd kind (early c')
      | _ => simp [JoinKind.rank]
    by_contra later
    rcases (not_lt.mp later).lt_or_eq with before | rfl
    · have before := List.pairwise_iff_getElem.mp sorted j i hj hi before
      unfold Join.Before at before
      omega
    · exact lt_irrefl _ rank

/-- In every run of FCFS and of round robin, `next_slice` returns the processes in the order
in which they became ready: by time, at one instant arrivals by pid, then ends of I/O by
pid, then expired slices by core. -/
theorem queues_inReadyOrder (S : Sim D) :
    (∀ state : Queue, Started (S.withPolicy policyFcfs) state →
      (S.withPolicy policyFcfs).Logs state ∧ ∀ point e,
        Reached (S.withPolicy policyFcfs).logged ⟨state, []⟩ point e →
          InReadyOrder (S.withPolicy policyFcfs) state point e) ∧
    ∀ state : Rr, Started S.rr state → S.rr.Logs state ∧ ∀ point e,
      Reached S.rr.logged ⟨state, []⟩ point e → InReadyOrder S.rr state point e := by
  constructor
  · intro state started
    have start : FcfsInv (D := D) S.w (S.withPolicy policyFcfs).initView state fun _ => .new := by
      cases started.created
      exact QueueReady.init S.w.len
    have contract := fcfs_contract (D := D) S.w
    exact ⟨(S.withPolicy policyFcfs).logs state, fun point e reached => inReadyOrder
      started contract
      (fcfs_unwatching.calm contract) (fcfs_fifo S.w) start reached⟩
  · intro state started
    obtain ⟨pos, -⟩ := rr_launched started
    have start : RrInv S.w S.rr.initView state fun _ => .new := by
      cases started.created
      exact ⟨QueueReady.init S.w.len, pos⟩
    have contract := rr_contract (D := D) S.w
    exact ⟨S.rr.logs state, fun point e reached => inReadyOrder started contract
      (rr_unwatching.calm contract) (rr_fifo S.w) start reached⟩

/-- Both queues keep the order at the first decision about the pair. -/
theorem pairSim_inReadyOrder :
    (∃ e, InReadyOrder (pairSim.withPolicy policyFcfs) (queueInit 2) .settled e) ∧
      ∃ e, InReadyOrder pairSim.rr ⟨queueInit 2, 2⟩ .settled e := by
  obtain ⟨fcfs, rr⟩ := queues_inReadyOrder pairSim
  constructor
  · have started : Started (pairSim.withPolicy policyFcfs) (queueInit 2) :=
      ⟨pairSim_started.validated, rfl, rfl⟩
    have launched := started.ordered (fcfs_contract twoThenOne) (fcfs_fifo twoThenOne)
      (QueueReady.init 2)
    obtain ⟨e, sp, first, -⟩ := launched.first (I := fun _ => True)
    exact ⟨e, (fcfs _ started).2 _ e (.first first)⟩
  · have started : Started pairSim.rr ⟨queueInit 2, 2⟩ := ⟨pairSim_started.validated, rfl, rfl⟩
    obtain ⟨-, launched⟩ := rr_launched started
    obtain ⟨e, sp, first, -⟩ := launched.first (I := fun _ => True)
    exact ⟨e, (rr _ started).2 _ e (.first first)⟩

end Sim

end CpuSched
