import CpuSched.Engine.Redecide
import CpuSched.Policies.FifoContract
import CpuSched.Policies.Slices

/-!
# The log of a queue

FCFS and round robin keep the ready processes in a ring buffer.  What the engine handed
over and `next_slice` has not returned is what the buffer holds, in the same order.
-/

namespace CpuSched

variable {D : Type}

/-! ## What the log tells -/

/-- The process that the call hands over. -/
def HookCall.joins : HookCall → Option Nat
  | .arrival p => some p
  | .ready p => some p
  | .preempt p _ => some p
  | _ => none

/-- The process that the call returns. -/
def HookCall.takes : HookCall → Option Nat
  | .slice s => some s.proc
  | _ => none

/-- The processes handed over and the times, in the order of the calls. -/
def handed (log : List TimedCall) : List (Int × Nat) :=
  log.reverse.filterMap fun call => call.call.joins.map fun p => (call.now, p)

/-- The processes that `next_slice` returned, in the order of the calls. -/
def returned (log : List TimedCall) : List Nat := log.reverse.filterMap fun call => call.call.takes

theorem handed_cons (call : TimedCall) (log : List TimedCall) :
    handed (call :: log) = handed log ++ (call.call.joins.map fun p => (call.now, p)).toList := by
  unfold handed
  rw [List.reverse_cons, List.filterMap_append]
  cases joins : call.call.joins with
  | none => simp [joins]
  | some p => simp [joins]

theorem returned_cons (call : TimedCall) (log : List TimedCall) :
    returned (call :: log) = returned log ++ call.call.takes.toList := by
  unfold returned
  rw [List.reverse_cons, List.filterMap_append]
  cases takes : call.call.takes with
  | none => simp [takes]
  | some p => simp [takes]

/-- Calls that hand nothing over. -/
theorem handed_of_leaves {log log' : List TimedCall} (grown : Grown HookCall.Leaves log log') :
    handed log' = handed log := by
  obtain ⟨calls, rfl, leaves⟩ := grown
  induction calls with
  | nil => rfl
  | cons call calls ih =>
      obtain ⟨here, rest⟩ := List.forall_mem_cons.mp leaves
      rw [List.cons_append, handed_cons, ih rest]
      cases kind : call.call with
      | block => exact List.append_nil _
      | complete => exact List.append_nil _
      | _ => simp [kind, HookCall.Leaves] at here

/-- The entries handed over and not yet returned. -/
def unreturned (log : List TimedCall) : List (Int × Nat) := (handed log).drop (returned log).length

/-- The time at which the process was handed over last. -/
def joined (p : Nat) : List TimedCall → Option Int
  | [] => none
  | call :: log => if call.call.joins = some p then some call.now else joined p log

/-- The last entry of a process tells when it was handed over last. -/
theorem joined_of_handed {log : List TimedCall} {before after : List (Int × Nat)}
    {t : Int} {p : Nat}
    (split : handed log = before ++ (t, p) :: after) (last : p ∉ after.map Prod.snd) :
    joined p log = some t := by
  induction log generalizing after with
  | nil => simp [handed] at split
  | cons call log ih =>
      rw [handed_cons] at split
      rw [joined]
      cases joins : call.call.joins with
      | none =>
          rw [joins] at split
          rw [if_neg (by simp)]
          exact ih (by simpa using split) last
      | some q =>
          rw [joins] at split
          obtain rfl | ⟨rest, entry, rfl⟩ := List.eq_nil_or_concat after
          · obtain ⟨-, same⟩ := List.append_inj' split rfl
            obtain ⟨rfl, rfl⟩ : call.now = t ∧ q = p := by simpa using same
            rw [if_pos rfl]
          · rw [List.concat_eq_append, List.map_append, List.mem_append, not_or] at last
            have split : handed log ++ [(call.now, q)] = (before ++ (t, p) :: rest) ++ [entry] := by
              simpa using split
            obtain ⟨earlier, same⟩ := List.append_inj' split rfl
            obtain rfl : (call.now, q) = entry := by simpa using same
            have ne : ¬some q = some p := by
              rintro ⟨⟩
              simp at last
            rw [if_neg ne]
            exact ih earlier last.1

/-- Answers of `next_slice` one after another. -/
theorem handed_picks (now : Int) (picks : List Slice) (log : List TimedCall) :
    handed ((picks.map fun slice => ⟨now, .slice slice⟩).reverse ++ log) = handed log ∧
      returned ((picks.map fun slice => ⟨now, .slice slice⟩).reverse ++ log) =
        returned log ++ picks.map Slice.proc := by
  constructor
  · rw [handed, List.reverse_append, List.reverse_reverse, List.filterMap_append,
      List.filterMap_map]
    simp [handed, HookCall.joins, Function.comp_def]
  · rw [returned, List.reverse_append, List.reverse_reverse, List.filterMap_append,
      List.filterMap_map]
    simp [returned, HookCall.takes, Function.comp_def]

/-! ## First in, first out -/

/-- The policy returns the ready processes in the order in which they are handed over;
`contents` are those it keeps. -/
structure FirstInFirstOut (P : Policy D) (Inv : SchedView D → P.State → Places → Prop)
    (contents : P.State → List Nat) : Prop where
  holds : ∀ {v s pl}, Inv v s pl → Holds pl (contents s)
  arrival : ∀ {v s s' pl p}, Inv v s pl → P.onArrival v s p = some s' →
    contents s' = contents s ++ [p]
  wake : ∀ {v s s' pl p}, Inv v s pl → P.wakeHook v s p = some s' → contents s' = contents s ++ [p]
  refuse : ∀ {v s s' pl}, Inv v s pl → P.nextSlice v s = some (s', none) → contents s' = contents s
  pick : ∀ {v s s' pl slice}, Inv v s pl → P.nextSlice v s = some (s', some slice) →
    contents s = slice.proc :: contents s'
  preempt : ∀ {v v' s s' pl p ran f}, Inv v s pl → P.onPreempt = some f → f v' s p ran = some s' →
    contents s' = contents s ++ [p]
  leave : ∀ {v v' s s' pl p ran}, Inv v s pl →
    (optCall P.onBlock v' s p ran = some s' ∨ optCall P.onComplete v' s p ran = some s') →
    contents s' = contents s

theorem FirstInFirstOut.mono {P : Policy D} {Inv Inv' : SchedView D → P.State → Places → Prop}
    {contents : P.State → List Nat} (fifo : FirstInFirstOut P Inv contents)
    (weaker : ∀ {v s pl}, Inv' v s pl → Inv v s pl) : FirstInFirstOut P Inv' contents where
  holds inv := fifo.holds (weaker inv)
  arrival inv := fifo.arrival (weaker inv)
  wake inv := fifo.wake (weaker inv)
  refuse inv := fifo.refuse (weaker inv)
  pick inv := fifo.pick (weaker inv)
  preempt inv := fifo.preempt (weaker inv)
  leave inv := fifo.leave (weaker inv)

/-- What was handed over is what was returned, and after it what the policy keeps. -/
def InOrder {σ : Type} (contents : σ → List Nat) (s : Logged σ) : Prop :=
  (handed s.log).map Prod.snd = returned s.log ++ contents s.state

section InOrder

variable {σ : Type} {contents : σ → List Nat} {s s' : Logged σ}

theorem InOrder.returned_prefix (order : InOrder contents s) :
    returned s.log <+: (handed s.log).map Prod.snd := by
  rw [order]
  exact List.prefix_append _ _

theorem InOrder.unreturned_eq (order : InOrder contents s) :
    (unreturned s.log).map Prod.snd = contents s.state := by
  rw [unreturned, List.map_drop, order, List.drop_left]

theorem InOrder.length_le (order : InOrder contents s) :
    (returned s.log).length ≤ (handed s.log).length := by
  have := order.returned_prefix.length_le
  rwa [List.length_map] at this

/-- A call that hands a process over. -/
theorem InOrder.join (order : InOrder contents s) {now : Int} {call : HookCall} {p : Nat}
    {state : σ} (joins : call.joins = some p) (takes : call.takes = none)
    (grows : contents state = contents s.state ++ [p]) :
    InOrder contents ⟨state, ⟨now, call⟩ :: s.log⟩ ∧
      unreturned (⟨now, call⟩ :: s.log) = unreturned s.log ++ [(now, p)] := by
  have handed_eq : handed (⟨now, call⟩ :: s.log) = handed s.log ++ [(now, p)] := by
    rw [handed_cons, joins]
    rfl
  have returned_eq : returned (⟨now, call⟩ :: s.log) = returned s.log := by
    rw [returned_cons, takes]
    exact List.append_nil _
  constructor
  · unfold InOrder
    rw [handed_eq, returned_eq, grows, List.map_append, order, List.append_assoc]
    rfl
  · rw [unreturned, handed_eq, returned_eq, List.drop_append_of_le_length order.length_le]
    rfl

/-- A call of `next_slice` that returns a process. -/
theorem InOrder.take (order : InOrder contents s) {now : Int} {slice : Slice} {state : σ}
    (shrinks : contents s.state = slice.proc :: contents state) :
    InOrder contents ⟨state, ⟨now, .slice slice⟩ :: s.log⟩ ∧
      unreturned (⟨now, .slice slice⟩ :: s.log) = (unreturned s.log).tail := by
  have handed_eq : handed (⟨now, .slice slice⟩ :: s.log) = handed s.log := by
    rw [handed_cons]
    exact List.append_nil _
  have returned_eq : returned (⟨now, .slice slice⟩ :: s.log) = returned s.log ++ [slice.proc] := by
    rw [returned_cons]
    rfl
  constructor
  · unfold InOrder
    rw [handed_eq, returned_eq, order, shrinks, List.append_assoc]
    rfl
  · unfold unreturned
    rw [handed_eq, returned_eq, List.length_append, List.tail_drop]
    rfl

/-- Calls that tell of a process that leaves its core. -/
theorem InOrder.leave (order : InOrder contents s) {now : Int} {p : Nat} {log : List TimedCall}
    {state : σ} (left : Left now p s.log log) (same : contents state = contents s.state) :
    InOrder contents ⟨state, log⟩ ∧ unreturned log = unreturned s.log := by
  have handed_eq : handed log = handed s.log := handed_of_leaves (.left left)
  have returned_eq : returned log = returned s.log := by
    cases left with
    | silent => rfl
    | block => exact (returned_cons _ _).trans (List.append_nil _)
    | complete => exact (returned_cons _ _).trans (List.append_nil _)
  unfold InOrder unreturned
  rw [handed_eq, returned_eq, same]
  exact ⟨order, rfl⟩

/-- The entry of a process that waits tells when it was handed over last. -/
theorem InOrder.joined_eq (order : InOrder contents s) (nodup : (contents s.state).Nodup) {i : Nat}
    {t : Int} {p : Nat} (entry : (unreturned s.log)[i]? = some (t, p)) :
    joined p s.log = some t := by
  obtain ⟨inside, at_⟩ := List.getElem?_eq_some_iff.mp entry
  have split : unreturned s.log =
      (unreturned s.log).take i ++ (t, p) :: (unreturned s.log).drop (i + 1) := by
    rw [← at_, ← List.drop_eq_getElem_cons inside, List.take_append_drop]
  rw [← order.unreturned_eq, split, List.map_append, List.map_cons] at nodup
  have whole : handed s.log = ((handed s.log).take (returned s.log).length ++
      (unreturned s.log).take i) ++ (t, p) :: (unreturned s.log).drop (i + 1) := by
    rw [List.append_assoc, ← split, unreturned, List.take_append_drop]
  exact joined_of_handed whole (List.nodup_cons.mp (List.nodup_append.mp nodup).2.1).1

/-- Answers of `next_slice` one after another take the head of the queue. -/
theorem InOrder.takes (order : InOrder contents s) {now : Int} {picks : List Slice}
    (order' : InOrder contents s')
    (log : s'.log = (picks.map fun slice => ⟨now, .slice slice⟩).reverse ++ s.log) :
    contents s.state = picks.map Slice.proc ++ contents s'.state := by
  obtain ⟨handed_eq, returned_eq⟩ := handed_picks now picks s.log
  rw [← log] at handed_eq returned_eq
  unfold InOrder at order order'
  rw [handed_eq, order, returned_eq, List.append_assoc] at order'
  exact List.append_cancel_left order'

end InOrder

/-- The calls keep the order. -/
theorem FirstInFirstOut.keptLog {w : Workload} {P : Policy D}
    {Inv : SchedView D → P.State → Places → Prop} {contents : P.State → List Nat}
    (fifo : FirstInFirstOut P Inv contents) :
    KeptLog w P (LoggedInv Inv) fun _ s _ => InOrder contents s where
  view _ order _ _ := order
  arrival inv order _ _ run := (order.join rfl rfl (fifo.arrival inv.inv run)).1
  wake inv order _ _ run kind := by
    rcases kind with rfl | rfl
    · exact (order.join rfl rfl (fifo.wake inv.inv run)).1
    · exact (order.join rfl rfl (fifo.wake inv.inv run)).1
  refuse {v s s' pl} inv order _ _ run := by
    unfold InOrder
    rw [fifo.refuse inv.inv run]
    exact order
  pick inv order _ _ run := (order.take (fifo.pick inv.inv run)).1
  preempt inv order _ _ _ _ hook run := (order.join rfl rfl (fifo.preempt inv.inv hook run)).1
  leave inv order _ _ left run :=
    (order.leave left (fifo.leave inv.inv (run.imp And.right And.right))).1

/-- At the start nothing is kept. -/
theorem FirstInFirstOut.nothing {P : Policy D} {Inv : SchedView D → P.State → Places → Prop}
    {contents : P.State → List Nat} (fifo : FirstInFirstOut P Inv contents) {v : SchedView D}
    {s : P.State} (start : Inv v s fun _ => .new) : contents s = [] :=
  List.eq_nil_iff_forall_not_mem.mpr fun p mem => by cases ((fifo.holds start).mem_iff p).mp mem

/-- The invariant of a policy and the order of its log. -/
def Ordered {P : Policy D} (Inv : SchedView D → P.State → Places → Prop)
    (contents : P.State → List Nat)
    (v : SchedView D) (s : Logged P.State) (pl : Places) : Prop :=
  LoggedInv Inv v s pl ∧ InOrder contents s

/-- A policy that lets slices run does so when its calls are logged. -/
theorem Calm.ordered {w : Workload} {P : Policy D} {Inv : SchedView D → P.State → Places → Prop}
    (calm : Calm w P Inv) (contents : P.State → List Nat) :
    Uninterrupted w P.logged (Ordered Inv contents) where
  notReady := calm.notReady
  undated inv := calm.logged.undated inv.1
  refuses inv := calm.logged.refuses inv.1

/-- A logged run starts in order. -/
theorem Sim.Started.ordered [Double D] {S : Sim D} {state : S.policy.State}
    {Inv : SchedView D → S.policy.State → Places → Prop} {contents : S.policy.State → List Nat}
    (started : S.Started state) (contract : Contract S.w S.policy Inv)
    (fifo : FirstInFirstOut S.policy Inv contents) (start : Inv S.initView state fun _ => .new) :
    Sim.Launched S.logged (Ordered Inv contents) ⟨state, []⟩ where
  valid := workloadValidate_ok started.validated
  options := by
    have options := checkOptions_ok (workloadValidate_ok started.validated) started.options
    exact ⟨options.cores_pos, options.segments_pos, options.cs_nonneg, options.cs_le⟩
  contract := contract.logged.and fifo.keptLog.kept
  start := by
    refine ⟨⟨start, [], rfl, .nil⟩, ?_⟩
    unfold InOrder
    rw [fifo.nothing start]
    rfl

/-- A wake-up hands the process over. -/
theorem FirstInFirstOut.wake_logged {P : Policy D} {Inv : SchedView D → P.State → Places → Prop}
    {contents : P.State → List Nat} (fifo : FirstInFirstOut P Inv contents) {v : SchedView D}
    {s s' : Logged P.State} {pl : Places} {p : Nat} (inv : Inv v s.state pl)
    (order : InOrder contents s) (run : P.logged.wakeHook v s p = some s') :
    unreturned s'.log = unreturned s.log ++ [(v.now, p)] := by
  cases hook : P.onReady with
  | none =>
      have run : (P.onArrival v s.state p).map (s.push v (.arrival p)) = some s' := by
        simpa only [Policy.wakeHook, Policy.logged, hook, Option.map_none,
          Option.getD_none] using run
      obtain ⟨state, source, rfl⟩ := Option.map_eq_some_iff.mp run
      exact (order.join rfl rfl (fifo.wake inv (by rwa [Policy.wakeHook, hook]))).2
  | some f =>
      have run : (f v s.state p).map (s.push v (.ready p)) = some s' := by
        simpa only [Policy.wakeHook, Policy.logged, hook, Option.map_some,
          Option.getD_some] using run
      obtain ⟨state, source, rfl⟩ := Option.map_eq_some_iff.mp run
      exact (order.join rfl rfl (fifo.wake inv (by rwa [Policy.wakeHook, hook]))).2

/-! ## The two queues -/

theorem queuePush_toList {q q' : Queue} {p : Nat} (wf : q.Wf) (pushed : queuePush q p = some q') :
    q'.toList = q.toList ++ [p] := by
  have room : q.len < q.cap := by
    by_contra full
    rw [queuePush, if_neg full] at pushed
    cases pushed
  obtain ⟨q'', pushed', -, contents, -⟩ := queuePush_spec p wf room
  obtain rfl := Option.some.inj (pushed.symm.trans pushed')
  exact contents

theorem queuePop_toList {q q' : Queue} {p : Nat} (wf : q.Wf) (popped : queuePop q = some (p, q')) :
    q.toList = p :: q'.toList := by
  have nonempty : 0 < q.len := by
    by_contra empty
    rw [queuePop, if_neg empty] at popped
    cases popped
  obtain ⟨p', q'', popped', -, contents, -⟩ := queuePop_spec wf nonempty
  cases popped.symm.trans popped'
  exact contents

theorem fcfs_fifo (w : Workload) :
    FirstInFirstOut (D := D) policyFcfs (FcfsInv w) Queue.toList where
  holds inv := QueueReady.holds inv
  arrival inv run := queuePush_toList (QueueReady.wf inv) run
  wake inv run := queuePush_toList (QueueReady.wf inv) run
  refuse inv run := by rw [fcfs_unwatching.idle run]
  pick {v s s' pl slice} inv run := by
    simp only [policyFcfs, fcfsNextSlice] at run
    split_ifs at run with empty
    · cases run
    obtain ⟨⟨p, ready⟩, popped, last⟩ := Option.map_eq_some_iff.mp run
    cases last
    exact queuePop_toList (QueueReady.wf inv) popped
  preempt _ hook _ := by cases hook
  leave _ run := by rcases run with run | run <;> rw [← Option.some.inj run]

theorem rr_fifo (w : Workload) :
    FirstInFirstOut (D := D) policyRr (RrInv w) fun s => s.ready.toList := by
  have enqueue : ∀ {s s' : Rr} {p}, s.ready.Wf →
      ((queuePush s.ready p).map fun ready => { s with ready }) = some s' →
      s'.ready.toList = s.ready.toList ++ [p] := by
    intro s s' p wf run
    obtain ⟨ready, pushed, rfl⟩ := Option.map_eq_some_iff.mp run
    exact queuePush_toList wf pushed
  refine ⟨fun inv => inv.ready.holds, fun inv run => enqueue inv.ready.wf run,
    fun inv run => enqueue inv.ready.wf run, fun inv run => ?_, fun inv run => ?_,
    fun inv hook run => ?_, fun _ run => ?_⟩
  · rw [rr_unwatching.idle run]
  · simp only [policyRr, rrNextSlice] at run
    split_ifs at run with empty
    · cases run
    obtain ⟨⟨p, ready⟩, popped, last⟩ := Option.map_eq_some_iff.mp run
    cases last
    exact queuePop_toList inv.ready.wf popped
  · cases hook
    exact enqueue inv.ready.wf run
  · rcases run with run | run <;> rw [← Option.some.inj run]

end CpuSched
