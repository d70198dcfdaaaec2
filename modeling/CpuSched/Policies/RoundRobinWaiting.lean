import CpuSched.Engine.Uninterrupted
import CpuSched.Policies.QueueLog
import CpuSched.Policies.StrideFairness

/-!
# Waiting for a turn

Under a policy that keeps a queue and hands out slices of at most `q` ticks no process
waits long.  A turn is a slice and the switch before it.  Every process ahead in the queue
takes one turn, and a process on a core gets no further one before those that wait: with
`i` processes ahead, at most `n - 1 - i` turns have passed since a process was handed over.
-/

namespace CpuSched

variable {D : Type}

/-! ## Entries of the queue -/

/-- Time `m` is no later than what is due for any entry of the queue: for the entry at
index `i`, all but `i` of the turns of the other processes after it was handed over. -/
def BeforeDue (n : Nat) (turn : Int) (l : List (Int × Nat)) (m : Int) : Prop :=
  ∀ (i : Nat) t p, l[i]? = some (t, p) → m ≤ t + (n - 1 - i) * turn

section BeforeDue

variable {n : Nat} {turn m m' t : Int} {l : List (Int × Nat)} {p : Nat}

theorem BeforeDue.mono (before : BeforeDue n turn l m) (le : m' ≤ m) : BeforeDue n turn l m' :=
  fun i t p entry => le.trans (before i t p entry)

theorem BeforeDue.append (before : BeforeDue n turn l m)
    (last : m ≤ t + (n - 1 - l.length) * turn) : BeforeDue n turn (l ++ [(t, p)]) m := by
  intro i t' p' entry
  rcases lt_or_ge i l.length with inside | outside
  · rw [List.getElem?_append_left inside] at entry
    exact before i t' p' entry
  · rw [List.getElem?_append_right outside] at entry
    obtain ⟨at_, eq⟩ := List.getElem?_eq_some_iff.mp entry
    have i_eq : i = l.length := by
      rw [List.length_singleton] at at_
      omega
    subst i_eq
    obtain ⟨rfl, rfl⟩ : t = t' ∧ p = p' := by simpa using entry
    exact last

/-- The head leaves, and every other entry is one turn closer. -/
theorem BeforeDue.tail (before : BeforeDue n turn l m) : BeforeDue n turn l.tail (m + turn) := by
  intro i t p entry
  rw [List.getElem?_tail] at entry
  have here := before (i + 1) t p entry
  push_cast at here
  linarith

end BeforeDue

/-- There are at most `n` ready processes. -/
theorem Holds.length_le {n : Nat} {pl : Places} {ready : List Nat} (holds : Holds pl ready)
    (bound : ∀ q, pl q = .ready → q < n) : ready.length ≤ n := by
  have subset : ready ⊆ List.range n := fun q mem =>
    List.mem_range.mpr (bound q ((holds.mem_iff q).mp mem))
  have := (List.subperm_of_subset holds.nodup subset).length_le
  rwa [List.length_range] at this

/-! ## Turns -/

/-- A slice of at most `q` ticks on the core ends no later. -/
def Core.endsBy (q : Int) (core : Core) : Int :=
    if core.inCs then core.busyUntil + q else core.runEnd

namespace Sim

/-- No turn takes longer than `q` ticks and a switch, and nothing that goes on now ends
after what is due for the processes in the queue. -/
structure Turns (S : Sim D) (q : Int) (a : S.logged.Config) : Prop where
  brief : ∀ p s, (a.spots p = .held s ∨ ∃ c, a.spots p = .core c s) → s.length ≤ q
  switching : ∀ c < S.opt.cores, (a.eng.cores c).inCs = true →
    (a.eng.cores c).busyUntil ≤ a.eng.now + S.opt.csCost
  now : BeforeDue S.w.len (q + S.opt.csCost) (unreturned a.eng.state.log) a.eng.now
  core : ∀ c < S.opt.cores, (a.eng.cores c).proc ≠ none →
    BeforeDue S.w.len (q + S.opt.csCost) (unreturned a.eng.state.log) ((a.eng.cores c).endsBy q)
  held : ∀ p s, a.spots p = .held s →
    BeforeDue S.w.len (q + S.opt.csCost) (unreturned a.eng.state.log)
      (a.eng.now + (q + S.opt.csCost))

section Turns

variable [Double D] {S : Sim D} {Inv : SchedView D → S.policy.State → Places → Prop}
  {contents : S.policy.State → List Nat} {q budget : Int} {a b : S.logged.Config}

omit [Double D] in
/-- A busy core is free after a turn at the latest. -/
theorem Sound.endsBy_le {PInv : SchedView D → S.logged.policy.State → Places → Prop}
    (sound : S.logged.Sound PInv budget a) (hcs : 0 ≤ S.opt.csCost)
    (brief : ∀ p s, (a.spots p = .held s ∨ ∃ c, a.spots p = .core c s) → s.length ≤ q)
    (switching : ∀ c < S.opt.cores, (a.eng.cores c).inCs = true →
      (a.eng.cores c).busyUntil ≤ a.eng.now + S.opt.csCost)
    {c : Nat} (hc : c < S.opt.cores) (busy : (a.eng.cores c).proc ≠ none) :
    (a.eng.cores c).endsBy q ≤ a.eng.now + (q + S.opt.csCost) := by
  obtain ⟨p, on⟩ := Option.ne_none_iff_exists'.mp busy
  obtain ⟨s, seat⟩ := sound.cores.owner c hc p on
  have ok := (sound.cores.seat p c s seat).2.2
  unfold Core.endsBy
  cases kind : (a.eng.cores c).inCs with
  | true =>
      have := switching c hc kind
      simp only [if_true]
      omega
  | false =>
      obtain ⟨le, -, -, ends, -⟩ := ok.running kind
      have brief := brief p s (.inr ⟨c, seat⟩)
      have := ok.length_eq
      simp only [Bool.false_eq_true, if_false]
      omega

omit [Double D] in
/-- A step that seats no process and returns none: at most it hands one over. -/
theorem Turns.frame (fifo : FirstInFirstOut S.policy Inv contents) (turns : Turns S q a)
    (sound : S.logged.Sound (Ordered Inv contents) budget b) (hcs : 0 ≤ S.opt.csCost) (pos : 0 ≤ q)
    (now_eq : b.eng.now = a.eng.now)
    (log : unreturned b.eng.state.log = unreturned a.eng.state.log ∨
      ∃ p, unreturned b.eng.state.log = unreturned a.eng.state.log ++ [(a.eng.now, p)])
    (held : ∀ p s, b.spots p = .held s → a.spots p = .held s)
    (seat : ∀ p c s, b.spots p = .core c s → a.spots p = .core c s)
    (cores : ∀ c < S.opt.cores, (b.eng.cores c).proc ≠ none → b.eng.cores c = a.eng.cores c) :
    Turns S q b := by
  have order : InOrder contents b.eng.state := sound.policy.2
  have holds : Holds (places b.spots) (contents b.eng.state.state) := fifo.holds sound.policy.1.inv
  have inside : ∀ p, places b.spots p = .ready → p < S.w.len := fun p ready =>
    sound.inside fun new => by cases (places_eq_ready.mp ready).symm.trans new
  have length_eq : (unreturned b.eng.state.log).length = (contents b.eng.state.state).length := by
    rw [← order.unreturned_eq, List.length_map]
  have turn_nonneg : 0 ≤ q + S.opt.csCost := by omega
  have free : ∀ c < S.opt.cores, (b.eng.cores c).inCs = true → (b.eng.cores c).proc ≠ none := by
    intro c hc kind idle
    cases kind.symm.trans (sound.cores.free c hc idle).1
  have brief : ∀ p s, (b.spots p = .held s ∨ ∃ c, b.spots p = .core c s) → s.length ≤ q := by
    rintro p s (here | ⟨c, here⟩)
    · exact turns.brief p s (.inl (held p s here))
    · exact turns.brief p s (.inr ⟨c, seat p c s here⟩)
  have switching : ∀ c < S.opt.cores, (b.eng.cores c).inCs = true →
      (b.eng.cores c).busyUntil ≤ b.eng.now + S.opt.csCost := by
    intro c hc kind
    have same := cores c hc (free c hc kind)
    rw [same] at kind ⊢
    rw [now_eq]
    exact turns.switching c hc kind
  -- `k` processes that are not ready, with the new entry, are due `k` turns from now on
  have entry : ∀ (m : Int) (k : Nat), BeforeDue S.w.len (q + S.opt.csCost)
    (unreturned a.eng.state.log) m →
      m ≤ a.eng.now + k * (q + S.opt.csCost) → (contents b.eng.state.state).length + k ≤ S.w.len →
      BeforeDue S.w.len (q + S.opt.csCost) (unreturned b.eng.state.log) m := by
    intro m k before le room
    rcases log with same | ⟨p, grows⟩
    · rwa [same]
    · rw [grows]
      refine before.append (le.trans
        (Int.add_le_add_left (mul_le_mul_of_nonneg_right ?_ turn_nonneg) _))
      rw [← length_eq, grows, List.length_append, List.length_singleton] at room
      omega
  have busy : ∀ p, b.spots p ≠ .ready → b.spots p ≠ .new →
      (contents b.eng.state.state).length + 1 ≤ S.w.len := fun p notReady old =>
    holds.length_lt inside (sound.inside old) fun ready => notReady (places_eq_ready.mp ready)
  refine ⟨brief, switching, ?_, fun c hc on => ?_, fun p s here => ?_⟩
  · rw [now_eq]
    refine entry _ 0 turns.now (by simp) ?_
    exact holds.length_le inside
  · have soon := sound.endsBy_le hcs brief switching hc on
    obtain ⟨p, here⟩ := Option.ne_none_iff_exists'.mp on
    obtain ⟨s, here⟩ := sound.cores.owner c hc p here
    have same := cores c hc on
    rw [same] at on soon ⊢
    refine entry _ 1 (turns.core c hc on) ?_ (busy p (by simp [here]) (by simp [here]))
    rw [now_eq] at soon
    simpa using soon
  · rw [now_eq]
    exact entry _ 1 (turns.held p s (held p s here)) (by simp)
      (busy p (by simp [here]) (by simp [here]))

omit [Double D] in
/-- A process that leaves for the ready set, for I/O or for good. -/
theorem Turns.off (fifo : FirstInFirstOut S.policy Inv contents) {e e' : S.logged.Eng}
    {sp : Nat → Spot} {p : Nat} {z : Spot} (turns : Turns S q ⟨e, sp⟩)
    (sound : S.logged.Sound (Ordered Inv contents) budget ⟨e', Function.update sp p z⟩)
    (hcs : 0 ≤ S.opt.csCost) (pos : 0 ≤ q) (off : z.OffCore) (now_eq : e'.now = e.now)
    (log : unreturned e'.state.log = unreturned e.state.log ∨
      unreturned e'.state.log = unreturned e.state.log ++ [(e.now, p)])
    (cores : ∀ c < S.opt.cores, (e'.cores c).proc ≠ none → e'.cores c = e.cores c) :
    Turns S q ⟨e', Function.update sp p z⟩ := by
  refine turns.frame fifo sound hcs pos now_eq (log.imp_right fun grows => ⟨p, grows⟩)
    (fun r s here => ?_) (fun r c s here => ?_) cores
  · exact off.stays (.inl ⟨s, rfl⟩) here
  · exact off.stays (.inr ⟨c, s, rfl⟩) here

/-- The policy hands out slices of at most `q` ticks. -/
def BriefSlices (P : Policy D) (Inv : SchedView D → P.State → Places → Prop) (q : Int) : Prop :=
  ∀ {v s s' pl slice}, Inv v s pl → P.nextSlice v s = some (s', some slice) → slice.length ≤ q

/-- Along a run no process waits for more than its turns. -/
theorem turns_runInv (valid : S.w.Valid) (hcs : 0 ≤ S.opt.csCost) (cores_pos : 0 < S.opt.cores)
    (pos : 0 ≤ q)
    (contract : Contract S.w S.policy Inv) (un : Uninterrupted S.w S.policy Inv)
    (conserving : S.policy.workConserving = true) (fifo : FirstInFirstOut S.policy Inv contents)
    (briefly : BriefSlices S.policy Inv q) :
    RunInv S.logged (Ordered Inv contents) (Turns S q) where
  init state start := by
    have empty : unreturned state.log = [] := by
      have := start.2.unreturned_eq
      rwa [fifo.nothing start.1.inv, List.map_eq_nil_iff] at this
    have vacuous : ∀ m, BeforeDue S.w.len (q + S.opt.csCost) (unreturned state.log) m := by
      intro m i t p entry
      rw [empty] at entry
      cases entry
    refine ⟨?_, fun _ _ kind => (by cases kind), vacuous _, fun _ _ _ => vacuous _,
      fun _ _ _ => vacuous _⟩
    rintro p s (here | ⟨c, here⟩)
    · cases here
    · cases here
  move {budget a b} move sound _ _ turns := by
    have valid : S.logged.w.Valid := valid
    have logged : Contract S.w S.policy.logged (Ordered Inv contents) :=
      contract.logged.and fifo.keptLog.kept
    have after : S.logged.Sound (Ordered Inv contents) budget b := move.sound valid hcs logged sound
    have order : InOrder contents a.eng.state := sound.policy.2
    have inv : Inv (S.logged.view a.eng) a.eng.state.state (places a.spots) := sound.policy.1.inv
    have turn_nonneg : 0 ≤ q + S.opt.csCost := by omega
    cases move with
    | arrive pending due hook =>
        obtain ⟨state, source, rfl⟩ := Option.map_eq_some_iff.mp hook
        exact turns.off fifo after hcs pos trivial rfl
          (.inr (order.join rfl rfl (fifo.arrival inv source)).2) fun _ _ _ => rfl
    | wake popped due hook =>
        exact turns.off fifo after hcs pos trivial rfl (.inr (fifo.wake_logged inv order hook))
          fun _ _ _ => rfl
    | @preempt e sp c p s f state seat runs ran left hook_eq hook =>
        obtain ⟨g, source, rfl⟩ := Option.map_eq_some_iff.mp hook_eq
        obtain ⟨state, called, rfl⟩ := Option.map_eq_some_iff.mp hook
        have now_eq : (S.logged.chargeRun e c p).now = e.now := by simp
        have grows : unreturned
          (⟨e.now, .preempt p (e.now - (e.cores c).runStart)⟩ :: e.state.log) =
            unreturned e.state.log ++ [(e.now, p)] :=
          (order.join rfl rfl (fifo.preempt inv source called)).2
        refine turns.off fifo after hcs pos trivial now_eq (.inr ?_) fun i _ busy => ?_
        · rw [← grows]
          dsimp only [Logged.push, Sim.view]
          rw [now_eq]
        · exact freed_core c { e.cores c with proc := none, freeSince := e.now } (by simp) rfl busy
    | @block e sp c p s heap state seat runs ran used more pushed hook =>
        obtain ⟨source, left⟩ := optCall_logged_left (fun _ _ => .inl rfl) hook
        have eq := (sound.startIo_eq valid seat runs used more).2
        refine turns.off fifo after hcs pos trivial ?_
          (.inl (order.leave left (fifo.leave inv (.inl source))).2)
          fun i _ busy => ?_
        · dsimp only
          rw [eq]
          simp [burstOver]
        · dsimp only at busy ⊢
          rw [eq] at busy ⊢
          exact freed_core c { e.cores c with proc := none, freeSince := e.now }
            (by simp [burstOver]) rfl busy
    | @complete e sp c p s state seat runs ran used last hook =>
        obtain ⟨source, left⟩ := optCall_logged_left (fun _ _ => .inr rfl) hook
        refine turns.off fifo after hcs pos trivial (by simp [finishProcess, burstOver])
          (.inl (order.leave left (fifo.leave inv (.inr source))).2) fun i _ busy => ?_
        exact freed_core c { e.cores c with proc := none, freeSince := e.now }
          (by simp [finishProcess, burstOver]) rfl busy
    | mark seat switching redecides => cases un.notReady.symm.trans redecides
    | @start e sp c p s deadline seat switching elapsed deadline_eq =>
        obtain ⟨hc, -, ok⟩ := sound.cores.seat p c s seat
        have brief := turns.brief p s (.inr ⟨c, seat⟩)
        have length_eq := ok.length_eq
        rw [sound.startRun_eq valid seat switching] at after ⊢
        refine ⟨turns.brief, fun i hi kind => ?_, turns.now, fun i hi busy => ?_, turns.held⟩
        · dsimp only at kind ⊢
          by_cases same : i = c
          · subst same
            rw [Function.update_self] at kind
            cases kind
          · rw [Function.update_of_ne same] at kind ⊢
            exact turns.switching i hi kind
        · dsimp only at busy ⊢
          by_cases same : i = c
          · subst same
            have proc_eq : (e.cores i).proc = some s.proc := ok.proc_eq
            refine (turns.core i hi (by simp [proc_eq])).mono ?_
            -- the run starts where the switch-in ends
            simp only [Function.update_self, Core.endsBy, startedCore, switching,
              Bool.false_eq_true,
              if_false, if_true]
            dsimp only at elapsed length_eq
            omega
          · rw [Function.update_of_ne same] at busy ⊢
            exact turns.core i hi busy
    | @pick e sp s state hook early =>
        obtain ⟨⟨state', r⟩, source, eq⟩ := Option.map_eq_some_iff.mp hook
        cases r with
        | none => cases eq
        | some slice =>
            cases eq
            have log : unreturned (⟨e.now, .slice s⟩ :: e.state.log) =
              (unreturned e.state.log).tail :=
              (order.take (fifo.pick inv source)).2
            refine ⟨fun p s' here => ?_, turns.switching, ?_, fun c hc busy => ?_,
              fun p s' here => ?_⟩
            · by_cases same : p = s.proc
              · subst same
                obtain rfl : s = s' := by simpa using here
                exact briefly inv source
              · simp only [Function.update_of_ne same] at here
                exact turns.brief p s' here
            · exact log ▸ turns.now.tail.mono (by dsimp only; omega)
            · exact log ▸ (turns.core c hc busy).tail.mono (by dsimp only; omega)
            · exact log ▸ turns.now.tail
    | @refuse e sp state hook early =>
        have log := refuse_log hook
        refine ⟨turns.brief, turns.switching, ?_, fun c hc busy => ?_, fun p s here => ?_⟩
        · dsimp only
          rw [log]
          exact turns.now
        · dsimp only
          rw [log]
          exact turns.core c hc busy
        · dsimp only
          rw [log]
          exact turns.held p s here
    | @place e sp c s held core_lt free fits =>
        rw [sound.placed_eq valid hcs held fits]
        refine ⟨fun p s' here => ?_, fun i hi kind => ?_, turns.now, fun i hi busy => ?_,
          fun p s' here => ?_⟩
        · by_cases same : p = s.proc
          · subst same
            obtain rfl : s = s' := by simpa using here
            exact turns.brief _ s (.inl held)
          · simp only [Function.update_of_ne same] at here
            exact turns.brief p s' here
        · dsimp only at kind ⊢
          by_cases same : i = c
          · subst same
            rw [Function.update_self, placedCore] at kind ⊢
            split_ifs at kind ⊢
            · exact le_rfl
            · cases kind
          · rw [Function.update_of_ne same] at kind ⊢
            exact turns.switching i hi kind
        · dsimp only at busy ⊢
          by_cases same : i = c
          · subst same
            refine (turns.held s.proc s held).mono ?_
            have brief := turns.brief s.proc s (.inl held)
            rw [Function.update_self, placedCore]
            split_ifs with switches
            · simp only [Core.endsBy, if_true]
              exact le_of_eq (by ring)
            · simp only [Core.endsBy, startedCore, seatedCore, Bool.false_eq_true, if_false]
              omega
          · rw [Function.update_of_ne same] at busy ⊢
            exact turns.core i hi busy
        · by_cases same : p = s.proc
          · subst same
            simp at here
          · simp only [Function.update_of_ne same] at here
            exact turns.held p s' here
  advance {budget a t} sound dispatched event first gt turns := by
    have order : InOrder contents a.eng.state := sound.policy.2
    have holds : Holds (places a.spots) (contents a.eng.state.state) :=
      fifo.holds sound.policy.1.inv
    refine ⟨turns.brief, fun c hc kind => ?_, fun i t₀ p entry => ?_, turns.core,
      fun p s here => ?_⟩
    · have := turns.switching c hc kind
      simp only [later]
      omega
    · -- a process waits, so every core is busy until the next event
      have ready : p ∈ contents a.eng.state.state := by
        rw [← order.unreturned_eq]
        exact List.mem_map_of_mem (List.mem_of_getElem? entry)
      have ready : a.spots p = .ready := places_eq_ready.mp ((holds.mem_iff p).mp ready)
      have busy : (a.eng.cores 0).proc ≠ none := by
        intro idle
        rcases dispatched.offered ⟨0, cores_pos, idle⟩ with none | ⟨idles, -⟩
        · exact none p ready
        · cases conserving.symm.trans idles
      obtain ⟨r, on⟩ := Option.ne_none_iff_exists'.mp busy
      obtain ⟨s, seat⟩ := sound.cores.owner 0 cores_pos r on
      have ok := (sound.cores.seat r 0 s seat).2.2
      have next : t ≤ (a.eng.cores 0).busyUntil := first (.slice r 0 s seat rfl)
      refine (le_trans ?_ (turns.core 0 cores_pos busy i t₀ p entry))
      refine next.trans ?_
      unfold Core.endsBy
      cases kind : (a.eng.cores 0).inCs with
      | true =>
          simp only [if_true]
          omega
      | false =>
          obtain ⟨-, -, -, -, busy_eq⟩ := ok.running kind
          simp only [Bool.false_eq_true, if_false]
          omega
    · exact absurd here (dispatched.noneHeld p s)

end Turns

/-! ## Round robin -/

/-- The quantum of round robin is `q`. -/
def RrOf (w : Workload) (q : Int) (v : SchedView D) (s : Rr) (pl : Places) : Prop :=
  RrInv w v s pl ∧ s.quantum = q

theorem rr_keeps_quantum (w : Workload) (q : Int) :
    Kept w (policyRr : Policy D) (RrInv w) fun _ s _ => s.quantum = q := by
  have enqueue : ∀ {s s' : Rr} {p}, s.quantum = q →
      ((queuePush s.ready p).map fun ready => { s with ready }) = some s' → s'.quantum = q := by
    rintro s s' p same run
    obtain ⟨ready, -, rfl⟩ := Option.map_eq_some_iff.mp run
    exact same
  refine ⟨fun _ same _ _ => same, fun _ same _ _ run => enqueue same run,
    fun _ same _ _ run => enqueue same run, fun {v s s' pl r} _ same _ _ run => ?_,
    fun _ same _ _ _ _ hook run => ?_, fun _ same _ _ run => ?_, fun _ same _ _ run => ?_⟩
  · simp only [policyRr, rrNextSlice] at run
    split_ifs at run
    · cases run
      exact same
    · obtain ⟨⟨p, ready⟩, -, eq⟩ := Option.map_eq_some_iff.mp run
      cases eq
      exact same
  · cases hook
    exact enqueue same run
  · rw [← Option.some.inj run]
    exact same
  · rw [← Option.some.inj run]
    exact same

theorem rrOf_contract (w : Workload) (q : Int) : Contract w (policyRr : Policy D) (RrOf w q) :=
  (rr_contract w).and (rr_keeps_quantum w q)

theorem rrOf_fifo (w : Workload) (q : Int) :
    FirstInFirstOut (policyRr : Policy D) (RrOf w q) fun s => s.ready.toList :=
  (rr_fifo w).mono fun inv => inv.1

/-- Round robin hands out slices of a quantum. -/
theorem rr_briefSlices (w : Workload) (q : Int) :
    BriefSlices (policyRr : Policy D) (RrOf w q) q := by
  intro v s s' pl slice inv run
  simp only [policyRr, rrNextSlice] at run
  split_ifs at run
  · cases run
  · obtain ⟨⟨p, ready⟩, -, eq⟩ := Option.map_eq_some_iff.mp run
    cases eq
    exact inv.2.le

variable [Double D]

/-- The simulation under `POLICY_RR`. -/
abbrev rr (S : Sim D) : Sim D := S.withPolicy policyRr

/-- A logged run of round robin starts with its contract and an empty queue. -/
theorem rr_launched {S : Sim D} {state : Rr} (started : Started S.rr state) :
    0 < S.params.quantum ∧ Launched S.rr.logged
      (Ordered (RrOf S.w S.params.quantum) fun s : Rr => s.ready.toList) ⟨state, []⟩ := by
  have pos : 0 < S.params.quantum := by
    have options := started.options
    by_contra none
    rw [checkOptions, if_pos ⟨rfl, not_lt.mp none⟩] at options
    cases options
  refine ⟨pos, started.ordered (rrOf_contract S.w _) (rrOf_fifo S.w _) ?_⟩
  cases started.created
  exact ⟨⟨QueueReady.init S.w.len, pos⟩, rfl⟩

/-- In every run of round robin, on any number of cores, a process waits in the queue for
at most a quantum and a switch for each of the other processes; only a dispatch takes
processes out of the queue, and it puts them on cores. -/
theorem rr_waits_le (S : Sim D) {state : Rr} (started : Started S.rr state) : S.rr.Logs state ∧
    ∀ point e, Reached S.rr.logged ⟨state, []⟩ point e →
      (∀ p ∈ e.state.state.ready.toList, ∃ t, joined p e.state.log = some t ∧
        e.now - t ≤ (S.w.len - 1) * (S.params.quantum + S.opt.csCost)) ∧
      (e.completed = S.w.len → e.state.state.ready.toList = []) ∧
      ∀ e', point = .settled → S.rr.logged.running e = true → S.rr.logged.dispatch e = some e' →
        ∃ picks, e.state.state.ready.toList = picks ++ e'.state.state.ready.toList ∧
          (∀ p ∈ picks, ∃ c < S.opt.cores, (e.cores c).proc = none ∧ (e'.cores c).proc = some p) ∧
          ∀ c < S.opt.cores, (e'.cores c).proc = (e.cores c).proc ∨
            ∃ p ∈ picks, (e'.cores c).proc = some p := by
  refine ⟨S.rr.logs state, fun point e reached => ?_⟩
  have valid : S.w.Valid := workloadValidate_ok started.validated
  obtain ⟨pos, launched⟩ := rr_launched started
  have hcs : 0 ≤ S.opt.csCost := launched.options.cs_nonneg
  have contract := rrOf_contract (D := D) S.w S.params.quantum
  have fifo := rrOf_fifo (D := D) S.w S.params.quantum
  obtain ⟨sp, course, turns⟩ := reached.course launched
    (turns_runInv (S := S.rr) valid hcs launched.options.cores_pos pos.le contract
      (rr_unwatching.calm contract).toUninterrupted rfl fifo (rr_briefSlices S.w _))
  obtain ⟨budget, sound⟩ := course.sound
  have order : InOrder (fun s : Rr => s.ready.toList) e.state := sound.policy.2
  have holds : Holds (places sp) e.state.state.ready.toList := fifo.holds sound.policy.1.inv
  refine ⟨fun p waits => ?_, fun complete => ?_, ?_⟩
  · have kept : p ∈ (unreturned e.state.log).map Prod.snd := by
      rw [order.unreturned_eq]
      exact waits
    obtain ⟨⟨t, p⟩, mem, rfl⟩ := List.mem_map.mp kept
    obtain ⟨i, entry⟩ := List.mem_iff_getElem?.mp mem
    refine ⟨t, order.joined_eq holds.nodup entry, ?_⟩
    have due : e.now ≤ t + (S.w.len - 1 - i) * (S.params.quantum + S.opt.csCost) :=
      turns.now i t p entry
    have ahead : 0 ≤ (i : Int) * (S.params.quantum + S.opt.csCost) :=
      mul_nonneg (by omega) (by omega)
    linarith
  · refine List.eq_nil_iff_forall_not_mem.mpr fun p mem => ?_
    have ready := places_eq_ready.mp ((holds.mem_iff p).mp mem)
    have below := sound.completed_lt (p := p) (sound.inside (by simp [ready])) (by simp [ready])
    exact absurd complete below.ne
  · rintro e' rfl running run
    obtain ⟨picks, seats, dispatches, log⟩ := reached.dispatch_picks launched running run
    obtain ⟨sp', course', -⟩ := (reached.dispatch running run).course launched RunInv.true
    obtain ⟨budget', sound'⟩ := course'.sound
    have order' : InOrder (fun s : Rr => s.ready.toList) e'.state := sound'.policy.2
    refine ⟨picks.map Slice.proc, order.takes order' log, fun p picked => ?_, fun c hc => ?_⟩
    · obtain ⟨s, mem, rfl⟩ := List.mem_map.mp picked
      obtain ⟨x, hx, rfl⟩ := List.mem_map.mp (dispatches.perm.mem_iff.mpr mem)
      obtain ⟨inside, free⟩ := dispatches.seated.free x hx
      exact ⟨x.1, inside, free, (dispatches.seated.on x hx).1⟩
    · by_cases here : c ∈ seats.map Prod.fst
      · obtain ⟨x, hx, rfl⟩ := List.mem_map.mp here
        refine .inr ⟨x.2.proc, List.mem_map_of_mem ?_, (dispatches.seated.on x hx).1⟩
        exact dispatches.perm.mem_iff.mp (List.mem_map_of_mem hx)
      · exact .inl (congrArg Core.proc (dispatches.seated.others c here).1)

theorem twinSim_rr_run : ((policyRr.create twinSim.rr.initView {}).toOption.bind fun s =>
      (twinSim.rr.logged.settledAfter ⟨s, []⟩ twinOrder 0).bind fun e₀ =>
        (twinSim.rr.logged.settledAfter ⟨s, []⟩ twinOrder 1).map fun e =>
          ((e₀.now, e₀.state.state.ready.toList, joined 1 e₀.state.log),
            (e.now, e.state.state.ready.toList, joined 1 e.state.log))) =
      some ((0, [0, 1], some 0), (2, [1, 0], some 0)) := by
  decide +kernel

/-- With a quantum of two ticks the second process has waited for two ticks when the first one
returns, which is as long as it may. -/
theorem twinSim_rrWaits : ∃ s e, Reached twinSim.rr.logged ⟨s, []⟩ .settled e ∧
    e.state.state.ready.toList = [1, 0] ∧ joined 1 e.state.log = some 0 ∧ e.now - 0 = 2 ∧
    e.now - 0 ≤ (twinSim.w.len - 1) * (twinSim.params.quantum + twinSim.opt.csCost) := by
  obtain ⟨s, e₀, e, created, -, reached, -, seen⟩ := twinSim_reached (P := policyRr)
    (f := fun e => (e.now, e.state.state.ready.toList, joined 1 e.state.log)) twinSim_rr_run
  simp only [Prod.mk.injEq] at seen
  obtain ⟨now, queue, since⟩ := seen
  have started : Started twinSim.rr s := ⟨twinWorkload_valid.validates, rfl, created⟩
  obtain ⟨-, points⟩ := rr_waits_le twinSim started
  obtain ⟨t, joins, bound⟩ := (points _ e reached).1 1 (by rw [queue]; simp)
  obtain rfl := Option.some.inj (since.symm.trans joins)
  exact ⟨s, e, reached, queue, since, by rw [now]; rfl, bound⟩

end Sim

end CpuSched
