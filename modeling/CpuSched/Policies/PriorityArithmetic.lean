import CpuSched.Policies.PriorityAging
import CpuSched.Policies.Protocol

/-!
# The arithmetic of the priority policies

The model computes with exact integers.  Here every signed operation of `enqueue` and
`prio_next_slice` is listed in the order of the source.  All of them stay in the 64-bit
range but for the product `q * k`, the least multiple of the aging period that is not
before the waiting time, with its sign changed.
-/

namespace CpuSched

variable {D : Type} {w : Workload} {sub : Int → Int → Int}

/-! ## The operations -/

/-- The results of the signed operations of `enqueue`. -/
def enqueueInts (v : SchedView D) (s : Prio) (p : Nat) : List Int :=
  if 0 < s.aging then
    let c := s.waited p - v.now
    let k := s.aging
    let q := if c.tmod k < 0 then c.tdiv k - 1 else c.tdiv k
    [c, c.tdiv k, c.tmod k, q, q * k, c - q * k]
  else []

/-- The results of the signed operations that set the aging deadline. -/
def deadlineInts (v : SchedView D) (s : Prio) (limit : Int) : List Int :=
  match s.root with
  | none => []
  | some root =>
      if s.preemptive = true ∧ 0 < s.aging then
        match Treap.maxRBelow s.links s.r limit (treapDepth v) (-1) (some root),
            Treap.maxR s.links s.r (treapDepth v) root with
        | some rLow, some rHigh =>
            if 0 ≤ rLow then [limit - rLow] else [rHigh - limit, s.aging - (rHigh - limit)]
        | _, _ => []
      else []

/-- The results of the signed operations of `prio_next_slice`. -/
def nextSliceInts (sub : Int → Int → Int) (v : SchedView D) (s : Prio) : List Int :=
  match s.root with
  | none => []
  | some root =>
      let k := s.aging
      let limit := if 0 < k then k - v.now.tmod k else 0
      (if 0 < k then [v.now.tmod k, k - v.now.tmod k] else []) ++
        match prioChoose sub v s root limit with
        | none => []
        | some p =>
            [v.now - s.readySince p, s.waited p + (v.now - s.readySince p)] ++
              match Treap.erase (nodeBefore v s) (baseLess sub v s) s.heapPrio
                (treapDepth v) s.links
                (some root) p with
              | none => []
              | some (links, root) => deadlineInts v (prioTaken s v.now links root p) limit

/-- The results of the signed operations of a call. -/
def prioInts (sub : Int → Int → Int) (v : SchedView D) (s : Prio) : Call → List Int
  | .arrival p => enqueueInts v { s with waited := Function.update s.waited p 0 } p
  | .wake p => enqueueInts v { s with waited := Function.update s.waited p 0 } p
  | .next => nextSliceInts sub v s
  | .preempt p _ => enqueueInts v s p
  | .block _ _ => []
  | .complete _ _ => []

/-- Some multiple of the aging period lies between the time `p` has spent outside the
ready set, counted from clock zero, and `2 ^ 63`. -/
def Rounds (aging : Int) (outside : Int) : Prop := 0 < aging → ∃ m, outside ≤ m * aging ∧
    m * aging ≤ 2 ^ 63

/-- The condition on a call: on the time that `enqueue` rounds up to a multiple. -/
def RoundsFor (v : SchedView D) (s : Prio) : Call → Prop
  | .arrival _ => Rounds s.aging v.now
  | .wake _ => Rounds s.aging v.now
  | .next => True
  | .preempt p _ => Rounds s.aging (v.now - s.waited p)
  | .block _ _ => True
  | .complete _ _ => True

/-! ## `enqueue` -/

/-- Of the operations of `enqueue` only the product can leave the range. -/
theorem enqueueInts_fit {v : SchedView D} {s : Prio} {p : Nat} (aging_le : s.aging ≤ int64Max)
    (waited_nonneg : 0 ≤ s.waited p) (waited_le : s.waited p ≤ v.now) (now_le : v.now ≤ int64Max) :
    (∀ x ∈ enqueueInts v s p, InI64 x) ↔ Rounds s.aging (v.now - s.waited p) := by
  unfold enqueueInts Rounds
  by_cases aging : 0 < s.aging
  · obtain ⟨c, hc⟩ : ∃ c, c = s.waited p - v.now := ⟨_, rfl⟩
    obtain ⟨k, hk⟩ : ∃ k, k = s.aging := ⟨_, rfl⟩
    rw [if_pos aging, ← hc, ← hk]
    rw [← hk] at aging aging_le
    have floor := floorDiv_eq c aging
    simp only [floor]
    have split := Int.mul_ediv_add_emod c k
    have low := Int.emod_nonneg c aging.ne'
    have high := Int.emod_lt_of_pos c aging
    have truncLow : -k < c.tmod k := by
      have := Int.tmod_lt_of_pos (-c) aging
      rw [Int.neg_tmod] at this
      omega
    have truncHigh := Int.tmod_lt_of_pos c aging
    have quotLow : c ≤ c / k := by
      rw [Int.le_ediv_iff_mul_le aging]
      nlinarith
    have quotHigh : c / k ≤ 0 := (Int.ediv_le_ediv aging (by omega)).trans_eq (Int.zero_ediv k)
    have product : c / k * k ≤ 0 := by
      have := mul_comm (c / k) k
      omega
    have remainder : c - c / k * k = c % k := by
      have := mul_comm (c / k) k
      omega
    have truncated : c / k ≤ c.tdiv k ∧ c.tdiv k ≤ c / k + 1 := by
      split_ifs at floor <;> omega
    have rounded : int64Min ≤ c / k * k ↔ ∃ m, v.now - s.waited p ≤ m * k ∧ m * k ≤ 2 ^ 63 := by
      unfold int64Min
      constructor
      · intro fits
        refine ⟨-(c / k), ?_, ?_⟩ <;> rw [neg_mul] <;> omega
      · rintro ⟨m, least, fits⟩
        have : -m ≤ c / k := by
          rw [Int.le_ediv_iff_mul_le aging, neg_mul]
          omega
        have := mul_le_mul_of_nonneg_right this aging.le
        rw [neg_mul] at this
        omega
    simp only [List.forall_mem_cons, List.not_mem_nil, false_implies, implies_true, and_true,
      forall_const, aging, ← rounded, remainder]
    unfold InI64 int64Min int64Max at *
    omega
  · simp [aging]

/-! ## `prio_next_slice` -/

/-- The times of the processes that the policy knows. -/
structure PrioTimes (aging : Int) (v : SchedView D) (s : Prio) (pl : Places) : Prop where
  aging_eq : s.aging = aging
  ready : ∀ p, pl p = .ready →
    0 ≤ s.waited p ∧ s.waited p ≤ s.readySince p ∧ s.readySince p ≤ v.now
  out : ∀ p slice, pl p = .out slice → 0 ≤ s.waited p ∧ s.waited p ≤ v.now

/-- The remainders on the two sides of the limit leave a step of at most a period. -/
theorem deadlineInts_fit {v : SchedView D} {s : Prio} {pl : Places} {tree : Tree}
    (inv : PrioTree sub w v s pl tree) (n_eq : v.n = w.len) (aging_le : s.aging ≤ int64Max)
    {limit : Int} (limit_ok : 0 < s.aging → 0 < limit ∧ limit ≤ s.aging) :
    ∀ x ∈ deadlineInts v s limit, InI64 x := by
  unfold deadlineInts
  rw [inv.root]
  cases root : tree.root with
  | none => simp
  | some root' =>
      by_cases aged : s.preemptive = true ∧ 0 < s.aging
      · have enough : tree.nodes.length < treapDepth v := by
          rw [treapDepth, n_eq]
          exact inv.treapHolds.length_lt
        have bounds : ∀ y ∈ tree.nodes, 0 ≤ s.r y ∧ s.r y < s.aging := fun y hy =>
          (inv.keyed y ((inv.holds.mem_iff y).mp hy)).bounds aged.2
        obtain ⟨rLow, foundLow, low⟩ := maxRBelow_spec (k := limit) (a := -1) tree
          inv.treap.spells inv.treapHolds.monotone enough
        obtain ⟨rHigh, foundHigh, ⟨z, hz, rank_z⟩, -⟩ := maxR_spec tree root inv.treap.spells
          inv.treapHolds.monotone enough.le
        rw [root] at foundLow
        have highZ := bounds z hz
        have limit_ok := limit_ok aged.2
        simp only [if_pos aged, foundLow, foundHigh]
        unfold InI64 int64Min int64Max at *
        rcases low with ⟨rfl, above⟩ | ⟨y, hy, rfl, hlt, -⟩
        · have := above z hz
          simp only [Int.reduceNeg, Int.reduceLE, if_false, List.forall_mem_cons, List.not_mem_nil,
            false_implies, implies_true, and_true]
          omega
        · have := bounds y hy
          simp only [if_pos this.1, List.forall_mem_cons, List.not_mem_nil, false_implies,
            implies_true, and_true]
          omega
      · simp [aged]

/-- No operation of `prio_next_slice` leaves the range. -/
theorem nextSliceInts_fit (valid : w.Valid) {aging : Int} {v : SchedView D} {s : Prio} {pl : Places}
    (inv : PrioInv sub w v s pl) (times : PrioTimes aging v s pl) (ok : ViewOk w v pl)
    (aging_le : s.aging ≤ int64Max) (now_le : v.now ≤ int64Max) :
    ∀ x ∈ nextSliceInts sub v s, InI64 x := by
  obtain ⟨tree, inv⟩ := inv
  unfold nextSliceInts
  rw [inv.root]
  cases root_eq : tree.root with
  | none => simp
  | some root =>
      obtain ⟨p, choose, chosen⟩ := prioChoose_spec valid inv.treapHolds ok.procs_eq ok.n_eq root_eq
        (prioLimit s v.now)
      obtain ⟨links, tree', erased, inv', -⟩ := inv.erase valid ok chosen.mem (z := .done) (by simp)
      rw [root_eq] at erased
      obtain ⟨nonneg, le, since_le⟩ := times.ready p ((inv.holds.mem_iff p).mp chosen.mem)
      have now_nonneg := ok.now_nonneg
      have limit_ok : 0 < s.aging → 0 < prioLimit s v.now ∧ prioLimit s v.now ≤ s.aging := by
        intro aged
        rw [prioLimit, if_pos aged]
        exact limit_bounds aged now_nonneg
      have due := deadlineInts_fit inv' ok.n_eq aging_le limit_ok
      have limit_eq : (if 0 < s.aging then s.aging - v.now.tmod s.aging else 0) =
        prioLimit s v.now := rfl
      simp only [limit_eq, choose, erased, List.forall_mem_append, List.forall_mem_cons,
        List.not_mem_nil, false_implies, implies_true, and_true]
      refine ⟨?_, ?_, due⟩
      · split_ifs with aged
        · have := Int.tmod_nonneg s.aging now_nonneg
          have := Int.tmod_lt_of_pos v.now aged
          simp only [List.forall_mem_cons, List.not_mem_nil, false_implies, implies_true, and_true]
          unfold InI64 int64Min int64Max at *
          omega
        · simp
      · unfold InI64 int64Min int64Max at *
        omega

/-! ## What the calls keep -/

namespace PrioTimes

variable {aging : Int} {v : SchedView D} {s s' : Prio} {pl : Places} {p : Nat}

/-- `enqueue` stamps the process. -/
theorem enqueue (times : PrioTimes aging v s pl) (waited : 0 ≤ s.waited p ∧ s.waited p ≤ v.now)
    (run : prioEnqueue sub v s p = some s') : PrioTimes aging v s' (pl.move p .ready) := by
  obtain ⟨aging_eq, waited_eq, since⟩ := prioEnqueue_fields run
  refine ⟨aging_eq.trans times.aging_eq, fun q ready => ?_, fun q slice out => ?_⟩
  · rw [waited_eq, since]
    by_cases same : q = p
    · subst same
      rw [Function.update_self]
      exact ⟨waited.1, waited.2, le_rfl⟩
    · rw [pl.move_of_ne _ same] at ready
      rw [Function.update_of_ne same]
      exact times.ready q ready
  · have same : q ≠ p := by
      rintro rfl
      simp at out
    rw [pl.move_of_ne _ same] at out
    rw [waited_eq]
    exact times.out q slice out

/-- The wait of a new burst starts at 0. -/
theorem newBurst (times : PrioTimes aging v s pl) (now_nonneg : 0 ≤ v.now)
    (idle : pl p = .new ∨ pl p = .blocked) (run : prioNewBurst sub v s p = some s') :
    PrioTimes aging v s' (pl.move p .ready) := by
  have fresh : PrioTimes aging v { s with waited := Function.update s.waited p 0 } pl := by
    refine ⟨times.aging_eq, fun q ready => ?_, fun q slice out => ?_⟩
    · have same : q ≠ p := by
        rintro rfl
        rcases idle with h | h <;> cases ready.symm.trans h
      simp only [Function.update_of_ne same]
      exact times.ready q ready
    · have same : q ≠ p := by
        rintro rfl
        rcases idle with h | h <;> cases out.symm.trans h
      simp only [Function.update_of_ne same]
      exact times.out q slice out
  exact fresh.enqueue (by simp [now_nonneg]) run

/-- A pick adds the time since the process became ready. -/
theorem pick (valid : w.Valid) {preemptive : Bool} (times : PrioTimes aging v s pl)
    (inv : PrioInvBoth sub preemptive w v s pl) (ok : ViewOk w v pl) {r : Option Slice}
    (run : prioNextSlice sub v s = some (s', r)) : PrioTimes aging v s' (pl.afterNext r) := by
  cases r with
  | none => exact prioNextSlice_none valid inv.inv ok run ▸ times
  | some slice =>
      obtain ⟨tree, links, tree', source, rfl, chosen, -⟩ := prioNextSlice_inv valid inv.inv ok run
      have ready := (source.holds.mem_iff _).mp chosen.mem
      refine ⟨times.aging_eq, fun q ready' => ?_, fun q slice' out => ?_⟩
      · have same : q ≠ slice.proc := by
          rintro rfl
          simp [Places.afterNext] at ready'
        rw [Places.afterNext, pl.move_of_ne _ same] at ready'
        simp only [prioTaken, Function.update_of_ne same]
        exact times.ready q ready'
      · by_cases same : q = slice.proc
        · subst same
          have := times.ready _ ready
          simp only [prioTaken, Function.update_self]
          omega
        · rw [Places.afterNext, pl.move_of_ne _ same] at out
          simp only [prioTaken, Function.update_of_ne same]
          exact times.out q slice' out

/-- A process that blocks or completes is no longer known. -/
theorem leave (times : PrioTimes aging v s pl) {place : Place}
    (kind : place = .blocked ∨ place = .done) :
    PrioTimes aging v s (pl.move p place) := by
  have ne : ∀ q z, pl.move p place q = z → (z = .ready ∨ ∃ slice, z = .out slice) → pl q = z := by
    intro q z here kind'
    by_cases same : q = p
    · subst same
      rw [Places.move_self] at here
      rcases kind with rfl | rfl <;> rcases kind' with rfl | ⟨slice, rfl⟩ <;> cases here
    · rwa [pl.move_of_ne _ same] at here
  exact ⟨times.aging_eq, fun q ready => times.ready q (ne q _ ready (.inl rfl)),
    fun q slice out => times.out q slice (ne q _ out (.inr ⟨slice, rfl⟩))⟩

theorem view {v' : SchedView D} (times : PrioTimes aging v s pl) (now_le : v.now ≤ v'.now) :
    PrioTimes aging v' s pl :=
  ⟨times.aging_eq, fun q ready => ⟨(times.ready q ready).1, (times.ready q ready).2.1,
    (times.ready q ready).2.2.trans now_le⟩, fun q slice out =>
    ⟨(times.out q slice out).1, (times.out q slice out).2.trans now_le⟩⟩

end PrioTimes

theorem prio_times (valid : w.Valid) {aging : Int} : Kept (D := D) w (policyPrioWith sub)
    (PrioInvBoth sub false w) (PrioTimes aging) where
  view _ times _ step := times.view step.now_le
  arrival _ times ok new run := times.newBurst ok.now_nonneg (.inl new) run
  wake _ times ok blocked run := times.newBurst ok.now_nonneg (.inr blocked) run
  next inv times ok _ run := times.pick valid inv ok run
  preempt _ _ _ _ _ _ hook := by simp [policyPrioWith] at hook
  block _ times _ _ run := Option.some.inj run ▸ times.leave (.inl rfl)
  complete _ times _ _ run := Option.some.inj run ▸ times.leave (.inr rfl)

theorem prioP_times (valid : w.Valid) {aging : Int} : Kept (D := D) w (policyPrioPWith sub)
    (PrioInvBoth sub true w) (PrioTimes aging) where
  view _ times _ step := times.view step.now_le
  arrival _ times ok new run := times.newBurst ok.now_nonneg (.inl new) run
  wake _ times ok blocked run := times.newBurst ok.now_nonneg (.inr blocked) run
  next inv times ok _ run := times.pick valid inv ok run
  preempt _ times _ out _ _ hook run := by
    cases hook
    exact times.enqueue (times.out _ _ out) run
  block _ times _ _ run := Option.some.inj run ▸ times.leave (.inl rfl)
  complete _ times _ _ run := Option.some.inj run ▸ times.leave (.inr rfl)

/-! ## The runs -/

/-- The remainders of the queued processes are those of a division by the period. -/
def RemaindersOk (s : Prio) (pl : Places) : Prop :=
  0 < s.aging → ∀ p, pl p = .ready → 0 ≤ s.r p ∧ s.r p < s.aging

theorem PrioInv.remainders {v : SchedView D} {s : Prio} {pl : Places} (inv : PrioInv sub w v s pl) :
    RemaindersOk s pl := by
  obtain ⟨tree, inv⟩ := inv
  exact fun aged p ready => (inv.keyed p ready).bounds aged

/-- A call leaves the range exactly when its product does. -/
theorem prioInts_fit (valid : w.Valid) {aging : Int} {v : SchedView D} {s : Prio} {pl : Places}
    {c : Call} (inv : PrioInv sub w v s pl) (times : PrioTimes aging v s pl) (ok : ViewOk w v pl)
    (aging_le : aging ≤ int64Max) (now_le : v.now ≤ int64Max) (allowed : c.Allowed w v pl) :
    (∀ x ∈ prioInts sub v s c, InI64 x) ↔ RoundsFor v s c := by
  rw [← times.aging_eq] at aging_le
  have now_nonneg := ok.now_nonneg
  have newBurst : ∀ p, (∀ x ∈ enqueueInts v { s with waited := Function.update s.waited p 0 } p,
    InI64 x) ↔
      Rounds s.aging v.now := by
    intro p
    have fit := enqueueInts_fit (s := { s with waited := Function.update s.waited p 0 }) (p := p)
      aging_le (by simp) (by simpa using now_nonneg) now_le
    rw [fit]
    simp
  cases c with
  | arrival p => exact newBurst p
  | wake p => exact newBurst p
  | next => exact iff_of_true (nextSliceInts_fit valid inv times ok aging_le now_le) trivial
  | preempt p ran =>
      obtain ⟨⟨slice, out, -⟩, -⟩ := allowed
      obtain ⟨nonneg, le⟩ := times.out p slice out
      exact enqueueInts_fit aging_le nonneg le now_le
  | block p ran => exact iff_of_true (by simp [prioInts]) trivial
  | complete p ran => exact iff_of_true (by simp [prioInts]) trivial

theorem prioTimes_start {params : PolicyParams} {preemptive : Bool} {v : SchedView D} {s : Prio}
    (created : prioCreateWith preemptive v params = .ok s) :
    PrioInvBoth sub preemptive w v s (fun _ => .new) ∧
      PrioTimes params.aging v s fun _ => .new := by
  refine ⟨prioCreate_inv created, ?_⟩
  cases created
  exact ⟨rfl, by simp, by simp⟩

section Throughout

variable {params : PolicyParams} {v : SchedView D} {s : Prio} {pl : Places}
  {calls : List (SchedView D × Call)}

theorem prio_throughout (valid : w.Valid) (aging_le : params.aging ≤ int64Max)
    (run : Protocol w policyPrio params v s pl)
    (follows : FollowsProtocol w policyPrio v s pl calls)
    (clock : ∀ x ∈ calls, x.1.now ≤ int64Max) :
    policyPrio.Throughout RemaindersOk (fun v s c => ∀ x ∈ prioInts satSub v s c, InI64 x) s pl
        calls ↔
      policyPrio.Throughout (fun _ _ => True) RoundsFor s pl calls := by
  have contract : Contract (D := D) w policyPrio (PrioInvBoth satSub false w) :=
    prio_contract valid
  have keeps : ∀ {v s pl}, Protocol w policyPrio params v s pl → _ ∧ ViewOk w v pl := fun run =>
    run.keep (contract.and (prio_times valid)) fun v s _ created => prioTimes_start created
  exact Protocol.throughout_iff (V := fun v => v.now ≤ int64Max)
    (fun run => (keeps run).1.1.inv.remainders)
    (fun run allowed now_le => prioInts_fit valid (keeps run).1.1.inv (keeps run).1.2
      (keeps run).2 aging_le now_le allowed) run follows clock

theorem prioP_throughout (valid : w.Valid) (aging_le : params.aging ≤ int64Max)
    (run : Protocol w policyPrioP params v s pl)
    (follows : FollowsProtocol w policyPrioP v s pl calls)
    (clock : ∀ x ∈ calls, x.1.now ≤ int64Max) :
    policyPrioP.Throughout RemaindersOk (fun v s c => ∀ x ∈ prioInts satSub v s c, InI64 x) s pl
        calls ↔
      policyPrioP.Throughout (fun _ _ => True) RoundsFor s pl calls := by
  have contract : Contract (D := D) w policyPrioP (PrioInvBoth satSub true w) :=
    prioP_contract valid
  have keeps : ∀ {v s pl}, Protocol w policyPrioP params v s pl → _ ∧ ViewOk w v pl := fun run =>
    run.keep (contract.and (prioP_times valid)) fun v s _ created => prioTimes_start created
  exact Protocol.throughout_iff (V := fun v => v.now ≤ int64Max)
    (fun run => (keeps run).1.1.inv.remainders)
    (fun run allowed now_le => prioInts_fit valid (keeps run).1.1.inv (keeps run).1.2
      (keeps run).2 aging_le now_le allowed) run follows clock

end Throughout

/-- No operation of `prio` and `prio-p` leaves the 64-bit range in a run in which every
`enqueue` has a multiple of the aging period to round to, and in no other run; the
remainders are those of a division in every state. -/
theorem prio_arithmetic (valid : w.Valid) {params : PolicyParams}
    (aging_le : params.aging ≤ int64Max)
    {v : SchedView D} (ok : ViewOk w v fun _ => .new)
    {calls : List (SchedView D × Call)} (clock : ∀ x ∈ calls, x.1.now ≤ int64Max) :
    (∀ s, policyPrio.create v params = .ok s →
      FollowsProtocol w policyPrio v s (fun _ => .new) calls →
      (policyPrio.Throughout RemaindersOk (fun v s c => ∀ x ∈ prioInts satSub v s c, InI64 x) s
          (fun _ => .new) calls ↔
        policyPrio.Throughout (fun _ _ => True) RoundsFor s (fun _ => .new) calls)) ∧
    ∀ s, policyPrioP.create v params = .ok s →
      FollowsProtocol w policyPrioP v s (fun _ => .new) calls →
      (policyPrioP.Throughout RemaindersOk (fun v s c => ∀ x ∈ prioInts satSub v s c, InI64 x) s
          (fun _ => .new) calls ↔
        policyPrioP.Throughout (fun _ _ => True) RoundsFor s (fun _ => .new) calls) :=
  ⟨fun _ created follows => prio_throughout valid aging_le (.create ok created) follows clock,
    fun _ created follows => prioP_throughout valid aging_le (.create ok created) follows clock⟩

/-- A time that is a period before the end of the range has a multiple to round to. -/
theorem rounds_of_le {aging outside : Int} (le : outside + aging ≤ 2 ^ 63) :
    Rounds aging outside := by
  intro pos
  refine ⟨(outside + aging - 1) / aging, ?_, ?_⟩
  · have := Int.lt_ediv_add_one_mul_self (outside + aging - 1) pos
    rw [add_mul, one_mul] at this
    omega
  · have := Int.ediv_mul_le (outside + aging - 1) pos.ne'
    omega

theorem Policy.throughout_true (P : Policy D) (s : P.State) (pl : Places)
    (calls : List (SchedView D × Call)) :
    P.Throughout (fun _ _ => True) (fun _ _ _ => True) s pl calls := by
  induction calls generalizing s pl with
  | nil => trivial
  | cons first rest ih => exact ⟨trivial, trivial, fun s' r _ => ih s' _⟩

/-- While the clock is a period before the end of the range, every `enqueue` has a multiple to
round to. -/
theorem prioP_rounds (valid : w.Valid) {params : PolicyParams} {v : SchedView D}
    (ok : ViewOk w v fun _ => .new) {calls : List (SchedView D × Call)}
    (early : ∀ x ∈ calls, x.1.now + params.aging ≤ 2 ^ 63) {s : Prio}
    (created : policyPrioP.create v params = .ok s)
    (follows : FollowsProtocol w policyPrioP v s (fun _ => .new) calls) :
    policyPrioP.Throughout (fun _ _ => True) RoundsFor s (fun _ => .new) calls := by
  have contract : Contract (D := D) w policyPrioP (PrioInvBoth satSub true w) :=
    prioP_contract valid
  have keeps : ∀ {v s pl}, Protocol w policyPrioP params v s pl →
      (PrioInvBoth satSub true w v s pl ∧ PrioTimes params.aging v s pl) ∧ ViewOk w v pl :=
    fun run => run.keep (contract.and (prioP_times valid)) fun v s _ created => by
      refine ⟨prioCreate_inv created, ?_⟩
      cases created
      exact ⟨rfl, by simp, by simp⟩
  refine (Protocol.throughout_iff (V := fun v => v.now + params.aging ≤ 2 ^ 63)
    (fun _ => trivial) (fun run allowed le => ?_) (.create ok created) follows early).mp
    (policyPrioP.throughout_true s _ calls)
  rename_i v' s' pl' c
  obtain ⟨⟨-, times⟩, -⟩ := keeps run
  rw [← times.aging_eq] at le
  refine iff_of_true trivial ?_
  cases c with
  | arrival p => exact rounds_of_le le
  | wake p => exact rounds_of_le le
  | preempt p ran =>
      obtain ⟨⟨slice, out, -⟩, -⟩ := allowed
      have := times.out p slice out
      exact rounds_of_le (by omega)
  | next => trivial
  | block p ran => trivial
  | complete p ran => trivial

/-- The second process comes before the first one. -/
def pausingBehind : List (Lent × Call) :=
  [(pausingStart, .arrival 0), (pausingStart, .next), (⟨1, [(2, 3), (5, 5)]⟩, .arrival 1),
    (⟨2, [(1, 3), (5, 5)]⟩, .preempt 0 2), (⟨2, [(1, 3), (5, 5)]⟩, .next),
    (⟨7, [(1, 3), (0, 5)]⟩, .complete 1 5), (⟨7, [(1, 3), (0, 5)]⟩, .next),
    (⟨8, [(0, 3), (0, 5)]⟩, .block 0 1), (⟨10, [(1, 1), (0, 5)]⟩, .wake 0),
    (⟨10, [(1, 1), (0, 5)]⟩, .next)]

theorem pausing_prioP_run : ((policyPrioP.runs pausing { aging := 3 } noteAnswers pausingStart []
    pausingBehind).map fun e => (e.1.now, e.2.2.2)) =
      some (10, [(0, 1), (0, 1), (1, 5), (0, 3)]) := by
  decide +kernel

/-- No operation leaves the range in a run with a preemption, a block and a wake-up. -/
theorem pausing_prioArithmetic :
    ∃ s, policyPrioP.create (pausingStart.view pausing) { aging := 3 } = .ok s ∧
    policyPrioP.Throughout RemaindersOk (fun v s c => ∀ x ∈ prioInts satSub v s c, InI64 x) s
      (fun _ => .new) (pausingBehind.map fun call => (call.1.view pausing, call.2)) := by
  obtain ⟨e, run, -⟩ := Option.map_eq_some_iff.mp pausing_prioP_run
  obtain ⟨s, created, follows⟩ := Policy.runs_followsProtocol run
  have ok : ViewOk pausing (pausingStart.view pausing) fun _ => .new := Lent.start_ok le_rfl
  have clock : ∀ x ∈ pausingBehind.map fun call => (call.1.view pausing, call.2),
      x.1.now ≤ 10 := by
    intro x hx
    obtain ⟨call, mem, rfl⟩ := List.mem_map.mp hx
    exact of_decide_eq_true (List.all_eq_true.mp
      (show pausingBehind.all (fun call => decide (call.1.now ≤ 10)) = true from rfl) call mem)
  have rounds := prioP_rounds pausing_valid ok (fun x hx => by
    have := clock x hx
    show x.1.now + 3 ≤ 2 ^ 63
    omega) created follows
  exact ⟨s, created, ((prio_arithmetic pausing_valid
    (show ({ aging := 3 } : PolicyParams).aging ≤ int64Max by decide) ok
    fun x hx => (clock x hx).trans (by decide)).2 s created follows).mpr rounds⟩

/-- One tick that arrives after more than half of the range. -/
def lateTick : Workload := ⟨[processMake 1 (2 ^ 62 + 2) 1]⟩

/-- The view of its arrival. -/
def lateTickView : SchedView Float :=
  Lent.view lateTick ⟨2 ^ 62 + 2, [(1, 1)]⟩

/-- With a period that it exceeds by one tick the product is `-2 ^ 63 - 2`. -/
theorem lateTick_overflows : workloadValidate lateTick = .ok () ∧
    ({ aging := 2 ^ 62 + 1 } : PolicyParams).Admitted ∧
    ({ aging := 2 ^ 62 + 1 } : PolicyParams).aging ≤ int64Max ∧
    ∃ s, policyPrio.create lateTickView { aging := 2 ^ 62 + 1 } = .ok s ∧
      ViewOk lateTick lateTickView (fun _ => .new) ∧ lateTickView.now ≤ int64Max ∧
      FollowsProtocol lateTick policyPrio lateTickView s (fun _ => .new)
        [(lateTickView, .arrival 0)] ∧
      ¬policyPrio.Throughout RemaindersOk (fun v s c => ∀ x ∈ prioInts satSub v s c, InI64 x) s
        (fun _ => .new) [(lateTickView, .arrival 0)] := by
  have view : ViewOk lateTick lateTickView fun _ => .new :=
    Lent.start_ok (by decide)
  have step : ViewStep (fun _ => .new) lateTickView lateTickView :=
    ⟨rfl, rfl, rfl, rfl, le_rfl, Iff.rfl, fun _ _ => rfl, fun _ _ => rfl, fun _ _ => rfl⟩
  refine ⟨?_, ⟨by decide, by decide, by decide, by decide, by decide, by decide, by decide,
    by decide, by decide⟩, by decide, _, rfl, view, by decide,
    ⟨view, step, ⟨by decide, rfl, by decide⟩, fun _ _ _ => trivial⟩, ?_⟩
  · have sorted : (lateTick.items.map Process.pid).mergeSort (· ≤ ·) = [1] :=
      List.mergeSort_of_pairwise (by decide)
    have items : validateItems lateTick.items 0 0 = .ok (2 ^ 62 + 2, 1) := rfl
    have sum : ckAddI64 (2 ^ 62 + 2) 1 = some (2 ^ 62 + 3) := rfl
    rw [workloadValidate, if_neg (by decide), items]
    simp only [sum, sorted]
    rfl
  · rintro ⟨-, first, -⟩
    have product := first (-(2 ^ 63) - 2) (by decide)
    exact absurd product (by decide)

end CpuSched
