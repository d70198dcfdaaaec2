import CpuSched.Policies.PriorityContract
import CpuSched.Policy.Kept

/-!
# Aging

The effective priority of a ready process is `priority - floor(W / K)`, with `W` the
ticks it has spent in the ready set during its current burst, replayed here from the
log of the calls.  The policy never computes it: it keeps the quotient and the
remainder of the waiting time at clock zero and moves a threshold.  `base` saturates,
so the order it picks by is that of the effective priority less what the saturation
took off.
-/

namespace CpuSched

variable {D : Type} {w : Workload} {sub : Int → Int → Int}

/-! ## The time in the ready set -/

/-- The stays of a process in the ready set during its current burst: the ticks of
those that are over, and the start of the one that is not. -/
structure Stays where
  past : Int
  since : Option Int

/-- The ticks of all stays up to `now`. -/
def Stays.upTo (s : Stays) (now : Int) : Int :=
  match s.since with
  | none => s.past
  | some t => s.past + (now - t)

/-- The stays of `p`, replayed from the log.  An arrival and a wake-up start a burst,
a process handed back by `on_preempt` is still in the same one. -/
def staysOf (p : Nat) : List TimedCall → Stays
  | [] => ⟨0, none⟩
  | call :: before =>
      match call.call with
      | .arrival q => if q = p then ⟨0, some call.now⟩ else staysOf p before
      | .ready q => if q = p then ⟨0, some call.now⟩ else staysOf p before
      | .preempt q _ =>
          if q = p then ⟨(staysOf p before).past, some call.now⟩ else staysOf p before
      | .slice s =>
          if s.proc = p then ⟨(staysOf p before).upTo call.now, none⟩ else staysOf p before
      | .block _ _ => staysOf p before
      | .complete _ _ => staysOf p before

/-- The ticks `p` has spent in the ready set during its current burst. -/
def readyTime (log : List TimedCall) (now : Int) (p : Nat) : Int := (staysOf p log).upTo now

/-- `priority - floor(W / K)`, or the priority without aging. -/
def effectivePriority (w : Workload) (aging : Int) (log : List TimedCall) (now : Int)
    (p : Nat) : Int :=
  if 0 < aging then (w.proc p).priority - readyTime log now p / aging else (w.proc p).priority

/-- What the saturation of `base` takes off `priority - floor((W - now) / K)`. -/
def saturated (w : Workload) (aging : Int) (log : List TimedCall) (now : Int) (p : Nat) : Int :=
  if 0 < aging then
    max 0 ((w.proc p).priority - (readyTime log now p - now) / aging - int64Max)
  else 0

/-! ## The order of the picks -/

/-- A threshold on the remainders stands for the carry of a sum of quotients. -/
theorem ediv_add_split (c now : Int) {k : Int} (hk : 0 < k) :
    (c + now) / k = c / k + now / k + (if k - now % k ≤ c % k then 1 else 0) := by
  have hc := Int.mul_ediv_add_emod c k
  have hnow := Int.mul_ediv_add_emod now k
  have lowC := Int.emod_nonneg c hk.ne'
  have highC := Int.emod_lt_of_pos c hk
  have lowN := Int.emod_nonneg now hk.ne'
  have highN := Int.emod_lt_of_pos now hk
  split_ifs with carry
  · refine ((Int.ediv_emod_unique hk).mpr ⟨?_, (by omega : 0 ≤ c % k + now % k - k), by omega⟩).1
    rw [mul_add, mul_add, mul_one]
    omega
  · refine ((Int.ediv_emod_unique hk).mpr ⟨?_, (by omega : 0 ≤ c % k + now % k), by omega⟩).1
    rw [mul_add, mul_add, mul_zero]
    omega

/-- The keys that `prio_next_slice` compares order the nodes by `score`, once the nodes
at or above the limit are bumped. -/
structure Scored (sub : Int → Int → Int) (s : Prio) (limit : Int) (score : Nat → Int)
    (shift : Int) (nodes : List Nat) : Prop where
  plain : ¬0 < s.aging → ∀ y ∈ nodes, sub (s.base y) 0 = score y + shift
  below : 0 < s.aging → ∀ y ∈ nodes, s.r y < limit → sub (s.base y) 0 = score y + shift
  above : 0 < s.aging → ∀ y ∈ nodes, limit ≤ s.r y → sub (s.base y) 0 = score y + shift + 1 ∧
    sub (s.base y) 1 = score y + shift

/-- The chosen node is the least one by the score. -/
theorem PrioChosen.least {v : SchedView D} (procs_eq : v.procs = w.proc) {s : Prio}
    {nodes : List Nat} {limit : Int} {p : Nat} (chosen : PrioChosen sub v s nodes limit p)
    {score : Nat → Int} {shift : Int} (scored : Scored sub s limit score shift nodes)
    (pids : ∀ x ∈ nodes, ∀ y ∈ nodes, (w.proc x).pid = (w.proc y).pid → x = y) :
    w.Least score nodes p := by
  have less : ∀ x y, baseLess sub v s x y = true → sub (s.base x) 0 < sub (s.base y) 0 ∨
      (sub (s.base x) 0 = sub (s.base y) 0 ∧ ((w.proc x).arrival < (w.proc y).arrival ∨
        ((w.proc x).arrival = (w.proc y).arrival ∧ (w.proc x).pid < (w.proc y).pid))) := by
    intro x y h
    rw [← procs_eq]
    exact (keyLess_iff v s x 0 y 0).mp h
  intro y hy ne
  unfold Workload.Before
  cases chosen with
  | plain aging least =>
      obtain ⟨_, ⟨⟩, first⟩ := least.least y hy
      have hp := scored.plain aging p (least.mem p rfl)
      have := scored.plain aging y hy
      have := less p y (first ne)
      omega
  | @aged low high aging below above better =>
      -- within either side of the limit the nodes are in order of the score
      have lower : ∀ l, low = some l → l ∈ nodes ∧ s.r l < limit ∧
          (s.r y < limit → y ≠ l → w.Before score l y) := by
        rintro l rfl
        obtain ⟨mem, side⟩ := below.mem l rfl
        refine ⟨mem, side, fun side' ne => ?_⟩
        obtain ⟨_, ⟨⟩, first⟩ := below.least y ⟨hy, side'⟩
        have := scored.below aging l mem side
        have := scored.below aging y hy side'
        have := less l y (first ne)
        unfold Workload.Before
        omega
      have upper : ∀ h, high = some h → h ∈ nodes ∧ limit ≤ s.r h ∧
          (limit ≤ s.r y → y ≠ h → w.Before score h y) := by
        rintro h rfl
        obtain ⟨mem, side⟩ := above.mem h rfl
        refine ⟨mem, side, fun side' ne => ?_⟩
        obtain ⟨_, ⟨⟩, first⟩ := above.least y ⟨hy, side'⟩
        have := (scored.above aging h mem side).1
        have := (scored.above aging y hy side').1
        have := less h y (first ne)
        unfold Workload.Before
        omega
      have noneLow : low = none → limit ≤ s.r y := by
        rintro rfl
        have := below.eq_none y
        simp only [hy, true_and] at this
        omega
      have noneHigh : high = none → s.r y < limit := by
        rintro rfl
        have := above.eq_none y
        simp only [hy, true_and] at this
        omega
      rcases better with ⟨none, found⟩ | ⟨found, none⟩ | ⟨l, h, foundLow, foundHigh, rfl⟩
      · exact (upper p found).2.2 (noneLow none) ne
      · exact (lower p found).2.2 (noneHigh none) ne
      · obtain ⟨memL, sideL, orderL⟩ := lower l foundLow
        obtain ⟨memH, sideH, orderH⟩ := upper h foundHigh
        have scoreL := scored.below aging l memL sideL
        have scoreH := (scored.above aging h memH sideH).2
        have switch := @keyLess_iff _ sub v s h 1 l 0
        rw [procs_eq] at switch
        unfold Workload.Before at orderL orderH
        rcases lt_or_ge (s.r y) limit with side | side
        · have orderL := orderL side
          split_ifs at ne ⊢ with first
          · have := switch.mp first
            by_cases same : y = l
            · subst same
              omega
            · have := orderL same
              omega
          · exact orderL ne
        · have orderH := orderH side
          split_ifs at ne ⊢ with first
          · exact orderH ne
          · have order : w.Before score l h := by
              have apart : (w.proc l).pid ≠ (w.proc h).pid := by
                intro same
                obtain rfl := pids l memL h memH same
                omega
              have := mt switch.mpr first
              unfold Workload.Before
              omega
            unfold Workload.Before at order
            by_cases same : y = h
            · subst same
              exact order
            · have := orderH same
              omega

/-! ## What the policy knows of the stays -/

theorem staysOf_of_ne {p q : Nat} {now : Int} {call : HookCall} {log : List TimedCall}
    (kind : call = .arrival q ∨ call = .ready q ∨ (∃ ran, call = .preempt q ran) ∨
      ∃ s, call = .slice s ∧ s.proc = q) (ne : p ≠ q) :
    staysOf p (⟨now, call⟩ :: log) = staysOf p log := by
  rcases kind with rfl | rfl | ⟨ran, rfl⟩ | ⟨s, rfl, rfl⟩ <;> simp [staysOf, ne.symm]

theorem staysOf_left {p q : Nat} {now : Int} {log log' : List TimedCall}
    (left : Left now q log log') : staysOf p log' = staysOf p log := by
  cases left <;> rfl

/-- The fields of the policy that tell the stays of the processes. -/
structure WaitsOk (aging : Int) (v : SchedView D) (s : Logged Prio) (pl : Places) : Prop where
  aging_eq : s.state.aging = aging
  ready : ∀ p, pl p = .ready →
    staysOf p s.log = ⟨s.state.waited p, some (s.state.readySince p)⟩ ∧
      s.state.waited p ≤ s.state.readySince p ∧ s.state.readySince p ≤ v.now
  out : ∀ p slice, pl p = .out slice →
    staysOf p s.log = ⟨s.state.waited p, none⟩ ∧ s.state.waited p ≤ v.now

theorem prioEnqueue_fields {v : SchedView D} {s s' : Prio} {p : Nat}
    (run : prioEnqueue sub v s p = some s') : s'.aging = s.aging ∧ s'.waited = s.waited ∧
      s'.readySince = Function.update s.readySince p v.now := by
  rw [prioEnqueue_eq] at run
  obtain ⟨⟨links, root⟩, -, rfl⟩ := Option.map_eq_some_iff.mp run
  exact ⟨rfl, rfl, rfl⟩

theorem prioNewBurst_fields {v : SchedView D} {s s' : Prio} {p : Nat}
    (run : prioNewBurst sub v s p = some s') : s'.aging = s.aging ∧
      s'.waited = Function.update s.waited p 0 ∧
      s'.readySince = Function.update s.readySince p v.now :=
  prioEnqueue_fields (s := { s with waited := Function.update s.waited p 0 }) run

namespace WaitsOk

variable {aging : Int} {v : SchedView D} {s : Logged Prio} {s' : Prio} {pl : Places} {p : Nat}

/-- `on_arrival` and `on_ready` start a burst. -/
theorem newBurst (ok : WaitsOk aging v s pl) (now_nonneg : 0 ≤ v.now) {call : HookCall}
    (kind : call = .arrival p ∨ call = .ready p) (run : prioNewBurst sub v s.state p = some s') :
    WaitsOk aging v (s.push v call s') (pl.move p .ready) := by
  obtain ⟨aging_eq, waited, since⟩ := prioNewBurst_fields run
  refine ⟨aging_eq.trans ok.aging_eq, fun q ready => ?_, fun q slice out => ?_⟩
  · by_cases same : q = p
    · subst same
      have stays : staysOf q (s.push v call s').log = ⟨0, some v.now⟩ := by
        rcases kind with rfl | rfl <;> simp [Logged.push, staysOf]
      rw [stays]
      simp only [Logged.push, waited, since, Function.update_self]
      exact ⟨trivial, now_nonneg, le_rfl⟩
    · rw [pl.move_of_ne _ same] at ready
      simp only [Logged.push, waited, since, Function.update_of_ne same]
      rw [staysOf_of_ne (kind.imp_right .inl) same]
      exact ok.ready q ready
  · have same : q ≠ p := by
      rintro rfl
      simp at out
    rw [pl.move_of_ne _ same] at out
    simp only [Logged.push, waited, Function.update_of_ne same]
    rw [staysOf_of_ne (kind.imp_right .inl) same]
    exact ok.out q slice out

/-- `on_preempt` goes on with the burst. -/
theorem requeue (ok : WaitsOk aging v s pl) {slice : Slice} {ran : Int} (out : pl p = .out slice)
    (run : prioEnqueue sub v s.state p = some s') :
    WaitsOk aging v (s.push v (.preempt p ran) s') (pl.move p .ready) := by
  obtain ⟨aging_eq, waited, since⟩ := prioEnqueue_fields run
  have kind : HookCall.preempt p ran = .arrival p ∨ HookCall.preempt p ran = .ready p ∨
      (∃ ran', HookCall.preempt p ran = .preempt p ran') ∨
      ∃ s, HookCall.preempt p ran = .slice s ∧ s.proc = p := .inr (.inr (.inl ⟨ran, rfl⟩))
  refine ⟨aging_eq.trans ok.aging_eq, fun q ready => ?_, fun q slice' out' => ?_⟩
  · by_cases same : q = p
    · subst same
      obtain ⟨stays, le⟩ := ok.out q slice out
      simp only [Logged.push, waited, since, Function.update_self]
      exact ⟨by simp [staysOf, stays], le, le_rfl⟩
    · rw [pl.move_of_ne _ same] at ready
      simp only [Logged.push, waited, since, Function.update_of_ne same]
      rw [staysOf_of_ne kind same]
      exact ok.ready q ready
  · have same : q ≠ p := by
      rintro rfl
      simp at out'
    rw [pl.move_of_ne _ same] at out'
    simp only [Logged.push, waited]
    rw [staysOf_of_ne kind same]
    exact ok.out q slice' out'

/-- A pick ends a stay. -/
theorem taken (ok : WaitsOk aging v s pl) {slice : Slice} (ready : pl slice.proc = .ready)
    (links : Links) (root : Option Nat) :
    WaitsOk aging v (s.push v (.slice slice) (prioTaken s.state v.now links root slice.proc))
      (pl.move slice.proc (.out slice)) := by
  have kind : HookCall.slice slice = .arrival slice.proc ∨
    HookCall.slice slice = .ready slice.proc ∨
      (∃ ran, HookCall.slice slice = .preempt slice.proc ran) ∨
      ∃ s, HookCall.slice slice = .slice s ∧ s.proc = slice.proc :=
    .inr (.inr (.inr ⟨slice, rfl, rfl⟩))
  refine ⟨ok.aging_eq, fun q ready' => ?_, fun q slice' out' => ?_⟩
  · have same : q ≠ slice.proc := by
      rintro rfl
      simp at ready'
    rw [pl.move_of_ne _ same] at ready'
    simp only [Logged.push, prioTaken, Function.update_of_ne same]
    rw [staysOf_of_ne kind same]
    exact ok.ready q ready'
  · by_cases same : q = slice.proc
    · subst same
      obtain ⟨stays, le, since_le⟩ := ok.ready _ ready
      simp only [Logged.push, prioTaken, Function.update_self]
      refine ⟨by simp [staysOf, stays, Stays.upTo], ?_⟩
      omega
    · rw [pl.move_of_ne _ same] at out'
      simp only [Logged.push, prioTaken, Function.update_of_ne same]
      rw [staysOf_of_ne kind same]
      exact ok.out q slice' out'

/-- A process that blocks or completes is in no stay. -/
theorem left (ok : WaitsOk aging v s pl) {log : List TimedCall} {place : Place}
    (left : Left v.now p s.log log) (stays : place = .blocked ∨ place = .done) :
    WaitsOk aging v ⟨s.state, log⟩ (pl.move p place) := by
  have ne : ∀ q z, pl.move p place q = z → (z = .ready ∨ ∃ slice, z = .out slice) → pl q = z := by
    intro q z here kind
    by_cases same : q = p
    · subst same
      rw [Places.move_self] at here
      rcases stays with rfl | rfl <;> rcases kind with rfl | ⟨slice, rfl⟩ <;> cases here
    · rwa [pl.move_of_ne _ same] at here
  refine ⟨ok.aging_eq, fun q ready => ?_, fun q slice out => ?_⟩
  · rw [staysOf_left left]
    exact ok.ready q (ne q _ ready (.inl rfl))
  · rw [staysOf_left left]
    exact ok.out q slice (ne q _ out (.inr ⟨slice, rfl⟩))

theorem view {v' : SchedView D} (ok : WaitsOk aging v s pl) (now_le : v.now ≤ v'.now) :
    WaitsOk aging v' s pl :=
  ⟨ok.aging_eq, fun q ready => ⟨(ok.ready q ready).1, (ok.ready q ready).2.1,
    (ok.ready q ready).2.2.trans now_le⟩, fun q slice out =>
    ⟨(ok.out q slice out).1, (ok.out q slice out).2.trans now_le⟩⟩

end WaitsOk

/-- What a pick does to the state, and whom it takes. -/
theorem prioNextSlice_inv (valid : w.Valid) {v : SchedView D} {s s' : Prio} {pl : Places}
    {slice : Slice} (inv : PrioInv sub w v s pl) (ok : ViewOk w v pl)
    (run : prioNextSlice sub v s = some (s', some slice)) :
    ∃ (tree : Tree) (links : Links) (tree' : Tree), PrioTree sub w v s pl tree ∧
      s' = prioTaken s v.now links tree'.root slice.proc ∧
      PrioChosen sub v s tree.nodes (prioLimit s v.now) slice.proc ∧
      tree.nodes.Perm (slice.proc :: tree'.nodes) ∧ slice.length = v.remaining slice.proc ∧
      ((slice.deadline = schedNoDeadline ∧
          (tree'.nodes = [] ∨ s.preemptive = false ∨ ¬0 < s.aging)) ∨
        ∃ step, slice.deadline = (ckAddI64 v.now step).getD schedNoDeadline ∧ 0 < s.aging ∧
          s.preemptive = true ∧ (∃ y ∈ tree'.nodes, nextLevel s (prioLimit s v.now) y = step) ∧
          ∀ y ∈ tree'.nodes, step ≤ nextLevel s (prioLimit s v.now) y) := by
  obtain ⟨tree, inv⟩ := inv
  have nonempty : tree.root ≠ none := by
    intro empty
    rw [prioNextSlice, inv.root, empty] at run
    cases run
  obtain ⟨p, links, tree', deadline, sliced, chosen, -, perm, due⟩ := prioNextSlice_some
    (z := fun _ => .done) valid inv ok nonempty (by simp)
  obtain ⟨rfl, ⟨⟩⟩ := Prod.mk.inj (Option.some.inj (sliced.symm.trans run))
  exact ⟨tree, links, tree', inv, rfl, chosen, perm, rfl, due⟩

/-! ## The picks -/

theorem WaitsOk.readyTime_eq {aging : Int} {v : SchedView D} {s : Logged Prio}
    {pl : Places} {p : Nat}
    (ok : WaitsOk aging v s pl) (ready : pl p = .ready) :
    readyTime s.log v.now p = s.state.waited p - s.state.readySince p + v.now := by
  rw [readyTime, (ok.ready p ready).1]
  simp only [Stays.upTo]
  omega

/-- `sat_sub` with a subtrahend that is not positive can only exceed the upper end. -/
theorem satSub_of_nonpos {a b : Int} (low : int64Min ≤ a) (high : a ≤ int64Max) (nonpos : b ≤ 0) :
    satSub a b = a - b - max 0 (a - b - int64Max) := by
  by_cases fits : a - b ≤ int64Max
  · have exact_ : ckSubI64 a b = some (a - b) := by
      rw [ckSubI64, if_neg]
      omega
    rw [satSub, exact_]
    simp only
    omega
  · have overflow : ckSubI64 a b = none := by
      rw [ckSubI64, if_pos]
      omega
    unfold int64Min int64Max at *
    rw [satSub, overflow]
    simp only
    rw [if_pos (by omega), int64Max]
    omega

/-- Above the lower end `sat_sub` bumps exactly. -/
theorem satSub_bump {a b : Int} (low : int64Min < a) (bump : b = 0 ∨ b = 1) :
    satSub a b = a - b := by
  have exact_ : ckSubI64 a b = some (a - b) := by
    rw [ckSubI64, if_neg]
    omega
  rw [satSub, exact_]

/-- Every priority is a 64-bit integer. -/
def Workload.PrioritiesFit (w : Workload) : Prop :=
  ∀ p < w.len, int64Min ≤ (w.proc p).priority ∧ (w.proc p).priority ≤ int64Max

instance (w : Workload) : Decidable w.PrioritiesFit :=
  inferInstanceAs (Decidable (∀ p < w.len, _))

section Scores

variable {aging : Int} {v : SchedView D} {s : Logged Prio} {pl : Places} {tree : Tree}

/-- With exact arithmetic the policy orders by the effective priority. -/
theorem scored_exact (inv : PrioTree (fun a b => a - b) w v s.state pl tree) (ok : ViewOk w v pl)
    (waits : WaitsOk aging v s pl) :
    Scored (fun a b => a - b) s.state (prioLimit s.state v.now)
      (effectivePriority w aging s.log v.now) (if 0 < aging then v.now / aging else 0)
        tree.nodes := by
  have ready : ∀ y ∈ tree.nodes, pl y = .ready := fun y hy => (inv.holds.mem_iff y).mp hy
  have aging_eq := waits.aging_eq
  have base : ∀ y ∈ tree.nodes, 0 < aging → s.state.base y = (w.proc y).priority -
      (s.state.waited y - s.state.readySince y) / aging ∧
      s.state.r y = (s.state.waited y - s.state.readySince y) % aging ∧
      effectivePriority w aging s.log v.now y = (w.proc y).priority -
        (s.state.waited y - s.state.readySince y + v.now) / aging := by
    intro y hy aged
    obtain ⟨remainder, quotient⟩ := inv.keyed y (ready y hy)
    rw [aging_eq, if_pos aged] at remainder quotient
    rw [ok.procs_eq] at quotient
    refine ⟨quotient, remainder, ?_⟩
    rw [effectivePriority, if_pos aged, waits.readyTime_eq (ready y hy)]
  have limit : 0 < aging → prioLimit s.state v.now = aging - v.now % aging := by
    intro aged
    rw [prioLimit, aging_eq, if_pos aged, Int.tmod_eq_emod_of_nonneg ok.now_nonneg]
  constructor
  case plain =>
    intro still y hy
    have quotient := (inv.keyed y (ready y hy)).quotient
    rw [aging_eq] at still
    rw [aging_eq, if_neg still, ok.procs_eq] at quotient
    simp only [effectivePriority, if_neg still, quotient]
    omega
  case below =>
    intro aged y hy side
    rw [aging_eq] at aged
    obtain ⟨base_eq, r_eq, key⟩ := base y hy aged
    have split := ediv_add_split (s.state.waited y - s.state.readySince y) v.now aged
    rw [limit aged, r_eq] at side
    rw [if_neg (not_le.mpr side)] at split
    simp only [if_pos aged, base_eq, key]
    omega
  case above =>
    intro aged y hy side
    rw [aging_eq] at aged
    obtain ⟨base_eq, r_eq, key⟩ := base y hy aged
    have split := ediv_add_split (s.state.waited y - s.state.readySince y) v.now aged
    rw [limit aged, r_eq] at side
    rw [if_pos side] at split
    simp only [if_pos aged, base_eq, key]
    omega

/-- The effective priority of a process that has waited `c + now` ticks, less what the
saturation of its base takes off. -/
def cutPriority (w : Workload) (aging c now : Int) (p : Nat) : Int :=
  if 0 < aging then
    (w.proc p).priority - (c + now) / aging - max 0 ((w.proc p).priority - c / aging - int64Max)
  else (w.proc p).priority

/-- The policy as it is orders by what the saturation leaves of the effective priority. -/
theorem scored_cut {s : Prio} (inv : PrioTree satSub w v s pl tree) (ok : ViewOk w v pl)
    (aging_eq : s.aging = aging)
    (nonpos : ∀ y, pl y = .ready → s.waited y - s.readySince y ≤ 0) (fit : w.PrioritiesFit) :
    Scored satSub s (prioLimit s v.now)
      (fun p => cutPriority w aging (s.waited p - s.readySince p) v.now p)
      (if 0 < aging then v.now / aging else 0) tree.nodes := by
  have ready : ∀ y ∈ tree.nodes, pl y = .ready := fun y hy => (inv.holds.mem_iff y).mp hy
  have base : ∀ y ∈ tree.nodes, 0 < aging → ∃ c, c ≤ 0 ∧
      s.base y = (w.proc y).priority - c / aging -
        max 0 ((w.proc y).priority - c / aging - int64Max) ∧
      s.r y = c % aging ∧
      cutPriority w aging (s.waited y - s.readySince y) v.now y =
        (w.proc y).priority - (c + v.now) / aging -
          max 0 ((w.proc y).priority - c / aging - int64Max) := by
    intro y hy aged
    obtain ⟨remainder, quotient⟩ := inv.keyed y (ready y hy)
    obtain ⟨low, high⟩ := fit y (ok.ready_lt y (ready y hy))
    have nonpos := nonpos y (ready y hy)
    have quotient_nonpos : (s.waited y - s.readySince y) / aging ≤ 0 := by
      have := Int.ediv_le_ediv aged nonpos
      rwa [Int.zero_ediv] at this
    rw [aging_eq, if_pos aged] at remainder quotient
    rw [ok.procs_eq, satSub_of_nonpos low high quotient_nonpos] at quotient
    exact ⟨s.waited y - s.readySince y, nonpos, quotient, remainder, if_pos aged⟩
  have limit : 0 < aging → prioLimit s v.now = aging - v.now % aging := by
    intro aged
    rw [prioLimit, aging_eq, if_pos aged, Int.tmod_eq_emod_of_nonneg ok.now_nonneg]
  constructor
  case plain =>
    intro still y hy
    have quotient := (inv.keyed y (ready y hy)).quotient
    rw [aging_eq] at still
    rw [aging_eq, if_neg still, ok.procs_eq] at quotient
    rw [cutPriority, if_neg still, if_neg still, quotient, satSub_zero, add_zero]
  case below =>
    intro aged y hy side
    rw [aging_eq] at aged
    obtain ⟨c, -, base_eq, r_eq, key⟩ := base y hy aged
    have split := ediv_add_split c v.now aged
    rw [limit aged, r_eq] at side
    rw [if_neg (not_le.mpr side)] at split
    rw [satSub_zero, if_pos aged, base_eq, key]
    omega
  case above =>
    intro aged y hy side
    rw [aging_eq] at aged
    obtain ⟨c, nonpos, base_eq, r_eq, key⟩ := base y hy aged
    have low := (fit y (ok.ready_lt y (ready y hy))).1
    have split := ediv_add_split c v.now aged
    rw [limit aged, r_eq] at side
    rw [if_pos side] at split
    -- a node above the limit has been ready for at least one level
    have level : c / aging ≤ -1 := by
      by_contra small
      have whole := Int.mul_ediv_add_emod c aging
      have := Int.ediv_le_ediv aged nonpos
      rw [Int.zero_ediv] at this
      rw [show c / aging = 0 by omega, mul_zero] at whole
      have := Int.emod_lt_of_pos v.now aged
      omega
    have high : int64Min < s.base y := by
      rw [base_eq]
      unfold int64Min int64Max at *
      omega
    rw [satSub_zero, satSub_bump high (.inr rfl), if_pos aged, base_eq, key]
    omega

/-- Scores that agree on the nodes. -/
theorem Scored.congr {s : Prio} {limit shift : Int} {score score' : Nat → Int} {nodes : List Nat}
    (scored : Scored sub s limit score shift nodes) (same : ∀ y ∈ nodes, score' y = score y) :
    Scored sub s limit score' shift nodes := by
  constructor
  case plain =>
    intro still y hy
    rw [same y hy]
    exact scored.plain still y hy
  case below =>
    intro aged y hy side
    rw [same y hy]
    exact scored.below aged y hy side
  case above =>
    intro aged y hy side
    rw [same y hy]
    exact scored.above aged y hy side

/-- The policy as it is orders by the effective priority less what the saturation took
off. -/
theorem scored_saturated (inv : PrioTree satSub w v s.state pl tree) (ok : ViewOk w v pl)
    (waits : WaitsOk aging v s pl) (fit : w.PrioritiesFit) :
    Scored satSub s.state (prioLimit s.state v.now)
      (fun p => effectivePriority w aging s.log v.now p - saturated w aging s.log v.now p)
      (if 0 < aging then v.now / aging else 0) tree.nodes := by
  have nonpos : ∀ y, pl y = .ready → s.state.waited y - s.state.readySince y ≤ 0 := by
    intro y ready
    have time := waits.readyTime_eq ready
    have le := (waits.ready y ready).2.1
    omega
  refine (scored_cut inv ok waits.aging_eq nonpos fit).congr fun y hy => ?_
  have time := waits.readyTime_eq ((inv.holds.mem_iff y).mp hy)
  unfold effectivePriority saturated cutPriority
  rw [time, Int.add_sub_cancel]
  split_ifs <;> omega

end Scores

/-- The order of the picks: by the effective priority less what the saturation took
off, which is the order by the effective priority where nothing was taken off. -/
structure PrioPick (w : Workload) (aging : Int) (before : List TimedCall) (now : Int)
    (ready : List Nat) (p : Nat) : Prop where
  least : w.Least (fun q => effectivePriority w aging before now q - saturated w aging before now q)
    ready p
  exact_ : (∀ q ∈ ready, saturated w aging before now q = 0) →
    w.Least (effectivePriority w aging before now) ready p

/-! ## What the calls keep -/

section Calls

variable {aging : Int}

/-- A refused call leaves the state. -/
theorem prioNextSlice_none (valid : w.Valid) {v : SchedView D} {s s' : Prio} {pl : Places}
    (inv : PrioInv sub w v s pl) (ok : ViewOk w v pl)
    (run : prioNextSlice sub v s = some (s', none)) : s = s' := by
  obtain ⟨tree, inv⟩ := inv
  by_cases nonempty : tree.root = none
  · rw [prioNextSlice, inv.root, nonempty] at run
    exact (Prod.mk.inj (Option.some.inj run)).1
  · obtain ⟨p, links, tree', deadline, sliced, -⟩ := prioNextSlice_some
      (z := fun _ => .done) valid inv ok nonempty (by simp)
    cases sliced.symm.trans run

theorem WaitsOk.pick {preemptive : Bool} (valid : w.Valid) {v : SchedView D} {s : Logged Prio}
    {s' : Prio} {pl : Places} {slice : Slice} (inv : PrioInvBoth sub preemptive w v s.state pl)
    (waits : WaitsOk aging v s pl) (ok : ViewOk w v pl)
    (run : prioNextSlice sub v s.state = some (s', some slice)) :
    WaitsOk aging v (s.push v (.slice slice) s') (pl.move slice.proc (.out slice)) := by
  obtain ⟨tree, links, tree', source, rfl, chosen, -⟩ := prioNextSlice_inv valid inv.inv ok run
  exact waits.taken ((source.holds.mem_iff _).mp chosen.mem) links tree'.root

theorem prio_waits (valid : w.Valid) : KeptLog (D := D) w (policyPrioWith sub)
    (LoggedInv (PrioInvBoth sub false w)) (WaitsOk aging) where
  view _ waits _ step := waits.view step.now_le
  arrival _ waits ok _ run := waits.newBurst ok.now_nonneg (.inl rfl) run
  wake _ waits ok _ run kind := waits.newBurst ok.now_nonneg kind run
  refuse inv waits ok _ run := prioNextSlice_none valid inv.inv.inv ok run ▸ waits
  pick inv waits ok _ run := waits.pick valid inv.inv ok run
  preempt _ _ _ _ _ _ hook := by simp [policyPrioWith] at hook
  leave _ waits _ _ left run := by
    rcases run with ⟨rfl, run⟩ | ⟨rfl, run⟩
    · exact Option.some.inj run ▸ waits.left left (.inl rfl)
    · exact Option.some.inj run ▸ waits.left left (.inr rfl)

theorem prioP_waits (valid : w.Valid) : KeptLog (D := D) w (policyPrioPWith sub)
    (LoggedInv (PrioInvBoth sub true w)) (WaitsOk aging) where
  view _ waits _ step := waits.view step.now_le
  arrival _ waits ok _ run := waits.newBurst ok.now_nonneg (.inl rfl) run
  wake _ waits ok _ run kind := waits.newBurst ok.now_nonneg kind run
  refuse inv waits ok _ run := prioNextSlice_none valid inv.inv.inv ok run ▸ waits
  pick inv waits ok _ run := waits.pick valid inv.inv ok run
  preempt _ waits _ out _ _ hook run := by
    cases hook
    exact waits.requeue out run
  leave _ waits _ _ left run := by
    rcases run with ⟨rfl, run⟩ | ⟨rfl, run⟩
    · exact Option.some.inj run ▸ waits.left left (.inl rfl)
    · exact Option.some.inj run ▸ waits.left left (.inr rfl)

/-- The order of a pick, from the state it is made in. -/
theorem WaitsOk.prioPick {preemptive : Bool} (valid : w.Valid) (fit : w.PrioritiesFit)
    {v : SchedView D} {s : Logged Prio} {s' : Prio} {pl : Places} {slice : Slice} {queue : List Nat}
    (inv : PrioInvBoth satSub preemptive w v s.state pl) (waits : WaitsOk aging v s pl)
    (ok : ViewOk w v pl) (run : prioNextSlice satSub v s.state = some (s', some slice))
    (holds : Holds pl queue) :
    slice.proc ∈ queue ∧ PrioPick w aging s.log v.now queue slice.proc := by
  obtain ⟨tree, links, tree', source, rfl, chosen, -⟩ := prioNextSlice_inv valid inv.inv ok run
  have perm : ∀ q, q ∈ tree.nodes ↔ q ∈ queue := fun q => by
    rw [source.holds.mem_iff, holds.mem_iff]
  have least := chosen.least ok.procs_eq (scored_saturated source ok waits fit) fun x hx y hy =>
    valid.pid_injective (source.sorted.valid x hx) (source.sorted.valid y hy)
  have least : w.Least _ queue slice.proc := fun q hq => least q ((perm q).mpr hq)
  have mem := (perm _).mp chosen.mem
  refine ⟨mem, least, fun none q hq ne => ?_⟩
  have := least q hq ne
  unfold Workload.Before at *
  simpa only [none q hq, none _ mem, sub_zero] using this

/-- A priority policy keeps the order of its picks. -/
theorem prio_picks (valid : w.Valid) (fit : w.PrioritiesFit) {P : Policy D}
    (kind : P = policyPrio ∨ P = policyPrioP) {v : SchedView D} {params : PolicyParams}
    {state : P.State} (created : P.create v params = .ok state) :
    ∃ Inv, Contract w P.logged Inv ∧ Inv v ⟨state, []⟩ (fun _ => .new) ∧
      ∀ {v s pl}, Inv v s pl → LogOk s.log pl ∧ EachPick (PrioPick w params.aging) s.log := by
  rcases kind with rfl | rfl
  · have waits : KeptLog (D := D) w policyPrio (LoggedInv (PrioInvBoth satSub false w))
      (WaitsOk params.aging) := prio_waits valid
    have picks : KeptLog (D := D) w policyPrio
      (fun v s pl => LoggedInv (PrioInvBoth satSub false w) v s pl ∧
        WaitsOk params.aging v s pl) fun _ s _ => EachPick (PrioPick w params.aging) s.log :=
      keptLog_eachPick (fun both => both.1.log) fun both ok run _ holds =>
        both.2.prioPick valid fit both.1.inv ok run holds
    have start : PrioInvBoth satSub false w v state fun _ => .new := prioCreate_inv created
    cases created
    exact ⟨_, ((prio_contract valid).logged.and waits.kept).and picks.kept,
      ⟨⟨⟨start, [], rfl, Holds.nil⟩, rfl, by simp, by simp⟩, trivial⟩,
      fun all => ⟨all.1.1.log, all.2⟩⟩
  · have waits : KeptLog (D := D) w policyPrioP (LoggedInv (PrioInvBoth satSub true w))
      (WaitsOk params.aging) := prioP_waits valid
    have picks : KeptLog (D := D) w policyPrioP
      (fun v s pl => LoggedInv (PrioInvBoth satSub true w) v s pl ∧
        WaitsOk params.aging v s pl) fun _ s _ => EachPick (PrioPick w params.aging) s.log :=
      keptLog_eachPick (fun both => both.1.log) fun both ok run _ holds =>
        both.2.prioPick valid fit both.1.inv ok run holds
    have start : PrioInvBoth satSub true w v state fun _ => .new := prioCreate_inv created
    cases created
    exact ⟨_, ((prioP_contract valid).logged.and waits.kept).and picks.kept,
      ⟨⟨⟨start, [], rfl, Holds.nil⟩, rfl, by simp, by simp⟩, trivial⟩,
      fun all => ⟨all.1.1.log, all.2⟩⟩

end Calls

end CpuSched
