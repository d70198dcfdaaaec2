import CpuSched.Engine.Alike
import CpuSched.Policies.PriorityAging
import CpuSched.Policies.PriorityArithmetic
import CpuSched.Reference.Matching

/-!
# The priority treap against a plain list

`prio` splits the wait of a process into a remainder, the key of its treap, and a base
priority, and compares the two best candidates; the reference computes every effective
priority anew and scans.  The picks agree as long as no base priority is cut off at the end
of the 64-bit range.
-/

namespace CpuSched

variable {D : Type} {w : Workload}

/-- The priorities, and the bases that `enqueue` can compute from them while the clock is
at most `limit`, are 64-bit integers. -/
def Workload.BasesFit (w : Workload) (aging limit : Int) : Prop :=
  w.PrioritiesFit ∧ ∀ p < w.len, (w.proc p).priority - -limit / aging ≤ int64Max

instance (w : Workload) (aging limit : Int) : Decidable (w.BasesFit aging limit) :=
  inferInstanceAs (Decidable (_ ∧ ∀ p < w.len, _))

/-! ## The class with the saturation -/

/-- What `sat_sub` takes off the base of `p`. -/
def RefPriority.cut (v : SchedView D) (s : RefPriority) (p : Nat) : Int :=
  if 0 < s.aging then
    max 0 ((v.procs p).priority - (s.waited p - s.since p) / s.aging - int64Max)
  else 0

/-- `Priority.pick` of a class whose bases saturate once the clock has passed `limit`. -/
def RefPriority.pickUntil (limit : Int) (v : SchedView D) (s : RefPriority) :
    Option (RefPriority × Option Slice) :=
  let key p := s.base v p - if v.now ≤ limit then 0 else s.cut v p
  match minBy (fun a b => lessByArrival v (cmpInt (key a) (key b)) a b) s.readyList with
  | none => some (s, none)
  | some p =>
      some ({ s with
        readyList := s.readyList.erase p
        waited := Function.update s.waited p (s.waited p + (v.now - s.since p)) },
        some ⟨p, v.remaining p, schedNoDeadline⟩)

/-- `Priority(preemptive=False)` with bases that saturate once the clock has passed
`limit`. -/
def refPrioUntil (limit : Int) : Policy D :=
  { refPrio with nextSlice := RefPriority.pickUntil limit }

theorem RefPriority.pickUntil_eq {limit : Int} {v : SchedView D} (early : v.now ≤ limit)
    (s : RefPriority) : RefPriority.pickUntil limit v s = RefPriority.pick v s := by
  simp only [pickUntil, pick, if_pos early, sub_zero]
  rfl

/-- Up to the limit of the clock it answers as the class does. -/
theorem refPrio_follows (limit : Int) :
    (refPrio (D := D)).Follows (refPrioUntil limit) (fun v => v.now ≤ limit) Eq where
  preemptOnReady_eq := rfl
  onArrival {v s s' r p} same run := by
    subst same
    exact ⟨r, run, rfl⟩
  wakeHook {v s s' r p} same run := by
    subst same
    exact ⟨r, run, rfl⟩
  refuse {v s s' r} early same run := by
    subst same
    exact ⟨r, (RefPriority.pickUntil_eq early s).symm.trans run, rfl⟩
  pick {v s s' r slice} early same run := by
    subst same
    exact ⟨r, slice, (RefPriority.pickUntil_eq early s).symm.trans run, rfl, rfl, rfl, id, rfl⟩
  onPreempt hook := by cases hook
  onBlock {v s s' r p ran} same run := by
    subst same
    exact ⟨r, run, rfl⟩
  onComplete {v s s' r p ran} same run := by
    subst same
    exact ⟨r, run, rfl⟩

/-- The list of the class holds the ready processes, whatever their priorities are. -/
theorem refPrio_contract (w : Workload) :
    Contract (D := D) w refPrio fun _ s pl => Holds pl s.readyList where
  interruptible _ := rfl
  view holds _ _ _ := holds
  arrival holds _ _ new _ := ⟨_, rfl, holds.append (by simp [new])⟩
  wake holds _ blocked _ := ⟨_, rfl, holds.append (by simp [blocked])⟩
  next {v s pl} holds ok early := by
    simp only [refPrio, RefPriority.pick]
    cases found : minBy (RefPriority.less v s) s.readyList with
    | none =>
        have empty : s.readyList = [] := minBy_eq_none.mp found
        refine ⟨s, none, rfl, holds, .inl fun p ready => ?_⟩
        have mem := (holds.mem_iff p).mpr ready
        rw [empty] at mem
        cases mem
    | some p =>
        have ready := (holds.mem_iff p).mp (minBy_mem found)
        exact ⟨_, _, rfl, ready, ok.ready_pos p ready, early, le_rfl, fun _ => ⟨le_rfl, rfl⟩,
          holds.erase ready (by simp)⟩
  preempt _ _ _ _ _ _ hook := by cases hook
  block holds _ out _ _ _ := ⟨_, rfl, holds.other (by simp [out]) (by simp)⟩
  complete holds _ out _ _ := ⟨_, rfl, holds.other (by simp [out]) (by simp)⟩

/-! ## The treap and the list -/

/-- `prio` and its class have the same waits, and the list holds the ready processes. -/
def PrioAlike (_ : SchedView D) (s : Prio) (t : RefPriority) (pl : Places) : Prop :=
  ∃ readyList, Holds pl readyList ∧ t = ⟨s.aging, readyList, s.waited, s.readySince⟩

section Keys

variable {aging : Int} {v : SchedView D} {s : Prio} {pl : Places} {tree : Tree}

/-- Up to the limit of the clock nothing is taken off the base of a ready process. -/
theorem PrioTimes.cut_eq_zero (times : PrioTimes aging v s pl) (ok : ViewOk w v pl) {limit : Int}
    (early : v.now ≤ limit) (fit : w.BasesFit aging limit) (readyList : List Nat) {p : Nat}
    (ready : pl p = .ready) :
    (⟨s.aging, readyList, s.waited, s.readySince⟩ : RefPriority).cut v p = 0 := by
  obtain ⟨waited, since, now⟩ := times.ready p ready
  have high := fit.2 p (ok.ready_lt p ready)
  rw [RefPriority.cut, times.aging_eq, ok.procs_eq]
  split_ifs with aged
  · dsimp only at aged ⊢
    have least : -limit ≤ s.waited p - s.readySince p := by omega
    have least := Int.ediv_le_ediv aged least
    exact max_eq_left (by omega)
  · rfl

/-- The keys order the nodes as those of the class with the saturation. -/
theorem scored_until (inv : PrioTree satSub w v s pl tree) (times : PrioTimes aging v s pl)
    (ok : ViewOk w v pl) {limit : Int} (fit : w.BasesFit aging limit) (nonneg : 0 ≤ aging)
    (readyList : List Nat) :
    Scored satSub s (prioLimit s v.now)
      (fun p => (⟨s.aging, readyList, s.waited, s.readySince⟩ : RefPriority).base v p -
        if v.now ≤ limit then 0
        else (⟨s.aging, readyList, s.waited, s.readySince⟩ : RefPriority).cut v p)
      (if 0 < aging then v.now / aging else 0) tree.nodes := by
  have nonpos : ∀ y, pl y = .ready → s.waited y - s.readySince y ≤ 0 := fun y ready => by
    have := times.ready y ready
    omega
  refine (scored_cut inv ok times.aging_eq nonpos fit.1).congr fun y hy => ?_
  have ready : pl y = .ready := (inv.holds.mem_iff y).mp hy
  have taken : (if v.now ≤ limit then 0
      else (⟨s.aging, readyList, s.waited, s.readySince⟩ : RefPriority).cut v y) =
      (⟨s.aging, readyList, s.waited, s.readySince⟩ : RefPriority).cut v y := by
    split_ifs with early
    · exact (times.cut_eq_zero ok early fit readyList ready).symm
    · rfl
  rw [taken, RefPriority.base, RefPriority.cut, cutPriority, times.aging_eq, ok.procs_eq]
  dsimp only
  by_cases aged : 0 < aging
  · rw [if_pos aged, if_pos aged, if_pos aged.ne', add_sub_right_comm]
  · rw [if_neg aged, if_neg aged, if_neg (by omega), sub_zero]

end Keys

namespace PrioAlike

variable {v : SchedView D} {s s' : Prio} {t : RefPriority} {pl : Places} {p : Nat}

/-- `prio_new_burst` and `Priority.arrive`. -/
theorem newBurst (alike : PrioAlike v s t pl) (notReady : pl p ≠ .ready)
    (run : prioNewBurst satSub v s p = some s') :
    ∃ t', RefPriority.arrive v t p = some t' ∧ PrioAlike v s' t' (pl.move p .ready) := by
  obtain ⟨readyList, holds, rfl⟩ := alike
  obtain ⟨aging, waited, since⟩ := prioNewBurst_fields run
  exact ⟨_, rfl, _, holds.append notReady, by rw [aging, waited, since]; rfl⟩

/-- The chosen node is what the scan finds. -/
theorem next (valid : w.Valid) {preemptive : Bool} {aging limit : Int} (nonneg : 0 ≤ aging)
    (fit : w.BasesFit aging limit) (both : PrioInvBoth satSub preemptive w v s pl)
    (still : preemptive = false) (times : PrioTimes aging v s pl) (alike : PrioAlike v s t pl)
    (ok : ViewOk w v pl) (early : v.now < int64Max) {r : Option Slice}
    (run : prioNextSlice satSub v s = some (s', r)) :
    ∃ t', RefPriority.pickUntil limit v t = some (t', r) ∧ PrioAlike v s' t' (pl.afterNext r) := by
  obtain ⟨readyList, holds, rfl⟩ := alike
  cases r with
  | none =>
      obtain rfl := prioNextSlice_none valid both.inv ok run
      obtain ⟨s', r, run', next⟩ := both.next valid ok early
      cases run'.symm.trans run
      refine ⟨_, ?_, readyList, holds, rfl⟩
      rw [holds.eq_nil (next.2.resolve_right fun idle => idle.1)]
      rfl
  | some slice =>
      obtain ⟨p, length, deadline⟩ := slice
      obtain ⟨tree, links, tree', source, rfl, chosen, -, length_eq, due⟩ :=
        prioNextSlice_inv valid both.inv ok run
      dsimp only at chosen length_eq due
      have ready : pl p = .ready := (source.holds.mem_iff p).mp chosen.mem
      have least := chosen.least ok.procs_eq
        (scored_until source times ok fit nonneg readyList) fun x hx y hy =>
          valid.pid_injective (source.sorted.valid x hx) (source.sorted.valid y hy)
      have found := holds.minBy_eq (lessByArrival_total valid ok.procs_eq _) ok.ready_lt ready
        fun x hx ne => (lessByArrival_iff v _ p x).mpr (by
          rw [ok.procs_eq]
          exact least x ((source.holds.mem_iff x).mpr hx) ne)
      have undated : deadline = schedNoDeadline := by
        rcases due with ⟨undated, -⟩ | ⟨-, -, -, preempts, -⟩
        · exact undated
        · cases still.symm.trans (both.preemptive_eq.symm.trans preempts)
      refine ⟨_, ?_, readyList.erase p, holds.erase ready (by simp), rfl⟩
      simp only [RefPriority.pickUntil, found, length_eq, undated]
      rfl

end PrioAlike

/-- `prio` and the class with the saturation answer alike. -/
theorem prio_matches (valid : w.Valid) {aging limit : Int} (nonneg : 0 ≤ aging)
    (fit : w.BasesFit aging limit) :
    Matches (D := D) w policyPrio (refPrioUntil limit)
      (fun v s pl => PrioInvBoth satSub false w v s pl ∧ PrioTimes aging v s pl) PrioAlike where
  preemptOnReady_eq := rfl
  workConserving_eq := rfl
  preempt_none := ⟨fun _ => rfl, fun _ => rfl⟩
  view _ alike _ _ := alike
  arrival _ alike _ _ new run := alike.newBurst (by simp [new]) run
  wake _ alike _ blocked run := alike.newBurst (by simp [blocked]) run
  next inv alike ok early run := alike.next valid nonneg fit inv.1 rfl inv.2 ok early run
  preempt _ _ _ _ hook := by cases hook
  block {v s s' t pl p slice ran} _ alike _ out run := by
    obtain ⟨readyList, holds, rfl⟩ := alike
    cases run
    exact ⟨_, rfl, readyList, holds.other (by simp [out]) (by simp), rfl⟩
  complete {v s s' t pl p slice ran} _ alike _ out run := by
    obtain ⟨readyList, holds, rfl⟩ := alike
    cases run
    exact ⟨_, rfl, readyList, holds.other (by simp [out]) (by simp), rfl⟩

end CpuSched
