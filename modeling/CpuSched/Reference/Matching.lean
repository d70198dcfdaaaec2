import CpuSched.Policies.CfsFairness
import CpuSched.Policies.FifoContract
import CpuSched.Policies.ShortestJobContract
import CpuSched.Policy.Paired
import CpuSched.Reference.Classes

/-!
# Queues and heaps against plain lists

FCFS and round robin pop the head of a ring buffer, SJF, SRTF, stride scheduling and CFS
the root of a heap; the classes of the reference scan a list.  Each policy matches its
class: the list holds the ready processes, and every other field is the same.
-/

namespace CpuSched

variable {D : Type} {w : Workload}

/-! ## Lists of ready processes -/

theorem minBy_eq_none {less : Nat → Nat → Bool} {l : List Nat} : minBy less l = none ↔ l = [] := by
  cases l with
  | nil => exact ⟨fun _ => rfl, fun _ => rfl⟩
  | cons a rest =>
      rw [minBy]
      constructor
      · intro none
        cases found : minBy less rest with
        | none =>
            rw [found] at none
            cases none
        | some q =>
            rw [found] at none
            dsimp only at none
            split_ifs at none
      · intro empty
        cases empty

theorem minBy_mem {less : Nat → Nat → Bool} {l : List Nat} {p : Nat}
    (found : minBy less l = some p) : p ∈ l := by
  induction l generalizing p with
  | nil => cases found
  | cons a rest ih =>
      rw [minBy] at found
      cases inner : minBy less rest with
      | none =>
          rw [inner] at found
          exact Option.some.inj found ▸ List.mem_cons_self
      | some q =>
          rw [inner] at found
          dsimp only at found
          split_ifs at found
          · exact Option.some.inj found ▸ List.mem_cons_of_mem a (ih inner)
          · exact Option.some.inj found ▸ List.mem_cons_self

/-- The scan finds the least member. -/
theorem minBy_eq_some {n : Nat} {less : Nat → Nat → Bool} (total : StrictTotalOn less (· < n))
    {l : List Nat} (inside : ∀ x ∈ l, x < n) {p : Nat} (mem : p ∈ l)
    (least : ∀ x ∈ l, x ≠ p → less p x = true) : minBy less l = some p := by
  induction l with
  | nil => cases mem
  | cons a rest ih =>
      have inside' : ∀ x ∈ rest, x < n := fun x hx => inside x (List.mem_cons_of_mem a hx)
      have least' : ∀ x ∈ rest, x ≠ p → less p x = true := fun x hx =>
        least x (List.mem_cons_of_mem a hx)
      rw [minBy]
      by_cases later : p ∈ rest
      · rw [ih inside' later least']
        dsimp only
        by_cases same : a = p
        · rw [same, total.irrefl p (inside p mem)]
          rfl
        · rw [least a List.mem_cons_self same]
          rfl
      · obtain rfl : p = a := (List.mem_cons.mp mem).resolve_right later
        cases found : minBy less rest with
        | none => rfl
        | some q =>
            have hq := minBy_mem found
            have ne : q ≠ p := fun same => later (same ▸ hq)
            have before := least' q hq ne
            -- what comes after `p` does not come before it
            have after : less q p = false := by
              rw [Bool.eq_false_iff]
              intro less'
              have loop :=
                total.trans p q p (inside p mem) (inside' q hq) (inside p mem) before less'
              rw [total.irrefl p (inside p mem)] at loop
              cases loop
            dsimp only
            rw [after]
            rfl

namespace Holds

variable {pl : Places} {l : List Nat} {p : Nat} {z : Place}

/-- Handing a process over appends it. -/
theorem append (holds : Holds pl l) (notReady : pl p ≠ .ready) :
    Holds (pl.move p .ready) (l ++ [p]) :=
  (holds.push notReady).perm (List.perm_append_singleton p l)

/-- The process that a pick takes leaves. -/
theorem erase (holds : Holds pl l) (ready : pl p = .ready) (leaves : z ≠ .ready) :
    Holds (pl.move p z) (l.erase p) :=
  ((holds.perm (List.perm_cons_erase ((holds.mem_iff p).mpr ready)).symm).pop leaves).2

/-- It does not matter where else it goes. -/
theorem relocate {z' : Place} (holds : Holds (pl.move p z) l) (leaves : z ≠ .ready)
    (stays : z' ≠ .ready) : Holds (pl.move p z') l := by
  have moved := holds.other (p := p) (by simpa using leaves) stays
  simpa [Places.move] using moved

theorem eq_nil (holds : Holds pl l) (none : ∀ p, pl p ≠ .ready) : l = [] :=
  List.eq_nil_iff_forall_not_mem.mpr fun p mem => none p ((holds.mem_iff p).mp mem)

/-- The scan finds the least of the ready processes. -/
theorem minBy_eq {n : Nat} {less : Nat → Nat → Bool} (total : StrictTotalOn less (· < n))
    (holds : Holds pl l) (inside : ∀ x, pl x = .ready → x < n) (ready : pl p = .ready)
    (least : ∀ x, pl x = .ready → x ≠ p → less p x = true) : minBy less l = some p :=
  minBy_eq_some total (fun x hx => inside x ((holds.mem_iff x).mp hx))
    ((holds.mem_iff p).mpr ready) fun x hx => least x ((holds.mem_iff x).mp hx)

end Holds

/-! ## FCFS and round robin -/

/-- The list of the reference is what the ring buffer holds. -/
def FcfsAlike (_ : SchedView D) (ready : Queue) (q : List Nat) (_ : Places) : Prop :=
  q = ready.toList

theorem FcfsAlike.push {v : SchedView D} {s s' : Queue} {q : List Nat} {pl : Places} {p : Nat}
    (inv : FcfsInv w v s pl) (alike : FcfsAlike v s q pl) (ok : ViewOk w v pl) (hp : p < w.len)
    (notReady : pl p ≠ .ready) (run : queuePush s p = some s') :
    ∃ q', refFcfsArrive v q p = some q' ∧ FcfsAlike v s' q' (pl.move p .ready) := by
  obtain ⟨s'', pushed, -, contents⟩ := QueueReady.push inv ok.ready_lt hp notReady
  obtain rfl : s'' = s' := Option.some.inj (pushed.symm.trans run)
  exact ⟨_, rfl, by rw [FcfsAlike, contents, alike]⟩

/-- The slice for the head of the queue. -/
theorem FcfsAlike.next {v : SchedView D} {s s' : Queue} {q : List Nat} {pl : Places}
    {r : Option Slice} (inv : FcfsInv w v s pl) (alike : FcfsAlike v s q pl)
    (run : fcfsNextSlice v s = some (s', r)) :
    ∃ q', refFcfsPick v q = some (q', r) ∧ FcfsAlike v s' q' (pl.afterNext r) := by
  unfold fcfsNextSlice at run
  cases empty : s.isEmpty with
  | true =>
      rw [empty] at run
      cases run
      refine ⟨q, ?_, alike⟩
      rw [alike, Queue.isEmpty_iff.mp empty]
      rfl
  | false =>
      obtain ⟨p, s'', popped, -, -, contents⟩ :=
        QueueReady.pop inv empty (z := fun _ => .done) (by simp)
      rw [empty, popped] at run
      cases run
      refine ⟨s'.toList, ?_, rfl⟩
      rw [alike, contents]
      rfl

/-- FCFS and the class `Fcfs` answer alike. -/
theorem fcfs_matches (w : Workload) :
    Matches (D := D) w policyFcfs refFcfs (FcfsInv w) FcfsAlike where
  preemptOnReady_eq := rfl
  workConserving_eq := rfl
  preempt_none := ⟨fun _ => rfl, fun _ => rfl⟩
  view _ alike _ _ := alike
  arrival inv alike ok hp new run := alike.push inv ok hp (by simp [new]) run
  wake inv alike ok blocked run :=
    alike.push inv ok (ok.outside _ (by simp [blocked])) (by simp [blocked]) run
  next inv alike _ _ run := alike.next inv run
  preempt _ _ _ _ hook := by cases hook
  block _ alike _ _ run := ⟨_, rfl, Option.some.inj run ▸ alike⟩
  complete _ alike _ _ run := ⟨_, rfl, Option.some.inj run ▸ alike⟩

/-- Round robin and its class have the same queue and the same quantum. -/
def RrAlike (_ : SchedView D) (s : Rr) (t : RefRr) (_ : Places) : Prop :=
  t = ⟨s.ready.toList, s.quantum⟩

theorem RrAlike.push {v : SchedView D} {s s' : Rr} {t : RefRr} {pl : Places} {p : Nat}
    (inv : RrInv w v s pl) (alike : RrAlike v s t pl) (ok : ViewOk w v pl) (hp : p < w.len)
    (notReady : pl p ≠ .ready) (run : rrEnqueue v s p = some s') :
    ∃ t', RefRr.arrive v t p = some t' ∧ RrAlike v s' t' (pl.move p .ready) := by
  obtain ⟨ready, pushed, rfl⟩ := Option.map_eq_some_iff.mp run
  obtain ⟨ready', pushed', -, contents⟩ := inv.ready.push ok.ready_lt hp notReady
  obtain rfl : ready' = ready := Option.some.inj (pushed'.symm.trans pushed)
  exact ⟨_, rfl, by rw [RrAlike, alike, contents]⟩

theorem RrAlike.next {v : SchedView D} {s s' : Rr} {t : RefRr} {pl : Places} {r : Option Slice}
    (inv : RrInv w v s pl) (alike : RrAlike v s t pl) (run : rrNextSlice v s = some (s', r)) :
    ∃ t', RefRr.pick v t = some (t', r) ∧ RrAlike v s' t' (pl.afterNext r) := by
  unfold rrNextSlice at run
  cases empty : s.ready.isEmpty with
  | true =>
      rw [empty] at run
      cases run
      refine ⟨t, ?_, alike⟩
      rw [alike, Queue.isEmpty_iff.mp empty]
      rfl
  | false =>
      obtain ⟨p, ready, popped, -, -, contents⟩ :=
        inv.ready.pop empty (z := fun _ => .done) (by simp)
      rw [empty, popped] at run
      cases run
      refine ⟨⟨ready.toList, s.quantum⟩, ?_, rfl⟩
      rw [alike, contents]
      rfl

/-- Round robin and the class `Rr` answer alike. -/
theorem rr_matches (w : Workload) : Matches (D := D) w policyRr refRr (RrInv w) RrAlike where
  preemptOnReady_eq := rfl
  workConserving_eq := rfl
  preempt_none := by simp [policyRr, refRr]
  view _ alike _ _ := alike
  arrival inv alike ok hp new run := alike.push inv ok hp (by simp [new]) run
  wake inv alike ok blocked run :=
    alike.push inv ok (ok.outside _ (by simp [blocked])) (by simp [blocked]) run
  next inv alike _ _ run := alike.next inv run
  preempt inv alike ok out hook hook' run := by
    cases hook
    cases hook'
    exact alike.push inv ok (ok.outside _ (by simp [out])) (by simp [out]) run
  block _ alike _ _ run := ⟨_, rfl, Option.some.inj run ▸ alike⟩
  complete _ alike _ _ run := ⟨_, rfl, Option.some.inj run ▸ alike⟩

/-! ## SJF and SRTF with exact bursts -/

/-- The list holds the processes that the heap holds, and the bursts are exact. -/
structure ShortestAlike (v : SchedView D) (_ : Heap) (readyList : List Nat) (pl : Places) :
    Prop where
  oracle : v.predicted = none
  holds : Holds pl readyList

namespace ShortestAlike

variable {less : SchedView D → Nat → Nat → Bool} {v : SchedView D} {s s' : Heap}
  {readyList : List Nat} {pl : Places} {p : Nat}

theorem view {v' : SchedView D} (alike : ShortestAlike v s readyList pl)
    (step : ViewStep pl v v') : ShortestAlike v' s readyList pl :=
  ⟨step.oracle_iff.mpr alike.oracle, alike.holds⟩

theorem push (alike : ShortestAlike v s readyList pl) (notReady : pl p ≠ .ready) :
    ∃ list, some (readyList ++ [p]) = some list ∧ ShortestAlike v s' list (pl.move p .ready) :=
  ⟨_, rfl, alike.oracle, alike.holds.append notReady⟩

theorem other {z : Place} (alike : ShortestAlike v s readyList pl) (notReady : pl p ≠ .ready)
    (stays : z ≠ .ready) : ShortestAlike v s' readyList (pl.move p z) :=
  ⟨alike.oracle, alike.holds.other notReady stays⟩

/-- The root of the heap is what the scan finds. -/
theorem next (ranking : Ranking w less) (inv : ShortestInv less w v s pl)
    (alike : ShortestAlike v s readyList pl) (ok : ViewOk w v pl) {r : Option Slice}
    (run : popWholeBurst (less v) v s = some (s', r)) :
    ∃ list, refKeyedPick (less v) v readyList = some (list, r) ∧
      ShortestAlike v s' list (pl.afterNext r) := by
  rcases inv.next ranking ok with ⟨stuck, none⟩ | ⟨p, heap, popped, ready, -, least⟩
  · cases stuck.symm.trans run
    refine ⟨readyList, ?_, alike⟩
    rw [alike.holds.eq_nil none]
    rfl
  · cases popped.symm.trans run
    refine ⟨readyList.erase p, ?_, alike.oracle, alike.holds.erase ready (by simp)⟩
    rw [refKeyedPick, alike.holds.minBy_eq (ranking.total v ok.procs_eq alike.oracle) ok.ready_lt
      ready (least alike.oracle)]

end ShortestAlike

/-- SJF with exact bursts and the class `Sjf` answer alike. -/
theorem sjf_matches [Double D] (valid : w.Valid) :
    Matches (D := D) w policySjf refSjf (ShortestInv sjfLess w) ShortestAlike where
  preemptOnReady_eq := rfl
  workConserving_eq := rfl
  preempt_none := ⟨fun _ => rfl, fun _ => rfl⟩
  view _ alike _ step := alike.view step
  arrival _ alike _ _ new _ := alike.push (by simp [new])
  wake _ alike _ blocked _ := alike.push (by simp [blocked])
  next {v s s' t pl r} inv alike ok _ run := by
    obtain ⟨list, picked, alike'⟩ := alike.next (sjf_ranking valid) inv ok run
    rw [sjfLess_oracle alike.oracle] at picked
    exact ⟨list, picked, alike'⟩
  preempt _ _ _ _ hook := by cases hook
  block {v s s' t pl p slice ran} _ alike _ out _ :=
    ⟨t, rfl, alike.other (by simp [out]) (by simp)⟩
  complete {v s s' t pl p slice ran} _ alike _ out _ :=
    ⟨t, rfl, alike.other (by simp [out]) (by simp)⟩

/-- SRTF with exact bursts and the class `Srtf` answer alike. -/
theorem srtf_matches [Double D] (valid : w.Valid) :
    Matches (D := D) w policySrtf refSrtf (ShortestInv srtfLess w) ShortestAlike where
  preemptOnReady_eq := rfl
  workConserving_eq := rfl
  preempt_none := by simp [policySrtf, refSrtf]
  view _ alike _ step := alike.view step
  arrival _ alike _ _ new _ := alike.push (by simp [new])
  wake _ alike _ blocked _ := alike.push (by simp [blocked])
  next {v s s' t pl r} inv alike ok _ run := by
    obtain ⟨list, picked, alike'⟩ := alike.next (srtf_ranking valid) inv ok run
    rw [srtfLess_oracle alike.oracle] at picked
    exact ⟨list, picked, alike'⟩
  preempt _ alike _ out _ hook _ := by
    cases hook
    exact alike.push (by simp [out])
  block {v s s' t pl p slice ran} _ alike _ out _ :=
    ⟨t, rfl, alike.other (by simp [out]) (by simp)⟩
  complete {v s s' t pl p slice ran} _ alike _ out _ :=
    ⟨t, rfl, alike.other (by simp [out]) (by simp)⟩

end CpuSched
