import CpuSched.Policy.Contract
import CpuSched.Util.HeapOrder
import CpuSched.Util.QueueOrder
import Mathlib.Data.List.Perm.Subperm
import Mathlib.Data.Fintype.Card

/-!
# Ready structures as lists

Most policies keep the ready processes in a structure whose contents are a list
without repetition.  Moving a process in the call protocol then adds one entry
to the list or removes one, and a structure of capacity `n` never overflows.
-/

namespace CpuSched

namespace Holds

variable {pl : Places} {ready ready' : List Nat} {p : Nat} {z : Place}

theorem nil : Holds (fun _ => .new) [] := ⟨List.nodup_nil, by simp⟩

theorem none_ready (holds : Holds pl []) : ∀ p, pl p ≠ .ready := by
  intro p hp
  simpa using (holds.mem_iff p).mpr hp

theorem perm (holds : Holds pl ready) (same : ready'.Perm ready) : Holds pl ready' :=
  ⟨same.nodup_iff.mpr holds.nodup, fun q => by rw [same.mem_iff, holds.mem_iff]⟩

/-- Handing a process over adds it. -/
theorem push (holds : Holds pl ready) (notReady : pl p ≠ .ready) :
    Holds (pl.move p .ready) (p :: ready) := by
  constructor
  · exact List.nodup_cons.mpr ⟨fun mem => notReady ((holds.mem_iff p).mp mem), holds.nodup⟩
  · intro q
    by_cases hq : q = p
    · subst hq
      simp
    · simp [hq, holds.mem_iff]

/-- The process that a pop returns was ready, and leaves. -/
theorem pop (holds : Holds pl (p :: ready)) (leaves : z ≠ .ready) :
    pl p = .ready ∧ Holds (pl.move p z) ready := by
  have hnodup := List.nodup_cons.mp holds.nodup
  refine ⟨(holds.mem_iff p).mp List.mem_cons_self, hnodup.2, fun q => ?_⟩
  by_cases hq : q = p
  · subst hq
    simp [hnodup.1, leaves]
  · rw [pl.move_of_ne _ hq, ← holds.mem_iff, List.mem_cons]
    simp [hq]

/-- Moves between places other than `ready` do not show. -/
theorem other (holds : Holds pl ready) (notReady : pl p ≠ .ready) (stays : z ≠ .ready) :
    Holds (pl.move p z) ready := by
  refine ⟨holds.nodup, fun q => ?_⟩
  by_cases hq : q = p
  · subst hq
    simp [holds.mem_iff, notReady, stays]
  · rw [pl.move_of_ne _ hq, holds.mem_iff]

/-- There is room for a process that is not ready. -/
theorem length_lt {n : Nat} (holds : Holds pl ready) (bound : ∀ q, pl q = .ready → q < n)
    (hp : p < n) (notReady : pl p ≠ .ready) : ready.length < n := by
  have subset : (p :: ready) ⊆ List.range n := by
    intro q hq
    rcases List.mem_cons.mp hq with rfl | hq
    · exact List.mem_range.mpr hp
    · exact List.mem_range.mpr (bound q ((holds.mem_iff q).mp hq))
  have := (List.subperm_of_subset (holds.push notReady).nodup subset).length_le
  simpa [Nat.succ_le_iff] using this

end Holds

theorem ViewOk.ready_lt {D : Type} {w : Workload} {v : SchedView D} {pl : Places}
    (ok : ViewOk w v pl) : ∀ p, pl p = .ready → p < w.len :=
  fun p hp => ok.outside p (by rw [hp]; simp)

/-! ## Heaps -/

/-- A heap of capacity `n` that holds the ready processes; it is in heap order
when `ordered` says that the comparator orders the processes. -/
structure HeapReady (n : Nat) (less : Nat → Nat → Bool) (ordered : Prop) (h : Heap) (pl : Places) :
    Prop where
  cap_eq : h.cap = n
  holds : Holds pl h.toList
  heapOrdered : ordered → HeapOrdered less h.items h.len

namespace HeapReady

variable {n : Nat} {less : Nat → Nat → Bool} {ordered : Prop} {h : Heap} {pl : Places} {p : Nat}

theorem init (n : Nat) (less : Nat → Nat → Bool) (ordered : Prop) :
    HeapReady n less ordered (heapInit n) (fun _ => .new) := by
  refine ⟨rfl, Holds.nil, fun _ c _ clen => ?_⟩
  simp [heapInit] at clen

/-- A heap sized to the workload has room for a process that is not ready. -/
theorem push (hr : HeapReady n less ordered h pl) (bound : ∀ q, pl q = .ready → q < n)
    (total : ordered → StrictTotalOn less (· < n)) (hp : p < n) (notReady : pl p ≠ .ready) :
    ∃ h', heapPush less h p = some h' ∧ HeapReady n less ordered h' (pl.move p .ready) := by
  have room : h.len < h.cap := by
    rw [hr.cap_eq, ← Heap.length_toList]
    exact hr.holds.length_lt bound hp notReady
  obtain ⟨h', pushed, perm, cap, _⟩ := heapPush_spec less p room
  refine ⟨h', pushed, ⟨cap.trans hr.cap_eq, (hr.holds.push notReady).perm perm, fun ho => ?_⟩⟩
  exact heapPush_ordered (total ho) (hr.heapOrdered ho)
    (fun x hx => bound x ((hr.holds.mem_iff x).mp hx)) hp pushed

/-- A pop returns a ready process, the least one when the heap is in order. -/
theorem pop (hr : HeapReady n less ordered h pl) (bound : ∀ q, pl q = .ready → q < n)
    (total : ordered → StrictTotalOn less (· < n)) (nonempty : h.isEmpty = false) {z : Nat → Place}
    (leaves : ∀ q, z q ≠ .ready) :
    ∃ q h', heapPop less h = some (q, h') ∧ pl q = .ready ∧
      HeapReady n less ordered h' (pl.move q (z q)) ∧
      (ordered → ∀ x, pl x = .ready → x ≠ q → less q x = true) := by
  have hlen := Heap.isEmpty_eq_false_iff.mp nonempty
  have members := fun x hx => bound x ((hr.holds.mem_iff x).mp hx)
  obtain ⟨h', popped, perm, cap, _⟩ := heapPop_spec less hlen
  obtain ⟨ready, holds⟩ := (hr.holds.perm perm.symm).pop (leaves (h.items 0))
  refine ⟨_, h', popped, ready, ⟨cap.trans hr.cap_eq, holds, fun ho => ?_⟩, fun ho x hx hne => ?_⟩
  · exact heapPop_ordered (total ho) (hr.heapOrdered ho) members popped
  · exact Heap.root_least (total ho) (hr.heapOrdered ho) members x ((hr.holds.mem_iff x).mpr hx) hne

theorem none_ready (hr : HeapReady n less ordered h pl) (empty : h.isEmpty = true) :
    ∀ p, pl p ≠ .ready := by
  have holds := hr.holds
  rw [Heap.isEmpty_iff.mp empty] at holds
  exact holds.none_ready

theorem other {z : Place} (hr : HeapReady n less ordered h pl) (notReady : pl p ≠ .ready)
    (stays : z ≠ .ready) : HeapReady n less ordered h (pl.move p z) :=
  ⟨hr.cap_eq, hr.holds.other notReady stays, hr.heapOrdered⟩

/-- The heap order only depends on the keys of the ready processes. -/
theorem congr {less' : Nat → Nat → Bool} {ordered' : Prop} (hr : HeapReady n less ordered h pl)
    (weaker : ordered' → ordered)
    (same : ∀ a b, pl a = .ready → pl b = .ready → less' a b = less a b) :
    HeapReady n less' ordered' h pl := by
  refine ⟨hr.cap_eq, hr.holds, fun ho => (hr.heapOrdered (weaker ho)).congr ?_⟩
  intro i hi j hj
  exact same _ _ ((hr.holds.mem_iff _).mp (Heap.mem_toList.mpr ⟨i, hi, rfl⟩))
    ((hr.holds.mem_iff _).mp (Heap.mem_toList.mpr ⟨j, hj, rfl⟩))

end HeapReady

/-! ## Ring buffers -/

/-- A ring buffer of capacity `n` that holds the ready processes. -/
structure QueueReady (n : Nat) (q : Queue) (pl : Places) : Prop where
  wf : q.Wf
  cap_eq : q.cap = n
  holds : Holds pl q.toList

namespace QueueReady

variable {n : Nat} {q : Queue} {pl : Places} {p : Nat}

theorem init (n : Nat) : QueueReady n (queueInit n) (fun _ => .new) :=
  ⟨queueInit_wf n, rfl, Holds.nil⟩

theorem push (hr : QueueReady n q pl) (bound : ∀ x, pl x = .ready → x < n) (hp : p < n)
    (notReady : pl p ≠ .ready) :
    ∃ q', queuePush q p = some q' ∧ QueueReady n q' (pl.move p .ready) ∧
      q'.toList = q.toList ++ [p] := by
  have room : q.len < q.cap := by
    rw [hr.cap_eq, ← Queue.length_toList]
    exact hr.holds.length_lt bound hp notReady
  obtain ⟨q', pushed, wf, contents, cap⟩ := queuePush_spec p hr.wf room
  refine ⟨q', pushed, ⟨wf, cap.trans hr.cap_eq, (hr.holds.push notReady).perm ?_⟩, contents⟩
  rw [contents]
  exact List.perm_append_singleton p _

theorem pop (hr : QueueReady n q pl) (nonempty : q.isEmpty = false) {z : Nat → Place}
    (leaves : ∀ x, z x ≠ .ready) :
    ∃ x q', queuePop q = some (x, q') ∧ pl x = .ready ∧
      QueueReady n q' (pl.move x (z x)) ∧ q.toList = x :: q'.toList := by
  have hlen : 0 < q.len := by
    by_contra h
    simp [Queue.isEmpty, Nat.pos_iff_ne_zero] at nonempty h
    contradiction
  obtain ⟨x, q', popped, wf, contents, cap⟩ := queuePop_spec hr.wf hlen
  have holds := hr.holds
  rw [contents] at holds
  obtain ⟨ready, holds⟩ := holds.pop (leaves x)
  exact ⟨x, q', popped, ready, ⟨wf, cap.trans hr.cap_eq, holds⟩, contents⟩

theorem none_ready (hr : QueueReady n q pl) (empty : q.isEmpty = true) : ∀ p, pl p ≠ .ready := by
  have holds := hr.holds
  rw [Queue.isEmpty_iff.mp empty] at holds
  exact holds.none_ready

theorem other {z : Place} (hr : QueueReady n q pl) (notReady : pl p ≠ .ready)
    (stays : z ≠ .ready) : QueueReady n q (pl.move p z) :=
  ⟨hr.wf, hr.cap_eq, hr.holds.other notReady stays⟩

end QueueReady

end CpuSched
