import CpuSched.Util.Queue
import Mathlib.Data.List.Range
import Mathlib.Data.Nat.ModEq
import Mathlib.Tactic.Common

/-!
# The ring buffer is a FIFO

The entries from the head on, in order, form a list: a push appends to it and a
pop takes its first element, also when the buffer wraps.
-/

namespace CpuSched

/-- The entries from the oldest to the newest. -/
def Queue.toList (q : Queue) : List Nat :=
  (List.range q.len).map fun i => q.items ((q.head + i) % q.cap)

/-- What the operations maintain: the length fits and the head is a slot. -/
structure Queue.Wf (q : Queue) : Prop where
  len_le : q.len ≤ q.cap
  head_lt : 0 < q.cap → q.head < q.cap

@[simp]
theorem Queue.length_toList (q : Queue) : q.toList.length = q.len := by
  simp [Queue.toList]

theorem Queue.isEmpty_iff {q : Queue} : q.isEmpty = true ↔ q.toList = [] := by
  rw [← List.length_eq_zero_iff, Queue.length_toList]
  simp [Queue.isEmpty]

theorem queueInit_wf (cap : Nat) : (queueInit cap).Wf := ⟨Nat.zero_le _, id⟩

@[simp]
theorem queueInit_toList (cap : Nat) : (queueInit cap).toList = [] := rfl

/-- Two offsets below the capacity name different slots. -/
theorem slot_injective {cap head i j : Nat} (hi : i < cap) (hj : j < cap)
    (same : (head + i) % cap = (head + j) % cap) : i = j := by
  have : i % cap = j % cap := Nat.ModEq.add_left_cancel' head same
  rwa [Nat.mod_eq_of_lt hi, Nat.mod_eq_of_lt hj] at this

/-- `queue_push` succeeds below capacity and appends. -/
theorem queuePush_spec {q : Queue} (v : Nat) (wf : q.Wf) (room : q.len < q.cap) :
    ∃ q', queuePush q v = some q' ∧ q'.Wf ∧ q'.toList = q.toList ++ [v] ∧ q'.cap = q.cap := by
  refine ⟨_, if_pos room, ⟨by simp only; omega, wf.head_lt⟩, ?_, rfl⟩
  simp only [Queue.toList, List.range_succ, List.map_append, List.map_cons, List.map_nil,
    Function.update_self]
  congr 1
  apply List.map_congr_left
  intro i hi
  have hi := List.mem_range.mp hi
  apply Function.update_of_ne
  intro same
  exact hi.ne (slot_injective (by omega) room same)

/-- `queue_pop` succeeds on a non-empty buffer and takes the oldest entry. -/
theorem queuePop_spec {q : Queue} (wf : q.Wf) (nonempty : 0 < q.len) :
    ∃ v q', queuePop q = some (v, q') ∧ q'.Wf ∧ q.toList = v :: q'.toList ∧ q'.cap = q.cap := by
  have hcap : 0 < q.cap := by have := wf.len_le; omega
  refine ⟨_, _, if_pos nonempty, ⟨?_, fun _ => Nat.mod_lt _ hcap⟩, ?_, rfl⟩
  · have := wf.len_le
    simp only
    omega
  · obtain ⟨len, hlen⟩ : ∃ len, q.len = len + 1 := ⟨q.len - 1, by omega⟩
    simp only [Queue.toList, hlen, List.range_succ_eq_map, List.map_cons, List.map_map,
      Nat.add_sub_cancel, Nat.add_zero, Nat.mod_eq_of_lt (wf.head_lt hcap)]
    congr 1
    apply List.map_congr_left
    intro i _
    simp only [Function.comp]
    rw [Nat.mod_add_mod, Nat.add_right_comm, Nat.succ_eq_add_one, Nat.add_assoc]

end CpuSched
