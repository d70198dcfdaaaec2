import Mathlib.Logic.Function.Basic

/-!
# The ring buffer

`src/util/queue.c`: a fixed-capacity FIFO of process indices.
-/

namespace CpuSched

/-- `Queue`. -/
structure Queue where
  items : Nat → Nat
  cap : Nat
  head : Nat
  len : Nat

/-- `queue_init`; the allocation succeeds. -/
def queueInit (cap : Nat) : Queue := ⟨fun _ => 0, cap, 0, 0⟩

/-- `queue_empty`. -/
def Queue.isEmpty (q : Queue) : Bool := q.len = 0

/-- `queue_push`. -/
def queuePush (q : Queue) (v : Nat) : Option Queue :=
  if q.len < q.cap then
    some { q with
      items := Function.update q.items ((q.head + q.len) % q.cap) v
      len := q.len + 1 }
  else none

/-- `queue_pop`: the oldest entry and the rest. -/
def queuePop (q : Queue) : Option (Nat × Queue) :=
  if 0 < q.len then
    some (q.items q.head, { q with head := (q.head + 1) % q.cap, len := q.len - 1 })
  else none

end CpuSched
